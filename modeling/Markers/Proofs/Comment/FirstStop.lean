import Markers.Proofs.Comment.Stop

/-!
# The first stop in a body

`StartsStop` says what a stop is without reading it: the sign of the comment, the spaces allowed in
front of the keyword of a stop, and the longest keyword there, which no letter follows. A body is
cut at the least offset at which one stands (`stopIn_least`): all stops are listed (`mem_stops`),
so dropping those whose keyword a letter follows loses no other one. In front of a cut there is no
stop either. A keyword at the new end of the body would have the sign of the next comment behind it,
which is no letter or digit, so it would have been a stop before the cut.
-/

namespace Markers.CommentForm
open Text

/-- That a text starts with a stop of the form. -/
def StartsStop (form : CommentForm) (s : List Char) : Prop :=
  ∃ gap kind rest, form.StopGap gap ∧ s = form.lead ++ gap ++ (Kind.token kind ++ rest) ∧
    Keyword.IsLongest kind.token (kind.token ++ rest) ∧ ∀ c ∈ rest.head?, c.isAlpha = false

/-- That a stop of the form stands at an offset of a body. -/
def StopsAt (form : CommentForm) (body : List Char) (offset : Nat) : Prop :=
  ∃ before behind, body = before ++ behind ∧ byteLength before = offset ∧ form.StartsStop behind

/-- What starts with a stop is read as one whose keyword is whole. -/
theorem startsStop_iff {form : CommentForm} {s : List Char} :
    form.StartsStop s ↔
      ∃ matched rest, form.stopAt? s = some (matched, rest) ∧ Keyword.endsBefore rest = true := by
  constructor
  · rintro ⟨gap, kind, rest, allowed, split, longest, ends⟩
    have read := Keyword.read?_of_isLongest longest
    exact ⟨_, rest, stopAt?_eq_some_iff.2 ⟨gap, kind.token, allowed, rfl, split, read⟩,
      Keyword.endsBefore_iff.2 ends⟩
  · rintro ⟨matched, rest, found, ends⟩
    obtain ⟨gap, keyword, allowed, rfl, split, read⟩ := stopAt?_eq_some_iff.1 found
    obtain ⟨kind, _, rfl⟩ := (Keyword.read?_spec read).1.exists_token
    exact ⟨gap, kind, rest, allowed, split, Keyword.isLongest_of_read? read,
      Keyword.endsBefore_iff.1 ends⟩

/-- A stop begins with a character that is no letter or digit. -/
theorem StartsStop.not_isAlphanum {form : CommentForm} {s : List Char} (h : form.StartsStop s) :
    ∀ c ∈ s.head?, c.isAlphanum = false := by
  obtain ⟨gap, kind, rest, allowed, rfl, _⟩ := h
  obtain ⟨c, l, lead, symbol⟩ := exists_lead_head (ne_checkbox_of_cuts (cuts_of_stopGap allowed))
  rw [lead]
  rintro _ ⟨⟩
  exact symbol

theorem StartsStop.ne_nil {form : CommentForm} {s : List Char} (h : form.StartsStop s) : s ≠ [] := by
  rintro rfl
  obtain ⟨_, _, found, _⟩ := startsStop_iff.1 h
  rw [stopAt?_nil] at found
  cases found

/-- A stop stays one whatever follows the body, unless that begins with a letter or digit. -/
theorem StopsAt.append {form : CommentForm} {body t : List Char} {offset : Nat}
    (h : form.StopsAt body offset) (apart : ∀ c ∈ t.head?, c.isAlphanum = false) :
    form.StopsAt (body ++ t) offset := by
  obtain ⟨before, behind, rfl, place, starts⟩ := h
  obtain ⟨matched, rest, found, whole⟩ := startsStop_iff.1 starts
  refine ⟨before, behind ++ t, List.append_assoc .., place, startsStop_iff.2 ?_⟩
  exact ⟨matched, rest ++ t, stopAt?_append_of_eq_some found apart,
    by rw [Keyword.endsBefore_append rest apart, whole]⟩

/-- A stop stands in front of the end of the body. -/
theorem StopsAt.lt {form : CommentForm} {body : List Char} {offset : Nat}
    (h : form.StopsAt body offset) : offset < byteLength body := by
  obtain ⟨before, behind, rfl, rfl, starts⟩ := h
  have some := byteLength_pos starts.ne_nil
  rw [byteLength_append]
  omega

/-- The stops of a body are those in the list of its stops whose keyword is whole. -/
theorem stopsAt_iff_mem_stops {form : CommentForm} {body : List Char} {offset : Nat} :
    form.StopsAt body offset ↔
      ∃ stop ∈ form.stops 0 0 body, stop.1 = offset ∧ Keyword.endsBefore stop.2 = true := by
  constructor
  · rintro ⟨before, behind, rfl, rfl, starts⟩
    obtain ⟨matched, rest, found, whole⟩ := startsStop_iff.1 starts
    have listed := mem_stops found before 0 0 fun _ _ _ short => absurd short (Nat.not_lt_zero _)
    exact ⟨_, listed, Nat.zero_add _, whole⟩
  · rintro ⟨stop, listed, rfl, whole⟩
    obtain ⟨before, behind, matched, split, place, found⟩ := stop_of_mem_stops listed
    rw [Nat.zero_add] at place
    exact ⟨before, behind, split, place.symm, startsStop_iff.2 ⟨matched, stop.2, found, whole⟩⟩

/-- A body is cut at a stop. -/
theorem stopsAt_of_stopIn {form : CommentForm} {body : List Char} {offset : Nat}
    (h : form.stopIn body = some offset) : form.StopsAt body offset := by
  obtain ⟨before, behind, matched, rest, split, place, found, whole⟩ := stopIn_eq_some h
  exact ⟨before, behind, split, place, startsStop_iff.2 ⟨matched, rest, found, whole⟩⟩

/-- A body with a stop is cut there or further in front. -/
theorem StopsAt.exists_stopIn_le {form : CommentForm} {body : List Char} {offset : Nat}
    (h : form.StopsAt body offset) : ∃ n, form.stopIn body = some n ∧ n ≤ offset := by
  obtain ⟨before, behind, rfl, rfl, starts⟩ := h
  obtain ⟨matched, rest, found, whole⟩ := startsStop_iff.1 starts
  exact CommentForm.exists_stopIn_le found whole before

/-- In front of the first stop there is none, though the body ends there. -/
theorem not_stopsAt_of_least {form : CommentForm} {before behind : List Char}
    (starts : form.StartsStop behind)
    (least : ∀ k, form.StopsAt (before ++ behind) k → byteLength before ≤ k) (k : Nat) :
    ¬ form.StopsAt before k := by
  intro stop
  have inside := stop.lt
  have := least k (stop.append starts.not_isAlphanum)
  omega

/-- No stop comes from trimming a text. -/
theorem StopsAt.of_trimEnd {form : CommentForm} {s : List Char} {offset : Nat}
    (h : form.StopsAt (trimEnd s) offset) : form.StopsAt s offset := by
  obtain ⟨blanks, split, blank⟩ := trimEnd_append_blanks s
  rw [split]
  refine h.append fun c first => not_isAlphanum_of_isBlank (blank c ?_)
  exact List.mem_of_mem_head? first

/-- **A body is cut at its first stop.** The cut is the least offset at which a stop of the form
stands, its keyword not followed by a letter, and there is none exactly if there is no such offset.
Those offsets are all in the list of stops that do not overlap. What is kept of a cut body has no
stop, nor has it after trimming. -/
theorem stopIn_least (form : CommentForm) (body : List Char) :
    (∀ n, form.stopIn body = some n ↔
      form.StopsAt body n ∧ ∀ k, form.StopsAt body k → n ≤ k) ∧
    (form.stopIn body = none ↔ ∀ n, ¬ form.StopsAt body n) ∧
    (∀ n, form.StopsAt body n ↔
      ∃ stop ∈ form.stops 0 0 body, stop.1 = n ∧ Keyword.endsBefore stop.2 = true) ∧
    ∀ n, form.stopIn body = some n → ∃ kept cut, body = kept ++ cut ∧ byteLength kept = n ∧
      form.StartsStop cut ∧ ∀ k, ¬ form.StopsAt kept k ∧ ¬ form.StopsAt (trimEnd kept) k := by
  have least : ∀ n, form.stopIn body = some n → ∀ k, form.StopsAt body k → n ≤ k := by
    intro n first k stop
    obtain ⟨n', first', le⟩ := stop.exists_stopIn_le
    rw [first, Option.some_inj] at first'
    exact first'.trans_le le
  refine ⟨fun n => ⟨fun first => ⟨stopsAt_of_stopIn first, least n first⟩, ?_⟩, ⟨?_, ?_⟩,
    fun n => stopsAt_iff_mem_stops, fun n first => ?_⟩
  · rintro ⟨stop, smallest⟩
    obtain ⟨n', first, le⟩ := stop.exists_stopIn_le
    rw [first, Nat.le_antisymm le (smallest n' (stopsAt_of_stopIn first))]
  · intro none n stop
    obtain ⟨n', first, _⟩ := stop.exists_stopIn_le
    rw [none] at first
    cases first
  · intro none
    refine Option.eq_none_iff_forall_ne_some.2 fun n first => none n (stopsAt_of_stopIn first)
  · obtain ⟨kept, cut, split, place, starts⟩ := stopsAt_of_stopIn first
    have free := not_stopsAt_of_least starts fun k stop => by
      rw [place]
      exact least n first k (split ▸ stop)
    exact ⟨kept, cut, split, place, starts, fun k => ⟨free k, fun stop => free k stop.of_trimEnd⟩⟩

/-- A letter behind the keyword makes it a plain word, and the next stop counts. -/
example : hashColon.stopIn "x # NETWORK # TODO".toList = some 12 := by decide

end Markers.CommentForm

import Markers.Proofs.Comment.Opener

/-!
# Stops in a body

A stop is the lead of a line comment, a gap and a keyword (`stopAt?_eq_some_iff`), so it is a match
of its form (`exists_matchAt?_of_stopAt?`), and a match whose gap is short enough is a stop. No stop
begins inside another one, and none reaches over a line break (`stopAt?_append`). So `stops` lists
all of them (`mem_stops`), from left to right (`pairwise_stops`). `stopIn` gives the offset of a cut
of the body behind which another marker of the form starts (`stopIn_eq_some`), and no stop with a
whole keyword stands in front of it (`exists_stopIn_le`).
-/

namespace Markers.CommentForm
open Text

/-- Line comments and hash comments can be cut, no other form. -/
theorem form_of_cuts {form : CommentForm} (cuts : form.cuts = true) :
    (∃ opener, form = line opener true) ∨ form = hashColon := by
  cases form with
  | line opener cut =>
    cases cuts
    exact .inl ⟨opener, rfl⟩
  | hashColon => exact .inr rfl
  | _ => cases cuts

/-! ## One stop -/

/-- What may stand between the lead of a form and the keyword of a stop. -/
def StopGap : CommentForm → List Char → Prop
  | line _ true, gap => gap = [] ∨ gap = [' ']
  | hashColon, gap => ∃ n, gap = List.replicate n ' '
  | _, _ => False

/-- Only line comments have stops. -/
theorem cuts_of_stopGap {form : CommentForm} {gap : List Char} (h : form.StopGap gap) :
    form.cuts = true := by
  unfold StopGap at h
  split at h
  · rfl
  · rfl
  · exact absurd h id

/-- A run of spaces in front of a keyword is all of them. -/
theorem run_spaces_append {s : List Char} {q : List Char × List Char} (n : Nat)
    (read : Keyword.read? s = some q) :
    run (· == ' ') (List.replicate n ' ' ++ s) = (List.replicate n ' ', s) := by
  obtain ⟨c, rest, rfl, initial⟩ := exists_initial read
  have other : (c == ' ') = false := by
    apply beq_false_of_ne
    rintro rfl
    simp [Keyword.isInitial] at initial
  simp [run, other]

theorem stopAt?_eq_some_iff {form : CommentForm} {s matched rest : List Char} :
    form.stopAt? s = some (matched, rest) ↔ ∃ gap keyword, form.StopGap gap ∧
      matched = form.lead ++ gap ++ keyword ∧ s = form.lead ++ gap ++ (keyword ++ rest) ∧
      Keyword.read? (keyword ++ rest) = some (keyword, rest) := by
  constructor
  · intro h
    unfold stopAt? at h
    split at h
    · next opener =>
      obtain ⟨tail, found, h⟩ := Option.bind_eq_some_iff.1 h
      have whole := (List.isPrefixOf?_eq_some_iff_append_eq.1 found).symm
      split at h
      next space behind parts =>
      obtain ⟨⟨keyword, behind'⟩, read, h⟩ := Option.bind_eq_some_iff.1 h
      cases h
      obtain rfl := (Keyword.read?_spec read).2
      split at parts
      · cases parts
        exact ⟨[' '], keyword, .inr rfl, by simp [lead], by simp [whole, lead], read⟩
      · cases parts
        exact ⟨[], keyword, .inl rfl, by simp [lead], by simp [whole, lead], read⟩
    · obtain ⟨⟨opener, tail⟩, found, h⟩ := Option.bind_eq_some_iff.1 h
      obtain ⟨⟨keyword, behind⟩, read, h⟩ := Option.bind_eq_some_iff.1 h
      cases h
      obtain ⟨between, front, all, split⟩ := literalRun?_spec found
      have spaces : between = List.replicate between.length ' ' :=
        List.eq_replicate_of_mem fun c mem => eq_of_beq (all c mem)
      simp only at front split read
      obtain rfl := (Keyword.read?_spec read).2
      exact ⟨between, keyword, ⟨_, spaces⟩, by rw [front]; rfl, by rw [split, front]; rfl, read⟩
    · simp at h
  · rintro ⟨gap, keyword, allowed, rfl, rfl, read⟩
    obtain ⟨opener, rfl⟩ | rfl := form_of_cuts (cuts_of_stopGap allowed)
    · rcases allowed with empty | one
      · obtain ⟨c, tail, initial, capital⟩ := exists_initial read
        have other : c ≠ ' ' := by
          rintro rfl
          simp [Keyword.isInitial] at capital
        rw [initial] at read ⊢
        cases opener <;>
          simp [stopAt?, LineOpener.chars, lead, List.isPrefixOf?, empty, read, other]
      · cases opener <;> simp [stopAt?, LineOpener.chars, lead, List.isPrefixOf?, one, read]
    · obtain ⟨n, spaces⟩ := allowed
      have all := run_spaces_append n read
      simp [stopAt?, opener?, literalRun?, lead, List.isPrefixOf?, spaces, all, read]

theorem exists_replicate_of_stopGap {form : CommentForm} {gap : List Char} (h : form.StopGap gap) :
    ∃ n, gap = List.replicate n ' ' := by
  unfold StopGap at h
  split at h
  · rcases h with rfl | rfl
    · exact ⟨0, rfl⟩
    · exact ⟨1, rfl⟩
  · exact h
  · exact absurd h id

theorem ne_checkbox_of_cuts {form : CommentForm} (cuts : form.cuts = true) : form ≠ checkbox := by
  rintro rfl
  simp [CommentForm.cuts] at cuts

/-- The body of a line comment is the rest of its line, and nothing closes it. -/
theorem exists_body?_of_cuts {form : CommentForm} (cuts : form.cuts = true) (s : List Char) :
    ∃ body rest, form.body? s = some body ∧ s = body.chars ++ rest ∧ Breaks rest ∧
      ∀ separator text closer, body = .content separator text closer → closer = [] := by
  -- a body of the line behind a separator is the rest of the line
  have content : ∀ separator inner, s = separator ++ inner →
      ∃ rest, s = Body.chars (.content separator (restOfLine inner) []) ++ rest ∧ Breaks rest := by
    rintro separator inner rfl
    obtain ⟨rest, line, newline⟩ := exists_restOfLine inner
    refine ⟨rest, ?_, fun c first => .inl (newline c first)⟩
    rw [Body.chars, List.append_nil, List.append_assoc, ← line]
  obtain ⟨opener, rfl⟩ | rfl := form_of_cuts cuts
  · obtain ⟨rest, split, breaks⟩ := content _ _ (colonSpace_append s).symm
    exact ⟨_, rest, rfl, split, breaks, fun _ _ _ same => (Body.content.inj same).2.2.symm⟩
  · unfold body?
    simp only
    split
    · next behind =>
      obtain ⟨rest, split, breaks⟩ := content (':' :: (run (· == ' ') behind).1)
        (run (· == ' ') behind).2 (by rw [List.cons_append, run_append])
      exact ⟨_, rest, rfl, split, breaks, fun _ _ _ same => (Body.content.inj same).2.2.symm⟩
    · obtain ⟨rest, split, newline⟩ := exists_restOfLine s
      exact ⟨_, rest, rfl, split, fun c first => .inl (newline c first),
        fun _ _ _ same => by simp at same⟩

/-- The body of a line comment is on one line. -/
theorem newline_not_mem_body {form : CommentForm} {s : List Char} {body : Body}
    (cuts : form.cuts = true) (bodied : form.body? s = some body) : '\n' ∉ body.chars := by
  obtain ⟨opener, rfl⟩ | rfl := form_of_cuts cuts
  · cases bodied
    simp only [Body.chars, List.append_nil, List.mem_append, not_or]
    exact ⟨newline_not_mem_colonSpace s, newline_not_mem_restOfLine _⟩
  · unfold body? at bodied
    simp only at bodied
    split at bodied
    · next behind =>
      cases bodied
      rw [Body.chars, run_spaces]
      simp [newline_not_mem_restOfLine]
    · cases bodied
      exact newline_not_mem_restOfLine s

/-- Behind the lead of a line comment and spaces a keyword makes a match. -/
theorem exists_matchAt?_of_cuts {form : CommentForm} (cuts : form.cuts = true) (start : Bool)
    (n : Nat)
    {keyword rest : List Char} (read : Keyword.read? (keyword ++ rest) = some (keyword, rest)) :
    ∃ shape,
      form.matchAt? start (form.lead ++ List.replicate n ' ' ++ (keyword ++ rest)) = some shape ∧
      shape.opener = form.lead ++ List.replicate n ' ' ∧ shape.keyword = keyword ∧
      form.body? rest = some shape.body := by
  have spaces := run_spaces_append n read
  have front : form.lead.isPrefixOf? (form.lead ++ (List.replicate n ' ' ++ (keyword ++ rest))) =
      some (List.replicate n ' ' ++ (keyword ++ rest)) :=
    List.isPrefixOf?_eq_some_iff_append_eq.2 rfl
  have opened : form.opener? (form.lead ++ List.replicate n ' ' ++ (keyword ++ rest)) =
      some (form.lead ++ List.replicate n ' ', keyword ++ rest) := by
    rw [List.append_assoc]
    obtain ⟨opener, rfl⟩ | rfl := form_of_cuts cuts
    · show literalRun? opener.chars (· == ' ') _ = _
      rw [literalRun?, show opener.chars = (line opener true).lead from rfl, front, Option.map_some,
        spaces]
    · show literalRun? hashColon.lead (· == ' ') _ = _
      rw [literalRun?, front, Option.map_some, spaces]
  obtain ⟨body, _, bodied, _⟩ := exists_body?_of_cuts cuts rest
  obtain ⟨shape, found, same, rfl, rfl⟩ :=
    exists_matchAt? start (ne_checkbox_of_cuts cuts) opened read bodied
  exact ⟨shape, found, same, rfl, bodied⟩

/-- A stop is a match of its form. -/
theorem exists_matchAt?_of_stopAt? {form : CommentForm} {s matched rest : List Char} (start : Bool)
    (h : form.stopAt? s = some (matched, rest)) :
    ∃ shape, form.matchAt? start s = some shape ∧ shape.opener ++ shape.keyword = matched ∧
      s = matched ++ rest ∧ form.body? rest = some shape.body := by
  obtain ⟨gap, keyword, allowed, rfl, rfl, read⟩ := stopAt?_eq_some_iff.1 h
  obtain ⟨n, rfl⟩ := exists_replicate_of_stopGap allowed
  obtain ⟨shape, found, opener, rfl, bodied⟩ :=
    exists_matchAt?_of_cuts (cuts_of_stopGap allowed) start n read
  exact ⟨shape, found, by rw [opener], by simp, bodied⟩

/-- Every form with stops belongs to a family. -/
theorem exists_family_of_cuts {form : CommentForm} (cuts : form.cuts = true) :
    ∃ family : Family, form ∈ family.forms := by
  obtain ⟨opener, rfl⟩ | rfl := form_of_cuts cuts
  · cases opener with
    | slashes => exact ⟨.cStyle, by simp [Family.forms]⟩
    | dashes => exact ⟨.sql, by simp [Family.forms]⟩
    | hash => exact ⟨.python, by simp [Family.forms]⟩
  · exact ⟨.shell, by simp [Family.forms]⟩

theorem cuts_of_stopAt? {form : CommentForm} {s : List Char} {q : List Char × List Char}
    (h : form.stopAt? s = some q) : form.cuts = true := by
  obtain ⟨_, _, allowed, _⟩ := stopAt?_eq_some_iff.1 h
  exact cuts_of_stopGap allowed

/-- No stop begins inside another one. -/
theorem stopAt?_eq_none_of_inside {form : CommentForm} {y s : List Char}
    {q : List Char × List Char} (h : form.stopAt? (y ++ s) = some q) (passed : y ≠ [])
    (inside : y.length < q.1.length) : form.stopAt? s = none := by
  cases found : form.stopAt? s with
  | none => rfl
  | some q' =>
    have cuts := cuts_of_stopAt? h
    obtain ⟨family, mem⟩ := exists_family_of_cuts cuts
    obtain ⟨shape, matched, whole, split, _⟩ := exists_matchAt?_of_stopAt? true h
    obtain ⟨shape', matched', _⟩ := exists_matchAt?_of_stopAt? true found
    have within : byteLength y < byteLength (shape.opener ++ shape.keyword) := by
      rw [whole]
      rcases List.append_eq_append_iff.1 split with ⟨x, front, _⟩ | ⟨x, front, _⟩
      · have some : x ≠ [] := by
          rintro rfl
          rw [front] at inside
          simp at inside
        have := byteLength_pos some
        rw [front, byteLength_append]
        omega
      · rw [front, List.length_append] at inside
        omega
    obtain ⟨rfl, _⟩ :=
      keyword_of_overlap mem mem (ne_checkbox_of_cuts cuts) matched matched' passed within
    simp [CommentForm.cuts] at cuts

theorem stopAt?_nil (form : CommentForm) : form.stopAt? [] = none := by
  cases found : form.stopAt? [] with
  | none => rfl
  | some q =>
    obtain ⟨gap, keyword, allowed, _, split, read⟩ := stopAt?_eq_some_iff.1 found
    obtain ⟨c, tail, initial, _⟩ := exists_initial read
    rw [initial] at split
    simp at split

/-- No break stands in a stop. -/
theorem not_break_of_mem {form : CommentForm} {gap keyword : List Char} {c : Char}
    (allowed : form.StopGap gap) (reads : Keyword.Reads keyword)
    (mem : c ∈ form.lead ++ gap ++ keyword) : c ≠ '\n' ∧ c ≠ '\r' := by
  rcases List.mem_append.1 mem with mem | mem
  · rcases List.mem_append.1 mem with mem | mem
    · have leads : ∀ opener : LineOpener, '\n' ∉ opener.chars ∧ '\r' ∉ opener.chars := by
        intro opener
        cases opener <;> decide
      have lead : '\n' ∉ form.lead ∧ '\r' ∉ form.lead := by
        match form, allowed with
        | line opener true, _ => exact leads opener
        | hashColon, _ => exact leads .hash
      exact ⟨fun same => lead.1 (same ▸ mem), fun same => lead.2 (same ▸ mem)⟩
    · obtain ⟨n, rfl⟩ := exists_replicate_of_stopGap allowed
      rw [List.eq_of_mem_replicate mem]
      decide
  · have word := reads.word c mem
    constructor
    · rintro rfl
      simp at word
    · rintro rfl
      simp at word

/-- A stop stays one whatever follows the text, unless that begins with a letter or digit. -/
theorem stopAt?_append_of_eq_some {form : CommentForm} {s t matched rest : List Char}
    (found : form.stopAt? s = some (matched, rest)) (apart : ∀ c ∈ t.head?, c.isAlphanum = false) :
    form.stopAt? (s ++ t) = some (matched, rest ++ t) := by
  obtain ⟨gap, keyword, allowed, rfl, rfl, read⟩ := stopAt?_eq_some_iff.1 found
  refine stopAt?_eq_some_iff.2 ⟨gap, keyword, allowed, rfl, by simp, ?_⟩
  rw [← List.append_assoc, Keyword.read?_append apart, read, Option.map_some]

/-- What stands behind a line break adds no stop in front of it. -/
theorem stopAt?_append {form : CommentForm} (s : List Char) {t : List Char} (breaks : Breaks t) :
    form.stopAt? (s ++ t) = (form.stopAt? s).map fun q => (q.1, q.2 ++ t) := by
  have apart := breaks.not_isAlphanum
  -- behind the stop of `s ++ t` stands `t`, as no break is inside the stop
  have shorter : ∀ matched rest, form.stopAt? (s ++ t) = some (matched, rest) →
      ∃ x, rest = x ++ t ∧ form.stopAt? s = some (matched, x) := by
    intro matched rest found
    obtain ⟨gap, keyword, allowed, rfl, split, read⟩ := stopAt?_eq_some_iff.1 found
    have reads := (Keyword.read?_spec read).1
    rw [← List.append_assoc] at split
    obtain ⟨x, rfl, rfl⟩ : ∃ x, s = form.lead ++ gap ++ keyword ++ x ∧ rest = x ++ t := by
      rcases List.append_eq_append_iff.1 split with ⟨x, front, behind⟩ | ⟨x, front, behind⟩
      · cases x with
        | nil => exact ⟨[], by simpa using front.symm, by simpa using behind.symm⟩
        | cons c x =>
          have other := not_break_of_mem allowed reads (c := c) (by simp [front])
          rcases breaks c (by simp [behind]) with rfl | rfl
          · exact absurd rfl other.1
          · exact absurd rfl other.2
      · exact ⟨x, front, behind⟩
    refine ⟨x, rfl, stopAt?_eq_some_iff.2 ⟨gap, keyword, allowed, rfl, by simp, ?_⟩⟩
    rw [← List.append_assoc, Keyword.read?_append apart] at read
    obtain ⟨q, read', same⟩ := Option.map_eq_some_iff.1 read
    obtain ⟨front, rest⟩ := Prod.mk.inj same
    rw [read', ← front, ← List.append_cancel_right rest]
  cases found : form.stopAt? s with
  | some q =>
    exact stopAt?_append_of_eq_some found apart
  | none =>
    cases longer : form.stopAt? (s ++ t) with
    | none => rfl
    | some q =>
      obtain ⟨x, _, some⟩ := shorter q.1 q.2 longer
      rw [found] at some
      simp at some

/-! ## The stops of a body -/

/-- A stop is a cut of the body behind which a marker starts. -/
theorem stop_of_mem_stops {form : CommentForm} {s : List Char} {offset skip : Nat}
    {stop : Nat × List Char} (mem : stop ∈ form.stops offset skip s) :
    ∃ before behind matched, s = before ++ behind ∧ stop.1 = offset + byteLength before ∧
      form.stopAt? behind = some (matched, stop.2) := by
  induction s generalizing offset skip with
  | nil => simp [stops] at mem
  | cons c s ih =>
    have later : ∀ {skip'}, stop ∈ form.stops (offset + c.utf8Size) skip' s →
        ∃ before behind matched, c :: s = before ++ behind ∧
          stop.1 = offset + byteLength before ∧ form.stopAt? behind = some (matched, stop.2) := by
      intro skip' mem
      obtain ⟨before, behind, matched, rfl, place, found⟩ := ih mem
      refine ⟨c :: before, behind, matched, rfl, ?_, found⟩
      rw [place, byteLength_cons]
      omega
    unfold stops at mem
    split at mem
    · next matched rest found =>
      rcases List.mem_cons.1 mem with rfl | mem
      · exact ⟨[], c :: s, matched, rfl, rfl, found⟩
      · exact later mem
    · exact later mem

/-- The first stop cuts the body where another marker with a whole keyword starts. -/
theorem stopIn_eq_some {form : CommentForm} {body : List Char} {stop : Nat}
    (h : form.stopIn body = some stop) :
    ∃ before behind matched rest, body = before ++ behind ∧ byteLength before = stop ∧
      form.stopAt? behind = some (matched, rest) ∧ Keyword.endsBefore rest = true := by
  obtain ⟨stop, first, rfl⟩ := Option.map_eq_some_iff.1 h
  have whole := List.find?_some first
  obtain ⟨before, behind, matched, split, place, found⟩ :=
    stop_of_mem_stops (List.mem_of_find?_eq_some first)
  refine ⟨before, behind, matched, stop.2, split, ?_, found, whole⟩
  rw [place, Nat.zero_add]

/-- A form without stops cuts nothing. -/
theorem stopIn_eq_none {form : CommentForm} {body : List Char} (keeps : form.cuts ≠ true) :
    form.stopIn body = none := by
  cases found : form.stopIn body with
  | none => rfl
  | some stop =>
    obtain ⟨_, _, _, _, _, _, stopped, _⟩ := stopIn_eq_some found
    exact absurd (cuts_of_stopAt? stopped) keeps

/-- Nothing cuts an item. -/
theorem stopIn_checkbox (body : List Char) : checkbox.stopIn body = none :=
  stopIn_eq_none (by simp [CommentForm.cuts])

/-- Every stop is listed: those that begin in the `skip` characters of an earlier one would be
missed, but there are none. -/
theorem mem_stops {form : CommentForm} {behind matched rest : List Char}
    (found : form.stopAt? behind = some (matched, rest)) (before : List Char) (offset skip : Nat)
    (free : ∀ y z, before ++ behind = y ++ z → y.length < skip → form.stopAt? z = none) :
    (offset + byteLength before, rest) ∈ form.stops offset skip (before ++ behind) := by
  induction before generalizing offset skip with
  | nil =>
    have none : skip = 0 := by
      apply Decidable.byContradiction
      intro some
      have closed := free [] behind rfl (Nat.pos_of_ne_zero some)
      rw [found] at closed
      simp at closed
    subst none
    cases behind with
    | nil => simp [stopAt?_nil] at found
    | cons c s =>
      rw [List.nil_append]
      unfold stops
      rw [found]
      exact List.mem_cons_self ..
  | cons c before ih =>
    rw [byteLength_cons, ← Nat.add_assoc, List.cons_append]
    unfold stops
    split
    · next matched' rest' first =>
      refine List.mem_cons_of_mem _ (ih _ _ fun y z same short => ?_)
      rw [same] at first
      apply stopAt?_eq_none_of_inside (y := c :: y) first (List.cons_ne_nil c y)
      simp only [List.length_cons]
      omega
    · next skip _ _ _ =>
      refine ih _ _ fun y z same short => free (c :: y) z ?_ ?_
      · rw [List.cons_append, same, List.cons_append]
      · simp only [List.length_cons]
        omega

/-- Stops are listed from left to right. -/
theorem pairwise_stops (form : CommentForm) (s : List Char) (offset skip : Nat) :
    (form.stops offset skip s).Pairwise fun stop stop' => stop.1 < stop'.1 := by
  induction s generalizing offset skip with
  | nil => exact .nil
  | cons c s ih =>
    unfold stops
    split
    · refine .cons (fun stop mem => ?_) (ih _ _)
      obtain ⟨_, _, _, _, place, _⟩ := stop_of_mem_stops mem
      have size := c.utf8Size_pos
      simp only
      omega
    · exact ih _ _

/-- A body is cut in front of the first whole keyword that a stop has in it. -/
theorem exists_stopIn_le {form : CommentForm} {behind matched rest : List Char}
    (found : form.stopAt? behind = some (matched, rest))
    (whole : Keyword.endsBefore rest = true) (before : List Char) :
    ∃ n, form.stopIn (before ++ behind) = some n ∧ n ≤ byteLength before := by
  have listed := mem_stops found before 0 0 fun _ _ _ short => absurd short (Nat.not_lt_zero _)
  rw [Nat.zero_add] at listed
  have ordered := pairwise_stops form (before ++ behind) 0 0
  unfold stopIn
  cases first : (form.stops 0 0 (before ++ behind)).find? fun stop => Keyword.endsBefore stop.2 with
  | none => exact absurd whole (List.find?_eq_none.1 first _ listed)
  | some stop =>
    refine ⟨stop.1, rfl, ?_⟩
    obtain ⟨_, earlier, later, parts, glued⟩ := List.find?_eq_some_iff_append.1 first
    rw [parts] at listed ordered
    obtain ⟨_, ordered, _⟩ := List.pairwise_append.1 ordered
    rcases List.mem_append.1 listed with bad | listed
    · have glued := glued _ bad
      simp [whole] at glued
    · rcases List.mem_cons.1 listed with rfl | listed
      · exact Nat.le_refl _
      · exact Nat.le_of_lt (List.rel_of_pairwise_cons ordered listed)

end Markers.CommentForm

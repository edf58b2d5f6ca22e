import Markers.Proofs.Comment.Item
import Markers.Proofs.Scan.Run

/-!
# No marker is lost

A match that is dropped leaves the cursor in front of every marker that starts behind it
(`Step.Possible.cursor_le`), so whatever the scanner passes over lies inside a match that it took as
a marker (`scan?_covers`).
-/

namespace Markers.Scan
open Text PositionIndex

/-- Two overlapping matches of a family end their keywords at one offset. -/
theorem keywordEnd_of_overlap {family : Family} {form form' : CommentForm} {text : List Char}
    {m m' : Match} (mem : form ∈ family.forms) (mem' : form' ∈ family.forms)
    (plain : form ≠ .checkbox) (found : form.Matches text m) (found' : form'.Matches text m')
    (behind : m.start < m'.start) (inside : m'.start < m.keywordEnd) :
    form = .angleBlock ∧ m.shape.keyword = m'.shape.keyword ∧ m.keywordEnd = m'.keywordEnd := by
  obtain ⟨before, rest, split, length, matched⟩ := found
  obtain ⟨before', rest', split', length', matched'⟩ := found'
  obtain ⟨y, rfl, rfl⟩ := append_of_le (split.symm.trans split') (by omega)
  rw [byteLength_append] at length'
  have passed : y ≠ [] := by
    rintro rfl
    rw [byteLength_nil] at length'
    omega
  have within : byteLength y < byteLength (m.shape.opener ++ m.shape.keyword) := by
    rw [byteLength_append]
    unfold Match.keywordEnd Match.keywordStart at inside
    omega
  obtain ⟨angle, opener, keyword⟩ :=
    CommentForm.keyword_of_overlap mem mem' plain matched matched' passed within
  refine ⟨angle, keyword, ?_⟩
  unfold Match.keywordEnd Match.keywordStart
  rw [opener, keyword, byteLength_append]
  omega

/-- No item starts inside another one: a line behind its first one continues it, and begins with
spaces and a letter or digit. -/
theorem stop_le_of_items {text : List Char} {m m' : Match}
    (found : CommentForm.checkbox.Matches text m) (found' : CommentForm.checkbox.Matches text m')
    (behind : m.start < m'.start) : m.stop ≤ m'.start := by
  obtain ⟨before, s, rfl, length, matched⟩ := found
  obtain ⟨before', s', split', length', matched'⟩ := found'
  obtain ⟨separator, inner, item⟩ := CommentForm.exists_item matched
  obtain ⟨y, rfl, whole⟩ := append_of_le split' (by omega)
  rw [byteLength_append] at length'
  have start := CommentForm.lineStart_of_matchAt?_checkbox matched'
  have passed : y ≠ [] := by
    rintro rfl
    rw [byteLength_nil] at length'
    omega
  obtain ⟨y, c, rfl⟩ := (List.eq_nil_or_concat y).resolve_left passed
  rw [List.concat_eq_append] at whole length'
  rw [lineStart, List.concat_eq_append, ← List.append_assoc, List.getLast?_concat, Option.getD_some,
    beq_iff_eq] at start
  subst start
  rw [List.append_assoc, List.singleton_append] at whole
  -- the line break belongs to the lines of the item, so the line behind it continues the item
  have parts : [] ++ (m.shape.opener ++ m.shape.keyword ++ separator) ++ inner = y ++ '\n' :: s' :=
    item.split.symm.trans whole
  have le := byteLength_le_of_not_mem parts (Nat.zero_le _) item.oneLine
  obtain ⟨x, rfl, rest⟩ := append_of_le parts le
  by_contra inside
  obtain ⟨_, more, _, _, lines⟩ := CommentForm.itemLines_spec inner
  have leads : x ++ '\n' :: s' = (x ++ ['\n']) ++ s' := by simp
  obtain ⟨z, body, _⟩ := append_of_le ((leads.symm.trans rest.symm).trans lines) (by
    simp only [Match.stop, Match.keywordEnd, Match.keywordStart, item.body, Body.chars,
      List.nil_append, byteLength_append, byteLength_nil] at inside length' ⊢
    omega)
  have continued := CommentForm.continues_of_itemLines (x := x) (s := s') (y := z)
    (by rw [← rest, body]; simp)
  obtain ⟨_, _, opened, _⟩ := CommentForm.matchAt?_checkbox matched'
  rw [CommentForm.opener?_eq_none_of_continues continued] at opened
  cases opened

/-- An item that is dropped is blank, and scanning goes on at its end. -/
theorem Reading.Placed.of_blank {family : Family} {form : CommentForm} {text : List Char}
    {m : Match} {reading : Reading} {kept : List Char} (mem : form ∈ family.forms)
    (found : form.Matches text m) (placed : reading.Placed family form text m)
    (cut : reading.kept? form = some kept) (bare : reading.keyword = [])
    (empty : trimEnd kept = []) :
    form = .checkbox ∧ m.shape.keyword = [] ∧ reading.next form (resume m) = m.stop ∧
      ∃ separator inner, m.shape.body = .content separator (CommentForm.itemLines inner) [] ∧
        ∀ c ∈ CommentForm.itemLines inner, isBlank c = true := by
  cases placed with
  | keyword _ _ _ _ _ _ reads _ _ => exact absurd bare reads.ne_nil
  | bare before c content rest split kind _ source =>
    obtain rfl := checkbox_of_defaultKind? mem kind
    obtain ⟨_, pieces⟩ := pieces_of_matches found
    obtain ⟨separator, inner, body, _⟩ := pieces.item rfl
    rw [Reading.kept?, CommentForm.stopIn_checkbox] at cut
    cases cut
    have blank := trimEnd_eq_nil_iff.1 empty
    rcases source with ⟨none, content?⟩ | initial
    · rw [Match.content?, body] at content?
      obtain ⟨_, item⟩ := Prod.mk.inj (Option.some.inj content?)
      refine ⟨rfl, none, ?_, separator, inner, body, item ▸ blank⟩
      rw [Reading.next, CommentForm.stopIn_checkbox, resume, body]
    · have blank := CommentForm.not_isInitial_of_isBlank (blank c (List.mem_cons_self ..))
      rw [initial] at blank
      simp at blank

namespace Step.Possible
variable {family : Family} {text : List Char} {dropped step : Step}

/-- A marker starts behind the keyword that a dropped match starts with. -/
theorem keywordEnd_le (h : dropped.Possible family text) (h' : step.Possible family text)
    (marked : step.outcome.marker.isSome = true)
    (behind : dropped.candidate.place.start < step.candidate.place.start)
    (plain : dropped.candidate.form ≠ .checkbox)
    (why : dropped.candidate.form ≠ .angleBlock ∨
      reading? family text dropped.candidate.place = some none) :
    dropped.candidate.place.keywordEnd ≤ step.candidate.place.start := by
  by_contra inside
  obtain ⟨angle, keyword, same⟩ := keywordEnd_of_overlap h.form_mem h'.form_mem plain h.found
    h'.found behind (by omega)
  rcases why with other | glued
  · exact other angle
  · obtain ⟨reading, read⟩ := h'.exists_reading marked
    rw [reading?_eq_none_iff, keyword, same, ← reading?_eq_none_iff, read] at glued
    simp at glued

/-- A match that is dropped leaves the cursor in front of every marker that starts behind it. -/
theorem cursor_le (h : dropped.Possible family text) (drops : dropped.outcome.marker = none)
    (h' : step.Possible family text) (marked : step.outcome.marker.isSome = true)
    (ahead : dropped.candidate.place.start ≤ step.candidate.place.start) :
    dropped.outcome.cursor ≤ step.candidate.place.start := by
  have behind : dropped.candidate.place.start < step.candidate.place.start := by
    apply Nat.lt_of_le_of_ne ahead
    intro same
    rw [← h.unique h' same, drops] at marked
    simp at marked
  -- the three ways to drop a match leave the cursor at its keyword's end or at its own
  have judged := h.judged
  generalize dropped.outcome = o at drops judged ⊢
  cases judged with
  | glued read =>
    refine h.keywordEnd_le h' marked behind ?_ (.inr read)
    intro item
    have kind := defaultKind?_of_checkbox (item ▸ h.form_mem)
    rw [(reading?_eq_none_iff.1 read).2.2] at kind
    simp at kind
  | unended tail body _ =>
    obtain ⟨_, pieces⟩ := pieces_of_matches h.found
    have form := pieces.tail tail body
    exact h.keywordEnd_le h' marked behind (by simp [form]) (.inl (by simp [form]))
  | blank reading kept _ placed cut bare empty =>
    obtain ⟨item, _, next, _⟩ := placed.of_blank h.form_mem h.found cut bare empty
    have kind := defaultKind?_of_checkbox (item ▸ h.form_mem)
    have item' := checkbox_of_defaultKind? h'.form_mem kind
    rw [next]
    exact stop_le_of_items (item ▸ h.found) (item' ▸ h'.found) behind
  | marked _ _ _ marker _ _ _ _ _ _ => simp at drops

end Step.Possible

namespace Run
variable {family : Family} {text : List Char} {cursor : Nat} {steps : List Step}

/-- A marker behind the cursor is taken, or it starts inside a match that is taken as a marker. -/
theorem covers (run : Run family text cursor steps) {step : Step} (h : step.Possible family text)
    (marked : step.outcome.marker.isSome = true) (ahead : cursor ≤ step.candidate.place.start) :
    step ∈ steps ∨ ∃ taken ∈ steps, taken.outcome.marker.isSome = true ∧
      taken.candidate.place.start < step.candidate.place.start ∧
      step.candidate.place.start < taken.outcome.cursor := by
  -- a step of the run passes the marker, takes it, or takes a match it starts in
  induction run with
  | done early =>
    have before := early _ h.form_mem _ h.found
    omega
  | @step cursor c o steps next accepted rest ih =>
    have possible : Step.Possible family text ⟨c, o⟩ := ⟨next.form_mem, next.found, accepted⟩
    rcases Nat.eq_or_lt_of_le (next.least h.form_mem h.found ahead) with same | behind
    · refine .inl ?_
      rw [← possible.unique h same]
      exact List.mem_cons_self ..
    · by_cases passed : o.cursor ≤ step.candidate.place.start
      · rcases ih passed with mem | ⟨taken, mem, covered⟩
        · exact .inl (List.mem_cons_of_mem _ mem)
        · exact .inr ⟨taken, List.mem_cons_of_mem _ mem, covered⟩
      · refine .inr ⟨⟨c, o⟩, List.mem_cons_self .., ?_, behind, Nat.lt_of_not_le passed⟩
        rw [Option.isSome_iff_ne_none]
        intro drops
        exact passed (possible.cursor_le drops h marked (Nat.le_of_lt behind))

end Run

/-- No marker is lost. Every match of a text that makes a marker is one that the scanner takes, or
it starts inside a match that the scanner takes as a marker; and a match that makes none never moves
the cursor past the start of one that does. -/
theorem scan?_covers (family : Family) (text : List Char) :
    ∃ steps, Run family text 0 steps ∧ family.scan? text = some (markers steps) ∧
      (∀ step, step.Possible family text → step.outcome.marker.isSome = true →
        step ∈ steps ∨ ∃ taken ∈ steps, taken.outcome.marker.isSome = true ∧
          taken.candidate.place.start < step.candidate.place.start ∧
          step.candidate.place.start < taken.outcome.cursor) ∧
      ∀ dropped step : Step, dropped.Possible family text → dropped.outcome.marker = none →
        step.Possible family text → step.outcome.marker.isSome = true →
        dropped.candidate.place.start ≤ step.candidate.place.start →
        dropped.outcome.cursor ≤ step.candidate.place.start := by
  obtain ⟨steps, run, found⟩ := exists_scan? family text
  refine ⟨steps, run, found, ?_, ?_⟩
  · intro step possible marked
    exact run.covers possible marked (Nat.zero_le _)
  · intro dropped step possible drops possible' marked ahead
    exact possible.cursor_le drops possible' marked ahead

/-- The first keyword has no colon, and the marker behind it is found inside its match. -/
example : Family.shell.scan? "# TODO x # BUG: y".toList = some [⟨.bug, "y", ⟨1, 12⟩, ⟨1, 17⟩⟩] := by
  cbv

end Markers.Scan

import Markers.Proofs.Comment.Stop
import Markers.Proofs.Scan.Reading

/-!
# What becomes of a match

`Judged` lists all that can happen to a match: its keyword is glued to a word, something else
follows a keyword without a colon, an item is blank, or there is a marker. `accept?_spec` says that
one of these happens to every match of a family; in particular every offset used on the way is a cut
of the text.
-/

namespace Markers.Scan
open Text PositionIndex

/-- Where scanning goes on behind a match whose content is not cut. -/
def resume (m : Match) : Nat :=
  match m.shape.body with
  | .tail _ => m.keywordEnd
  | _ => m.stop

/-- What becomes of a match. -/
inductive Judged (family : Family) (form : CommentForm) (text : List Char) (m : Match) :
    Outcome → Prop where
  /-- A letter follows the keyword. -/
  | glued (read : reading? family text m = some none) :
      Judged family form text m ⟨m.keywordEnd, none⟩
  /-- No colon follows the keyword, but other text does. -/
  | unended (tail : List Char) (body : m.shape.body = .tail tail)
      (goesOn : tailEnds form tail = false) : Judged family form text m ⟨m.keywordEnd, none⟩
  /-- An item has neither keyword nor body. -/
  | blank (reading : Reading) (kept : List Char)
      (read : reading? family text m = some (some reading))
      (placed : reading.Placed family form text m) (cut : reading.kept? form = some kept)
      (bare : reading.keyword = []) (empty : trimEnd kept = []) :
      Judged family form text m ⟨reading.next form (resume m), none⟩
  /-- There is a marker. -/
  | marked (reading : Reading) (kept : List Char) (kind : Kind) (marker : Marker)
      (read : reading? family text m = some (some reading))
      (placed : reading.Placed family form text m) (cut : reading.kept? form = some kept)
      (solid : reading.keyword ≠ [] ∨ trimEnd kept ≠ []) (named : reading.kind? family = some kind)
      (mark : mark? (ofText text) m reading kind (trimEnd kept) = some marker) :
      Judged family form text m ⟨reading.next form (resume m), some marker⟩

/-- The content that is kept is a leading part of it. -/
theorem Reading.exists_kept (form : CommentForm) (reading : Reading) :
    ∃ kept cut, reading.kept? form = some kept ∧ reading.content = kept ++ cut := by
  unfold Reading.kept?
  cases stop : form.stopIn reading.content with
  | none => exact ⟨reading.content, [], rfl, by simp⟩
  | some n =>
    obtain ⟨before, behind, _, _, split, rfl, _⟩ := CommentForm.stopIn_eq_some stop
    exact ⟨before, behind, by simp only [split, takeBytes?_append], split⟩

/-- The body that is left of the content is a leading part of it. -/
theorem Reading.exists_body {form : CommentForm} {reading : Reading} {kept : List Char}
    (cut : reading.kept? form = some kept) : ∃ rest, reading.content = trimEnd kept ++ rest := by
  obtain ⟨kept', dropped, cut', content⟩ := reading.exists_kept form
  cases cut.symm.trans cut'
  obtain ⟨blanks, trimmed, _⟩ := trimEnd_append_blanks kept
  refine ⟨blanks ++ dropped, ?_⟩
  rw [content, ← List.append_assoc, ← trimmed]

/-- Where the marker of a match stands in a text: `before` stands in front of it, and its span is
the keyword, a separator and the body. -/
structure Spans (form : CommentForm) (text : List Char) (m : Match) (reading : Reading)
    (body : List Char) (marker : Marker) (before separator behind : List Char) : Prop where
  split : text = before ++ (reading.keyword ++ separator ++ body) ++ behind
  opens : byteLength before = if reading.keyword = [] then reading.contentStart else m.keywordStart
  closes : byteLength (before ++ (reading.keyword ++ separator ++ body)) ≤
    reading.contentStart + byteLength body
  separated : separator = [] ∧ (reading.keyword = [] ∨ body = []) ∨
    reading.keyword ≠ [] ∧ body ≠ [] ∧ form.Separates separator
  whole : reading.keyword ≠ [] → ∀ rest, text = before ++ reading.keyword ++ rest →
    Keyword.endsBefore rest = true
  first : ∃ c span, reading.keyword ++ separator ++ body = c :: span ∧ c ≠ '\n' ∧
    marker.start = (Position.origin.after before).advance c ∧
    marker.stop = Position.origin.after (before ++ c :: span)

/-- A placed reading with something in it has a marker. -/
theorem Reading.Placed.exists_mark {family : Family} {form : CommentForm} {text : List Char}
    {m : Match} {reading : Reading} (placed : reading.Placed family form text m)
    {body cut : List Char} (content : reading.content = body ++ cut) (kind : Kind)
    (solid : reading.keyword ≠ [] ∨ body ≠ []) :
    ∃ marker before separator behind, mark? (ofText text) m reading kind body = some marker ∧
      marker.kind = kind ∧ marker.text = String.ofList body ∧
      Spans form text m reading body marker before separator behind := by
  cases placed with
  | keyword before separator inner rest split start reads whole separated =>
    obtain ⟨c, word, initial, capital⟩ := reads.initial
    have sameLine : c ≠ '\n' := by
      rintro rfl
      simp [Keyword.isInitial] at capital
    simp only at content solid
    subst content
    have follows : ∀ rest', text = before ++ m.shape.keyword ++ rest' →
        Keyword.endsBefore rest' = true := by
      intro rest' same
      rw [split, List.append_assoc, List.append_assoc, List.append_cancel_left_eq] at same
      rw [← same, ← List.append_assoc]
      exact whole
    have stop : byteLength (before ++ m.shape.keyword) = m.keywordEnd := by
      rw [byteLength_append, start, Match.keywordEnd]
    by_cases empty : body = []
    · subst empty
      have split' : text = before ++ m.shape.keyword ++ (separator ++ ([] ++ cut) ++ rest) := by
        simpa using split
      have mark := mark?_of_keyword_empty ([] ++ cut) kind
        (byteLength (before ++ m.shape.keyword ++ separator)) (initial ▸ split') start
        (initial ▸ stop)
      rw [← initial] at mark
      refine ⟨_, before, [], separator ++ cut ++ rest, mark, rfl, rfl, ?_, ?_, ?_,
        .inl ⟨rfl, .inr rfl⟩, fun _ => follows, c, word, by simpa using initial, sameLine, rfl, ?_⟩
      · simpa using split
      · rw [if_neg reads.ne_nil, start]
      · simp only [byteLength_append, byteLength_nil]
        omega
      · rw [initial]
    · have split' : text = before ++ m.shape.keyword ++ separator ++ body ++ (cut ++ rest) := by
        simpa using split
      have mark := mark?_of_keyword (body ++ cut) kind (initial ▸ split') start empty
      rw [← initial] at mark
      have separated : form.Separates separator :=
        separated.resolve_right fun none => empty (List.append_eq_nil_iff.1 none.2).1
      refine ⟨_, before, separator, cut ++ rest, mark, rfl, rfl, ?_, ?_, ?_,
        .inr ⟨reads.ne_nil, empty, separated⟩, fun _ => follows, c, word ++ separator ++ body, ?_,
        sameLine, rfl, ?_⟩
      · simpa using split
      · rw [if_neg reads.ne_nil, start]
      · simp only [byteLength_append]
        omega
      · simp [initial]
      · simp [initial]
  | bare before c inner rest split kind' sameLine _ =>
    cases body with
    | nil => simp at solid
    | cons d body =>
      obtain ⟨rfl, rfl⟩ := List.cons.inj content
      have split' : text = before ++ c :: body ++ (cut ++ rest) := by simpa using split
      refine ⟨_, before, [], cut ++ rest, mark?_of_bare m kind split', rfl, rfl, split', (if_pos rfl).symm,
        ?_, .inl ⟨rfl, .inl rfl⟩, fun some => absurd rfl some, c, body, rfl, sameLine, rfl, rfl⟩
      simp

theorem settle?_spec {family : Family} {form : CommentForm} {text : List Char} {m : Match}
    {reading : Reading} (read : reading? family text m = some (some reading))
    (placed : reading.Placed family form text m) :
    ∃ o, settle? family (ofText text) form m (resume m) reading = some o ∧
      Judged family form text m o := by
  obtain ⟨kept, _, keeps, _⟩ := reading.exists_kept form
  obtain ⟨kind, named, _⟩ := placed.exists_kind
  unfold settle?
  simp only [named, keeps, Option.bind_some]
  split
  · next empty => exact ⟨_, rfl, .blank reading kept read placed keeps empty.1 empty.2⟩
  · next solid =>
    have solid : reading.keyword ≠ [] ∨ trimEnd kept ≠ [] :=
      Decidable.not_and_iff_not_or_not.1 solid
    obtain ⟨rest, body⟩ := Reading.exists_body keeps
    obtain ⟨marker, _, _, _, mark, _⟩ := placed.exists_mark body kind solid
    refine ⟨⟨reading.next form (resume m), some marker⟩, ?_, ?_⟩
    · rw [mark]
      rfl
    · exact .marked reading kept kind marker read placed keeps solid named mark

/-- Every match of a family has an outcome. -/
theorem accept?_spec {family : Family} {form : CommentForm} {text : List Char} {m : Match}
    (mem : form ∈ family.forms) (found : form.Matches text m) :
    ∃ o, accept? family (ofText text) form m = some o ∧ Judged family form text m o := by
  unfold accept?
  rcases reading?_spec mem found with glued | ⟨reading, read, placed⟩
  · rw [text_ofText, glued]
    exact ⟨_, rfl, .glued glued⟩
  · obtain ⟨o, settled, judged⟩ := settle?_spec read placed
    rw [text_ofText, read, Option.bind_some]
    cases body : m.shape.body with
    | tail tail =>
      cases ends : tailEnds form tail with
      | false => exact ⟨_, by simp [ends], .unended tail body ends⟩
      | true =>
        have behind : resume m = m.keywordEnd := by rw [resume, body]
        exact ⟨o, by rw [behind] at settled; simpa [ends] using settled, judged⟩
    | content | absent =>
      have behind : resume m = m.stop := by rw [resume, body]
      exact ⟨o, by rw [behind] at settled; exact settled, judged⟩

end Markers.Scan

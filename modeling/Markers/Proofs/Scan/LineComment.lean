import Markers.Proofs.Comment.Stop
import Markers.Proofs.Scan.Reading

/-!
# Line comments in a text

The content of a line comment whose body may be cut goes to the end of its line (`exists_content`).
Where it has a stop the form has another match, whose keyword is whole (`exists_match_of_stopIn`).
-/

namespace Markers.Scan
open Text

/-- Only items have a default kind, and nothing cuts them. -/
theorem defaultKind?_of_cuts {family : Family} {form : CommentForm} (mem : form ∈ family.forms)
    (cuts : form.cuts = true) : family.defaultKind? = none :=
  defaultKind?_of_ne_checkbox mem (CommentForm.ne_checkbox_of_cuts cuts)

section
variable {form : CommentForm} {text : List Char} {m : Match}

theorem reads_of_cuts (cuts : form.cuts = true) (found : form.Matches text m) :
    Keyword.Reads m.shape.keyword := by
  obtain ⟨_, pieces⟩ := pieces_of_matches found
  exact pieces.keyword.resolve_left fun item => CommentForm.ne_checkbox_of_cuts cuts item.2

theorem newline_not_mem_of_cuts (cuts : form.cuts = true) (found : form.Matches text m) :
    '\n' ∉ m.shape.body.chars := by
  obtain ⟨_, _, _, _, matched⟩ := found
  obtain ⟨_, _, _, _, bodied⟩ :=
    CommentForm.matchAt?_eq_some (CommentForm.ne_checkbox_of_cuts cuts) matched
  exact CommentForm.newline_not_mem_body cuts bodied

/-- The content of a line comment is on one line. -/
theorem newline_not_mem_content (cuts : form.cuts = true) (found : form.Matches text m) :
    '\n' ∉ (plainReading m).content := by
  have oneLine := newline_not_mem_of_cuts cuts found
  unfold plainReading Match.content?
  cases body : m.shape.body with
  | content separator content closer =>
    rw [body] at oneLine
    intro newline
    exact oneLine (by simp [Body.chars, newline])
  | tail | absent => exact List.not_mem_nil

/-- The content of a line comment goes to the end of its line. -/
theorem exists_content (cuts : form.cuts = true) (found : form.Matches text m) :
    ∃ before rest, text = before ++ ((plainReading m).content ++ rest) ∧
      byteLength before = (plainReading m).contentStart ∧
      ((plainReading m).content = [] ∨ Breaks rest) := by
  obtain ⟨before, s, rfl, start, matched⟩ := found
  obtain ⟨_, behind, opened, read, bodied⟩ :=
    CommentForm.matchAt?_eq_some (CommentForm.ne_checkbox_of_cuts cuts) matched
  obtain ⟨body, rest, bodied', split, breaks, unclosed⟩ :=
    CommentForm.exists_body?_of_cuts cuts behind
  cases bodied.symm.trans bodied'
  obtain rfl := (Keyword.read?_spec read).2
  have opener := CommentForm.opener?_eq_append opened
  simp only at opener
  subst opener split
  have stop : byteLength (before ++ m.shape.opener ++ m.shape.keyword) = m.keywordEnd := by
    simp only [byteLength_append, start, Match.keywordEnd, Match.keywordStart]
  unfold plainReading Match.content?
  cases body : m.shape.body with
  | content separator content closer =>
    obtain rfl := unclosed _ _ _ body
    refine ⟨before ++ m.shape.opener ++ m.shape.keyword ++ separator, rest, ?_, ?_, .inr breaks⟩
    · simp [Body.chars]
    · rw [byteLength_append, stop]
  | tail tail =>
    exact ⟨before ++ m.shape.opener ++ m.shape.keyword, tail ++ rest, by simp [Body.chars], stop,
      .inl rfl⟩
  | absent closer =>
    exact ⟨before ++ m.shape.opener ++ m.shape.keyword, closer ++ rest, by simp [Body.chars], stop,
      .inl rfl⟩

/-- Where the content of a line comment is cut, its form has another match, and the keyword of that
is whole. -/
theorem exists_match_of_stopIn {stop : Nat} (found : form.Matches text m)
    (cut : form.stopIn (plainReading m).content = some stop) :
    ∃ m', form.Matches text m' ∧ m'.start = (plainReading m).contentStart + stop ∧
      Keyword.endsAt? text m'.keywordEnd = some true := by
  obtain ⟨front, behind, matched, rest, content, rfl, stopped, whole⟩ :=
    CommentForm.stopIn_eq_some cut
  have cuts := CommentForm.cuts_of_stopAt? stopped
  obtain ⟨before, more, split, start, breaks⟩ := exists_content cuts found
  have breaks : Breaks more := by
    apply breaks.resolve_left
    intro none
    rw [content, List.append_eq_nil_iff] at none
    rw [none.2, CommentForm.stopAt?_nil] at stopped
    simp at stopped
  have stopped : form.stopAt? (behind ++ more) = some (matched, rest ++ more) := by
    rw [CommentForm.stopAt?_append behind breaks, stopped, Option.map_some]
  obtain ⟨shape, matches', pieces, same, _⟩ :=
    CommentForm.exists_matchAt?_of_stopAt? (lineStart (before ++ front)) stopped
  have text' : text = before ++ front ++ (behind ++ more) := by
    rw [split, content]
    simp only [List.append_assoc]
  refine ⟨⟨byteLength (before ++ front), shape⟩, ⟨_, _, text', rfl, matches'⟩, ?_, ?_⟩
  · rw [byteLength_append, start]
  · have stop : Match.keywordEnd ⟨byteLength (before ++ front), shape⟩ =
        byteLength (before ++ front ++ matched) := by
      rw [byteLength_append _ matched, ← pieces, byteLength_append shape.opener, ← Nat.add_assoc]
      rfl
    have ends := endsAt?_append (before ++ front ++ matched) (rest ++ more)
    rw [List.append_assoc _ matched, ← same, ← text'] at ends
    rw [stop, ends, Keyword.endsBefore_append rest breaks.not_isAlphanum, whole]

end

end Markers.Scan

import Markers.Proofs.Position
import Markers.Proofs.Text.Boundary
import Mathlib.Data.List.DropRight

/-!
# The table of line ends against plain counting

`Position.counted` is the position behind some characters, found by counting newlines in them and
characters behind the last one. The table finds the same position at every boundary of a text, that
of the end past the end, and none inside a character (`isSome_locate?_iff`). Positions increase with
the offset (`exists_locate?_lt`). `locate?_counts` says all of it, with the position of a character.
-/

namespace Markers
open Text

namespace Position

/-- One line more than there are newlines, and the characters behind the last of them. -/
def counted (s : List Char) : Position :=
  ⟨1 + s.count '\n', (s.rtakeWhile (· ≠ '\n')).length⟩

theorem rtakeWhile_of_not_mem {line : List Char} (oneLine : '\n' ∉ line) :
    line.rtakeWhile (· ≠ '\n') = line := by
  apply List.rtakeWhile_eq_self_iff.2
  intro c mem
  exact decide_eq_true fun same => oneLine (same ▸ mem)

/-- What follows the last newline has none before it that counts. -/
theorem rtakeWhile_append_newline (before : List Char) {line : List Char} (oneLine : '\n' ∉ line) :
    (before ++ '\n' :: line).rtakeWhile (· ≠ '\n') = line := by
  have whole := rtakeWhile_of_not_mem oneLine
  unfold List.rtakeWhile at whole ⊢
  rw [List.reverse_append, List.reverse_cons, List.append_assoc, List.singleton_append,
    takeWhile_append_cons (by decide), whole]

/-- Counting at the end gives what counting on the way gives. -/
theorem counted_eq_after (s : List Char) : counted s = origin.after s := by
  by_cases newline : '\n' ∈ s
  · obtain ⟨before, line, rfl, oneLine⟩ := PositionIndex.exists_last_line newline
    have row := line_after origin (before ++ '\n' :: line)
    have column := column_after_newline origin before oneLine
    rw [counted, rtakeWhile_append_newline before oneLine, ← column]
    exact congrArg (Position.mk · _) row.symm
  · rw [counted, rtakeWhile_of_not_mem newline, after_of_not_mem newline]
    simp [origin, List.count_eq_zero.2 newline]

end Position

namespace PositionIndex
open Position

/-! ## What stands behind -/

/-- What stands behind a text makes no difference to the positions in it. -/
theorem locate?_append_right {text : List Char} {offset : Nat} (h : IsBoundary text offset)
    (t : List Char) : (ofText (text ++ t)).locate? offset = (ofText text).locate? offset := by
  obtain ⟨before, behind, rfl, rfl⟩ := h
  rw [List.append_assoc, locate?_append, locate?_append]

theorem locateChar?_append_right {text : List Char} {offset : Nat} (h : IsBoundary text offset)
    (inside : offset < byteLength text) (t : List Char) :
    (ofText (text ++ t)).locateChar? offset = (ofText text).locateChar? offset := by
  obtain ⟨before, behind, rfl, rfl⟩ := h
  cases behind with
  | nil => simp at inside
  | cons c behind => rw [List.append_assoc, List.cons_append, locateChar?_append, locateChar?_append]

/-! ## The table is sorted -/

theorem lt_of_mem_endsOf {start stop : Nat} {lines : List (List Char)}
    (mem : stop ∈ endsOf start lines) : start < stop := by
  induction lines generalizing start with
  | nil => simp [endsOf] at mem
  | cons line lines ih =>
    rcases List.mem_cons.1 mem with rfl | mem
    · omega
    · have := ih mem
      omega

/-- Every line ends behind the one before it. -/
theorem pairwise_endsOf (start : Nat) (lines : List (List Char)) :
    (endsOf start lines).Pairwise (· < ·) := by
  induction lines generalizing start with
  | nil => exact .nil
  | cons line lines ih => exact .cons (fun _ mem => lt_of_mem_endsOf mem) (ih _)

/-- There is a last line to fall back on. -/
theorem lineEnds_ne_nil (text : List Char) : (ofText text).lineEnds ≠ [] := by
  intro none
  have lines : (ofText text).lineEnds.length = text.count '\n' + 1 := by
    rw [ofText, length_endsOf, length_splitOn_newline]
  rw [none] at lines
  simp at lines

/-! ## Where positions are defined -/

theorem isBoundary_of_locate? {text : List Char} {offset : Nat} {p : Position}
    (h : (ofText text).locate? offset = some p) :
    IsBoundary text (min offset (byteLength text)) := by
  unfold locate? at h
  dsimp only at h
  -- the first line and the others differ in where the slice up to the offset begins
  split at h
  all_goals
    obtain ⟨start, _, h⟩ := Option.bind_eq_some_iff.1 h
    obtain ⟨before, sliced, _⟩ := Option.bind_eq_some_iff.1 h
    exact (isSome_slice?_iff.1 (Option.isSome_of_eq_some sliced)).2.2

/-- An offset has a position exactly at a boundary of the text, and past its end. -/
theorem isSome_locate?_iff {text : List Char} {offset : Nat} :
    ((ofText text).locate? offset).isSome ↔ IsBoundary text (min offset (byteLength text)) := by
  constructor
  · intro h
    obtain ⟨p, located⟩ := Option.isSome_iff_exists.1 h
    exact isBoundary_of_locate? located
  · intro h
    rcases Nat.le_total offset (byteLength text) with inside | past
    · rw [Nat.min_eq_left inside] at h
      obtain ⟨before, behind, rfl, rfl⟩ := h
      rw [locate?_append]
      rfl
    · rw [locate?_of_le past]
      rfl

/-- An offset has the position of a character exactly at a boundary of the text, its end included. -/
theorem isSome_locateChar?_iff {text : List Char} {offset : Nat} :
    ((ofText text).locateChar? offset).isSome ↔ IsBoundary text offset := by
  constructor
  · intro h
    obtain ⟨p, located⟩ := Option.isSome_iff_exists.1 h
    obtain ⟨rest, dropped, _⟩ := Option.bind_eq_some_iff.1 located
    exact isSome_dropBytes?_iff.1 (Option.isSome_of_eq_some dropped)
  · rintro ⟨before, behind, rfl, rfl⟩
    cases behind with
    | cons c behind =>
      rw [locateChar?_append]
      rfl
    | nil =>
      have dropped : dropBytes? (ofText (before ++ [])).text (byteLength before) = some [] :=
        dropBytes?_append before []
      unfold locateChar?
      rw [dropped]
      refine isSome_locate?_iff.2 ?_
      rw [Nat.min_eq_right (by simp)]
      exact isBoundary_byteLength _

/-! ## Counting -/

/-- A later boundary has a later position. -/
theorem exists_locate?_lt {text : List Char} {offset offset' : Nat} (first : IsBoundary text offset)
    (second : IsBoundary text offset') (lt : offset < offset') :
    ∃ p q, (ofText text).locate? offset = some p ∧ (ofText text).locate? offset' = some q ∧
      compare p q = .lt := by
  obtain ⟨before, rest, rfl, rfl⟩ := first
  obtain ⟨before', behind, split, rfl⟩ := second
  obtain ⟨part, rfl, rfl⟩ := append_of_le split (Nat.le_of_lt lt)
  have some : part ≠ [] := by
    rintro rfl
    simp at lt
  refine ⟨_, origin.after (before ++ part), locate?_append before _, ?_, ?_⟩
  · rw [split, locate?_append]
  · rw [after_append]
    exact compare_eq_lt_iff.2 (lt_after some)

/-- The table of line ends, which increases, gives the position that plain counting gives: at every
boundary of the text that of the characters before it, past the end that of the whole text. Later
boundaries have later positions, and a character that is no newline stands on the line of what is
before it, one column further. -/
theorem locate?_counts (text : List Char) :
    (ofText text).lineEnds.Pairwise (· < ·) ∧
    (∀ before behind, text = before ++ behind →
      (ofText text).locate? (byteLength before) = some (counted before)) ∧
    (∀ offset, byteLength text ≤ offset → (ofText text).locate? offset = some (counted text)) ∧
    (∀ offset offset', IsBoundary text offset → IsBoundary text offset' → offset < offset' →
      ∃ p q, (ofText text).locate? offset = some p ∧ (ofText text).locate? offset' = some q ∧
        compare p q = .lt) ∧
    ∀ before c behind, text = before ++ c :: behind → c ≠ '\n' →
      (ofText text).locateChar? (byteLength before) =
        some ⟨(counted before).line, (counted before).column + 1⟩ := by
  refine ⟨pairwise_endsOf 0 _, ?_, ?_, ?_, ?_⟩
  · rintro before behind rfl
    rw [locate?_append, counted_eq_after]
  · intro offset past
    rw [locate?_of_le past, counted_eq_after]
  · intro offset offset' first second lt
    exact exists_locate?_lt first second lt
  · rintro before c behind rfl other
    rw [locateChar?_append, counted_eq_after, advance, if_neg other]

/-- A newline belongs to the line that it ends, and columns count characters. -/
example : (ofText ['é', 'a', '\n', '\n', 'b']).locate? 3 = some ⟨1, 2⟩ ∧
    (ofText ['é', 'a', '\n', '\n', 'b']).locate? 4 = some ⟨2, 0⟩ ∧
    (ofText ['é', 'a', '\n', '\n', 'b']).locateChar? 5 = some ⟨3, 1⟩ ∧
    (ofText ['é', 'a', '\n', '\n', 'b']).locate? 1 = none := by decide

end PositionIndex
end Markers

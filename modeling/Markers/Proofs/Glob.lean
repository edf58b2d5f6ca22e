import Markers.Failure

/-!
# Escaped patterns

A character with a meaning of its own is escaped as a class of one character, so an escaped text is
a pattern whose pieces stand for one character each (`piecesFrom_escaped`). It matches that text and no
other (`exists_ofPattern_escape`).
-/

namespace Markers.Glob

/-- The piece that stands for one character: a class of it if it has a meaning of its own. -/
def literal (c : Char) : GlobPiece :=
  if c = '?' ∨ c = '*' ∨ c = '[' ∨ c = ']' then .oneOf [(c, c)] else .char c

theorem class?_escaped {c : Char} (special : c = '?' ∨ c = '*' ∨ c = '[' ∨ c = ']')
    (rest : List Char) : class? (c :: ']' :: rest) = some (.oneOf [(c, c)], rest) := by
  rcases special with rfl | rfl | rfl | rfl <;> rfl

/-- An escaped character is one piece, whatever stands around it. -/
theorem piecesFrom_escapeChar (position : Nat) (before : Option Char) (c : Char)
    (rest : List Char) :
    ∃ position' before', piecesFrom position before (escapeChar c ++ rest) =
      (literal c :: ·) <$> piecesFrom position' before' rest := by
  unfold escapeChar literal
  split
  · next special =>
    have read := class?_escaped special rest
    refine ⟨position + 1 + ((c :: ']' :: rest).length - rest.length), some ']', ?_⟩
    simp only [List.cons_append, List.nil_append]
    rw [piecesFrom]
    split
    · next none => simp [read] at none
    · next piece after found =>
      cases read.symm.trans found
      rfl
  · next plain =>
    simp only [not_or] at plain
    obtain ⟨mark, star, opening, _⟩ := plain
    refine ⟨position + 1, some c, ?_⟩
    rw [List.singleton_append, piecesFrom]
    · rintro rfl
      exact mark rfl
    all_goals simp_all

/-- The pieces of an escaped text stand for its characters. -/
theorem piecesFrom_escaped (s : List Char) (position : Nat) (before : Option Char) :
    piecesFrom position before (s.flatMap escapeChar) = .ok (s.map literal) := by
  induction s generalizing position before with
  | nil =>
    rw [List.flatMap_nil, piecesFrom]
    rfl
  | cons c s ih =>
    obtain ⟨position', before', pieces⟩ :=
      piecesFrom_escapeChar position before c (s.flatMap escapeChar)
    rw [List.flatMap_cons, pieces, ih]
    rfl

theorem inRanges_single (c d : Char) : inRanges [(c, c)] d = (d == c) := by
  rw [Bool.eq_iff_iff]
  simp only [inRanges, List.any_cons, List.any_nil, Bool.or_false, Bool.and_eq_true,
    decide_eq_true_eq, beq_iff_eq]
  exact ⟨fun ⟨le, ge⟩ => Char.le_antisymm ge le, fun eq => eq ▸ ⟨Char.le_refl _, Char.le_refl _⟩⟩

theorem acceptsChars_literal_nil (c : Char) (pieces : Glob) :
    acceptsChars (literal c :: pieces) [] = false := by
  unfold literal
  split <;> rfl

theorem acceptsChars_literal_cons (c d : Char) (pieces : Glob) (s : List Char) :
    acceptsChars (literal c :: pieces) (d :: s) = (d == c && acceptsChars pieces s) := by
  unfold literal
  split
  · rw [acceptsChars, inRanges_single]
  · rw [acceptsChars]

/-- Pieces that stand for characters match the text of these. -/
theorem acceptsChars_map_literal (s t : List Char) :
    acceptsChars (s.map literal) t = true ↔ t = s := by
  induction s generalizing t with
  | nil => simp [acceptsChars]
  | cons c s ih =>
    cases t with
    | nil => simp [acceptsChars_literal_nil]
    | cons d t => simp [acceptsChars_literal_cons, ih]

/-- An escaped text is a pattern, and the text is all that it matches. -/
theorem exists_ofPattern_escape (text : String) :
    ∃ glob, ofPattern (escape text) = .ok glob ∧
      ∀ other, glob.accepts other = true ↔ other = text := by
  refine ⟨text.toList.map literal, ?_, fun other => ?_⟩
  · rw [ofPattern, compile, escape, String.toList_ofList, piecesFrom_escaped]
  · rw [accepts, acceptsChars_map_literal, String.toList_inj]

end Markers.Glob

import Markers.Finding
import Markers.Proofs.Position
import Markers.Proofs.Text.Decimal

/-!
# The order of sort keys

A sort key has at least six digits for a line and for a column. Numbers with more digits are compared
with shorter ones digit by digit from the left, so of two findings in one file the earlier one has
the smaller key exactly if its position is `KeyedBefore` the other one (`sortKey_lt_iff`).
With lines and columns below one million that is the order of the positions (`keyedBefore_of_lt`).
-/

namespace Markers
open Text

namespace Finding

/-- The digits of a number in a sort key. -/
def keyDigits (n : Nat) : List Char :=
  padStartWith '0' 6 (decimal n)

theorem allDigits_keyDigits (n : Nat) : AllDigits (keyDigits n) := by
  intro c mem
  rcases List.mem_append.1 mem with zero | digit
  · rw [List.eq_of_mem_replicate zero]
    rfl
  · exact Nat.isDigit_of_mem_toDigits (by decide) (by decide) digit

theorem decimalValue_keyDigits (n : Nat) : decimalValue (keyDigits n) = n := by
  rw [decimalValue, keyDigits, padStartWith, Nat.ofDigitChars_append,
    Nat.ofDigitChars_replicate_zero, Nat.mul_zero]
  exact Nat.ofDigitChars_ten_toDigits

theorem takeWhile_keyDigits (n : Nat) (x : List Char) :
    (keyDigits n ++ ':' :: x).takeWhile Char.isDigit = keyDigits n := by
  rw [List.takeWhile_append_of_pos (allDigits_keyDigits n)]
  simp

theorem length_keyDigits (n : Nat) : (keyDigits n).length = max 6 (decimal n).length :=
  length_padStartWith ..

theorem length_keyDigits_mono {m n : Nat} (le : m ≤ n) :
    (keyDigits m).length ≤ (keyDigits n).length := by
  have fits : n < 10 ^ (decimal n).length :=
    (Nat.length_toDigits_le_iff (by decide) Nat.length_toDigits_pos).1 (Nat.le_refl _)
  have shorter : (decimal m).length ≤ (decimal n).length :=
    (Nat.length_toDigits_le_iff (by decide) Nat.length_toDigits_pos).2 (Nat.lt_of_le_of_lt le fits)
  rw [length_keyDigits, length_keyDigits]
  omega

theorem length_keyDigits_of_lt {n : Nat} (small : n < 1000000) : (keyDigits n).length = 6 := by
  have short : (decimal n).length ≤ 6 := (Nat.length_toDigits_le_iff (by decide) (by decide)).2 small
  rw [length_keyDigits]
  omega

/-- The number that the first digits of `n` in a sort key write, as many as `m` has there. -/
def leading (m n : Nat) : Nat :=
  n / unit ((keyDigits n).length - (keyDigits m).length)

theorem leading_of_length_eq {m n : Nat} (same : (keyDigits m).length = (keyDigits n).length) :
    leading m n = n := by
  rw [leading, same, Nat.sub_self]
  exact Nat.div_one n

/-- Where a greater number begins with the digits of a smaller one, more digits follow. -/
theorem drop_keyDigits_ne_nil {m n : Nat} (less : m < n) (begins : m = leading m n) :
    (keyDigits n).drop (keyDigits m).length ≠ [] := by
  intro all
  have le := List.drop_eq_nil_iff.1 all
  have same := Nat.le_antisymm (length_keyDigits_mono (Nat.le_of_lt less)) le
  rw [leading_of_length_eq same] at begins
  omega

/-- Numbers in sort keys are compared by leading digits, and then by what follows them. -/
theorem keyDigits_append_lt_iff {m n : Nat} (le : m ≤ n) (x y : List Char) :
    keyDigits m ++ x < keyDigits n ++ y ↔
      m < leading m n ∨ m = leading m n ∧ x < (keyDigits n).drop (keyDigits m).length ++ y := by
  have split := append_lt_append_iff_of_le (allDigits_keyDigits m) (allDigits_keyDigits n)
    (length_keyDigits_mono le) x y
  rwa [decimalValue_keyDigits, decimalValue_keyDigits] at split

/-- A line is before a greater one if it is before its leading digits: a colon is behind all
digits. -/
theorem lineDigits_lt_iff {m n : Nat} (less : m < n) (x y : List Char) :
    keyDigits m ++ ':' :: x < keyDigits n ++ ':' :: y ↔ m < leading m n := by
  rw [keyDigits_append_lt_iff (Nat.le_of_lt less)]
  refine or_iff_left ?_
  rintro ⟨begins, lower⟩
  obtain ⟨c, rest, more⟩ := List.exists_cons_of_ne_nil (drop_keyDigits_ne_nil less begins)
  have digit : c.isDigit = true := by
    refine allDigits_keyDigits n c (List.mem_of_mem_drop (i := (keyDigits m).length) ?_)
    rw [more]
    exact List.mem_cons_self ..
  have small := (isDigit_iff.1 digit).2
  rw [more, List.cons_append, List.cons_lt_cons_iff] at lower
  rcases lower with before | ⟨rfl, _⟩
  · have : 58 < c.toNat := before
    omega
  · exact absurd digit (by decide)

/-- A column is before a greater one if it is not behind its leading digits: an end is before all
digits. -/
theorem columnDigits_lt_iff {m n : Nat} (less : m < n) :
    keyDigits m < keyDigits n ↔ m ≤ leading m n := by
  have split := keyDigits_append_lt_iff (Nat.le_of_lt less) [] []
  rw [List.append_nil, List.append_nil] at split
  rw [split, Nat.le_iff_lt_or_eq]
  refine or_congr_right ⟨fun h => h.1, fun begins => ⟨begins, ?_⟩⟩
  obtain ⟨c, rest, more⟩ := List.exists_cons_of_ne_nil (drop_keyDigits_ne_nil less begins)
  rw [more]
  exact List.nil_lt_cons ..

end Finding

/-- That its sort key puts a position before a later one: lines, and columns on one line, are
compared with as many leading digits of the later number as the earlier one has. -/
def Position.KeyedBefore (p q : Position) : Prop :=
  p.line < Finding.leading p.line q.line ∨
    p.line = q.line ∧ p.column ≤ Finding.leading p.column q.column

instance (p q : Position) : Decidable (p.KeyedBefore q) :=
  inferInstanceAs (Decidable (_ ∨ _))

/-- Below one million all positions are keyed in their order. -/
theorem Position.keyedBefore_of_lt {p q : Position} (before : p < q)
    (small : p.line < 1000000 ∧ p.column < 1000000) (small' : q.line < 1000000 ∧ q.column < 1000000) :
    p.KeyedBefore q := by
  have leading {m n : Nat} (small : m < 1000000) (small' : n < 1000000) : Finding.leading m n = n :=
    Finding.leading_of_length_eq <| by
      rw [Finding.length_keyDigits_of_lt small, Finding.length_keyDigits_of_lt small']
  rw [KeyedBefore, leading small.1 small'.1, leading small.2 small'.2]
  have := lt_iff.1 before
  omega

namespace Finding
variable {a b : Finding}

theorem toList_sortKey (a : Finding) :
    a.sortKey.toList = a.file.displayName.toList ++
      '_' :: (keyDigits a.start.line ++ ':' :: keyDigits a.start.column) := by
  simp [sortKey, sortKey.six, keyDigits]

/-- Findings in one file with one sort key have one position. -/
theorem start_eq_of_sortKey (file : a.file = b.file) (same : a.sortKey = b.sortKey) :
    a.start = b.start := by
  have chars := congrArg String.toList same
  rw [toList_sortKey, toList_sortKey, file, List.append_cancel_left_eq, List.cons.injEq] at chars
  have lines := congrArg (List.takeWhile Char.isDigit) chars.2
  rw [takeWhile_keyDigits, takeWhile_keyDigits] at lines
  have line : a.start.line = b.start.line := by
    rw [← decimalValue_keyDigits a.start.line, lines, decimalValue_keyDigits]
  have columns : keyDigits a.start.column = keyDigits b.start.column := by
    simpa [line] using chars.2
  have column : a.start.column = b.start.column := by
    rw [← decimalValue_keyDigits a.start.column, columns, decimalValue_keyDigits]
  rw [Position.mk.injEq]
  exact ⟨line, column⟩

/-- Of two findings in a file the earlier one has the smaller key exactly if its
position is keyed before the other one. -/
theorem sortKey_lt_iff (file : a.file = b.file) (before : a.start < b.start) :
    a.sortKey < b.sortKey ↔ a.start.KeyedBefore b.start := by
  rw [show a.sortKey < b.sortKey ↔ a.sortKey.toList < b.sortKey.toList from Iff.rfl,
    toList_sortKey, toList_sortKey, file, append_lt_append_left_iff, List.cons_lt_cons_self,
    Position.KeyedBefore]
  rcases Position.lt_iff.1 before with line | ⟨line, column⟩
  · rw [lineDigits_lt_iff line]
    omega
  · rw [line, append_lt_append_left_iff, List.cons_lt_cons_self, columnDigits_lt_iff column,
      leading_of_length_eq rfl]
    omega

/-- The order in which findings of a file are sorted. -/
theorem isLE_compare_sortKey_iff (file : a.file = b.file) (before : a.start < b.start) :
    (compare a.sortKey b.sortKey).isLE = true ↔ a.start.KeyedBefore b.start := by
  have other : compare a.sortKey b.sortKey ≠ .eq := by
    intro same
    rw [start_eq_of_sortKey file (Std.LawfulEqOrd.eq_of_compare same)] at before
    exact Position.not_le_of_lt before (.inr rfl)
  rw [← sortKey_lt_iff file before, Ordering.isLE_iff_eq_lt_or_eq_eq, or_iff_left other]
  exact compareOfLessAndEq_eq_lt

end Finding
end Markers

import Markers.Text.Pad

/-!
# The order of decimal texts

Texts of digits of one length are ordered by the numbers they write, and behind equal ones the order
is that of what follows (`append_lt_append_iff`). Against a longer text of digits a shorter one is
compared with as many leading digits (`append_lt_append_iff_of_le`); if these are equal, the first
character behind the shorter text meets a digit.
-/

namespace Markers.Text

/-- That a text consists of digits. -/
def AllDigits (s : List Char) : Prop :=
  ∀ c ∈ s, c.isDigit = true

/-- The number that digits write. -/
def decimalValue (s : List Char) : Nat :=
  Nat.ofDigitChars 10 s 0

/-- What a digit with `k` digits behind it counts. -/
def unit (k : Nat) : Nat :=
  Nat.pow 10 k

theorem unit_pos (k : Nat) : 0 < unit k :=
  Nat.pow_pos (by decide)

theorem unit_succ (k : Nat) : unit (k + 1) = unit k * 10 :=
  rfl

theorem isDigit_iff {c : Char} : c.isDigit = true ↔ 48 ≤ c.toNat ∧ c.toNat ≤ 57 := by
  rw [Char.isDigit, Bool.and_eq_true, decide_eq_true_eq, decide_eq_true_eq]
  rfl

theorem decimalValue_cons (c : Char) (s : List Char) :
    decimalValue (c :: s) = unit s.length * (c.toNat - 48) + decimalValue s := by
  rw [decimalValue, Nat.ofDigitChars_cons, Nat.ofDigitChars_eq_ofDigitChars_zero, Nat.mul_zero,
    Nat.zero_add]
  rfl

theorem decimalValue_append (s t : List Char) :
    decimalValue (s ++ t) = unit t.length * decimalValue s + decimalValue t := by
  rw [decimalValue, Nat.ofDigitChars_append, Nat.ofDigitChars_eq_ofDigitChars_zero]
  rfl

theorem decimalValue_lt {s : List Char} (digits : AllDigits s) : decimalValue s < unit s.length := by
  induction s with
  | nil => exact Nat.one_pos
  | cons c s ih =>
    obtain ⟨first, digits⟩ := List.forall_mem_cons.1 digits
    have rest := ih digits
    have small : c.toNat - 48 ≤ 9 := by
      have := (isDigit_iff.1 first).2
      omega
    have lead : unit s.length * (c.toNat - 48) ≤ unit s.length * 9 := Nat.mul_le_mul_left _ small
    rw [decimalValue_cons, List.length_cons, unit_succ]
    omega

theorem append_lt_append_left_iff (front x y : List Char) : front ++ x < front ++ y ↔ x < y := by
  induction front with
  | nil => rfl
  | cons c front ih =>
    rw [List.cons_append, List.cons_append, List.cons_lt_cons_self, ih]

/-- Texts of digits of one length are in the order of their numbers; behind equal ones what follows
decides. -/
theorem append_lt_append_iff {s t : List Char} (digits : AllDigits s) (digits' : AllDigits t)
    (same : s.length = t.length) (x y : List Char) :
    s ++ x < t ++ y ↔
      decimalValue s < decimalValue t ∨ decimalValue s = decimalValue t ∧ x < y := by
  induction s generalizing t with
  | nil =>
    obtain rfl := List.eq_nil_of_length_eq_zero same.symm
    simp
  | cons c s ih =>
    cases t with
    | nil => cases same
    | cons d t =>
      obtain ⟨first, digits⟩ := List.forall_mem_cons.1 digits
      obtain ⟨first', digits'⟩ := List.forall_mem_cons.1 digits'
      have same : s.length = t.length := Nat.succ.inj same
      have small := isDigit_iff.1 first
      have small' := isDigit_iff.1 first'
      have bound := decimalValue_lt digits
      have bound' := decimalValue_lt digits'
      rw [List.cons_append, List.cons_append, List.cons_lt_cons_iff, ih digits digits' same,
        decimalValue_cons, decimalValue_cons, ← same]
      rw [← same] at bound'
      generalize unit s.length = u at bound bound'
      -- a greater first digit outweighs all digits behind it
      have outweighs {m n : Nat} (less : m < n) : u * m + u ≤ u * n := by
        rw [← Nat.mul_succ]
        exact Nat.mul_le_mul_left u less
      rcases Nat.lt_trichotomy c.toNat d.toNat with less | equal | greater
      · have before : c < d := less
        have := outweighs (show c.toNat - 48 < d.toNat - 48 by omega)
        simp only [before, true_or, true_iff]
        omega
      · obtain rfl := Char.toNat_inj.1 equal
        have irrefl : ¬c < c := Char.lt_irrefl c
        simp only [irrefl, false_or, true_and, Nat.add_lt_add_iff_left, Nat.add_left_cancel_iff]
      · have after : ¬c < d := Nat.lt_asymm greater
        have other : c ≠ d := fun same => Nat.ne_of_gt greater (congrArg Char.toNat same)
        have := outweighs (show d.toNat - 48 < c.toNat - 48 by omega)
        simp only [after, other, false_and, or_false, false_iff]
        omega

/-- Of a longer text of digits only as many count as the shorter one has. -/
theorem append_lt_append_iff_of_le {s t : List Char} (digits : AllDigits s) (digits' : AllDigits t)
    (le : s.length ≤ t.length) (x y : List Char) :
    s ++ x < t ++ y ↔
      decimalValue s < decimalValue t / unit (t.length - s.length) ∨
        decimalValue s = decimalValue t / unit (t.length - s.length) ∧
          x < t.drop s.length ++ y := by
  have front : AllDigits (t.take s.length) := fun c mem => digits' c (List.mem_of_mem_take mem)
  have back : AllDigits (t.drop s.length) := fun c mem => digits' c (List.mem_of_mem_drop mem)
  have leading : decimalValue (t.take s.length) = decimalValue t / unit (t.length - s.length) := by
    have small := decimalValue_lt back
    have parts := decimalValue_append (t.take s.length) (t.drop s.length)
    rw [List.take_append_drop] at parts
    rw [List.length_drop] at small parts
    rw [parts, Nat.mul_add_div (unit_pos _), Nat.div_eq_of_lt small, Nat.add_zero]
  have split := append_lt_append_iff digits front (by rw [List.length_take]; omega) x
    (t.drop s.length ++ y)
  rw [← List.append_assoc, List.take_append_drop, leading] at split
  exact split

end Markers.Text

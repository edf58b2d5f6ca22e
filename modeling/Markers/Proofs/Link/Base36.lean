import Markers.Proofs.Link
import Mathlib.Data.Nat.Digits.Lemmas

/-!
# Which hashes share an id

An id writes the digits of a hash from the least significant one on, behind zeros that fill it up to
seven. A zero in front of the digits is therefore also the last digit of a number 36 times as great:
read from left to right as least significant first, an id gives its hash times a power of 36
(`base36Number_base36`). So two hashes have one id exactly if one is the other times a power of 36
(`base36_eq_base36_iff`).
-/

namespace Markers

/-- The digits of base 36. -/
def base36Alphabet : List Char :=
  "0123456789abcdefghijklmnopqrstuvwxyz".toList

theorem base36Digit_mem : ∀ n < 36, base36Digit n ∈ base36Alphabet := by
  decide

theorem idxOf_base36Digit : ∀ n < 36, base36Alphabet.idxOf (base36Digit n) = n := by
  decide

theorem base36Digits_eq (n : Nat) : base36Digits n = (Nat.digits 36 n).map base36Digit := by
  fun_induction base36Digits n with
  | case1 => simp
  | case2 n positive ih =>
    rw [Nat.digits_def' (by decide) (Nat.pos_of_ne_zero positive), List.map_cons, ih]

/-- The digits of a number behind zeros that fill them up to seven. -/
def filledDigits (n : Nat) : List Nat :=
  List.replicate (7 - (Nat.digits 36 n).length) 0 ++ Nat.digits 36 n

theorem toList_base36 (n : Nat) : (base36 n).toList = (filledDigits n).map base36Digit := by
  have zero : base36Digit 0 = '0' := by decide
  rw [base36, String.toList_ofList, Text.padStartWith, base36Digits_eq, List.length_map,
    filledDigits, List.map_append, List.map_replicate, zero]

theorem lt_of_mem_filledDigits {n digit : Nat} (mem : digit ∈ filledDigits n) : digit < 36 := by
  rcases List.mem_append.1 mem with fill | mem
  · rw [(List.mem_replicate.1 fill).2]
    decide
  · exact Nat.digits_lt_base (by decide) mem

theorem length_digits_le {n : Nat} (small : n < 2 ^ 32) : (Nat.digits 36 n).length ≤ 7 := by
  rw [Nat.digits_length_le_iff (by decide)]
  omega

theorem length_filledDigits {n : Nat} (small : n < 2 ^ 32) : (filledDigits n).length = 7 := by
  have := length_digits_le small
  rw [filledDigits, List.length_append, List.length_replicate]
  omega

/-- The number that a text of digits writes, if the first one counts least. -/
def base36Number (s : List Char) : Nat :=
  Nat.ofDigits 36 (s.map base36Alphabet.idxOf)

/-- Each zero that fills up an id makes the number that it writes 36 times as great. -/
theorem base36Number_base36 (n : Nat) :
    base36Number (base36 n).toList = 36 ^ (7 - (Nat.digits 36 n).length) * n := by
  have digits : ((filledDigits n).map base36Digit).map base36Alphabet.idxOf = filledDigits n := by
    rw [List.map_map]
    refine (List.map_congr_left fun digit mem => ?_).trans (List.map_id _)
    exact idxOf_base36Digit digit (lt_of_mem_filledDigits mem)
  rw [base36Number, toList_base36, digits, filledDigits, Nat.ofDigits_append,
    Nat.ofDigits_replicate_zero, Nat.ofDigits_digits, List.length_replicate, Nat.zero_add]

/-- A factor of 36 takes the place of a zero that fills up. -/
theorem base36_pow_mul {n k : Nat} (small : 36 ^ k * n < 2 ^ 32) :
    base36 (36 ^ k * n) = base36 n := by
  rcases Nat.eq_zero_or_pos n with rfl | positive
  · rw [Nat.mul_zero]
  have digits := Nat.digits_base_pow_mul (b := 36) (k := k) (by decide) positive
  have fits := length_digits_le small
  rw [digits, List.length_append, List.length_replicate] at fits
  have fill : 7 - (k + (Nat.digits 36 n).length) + k = 7 - (Nat.digits 36 n).length := by
    omega
  have same : filledDigits (36 ^ k * n) = filledDigits n := by
    rw [filledDigits, digits, List.length_append, List.length_replicate, ← List.append_assoc,
      List.replicate_append_replicate, fill, filledDigits]
  rw [← String.toList_inj, toList_base36, toList_base36, same]

/-- If two numbers have one id, the one with more digits is the other times a power of 36. -/
theorem eq_pow_mul_of_base36_eq {v w : Nat} (small : w < 2 ^ 32) (same : base36 v = base36 w)
    (le : (Nat.digits 36 v).length ≤ (Nat.digits 36 w).length) : ∃ k, w = 36 ^ k * v := by
  have fits := length_digits_le small
  have numbers := congrArg (fun id => base36Number (String.toList id)) same
  simp only [base36Number_base36] at numbers
  refine ⟨(Nat.digits 36 w).length - (Nat.digits 36 v).length, ?_⟩
  have split : 7 - (Nat.digits 36 v).length = 7 - (Nat.digits 36 w).length +
      ((Nat.digits 36 w).length - (Nat.digits 36 v).length) := by
    omega
  rw [split, Nat.pow_add, Nat.mul_assoc] at numbers
  exact (Nat.eq_of_mul_eq_mul_left (Nat.pow_pos (by decide)) numbers).symm

/-- Two 32-bit numbers have one id exactly if one of them is the other times a power of 36. -/
theorem base36_eq_base36_iff (v w : UInt32) : base36 v.toNat = base36 w.toNat ↔
    ∃ k, w.toNat = 36 ^ k * v.toNat ∨ v.toNat = 36 ^ k * w.toNat := by
  constructor
  · intro same
    rcases Nat.le_total (Nat.digits 36 v.toNat).length (Nat.digits 36 w.toNat).length with le | le
    · exact (eq_pow_mul_of_base36_eq w.toNat_lt same le).imp fun _ => .inl
    · exact (eq_pow_mul_of_base36_eq v.toNat_lt same.symm le).imp fun _ => .inr
  · rintro ⟨k, shifted | shifted⟩
    · rw [shifted, base36_pow_mul (shifted ▸ w.toNat_lt)]
    · rw [shifted, base36_pow_mul (shifted ▸ v.toNat_lt)]

/-- **Which hashes share an id.** The id of a 32-bit hash is seven digits or lower-case letters. The
id tells it apart from another hash unless one of the two is the other times a power of 36, and with
the ids of URLs it is the same. -/
theorem base36_eq_iff (v w : UInt32) :
    (base36 v.toNat).toList.length = 7 ∧
    (∀ c ∈ (base36 v.toNat).toList, c ∈ "0123456789abcdefghijklmnopqrstuvwxyz".toList) ∧
    (base36 v.toNat = base36 w.toNat ↔
      ∃ k, w.toNat = 36 ^ k * v.toNat ∨ v.toNat = 36 ^ k * w.toNat) ∧
    ∀ url url' : String, linkId url = linkId url' ↔
      ∃ k, (urlHash url').toNat = 36 ^ k * (urlHash url).toNat ∨
        (urlHash url).toNat = 36 ^ k * (urlHash url').toNat := by
  refine ⟨?_, fun c mem => ?_, base36_eq_base36_iff v w, fun url url' => ?_⟩
  · rw [toList_base36, List.length_map, length_filledDigits v.toNat_lt]
  · rw [toList_base36] at mem
    obtain ⟨digit, inside, rfl⟩ := List.mem_map.1 mem
    exact base36Digit_mem digit (lt_of_mem_filledDigits inside)
  · exact base36_eq_base36_iff (urlHash url) (urlHash url')

/-- Two files with one name and one line whose hashes differ by the factor 36. -/
theorem base36_eq_shifted :
    let a := "https://github.com/octo/widgets/tree/main/tests/Clients/Item.cs#L192C4"
    let b := "https://github.com/octo/widgets/tree/main/Cache/Mappers/Item.cs#L192C4"
    urlHash a = 111270703 ∧ urlHash b = 4005745308 ∧ linkId a = "0v0x8u1" ∧
      linkId b = "0v0x8u1" ∧ base36 1 = "0000001" ∧ base36 36 = "0000001" := by
  decide +kernel

end Markers

import Markers.Text.Utf8

/-!
# Texts and their bytes

Every text is read back from its bytes (`decode?_encode`). A character of one to four bytes has a
lemma each, over the numbers that the bytes stand for; the code points that are no characters are
those for which the second byte is out of its range.
-/

namespace Markers.Text

theorem within_iff {low high : Nat} {b : UInt8} :
    within low high b = true ↔ low ≤ b.toNat ∧ b.toNat ≤ high := by
  rw [within, Bool.and_eq_true, decide_eq_true_eq, decide_eq_true_eq]

theorem isTail_iff {b : UInt8} : isTail b = true ↔ 0x80 ≤ b.toNat ∧ b.toNat ≤ 0xBF :=
  within_iff

section
variable {a b c d : UInt8} {n : Nat} (rest : List UInt8)

theorem decode_one (first : a.toNat = n) (high : n < 0x80) :
    decode (a :: rest) = some (Char.ofNat n) :: decode rest := by
  rw [decode.eq_def]
  simp only [first, high, if_true]

theorem decode_two (first : a.toNat = n / 64 + 0xC0) (second : b.toNat = n % 64 + 0x80)
    (low : 0x80 ≤ n) (high : n < 0x800) :
    decode (a :: b :: rest) = some (Char.ofNat n) :: decode rest := by
  have ascii : ¬a.toNat < 0x80 := by omega
  have lead : within 0xC2 0xDF a = true := within_iff.2 (by omega)
  have tail : isTail b = true := isTail_iff.2 (by omega)
  have value : a.toNat % 32 * 64 + tailBits b = n := by
    rw [tailBits]
    omega
  rw [decode.eq_def]
  simp only [ascii, lead, tail, value, if_true, if_false]

theorem isSecondOfThree_of_valid (first : a.toNat = n / 4096 + 0xE0)
    (second : b.toNat = n / 64 % 64 + 0x80) (low : 0x800 ≤ n)
    (valid : n < 0xD800 ∨ 0xDFFF < n) : isSecondOfThree a b = true := by
  unfold isSecondOfThree
  split
  · next least =>
    rw [least] at first
    change 0xE0 = _ at first
    exact within_iff.2 (by omega)
  · split
    · next surrogate =>
      rw [surrogate] at first
      change 0xED = _ at first
      exact within_iff.2 (by omega)
    · exact isTail_iff.2 (by omega)

theorem decode_three (first : a.toNat = n / 4096 + 0xE0) (second : b.toNat = n / 64 % 64 + 0x80)
    (third : c.toNat = n % 64 + 0x80) (low : 0x800 ≤ n) (high : n < 0x10000)
    (valid : n < 0xD800 ∨ 0xDFFF < n) :
    decode (a :: b :: c :: rest) = some (Char.ofNat n) :: decode rest := by
  have ascii : ¬a.toNat < 0x80 := by omega
  have notTwo : within 0xC2 0xDF a = false :=
    Bool.eq_false_iff.2 fun lead => by have := within_iff.1 lead; omega
  have lead : within 0xE0 0xEF a = true := within_iff.2 (by omega)
  have next : isSecondOfThree a b = true := isSecondOfThree_of_valid first second low valid
  have tail : isTail c = true := isTail_iff.2 (by omega)
  have value : (a.toNat % 16 * 64 + tailBits b) * 64 + tailBits c = n := by
    rw [tailBits, tailBits]
    omega
  rw [decode.eq_def]
  simp only [ascii, notTwo, lead, next, tail, value, if_true, if_false, Bool.false_eq_true]

theorem isSecondOfFour_of_valid (first : a.toNat = n / 262144 + 0xF0)
    (second : b.toNat = n / 4096 % 64 + 0x80) (low : 0x10000 ≤ n) (valid : n < 0x110000) :
    isSecondOfFour a b = true := by
  unfold isSecondOfFour
  split
  · next least =>
    rw [least] at first
    change 0xF0 = _ at first
    exact within_iff.2 (by omega)
  · split
    · next greatest =>
      rw [greatest] at first
      change 0xF4 = _ at first
      exact within_iff.2 (by omega)
    · exact isTail_iff.2 (by omega)

theorem decode_four (first : a.toNat = n / 262144 + 0xF0)
    (second : b.toNat = n / 4096 % 64 + 0x80) (third : c.toNat = n / 64 % 64 + 0x80)
    (fourth : d.toNat = n % 64 + 0x80) (low : 0x10000 ≤ n) (valid : n < 0x110000) :
    decode (a :: b :: c :: d :: rest) = some (Char.ofNat n) :: decode rest := by
  have ascii : ¬a.toNat < 0x80 := by omega
  have notTwo : within 0xC2 0xDF a = false :=
    Bool.eq_false_iff.2 fun lead => by have := within_iff.1 lead; omega
  have notThree : within 0xE0 0xEF a = false :=
    Bool.eq_false_iff.2 fun lead => by have := within_iff.1 lead; omega
  have lead : within 0xF0 0xF4 a = true := within_iff.2 (by omega)
  have next : isSecondOfFour a b = true := isSecondOfFour_of_valid first second low valid
  have tail : isTail c = true := isTail_iff.2 (by omega)
  have tail' : isTail d = true := isTail_iff.2 (by omega)
  have value : ((a.toNat % 8 * 64 + tailBits b) * 64 + tailBits c) * 64 + tailBits d = n := by
    rw [tailBits, tailBits, tailBits]
    omega
  rw [decode.eq_def]
  simp only [ascii, notTwo, notThree, lead, next, tail, tail', value, if_true, if_false,
    Bool.false_eq_true]

end

/-- A character is read back from its bytes. -/
theorem decode_utf8EncodeChar (c : Char) (rest : List UInt8) :
    decode (String.utf8EncodeChar c ++ rest) = some c :: decode rest := by
  have number : c.val.toNat = c.toNat := rfl
  have valid : c.toNat < 0xD800 ∨ 0xDFFF < c.toNat ∧ c.toNat < 0x110000 := c.valid
  have byte : ∀ n < 256, (UInt8.ofNat n).toNat = n := fun n small => Nat.mod_eq_of_lt small
  have char : Char.ofNat c.toNat = c := Char.ofNat_toNat c
  unfold String.utf8EncodeChar
  simp only [number]
  split
  · rw [List.singleton_append, decode_one rest (byte _ (by omega)) (by omega), char]
  split
  · rw [List.cons_append, List.singleton_append,
      decode_two rest (n := c.toNat) (by rw [byte _ (by omega)]; omega)
        (byte _ (by omega)) (by omega) (by omega), char]
  split
  · rw [List.cons_append, List.cons_append, List.singleton_append,
      decode_three rest (n := c.toNat) (by rw [byte _ (by omega)]; omega)
        (byte _ (by omega)) (byte _ (by omega)) (by omega) (by omega) (by omega), char]
  · rw [List.cons_append, List.cons_append, List.cons_append, List.singleton_append,
      decode_four rest (n := c.toNat) (by rw [byte _ (by omega)]; omega)
        (byte _ (by omega)) (byte _ (by omega)) (byte _ (by omega)) (by omega) (by omega), char]

/-- A text is read back from its bytes. -/
theorem decode?_encode (s : List Char) : decode? (encode s) = some s := by
  have chars : decode (encode s) = s.map some := by
    induction s with
    | nil => rfl
    | cons c s ih => rw [encode, List.flatMap_cons, decode_utf8EncodeChar, ← encode, ih]; rfl
  rw [decode?, chars, List.mapM_map]
  exact List.mapM_pure.trans (congrArg some s.map_id)

end Markers.Text

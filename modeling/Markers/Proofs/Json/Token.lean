import Markers.Json.Token

/-!
# What the scanner reads

One lemma for each thing that a text can begin with: a piece of a string literal (`literal?_plain`,
`literal?_escaped`, `literal?_unit`), a whole literal (`ofChars?_literal`), a number
(`ofChars?_numeric`) or a blank (`ofChars?_space`). A number ends where a value may end.
-/

namespace Markers.Json.Token

/-! ## String literals -/

theorem literal?_plain {c : Char} (quote : c ≠ '"') (backslash : c ≠ '\\') (printed : ¬c.toNat < 32)
    (s : List Char) :
    literal? (c :: s) = (literal? s).map fun (pieces, rest) => (.char c :: pieces, rest) := by
  rw [literal?, if_neg printed]
  · cases literal? s <;> rfl
  all_goals simp [quote, backslash]

theorem literal?_escaped {letter c : Char} (unit : letter ≠ 'u') (stands : escaped? letter = some c)
    (s : List Char) :
    literal? ('\\' :: letter :: s) =
      (literal? s).map fun (pieces, rest) => (.char c :: pieces, rest) := by
  rw [literal?, stands]
  · cases literal? s <;> rfl
  · simp [unit]

theorem literal?_unit {a b c d : Char} {n : Nat} (unit : hex4? a b c d = some n) (s : List Char) :
    literal? ('\\' :: 'u' :: a :: b :: c :: d :: s) =
      (literal? s).map fun (pieces, rest) => (pieceOfUnit n :: pieces, rest) := by
  rw [literal?, unit]
  cases literal? s <;> rfl

theorem ofChars?_literal {s rest : List Char} {pieces : List Piece}
    (read : literal? s = some (pieces, rest)) :
    ofChars? ('"' :: s) =
      (ofChars? rest).map (scalar (.string (textOf pieces)) :: ·) := by
  rw [ofChars?]
  split
  · next read' => rw [read] at read'; cases read'; rfl
  · next read' => rw [read] at read'; simp at read'

/-! ## Numbers -/

/-- The characters that may follow a value: blanks, and those that go on with an array or an object
or end it. -/
def afterValue : List Char :=
  [' ', '\t', '\n', '\r', ',', ']', '\x7d']

/-- What may follow a value: nothing, or a text that begins with one of these characters. -/
def EndsValue (rest : List Char) : Prop :=
  ∀ c, rest.head? = some c → c ∈ afterValue

theorem not_isNumeric_of_mem_afterValue {c : Char} (mem : c ∈ afterValue) : isNumeric c = false := by
  simp only [afterValue, List.mem_cons, List.not_mem_nil, or_false] at mem
  rcases mem with rfl | rfl | rfl | rfl | rfl | rfl | rfl <;> rfl

theorem naturalOf_digits (n : Nat) : naturalOf (digits n) = n := by
  have read : Nat.ofDigitChars 10 (digits n) 0 = n := Nat.ofDigitChars_ten_toDigits
  rw [Nat.ofDigitChars_eq_foldl] at read
  rw [naturalOf]
  simpa only [Nat.mul_comm] using read

theorem isDigit_of_mem_digits {n : Nat} {c : Char} (mem : c ∈ digits n) : c.isDigit = true :=
  Nat.isDigit_of_mem_toDigits (by decide) (by decide) mem

/-- A number above zero is written without a zero in front. -/
theorem head?_digits_ne_zero {n : Nat} (pos : 0 < n) : (digits n).head? ≠ some '0' := by
  induction n using Nat.strongRecOn with
  | ind n ih =>
    have first : ∀ n < 10, 0 < n → Nat.digitChar n ≠ '0' := by decide
    rw [digits, Nat.toDigits_eq_if (by decide)]
    split
    · next small => simpa using first n small pos
    · next large =>
      have rest := ih (n / 10) (by omega) (by omega)
      obtain ⟨c, s, written⟩ := List.exists_cons_of_ne_nil (Nat.toDigits_ne_nil (n := n / 10) (b := 10))
      rw [digits, written] at rest
      rw [written]
      exact rest

theorem isNatural_digits (n : Nat) : isNatural (digits n) = true := by
  rcases Nat.eq_zero_or_pos n with rfl | pos
  · rfl
  · have head := head?_digits_ne_zero pos
    have all : (digits n).all Char.isDigit = true :=
      List.all_eq_true.2 fun c mem => isDigit_of_mem_digits mem
    cases written : digits n with
    | nil => exact absurd written Nat.toDigits_ne_nil
    | cons c rest =>
      rw [written] at head all
      have other : c ≠ '0' := fun same => head (congrArg some same)
      rw [isNatural.eq_def]
      split
      all_goals simp_all

theorem isNumeric_of_isDigit {c : Char} (digit : c.isDigit = true) : isNumeric c = true := by
  rw [isNumeric, digit]
  rfl

/-- A run of characters ends where another character follows. -/
theorem takeWhile_dropWhile_of_stop {p : Char → Bool} {s rest : List Char}
    (all : ∀ c ∈ s, p c = true) (stops : ∀ c, rest.head? = some c → p c = false) :
    (s ++ rest).takeWhile p = s ∧ (s ++ rest).dropWhile p = rest := by
  rw [List.takeWhile_append_of_pos all, List.dropWhile_append_of_pos all]
  cases rest with
  | nil => simp
  | cons c rest => simp [stops c rfl]

/-- A number ends where a value may end. -/
theorem takeWhile_dropWhile_numeric {s rest : List Char} (all : ∀ c ∈ s, isNumeric c = true)
    (ends : EndsValue rest) :
    (s ++ rest).takeWhile isNumeric = s ∧ (s ++ rest).dropWhile isNumeric = rest :=
  takeWhile_dropWhile_of_stop all fun c head => not_isNumeric_of_mem_afterValue (ends c head)

/-- A number is read to where no character of numbers follows. -/
theorem ofChars?_numeric {c : Char} {s : List Char} {value : Json} (numeric : isNumeric c = true)
    (read : numberOf? (c :: s.takeWhile isNumeric) = some value) :
    ofChars? (c :: s) = (ofChars? (s.dropWhile isNumeric)).map (scalar value :: ·) := by
  have space : isSpace c = false := by
    cases space : isSpace c with
    | false => rfl
    | true =>
      exfalso
      simp only [isSpace, Bool.or_eq_true, decide_eq_true_eq] at space
      rcases space with ((rfl | rfl) | rfl) | rfl <;> exact absurd numeric (by decide)
  rw [ofChars?, if_neg (by rw [space]; exact Bool.false_ne_true), if_pos numeric]
  · simp only [read]
  -- no other token begins with a character of numbers
  all_goals
    intros
    subst_vars
    exact absurd numeric (by decide)

/-! ## Blanks -/

theorem ofChars?_space {c : Char} (space : isSpace c = true) (s : List Char) :
    ofChars? (c :: s) = ofChars? s := by
  simp only [isSpace, Bool.or_eq_true, decide_eq_true_eq] at space
  rcases space with ((rfl | rfl) | rfl) | rfl <;> simp [ofChars?, isSpace]

end Markers.Json.Token

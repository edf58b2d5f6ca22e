import Markers.Json

/-!
# JSON tokens

`Token.ofChars?` cuts a text into punctuation and scalar values, skipping the blanks between them.
String literals are read by `literal?`: escapes give UTF-16 units, and `joinUnits` pairs the halves
of surrogate pairs. Numbers follow the JSON grammar, `numberOf?`.
-/

namespace Markers.Json

/-- A token of a JSON text. -/
inductive Token where
  | openArray
  | closeArray
  | openObject
  | closeObject
  | comma
  | colon
  /-- A literal, a number or a string. -/
  | scalar (value : Json)
deriving Repr

namespace Token

/-- The characters that may stand between tokens. -/
def isSpace (c : Char) : Bool :=
  c = ' ' || c = '\t' || c = '\n' || c = '\r'

/-! ## String literals -/

/-- A piece of a string literal: a character, or half of a surrogate pair. -/
inductive Piece where
  | char (c : Char)
  | high (n : Nat)
  | low (n : Nat)
deriving DecidableEq, Repr

/-- The value of a hexadecimal digit. -/
def hexValue? (c : Char) : Option Nat :=
  if '0' ≤ c ∧ c ≤ '9' then some (c.toNat - '0'.toNat)
  else if 'a' ≤ c ∧ c ≤ 'f' then some (c.toNat - 'a'.toNat + 10)
  else if 'A' ≤ c ∧ c ≤ 'F' then some (c.toNat - 'A'.toNat + 10)
  else none

/-- The number that four hexadecimal digits write. -/
def hex4? (a b c d : Char) : Option Nat := do
  let a ← hexValue? a
  let b ← hexValue? b
  let c ← hexValue? c
  let d ← hexValue? d
  return ((a * 16 + b) * 16 + c) * 16 + d

/-- The piece that a UTF-16 unit stands for. -/
def pieceOfUnit (n : Nat) : Piece :=
  if 0xD800 ≤ n ∧ n < 0xDC00 then .high n
  else if 0xDC00 ≤ n ∧ n < 0xE000 then .low n
  else .char (Char.ofNat n)

/-- The character that a single letter behind a backslash stands for. -/
def escaped? : Char → Option Char
  | '"' => some '"'
  | '\\' => some '\\'
  | '/' => some '/'
  | 'b' => some '\x08'
  | 'f' => some '\x0C'
  | 'n' => some '\n'
  | 'r' => some '\r'
  | 't' => some '\t'
  | _ => none

/-- The pieces of a string literal whose opening quote has been read, and what follows it. Control
characters must be escaped. -/
def literal? : List Char → Option (List Piece × List Char)
  | [] => none
  | '"' :: rest => some ([], rest)
  | '\\' :: 'u' :: a :: b :: c :: d :: rest => do
    let unit ← hex4? a b c d
    let (pieces, rest) ← literal? rest
    return (pieceOfUnit unit :: pieces, rest)
  | '\\' :: c :: rest => do
    let char ← escaped? c
    let (pieces, rest) ← literal? rest
    return (.char char :: pieces, rest)
  | c :: rest =>
    if c.toNat < 32 then none
    else do
      let (pieces, rest) ← literal? rest
      return (.char c :: pieces, rest)

/-- The characters of a literal, if every half of a surrogate pair meets its other half. -/
def joinUnits? : List Piece → Option (List Char)
  | [] => some []
  | .char c :: pieces => (joinUnits? pieces).map (c :: ·)
  | .high h :: .low l :: pieces =>
    (joinUnits? pieces).map (Char.ofNat (0x10000 + (h - 0xD800) * 0x400 + (l - 0xDC00)) :: ·)
  | _ => none

/-- What the pieces of a literal stand for. -/
def textOf (pieces : List Piece) : JsonText :=
  match joinUnits? pieces with
  | some chars => .text (String.ofList chars)
  | none => .unpaired

/-! ## Numbers -/

/-- The characters that numbers are made of. -/
def isNumeric (c : Char) : Bool :=
  c.isDigit || c = '-' || c = '+' || c = '.' || c = 'e' || c = 'E'

/-- The number that decimal digits write. -/
def naturalOf (digits : List Char) : Nat :=
  digits.foldl (fun n c => n * 10 + (c.toNat - '0'.toNat)) 0

/-- Whether a text is a whole number as JSON writes it: digits without a leading zero. -/
def isNatural : List Char → Bool
  | [] => false
  | ['0'] => true
  | c :: rest => c ≠ '0' && (c :: rest).all Char.isDigit

/-- Whether a text is an exponent, or nothing. -/
def isExponent : List Char → Bool
  | [] => true
  | c :: rest =>
    let digits := match rest with
      | '+' :: digits => digits
      | '-' :: digits => digits
      | digits => digits
    (c = 'e' || c = 'E') && digits ≠ [] && digits.all Char.isDigit

/-- Whether a text is a fraction or nothing, then an exponent or nothing. -/
def isFractionExponent : List Char → Bool
  | '.' :: rest =>
    rest.takeWhile Char.isDigit ≠ [] && isExponent (rest.dropWhile Char.isDigit)
  | rest => isExponent rest

/-- The number that a text writes. -/
def numberOf? (s : List Char) : Option Json :=
  if isNatural s then some (.natural (naturalOf s))
  else
    let unsigned := match s with
      | '-' :: rest => rest
      | rest => rest
    if isNatural (unsigned.takeWhile Char.isDigit) &&
        isFractionExponent (unsigned.dropWhile Char.isDigit) then some (.number s)
    else none

/-! ## Texts -/

theorem literal?_length {s rest : List Char} {pieces : List Piece}
    (h : literal? s = some (pieces, rest)) : rest.length < s.length := by
  fun_induction literal? s generalizing pieces rest with
  | case1 => simp at h
  | case2 => cases h; simp
  | case3 a b c d s ih =>
    simp only [bind, Option.bind_eq_some_iff] at h
    obtain ⟨_, _, ⟨_, _⟩, read, h⟩ := h
    cases h
    have := ih read
    simp only [List.length_cons]
    omega
  | case4 c s _ ih =>
    simp only [bind, Option.bind_eq_some_iff] at h
    obtain ⟨_, _, ⟨_, _⟩, read, h⟩ := h
    cases h
    have := ih read
    simp only [List.length_cons]
    omega
  | case5 => simp at h
  | case6 c s _ _ _ _ ih =>
    simp only [bind, Option.bind_eq_some_iff] at h
    obtain ⟨⟨_, _⟩, read, h⟩ := h
    cases h
    have := ih read
    simp only [List.length_cons]
    omega

theorem length_dropWhile_le (p : Char → Bool) (s : List Char) :
    (s.dropWhile p).length ≤ s.length :=
  (List.dropWhile_sublist p).length_le

/-- The tokens of a text. -/
def ofChars? (s : List Char) : Option (List Token) :=
  match s with
  | [] => some []
  | '[' :: rest => (ofChars? rest).map (openArray :: ·)
  | ']' :: rest => (ofChars? rest).map (closeArray :: ·)
  | '\x7b' :: rest => (ofChars? rest).map (openObject :: ·)
  | '\x7d' :: rest => (ofChars? rest).map (closeObject :: ·)
  | ',' :: rest => (ofChars? rest).map (comma :: ·)
  | ':' :: rest => (ofChars? rest).map (colon :: ·)
  | 'n' :: 'u' :: 'l' :: 'l' :: rest => (ofChars? rest).map (scalar .null :: ·)
  | 't' :: 'r' :: 'u' :: 'e' :: rest => (ofChars? rest).map (scalar (.bool true) :: ·)
  | 'f' :: 'a' :: 'l' :: 's' :: 'e' :: rest => (ofChars? rest).map (scalar (.bool false) :: ·)
  | '"' :: rest =>
    match read : literal? rest with
    | some (pieces, after) =>
      have := literal?_length read
      (ofChars? after).map (scalar (.string (textOf pieces)) :: ·)
    | none => none
  | c :: rest =>
    if isSpace c then ofChars? rest
    else if isNumeric c then
      have := length_dropWhile_le isNumeric rest
      match numberOf? (c :: rest.takeWhile isNumeric) with
      | some value => (ofChars? (rest.dropWhile isNumeric)).map (scalar value :: ·)
      | none => none
    else none
termination_by s.length
decreasing_by all_goals simp only [List.length_cons]; omega

end Token
end Markers.Json

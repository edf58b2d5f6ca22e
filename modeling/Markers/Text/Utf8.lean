/-!
# UTF-8

`encode` writes a text as bytes. `decode` reads bytes, one entry for each character and for each
ill-formed piece, where a piece is the longest start of a character that the bytes hold.
`decodeLossy` puts a replacement character in place of each piece, `decode?` refuses them.
-/

namespace Markers.Text

/-- The bytes of a text. -/
def encode (s : List Char) : List UInt8 :=
  s.flatMap String.utf8EncodeChar

/-- Whether a byte lies between two bounds. -/
def within (low high : Nat) (b : UInt8) : Bool :=
  decide (low ≤ b.toNat) && decide (b.toNat ≤ high)

/-- Whether a byte continues a character. -/
def isTail (b : UInt8) : Bool :=
  within 0x80 0xBF b

/-- Whether a byte may be the second of a character of three bytes that starts with `a`. -/
def isSecondOfThree (a b : UInt8) : Bool :=
  if a = 0xE0 then within 0xA0 0xBF b else if a = 0xED then within 0x80 0x9F b else isTail b

/-- Whether a byte may be the second of a character of four bytes that starts with `a`. -/
def isSecondOfFour (a b : UInt8) : Bool :=
  if a = 0xF0 then within 0x90 0xBF b else if a = 0xF4 then within 0x80 0x8F b else isTail b

/-- The six low bits of a byte. -/
def tailBits (b : UInt8) : Nat :=
  b.toNat % 64

/-- The characters of a byte sequence, with nothing in place of each ill-formed piece. -/
def decode : List UInt8 → List (Option Char)
  | [] => []
  | a :: rest =>
    if a.toNat < 0x80 then some (Char.ofNat a.toNat) :: decode rest
    else if within 0xC2 0xDF a then
      match rest with
      | b :: rest =>
        if isTail b then some (Char.ofNat (a.toNat % 32 * 64 + tailBits b)) :: decode rest
        else none :: decode (b :: rest)
      | [] => [none]
    else if within 0xE0 0xEF a then
      match rest with
      | b :: c :: rest =>
        if isSecondOfThree a b then
          if isTail c then
            some (Char.ofNat ((a.toNat % 16 * 64 + tailBits b) * 64 + tailBits c)) :: decode rest
          else none :: decode (c :: rest)
        else none :: decode (b :: c :: rest)
      | [b] => if isSecondOfThree a b then [none] else none :: decode [b]
      | [] => [none]
    else if within 0xF0 0xF4 a then
      match rest with
      | b :: c :: d :: rest =>
        if isSecondOfFour a b then
          if isTail c then
            if isTail d then
              some (Char.ofNat
                (((a.toNat % 8 * 64 + tailBits b) * 64 + tailBits c) * 64 + tailBits d)) ::
                  decode rest
            else none :: decode (d :: rest)
          else none :: decode (c :: d :: rest)
        else none :: decode (b :: c :: d :: rest)
      | [b, c] =>
        if isSecondOfFour a b then
          if isTail c then [none] else none :: decode [c]
        else none :: decode [b, c]
      | [b] => if isSecondOfFour a b then [none] else none :: decode [b]
      | [] => [none]
    else none :: decode rest

/-- The text of a byte sequence, with a replacement character for each ill-formed piece. -/
def decodeLossy (bytes : List UInt8) : List Char :=
  (decode bytes).map fun c => c.getD '\uFFFD'

/-- The text of a byte sequence, if it is well-formed. -/
def decode? (bytes : List UInt8) : Option (List Char) :=
  (decode bytes).mapM id

end Markers.Text

import Markers.SortedMap
import Markers.Text.Pad

/-!
# Reference links

A link names its URL by an id, which is a hash of the URL in base 36, and the URLs of all ids are
listed once. `urlHash` runs over the UTF-16 units of a text, the even and the odd ones apart.
`LinkRegistry.add` keeps the first URL given for an id.
-/

namespace Markers

/-- The UTF-16 units of a character. -/
def utf16Units (c : Char) : List UInt32 :=
  if c.toNat < 0x10000 then [c.val]
  else
    let n := c.val - 0x10000
    [0xD800 + n / 0x400, 0xDC00 + n % 0x400]

/-- One step of a hash: multiply by 33 and mix in a unit. -/
def hashStep (hash unit : UInt32) : UInt32 :=
  (hash * 33) ^^^ unit

/-- What both hashes start from. -/
def hashSeed : UInt32 :=
  5381 * 65536 + 5381

/-- The hashes of the units at even and at odd places. -/
def hashPair : UInt32 × UInt32 → List UInt32 → UInt32 × UInt32
  | hashes, [] => hashes
  | (even, odd), [a] => (hashStep even a, odd)
  | (even, odd), a :: b :: units => hashPair (hashStep even a, hashStep odd b) units

/-- The hash of a text. -/
def urlHash (text : String) : UInt32 :=
  let (even, odd) := hashPair (hashSeed, hashSeed) (text.toList.flatMap utf16Units)
  even + odd * 1566083941

/-- The digit of a number below 36. -/
def base36Digit (n : Nat) : Char :=
  Char.ofNat (if n < 10 then '0'.toNat + n else 'a'.toNat + (n - 10))

/-- The base 36 digits of a number, the least significant first; none for zero. -/
def base36Digits (n : Nat) : List Char :=
  if n = 0 then [] else base36Digit (n % 36) :: base36Digits (n / 36)
termination_by n

/-- Seven or more base 36 digits: those of the number behind zeros that fill them up. -/
def base36 (n : Nat) : String :=
  String.ofList (Text.padStartWith '0' 7 (base36Digits n))

/-- The id of a URL. -/
def linkId (url : String) : String :=
  base36 (urlHash url).toNat

/-- The links of a document: the URL of each id, by id. -/
structure LinkRegistry where
  urls : SortedMap String String
deriving DecidableEq, Repr

namespace LinkRegistry

/-- No links. -/
def empty : LinkRegistry :=
  ⟨.empty⟩

/-- The registry with a URL, and the link to it. -/
def add (links : LinkRegistry) (title url : String) : LinkRegistry × String :=
  (⟨links.urls.alter (linkId url) fun old => old.getD url⟩,
    "[" ++ title ++ "][" ++ linkId url ++ "]")

/-- The definitions of all ids, the greatest id first. -/
def references (links : LinkRegistry) : List String :=
  links.urls.entries.reverse.map fun (id, url) => "[" ++ id ++ "]: " ++ url

end LinkRegistry
end Markers

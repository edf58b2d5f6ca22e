/-!
# Marker kinds

The vocabulary of markers: five fixed keywords, and `NET` with up to two digits. `Kind.token` is
the keyword as written, `Kind.ofToken?` reads it back. Kinds are ordered by the vocabulary, and
`NET` kinds among themselves by the text of their digits.
-/

namespace Markers

/-- The digits after `NET`, at most two. -/
inductive NetDigits where
  | none
  | one (d : Fin 10)
  | two (d e : Fin 10)
deriving DecidableEq, Repr

/-- What a marker asks for. -/
inductive Kind where
  | todo
  | note
  | bug
  | kill
  | urgent
  | net (digits : NetDigits)
deriving DecidableEq, Repr

namespace NetDigits

/-- The digits in the order written. -/
def toList : NetDigits → List (Fin 10)
  | none => []
  | one d => [d]
  | two d e => [d, e]

/-- The character of a digit. -/
def digitChar (d : Fin 10) : Char :=
  Char.ofNat ('0'.toNat + d.val)

/-- The digit of an ASCII digit character. -/
def digitOf? (c : Char) : Option (Fin 10) :=
  if c.isDigit then some (Fin.ofNat 10 (c.toNat - '0'.toNat)) else Option.none

/-- The digits as text. -/
def token (digits : NetDigits) : List Char :=
  digits.toList.map digitChar

/-- At most two ASCII digits, and nothing else. -/
def ofToken? : List Char → Option NetDigits
  | [] => some none
  | [c] => (digitOf? c).map one
  | [c, d] => (digitOf? c).bind fun a => (digitOf? d).map (two a)
  | _ => Option.none

end NetDigits

namespace Kind

/-- The keyword as written. -/
def token : Kind → List Char
  | todo => "TODO".toList
  | note => "NOTE".toList
  | bug => "BUG".toList
  | kill => "KILL".toList
  | urgent => "URGENT".toList
  | net digits => 'N' :: 'E' :: 'T' :: digits.token

/-- The keyword as a string. -/
def render (k : Kind) : String :=
  String.ofList k.token

/-- The kind whose keyword is the whole of a text. -/
def ofToken? : List Char → Option Kind
  | ['T', 'O', 'D', 'O'] => some todo
  | ['N', 'O', 'T', 'E'] => some note
  | ['B', 'U', 'G'] => some bug
  | ['K', 'I', 'L', 'L'] => some kill
  | ['U', 'R', 'G', 'E', 'N', 'T'] => some urgent
  | 'N' :: 'E' :: 'T' :: digits => (NetDigits.ofToken? digits).map net
  | _ => none

/-- Place in the vocabulary. -/
def rank : Kind → Nat
  | todo => 0
  | note => 1
  | bug => 2
  | kill => 3
  | urgent => 4
  | net _ => 5

/-- The digits of a `NET` kind, most significant first. -/
def digits : Kind → List Nat
  | net d => d.toList.map Fin.val
  | _ => []

/-- By vocabulary, then by digits. -/
instance : Ord Kind where
  compare := compareLex (compareOn rank) (compareOn digits)

instance : Std.TransOrd Kind :=
  inferInstanceAs (Std.TransCmp (compareLex (compareOn rank) (compareOn digits)))

end Kind
end Markers

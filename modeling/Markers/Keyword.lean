import Markers.Text.Bytes

/-!
# Keywords at the start of a text

`Keyword.read?` reads one keyword of the vocabulary, taking as many digits after `NET` as allowed.
`Keyword.readings` lists every way to read one, the longest first. A keyword counts as a whole word
when no ASCII letter follows it, which is `Keyword.endsBefore`.
-/

namespace Markers.Keyword

/-- The digits that may follow `NET`: at most two, as many as there are. -/
def netDigits (s : List Char) : List Char :=
  (s.take 2).takeWhile Char.isDigit

/-- The keyword that starts a text, and what follows it. -/
def read? : List Char → Option (List Char × List Char)
  | 'T' :: 'O' :: 'D' :: 'O' :: s => some (['T', 'O', 'D', 'O'], s)
  | 'N' :: 'O' :: 'T' :: 'E' :: s => some (['N', 'O', 'T', 'E'], s)
  | 'B' :: 'U' :: 'G' :: s => some (['B', 'U', 'G'], s)
  | 'K' :: 'I' :: 'L' :: 'L' :: s => some (['K', 'I', 'L', 'L'], s)
  | 'U' :: 'R' :: 'G' :: 'E' :: 'N' :: 'T' :: s => some (['U', 'R', 'G', 'E', 'N', 'T'], s)
  | 'N' :: 'E' :: 'T' :: s => some ('N' :: 'E' :: 'T' :: netDigits s, s.drop (netDigits s).length)
  | _ => none

/-- Every way to read a keyword at the start of a text, the longest first. -/
def readings (s : List Char) : List (List Char × List Char) :=
  match s, read? s with
  | _, none => []
  | 'N' :: 'E' :: 'T' :: s, some _ =>
    ((List.range ((netDigits s).length + 1)).map fun n =>
      ('N' :: 'E' :: 'T' :: s.take n, s.drop n)).reverse
  | _, some reading => [reading]

/-- Whether a keyword may end before this text: no ASCII letter follows. -/
def endsBefore : List Char → Bool
  | [] => true
  | c :: _ => !c.isAlpha

/-- Whether a keyword may end at an offset of a text; none when that is no character boundary. -/
def endsAt? (text : List Char) (offset : Nat) : Option Bool :=
  (Text.dropBytes? text offset).map endsBefore

end Markers.Keyword

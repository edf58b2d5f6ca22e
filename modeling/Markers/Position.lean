import Markers.Text.Bytes

/-!
# Lines and columns

A `Position` is a 1-based line with a column in characters. `PositionIndex` holds a text beside
the offsets at which its lines end, so that `locate?` finds the line of an offset in a table and
counts characters only on that line. The result is absent when the offset is no character boundary.
-/

namespace Markers

/-- A line, counted from 1, and a column in characters. -/
structure Position where
  line : Nat
  column : Nat
deriving DecidableEq, Repr, Inhabited

namespace Position

/-- `line:column`. -/
def render (p : Position) : String :=
  p.line.repr ++ ":" ++ p.column.repr

/-- Earlier line first, then smaller column. -/
instance : Ord Position where
  compare := compareLex (compareOn line) (compareOn column)

instance : Std.TransOrd Position :=
  inferInstanceAs (Std.TransCmp (compareLex (compareOn line) (compareOn column)))

end Position

/-- A text with the offsets just past each of its lines, terminator included. -/
structure PositionIndex where
  text : List Char
  lineEnds : List Nat
deriving Repr

namespace PositionIndex
open Text

/-- Where lines starting at offset `start` end; the last one counts a terminator it may lack. -/
def endsOf (start : Nat) : List (List Char) → List Nat
  | [] => []
  | line :: lines => (start + byteLength line + 1) :: endsOf (start + byteLength line + 1) lines

/-- The index of a text, whose lines are what newlines separate. -/
def ofText (text : List Char) : PositionIndex :=
  ⟨text, endsOf 0 (text.splitOn '\n')⟩

/-- Number of lines; a final newline is followed by an empty line. -/
def lineCount (index : PositionIndex) : Nat :=
  index.lineEnds.length

/-- The position of an offset: the first line that ends beyond it, and the characters between
the start of that line and the offset. An offset past the end stands for the end. -/
def locate? (index : PositionIndex) (offset : Nat) : Option Position := do
  let offset := min offset (byteLength index.text)
  let passed := (index.lineEnds.takeWhile (· ≤ offset)).length
  let row := min passed (index.lineEnds.length - 1)
  let start ← if row = 0 then some 0 else index.lineEnds[row - 1]?
  let before ← slice? index.text start offset
  return ⟨row + 1, before.length⟩

/-- The position just behind the character at an offset, which is its 1-based column; at the end
of the text that of the end. -/
def locateChar? (index : PositionIndex) (offset : Nat) : Option Position := do
  let rest ← dropBytes? index.text offset
  index.locate? (offset + (rest.head?.map Char.utf8Size).getD 1)

end PositionIndex
end Markers

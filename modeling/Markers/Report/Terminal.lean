import Markers.Aggregation
import Markers.Path
import Markers.Text.Pad

/-!
# Terminal output

`counts` is a table of fixed width with a row per project and one for the total. Headers, rules and
the total are styled when the terminal shows colors.
-/

namespace Markers.Terminal
open Text

/-- How a piece of output stands out. -/
inductive Style where
  | header
  | total
  | muted
deriving DecidableEq, Repr

/-- The control sequences that begin a style. -/
def Style.start : Style → List Char
  | header => "\x1b[1m".toList
  | total => "\x1b[32m\x1b[1m".toList
  | muted => "\x1b[2m".toList

/-- A text in a style, if colors are shown. -/
def styled (color : Bool) (style : Style) (s : List Char) : List Char :=
  if color then style.start ++ s ++ "\x1b[0m".toList else s

/-- Width of the column of names. -/
def nameWidth : Nat := 40

/-- Width of the columns of numbers. -/
def cellWidth : Nat := 8

/-- A name of at most `width` characters; of a longer one only the end is shown, behind two dots. -/
def truncate (width : Nat) (name : List Char) : List Char :=
  if width < name.length then '.' :: '.' :: name.drop (name.length - (width - 2)) else name

/-- The header of the table. -/
def headerLine (kinds : List Kind) : List Char :=
  padEnd nameWidth "Project".toList ++ padStart cellWidth "Total".toList ++
    kinds.flatMap fun kind => padStart cellWidth kind.token

/-- The rule below the header and above the total. -/
def ruleLine (kinds : List Kind) : List Char :=
  List.replicate (nameWidth + cellWidth * (kinds.length + 1)) '-'

/-- The row of a count. -/
def countLine (kinds : List Kind) (count : ProjectCount) : List Char :=
  padEnd nameWidth (truncate (nameWidth - 2) count.name.toList) ++
    padStart cellWidth (decimal count.total) ++
    kinds.flatMap fun kind => padStart cellWidth (decimal (count.ofKeyword kind.render))

/-- The lines of the table of counts. -/
def countLines (aggregation : Aggregation) (color : Bool) : List (List Char) :=
  [styled color .header (headerLine aggregation.kinds),
    styled color .muted (ruleLine aggregation.kinds)] ++
  (aggregation.projects.map fun report => countLine aggregation.kinds report.count) ++
  [styled color .muted (ruleLine aggregation.kinds),
    styled color .total (countLine aggregation.kinds aggregation.total)]

/-- The table of counts. -/
def counts (aggregation : Aggregation) (color : Bool) : String :=
  String.ofList ((countLines aggregation color).flatMap (· ++ ['\n']))

end Markers.Terminal

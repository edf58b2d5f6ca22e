import Markers.Marker
import Markers.Path
import Markers.Scan.Pending
import Markers.Text.Pad

/-!
# Findings

A finding is a marker together with its file, and a `FileScan` holds those of one file. The
sort key of a finding pads its line and column, and `escapeCell` makes a text fit into one cell
of a Markdown table.
-/

namespace Markers

/-- A marker in a file. -/
structure Finding where
  text : String
  kind : Kind
  file : Path
  start : Position
  stop : Position
deriving DecidableEq, Repr

/-- The findings of a file, in the order of the file. -/
structure FileScan where
  path : Path
  findings : List Finding
deriving DecidableEq, Repr

namespace Finding
open Text

/-- A marker found in a file. -/
def ofMarker (file : Path) (m : Marker) : Finding :=
  ⟨m.text, m.kind, file, m.start, m.stop⟩

/-- Whether the span covers several lines. -/
def isMultiLine (a : Finding) : Bool :=
  a.start.line ≠ a.stop.line

/-- The file name, line and column, the numbers with at least six digits. -/
def sortKey (a : Finding) : String :=
  a.file.displayName ++ "_" ++ six a.start.line ++ ":" ++ six a.start.column
where
  /-- A number with at least six digits. -/
  six (n : Nat) : String := String.ofList (padStartWith '0' 6 (decimal n))

/-- The file name with the start, and with the end if that is on another line. -/
def location (a : Finding) : String :=
  a.file.displayName ++ " " ++ a.start.render ++
    (if a.isMultiLine then "-" ++ a.stop.render else "")

/-- A character inside a table cell. -/
def escapeCellChar (c : Char) : List Char :=
  if c = '|' then ['\\', '|'] else if c = '\n' then "<br />".toList else [c]

/-- A text inside a table cell: pipes are escaped and line feeds become tags. -/
def escapeCell (s : String) : String :=
  String.ofList (s.toList.flatMap escapeCellChar)

/-- The body as the text of a table cell. -/
def markdownText (a : Finding) : String :=
  escapeCell a.text

end Finding

namespace FileScan

/-- Number of findings. -/
def size (scan : FileScan) : Nat :=
  scan.findings.length

/-- Number of findings of a kind. -/
def countKind (scan : FileScan) (kind : Kind) : Nat :=
  scan.findings.countP fun a => a.kind = kind

end FileScan
end Markers

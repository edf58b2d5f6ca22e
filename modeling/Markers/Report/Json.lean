import Markers.Aggregation
import Markers.History

/-!
# Reports as JSON

An aggregation as JSON holds everything that the other reports are made of.
-/

namespace Markers

/-- A position as JSON. -/
def Position.toJson (p : Position) : Json :=
  .ofFields [("line", .natural p.line), ("column", .natural p.column)]

/-- A finding as JSON. -/
def Finding.toJson (a : Finding) : Json :=
  .ofFields [("text", .ofString a.text), ("kind", .ofString a.kind.render),
    ("file_path", .ofString a.file.text), ("start", a.start.toJson), ("end", a.stop.toJson)]

/-- The scan of a file as JSON. -/
def FileScan.toJson (scan : FileScan) : Json :=
  .ofFields [("path", .ofString scan.path.text),
    ("annotations", .array (scan.findings.map Finding.toJson))]

/-- The report on a project as JSON. -/
def ProjectReport.toJson (report : ProjectReport) : Json :=
  .ofFields [("count", report.count.toJson), ("anchor", .ofString report.anchor),
    ("files", .array (report.files.map FileScan.toJson))]

/-- An aggregation as JSON. -/
def Aggregation.toJson (aggregation : Aggregation) : Json :=
  .ofFields [("kinds", .array (aggregation.kinds.map fun kind => .ofString kind.render)),
    ("projects", .array (aggregation.projects.map ProjectReport.toJson)),
    ("total", aggregation.total.toJson)]

end Markers

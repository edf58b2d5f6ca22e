import Markers.Aggregation
import Markers.Link
import Markers.Plot
import Markers.Repository

/-!
# Markdown reports

A report lists links to the section of each project, shows the charts and a table of all counts, and
has a section per project with a row per finding. Rows link into the repository where it is
known; the URLs are defined at the end. `summaryTable` aligns its columns, `findingRow` is the
row of one finding.
-/

namespace Markers.Report
open Text

/-- What a report depends on besides the counts. -/
structure Options where
  /-- The repository that rows link into. -/
  repo : Option Repository
  /-- The folder of the charts, from the report's folder. -/
  chartFolder : String
  /-- Whether links follow the branch, and not the commit. -/
  onBranch : Bool
  /-- The canonical path of an existing file. -/
  canonical : Path → Option Path

/-- A line of text with its end. -/
def line (s : List Char) : List Char :=
  s ++ ['\n']

/-- The text that links to an image. -/
def chartLink (folder : String) (image : String) : List Char :=
  let folder := (folder.toList.reverse.dropWhile (· == '/')).reverse
  "![".toList ++ image.toList ++ "](".toList ++ folder ++ (if folder = [] then [] else ['/']) ++
    image.toList ++ ".png)".toList

/-! ## Summary -/

/-- The label of the last row of the summary. -/
def totalLabel : List Char :=
  "**Total**".toList

/-- The name of a project in a table. -/
def nameCell (report : ProjectReport) : List Char :=
  (Finding.escapeCell report.count.name).toList

/-- The width of the first column of the summary. -/
def nameWidth (aggregation : Aggregation) : Nat :=
  (aggregation.projects.map fun report => (nameCell report).length).foldl max
    (max totalLabel.length "Project".toList.length)

/-- The headers of the columns behind the first. -/
def countHeaders (kinds : List Kind) : List (List Char) :=
  "Total".toList :: kinds.map Kind.token

/-- A row of the summary: a label, and the total and the number of each kind under its header. -/
def summaryRow (width : Nat) (kinds : List Kind) (label : List Char) (count : ProjectCount) :
    List Char :=
  join " | ".toList <|
    padEnd width label :: padStart "Total".toList.length (decimal count.total) ::
      kinds.map fun kind => padStart kind.token.length (decimal (count.ofKeyword kind.render))

/-- The lines of the table of all counts. -/
def summaryLines (aggregation : Aggregation) : List (List Char) :=
  let width := nameWidth aggregation
  let headers := padEnd width "Project".toList :: countHeaders aggregation.kinds
  [join " | ".toList headers,
    join "-|-".toList (headers.map fun header => List.replicate header.length '-')] ++
  (aggregation.projects.map fun report =>
    summaryRow width aggregation.kinds (nameCell report) report.count) ++
  [summaryRow width aggregation.kinds totalLabel aggregation.total]

/-- The table of all counts. -/
def summaryTable (aggregation : Aggregation) : List Char :=
  (summaryLines aggregation).flatMap line

/-! ## Projects -/

/-- The width of the column of sources. -/
def sourceWidth : Nat := 50

/-- The width of the column of categories. -/
def categoryWidth : Nat := 10

/-- The header of a table of findings and the rule below it. -/
def tableHead : List Char :=
  line (padEnd sourceWidth "Source".toList ++ " | ".toList ++
    padEnd categoryWidth "Category".toList ++ " | Text".toList) ++
  line (List.replicate sourceWidth '-' ++ "-|-".toList ++ List.replicate categoryWidth '-' ++
    "-|-".toList ++ List.replicate 60 '-')

/-- The URL of a finding, if it has one. -/
def findingUrl? (options : Options) (a : Finding) : Option String :=
  options.repo.bind fun repo =>
    repo.sourceUrl? options.canonical a.file a.start a.stop options.onBranch

/-- The source cell of a finding: a link, or its location alone. -/
def sourceCell (options : Options) (links : LinkRegistry) (a : Finding) :
    LinkRegistry × String :=
  match findingUrl? options a with
  | some url => links.add a.location url
  | none => (links, a.location)

/-- The row of a finding with the given source cell. -/
def findingRow (source : String) (a : Finding) : List Char :=
  padEnd sourceWidth source.toList ++ " | ".toList ++ padEnd categoryWidth a.kind.token ++
    " | ".toList ++ a.markdownText.toList

/-- The rows of findings, with the links they add. -/
def findingRows (options : Options) (links : LinkRegistry) :
    List Finding → LinkRegistry × List Char
  | [] => (links, [])
  | a :: findings =>
    let (links, source) := sourceCell options links a
    let (links, rows) := findingRows options links findings
    (links, line (findingRow source a) ++ rows)

/-- The heading and the table of a project. -/
def projectSection (options : Options) (links : LinkRegistry) (report : ProjectReport) :
    LinkRegistry × List Char :=
  let (links, rows) := findingRows options links (report.files.flatMap FileScan.findings)
  (links, "\n### ".toList ++ nameCell report ++ "\n\n".toList ++ tableHead ++ rows)

/-- The sections of projects, with the links they add. -/
def sections (options : Options) (links : LinkRegistry) :
    List ProjectReport → LinkRegistry × List Char
  | [] => (links, [])
  | report :: reports =>
    let (links, first) := projectSection options links report
    let (links, rest) := sections options links reports
    (links, first ++ rest)

/-! ## Whole reports -/

/-- The link to the section of a project. -/
def bullet (report : ProjectReport) : List Char :=
  "- [".toList ++ nameCell report ++ "](#".toList ++ report.anchor.toList ++ [')']

/-- The report on an aggregation. -/
def render (aggregation : Aggregation) (options : Options) : String :=
  let (links, projects) := sections options .empty aggregation.projects
  String.ofList <|
    "# TO-DOs\n\n".toList ++ aggregation.projects.flatMap (fun report => line (bullet report)) ++
    "\n## Summary\n\n".toList ++
    [Plot.totalImage, Plot.projectImage, Plot.kindImage].flatMap (fun image =>
      line (chartLink options.chartFolder image)) ++
    ['\n'] ++ summaryTable aggregation ++ "\n## Projects\n".toList ++ projects ++
    "\n**********\n\n".toList ++ links.references.flatMap (fun definition =>
      line definition.toList) ++ ['\n']

end Markers.Report

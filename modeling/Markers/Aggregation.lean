import Markers.Project
import Markers.Session

/-!
# Aggregation

An aggregation groups the files of a session by the project that owns them and counts their
findings per kind. Every project has a report, and the files that none owns are in a last one.
-/

namespace Markers

/-- The numbers of findings of a project, in total and by the keyword of their kind. -/
structure ProjectCount where
  name : String
  total : Nat
  kinds : SortedMap String Nat
deriving DecidableEq, Repr

/-- What a report says about one project. -/
structure ProjectReport where
  count : ProjectCount
  anchor : String
  /-- The files by file name, each with its findings by sort key. -/
  files : List FileScan
deriving DecidableEq, Repr

/-- A session by projects. -/
structure Aggregation where
  /-- Every kind of the session, in order. -/
  kinds : List Kind
  /-- The projects by name, then the files of no project. -/
  projects : List ProjectReport
  /-- The sum over all projects. -/
  total : ProjectCount
deriving DecidableEq, Repr

/-- The name under which files of no project are reported. -/
def unassigned : String :=
  "unassigned"

namespace ProjectCount

/-- No findings of any of the given kinds. -/
def zero (name : String) (kinds : List Kind) : ProjectCount :=
  ⟨name, 0, .ofList (kinds.map fun kind => (kind.render, 0))⟩

/-- The numbers by keyword with `n` more under one. -/
def addKind (kinds : SortedMap String Nat) (keyword : String) (n : Nat) : SortedMap String Nat :=
  kinds.alter keyword fun old => old.getD 0 + n

/-- The count with one more finding. -/
def addFinding (count : ProjectCount) (a : Finding) : ProjectCount :=
  { count with total := count.total + 1, kinds := addKind count.kinds a.kind.render 1 }

/-- The count with the findings of a file. -/
def addFile (count : ProjectCount) (scan : FileScan) : ProjectCount :=
  scan.findings.foldl addFinding count

/-- The count with another one added to it. -/
def absorb (count other : ProjectCount) : ProjectCount :=
  { count with
    total := count.total + other.total
    kinds := other.kinds.entries.foldl (fun kinds entry => addKind kinds entry.1 entry.2) count.kinds }

/-- The number under a keyword, zero when there is none. -/
def ofKeyword (count : ProjectCount) (keyword : String) : Nat :=
  (count.kinds.get? keyword).getD 0

end ProjectCount

namespace ProjectReport

/-- The order of files in a report: by file name, then by path. -/
def compareFiles : FileScan → FileScan → Ordering :=
  compareLex (compareOn (·.path.displayName)) (compareOn FileScan.path)

/-- A file with its findings by sort key. -/
def sortFindings (scan : FileScan) : FileScan :=
  { scan with
    findings := scan.findings.mergeSort fun a b => (compare a.sortKey b.sortKey).isLE }

/-- The report on the files of a project. -/
def build (name : String) (kinds : List Kind) (scans : List FileScan) : ProjectReport :=
  let files := scans.mergeSort fun a b => (compareFiles a b).isLE
  { count := files.foldl ProjectCount.addFile (.zero name kinds)
    anchor := Text.anchor name
    files := files.map sortFindings }

end ProjectReport

namespace Aggregation

/-- The name under which a file is reported. -/
def ownerName (map : ProjectMap) (scan : FileScan) : String :=
  ((map.ownerOf? scan.path).map Project.name).getD unassigned

/-- The names of all reports: those of the projects in order, and the name for files of none. -/
def reportNames (map : ProjectMap) : List String :=
  (SortedSet.ofList map.names).members.filter (· ≠ unassigned) ++ [unassigned]

/-- The aggregation of a session. -/
def build (session : Session) (map : ProjectMap) : Aggregation :=
  let projects := (reportNames map).map fun name =>
    ProjectReport.build name session.kinds.members (session.scans.filter (ownerName map · == name))
  { kinds := session.kinds.members
    projects
    total := (projects.map ProjectReport.count).foldl ProjectCount.absorb
      (.zero "Total" session.kinds.members) }

/-- The counts of all projects, the total left out. -/
def snapshot (aggregation : Aggregation) : List ProjectCount :=
  aggregation.projects.map ProjectReport.count

/-- The report with a name. -/
def project? (aggregation : Aggregation) (name : String) : Option ProjectReport :=
  aggregation.projects.find? (·.count.name == name)

end Aggregation
end Markers

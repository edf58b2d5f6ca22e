import Markers.Filter
import Markers.Project
import Markers.Repository

/-!
# Settings of a run

The settings name the folder that a run scans, the files that it writes, and what it says about the
repository. The report lies in the output folder, the history in a folder for metadata below it, and
the plots in a folder for charts.
-/

namespace Markers

/-- What is said about the repository, in place of what is found out. -/
structure Overrides where
  slug : Option String
  commit : Option String
  branch : Option String
deriving DecidableEq, Repr

namespace Overrides

/-- Nothing is said. -/
def none : Overrides :=
  ⟨.none, .none, .none⟩

/-- Whether nothing is said. -/
def isEmpty (overrides : Overrides) : Bool :=
  overrides.slug.isNone && overrides.commit.isNone && overrides.branch.isNone

/-- The repository with what is said about it. -/
def apply (overrides : Overrides) (repo : Repository) : Repository :=
  { repo with
    slug := overrides.slug.or repo.slug
    commit := overrides.commit.or repo.commit
    branch := overrides.branch.or repo.branch }

end Overrides

/-- What a run depends on besides the file system. -/
structure Settings where
  /-- The folder to scan. -/
  source : Path
  /-- The folder that holds all that is written. -/
  output : Path
  historyName : String
  reportName : String
  /-- Patterns for the file names of manifests; when there are none, the usual one. -/
  manifestPatterns : List String
  overrides : Overrides
  /-- Whether links follow the branch, and not the commit. -/
  onBranch : Bool
  filter : Filter
  /-- Whether files may be scanned at the same time, which no result depends on. -/
  parallel : Bool
  /-- Whether the counts are added to the history. -/
  record : Bool
  /-- When the counts were taken, if it is not now. -/
  timestamp : Option String
deriving DecidableEq, Repr

namespace Settings

/-- The output folder when none is given. -/
def outputName : String :=
  "output"

/-- Scan one folder and write into another one. -/
def ofFolders (source output : Path) : Settings where
  source
  output
  historyName := "todo_history.json"
  reportName := "TO-DO.md"
  manifestPatterns := []
  overrides := .none
  onBranch := true
  filter := .all
  parallel := true
  record := true
  timestamp := none

/-- Scan the current folder and write into the output folder beside it. -/
def default : Settings :=
  ofFolders ⟨"."⟩ ⟨outputName⟩

/-- Scan a folder and write into the output folder in it. -/
def ofSource (source : Path) : Settings :=
  ofFolders source (source.join ⟨outputName⟩)

/-- The folder of the history. -/
def metadataFolder (settings : Settings) : Path :=
  settings.output.join ⟨"metadata"⟩

/-- The folder of the charts. -/
def chartFolder (settings : Settings) : Path :=
  settings.output.join ⟨"charts"⟩

/-- The file of the report. -/
def reportPath (settings : Settings) : Path :=
  settings.output.join ⟨settings.reportName⟩

/-- The file of the history. -/
def historyPath (settings : Settings) : Path :=
  settings.metadataFolder.join ⟨settings.historyName⟩

/-- The file of the plots. -/
def plotsPath (settings : Settings) : Path :=
  settings.chartFolder.join ⟨"todo_plots.json"⟩

/-- Every file that a run writes. -/
def artifacts (settings : Settings) : List Path :=
  [settings.reportPath, settings.historyPath, settings.plotsPath]

/-- The folder of the charts as the report refers to it. -/
def chartLink (settings : Settings) : String :=
  Component.join <|
    (settings.chartFolder.below? settings.output).getD settings.chartFolder.components

end Settings
end Markers

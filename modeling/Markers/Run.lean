import Markers.Discovery
import Markers.Git
import Markers.HistoryFile
import Markers.Plot
import Markers.Report.Markdown
import Markers.Settings

/-!
# Runs

A run scans the source folder, writes the report on it, adds the counts to the history and writes
the plots of that history. The files of earlier runs are not scanned: `scanSource` leaves out
exactly the artifacts, even when the output folder is the source folder itself.
-/

namespace Markers

/-- What a run produced. -/
structure Outcome where
  aggregation : Aggregation
  /-- Number of files scanned, with or without findings. -/
  filesScanned : Nat
  repo : Option Repository
  /-- The timestamp of the snapshot, if one was recorded. -/
  timestamp : Option String
  /-- Number of snapshots in the history. -/
  historySize : Nat
  reportPath : Path
  historyPath : Path
  plotsPath : Path
deriving DecidableEq, Repr

namespace FileSystem

/-- The canonical path of a folder that must exist. -/
def sourceFolder (fs : FileSystem) (source : Path) : Except Failure Path :=
  if fs.exists? source then (fs.canonical source).mapError Failure.io
  else .error (.pathNotFound source)

/-- The patterns that match exactly the artifacts below the source folder, if the output folder
exists there. -/
def artifactPatterns (fs : FileSystem) (settings : Settings) (source : Path) : List String :=
  match fs.canonical settings.output with
  | .ok output =>
    if output.startsWith source then
      (Settings.artifacts { settings with output }).map fun path => Glob.escape path.text
    else []
  | .error _ => []

/-- The session of the files below the source folder, without those that a run writes. -/
def scanSource (fs : FileSystem) (settings : Settings) (source : Path) :
    Except Failure Session := do
  let unwanted ← (fs.artifactPatterns settings source).mapM Glob.ofPattern
  fs.scanFolder source { settings.filter with unwanted := settings.filter.unwanted ++ unwanted }

/-- The repository of the source folder, with what the settings say about it. Where there is none,
what they say is enough for one at the source folder. -/
def describeRepository (fs : FileSystem) (settings : Settings) (source : Path) :
    Option Repository :=
  match fs.findRepository source with
  | .ok repo => some (settings.overrides.apply repo)
  | .error _ =>
    if settings.overrides.isEmpty then none
    else some (settings.overrides.apply ⟨source, none, none, none⟩)

/-- The plots of the recorded history. -/
def loadPlots (fs : FileSystem) (settings : Settings) : Except Failure (List Plot) := do
  Plot.todoPlots (← fs.loadHistory settings.historyPath)

/-- The report on an aggregation of the source folder. -/
def renderReport (fs : FileSystem) (settings : Settings) (repo : Option Repository)
    (aggregation : Aggregation) : String :=
  Report.render aggregation {
    repo
    chartFolder := settings.chartLink
    onBranch := settings.onBranch
    canonical := fun path => (fs.canonical path).toOption }

end FileSystem

namespace Settings
open FileAction

/-- The history after a run: with the snapshot of an aggregation, if the run records one. -/
def updateHistory (settings : Settings) (now : String) (aggregation : Aggregation) :
    FileAction Failure (History × Option String) := do
  if settings.record then
    let timestamp := settings.timestamp.getD now
    let history ← appendSnapshot settings.historyPath timestamp aggregation.snapshot
    return (history, some timestamp)
  else
    let history ← ask fun fs => fs.loadHistory settings.historyPath
    return (history, none)

/-- What a run takes from the file system before it writes. -/
def survey (settings : Settings) (fs : FileSystem) :
    Except Failure (Session × Aggregation × Option Repository) := do
  let source ← fs.sourceFolder settings.source
  let session ← fs.scanSource settings source
  let projects ← ProjectMap.discover fs source settings.manifestPatterns
  return (session, Aggregation.build session projects, fs.describeRepository settings source)

/-- Scan the source folder, and write the report, the history and the plots. -/
def run (settings : Settings) (now : String) : FileAction Failure Outcome := do
  let (session, aggregation, repo) ← ask settings.survey
  let report ← ask fun fs => pure (fs.renderReport settings repo aggregation)
  writeFile settings.reportPath report.toList
  let (history, timestamp) ← settings.updateHistory now aggregation
  let plots ← ask fun _ => Plot.todoPlots history
  writeFile settings.plotsPath (Plot.listToJson plots).pretty.toList
  return {
    aggregation
    filesScanned := session.fileCount
    repo
    timestamp
    historySize := history.size
    reportPath := settings.reportPath
    historyPath := settings.historyPath
    plotsPath := settings.plotsPath }

end Settings
end Markers

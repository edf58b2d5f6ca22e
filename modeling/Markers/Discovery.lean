import Markers.FileSystem
import Markers.Filter
import Markers.Project
import Markers.Session

/-!
# Discovery

`walk` lists the files below a path that a test keeps, in path order. Folders below the start whose
names begin with a dot, or that hold build results, are not entered; neither the start itself nor
the names of files are looked at for this. `scanFolder` scans what a filter keeps, one file after the
other; `ScansFolderTogether` says what scanning the files at the same time may give.
`ProjectMap.discover` finds the manifests of projects.
-/

namespace Markers

/-- Whether a folder is left out. Its name is Unicode text, as all names of a `FileSystem` are. -/
def isSkipped (name : String) : Bool :=
  name.startsWith '.' || ["target", "bin", "obj"].contains name

mutual

/-- The paths of the files of a node. -/
def Node.walk (path : Path) : Node → List Path
  | .file _ => [path]
  | .folder entries => Node.walkEntries path entries

/-- The paths of the files of the entries of a folder, without skipped folders. -/
def Node.walkEntries (path : Path) : List (String × Node) → List Path
  | [] => []
  | (name, node) :: entries =>
    (if node.isFolder && isSkipped name then [] else node.walk (path.join ⟨name⟩)) ++
      Node.walkEntries path entries

end

namespace FileSystem

/-- The files below a path for which a test holds, in path order; a file is taken alone. -/
def walk (fs : FileSystem) (start : Path) (keep : Path → Bool) : Except Failure (List Path) :=
  match fs.find start with
  | .error _ => .error (.pathNotFound start)
  | .ok node => .ok <| ((node.walk start).filter keep).mergeSort fun a b => (compare a b).isLE

/-- The files below a path that a filter keeps. -/
def discover (fs : FileSystem) (start : Path) (filter : Filter) : Except Failure (List Path) :=
  fs.walk start filter.accepts

/-- The findings of a file. The path decides on the family before anything is read. -/
def scanFile (fs : FileSystem) (path : Path) : Except Failure FileScan := do
  if (Family.ofPath? path).isNone then
    throw (.unsupportedFileType (Family.withoutDot (Family.keyOf path)))
  let bytes ← (fs.readBytes path).mapError (Failure.fileRead path)
  scanText path (String.ofList (Text.decodeLossy bytes))

/-- The session of the files below a path that a filter keeps. The first file that fails decides. -/
def scanFolder (fs : FileSystem) (start : Path) (filter : Filter) : Except Failure Session := do
  let paths ← fs.discover start filter
  let scans ← paths.mapM fs.scanFile
  return Session.ofScans scans

/-- What scanning files at the same time may give: all scans in the order of the files, or the failure
of any one that fails. Which of several failures it is depends on who comes first. -/
inductive ScansTogether (fs : FileSystem) (paths : List Path) :
    Except Failure (List FileScan) → Prop where
  | all {scans : List FileScan} : paths.mapM fs.scanFile = .ok scans →
    ScansTogether fs paths (.ok scans)
  | one {path : Path} {failure : Failure} : path ∈ paths → fs.scanFile path = .error failure →
    ScansTogether fs paths (.error failure)

/-- What `scanFolder` may give when the files are scanned at the same time. -/
inductive ScansFolderTogether (fs : FileSystem) (start : Path) (filter : Filter) :
    Except Failure Session → Prop where
  | undiscovered {failure : Failure} : fs.discover start filter = .error failure →
    ScansFolderTogether fs start filter (.error failure)
  | discovered {paths : List Path} {answer : Except Failure (List FileScan)} :
    fs.discover start filter = .ok paths → fs.ScansTogether paths answer →
    ScansFolderTogether fs start filter (answer.map Session.ofScans)

end FileSystem

namespace ProjectMap

/-- The pattern for manifests when none is given. -/
def defaultPattern : String :=
  "*.csproj"

/-- The projects below a path whose manifests have a file name that matches some pattern. -/
def discover (fs : FileSystem) (start : Path) (patterns : List String) :
    Except Failure ProjectMap := do
  let globs ← (if patterns = [] then [defaultPattern] else patterns).mapM Glob.ofPattern
  let manifests ← fs.walk start fun path =>
    match path.fileName? with
    | some name => globs.any (·.accepts name)
    | none => false
  return ofList (manifests.map Project.ofManifest)

end ProjectMap
end Markers

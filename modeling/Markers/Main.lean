import Markers.CommandLine
import Markers.Timestamp.Render
import Std.Time.DateTime.Timestamp

/-!
# The program

The program takes the part of the disk that a request reaches into a file system, carries the
request out on it, and writes back the files that have changed.
-/

namespace Markers.Program
open CommandLine

/-- A file or folder of the disk, without the folders that are left out. Links are left out, too. -/
partial def load? (leftOut : String → Bool) (path : String) : IO (Option Node) := do
  let place := (← IO.currentDir) / path
  if !(← place.pathExists) then return none
  match (← place.symlinkMetadata).type with
  | .file => return some (.file (← IO.FS.readBinFile place).toList)
  | .dir =>
    let mut entries := []
    for entry in ← place.readDir do
      if leftOut entry.fileName && (← entry.path.isDir) then continue
      if let some node ← load? leftOut (path ++ "/" ++ entry.fileName) then
        entries := (entry.fileName, node) :: entries
    return some (.folder entries)
  | _ => return none

/-- The names that a path leads to from the root. -/
def namesOf (current : List String) (path : Path) : List String :=
  path.segments.foldl (fun names segment =>
    if segment = "" ∨ segment = "." then names
    else if segment = ".." then names.dropLast
    else names ++ [segment]) (if path.isAbsolute then [] else current)

/-- Add what lies on the disk under some names, unless it is there already. -/
def fetch (leftOut : String → Bool) (fs : FileSystem) (names : List String) : IO FileSystem := do
  if (fs.node? names).isSome then return fs
  match ← load? leftOut (Path.ofNames names).text with
  | some node => return { fs with root := fs.root.put node names }
  | none => return fs

/-- Add a folder, without what it holds, and the repository in it. -/
def fetchFolder (fs : FileSystem) (names : List String) : IO FileSystem := do
  if !(← ((← IO.currentDir) / (Path.ofNames names).text).isDir) then return fs
  let fs :=
    if (fs.node? names).isSome then fs else { fs with root := fs.root.put (.folder []) names }
  fetch (· == "pack") fs (names ++ [".git"])

/-- The part of the disk that a request reaches. -/
def snapshot (current : List String) (reach : Reach) : IO FileSystem := do
  let mut fs : FileSystem := ⟨.folder [], current⟩
  if let some source := reach.source then
    let names := namesOf current source
    fs ← fetch isSkipped fs names
    for n in List.range (names.length + 1) do
      fs ← fetchFolder fs (names.take n)
  for n in List.range (current.length + 1) do
    fs ← fetchFolder fs (current.take n)
  for file in reach.files do
    let names := namesOf current file
    for n in List.range names.length do
      fs ← fetchFolder fs (names.take n)
    fs ← fetch (fun _ => true) fs names
  return fs

/-- Write the files that have changed. -/
def store (files : List Path) (old new : FileSystem) : IO Unit := do
  for file in files do
    match old.readBytes file, new.readBytes file with
    | .ok before, .ok after =>
      if before ≠ after then write file after
    | .error _, .ok after => write file after
    | _, .error _ => pure ()
where
  /-- Write a file on the disk. -/
  write (file : Path) (bytes : List UInt8) : IO Unit := do
    if let some folder := file.parent? then
      if folder.text ≠ "" then IO.FS.createDirAll folder.text
    IO.FS.writeBinFile file.text ⟨bytes.toArray⟩

/-- The variables that arguments may be taken from. -/
def environment : IO Environment := do
  let names := ["INPUT_SOURCE_SCAN_DIR", "INPUT_OUTPUT_DIR", "GITHUB_REPOSITORY", "GITHUB_SHA",
    "GITHUB_REF_NAME", "CLICOLOR", "CLICOLOR_FORCE"]
  names.filterMapM fun name => return (← IO.getEnv name).map fun value => (name, value)

/-- The time, as a timestamp. -/
def now : IO String := do
  let nanos := (← Std.Time.Timestamp.now).toNanosecondsSinceUnixEpoch.val.toNat
  return Instant.render (nanos / 1000000000) (nanos % 1000000000)

/-- The names of the current folder from the root. -/
def currentNames : IO (List String) := do
  let here : Path := ⟨(← IO.currentDir).toString⟩
  return here.components.filterMap fun
    | .name text => some text
    | _ => none

/-- Carry out what arguments ask for, and return the exit code. -/
def run (args : List String) : IO UInt32 := do
  let env ← environment
  let reach := match Request.parse env args with
    | .ok request => request.reach
    | .error _ => ⟨none, []⟩
  let old ← snapshot (← currentNames) reach
  let (response, new) := respond env args (← (← IO.getStdout).isTty) (← now) old
  store reach.files old new
  IO.print response.out
  IO.eprint response.err
  return response.code.toUInt32

end Markers.Program

/-- The program. -/
def main (args : List String) : IO UInt32 :=
  Markers.Program.run args

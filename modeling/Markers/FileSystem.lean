import Markers.Failure
import Markers.Text.Utf8

/-!
# File systems

A file system is a tree of folders and files, without links, together with the current folder.
`resolve` finds the names that lead from the root to what a path stands for; every operation on a
path goes through it. Faults are those of the path that the operation was asked for.

Names are Unicode text, as the text of a `Path` is; names that are no UTF-8 are left out.
-/

namespace Markers

/-- A file with its bytes, or a folder with its entries. -/
inductive Node where
  | file (bytes : List UInt8)
  | folder (entries : List (String × Node))
deriving Repr, Inhabited

/-- A tree of files and the names of the current folder, from the root. -/
structure FileSystem where
  root : Node
  current : List String
deriving Repr

namespace Node

/-- Whether a node is a folder. -/
def isFolder : Node → Bool
  | folder _ => true
  | file _ => false

/-- The entries of a folder. -/
def entries : Node → List (String × Node)
  | folder entries => entries
  | file _ => []

/-- The entry of a folder with a name. -/
def child? (node : Node) (name : String) : Option Node :=
  (node.entries.find? (·.1 == name)).map (·.2)

/-- Entries with a node under a name, in place of the one that was there. -/
def setEntry (name : String) (new : Node) (entries : List (String × Node)) :
    List (String × Node) :=
  if entries.any (·.1 == name) then
    entries.map fun entry => if entry.1 == name then (name, new) else entry
  else entries ++ [(name, new)]

/-- The node that names lead to. -/
def descend? (node : Node) : List String → Option Node
  | [] => some node
  | name :: names => (node.child? name).bind fun child => child.descend? names

/-- The node with another one where the names lead to, creating folders on the way. -/
def put (node new : Node) : List String → Node
  | [] => new
  | name :: names =>
    match node with
    | file bytes => file bytes
    | folder entries =>
      folder (setEntry name (((node.child? name).getD (folder [])).put new names) entries)

end Node

/-- The parts between the slashes of a path's text. -/
def Path.segments (p : Path) : List String :=
  (p.text.toList.splitOn '/').map String.ofList

/-- The absolute path of names from the root. -/
def Path.ofNames (names : List String) : Path :=
  ⟨"/" ++ "/".intercalate names⟩

namespace FileSystem

/-- The node that names lead to from the root. -/
def node? (fs : FileSystem) (names : List String) : Option Node :=
  fs.root.descend? names

/-- Go from a folder to what a segment of a path stands for there. -/
def enter (fs : FileSystem) (names : List String) (segment : String) :
    Except FileFault (List String) :=
  match fs.node? names with
  | none => .error .notFound
  | some (.file _) => .error .notDirectory
  | some (.folder _) =>
    if segment = "" ∨ segment = "." then .ok names
    else if segment = ".." then .ok names.dropLast
    else .ok (names ++ [segment])

/-- The names that segments lead to from where a path starts; the last need not exist. -/
def follow (fs : FileSystem) (p : Path) (segments : List String) :
    Except FileFault (List String) :=
  segments.foldlM fs.enter (if p.isAbsolute then [] else fs.current)

/-- The names from the root to what a path stands for. -/
def resolve (fs : FileSystem) (p : Path) : Except FileFault (List String) := do
  if p.text = "" then throw .notFound
  let names ← fs.follow p p.segments
  if (fs.node? names).isNone then throw .notFound
  return names

/-- What a path stands for. -/
def find (fs : FileSystem) (p : Path) : Except FileFault Node := do
  let names ← fs.resolve p
  match fs.node? names with
  | some node => return node
  | none => throw .notFound

/-- Whether a path stands for anything. -/
def exists? (fs : FileSystem) (p : Path) : Bool :=
  (fs.find p).isOk

/-- Whether a path stands for a folder. -/
def isFolder (fs : FileSystem) (p : Path) : Bool :=
  match fs.find p with
  | .ok node => node.isFolder
  | .error _ => false

/-- The absolute path without `.` and `..` of what a path stands for. -/
def canonical (fs : FileSystem) (p : Path) : Except FileFault Path :=
  (fs.resolve p).map Path.ofNames

/-- The bytes of a file. -/
def readBytes (fs : FileSystem) (p : Path) : Except FileFault (List UInt8) := do
  match ← fs.find p with
  | .file bytes => return bytes
  | .folder _ => throw .isDirectory

/-- The text of a file. -/
def readText (fs : FileSystem) (p : Path) : Except FileFault (List Char) := do
  match Text.decode? (← fs.readBytes p) with
  | some text => return text
  | none => throw .invalidData

/-- A path without the slashes at its end. -/
def withoutSlashes (p : Path) : Path :=
  ⟨String.ofList (p.text.toList.reverse.dropWhile (· == '/')).reverse⟩

/-- Where something new would lie: the names of its folder, which must exist, and its own. Slashes
at the end do not count. -/
def place (fs : FileSystem) (p : Path) : Except FileFault (List String × String) := do
  if p.text = "" then throw .notFound
  let segments := (withoutSlashes p).segments
  let names ← fs.follow p segments.dropLast
  match fs.node? names, segments.getLast? with
  | none, _ => throw .notFound
  | some (.file _), _ => throw .notDirectory
  | some (.folder _), some name =>
    if name = "" ∨ name = "." ∨ name = ".." then throw .isDirectory
    return (names, name)
  | some (.folder _), none => throw .isDirectory

/-- Write a file, in place of the one that was there. A path with a slash at its end stands for no
file. -/
def writeBytes (fs : FileSystem) (p : Path) (bytes : List UInt8) :
    Except FileFault FileSystem := do
  let (names, name) ← fs.place p
  if p.text.endsWith '/' then throw .isDirectory
  match fs.node? (names ++ [name]) with
  | some (.folder _) => throw .isDirectory
  | _ => return { fs with root := fs.root.put (.file bytes) (names ++ [name]) }

/-- Create a folder in a folder that exists. -/
def makeFolder (fs : FileSystem) (p : Path) : Except FileFault FileSystem := do
  if fs.exists? p then throw .alreadyExists
  let (names, name) ← fs.place p
  match fs.node? (names ++ [name]) with
  | some _ => throw .alreadyExists
  | none => return { fs with root := fs.root.put (.folder []) (names ++ [name]) }

end FileSystem

/-! ## Between runs

No run of the program removes a file or lists all that there are. This part is for tests, which change
a file system between two runs and look at what a run left. -/

namespace Node

/-- The node without what the names lead to. -/
def remove (node : Node) : List String → Node
  | [] => node
  | [name] =>
    match node with
    | file bytes => file bytes
    | folder entries => folder (entries.filter (·.1 != name))
  | name :: names =>
    match node with
    | file bytes => file bytes
    | folder entries =>
      folder (entries.map fun entry =>
        if entry.1 == name then (name, entry.2.remove names) else entry)

end Node

namespace FileSystem

/-- The file system without what a path stands for. -/
def removePath (fs : FileSystem) (p : Path) : FileSystem :=
  match fs.resolve p with
  | .ok names => { fs with root := fs.root.remove names }
  | .error _ => fs

mutual

/-- Every file of a node, with the path that leads to it. -/
def filesOf (path : String) : Node → List (String × List UInt8)
  | .file bytes => [(path, bytes)]
  | .folder entries => filesOfEntries path entries

/-- Every file of the entries of a folder. -/
def filesOfEntries (path : String) : List (String × Node) → List (String × List UInt8)
  | [] => []
  | (name, node) :: entries =>
    filesOf (if path = "" then name else path ++ "/" ++ name) node ++ filesOfEntries path entries

end

/-- The paths of all files below the current folder, in order. -/
def listFiles (fs : FileSystem) : List String :=
  let files := match fs.node? fs.current with
    | some node => filesOf "" node
    | none => []
  (files.map (·.1)).mergeSort fun a b => (compare a b).isLE

end FileSystem
end Markers

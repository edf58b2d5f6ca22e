import Markers.FileSystem
import Markers.Git.Inflate
import Markers.Sum
import Markers.Text.Part

/-!
# References and objects

A reference names another one or an object. `find?` looks it up among the loose references of a
repository and then among the packed ones, and `peel?` follows references and tags down to an
object that is no tag.
-/

namespace Markers.Git

/-- What a reference stands for. -/
inductive Target where
  | symbolic (name : String)
  | object (id : String)
deriving DecidableEq, Repr

/-- The bytes of a file below a folder. -/
def fileBytes? (folder : Node) (names : List String) : Option (List UInt8) :=
  match folder.descend? names with
  | some (.file bytes) => some bytes
  | _ => none

/-- Whether names lead to a folder below a folder. -/
def hasFolder (folder : Node) (names : List String) : Bool :=
  match folder.descend? names with
  | some node => node.isFolder
  | none => false

/-- The segments between the slashes of a reference's name. -/
def nameSegments (name : String) : List String :=
  (name.toList.splitOn '/').map String.ofList

/-- Whether a segment may stand in the name of a reference. -/
def isValidSegment (segment : List Char) : Bool :=
  segment ≠ [] && segment.head? ≠ some '.' && !".lock".toList.isSuffixOf segment &&
    segment.all fun c => decide (32 < c.toNat) && c.toNat ≠ 127 && !"~^:?*[\\".toList.contains c

/-- Whether a text may name a reference: several segments, or one in capitals. -/
def isValidName (name : List Char) : Bool :=
  let segments := name.splitOn '/'
  segments.all isValidSegment && name.getLast? ≠ some '.' &&
    !Text.contains ['.', '.'] name && !Text.contains ['@', '\x7b'] name &&
    (decide (1 < segments.length) || name.all fun c => c.isUpper || c == '_')

/-- Whether a character is a digit of an object's id. -/
def isIdChar (c : Char) : Bool :=
  c.isDigit || (decide ('a' ≤ c) && decide (c ≤ 'f'))

/-- The id at the start of a text. -/
def id? (s : List Char) : Option String :=
  if (s.take 40).length = 40 && (s.take 40).all isIdChar then some (String.ofList (s.take 40))
  else none

/-- The target that the file of a loose reference gives. -/
def looseTarget? (bytes : List UInt8) : Option Target :=
  let s := Text.decodeLossy bytes
  match "ref: ".toList.isPrefixOf? s with
  | some rest =>
    let name := (rest.dropWhile (· == ' ')).takeWhile fun c => c ≠ '\n' && c ≠ '\r'
    if isValidName name then some (.symbolic (String.ofList name)) else none
  | none => (id? s).map .object

/-- A packed reference. -/
structure Packed where
  name : String
  id : String
  /-- What the tag that the reference stands for stands for. -/
  peeled : Option String
deriving DecidableEq, Repr

/-- The references of the lines of a packed file, the last line first. -/
def packedLine (refs : List Packed) (line : List Char) : List Packed :=
  match line, refs with
  | '#' :: _, refs => refs
  | '^' :: s, last :: refs => { last with peeled := id? s } :: refs
  | s, refs =>
    match id? s, s.drop 40 with
    | some id, ' ' :: name =>
      ⟨String.ofList (name.takeWhile (· ≠ '\r')), id, none⟩ :: refs
    | _, _ => refs

/-- The packed references of a repository. -/
def packedRefs (folder : Node) : List Packed :=
  match fileBytes? folder ["packed-refs"] with
  | some bytes => ((Text.decodeLossy bytes).splitOn '\n').foldl packedLine []
  | none => []

/-- What a look-up of a reference gives. -/
inductive Lookup where
  | missing
  | invalid
  | found (target : Target) (peeled : Option String)
deriving DecidableEq, Repr

/-- Look a reference up. -/
def lookup (folder : Node) (name : String) : Lookup :=
  match fileBytes? folder (nameSegments name) with
  | some bytes =>
    match looseTarget? bytes with
    | some target => .found target none
    | none => .invalid
  | none =>
    match (packedRefs folder).find? (·.name == name) with
    | some ref => .found (.object ref.id) ref.peeled
    | none => .missing

/-! ## Objects -/

/-- The kind of an object and its data. -/
def object? (folder : Node) (id : String) : Option (List Char × List Char) := do
  let chars := id.toList
  let bytes ← fileBytes? folder
    ["objects", String.ofList (chars.take 2), String.ofList (chars.drop 2)]
  let data ← inflate? bytes
  let kind := Text.decodeLossy (data.takeWhile (· ≠ 32))
  let rest := (data.dropWhile (· ≠ 32)).dropWhile (· ≠ 0)
  if ["commit", "tree", "blob", "tag"].contains (String.ofList kind) && !rest.isEmpty then
    return (kind, Text.decodeLossy (rest.drop 1))
  else none

/-- Number of loose objects. -/
def objectCount (folder : Node) : Nat :=
  match folder.descend? ["objects"] with
  | some objects => sum (objects.entries.map fun entry => entry.2.entries.length)
  | none => 0

/-- The first object behind a chain of at most `tags` tags. -/
def peelObject? (folder : Node) : Nat → String → Option String
  | 0, _ => none
  | tags + 1, id => do
    let (kind, data) ← object? folder id
    if kind = "tag".toList then
      let rest ← "object ".toList.isPrefixOf? data
      let target ← id? rest
      peelObject? folder tags target
    else return id

/-- The object that a target stands for, behind at most `links` references. -/
def peel? (folder : Node) : Nat → Target → Option String
  | _, .object id => peelObject? folder (objectCount folder) id
  | 0, .symbolic _ => none
  | links + 1, .symbolic name =>
    match lookup folder name with
    | .found _ (some peeled) => some peeled
    | .found target none => peel? folder links target
    | _ => none

end Markers.Git

/-!
# Paths

A path is the text a user wrote. Its `components` are what it names: empty and `.` parts between
slashes mean nothing, except a `.` that the path starts with. Paths are compared component by
component, while their text stays as written, so `parent?` and `join` work on the parts of the
text.

Paths are Unicode text only. A path whose bytes are no UTF-8 has no place here, and what is proved of
file systems, walks and filters says nothing of it: the program takes the name of such a folder for
an empty one when it decides what to enter, and matches patterns against a text in which replacement
characters stand for the bytes that are none.
-/

namespace Markers

/-- A part of a path that names something. -/
inductive Component where
  | root
  | here
  | up
  | name (text : String)
deriving DecidableEq, Repr

namespace Component

/-- Root first, then `.`, then `..`, then names. -/
def rank : Component → Nat
  | root => 0
  | here => 1
  | up => 2
  | name _ => 3

/-- The text of a name, nothing for the other components. -/
def nameText : Component → String
  | name text => text
  | _ => ""

/-- The text of a component in a path. -/
def text : Component → String
  | root => "/"
  | here => "."
  | up => ".."
  | name text => text

/-- Components with slashes between them. -/
def join (components : List Component) : String :=
  "/".intercalate (components.map text)

/-- By rank; names by their text. -/
instance : Ord Component where
  compare := compareLex (compareOn rank) (compareOn nameText)

instance : Std.TransOrd Component :=
  inferInstanceAs (Std.TransCmp (compareLex (compareOn rank) (compareOn nameText)))

end Component

/-- A path as written. -/
structure Path where
  text : String
deriving DecidableEq, Repr, Inhabited

/-- A part of a path's text, with the component it stands for if it stands for one. -/
structure PathPart where
  text : String
  component? : Option Component
deriving DecidableEq, Repr

namespace PathPart

/-- The part at the start of a path: nothing before a slash is the root, and a dot is kept. -/
def first (text : String) : PathPart :=
  ⟨text, some <|
    if text = "" then .root
    else if text = "." then .here
    else if text = ".." then .up
    else .name text⟩

/-- A part behind a slash. -/
def later (text : String) : PathPart :=
  ⟨text,
    if text = "" ∨ text = "." then none
    else if text = ".." then some .up
    else some (.name text)⟩

/-- Whether the part stands for no component. -/
def isEmpty (part : PathPart) : Bool :=
  part.component?.isNone

end PathPart

namespace Path

/-- The parts between the slashes of a path; the empty path has none. -/
def parts (p : Path) : List PathPart :=
  if p.text = "" then []
  else
    match (p.text.toList.splitOn '/').map String.ofList with
    | [] => []
    | first :: more => PathPart.first first :: more.map PathPart.later

/-- What the path names, from the outermost component to the innermost. -/
def components (p : Path) : List Component :=
  p.parts.filterMap PathPart.component?

/-- The path with the given parts. A root alone is a slash. -/
def ofParts : List PathPart → Path
  | [⟨"", _⟩] => ⟨"/"⟩
  | parts => ⟨"/".intercalate (parts.map PathPart.text)⟩

/-- The parts up to the last one that stands for a component. -/
def trimParts (parts : List PathPart) : List PathPart :=
  (parts.reverse.dropWhile PathPart.isEmpty).reverse

/-- Component by component. -/
instance : Ord Path where
  compare := compareOn components

instance : Std.TransOrd Path :=
  inferInstanceAs (Std.TransCmp (compareOn components))

/-- Whether two paths have the same components. -/
def same (p q : Path) : Bool :=
  p.components == q.components

/-- Whether a path starts at the root. -/
def isAbsolute (p : Path) : Bool :=
  p.components.head? == some .root

/-- The last component, if it is a name. -/
def fileName? (p : Path) : Option String :=
  match p.components.getLast? with
  | some (.name text) => some text
  | _ => none

/-- A file name cut at its last dot: what stands before it, and what follows it. A name without a
dot, or with only one at its start, is not cut. -/
def cutName (name : List Char) : List Char × Option (List Char) :=
  let after := (name.reverse.takeWhile (· ≠ '.')).reverse
  let stem := name.take (name.length - after.length - 1)
  if stem = [] ∨ after.length = name.length then (name, none) else (stem, some after)

/-- The file name without its extension. -/
def stem? (p : Path) : Option String :=
  p.fileName?.map fun name => String.ofList (cutName name.toList).1

/-- What follows the last dot of the file name. -/
def extension? (p : Path) : Option String :=
  p.fileName?.bind fun name => (cutName name.toList).2.map String.ofList

/-- The path without its last component; a root has none, nor has the empty path. -/
def parent? (p : Path) : Option Path :=
  match p.components.getLast? with
  | none | some .root => none
  | some _ => some (ofParts (trimParts (trimParts p.parts).dropLast))

/-- A path below another: an absolute one stands for itself. -/
def join (base : Path) (p : Path) : Path :=
  if p.isAbsolute then p
  else if base.text = "" then p
  else if base.text.endsWith '/' then ⟨base.text ++ p.text⟩
  else ⟨base.text ++ "/" ++ p.text⟩

/-- Whether the components of `base` are the first components of `p`. -/
def startsWith (p base : Path) : Bool :=
  base.components.isPrefixOf p.components

/-- The components of `p` that follow those of `base`, if it starts with them. -/
def below? (p base : Path) : Option (List Component) :=
  base.components.isPrefixOf? p.components

/-- The file name, or the whole text when the path ends in no name. -/
def displayName (p : Path) : String :=
  p.fileName?.getD p.text

end Path
end Markers

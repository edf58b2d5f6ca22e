import Markers.Comment.Form
import Markers.Kind
import Markers.Path

/-!
# File families

A family gathers the file types that write comments alike. `Family.keys` lists the extensions and
bare file names of each, `Family.ofKey?` and `Family.ofPath?` look them up, and `Family.forms` gives
the comment forms that are searched, the preferred one first.
-/

namespace Markers

/-- File types with one comment syntax. -/
inductive Family where
  | cStyle
  | xml
  | powerShell
  | shell
  | markdown
  | sql
  | python
deriving DecidableEq, Repr

namespace Family

/-- Every family. -/
def all : List Family :=
  [cStyle, xml, powerShell, shell, markdown, sql, python]

/-- Extensions, and names of files without one. -/
def keys : Family → List String
  | cStyle => ["cs", "json", "jsonc"]
  | xml => ["axaml", "xaml", "xml", "csproj", "props"]
  | powerShell => ["ps1", "psm"]
  | shell => ["sh", "yaml", "yml", "Dockerfile", "editorconfig"]
  | markdown => ["md"]
  | sql => ["sql"]
  | python => ["py"]

/-- What the family is called. -/
def name : Family → String
  | cStyle => "C-style"
  | xml => "XML"
  | powerShell => "PowerShell"
  | shell => "Shell"
  | markdown => "Markdown"
  | sql => "SQL"
  | python => "Python"

/-- The comment forms of the family. -/
def forms : Family → List CommentForm
  | cStyle => [.starBlock, .line .slashes true]
  | xml => [.markupBlock]
  | powerShell => [.angleBlock, .line .hash false]
  | shell => [.hashColon]
  | markdown => [.checkbox]
  | sql => [.starBlock, .line .dashes true]
  | python => [.quoteBlock, .line .hash true]

/-- The kind of a marker without a keyword; only checkbox items can lack one. -/
def defaultKind? : Family → Option Kind
  | markdown => some .todo
  | _ => none

/-- Every key that some family handles. -/
def supportedKeys : List String :=
  all.flatMap keys

/-- The family that lists a key. -/
def withKey? (key : String) : Option Family :=
  all.find? fun family => family.keys.contains key

/-- A text without the dot it may start with. -/
def withoutDot (text : String) : String :=
  match text.toList with
  | '.' :: rest => String.ofList rest
  | _ => text

/-- The family of a key, which may be written with a leading dot. -/
def ofKey? (key : String) : Option Family :=
  withKey? (withoutDot key)

/-- The key of a path: its extension, or else its file name without a leading dot. -/
def keyOf (p : Path) : String :=
  match p.extension? with
  | some extension => extension
  | none => (p.fileName?.map withoutDot).getD ""

/-- Whether some family lists the key of a path. -/
def supports (p : Path) : Bool :=
  (withKey? (keyOf p)).isSome

/-- The family of a path. -/
def ofPath? (p : Path) : Option Family :=
  ofKey? (keyOf p)

end Family
end Markers

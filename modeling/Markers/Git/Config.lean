import Markers.Text.Blank

/-!
# Git configuration files

A configuration is a list of entries under sections. `Config.parse?` reads it line by line; a line
that ends in a lone backslash goes on in the next one. Names of sections and keys do not distinguish
case, names of subsections do, and the last value of a key counts.
-/

namespace Markers.Git
open Text

/-- A key under a section, with its value if it has one. -/
structure Entry where
  heading : List Char
  subheading : Option (List Char)
  key : List Char
  value : Option (List Char)
deriving DecidableEq, Repr

/-- A configuration, in the order of the file. -/
abbrev Config := List Entry

namespace Config

/-- A text in lower case, where it is ASCII. -/
def lower (s : List Char) : List Char :=
  s.map Char.toLower

/-- Whether a line goes on in the next one: it ends in an odd number of backslashes. -/
def goesOn (line : List Char) : Bool :=
  (line.reverse.takeWhile (· == '\\')).length % 2 = 1

/-- Lines with those that go on joined to the next. `before` is the start of the first line. -/
def joinLines (before : List Char) : List (List Char) → List (List Char)
  | [] => if before = [] then [] else [before]
  | line :: lines =>
    if goesOn line then joinLines (before ++ line.dropLast) lines
    else (before ++ line) :: joinLines [] lines

/-- The characters of a value up to a comment or the end of the line, each with whether it was
quoted. -/
def valueChars? (quoted : Bool) : List Char → Option (List (Char × Bool))
  | [] => if quoted then none else some []
  | '\\' :: c :: s => do
    let char ← match c with
      | 'n' => some '\n'
      | 't' => some '\t'
      | 'b' => some '\x08'
      | '\\' => some '\\'
      | '"' => some '"'
      | _ => none
    let rest ← valueChars? quoted s
    return (char, true) :: rest
  | '"' :: s => valueChars? (!quoted) s
  | c :: s =>
    if !quoted && (c == '#' || c == ';') then some []
    else (valueChars? quoted s).map ((c, quoted) :: ·)

/-- A value: blanks at its ends count only inside quotes. -/
def value? (s : List Char) : Option (List Char) := do
  let chars ← valueChars? false s
  let blank := fun (c : Char × Bool) => isBlank c.1 && !c.2
  return (((chars.dropWhile blank).reverse.dropWhile blank).reverse).map (·.1)

/-- Whether a character may stand in the name of a section or key. -/
def isNameChar (c : Char) : Bool :=
  c.isAlphanum || c == '-'

/-- The characters of a quoted subsection, and what follows the quote. -/
def quoted? : List Char → Option (List Char × List Char)
  | [] => none
  | '"' :: rest => some ([], rest)
  | '\\' :: c :: rest => (quoted? rest).map fun (name, rest) => (c :: name, rest)
  | c :: rest => (quoted? rest).map fun (name, rest) => (c :: name, rest)

/-- The section that a header names, whose bracket has been read, and what follows it. A dot in the
name starts a subsection, too. -/
def header? (s : List Char) : Option ((List Char × Option (List Char)) × List Char) :=
  let isHeaderChar := fun c => isNameChar c || c == '.'
  let name := s.takeWhile isHeaderChar
  match trimStart (s.dropWhile isHeaderChar) with
  | ']' :: rest =>
    match name.dropWhile (· ≠ '.') with
    | '.' :: sub => some ((lower (name.takeWhile (· ≠ '.')), some (lower sub)), rest)
    | _ => some ((lower name, none), rest)
  | '"' :: rest =>
    match quoted? rest with
    | some (sub, ']' :: rest) => some ((lower name, some sub), rest)
    | _ => none
  | _ => none

/-- The entry on a line under a section; none for a blank line or a comment. -/
def entry? (heading : List Char × Option (List Char)) (s : List Char) : Option (Option Entry) :=
  match trimStart s with
  | [] => some none
  | c :: s =>
    if c == '#' || c == ';' then some none
    else if c.isAlpha then
      let key := lower (c :: s.takeWhile isNameChar)
      match trimStart (s.dropWhile isNameChar) with
      | '=' :: s => (value? s).map fun value => some ⟨heading.1, heading.2, key, some value⟩
      | [] => some (some ⟨heading.1, heading.2, key, none⟩)
      | c :: _ =>
        if c == '#' || c == ';' then some (some ⟨heading.1, heading.2, key, none⟩) else none
    else none

/-- The entries of lines under a section. -/
def entries? (heading : List Char × Option (List Char)) : List (List Char) → Option Config
  | [] => some []
  | line :: lines =>
    match trimStart line with
    | '[' :: s => do
      let (heading, s) ← header? s
      let entry ← entry? heading s
      let rest ← entries? heading lines
      return entry.toList ++ rest
    | s => do
      let entry ← entry? heading s
      let rest ← entries? heading lines
      return entry.toList ++ rest

/-- The configuration that a text writes. -/
def parse? (s : List Char) : Option Config :=
  entries? ([], none) (joinLines [] (s.splitOn '\n'))

/-- The last value of a key. -/
def value (config : Config) (heading : String) (subheading : Option String) (key : String) :
    Option (List Char) :=
  ((config.filter fun entry => entry.heading == heading.toList &&
    entry.subheading == subheading.map String.toList && entry.key == key.toList &&
      entry.value.isSome).getLast?).bind Entry.value

/-- Whether the configuration says that there is no working tree. -/
def isBare (config : Config) : Bool :=
  match (config.filter fun entry => entry.heading == "core".toList &&
    entry.subheading == none && entry.key == "bare".toList).getLast? with
  | none => false
  | some entry =>
    match entry.value.map (fun value => String.ofList (lower value)) with
    | none => true
    | some value => value == "true" || value == "yes" || value == "on" || value == "1"

end Config
end Markers.Git

import Markers.Path
import Markers.Position
import Markers.Text.Blank
import Markers.Text.Pad

/-!
# Hosted repositories

A repository is known by its root and by what links into its hosted copy need: the `owner/name`
slug, a commit and a branch. `sourceUrl?` links to a span of a file below the root, and
`githubSlug?` reads the slug off the URL of a remote.
-/

namespace Markers

/-- A working tree with its revision and its place on the host. -/
structure Repository where
  root : Path
  slug : Option String
  commit : Option String
  branch : Option String
deriving DecidableEq, Repr

namespace Repository
open Text

/-- The host of all links. -/
def host : String :=
  "https://github.com/"

/-- What links to the commit start with. -/
def commitBase? (repo : Repository) : Option String := do
  let slug ← repo.slug
  let commit ← repo.commit
  return host ++ slug ++ "/blob/" ++ commit ++ "/"

/-- What links to the branch start with. -/
def branchBase? (repo : Repository) : Option String := do
  let slug ← repo.slug
  let branch ← repo.branch
  return host ++ slug ++ "/tree/" ++ branch ++ "/"

/-- What a file is called below the root. If its path does not start with the root, the canonical
path may, which only an existing file has. -/
def relativePath? (repo : Repository) (canonical : Path → Option Path) (file : Path) :
    Option String :=
  match file.below? repo.root with
  | some components => some (Component.join components)
  | none => do
    let file ← canonical file
    let components ← file.below? repo.root
    return Component.join components

/-- A path inside a URL: spaces are encoded. -/
def encodeSpaces (path : String) : String :=
  String.ofList (path.toList.flatMap fun c => if c = ' ' then ['%', '2', '0'] else [c])

/-- A line and column inside a URL. -/
def fragment (p : Position) : String :=
  "L" ++ p.line.repr ++ "C" ++ p.column.repr

/-- The span of a marker as the fragment of a URL; the end counts if it is on another line. -/
def spanFragment (start stop : Position) : String :=
  "#" ++ fragment start ++ (if stop.line ≠ start.line then "-" ++ fragment stop else "")

/-- The link to a span of a file, on the branch or at the commit. -/
def sourceUrl? (repo : Repository) (canonical : Path → Option Path) (file : Path)
    (start stop : Position) (onBranch : Bool) : Option String := do
  let base ← if onBranch then repo.branchBase? else repo.commitBase?
  let relative ← repo.relativePath? canonical file
  return base ++ encodeSpaces relative ++ spanFragment start stop

/-! ## Slugs -/

/-- Whether a character may stand in an owner or name. -/
def isSlugChar (c : Char) : Bool :=
  c ≠ '/' && !isBlank c

/-- A text without an ending, if it ends in it. -/
def withoutEnding? (ending s : List Char) : Option (List Char) :=
  if ending.isSuffixOf s then some (s.take (s.length - ending.length)) else none

/-- The name at the end of a URL: without a slash and without `.git`, as far as a name is left. -/
def repositoryName? (s : List Char) : Option (List Char) :=
  ([".git/", ".git", "/", ""].filterMap fun ending => withoutEnding? ending.toList s).find?
    fun name => !name.isEmpty && name.all isSlugChar

/-- The slug that follows the host in a URL. -/
def slugAfterHost? (s : List Char) : Option (List Char) :=
  match s with
  | separator :: rest =>
    if separator = '/' ∨ separator = ':' then
      match rest.takeWhile isSlugChar, rest.dropWhile isSlugChar with
      | c :: owner, '/' :: rest => (repositoryName? rest).map fun name => c :: owner ++ '/' :: name
      | _, _ => none
    else none
  | [] => none

/-- The first slug that follows the host anywhere in a text. -/
def findSlug? : List Char → Option (List Char)
  | [] => none
  | c :: s =>
    match ("github.com".toList.isPrefixOf? (c :: s)).bind slugAfterHost? with
    | some slug => some slug
    | none => findSlug? s

/-- The slug in the URL of a remote. -/
def githubSlug? (url : String) : Option String :=
  (findSlug? (trim url.toList)).map String.ofList

end Repository
end Markers

import Markers.Git.Config
import Markers.Git.Reference
import Markers.Repository

/-!
# Finding a repository

`FileSystem.findRepository` looks for the repository that a folder is in: the nearest folder at or
above it that is a repository or holds one under `.git`. Its head gives the branch and the commit,
and its remote the slug.
-/

namespace Markers

namespace Git

/-- What the head of a repository says. -/
structure Head where
  branch : Option String
  commit : Option String
deriving DecidableEq, Repr

/-- The target of the head. -/
def headTarget? (folder : Node) : Option Target :=
  (fileBytes? folder ["HEAD"]).bind looseTarget?

/-- Whether a folder is a repository: it has a head, objects and references. The head may say
nothing that is understood. -/
def isRepository (folder : Node) : Bool :=
  hasFolder folder ["objects"] && hasFolder folder ["refs"] && (fileBytes? folder ["HEAD"]).isSome

/-- The name of a reference without its well-known start. -/
def shorten (name : String) : String :=
  (["refs/heads/", "refs/tags/", "refs/remotes/"].findSome? fun start =>
    (start.toList.isPrefixOf? name.toList).map String.ofList).getD name

/-- The head of a repository. A head whose reference does not exist yet has a branch only. -/
def head (folder : Node) : Head :=
  match headTarget? folder with
  | none => ⟨none, none⟩
  | some (.object id) => ⟨none, peel? folder 0 (.object id)⟩
  | some (.symbolic name) =>
    match lookup folder name with
    | .invalid => ⟨none, none⟩
    | .missing => ⟨some (shorten name), none⟩
    | .found _ _ => ⟨some (shorten name), peel? folder 5 (.symbolic name)⟩

/-- The configuration of a repository. -/
def config? (folder : Node) : Option Config :=
  match fileBytes? folder ["config"] with
  | some bytes => Config.parse? (Text.decodeLossy bytes)
  | none => some []

end Git

namespace FileSystem

/-- The names of the nearest repository at or above a folder. -/
def repositoryFolder? (fs : FileSystem) (names : List String) : Option (List String) :=
  let above := (List.range (names.length + 1)).reverse.map fun n => names.take n
  (above.flatMap fun folder => [folder, folder ++ [".git"]]).find? fun folder =>
    match fs.node? folder with
    | some node => Git.isRepository node
    | none => false

/-- The repository that a folder is in. It must have a working tree. -/
def findRepository (fs : FileSystem) (p : Path) : Except Failure Repository := do
  let names ← (fs.resolve p).mapError fun _ => Failure.git
  if !fs.isFolder p then throw .git
  match fs.repositoryFolder? names with
  | none => throw .git
  | some folder =>
    match (fs.node? folder).bind fun node => (Git.config? node).map fun config => (node, config) with
    | none => throw .git
    | some (node, config) =>
      if folder.getLast? ≠ some ".git" ∨ config.isBare then throw .git
      let head := Git.head node
      let url := config.value "remote" (some "origin") "url"
      return {
        root := Path.ofNames folder.dropLast
        slug := url.bind fun url => Repository.githubSlug? (String.ofList url)
        commit := head.commit
        branch := head.branch }

end FileSystem
end Markers

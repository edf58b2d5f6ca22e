import Markers.Path
import Markers.Text.Anchor

/-!
# Projects

A project owns the files below its root directory. `ProjectMap.ownerOf?` gives a file to the project
with the deepest root above it, and of several at that depth to the last by name and root.
-/

namespace Markers

/-- A project of a source tree. -/
structure Project where
  name : String
  root : Path
  /-- The manifest that the project was found by. -/
  manifest : Option Path
deriving DecidableEq, Repr

namespace Project

/-- The project of a manifest: named after it, and rooted in its directory. -/
def ofManifest (manifest : Path) : Project where
  name := manifest.stem?.getD ""
  root := manifest.parent?.getD ⟨""⟩
  manifest := some manifest

/-- Whether a path lies below the root. -/
def contains (project : Project) (path : Path) : Bool :=
  path.startsWith project.root && !path.same project.root

/-- The anchor of the project's section. -/
def anchor (project : Project) : String :=
  Text.anchor project.name

/-- Number of components of the root. -/
def depth (project : Project) : Nat :=
  project.root.components.length

/-- By name, then by root. -/
instance : Ord Project where
  compare := compareLex (compareOn name) (compareOn root)

instance : Std.TransOrd Project :=
  inferInstanceAs (Std.TransCmp (compareLex (compareOn name) (compareOn root)))

end Project

/-- The projects of a source tree, by name and then by root. -/
structure ProjectMap where
  projects : List Project
deriving DecidableEq, Repr

namespace ProjectMap

/-- The map of a list of projects. -/
def ofList (projects : List Project) : ProjectMap :=
  ⟨projects.mergeSort fun a b => (compare a b).isLE⟩

/-- The first project with a name. -/
def get? (map : ProjectMap) (name : String) : Option Project :=
  map.projects.find? (·.name == name)

/-- The names of all projects. -/
def names (map : ProjectMap) : List String :=
  map.projects.map Project.name

/-- The deeper of two projects, the second if they are at one depth. -/
def deeper (best : Option Project) (project : Project) : Option Project :=
  match best with
  | none => some project
  | some b => if project.depth < b.depth then some b else some project

/-- The project that owns a path: of those that contain it the deepest, and of several at one depth
the last. -/
def ownerOf? (map : ProjectMap) (path : Path) : Option Project :=
  (map.projects.filter (·.contains path)).foldl deeper none

end ProjectMap
end Markers

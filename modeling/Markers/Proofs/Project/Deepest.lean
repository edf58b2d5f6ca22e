import Markers.Proofs.Path
import Markers.Proofs.Project

/-!
# The deepest owner

The roots of the projects that contain a path are all beginnings of it, so of any two of them one is
a beginning of the other (`root_prefix_of_depth_le`), and at one depth there is only one
(`root_eq_of_depth_eq`). The owner of a path is therefore the project whose root all the other roots
lead to, and of the projects with that root the one with the greatest name (`ownerOf?_deepest`).
-/

namespace Markers

/-- That a path lies below a root: what the root names comes first in the path, and is not all of
it. -/
def Path.IsBelow (path root : Path) : Prop :=
  root.components <+: path.components ∧ root.components ≠ path.components

instance (path root : Path) : Decidable (path.IsBelow root) :=
  inferInstanceAs (Decidable (_ ∧ _))

/-- A name is no beginning of another name. -/
example : ¬(⟨"src/CoreExtras/a.cs"⟩ : Path).IsBelow ⟨"src/Core"⟩ := by decide

theorem Project.contains_iff {project : Project} {path : Path} :
    project.contains path = true ↔ path.IsBelow project.root := by
  rw [contains, Path.startsWith, Path.same, Path.IsBelow, Bool.and_eq_true,
    List.isPrefixOf_iff_prefix, Bool.not_eq_true', beq_eq_false_iff_ne, ne_comm]

namespace ProjectMap
variable {projects : List Project} {path : Path} {project owner : Project}

/-- Of two roots above a path the one that is no deeper leads to the other. -/
theorem root_prefix_of_depth_le (below : path.IsBelow project.root)
    (below' : path.IsBelow owner.root) (le : project.depth ≤ owner.depth) :
    project.root.components <+: owner.root.components :=
  List.prefix_of_prefix_length_le below.1 below'.1 le

theorem root_eq_of_depth_eq (below : path.IsBelow project.root) (below' : path.IsBelow owner.root)
    (same : project.depth = owner.depth) : project.root.components = owner.root.components :=
  (root_prefix_of_depth_le below below' (Nat.le_of_eq same)).eq_of_length same

/-- A project that owns a path because of its place: all other roots above the path lead to its
root, and no project with the same root has a greater name. -/
structure Deepest (projects : List Project) (path : Path) (owner : Project) : Prop where
  mem : owner ∈ projects
  below : path.IsBelow owner.root
  above : ∀ project ∈ projects, path.IsBelow project.root →
    project.root.components <+: owner.root.components
  greatest : ∀ project ∈ projects, path.IsBelow project.root → project.depth = owner.depth →
    project.root.components = owner.root.components ∧
      (compare project.name owner.name).isLE = true

theorem Owns.deepest (owns : Owns projects path owner) : Deepest projects path owner := by
  have below := Project.contains_iff.1 owns.contains
  refine ⟨owns.mem, below, fun project mem below' => ?_, fun project mem below' same => ?_⟩
  · have le : project.depth ≤ owner.depth := by
      rcases owns.last project mem (Project.contains_iff.2 below') with less | ⟨same, _⟩ <;> omega
    exact root_prefix_of_depth_le below' below le
  · refine ⟨root_eq_of_depth_eq below' below same, ?_⟩
    rcases owns.last project mem (Project.contains_iff.2 below') with less | ⟨_, order⟩
    · omega
    · exact Ordering.isLE_left_of_isLE_then order

/-- Two owners of a path have one root, whatever the order of the projects. -/
theorem Owns.root_eq {owner' : Project} (owns : Owns projects path owner)
    (owns' : Owns projects path owner') : owner.root.same owner'.root = true :=
  Path.compare_eq_iff.1 (compareLex_eq_eq.1 (owns.compare_eq owns')).2

/-- **The deepest owner.** A path has an owner exactly if it lies below some root. Roots above it
that are equally deep are the same. Its owner is the deepest project, and in any other order of the
projects the path has an owner with that name and root. -/
theorem ownerOf?_deepest (projects : List Project) (path : Path) :
    ((∃ owner, (ofList projects).ownerOf? path = some owner) ↔
      ∃ project ∈ projects, path.IsBelow project.root) ∧
    (∀ project ∈ projects, ∀ other ∈ projects, path.IsBelow project.root →
      path.IsBelow other.root → project.depth = other.depth →
        project.root.components = other.root.components) ∧
    ∀ owner, (ofList projects).ownerOf? path = some owner → Deepest projects path owner ∧
      ∀ projects', projects.Perm projects' → ∃ owner', (ofList projects').ownerOf? path = some owner' ∧
        owner'.name = owner.name ∧ owner'.root.same owner.root = true := by
  refine ⟨?_, fun project _ other _ => root_eq_of_depth_eq, fun owner found => ?_⟩
  · simp only [exists_ownerOf?_iff, Project.contains_iff]
  · have owns := owns_of_ownerOf? found
    refine ⟨owns.deepest, fun projects' given => ?_⟩
    obtain ⟨owner', found'⟩ := exists_ownerOf?_iff.2
      ⟨owner, given.mem_iff.1 owns.mem, owns.contains⟩
    have owns' := (owns_of_ownerOf? found').of_perm given.symm
    exact ⟨owner', found', owns'.name_eq owns, owns'.root_eq owns⟩

end ProjectMap
end Markers

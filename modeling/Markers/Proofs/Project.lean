import Markers.Project
import Markers.Proofs.SortedMap

/-!
# The owner of a file

Of the projects that contain a path the deepest owns it, and of several at one depth the last by
name and root (`ProjectMap.Owns`). This does not depend on the order in which projects are given, so
neither does the name of the owner (`name_ownerOf?_eq_of_perm`).
-/

namespace Markers.ProjectMap

/-- A project that owns a path among some projects: it contains the path, and every other one that
does is less deep, or as deep and not behind it. -/
structure Owns (projects : List Project) (path : Path) (owner : Project) : Prop where
  mem : owner ∈ projects
  contains : owner.contains path = true
  last : ∀ project ∈ projects, project.contains path = true →
    project.depth < owner.depth ∨
      project.depth = owner.depth ∧ (compare project owner).isLE = true

theorem perm_projects_ofList (projects : List Project) :
    (ofList projects).projects.Perm projects :=
  List.mergeSort_perm projects _

theorem sorted_projects_ofList (projects : List Project) :
    (ofList projects).projects.Pairwise fun a b => (compare a b).isLE = true :=
  pairwise_mergeSort_isLE compare projects

theorem foldl_deeper_some (projects : List Project) (best : Project) :
    ∃ owner, projects.foldl deeper (some best) = some owner := by
  induction projects generalizing best with
  | nil => exact ⟨best, rfl⟩
  | cons project projects ih =>
    rw [List.foldl_cons, deeper]
    split
    · exact ih best
    · exact ih project

/-- The deepest of sorted projects behind the best one so far; at one depth the last. -/
theorem owner_of_foldl_deeper {projects : List Project} {best owner : Project}
    (sorted : (best :: projects).Pairwise fun a b => (compare a b).isLE = true)
    (found : projects.foldl deeper (some best) = some owner) :
    owner ∈ best :: projects ∧ ∀ project ∈ best :: projects, project.depth < owner.depth ∨
      project.depth = owner.depth ∧ (compare project owner).isLE = true := by
  induction projects generalizing best with
  | nil =>
    cases found
    refine ⟨List.mem_cons_self .., fun project mem => .inr ?_⟩
    rw [List.mem_singleton.1 mem]
    exact ⟨rfl, Std.ReflCmp.isLE_rfl⟩
  | cons first projects ih =>
    obtain ⟨below, rest⟩ := List.pairwise_cons.1 sorted
    rw [List.foldl_cons, deeper] at found
    split at found
    · next shallow =>
      have skipped : (best :: projects).Pairwise fun a b => (compare a b).isLE = true :=
        sorted.sublist (.cons_cons best (List.sublist_cons_self first projects))
      obtain ⟨mem, last⟩ := ih skipped found
      have depth : best.depth ≤ owner.depth := by
        have := last best (List.mem_cons_self ..)
        omega
      refine ⟨?_, fun project among => ?_⟩
      · rcases List.mem_cons.1 mem with rfl | mem
        · exact List.mem_cons_self ..
        · exact List.mem_cons_of_mem _ (List.mem_cons_of_mem _ mem)
      · rcases List.mem_cons.1 among with rfl | among
        · exact last project (List.mem_cons_self ..)
        · rcases List.mem_cons.1 among with rfl | among
          · exact .inl (by omega)
          · exact last project (List.mem_cons_of_mem _ among)
    · next deep =>
      obtain ⟨mem, last⟩ := ih rest found
      refine ⟨List.mem_cons_of_mem _ mem, fun project among => ?_⟩
      rcases List.mem_cons.1 among with rfl | among
      · have order := below first (List.mem_cons_self ..)
        rcases last first (List.mem_cons_self ..) with less | ⟨same, before⟩
        · exact .inl (by omega)
        · by_cases equal : project.depth = owner.depth
          · exact .inr ⟨equal, Std.TransCmp.isLE_trans order before⟩
          · exact .inl (by omega)
      · exact last project among

theorem ownerOf?_eq_none {map : ProjectMap} {path : Path} :
    map.ownerOf? path = none ↔ ∀ project ∈ map.projects, project.contains path = false := by
  rw [ownerOf?]
  cases kept : map.projects.filter (·.contains path) with
  | nil => simpa using kept
  | cons first projects =>
    obtain ⟨owner, found⟩ := foldl_deeper_some projects first
    have mem : first ∈ map.projects.filter (·.contains path) := kept ▸ List.mem_cons_self ..
    obtain ⟨mem, contains⟩ := List.mem_filter.1 mem
    constructor
    · intro none
      exact absurd (found.symm.trans none) (Option.some_ne_none owner)
    · intro all
      rw [all first mem] at contains
      exact absurd contains Bool.false_ne_true

/-- The owner that a map finds is the one among the projects it was made of. -/
theorem owns_of_ownerOf? {projects : List Project} {path : Path} {owner : Project}
    (found : (ofList projects).ownerOf? path = some owner) : Owns projects path owner := by
  have perm := perm_projects_ofList projects
  have sorted := (sorted_projects_ofList projects).filter (·.contains path)
  rw [ownerOf?] at found
  cases kept : (ofList projects).projects.filter (·.contains path) with
  | nil =>
    rw [kept] at found
    exact absurd found.symm (Option.some_ne_none owner)
  | cons first rest =>
    rw [kept] at found sorted
    have among : ∀ project, project ∈ first :: rest ↔
        project ∈ projects ∧ project.contains path = true := by
      intro project
      rw [← kept, List.mem_filter, perm.mem_iff]
    obtain ⟨mem, last⟩ := owner_of_foldl_deeper sorted found
    obtain ⟨mem, contains⟩ := (among owner).1 mem
    exact ⟨mem, contains, fun project mem contains => last project ((among project).2 ⟨mem, contains⟩)⟩

/-- Of two owners of a path neither comes before the other. -/
theorem Owns.compare_eq {projects : List Project} {path : Path} {owner owner' : Project}
    (h : Owns projects path owner) (h' : Owns projects path owner') : compare owner owner' = .eq := by
  have forward := h.last owner' h'.mem h'.contains
  have backward := h'.last owner h.mem h.contains
  have le : (compare owner owner').isLE = true := by
    rcases backward with less | ⟨_, le⟩
    · omega
    · exact le
  have ge : (compare owner' owner).isLE = true := by
    rcases forward with less | ⟨_, ge⟩
    · omega
    · exact ge
  exact Std.OrientedCmp.isLE_antisymm le ge

/-- Two owners of a path have one name. Their roots may be written differently. -/
theorem Owns.name_eq {projects : List Project} {path : Path} {owner owner' : Project}
    (h : Owns projects path owner) (h' : Owns projects path owner') : owner.name = owner'.name :=
  Std.LawfulEqOrd.eq_of_compare (compareLex_eq_eq.1 (h.compare_eq h')).1

/-- An owner of a path is one among the projects in any order. -/
theorem Owns.of_perm {projects projects' : List Project} {path : Path} {owner : Project}
    (given : projects.Perm projects') (h : Owns projects path owner) :
    Owns projects' path owner where
  mem := given.mem_iff.1 h.mem
  contains := h.contains
  last project mem := h.last project (given.mem_iff.2 mem)

/-- A path has an owner exactly if some project contains it. -/
theorem exists_ownerOf?_iff {projects : List Project} {path : Path} :
    (∃ owner, (ofList projects).ownerOf? path = some owner) ↔
      ∃ project ∈ projects, project.contains path = true := by
  rw [← Option.ne_none_iff_exists', ne_eq, ownerOf?_eq_none]
  simp [(perm_projects_ofList projects).mem_iff]

/-- The name of a file's owner does not depend on the order of the projects. -/
theorem name_ownerOf?_eq_of_perm {projects projects' : List Project}
    (given : projects.Perm projects') (path : Path) :
    ((ofList projects).ownerOf? path).map Project.name =
      ((ofList projects').ownerOf? path).map Project.name := by
  have none_iff : (ofList projects).ownerOf? path = none ↔
      (ofList projects').ownerOf? path = none := by
    rw [ownerOf?_eq_none, ownerOf?_eq_none]
    simp only [(perm_projects_ofList _).mem_iff, given.mem_iff]
  cases found : (ofList projects).ownerOf? path with
  | none => rw [none_iff.1 found]
  | some owner =>
    cases found' : (ofList projects').ownerOf? path with
    | none => rw [none_iff.2 found'] at found; exact absurd found.symm (Option.some_ne_none owner)
    | some owner' =>
      have owns := (owns_of_ownerOf? found').of_perm given.symm
      exact congrArg some ((owns_of_ownerOf? found).name_eq owns)

end Markers.ProjectMap

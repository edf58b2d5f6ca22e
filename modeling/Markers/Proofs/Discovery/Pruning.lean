import Markers.Proofs.Discovery

/-!
# What discovery finds

Discovery lists the files below a folder that the filter keeps, but for those behind a folder that
is left out: one that is hidden or holds build results (`IsPruned`). Only the folders between the
start and the file count for this (`discover_exact`). However the start is spelled, a file is listed
under its names behind that spelling, and this path leads to it. All names are Unicode text; the
program does not keep out a folder whose name is none, whatever its first byte.
-/

namespace Markers

/-- The names of folders that are left out: those that begin with a dot, and those of build
results. -/
def IsPruned (name : String) : Prop :=
  name.toList.head? = some '.' ∨ name = "target" ∨ name = "bin" ∨ name = "obj"

theorem isSkipped_iff {name : String} : isSkipped name = true ↔ IsPruned name := by
  rw [isSkipped, IsPruned, Bool.or_eq_true, String.startsWith_char_eq_head?, beq_iff_eq]
  simp

theorem isSkipped_eq_false {name : String} : isSkipped name = false ↔ ¬IsPruned name := by
  rw [← isSkipped_iff, Bool.not_eq_true]

namespace FileSystem
variable {fs : FileSystem} {root : Path}

/-- In a folder that is there every file is found under its names behind the path of the folder. -/
theorem IsTree.resolve_joinAll (tree : fs.IsTree) {place names : List String}
    (resolved : fs.resolve root = .ok place) (folder : fs.content? place = some .folder)
    (inside : names ≠ []) (file : (fs.fileAt? (place ++ names)).isSome) :
    fs.resolve (root.joinAll names) = .ok (place ++ names) := by
  have enters : fs.Enters root place := ⟨(resolve_eq_ok.1 resolved).2.1, folder⟩
  exact enters.resolve_joinAll (tree.isEntryName_of_fileAt? file) inside
    (isSome_content?_of_fileAt? file)

/-- A walk from a folder finds only what lies below it. -/
theorem walksFrom_iff_of_folder {place : List String} (folder : fs.content? place = some .folder)
    {path : Path} : fs.WalksFrom root place path ↔
      ∃ names, names ≠ [] ∧ path = root.joinAll names ∧ (fs.fileAt? (place ++ names)).isSome ∧
        ∀ name ∈ names.dropLast, ¬IsPruned name := by
  simp only [WalksFrom, isSkipped_eq_false]
  refine exists_congr fun names => ⟨fun walks => ⟨?_, walks⟩, fun below => below.2⟩
  rintro rfl
  have file := walks.2.1
  rw [List.append_nil, fileAt?, folder] at file
  cases file

/-- **Discovery is exact.** From any folder of a tree, under any path for it, discovery lists in
strictly increasing order the paths of those files below the folder that the filter keeps and that
no folder on the way keeps out. The name of the folder itself does not matter, nor do the names of
files. Each of these paths leads to its file. -/
theorem discover_exact (tree : fs.IsTree) (folder : fs.isFolder root = true) (filter : Filter) :
    ∃ found, fs.discover root filter = .ok found ∧
      (found.Pairwise fun a b => compare a b = .lt) ∧
      (∀ path, path ∈ found ↔ ∃ names, names ≠ [] ∧ path = root.joinAll names ∧
        (fs.fileAt? (fs.location root ++ names)).isSome ∧ filter.accepts path = true ∧
        ∀ name ∈ names.dropLast, ¬IsPruned name) ∧
      ∀ names, names ≠ [] → (fs.fileAt? (fs.location root ++ names)).isSome →
        fs.resolve (root.joinAll names) = .ok (fs.location root ++ names) := by
  obtain ⟨place, resolved, lies⟩ := isFolder_iff.1 folder
  obtain rfl := eq_location_of_resolve resolved
  obtain ⟨found, walked, increasing, mem⟩ := exists_walk tree resolved filter.accepts
  refine ⟨found, walked, increasing, fun path => ?_, fun names inside file =>
    tree.resolve_joinAll resolved lies inside file⟩
  rw [mem, walksFrom_iff_of_folder lies]
  constructor
  · rintro ⟨⟨names, inside, spelled, file, visible⟩, kept⟩
    exact ⟨names, inside, spelled, file, kept, visible⟩
  · rintro ⟨names, inside, spelled, file, kept, visible⟩
    exact ⟨⟨names, inside, spelled, file, visible⟩, kept⟩

/-- A hidden folder that is given as the start, under a path that goes there and back: the hidden
file in it is listed, the build results are not. -/
example :
    let file : Node := .file []
    let sources : Node := .folder [(".editorconfig", file), ("obj", .folder [("a.yml", file)])]
    let fs : FileSystem := ⟨.folder [(".ci", .folder [("bin", sources), ("src", sources)])], []⟩
    (fs.discover ⟨".ci/bin/.././/"⟩ .all).toOption =
      some [⟨".ci/bin/.././/src/.editorconfig"⟩] := by
  decide +kernel

end FileSystem
end Markers

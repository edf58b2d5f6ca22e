import Markers.Discovery
import Markers.Proofs.Family
import Markers.Proofs.FileSystem.Tree
import Markers.Proofs.Scan.Run
import Markers.Proofs.Session
import Mathlib.Data.List.Nodup

/-!
# What a walk finds

A walk through a tree finds the files below its start that lie in no skipped folder, under their
names behind the start as it is spelled (`FileSystem.WalksFrom`, `Node.mem_walk`), each of them
once. So the files that it lists are decided by what lies where (`exists_walk`). From a canonical
path it finds canonical paths (`FileSystem.Walks`, `walk_ofNames`), and scanning them never fails
(`scanFolder_ofNames`). Files that are written change a walk only where it gets to them
(`Overwrites.walks_iff`).
-/

namespace Markers

/-- A list in strictly increasing order has each member once. -/
theorem nodup_of_increasing {κ : Type} [Ord κ] [Std.TransOrd κ] {l : List κ}
    (increasing : l.Pairwise fun a b => compare a b = .lt) : l.Nodup := by
  refine increasing.imp ?_
  rintro a _ lt rfl
  have self : compare a a = .eq := Std.ReflCmp.compare_self
  rw [self] at lt
  cases lt

/-- Lists in strictly increasing order with the same members are equal. -/
theorem eq_of_increasing {κ : Type} [Ord κ] [Std.TransOrd κ] {l l' : List κ}
    (increasing : l.Pairwise fun a b => compare a b = .lt)
    (increasing' : l'.Pairwise fun a b => compare a b = .lt) (same : ∀ k, k ∈ l ↔ k ∈ l') :
    l = l' := by
  have antisymm (a b : κ) (lt : compare a b = .lt) (gt : compare b a = .lt) : a = b := by
    have := Std.TransCmp.lt_trans lt gt
    simp at this
  have perm := (List.perm_ext_iff_of_nodup (nodup_of_increasing increasing)
    (nodup_of_increasing increasing')).2 same
  exact List.Perm.eq_of_pairwise (fun a b _ _ => antisymm a b) increasing increasing' perm

namespace Node
variable {node : Node} {names : List String}

theorem walkEntries_eq (path : Path) (entries : List (String × Node)) :
    walkEntries path entries = entries.flatMap fun entry =>
      if entry.2.isFolder && isSkipped entry.1 then [] else entry.2.walk (path.join ⟨entry.1⟩) := by
  induction entries with
  | nil => rfl
  | cons entry entries ih => rw [walkEntries, ih, List.flatMap_cons]

theorem content?_append (node : Node) (front back : List String) :
    node.content? (front ++ back) =
      (node.descend? front).bind fun inner => inner.content? back := by
  induction front generalizing node with
  | nil => rfl
  | cons name front ih =>
    rw [List.cons_append, content?_cons, descend?]
    cases node.child? name with
    | none => rfl
    | some child => exact ih child

theorem IsTree.descend? {inner : Node} (tree : node.IsTree)
    (found : node.descend? names = some inner) : inner.IsTree := by
  induction names generalizing node with
  | nil =>
    cases found
    exact tree
  | cons name names ih =>
    obtain ⟨child, here, found⟩ := Option.bind_eq_some_iff.1 found
    exact ih (tree.child? here).2 found

theorem isFolder_of_content? (inside : names ≠ []) (lies : (node.content? names).isSome) :
    node.isFolder = true := by
  cases node with
  | folder => rfl
  | file =>
    rw [content?_of_entries_eq_nil rfl inside] at lies
    cases lies

/-- A walk through a tree finds the files in it that lie in no skipped folder, under their names
below the start. The start may be spelled in any way. -/
theorem mem_walk (tree : node.IsTree) {start path : Path} :
    path ∈ node.walk start ↔
      ∃ names bytes, path = start.joinAll names ∧
        node.content? names = some (.file bytes) ∧
        ∀ folder ∈ names.dropLast, isSkipped folder = false := by
  induction tree generalizing start with
  | file stored =>
    rw [walk, List.mem_singleton]
    constructor
    · rintro rfl
      exact ⟨[], stored, rfl, rfl, by simp⟩
    · rintro ⟨names, bytes, rfl, file, _⟩
      cases names with
      | nil => rfl
      | cons name names =>
        rw [content?_of_entries_eq_nil rfl (List.cons_ne_nil _ _)] at file
        cases file
  | @folder entries names distinct inner ih =>
    have tree : (Node.folder entries).IsTree := .folder names distinct inner
    rw [walk, walkEntries_eq, List.mem_flatMap]
    constructor
    · rintro ⟨entry, mem, found⟩
      split at found
      · simp at found
      next visible =>
        obtain ⟨inner, bytes, rfl, file, visible'⟩ := (ih entry mem).1 found
        refine ⟨entry.1 :: inner, bytes, rfl, ?_, ?_⟩
        · rw [content?_cons, tree.child?_eq_some_iff.2 mem]
          exact file
        · cases inner with
          | nil => simp
          | cons first inner =>
            have folder := isFolder_of_content? (List.cons_ne_nil _ _) (by rw [file]; rfl)
            rw [List.dropLast_cons_cons]
            exact List.forall_mem_cons.2 ⟨by simpa [folder] using visible, visible'⟩
    · rintro ⟨names, bytes, rfl, file, visible⟩
      cases names with
      | nil => cases file
      | cons name inner =>
        rw [content?_cons] at file
        obtain ⟨child, found, file⟩ := Option.bind_eq_some_iff.1 file
        have mem := tree.child?_eq_some_iff.1 found
        refine ⟨(name, child), mem, ?_⟩
        cases inner with
        | nil =>
          have bare : child.isFolder = false := by
            cases child with
            | file => rfl
            | folder => cases file
          simp only [bare, Bool.false_and, Bool.false_eq_true, if_false]
          exact (ih _ mem).2 ⟨[], bytes, rfl, file, by simp⟩
        | cons first inner =>
          rw [List.dropLast_cons_cons] at visible
          obtain ⟨entered, visible⟩ := List.forall_mem_cons.1 visible
          simp only [entered, Bool.and_false, Bool.false_eq_true, if_false]
          exact (ih _ mem).2 ⟨_, bytes, rfl, file, visible⟩

/-- A walk through a tree finds each file once. -/
theorem nodup_walk (tree : node.IsTree) (start : Path) : (node.walk start).Nodup := by
  induction tree generalizing start with
  | file => exact List.nodup_singleton start
  | @folder entries names distinct inner ih =>
    rw [walk, walkEntries_eq, List.nodup_flatMap]
    constructor
    · intro entry mem
      split
      · exact List.nodup_nil
      · exact ih entry mem _
    · -- what is found below two entries differs in their names
      have spelled : ∀ entry ∈ entries, ∀ path ∈ (if entry.2.isFolder && isSkipped entry.1 then []
          else entry.2.walk (start.join ⟨entry.1⟩)), ∃ below,
            path = start.joinAll (entry.1 :: below) ∧
              ∀ name ∈ entry.1 :: below, IsEntryName name := by
        intro entry mem path found
        split at found
        · simp at found
        · obtain ⟨below, bytes, rfl, file, _⟩ := (mem_walk (inner entry mem)).1 found
          have named := (inner entry mem).isEntryName_of_content? (by rw [file]; rfl)
          exact ⟨below, rfl, List.forall_mem_cons.2 ⟨names entry mem, named⟩⟩
      refine (List.pairwise_map.1 distinct).imp_of_mem ?_
      intro a b mem mem' other path found found'
      obtain ⟨below, rfl, named⟩ := spelled a mem path found
      obtain ⟨below', spelling, named'⟩ := spelled b mem' _ found'
      have same := Path.eq_of_components_joinAll named named' (congrArg Path.components spelling)
      exact other (List.cons.inj same).1

end Node

namespace FileSystem
variable {fs : FileSystem} {source names : List String} {path : Path} {found : List Path}

/-- That a walk below some names finds a path: of a file that lies in no skipped folder. -/
def Walks (fs : FileSystem) (source : List String) (path : Path) : Prop :=
  ∃ names, path = .ofNames (source ++ names) ∧ (fs.fileAt? (source ++ names)).isSome ∧
    ∀ folder ∈ names.dropLast, isSkipped folder = false

theorem content?_append {node : Node} (here : fs.node? source = some node) :
    fs.content? (source ++ names) = node.content? names := by
  rw [content?, Node.content?_append, show fs.root.descend? source = some node from here,
    Option.bind_some]

theorem Walks.exists_file (walks : fs.Walks source path) :
    ∃ names bytes, path = .ofNames names ∧ fs.content? names = some (.file bytes) := by
  obtain ⟨names, spelled, file, _⟩ := walks
  obtain ⟨bytes, file⟩ := Option.isSome_iff_exists.1 file
  exact ⟨_, bytes, spelled, fileAt?_eq_some.1 file⟩

/-- That a walk from a path that stands for some names finds a path: of a file that lies in no
skipped folder, spelled as the names below the start. -/
def WalksFrom (fs : FileSystem) (start : Path) (source : List String) (path : Path) : Prop :=
  ∃ names, path = start.joinAll names ∧ (fs.fileAt? (source ++ names)).isSome ∧
    ∀ folder ∈ names.dropLast, isSkipped folder = false

theorem IsTree.isEntryName_of_fileAt? (tree : fs.IsTree)
    (file : (fs.fileAt? (source ++ names)).isSome) : ∀ name ∈ names, IsEntryName name :=
  fun name mem => tree.isEntryName (isSome_content?_of_fileAt? file) name
    (List.mem_append_right _ mem)

/-- Paths that a walk finds compare equal only if they are equal. -/
theorem WalksFrom.eq_of_compare (tree : fs.IsTree) {start path' : Path}
    (walks : fs.WalksFrom start source path) (walks' : fs.WalksFrom start source path')
    (same : compare path path' = .eq) : path = path' := by
  obtain ⟨names, rfl, file, _⟩ := walks
  obtain ⟨names', rfl, file', _⟩ := walks'
  have components := Path.compare_eq_iff.1 same
  rw [Path.same, beq_iff_eq] at components
  rw [Path.eq_of_components_joinAll (tree.isEntryName_of_fileAt? file)
    (tree.isEntryName_of_fileAt? file') components]

/-- A walk lists what it finds and a test keeps, in order and each path once. -/
theorem exists_walk (tree : fs.IsTree) {start : Path} (resolved : fs.resolve start = .ok source)
    (keep : Path → Bool) :
    ∃ found, fs.walk start keep = .ok found ∧
      (found.Pairwise fun a b => compare a b = .lt) ∧
      ∀ path, path ∈ found ↔ fs.WalksFrom start source path ∧ keep path = true := by
  have lies := (resolve_eq_ok.1 resolved).2.2
  obtain ⟨node, here⟩ := Option.isSome_iff_exists.1 (isSome_content? ▸ lies)
  have inner : node.IsTree := tree.tree.descend? here
  let found := ((node.walk start).filter keep).mergeSort fun a b => (compare a b).isLE
  have mem : ∀ path, path ∈ found ↔ fs.WalksFrom start source path ∧ keep path = true := by
    intro path
    rw [List.mem_mergeSort, List.mem_filter, Node.mem_walk inner]
    refine and_congr_left fun _ => ?_
    constructor
    · rintro ⟨names, bytes, rfl, file, visible⟩
      rw [← content?_append here] at file
      exact ⟨names, rfl, by rw [fileAt?_eq_some.2 file]; rfl, visible⟩
    · rintro ⟨names, rfl, file, visible⟩
      obtain ⟨bytes, file⟩ := Option.isSome_iff_exists.1 file
      exact ⟨names, bytes, rfl, content?_append here ▸ fileAt?_eq_some.1 file, visible⟩
  refine ⟨found, by rw [walk, find_of_resolve resolved here], ?_, mem⟩
  have sorted : found.Pairwise fun a b => (compare a b).isLE = true :=
    pairwise_mergeSort_isLE compare _
  have once : found.Nodup :=
    (List.mergeSort_perm _ _).nodup_iff.2 ((Node.nodup_walk inner start).filter keep)
  refine (sorted.and once).imp_of_mem fun {a b} memA memB ⟨le, other⟩ => ?_
  cases order : compare a b with
  | lt => rfl
  | eq => exact absurd (((mem a).1 memA).1.eq_of_compare tree ((mem b).1 memB).1 order) other
  | gt => simp [order] at le

/-- From a canonical path a walk finds canonical paths. -/
theorem walksFrom_ofNames (tree : fs.IsTree) :
    fs.WalksFrom (.ofNames source) source path ↔ fs.Walks source path := by
  have spelled (names : List String) (file : (fs.fileAt? (source ++ names)).isSome) :
      (Path.ofNames source).joinAll names = .ofNames (source ++ names) :=
    Path.joinAll_ofNames (tree.isEntryName (isSome_content?_of_fileAt? file))
  constructor
  · rintro ⟨names, rfl, file, visible⟩
    exact ⟨names, spelled names file, file, visible⟩
  · rintro ⟨names, rfl, file, visible⟩
    exact ⟨names, (spelled names file).symm, file, visible⟩

theorem walk_ofNames (tree : fs.IsTree) (lies : (fs.content? source).isSome)
    (keep : Path → Bool) :
    ∃ found, fs.walk (.ofNames source) keep = .ok found ∧
      (found.Pairwise fun a b => compare a b = .lt) ∧
      ∀ path, path ∈ found ↔ fs.Walks source path ∧ keep path = true := by
  obtain ⟨found, walked, increasing, mem⟩ := exists_walk tree (tree.resolve_ofNames lies) keep
  refine ⟨found, walked, increasing, fun path => ?_⟩
  rw [mem, walksFrom_ofNames tree]

/-- The scan of a file in a tree. -/
theorem scanFile_ofNames (tree : fs.IsTree) {bytes : List UInt8} {family : Family}
    (file : fs.content? names = some (.file bytes))
    (known : Family.ofPath? (.ofNames names) = some family) :
    fs.scanFile (.ofNames names) =
      scanText (.ofNames names) (String.ofList (Text.decodeLossy bytes)) := by
  have read := readBytes_of_file (tree.resolve_ofNames (by rw [file]; rfl)) file
  simp [scanFile, known, read, Except.mapError, bind, Except.bind]

/-- A supported file that a walk finds can be scanned. -/
theorem Walks.exists_scanFile (tree : fs.IsTree) (walks : fs.Walks source path)
    (supported : Family.supports path = true) :
    ∃ scan, fs.scanFile path = .ok scan ∧ scan.path = path := by
  obtain ⟨names, bytes, rfl, file⟩ := walks.exists_file
  obtain ⟨family, known⟩ := Family.supports_iff.1 supported
  obtain ⟨_, _, scanned⟩ :=
    Scan.exists_scan? family (String.ofList (Text.decodeLossy bytes)).toList
  rw [scanFile_ofNames tree file known, scanText_of_scan? known scanned]
  exact ⟨_, rfl, rfl⟩

theorem exists_mapM_scanFile (each : ∀ path ∈ found, ∃ scan, fs.scanFile path = .ok scan ∧
    scan.path = path) : ∃ scans, found.mapM fs.scanFile = .ok scans ∧
      scans.map FileScan.path = found := by
  induction found with
  | nil => exact ⟨[], rfl, rfl⟩
  | cons path found ih =>
    obtain ⟨⟨scan, scanned, here⟩, each⟩ := List.forall_mem_cons.1 each
    obtain ⟨scans, rest, there⟩ := ih each
    refine ⟨scan :: scans, ?_, by rw [List.map_cons, here, there]⟩
    rw [List.mapM_cons, scanned, rest]
    rfl

/-- Below some names of a tree all files that a walk finds and the filter keeps are scanned, and the
session has each of them. -/
theorem scanFolder_ofNames (tree : fs.IsTree) (lies : (fs.content? source).isSome)
    (filter : Filter) :
    ∃ found scans, found.mapM fs.scanFile = .ok scans ∧
      fs.scanFolder (.ofNames source) filter = .ok (Session.ofScans scans) ∧
      (Session.ofScans scans).files.keys = found ∧
      (found.Pairwise fun a b => compare a b = .lt) ∧
      ∀ path, path ∈ found ↔ fs.Walks source path ∧ filter.accepts path = true := by
  obtain ⟨found, discovered, increasing, mem⟩ := walk_ofNames tree lies filter.accepts
  obtain ⟨scans, scanned, paths⟩ := exists_mapM_scanFile fun path here => by
    obtain ⟨walks, kept⟩ := (mem path).1 here
    refine walks.exists_scanFile tree ?_
    simp only [Filter.accepts, Bool.and_eq_true] at kept
    exact kept.1.1
  refine ⟨found, scans, scanned, ?_, ?_, increasing, mem⟩
  · rw [scanFolder, discover, discovered]
    simp [bind, Except.bind, scanned, pure, Except.pure]
  · rw [Session.keys_ofScans (paths ▸ increasing), paths]

end FileSystem
/-! ## Walks after files were written -/

namespace FileSystem
variable {fs after : FileSystem} {written : List (List String)} {source : List String} {path : Path}

/-- That a walk below some names gets to a place, whatever lies there. -/
def Reaches (source place : List String) : Prop :=
  ∃ names, place = source ++ names ∧ ∀ folder ∈ names.dropLast, isSkipped folder = false

theorem walks_iff : fs.Walks source path ↔
    ∃ place, path = .ofNames place ∧ (fs.fileAt? place).isSome ∧ Reaches source place := by
  constructor
  · rintro ⟨names, spelled, file, visible⟩
    exact ⟨_, spelled, file, names, rfl, visible⟩
  · rintro ⟨_, spelled, file, names, rfl, visible⟩
    exact ⟨names, spelled, file, visible⟩

/-- A walk finds the same as before, if what it keeps at the written places was there. -/
theorem Overwrites.walks_iff (rewrites : Overwrites written fs after) (keep : Path → Bool)
    (old : ∀ place ∈ written, Reaches source place → keep (.ofNames place) = true →
      (fs.fileAt? place).isSome) :
    after.Walks source path ∧ keep path = true ↔ fs.Walks source path ∧ keep path = true := by
  rw [FileSystem.walks_iff, FileSystem.walks_iff]
  refine and_congr_left fun kept => ⟨?_, ?_⟩
  · rintro ⟨place, rfl, file, reached⟩
    refine ⟨place, rfl, ?_, reached⟩
    by_cases here : place ∈ written
    · exact old place here reached kept
    · rw [← rewrites.fileAt? here]
      exact file
  · rintro ⟨place, rfl, file, reached⟩
    exact ⟨place, rfl, rewrites.file file, reached⟩

/-- The scan of a file that was not written is the same as before. -/
theorem Overwrites.scanFile (rewrites : Overwrites written fs after) (tree : fs.IsTree)
    (walks : fs.Walks source path) (supported : Family.supports path = true)
    (unwritten : path ∉ written.map Path.ofNames) : after.scanFile path = fs.scanFile path := by
  obtain ⟨place, rfl, file, _⟩ := FileSystem.walks_iff.1 walks
  obtain ⟨family, known⟩ := Family.supports_iff.1 supported
  obtain ⟨bytes, file⟩ := Option.isSome_iff_exists.1 file
  have file' := rewrites.fileAt? fun mem => unwritten (List.mem_map_of_mem mem)
  rw [file] at file'
  rw [scanFile_ofNames tree (fileAt?_eq_some.1 file) known,
    scanFile_ofNames (rewrites.tree tree) (fileAt?_eq_some.1 file') known]

/-- Walks that keep the same files list the same paths. -/
theorem walk_again (tree : fs.IsTree) (rewrites : Overwrites written fs after)
    (lies : (fs.content? source).isSome) (keep : Path → Bool)
    (old : ∀ place ∈ written, Reaches source place → keep (.ofNames place) = true →
      (fs.fileAt? place).isSome) :
    after.walk (.ofNames source) keep = fs.walk (.ofNames source) keep := by
  obtain ⟨found, walked, increasing, mem⟩ := walk_ofNames tree lies keep
  obtain ⟨found', walked', increasing', mem'⟩ :=
    walk_ofNames (rewrites.tree tree) (rewrites.isSome_content? lies) keep
  have same : found' = found := by
    refine eq_of_increasing increasing' increasing fun path => ?_
    rw [mem', mem]
    exact rewrites.walks_iff keep old
  rw [walked, walked', same]

end FileSystem

namespace ProjectMap
open FileSystem
variable {fs after : FileSystem} {written : List (List String)} {source : List String}
  {patterns : List String} {map : ProjectMap}

/-- That a path is taken for a manifest. -/
def IsManifest (patterns : List String) (path : Path) : Prop :=
  ∃ globs name, (if patterns = [] then [defaultPattern] else patterns).mapM Glob.ofPattern =
    .ok globs ∧ path.fileName? = some name ∧ globs.any (·.accepts name) = true

/-- The projects stay the same, if the manifests at the written places were there. -/
theorem discover_again (tree : fs.IsTree) (rewrites : Overwrites written fs after)
    (lies : (fs.content? source).isSome)
    (old : ∀ place ∈ written, Reaches source place → IsManifest patterns (.ofNames place) →
      (fs.fileAt? place).isSome) :
    discover after (.ofNames source) patterns = discover fs (.ofNames source) patterns := by
  rw [discover, discover]
  cases compiled : (if patterns = [] then [defaultPattern] else patterns).mapM Glob.ofPattern with
  | error failure => rfl
  | ok globs =>
    simp only [bind, Except.bind]
    rw [walk_again tree rewrites lies]
    intro place mem reached kept
    refine old place mem reached ?_
    split at kept
    next name named => exact ⟨globs, name, compiled, named, kept⟩
    next => cases kept

/-- In a tree projects are found as soon as the patterns are ones. -/
theorem exists_discover (tree : after.IsTree) (lies : (after.content? source).isSome) {start : Path}
    (found : discover fs start patterns = .ok map) :
    ∃ map, discover after (.ofNames source) patterns = .ok map := by
  simp only [discover, bind, Except.bind, pure, Except.pure] at found ⊢
  split at found
  · cases found
  · split
    next failure stuck =>
      obtain ⟨_, walked, _⟩ := walk_ofNames tree lies _
      rw [walked] at stuck
      cases stuck
    next => exact ⟨_, rfl⟩

end ProjectMap
end Markers

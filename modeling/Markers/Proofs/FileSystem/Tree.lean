import Markers.Proofs.FileSystem.Below
import Markers.Proofs.Path
import Mathlib.Data.List.Induction
import Mathlib.Data.List.Infix

/-!
# Trees and the canonical paths in them

In a tree (`Node.IsTree`) the entries of a folder have names of their own, so what a name leads to
is the entry with that name. The canonical path of such names is spelled as joining them one by one
spells it (`Path.join_ofNames`), and leads to where the names do (`FileSystem.resolve_ofNames`).
Creating folders and writing files keeps a tree one (`FileAction.writeFile_isTree`), and leaves
files where files were (`FileSystem.Overwrites`).
-/

namespace Markers

/-- No part between separators has one. -/
theorem not_mem_of_mem_splitOn {sep : Char} {s part : List Char} (mem : part ∈ s.splitOn sep) :
    sep ∉ part := by
  induction s generalizing part with
  | nil =>
    rw [List.splitOn_nil, List.mem_singleton] at mem
    simp [mem]
  | cons c s ih =>
    rw [List.splitOn_cons_eq_if_modifyHead] at mem
    split at mem
    · rcases List.mem_cons.1 mem with rfl | mem
      · exact List.not_mem_nil
      · exact ih mem
    · next other =>
      cases split : s.splitOn sep with
      | nil => exact absurd split (List.splitOn_ne_nil sep s)
      | cons first more =>
        rw [split, List.modifyHead_cons] at mem
        rw [split] at ih
        rcases List.mem_cons.1 mem with rfl | mem
        · rw [List.mem_cons, not_or]
          exact ⟨fun same => other (by simp [same]), ih (List.mem_cons_self ..)⟩
        · exact ih (List.mem_cons_of_mem _ mem)

/-- That the entries of all folders are named, those of one folder differently. -/
inductive Node.IsTree : Node → Prop where
  | file (bytes : List UInt8) : IsTree (.file bytes)
  | folder {entries : List (String × Node)} (names : ∀ entry ∈ entries, IsEntryName entry.1)
      (distinct : (entries.map Prod.fst).Nodup) (inner : ∀ entry ∈ entries, entry.2.IsTree) :
      IsTree (.folder entries)

instance (name : String) : Decidable (IsEntryName name) :=
  decidable_of_iff (¬(name = "" ∨ name = "." ∨ name = "..") ∧ '/' ∉ name.toList)
    ⟨fun ⟨plain, slash⟩ => ⟨plain, slash⟩, fun ⟨plain, slash⟩ => ⟨plain, slash⟩⟩

namespace Node.IsTree
variable {node new child : Node} {entries : List (String × Node)} {names : List String}
  {name : String}

@[simp] theorem isTree_file (bytes : List UInt8) : IsTree (.file bytes) := .file bytes

theorem entries_names (tree : node.IsTree) : ∀ entry ∈ node.entries, IsEntryName entry.1 := by
  cases tree with
  | file => simp [Node.entries]
  | folder names => exact names

theorem entries_distinct (tree : node.IsTree) : (node.entries.map Prod.fst).Nodup := by
  cases tree with
  | file => exact List.nodup_nil
  | folder _ distinct => exact distinct

theorem entries_inner (tree : node.IsTree) : ∀ entry ∈ node.entries, entry.2.IsTree := by
  cases tree with
  | file => simp [Node.entries]
  | folder _ _ inner => exact inner

@[simp] theorem isTree_folder : IsTree (.folder entries) ↔
    (∀ entry ∈ entries, IsEntryName entry.1) ∧ (entries.map Prod.fst).Nodup ∧
      ∀ entry ∈ entries, entry.2.IsTree :=
  ⟨fun tree => ⟨tree.entries_names, tree.entries_distinct, tree.entries_inner⟩,
    fun ⟨names, distinct, inner⟩ => .folder names distinct inner⟩

/-- A name leads to the entry with that name. -/
theorem child?_eq_some_iff (tree : node.IsTree) :
    node.child? name = some child ↔ (name, child) ∈ node.entries := by
  have distinct := tree.entries_distinct
  rw [child?]
  generalize node.entries = entries at distinct
  induction entries with
  | nil => simp
  | cons entry entries ih =>
    obtain ⟨first, node⟩ := entry
    rw [List.map_cons, List.nodup_cons] at distinct
    rw [List.find?_cons, List.mem_cons, Prod.mk.injEq]
    by_cases here : first = name
    · subst here
      have others : (first, child) ∉ entries :=
        fun mem => distinct.1 (List.mem_map.2 ⟨_, mem, rfl⟩)
      simp [others, eq_comm]
    · simp only [beq_eq_false_iff_ne.2 here, ih distinct.2, Ne.symm here, false_and, false_or]

theorem child? (tree : node.IsTree) (found : node.child? name = some child) :
    IsEntryName name ∧ child.IsTree :=
  have mem := tree.child?_eq_some_iff.1 found
  ⟨tree.entries_names _ mem, tree.entries_inner _ mem⟩

/-- Whatever lies in a tree lies under names of entries. -/
theorem isEntryName_of_content? (tree : node.IsTree) (lies : (node.content? names).isSome) :
    ∀ name ∈ names, IsEntryName name := by
  induction names generalizing node with
  | nil => simp
  | cons first names ih =>
    rw [content?_cons] at lies
    cases found : node.child? first with
    | none => simp [found] at lies
    | some child =>
      rw [found, Option.bind_some] at lies
      obtain ⟨entry, inner⟩ := tree.child? found
      exact List.forall_mem_cons.2 ⟨entry, ih inner lies⟩

theorem setEntry (tree : IsTree (.folder entries)) (entry : IsEntryName name)
    (inner : new.IsTree) : IsTree (.folder (setEntry name new entries)) := by
  have names : ∀ old ∈ entries, IsEntryName old.1 := tree.entries_names
  have distinct : (entries.map Prod.fst).Nodup := tree.entries_distinct
  have trees : ∀ old ∈ entries, old.2.IsTree := tree.entries_inner
  unfold Node.setEntry
  split
  · have same : (entries.map fun old => if old.1 == name then (name, new) else old).map Prod.fst =
        entries.map Prod.fst := by
      rw [List.map_map]
      refine List.map_congr_left fun old _ => ?_
      simp only [Function.comp]
      split <;> simp_all
    refine .folder ?_ (same ▸ distinct) ?_
    · intro old mem
      obtain ⟨old, kept, rfl⟩ := List.mem_map.1 mem
      split
      · exact entry
      · exact names old kept
    · intro old mem
      obtain ⟨old, kept, rfl⟩ := List.mem_map.1 mem
      split
      · exact inner
      · exact trees old kept
  · next absent =>
    simp only [List.any_eq_true, beq_iff_eq, not_exists, not_and] at absent
    refine .folder ?_ ?_ ?_
    · intro old mem
      rcases List.mem_append.1 mem with mem | mem
      · exact names old mem
      · cases List.mem_singleton.1 mem
        exact entry
    · rw [List.map_append, List.nodup_append]
      refine ⟨distinct, by simp, fun a mem b last same => ?_⟩
      obtain ⟨old, kept, rfl⟩ := List.mem_map.1 mem
      rw [List.map_singleton, List.mem_singleton] at last
      exact absent old kept (same.trans last)
    · intro old mem
      rcases List.mem_append.1 mem with mem | mem
      · exact trees old mem
      · cases List.mem_singleton.1 mem
        exact inner

/-- A node put under names of entries keeps a tree one. -/
theorem put (tree : node.IsTree) (inner : new.IsTree) (named : ∀ name ∈ names, IsEntryName name) :
    (node.put new names).IsTree := by
  induction names generalizing node with
  | nil => exact inner
  | cons name names ih =>
    obtain ⟨entry, named⟩ := List.forall_mem_cons.1 named
    cases node with
    | file bytes => exact .file bytes
    | folder entries =>
      refine tree.setEntry entry (ih ?_ named)
      cases found : (Node.folder entries).child? name with
      | none => exact .folder (by simp) (by simp) (by simp)
      | some child => exact (tree.child? found).2

end Node.IsTree

/-! ## Canonical paths -/

namespace Path
variable {names front : List String} {name : String}

theorem segments_ofNames (named : ∀ name ∈ names, IsEntryName name) (inside : names ≠ []) :
    (ofNames names).segments = "" :: names := by
  have slashes : ∀ chars ∈ names.map String.toList, '/' ∉ chars := by
    intro chars mem
    obtain ⟨name, here, rfl⟩ := List.mem_map.1 mem
    exact (named name here).slash
  have split := List.splitOn_intercalate '/' slashes (by simpa using inside)
  have text : (ofNames names).text.toList =
      '/' :: ['/'].intercalate (names.map String.toList) := by
    rw [ofNames, String.toList_append, String.toList_intercalate]
    rfl
  rw [segments, text, List.splitOn_cons_eq_if_modifyHead, if_pos (by simp), split, List.map_cons,
    List.map_map]
  have same : String.ofList ∘ String.toList = id := funext fun _ => String.ofList_toList
  rw [same, List.map_id]

theorem text_ofNames_ne (names : List String) : (ofNames names).text ≠ "" := by
  intro blank
  have text := congrArg String.toList blank
  rw [ofNames, String.toList_append] at text
  simp at text

theorem parts_ofNames (named : ∀ name ∈ names, IsEntryName name) (inside : names ≠ []) :
    (ofNames names).parts = PathPart.first "" :: names.map PathPart.later :=
  parts_eq (text_ofNames_ne names) (segments_ofNames named inside)

/-- A canonical path names the root and then the names. -/
theorem components_ofNames (named : ∀ name ∈ names, IsEntryName name) :
    (ofNames names).components = .root :: names.map .name := by
  by_cases inside : names = []
  · subst inside
    rfl
  · have later : ∀ name ∈ names, (PathPart.later name).component? = some (.name name) :=
      fun name mem => component?_later (named name mem)
    have root : (PathPart.first "").component? = some .root := rfl
    rw [components, parts_ofNames named inside, List.filterMap_cons, root, List.filterMap_map]
    exact congrArg _ (List.filterMap_eq_map_iff_forall_eq_some.2 later)

theorem fileName?_ofNames (named : ∀ name ∈ names, IsEntryName name) :
    (ofNames names).fileName? = names.getLast? := by
  rw [fileName?, components_ofNames named]
  rcases List.eq_nil_or_concat names with rfl | ⟨front, last, rfl⟩
  · rfl
  · rw [List.concat_eq_append, List.map_append, List.map_singleton, ← List.cons_append,
      List.getLast?_concat, List.getLast?_concat]

theorem ofNames_inj {other : List String} (named : ∀ name ∈ names, IsEntryName name)
    (named' : ∀ name ∈ other, IsEntryName name) :
    ofNames names = ofNames other ↔ names = other := by
  refine ⟨fun same => ?_, fun same => same ▸ rfl⟩
  have parts := congrArg components same
  rw [components_ofNames named, components_ofNames named', List.cons.injEq] at parts
  exact (List.map_inj_right fun _ _ => Component.name.inj).1 parts.2

theorem mem_map_ofNames {places : List (List String)} (named : ∀ name ∈ names, IsEntryName name)
    (named' : ∀ place ∈ places, ∀ name ∈ place, IsEntryName name) :
    ofNames names ∈ places.map ofNames ↔ names ∈ places := by
  rw [List.mem_map]
  constructor
  · rintro ⟨place, mem, same⟩
    exact (ofNames_inj (named' place mem) named).1 same ▸ mem
  · exact fun mem => ⟨names, mem, rfl⟩

/-- A canonical path starts with another one if the names do. -/
theorem startsWith_ofNames (named : ∀ name ∈ names, IsEntryName name)
    (named' : ∀ name ∈ front, IsEntryName name) :
    (ofNames names).startsWith (ofNames front) = true ↔ front <+: names := by
  rw [startsWith, components_ofNames named, components_ofNames named', List.isPrefixOf_iff_prefix,
    List.cons_prefix_cons]
  rw [List.prefix_map_iff_of_injective fun _ _ => Component.name.inj]
  simp

theorem isAbsolute_ofNames (named : ∀ name ∈ names, IsEntryName name) :
    (ofNames names).isAbsolute = true := by
  rw [isAbsolute, components_ofNames named]
  rfl

/-- A name joined to a canonical path makes the canonical path of what it leads to. -/
theorem join_ofNames (named : ∀ name ∈ names, IsEntryName name) (entry : IsEntryName name) :
    (ofNames names).join ⟨name⟩ = ofNames (names ++ [name]) := by
  induction names using List.reverseRecOn generalizing name with
  | nil =>
    have slash : (ofNames []).text.endsWith '/' = true := by decide +kernel
    rw [join, not_isAbsolute_of_isEntryName entry, if_neg Bool.false_ne_true,
      if_neg (text_ofNames_ne []), if_pos slash, List.nil_append, ofNames, ofNames,
      String.intercalate_singleton]
    rfl
  | append_singleton front last ih =>
    have entry' := named last (by simp)
    have slash := not_endsWith_join (ofNames front) entry'
    rw [ih (fun name mem => named name (List.mem_append_left _ mem)) entry'] at slash
    have longer : "/".intercalate (front ++ [last] ++ [name]) =
        "/".intercalate (front ++ [last]) ++ "/" ++ name := by
      rw [String.intercalate_append_of_ne_nil (by simp) (by simp), String.intercalate_singleton]
    rw [join, not_isAbsolute_of_isEntryName entry, if_neg Bool.false_ne_true,
      if_neg (text_ofNames_ne _), if_neg (by simp [slash]), ofNames, ofNames, longer]
    simp only [String.append_assoc]

/-- Names joined to a canonical path make the canonical path of what they lead to. -/
theorem joinAll_ofNames {more : List String} (named : ∀ name ∈ names ++ more, IsEntryName name) :
    (ofNames names).joinAll more = ofNames (names ++ more) := by
  induction more generalizing names with
  | nil => rw [List.append_nil]; rfl
  | cons name more ih =>
    obtain ⟨front, entry, back⟩ : (∀ name ∈ names, IsEntryName name) ∧ IsEntryName name ∧
        ∀ name ∈ more, IsEntryName name := by
      simpa [or_imp, forall_and] using named
    have step : (ofNames names).joinAll (name :: more) =
        ((ofNames names).join ⟨name⟩).joinAll more := rfl
    rw [step, join_ofNames front entry, ih (by simpa [or_imp, forall_and] using ⟨front, entry, back⟩)]
    simp

end Path

namespace FileSystem
variable {fs : FileSystem} {names : List String}

/-- A canonical path names the place that its names do. -/
theorem location_ofNames (fs : FileSystem) (named : ∀ name ∈ names, IsEntryName name) :
    fs.location (.ofNames names) = names := by
  induction names using List.reverseRecOn with
  | nil =>
    rw [location, start, Path.isAbsolute_ofNames named]
    rfl
  | append_singleton front last ih =>
    have front' : ∀ name ∈ front, IsEntryName name :=
      fun name mem => named name (List.mem_append_left _ mem)
    have entry := named last (by simp)
    rw [← Path.join_ofNames front' entry, location_join fs _ entry, ih front']

/-- A folder can be entered under its canonical path. -/
theorem enters_ofNames (named : ∀ name ∈ names, IsEntryName name)
    (folder : fs.content? names = some .folder) : fs.Enters (.ofNames names) names := by
  induction names using List.reverseRecOn with
  | nil =>
    refine ⟨?_, folder⟩
    have segments : (Path.ofNames []).segments = List.replicate 2 "" := rfl
    rw [follow, Path.isAbsolute_ofNames named, segments]
    exact foldlM_enter_replicate 2 folder
  | append_singleton front last ih =>
    have front' : ∀ name ∈ front, IsEntryName name :=
      fun name mem => named name (List.mem_append_left _ mem)
    have entry := named last (by simp)
    have above : fs.content? front = some .folder :=
      Node.content?_eq_folder_of_append (List.cons_ne_nil _ _)
        (show (fs.content? (front ++ [last])).isSome by rw [folder]; rfl)
    rw [← Path.join_ofNames front' entry]
    exact (ih front' above).join entry folder

/-- What names lead to is found under their canonical path. -/
theorem resolve_ofNames (root : fs.content? [] = some .folder)
    (named : ∀ name ∈ names, IsEntryName name) (lies : (fs.content? names).isSome) :
    fs.resolve (.ofNames names) = .ok names := by
  rcases List.eq_nil_or_concat names with rfl | ⟨front, last, rfl⟩
  · exact resolve_eq_ok.2 ⟨Path.text_ofNames_ne [], (enters_ofNames named root).follow, lies⟩
  · rw [List.concat_eq_append] at *
    have front' : ∀ name ∈ front, IsEntryName name :=
      fun name mem => named name (List.mem_append_left _ mem)
    have entry := named last (by simp)
    have above : fs.content? front = some .folder :=
      Node.content?_eq_folder_of_append (List.cons_ne_nil _ _) lies
    rw [← Path.join_ofNames front' entry]
    exact (enters_ofNames front' above).resolve_join entry lies

/-- That a file system is a tree below a folder. -/
structure IsTree (fs : FileSystem) : Prop where
  root : fs.content? [] = some .folder
  tree : fs.root.IsTree

namespace IsTree
variable {after : FileSystem} {p : Path} {node : Node} {name : String} {place : List String}

theorem isEntryName (tree : fs.IsTree) (lies : (fs.content? names).isSome) :
    ∀ name ∈ names, IsEntryName name :=
  tree.tree.isEntryName_of_content? lies

/-- What is there is found under its canonical path. -/
theorem resolve_ofNames (tree : fs.IsTree) (lies : (fs.content? names).isSome) :
    fs.resolve (.ofNames names) = .ok names :=
  FileSystem.resolve_ofNames tree.root (tree.isEntryName lies) lies

/-- A file or an empty folder put into a folder keeps a tree one. -/
theorem put (tree : fs.IsTree) (lies : fs.place p = .ok (names, name)) (new : node.IsTree)
    (free : fs.content? (names ++ [name]) ≠ some .folder) (bare : node.entries = []) :
    IsTree { fs with root := fs.root.put node (names ++ [name]) } := by
  obtain ⟨_, plain, folder, front, split, _⟩ := place_eq_ok.1 lies
  have slash : '/' ∉ name.toList := by
    have mem : name ∈ (withoutSlashes p).segments := split ▸ List.mem_append_right _ (by simp)
    obtain ⟨chars, part, rfl⟩ := List.mem_map.1 mem
    rw [String.toList_ofList]
    exact not_mem_of_mem_splitOn part
  have named : ∀ part ∈ names ++ [name], IsEntryName part := by
    intro part mem
    rcases List.mem_append.1 mem with mem | mem
    · exact tree.isEntryName (by rw [folder]; rfl) part mem
    · cases List.mem_singleton.1 mem
      exact ⟨plain, slash⟩
  exact ⟨(changes_put node folder free bare).folder tree.root, tree.tree.put new named⟩

end IsTree
end FileSystem

namespace FileAction
open FileSystem
variable {fs after : FileSystem} {p : Path} {text : List Char}

theorem makeFolder_isTree (tree : fs.IsTree) {result : Except FileFault Unit}
    (ran : makeFolder p fs = (result, after)) : after.IsTree := by
  unfold makeFolder change at ran
  cases made : fs.makeFolder p with
  | ok new =>
    simp only [made] at ran
    cases ran
    obtain ⟨names, name, lies, free, rfl⟩ := makeFolder_eq_ok made
    exact tree.put lies (.folder (by simp) (by simp) (by simp)) (by simp [free]) rfl
  | error fault =>
    simp only [made] at ran
    split at ran
    next new same =>
      split at same
      · cases same; cases ran; exact tree
      · cases same
    next => cases ran; exact tree

theorem makeFoldersWithin_isTree (depth : Nat) (tree : fs.IsTree) {result : Except FileFault Unit}
    (ran : makeFoldersWithin p depth fs = (result, after)) : after.IsTree := by
  induction depth generalizing p fs result after with
  | zero => exact makeFolder_isTree tree ran
  | succ depth ih =>
    unfold makeFoldersWithin at ran
    split at ran
    next above _ _ =>
      by_cases here : above.text = ""
      · simp only [here, ne_eq, not_true_eq_false, if_false] at ran
        exact makeFolder_isTree tree ran
      · simp only [here, ne_eq, not_false_eq_true, if_true] at ran
        rcases bind_cases ran with ⟨fault, outer, rfl⟩ | ⟨_, mid, outer, inner⟩
        · exact ih tree outer
        · exact makeFolder_isTree (ih tree outer) inner
    next => exact makeFolder_isTree tree ran

theorem makeParents_isTree (tree : fs.IsTree) {result : Except Failure Unit}
    (ran : makeParents p fs = (result, after)) : after.IsTree := by
  unfold makeParents at ran
  cases parent : p.parent? with
  | none =>
    rw [parent] at ran
    cases ran
    exact tree
  | some folder =>
    simp only [parent] at ran
    split at ran
    · rw [← (Prod.mk.inj ran).2]
      exact makeFoldersWithin_isTree _ tree rfl
    · cases ran
      exact tree

/-- Writing a file keeps a tree one. -/
theorem writeFile_isTree (tree : fs.IsTree) (ran : writeFile p text fs = (.ok (), after)) :
    after.IsTree := by
  obtain ⟨mid, parents, wrote⟩ := writeFile_eq_ok.1 ran
  obtain ⟨names, name, lies, _, free, rfl⟩ := writeBytes_eq_ok.1 wrote
  exact (makeParents_isTree tree parents).put lies (.file _) free rfl

end FileAction

namespace FileSystem
variable {fs mid after : FileSystem} {written : List (List String)} {place : List String}

/-- Changes that leave a file where one was, and a tree where one was. -/
structure Overwrites (written : List (List String)) (fs after : FileSystem) : Prop
    extends Changes written fs after where
  file : ∀ {place}, (fs.fileAt? place).isSome → (after.fileAt? place).isSome
  tree : fs.IsTree → after.IsTree

namespace Overwrites

theorem refl (written : List (List String)) (fs : FileSystem) : Overwrites written fs fs :=
  ⟨.refl written fs, id, id⟩

theorem trans (first : Overwrites written fs mid) (second : Overwrites written mid after) :
    Overwrites written fs after :=
  ⟨first.toChanges.trans second.toChanges, second.file ∘ first.file, second.tree ∘ first.tree⟩

theorem mono {more : List (List String)} (rewrites : Overwrites written fs after)
    (subset : written ⊆ more) : Overwrites more fs after :=
  ⟨rewrites.toChanges.mono subset, rewrites.file, rewrites.tree⟩

/-- What was there is still there. -/
theorem isSome_content? (rewrites : Overwrites written fs after)
    (lies : (fs.content? place).isSome) : (after.content? place).isSome := by
  obtain ⟨content, lies⟩ := Option.isSome_iff_exists.1 lies
  cases content with
  | folder => rw [rewrites.folder lies]; rfl
  | file bytes =>
    have file : (fs.fileAt? place).isSome := by rw [fileAt?_eq_some.2 lies]; rfl
    exact isSome_content?_of_fileAt? (rewrites.file file)

theorem resolve {p : Path} (rewrites : Overwrites written fs after)
    (resolved : fs.resolve p = .ok place) : after.resolve p = .ok place := by
  obtain ⟨text, followed, lies⟩ := resolve_eq_ok.1 resolved
  exact resolve_eq_ok.2 ⟨text, rewrites.follow followed, rewrites.isSome_content? lies⟩

end Overwrites

/-- Writing a file leaves a file where one was. -/
theorem overwrites_of_writeFile {p : Path} {text : List Char}
    (ran : FileAction.writeFile p text fs = (.ok (), after)) :
    Overwrites [fs.location p] fs after := by
  obtain ⟨changes, wrote⟩ := FileAction.writeFile_changes ran
  refine ⟨changes, fun {place} file => ?_, fun tree => FileAction.writeFile_isTree tree ran⟩
  by_cases here : place = fs.location p
  · rw [here, fileAt?_eq_some.2 wrote.file]
    rfl
  · rw [changes.fileAt? (by simpa using here)]
    exact file

end FileSystem
end Markers

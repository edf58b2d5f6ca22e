import Markers.Proofs.FileSystem.Change

/-!
# Paths below a folder

A name joined to a path is one more segment behind those of the path (`segments_join`) and one more
component (`components_join`), so what the longer path stands for lies below what the path stands
for (`location_join`). From a folder that can be entered (`Enters`) everything in it can be reached
under its name, and everything below it under its names (`Path.joinAll`).
-/

namespace Markers

/-- That a text is the name of a file or folder. -/
structure IsEntryName (name : String) : Prop where
  plain : ¬(name = "" ∨ name = "." ∨ name = "..")
  slash : '/' ∉ name.toList

namespace Path
variable {base p : Path} {name : String}

theorem segments_ne_nil (p : Path) : p.segments ≠ [] := by
  simp [segments, List.splitOn_ne_nil]

/-- A path starts at the root when nothing stands in front of its first slash. -/
theorem isAbsolute_eq (p : Path) :
    p.isAbsolute = (decide (p.text ≠ "") && decide (p.segments.head? = some "")) := by
  unfold isAbsolute components parts
  by_cases blank : p.text = ""
  · simp [blank]
  · simp only [blank, if_false, ne_eq, not_false_eq_true, decide_true, Bool.true_and]
    change _ = decide (((p.text.toList.splitOn '/').map String.ofList).head? = some "")
    cases split : (p.text.toList.splitOn '/').map String.ofList with
    | nil => simp
    | cons first more =>
      simp only [List.filterMap_cons, PathPart.first, List.head?_cons]
      by_cases root : first = ""
      · simp [root]
      · by_cases here : first = "."
        · simp [here]
        · by_cases up : first = ".." <;> simp [root, here, up]

theorem segments_of_isEntryName (entry : IsEntryName name) : (Path.mk name).segments = [name] := by
  rw [segments, show ((Path.mk name).text.toList.splitOn '/') = [name.toList] from
    List.splitOn_eq_singleton entry.slash]
  simp

theorem not_isAbsolute_of_isEntryName (entry : IsEntryName name) :
    (Path.mk name).isAbsolute = false := by
  rw [isAbsolute_eq, segments_of_isEntryName entry]
  have ne : name ≠ "" := fun blank => entry.plain (.inl blank)
  simp [ne]

theorem isAbsolute_congr {p q : Path} (text : p.text ≠ "") (text' : q.text ≠ "")
    (head : p.segments.head? = q.segments.head?) : p.isAbsolute = q.isAbsolute := by
  rw [isAbsolute_eq, isAbsolute_eq, head]
  simp [text, text']

/-- A text behind a slash adds its segments to those in front of the slash. -/
theorem segments_append_slash (front more : List Char) :
    (Path.mk (String.ofList (front ++ '/' :: more))).segments =
      (Path.mk (String.ofList front)).segments ++ (Path.mk (String.ofList more)).segments := by
  simp only [segments, String.toList_ofList]
  rw [List.splitOn_append_cons_self, List.map_append]

theorem text_ne_of_segments {front : List String} (split : p.segments = front ++ [name])
    (entry : IsEntryName name) : p.text ≠ "" := by
  intro blank
  have segments : p.segments = [""] := by
    rw [Path.segments, blank]
    rfl
  rw [split, List.append_eq_singleton_iff] at segments
  rcases segments with ⟨_, last⟩ | ⟨_, last⟩
  · exact entry.plain (.inl (List.singleton_inj.1 last))
  · simp at last

/-- A name joined to a path without a slash at its end is one more segment. -/
theorem segments_join_of_not_endsWith (entry : IsEntryName name) (text : base.text ≠ "")
    (slash : base.text.endsWith '/' = false) :
    (base.join ⟨name⟩).segments = base.segments ++ [name] := by
  have joined : base.join ⟨name⟩ = ⟨String.ofList (base.text.toList ++ '/' :: name.toList)⟩ := by
    rw [join, not_isAbsolute_of_isEntryName entry]
    simp [text, slash, ← String.toList_inj]
  rw [joined, segments_append_slash, String.ofList_toList, String.ofList_toList,
    segments_of_isEntryName entry]

/-- A name joined to a path stands behind the segments of the path, apart from an empty one at their
end. -/
theorem segments_join (base : Path) (entry : IsEntryName name) :
    ∃ front count, base.segments = front ++ List.replicate count "" ∧
      (base.join ⟨name⟩).segments = front ++ [name] ∧
      (base.join ⟨name⟩).isAbsolute = base.isAbsolute := by
  have alone := segments_of_isEntryName entry
  have relative := not_isAbsolute_of_isEntryName entry
  by_cases blank : base.text = ""
  · have joined : base.join ⟨name⟩ = ⟨name⟩ := by simp [join, relative, blank]
    refine ⟨[], 1, ?_, by rw [joined, alone]; rfl, ?_⟩
    · simp [segments, blank]
    · rw [joined, relative, isAbsolute_eq]
      simp [blank]
  -- both paths begin alike
  have absolute {front : List String} {count : Nat} (first : front ≠ [])
      (split : base.segments = front ++ List.replicate count "")
      (joined : (base.join ⟨name⟩).segments = front ++ [name]) :
      (base.join ⟨name⟩).isAbsolute = base.isAbsolute := by
    obtain ⟨head, more, rfl⟩ := List.exists_cons_of_ne_nil first
    exact isAbsolute_congr (text_ne_of_segments joined entry) blank (by rw [joined, split]; rfl)
  cases slash : base.text.endsWith '/' with
  | false =>
    have split : base.segments = base.segments ++ List.replicate 0 "" := by simp
    have joined := segments_join_of_not_endsWith entry blank slash
    exact ⟨_, 0, split, joined, absolute (segments_ne_nil base) split joined⟩
  | true =>
    have last := slash
    rw [String.endsWith_char_eq_getLast?, beq_iff_eq] at last
    obtain ⟨front, same⟩ := List.getLast?_eq_some_iff.1 last
    have text : base = ⟨String.ofList (front ++ ['/'])⟩ := by
      rw [← same, String.ofList_toList]
    have split : base.segments =
        (Path.mk (String.ofList front)).segments ++ List.replicate 1 "" := by
      rw [text, segments_append_slash]
      rfl
    have longer : base.join ⟨name⟩ = ⟨String.ofList (front ++ '/' :: name.toList)⟩ := by
      rw [join, relative, if_neg Bool.false_ne_true, if_neg blank, if_pos slash]
      simp [same, ← String.toList_inj]
    have joined : (base.join ⟨name⟩).segments =
        (Path.mk (String.ofList front)).segments ++ [name] := by
      rw [longer, segments_append_slash, String.ofList_toList, alone]
    exact ⟨_, 1, split, joined, absolute (segments_ne_nil _) split joined⟩

theorem intercalate_segments (p : Path) : "/".intercalate p.segments = p.text := by
  rw [← String.toList_inj, String.toList_intercalate, segments, List.map_map]
  have same : String.toList ∘ String.ofList = id := funext fun _ => String.toList_ofList
  rw [same, List.map_id]
  exact List.intercalate_splitOn '/'

theorem text_join_ne (base : Path) (entry : IsEntryName name) : (base.join ⟨name⟩).text ≠ "" := by
  obtain ⟨front, _, _, joined, _⟩ := segments_join base entry
  exact text_ne_of_segments joined entry

theorem not_endsWith_join (base : Path) (entry : IsEntryName name) :
    (base.join ⟨name⟩).text.endsWith '/' = false := by
  obtain ⟨front, _, _, joined, _⟩ := segments_join base entry
  cases slash : (base.join ⟨name⟩).text.endsWith '/' with
  | false => rfl
  | true =>
    rw [String.endsWith_char_eq_getLast?, beq_iff_eq] at slash
    obtain ⟨text, same⟩ := List.getLast?_eq_some_iff.1 slash
    have split := segments_append_slash text []
    rw [← same, String.ofList_toList, joined] at split
    have last := (List.append_inj' split rfl).2
    exact absurd (List.singleton_inj.1 last) fun blank => entry.plain (.inl blank)

theorem parts_eq {first : String} {more : List String} (text : p.text ≠ "")
    (split : p.segments = first :: more) :
    p.parts = PathPart.first first :: more.map PathPart.later := by
  rw [parts, if_neg text, show (p.text.toList.splitOn '/').map String.ofList = _ from split]

theorem text_parts (p : Path) (text : p.text ≠ "") : p.parts.map PathPart.text = p.segments := by
  obtain ⟨first, more, split⟩ := List.exists_cons_of_ne_nil (segments_ne_nil p)
  rw [parts_eq text split, split, List.map_cons, List.map_map]
  have same : PathPart.text ∘ PathPart.later = id := rfl
  rw [same, List.map_id]
  rfl

theorem component?_first (entry : IsEntryName name) :
    (PathPart.first name).component? = some (.name name) := by
  have plain := entry.plain
  simp only [not_or] at plain
  simp [PathPart.first, plain]

theorem component?_later (entry : IsEntryName name) :
    (PathPart.later name).component? = some (.name name) := by
  have plain := entry.plain
  simp only [not_or] at plain
  simp [PathPart.later, plain]

/-- A path that a name was joined to ends in that name. -/
theorem exists_parts_join (base : Path) (entry : IsEntryName name) :
    ∃ front part, (base.join ⟨name⟩).parts = front ++ [part] ∧
      part.component? = some (.name name) ∧ part.text = name := by
  obtain ⟨front, _, _, joined, _⟩ := segments_join base entry
  have text := text_join_ne base entry
  cases front with
  | nil => exact ⟨[], _, parts_eq text joined, component?_first entry, rfl⟩
  | cons first front =>
    rw [List.cons_append] at joined
    refine ⟨PathPart.first first :: front.map PathPart.later, PathPart.later name, ?_,
      component?_later entry, rfl⟩
    rw [parts_eq text joined, List.map_append]
    rfl

/-- A name joined to a path is one more component. -/
theorem components_join (base : Path) (entry : IsEntryName name) :
    (base.join ⟨name⟩).components = base.components ++ [.name name] := by
  obtain ⟨front, count, split, joined, absolute⟩ := segments_join base entry
  have text := text_join_ne base entry
  by_cases empty : base.text = ""
  · have alone : base.join ⟨name⟩ = ⟨name⟩ := by
      simp [join, not_isAbsolute_of_isEntryName entry, empty]
    have parts : (base.join ⟨name⟩).parts = [PathPart.first name] := by
      rw [alone] at text ⊢
      exact parts_eq text (segments_of_isEntryName entry)
    have bare : base.components = [] := by
      rw [components, Path.parts, if_pos empty]
      rfl
    rw [bare, components, parts, List.filterMap_cons_some (component?_first entry)]
    rfl
  cases front with
  | nil =>
    -- a text of slashes alone is absolute, and a name is not
    obtain ⟨first, more, given⟩ := List.exists_cons_of_ne_nil (segments_ne_nil base)
    have root : first = "" := by
      have mem : first ∈ base.segments := given ▸ List.mem_cons_self ..
      rw [split, List.nil_append] at mem
      exact (List.mem_replicate.1 mem).2
    have named : name ≠ "" := fun blank => entry.plain (.inl blank)
    rw [isAbsolute_eq, isAbsolute_eq, joined, given, root] at absolute
    simp [empty, named] at absolute
  | cons first more =>
    rw [List.cons_append] at split joined
    have slashes : (PathPart.later "").component? = none := rfl
    have bare : (List.replicate count (PathPart.later "")).filterMap PathPart.component? = [] :=
      List.filterMap_replicate_of_none slashes
    rw [components, components, parts_eq text joined, parts_eq empty split]
    simp only [List.map_append, List.map_replicate, List.map_singleton, ← List.cons_append,
      List.filterMap_append, bare, List.append_nil]
    rw [List.filterMap_cons_some (component?_later entry), List.filterMap_nil]

/-- The path of names below a path. -/
def joinAll (base : Path) (names : List String) : Path :=
  names.foldl (fun path name => path.join ⟨name⟩) base

theorem components_joinAll {names : List String} (base : Path)
    (named : ∀ name ∈ names, IsEntryName name) :
    (base.joinAll names).components = base.components ++ names.map .name := by
  induction names generalizing base with
  | nil => simp [joinAll]
  | cons name names ih =>
    obtain ⟨entry, named⟩ := List.forall_mem_cons.1 named
    rw [show base.joinAll (name :: names) = (base.join ⟨name⟩).joinAll names from rfl,
      ih _ named, components_join base entry, List.append_assoc]
    rfl

/-- Names below a path are told apart by the components of their paths. -/
theorem eq_of_components_joinAll {names other : List String} {base : Path}
    (named : ∀ name ∈ names, IsEntryName name) (named' : ∀ name ∈ other, IsEntryName name)
    (same : (base.joinAll names).components = (base.joinAll other).components) : names = other := by
  rw [components_joinAll base named, components_joinAll base named', List.append_cancel_left_eq] at same
  exact (List.map_inj_right fun _ _ => Component.name.inj).1 same

theorem trimParts_concat {front : List PathPart} {part : PathPart} (full : part.isEmpty = false) :
    trimParts (front ++ [part]) = front ++ [part] := by
  rw [trimParts, List.reverse_append, List.reverse_singleton, List.singleton_append,
    List.dropWhile_cons_of_neg (by simp [full]), List.reverse_cons, List.reverse_reverse]

theorem ofParts_of_text_ne {parts : List PathPart}
    (named : ∀ component?, parts ≠ [⟨"", component?⟩]) :
    ofParts parts = ⟨"/".intercalate (parts.map PathPart.text)⟩ := by
  unfold ofParts
  split
  next component? => exact absurd rfl (named component?)
  next => rfl

/-- What a name was joined to is found again above it. -/
theorem parent?_join {inner : String} (base : Path) (entry : IsEntryName name)
    (entry' : IsEntryName inner) :
    ((base.join ⟨name⟩).join ⟨inner⟩).parent? = some (base.join ⟨name⟩) := by
  have text := text_join_ne base entry
  obtain ⟨front, part, split, component, partText⟩ := exists_parts_join base entry
  have joined := segments_join_of_not_endsWith entry' text (not_endsWith_join base entry)
  have parts : ((base.join ⟨name⟩).join ⟨inner⟩).parts =
      (base.join ⟨name⟩).parts ++ [PathPart.later inner] := by
    obtain ⟨first, more, same⟩ := List.exists_cons_of_ne_nil (segments_ne_nil (base.join ⟨name⟩))
    rw [same, List.cons_append] at joined
    rw [parts_eq (text_join_ne _ entry') joined, parts_eq text same, List.map_append]
    rfl
  have last := component?_later entry'
  have components : ((base.join ⟨name⟩).join ⟨inner⟩).components.getLast? = some (.name inner) := by
    rw [components_join _ entry', List.getLast?_concat]
  rw [parent?, components]
  simp only [parts]
  rw [trimParts_concat (by simp [PathPart.isEmpty, last]), List.dropLast_concat, split,
    trimParts_concat (by simp [PathPart.isEmpty, component]), ofParts_of_text_ne, ← split,
    text_parts _ text, intercalate_segments]
  intro component? same
  have last := congrArg List.getLast? same
  rw [List.getLast?_concat, List.getLast?_singleton] at last
  exact entry.plain (.inl (by rw [← partText, Option.some.inj last]))

end Path

namespace FileSystem
variable {fs after : FileSystem} {base : Path} {name inner : String} {place : List String}

/-- What a name joined to a path stands for lies below what the path stands for. -/
theorem location_join (fs : FileSystem) (base : Path) (entry : IsEntryName name) :
    fs.location (base.join ⟨name⟩) = fs.location base ++ [name] := by
  obtain ⟨front, count, split, joined, absolute⟩ := Path.segments_join base entry
  rw [location, location, start, start, joined, split, absolute, List.foldl_append,
    List.foldl_append, Path.foldl_step_replicate]
  exact Path.step_name entry.plain _

/-- That the way to a folder can be gone. -/
structure Enters (fs : FileSystem) (p : Path) (place : List String) : Prop where
  follow : fs.follow p p.segments = .ok place
  folder : fs.content? place = some .folder

/-- A folder that can be entered exists, if its path has a text. -/
theorem Enters.exists? (enters : fs.Enters base place)
    (text : base.text ≠ "") : fs.exists? base = true :=
  exists?_iff.2 ⟨place, resolve_eq_ok.2 ⟨text, enters.follow, by rw [enters.folder]; rfl⟩⟩

/-- What is found under a joined name lies in a folder that can be entered. -/
theorem enters_of_resolve_join (entry : IsEntryName name)
    (resolved : fs.resolve (base.join ⟨name⟩) = .ok place) :
    fs.Enters base (fs.location base) := by
  obtain ⟨front, count, split, joined, absolute⟩ := Path.segments_join base entry
  obtain ⟨_, followed, _⟩ := resolve_eq_ok.1 resolved
  rw [joined, follow_append] at followed
  obtain ⟨between, followed, last⟩ := followed
  have folder := (foldlM_enter_cons.1 last).1
  have way : fs.follow base base.segments = .ok between := by
    rw [split, follow_append]
    refine ⟨between, ?_, foldlM_enter_replicate count folder⟩
    rw [FileSystem.follow, ← absolute]
    exact followed
  have here : fs.location base = between := foldl_step_of_foldlM_enter way
  exact here ▸ ⟨way, folder⟩

/-- The way from a folder to a name in it. -/
theorem Enters.follow_join (enters : fs.Enters base place) (entry : IsEntryName name) :
    fs.follow (base.join ⟨name⟩) (base.join ⟨name⟩).segments = .ok (place ++ [name]) := by
  obtain ⟨front, count, split, joined, absolute⟩ := Path.segments_join base entry
  have followed := enters.follow
  rw [split, follow_append] at followed
  obtain ⟨between, followed, slashes⟩ := followed
  have here : between = place := by
    have := foldl_step_of_foldlM_enter slashes
    rwa [Path.foldl_step_replicate] at this
  subst here
  rw [joined, follow_append]
  refine ⟨between, ?_, ?_⟩
  · rw [FileSystem.follow, absolute]
    exact followed
  · rw [foldlM_enter_cons, Path.step_name entry.plain]
    exact ⟨enters.folder, rfl⟩

/-- What lies in a folder is found under its name. -/
theorem Enters.resolve_join (enters : fs.Enters base place) (entry : IsEntryName name)
    (lies : (fs.content? (place ++ [name])).isSome) :
    fs.resolve (base.join ⟨name⟩) = .ok (place ++ [name]) :=
  resolve_eq_ok.2 ⟨Path.text_join_ne base entry, enters.follow_join entry, lies⟩

/-- A folder in a folder can be entered. -/
theorem Enters.join (enters : fs.Enters base place) (entry : IsEntryName name)
    (folder : fs.content? (place ++ [name]) = some .folder) :
    fs.Enters (base.join ⟨name⟩) (place ++ [name]) :=
  ⟨enters.follow_join entry, folder⟩

/-- What lies below a folder that can be entered is found under its names. -/
theorem Enters.resolve_joinAll {names : List String} (enters : fs.Enters base place)
    (named : ∀ name ∈ names, IsEntryName name) (inside : names ≠ [])
    (lies : (fs.content? (place ++ names)).isSome) :
    fs.resolve (base.joinAll names) = .ok (place ++ names) := by
  induction names generalizing base place with
  | nil => exact absurd rfl inside
  | cons name names ih =>
    obtain ⟨entry, named⟩ := List.forall_mem_cons.1 named
    have longer : place ++ name :: names = place ++ [name] ++ names := by simp
    rw [longer] at lies ⊢
    cases names with
    | nil =>
      rw [List.append_nil] at lies ⊢
      exact enters.resolve_join entry lies
    | cons next names =>
      have above := Node.content?_eq_folder_of_append (List.cons_ne_nil next names) lies
      exact ih (enters.join entry above) named (List.cons_ne_nil _ _) lies

theorem Changes.enters {written : List (List String)} (changes : Changes written fs after)
    (enters : fs.Enters base place) : after.Enters base place :=
  ⟨changes.follow enters.follow, changes.folder enters.folder⟩

/-- Something new under a name in a folder lies in that folder. -/
theorem Enters.place_join (enters : fs.Enters base place) (entry : IsEntryName name) :
    fs.place (base.join ⟨name⟩) = .ok (place, name) := by
  have slash := Path.not_endsWith_join base entry
  obtain ⟨front, _, split, joined, absolute⟩ := Path.segments_join base entry
  have followed := enters.follow_join entry
  rw [joined, follow_append] at followed
  obtain ⟨between, followed, last⟩ := followed
  have here : between = place := by
    have := (foldlM_enter_cons.1 last).2
    rw [Path.step_name entry.plain] at this
    exact (List.append_inj' (Except.ok.inj this) rfl).1
  subst here
  rw [← withoutSlashes_of_not_endsWith slash] at joined
  exact place_eq_ok.2
    ⟨Path.text_join_ne base entry, entry.plain, enters.folder, front, joined, followed⟩

/-- A folder in a folder is there already, or it can be created. -/
theorem Enters.makeFolder_join (enters : fs.Enters base place) (entry : IsEntryName name) :
    fs.makeFolder (base.join ⟨name⟩) = .error .alreadyExists ∨
      fs.content? (place ++ [name]) = none ∧ fs.makeFolder (base.join ⟨name⟩) =
        .ok { fs with root := fs.root.put (.folder []) (place ++ [name]) } := by
  simp only [FileSystem.makeFolder, enters.place_join entry, bind, Except.bind, pure, Except.pure,
    throw, throwThe, MonadExceptOf.throw]
  cases fs.exists? (base.join ⟨name⟩) with
  | true => exact .inl rfl
  | false =>
    cases lies : fs.node? (place ++ [name]) with
    | some node => exact .inl rfl
    | none => exact .inr ⟨node?_eq_none.1 lies, rfl⟩

/-- Creating a folder in a folder changes nothing else. -/
theorem Enters.makeFolders_join (enters : fs.Enters base place) (entry : IsEntryName name)
    {result : Except FileFault Unit}
    (ran : FileAction.makeFolders (base.join ⟨name⟩) fs = (result, after)) {other : List String}
    (elsewhere : other ≠ place ++ [name]) : after.content? other = fs.content? other := by
  -- the folder above is there, so none above it is missing
  have single (depth : Nat) : FileAction.makeFoldersWithin (base.join ⟨name⟩) depth fs =
      FileAction.makeFolder (base.join ⟨name⟩) fs := by
    cases depth with
    | zero => rfl
    | succ depth =>
      rcases enters.makeFolder_join entry with there | ⟨_, made⟩
      · simp only [FileAction.makeFoldersWithin, there]
      · simp only [FileAction.makeFoldersWithin, made]
  rw [FileAction.makeFolders, single] at ran
  unfold FileAction.makeFolder FileAction.change at ran
  rcases enters.makeFolder_join entry with there | ⟨free, made⟩
  · simp only [there] at ran
    split at ran
    next new same =>
      split at same
      · cases same; cases ran; rfl
      · cases same
    next => cases ran; rfl
  · simp only [made] at ran
    cases ran
    rw [content?, Node.content?_put enters.folder (by rw [← content?, free]; simp) rfl,
      if_neg elsewhere]
    rfl

theorem Enters.eq_location (enters : fs.Enters base place) : fs.location base = place :=
  foldl_step_of_foldlM_enter enters.follow

/-- Writing a file into a folder of a folder changes nothing but those two. -/
theorem Enters.writeFile_join {text : List Char} (enters : fs.Enters base place)
    (entry : IsEntryName name) (entry' : IsEntryName inner)
    (ran : FileAction.writeFile ((base.join ⟨name⟩).join ⟨inner⟩) text fs = (.ok (), after))
    {other : List String} (elsewhere : other ≠ place ++ [name])
    (elsewhere' : other ≠ place ++ [name] ++ [inner]) :
    after.content? other = fs.content? other := by
  obtain ⟨mid, parents, wrote⟩ := FileAction.writeFile_eq_ok.1 ran
  have changes := (FileAction.makeParents_changes parents).1
  have made : mid.content? other = fs.content? other := by
    unfold FileAction.makeParents at parents
    simp only [Path.parent?_join base entry entry', Path.text_join_ne base entry, ne_eq,
      not_false_eq_true, if_true, FileAction.mapError] at parents
    cases ran : FileAction.makeFolders (base.join ⟨name⟩) fs with
    | mk result new =>
      rw [ran] at parents
      cases (Prod.mk.inj parents).2
      exact enters.makeFolders_join entry ran elsewhere
  obtain ⟨names, last, lies, slash, free, rfl⟩ := writeBytes_eq_ok.1 wrote
  have here : names ++ [last] = place ++ [name] ++ [inner] := by
    rw [← location_of_place lies slash, location_join _ _ entry', location_join _ _ entry,
      (changes.enters enters).eq_location]
  have folder := (place_eq_ok.1 lies).2.2.1
  rw [← made, content?, Node.content?_put folder free rfl, if_neg (here ▸ elsewhere')]
  rfl

end FileSystem
end Markers

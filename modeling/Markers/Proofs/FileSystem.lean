import Markers.FileSystem

/-!
# What lies where

Every operation of a file system looks at its tree through `FileSystem.content?` alone: whether
names lead to a folder, to a file with which bytes, or to nothing. `Node.content?_put` says what a
new file or folder changes, which is one place. A path stands for at most one place, its `location`,
which the tree does not decide; the tree decides whether the way there can be gone (`follow`).
-/

namespace Markers

/-- What lies at a place, without the entries of a folder. -/
inductive Content where
  | folder
  | file (bytes : List UInt8)
deriving DecidableEq, Repr

namespace Node

/-- What a node is. -/
def content : Node → Content
  | folder _ => .folder
  | file bytes => .file bytes

/-- What names lead to from a node. -/
def content? (node : Node) (names : List String) : Option Content :=
  (node.descend? names).map content

@[simp] theorem content?_nil (node : Node) : node.content? [] = some node.content :=
  rfl

theorem content?_cons (node : Node) (name : String) (names : List String) :
    node.content? (name :: names) = (node.child? name).bind fun child => child.content? names := by
  rw [content?, descend?]
  cases node.child? name <;> rfl

theorem child?_of_entries_eq_nil {node : Node} (bare : node.entries = []) (name : String) :
    node.child? name = none := by
  rw [child?, bare]
  rfl

theorem content?_of_entries_eq_nil {node : Node} (bare : node.entries = []) {names : List String}
    (inside : names ≠ []) : node.content? names = none := by
  cases names with
  | nil => exact absurd rfl inside
  | cons name names => rw [content?_cons, child?_of_entries_eq_nil bare, Option.bind_none]

theorem entries_eq_nil_of_content_ne {node : Node} (ne : node.content ≠ .folder) :
    node.entries = [] := by
  cases node with
  | file => rfl
  | folder => exact absurd rfl ne

/-- A new entry is found under its name, the others under theirs. -/
theorem child?_setEntry (name other : String) (new : Node) (entries : List (String × Node)) :
    (folder (setEntry name new entries)).child? other =
      if other = name then some new else (folder entries).child? other := by
  simp only [child?, Node.entries, setEntry]
  split
  next found =>
    rw [List.find?_map]
    -- the name of an entry stays, so the same entry is found
    have same : (fun entry : String × Node => entry.1 == other) ∘
        (fun entry => if entry.1 == name then (name, new) else entry) =
          fun entry => entry.1 == other := by
      funext entry
      simp only [Function.comp]
      split <;> simp_all
    rw [same]
    cases first : entries.find? (·.1 == other) with
    | none =>
      split
      next eq =>
        subst eq
        obtain ⟨entry, mem, here⟩ := List.any_eq_true.1 found
        exact absurd here (List.find?_eq_none.1 first entry mem)
      next => rfl
    | some entry =>
      have here := List.find?_some first
      simp only [beq_iff_eq] at here
      by_cases eq : other = name <;> simp [here, eq]
  next absent =>
    rw [List.find?_append]
    split
    next eq =>
      subst eq
      have none : entries.find? (·.1 == other) = none :=
        List.find?_eq_none.2 fun entry mem here => absent (List.any_eq_true.2 ⟨entry, mem, here⟩)
      simp [none]
    next ne => simp [Ne.symm ne]

/-- What lies below a folder can only lie there because the folder does. -/
theorem content?_eq_folder_of_append {node : Node} {names more : List String} (inside : more ≠ [])
    (lies : (node.content? (names ++ more)).isSome) : node.content? names = some .folder := by
  induction names generalizing node with
  | nil =>
    by_cases folder : node.content = .folder
    · rw [content?_nil, folder]
    · rw [List.nil_append,
        content?_of_entries_eq_nil (entries_eq_nil_of_content_ne folder) inside] at lies
      exact absurd lies (by simp)
  | cons name names ih =>
    rw [List.cons_append, content?_cons] at lies
    rw [content?_cons]
    cases child : node.child? name with
    | none => simp [child] at lies
    | some next =>
      rw [child, Option.bind_some] at lies
      exact ih lies

/-- A new node under a name of a folder, in place of a file or of nothing, changes what lies at that
place and nothing else. -/
theorem content?_put {node new : Node} {names : List String} {name : String}
    (folder : node.content? names = some .folder)
    (free : node.content? (names ++ [name]) ≠ some .folder) (bare : new.entries = [])
    (place : List String) :
    (node.put new (names ++ [name])).content? place =
      if place = names ++ [name] then some new.content else node.content? place := by
  induction names generalizing node place with
  | nil =>
    cases node with
    | file => simp [content] at folder
    | folder entries =>
      simp only [List.nil_append, put]
      cases place with
      | nil => simp [content]
      | cons first rest =>
        rw [content?_cons, content?_cons, child?_setEntry]
        by_cases here : first = name
        · subst here
          rw [List.nil_append, content?_cons] at free
          cases rest with
          | nil => simp
          | cons next rest =>
            -- what was at the place is no folder, so nothing lay below it
            have old : ((Node.folder entries).child? first).bind
                (fun child => child.content? (next :: rest)) = none := by
              cases child : (Node.folder entries).child? first with
              | none => rfl
              | some old =>
                have ne : old.content ≠ .folder := by
                  intro eq
                  simp [child, eq] at free
                exact content?_of_entries_eq_nil (entries_eq_nil_of_content_ne ne) (by simp)
            rw [old, if_pos rfl, Option.bind_some, content?_of_entries_eq_nil bare (by simp)]
            simp
        · simp [here]
  | cons top names ih =>
    cases node with
    | file => simp [content?_cons, child?, Node.entries] at folder
    | folder entries =>
      rw [content?_cons] at folder
      rw [List.cons_append, content?_cons] at free
      obtain ⟨child, found, inside⟩ := Option.bind_eq_some_iff.1 folder
      rw [found, Option.bind_some] at free
      simp only [List.cons_append, put, found, Option.getD_some]
      cases place with
      | nil => simp [content]
      | cons first rest =>
        rw [content?_cons, content?_cons, child?_setEntry]
        by_cases here : first = top
        · subst here
          rw [if_pos rfl, Option.bind_some, ih inside free, found, Option.bind_some]
          simp
        · simp [here]

end Node

/-- Where a segment of a path leads to. -/
def Path.step (names : List String) (segment : String) : List String :=
  if segment = "" ∨ segment = "." then names
  else if segment = ".." then names.dropLast
  else names ++ [segment]

theorem Path.step_name {name : String} (plain : ¬(name = "" ∨ name = "." ∨ name = ".."))
    (names : List String) : Path.step names name = names ++ [name] := by
  grind [Path.step]

theorem Path.foldl_step_replicate (names : List String) (count : Nat) :
    (List.replicate count "").foldl Path.step names = names := by
  induction count with
  | zero => rfl
  | succ count ih => exact ih

namespace FileSystem
variable {fs : FileSystem} {p : Path} {names place : List String} {segment : String}
  {segments : List String}

/-- What names lead to from the root. -/
def content? (fs : FileSystem) (names : List String) : Option Content :=
  fs.root.content? names

/-- The bytes of the file that names lead to from the root, if it is a file. -/
def fileAt? (fs : FileSystem) (names : List String) : Option (List UInt8) :=
  match fs.content? names with
  | some (.file bytes) => some bytes
  | _ => none

theorem fileAt?_eq_some {bytes : List UInt8} :
    fs.fileAt? names = some bytes ↔ fs.content? names = some (.file bytes) := by
  unfold fileAt?
  split
  next stored same => simp [same]
  next other => exact ⟨fun h => by simp at h, fun same => absurd same (other bytes)⟩

theorem isSome_content?_of_fileAt? (file : (fs.fileAt? names).isSome) :
    (fs.content? names).isSome := by
  obtain ⟨bytes, file⟩ := Option.isSome_iff_exists.1 file
  rw [fileAt?_eq_some.1 file]
  rfl

theorem node?_eq_folder {names : List String} :
    (∃ entries, fs.node? names = some (.folder entries)) ↔ fs.content? names = some .folder := by
  simp only [content?, Node.content?, node?, Option.map_eq_some_iff]
  constructor
  · rintro ⟨entries, same⟩
    exact ⟨_, same, rfl⟩
  · rintro ⟨node, same, folder⟩
    cases node with
    | file => cases folder
    | folder entries => exact ⟨entries, same⟩

theorem node?_eq_file {bytes : List UInt8} :
    fs.node? names = some (.file bytes) ↔ fs.content? names = some (.file bytes) := by
  simp only [content?, Node.content?, node?, Option.map_eq_some_iff]
  constructor
  · intro same
    exact ⟨_, same, rfl⟩
  · rintro ⟨node, same, file⟩
    cases node with
    | file stored => cases file; exact same
    | folder => cases file

theorem node?_eq_none : fs.node? names = none ↔ fs.content? names = none := by
  rw [content?, Node.content?, Option.map_eq_none_iff]
  rfl

theorem isSome_content? : (fs.content? names).isSome = (fs.node? names).isSome :=
  Option.isSome_map

/-- The names at which a path starts. -/
def start (fs : FileSystem) (p : Path) : List String :=
  if p.isAbsolute then [] else fs.current

/-- The place that a path names, whether or not its folders exist. -/
def location (fs : FileSystem) (p : Path) : List String :=
  p.segments.foldl Path.step (fs.start p)

/-- A segment is entered from a folder. -/
theorem enter_eq_ok : fs.enter names segment = .ok place ↔
    fs.content? names = some .folder ∧ Path.step names segment = place := by
  unfold enter
  cases node : fs.node? names with
  | none => simp [node?_eq_none.1 node]
  | some found =>
    cases found with
    | file bytes => simp [node?_eq_file.1 node]
    | folder entries =>
      have folder := node?_eq_folder.1 ⟨entries, node⟩
      simp only [folder, true_and, Path.step]
      split
      · simp
      · split <;> simp

theorem foldlM_enter_append {more : List String} :
    (segments ++ more).foldlM fs.enter names = .ok place ↔
      ∃ between, segments.foldlM fs.enter names = .ok between ∧
        more.foldlM fs.enter between = .ok place := by
  rw [List.foldlM_append]
  cases segments.foldlM fs.enter names with
  | error => simp [bind, Except.bind]
  | ok between => simp [bind, Except.bind]

theorem foldlM_enter_cons : (segment :: segments).foldlM fs.enter names = .ok place ↔
    fs.content? names = some .folder ∧
      segments.foldlM fs.enter (Path.step names segment) = .ok place := by
  rw [List.foldlM_cons]
  cases entered : fs.enter names segment with
  | error fault =>
    have stuck : fs.content? names ≠ some .folder := by
      intro folder
      rw [enter_eq_ok.2 ⟨folder, rfl⟩] at entered
      cases entered
    simp [stuck, bind, Except.bind]
  | ok between =>
    obtain ⟨folder, rfl⟩ := enter_eq_ok.1 entered
    simp [folder, bind, Except.bind]

/-- The way through segments ends where they lead to. -/
theorem foldl_step_of_foldlM_enter (followed : segments.foldlM fs.enter names = .ok place) :
    segments.foldl Path.step names = place := by
  induction segments generalizing names with
  | nil => cases followed; rfl
  | cons segment segments ih => exact ih (foldlM_enter_cons.1 followed).2

/-- Slashes at the end of a way can be gone from a folder. -/
theorem foldlM_enter_replicate (count : Nat) (folder : fs.content? names = some .folder) :
    (List.replicate count "").foldlM fs.enter names = .ok names := by
  induction count with
  | zero => rfl
  | succ count ih =>
    rw [List.replicate_succ, foldlM_enter_cons]
    exact ⟨folder, ih⟩

theorem follow_append {more : List String} : fs.follow p (segments ++ more) = .ok place ↔
    ∃ between, fs.follow p segments = .ok between ∧ more.foldlM fs.enter between = .ok place :=
  foldlM_enter_append

/-- A path leads to its location, if the way there can be gone and something lies there. -/
theorem resolve_eq_ok : fs.resolve p = .ok place ↔
    p.text ≠ "" ∧ fs.follow p p.segments = .ok place ∧ (fs.content? place).isSome := by
  unfold resolve
  by_cases blank : p.text = ""
  · simp [blank, throw, throwThe, MonadExceptOf.throw, bind, Except.bind]
  simp only [blank, if_false, ne_eq, not_false_eq_true, true_and, bind, Except.bind, pure,
    Except.pure, throw, throwThe, MonadExceptOf.throw, isSome_content?]
  cases fs.follow p p.segments with
  | error fault => simp
  | ok names =>
    simp only [Except.ok.injEq]
    constructor
    · intro found
      cases lies : fs.node? names with
      | none => simp [lies] at found
      | some node =>
        rw [lies] at found
        cases found
        exact ⟨rfl, by rw [lies]; rfl⟩
    · rintro ⟨rfl, lies⟩
      obtain ⟨node, lies⟩ := Option.isSome_iff_exists.1 lies
      simp [lies]

theorem eq_location_of_resolve (resolved : fs.resolve p = .ok place) : place = fs.location p :=
  (foldl_step_of_foldlM_enter (resolve_eq_ok.1 resolved).2.1).symm

theorem find_of_resolve {node : Node} (resolved : fs.resolve p = .ok place)
    (lies : fs.node? place = some node) : fs.find p = .ok node := by
  rw [find, resolved]
  simp [bind, Except.bind, pure, Except.pure, lies]

/-- Something is found exactly where a path leads to. -/
theorem find_eq_ok {node : Node} : fs.find p = .ok node ↔
    ∃ place, fs.resolve p = .ok place ∧ fs.node? place = some node := by
  constructor
  · intro found
    cases resolved : fs.resolve p with
    | error fault => simp [find, resolved, bind, Except.bind] at found
    | ok place =>
      obtain ⟨other, lies⟩ : ∃ other, fs.node? place = some other :=
        Option.isSome_iff_exists.1 (isSome_content? ▸ (resolve_eq_ok.1 resolved).2.2)
      rw [find_of_resolve resolved lies] at found
      cases found
      exact ⟨place, rfl, lies⟩
  · rintro ⟨place, resolved, lies⟩
    exact find_of_resolve resolved lies

theorem exists?_iff : fs.exists? p = true ↔ ∃ place, fs.resolve p = .ok place := by
  rw [exists?]
  constructor
  · intro found
    cases result : fs.find p with
    | error => simp [result, Except.isOk, Except.toBool] at found
    | ok node =>
      obtain ⟨place, resolved, _⟩ := find_eq_ok.1 result
      exact ⟨place, resolved⟩
  · rintro ⟨place, resolved⟩
    obtain ⟨node, lies⟩ :=
      Option.isSome_iff_exists.1 (isSome_content? ▸ (resolve_eq_ok.1 resolved).2.2)
    rw [find_of_resolve resolved lies]
    rfl

theorem isFolder_iff : fs.isFolder p = true ↔
    ∃ place, fs.resolve p = .ok place ∧ fs.content? place = some .folder := by
  rw [isFolder]
  constructor
  · intro folder
    split at folder
    next node found =>
      obtain ⟨place, resolved, lies⟩ := find_eq_ok.1 found
      cases node with
      | file => cases folder
      | folder entries => exact ⟨place, resolved, node?_eq_folder.1 ⟨entries, lies⟩⟩
    next => cases folder
  · rintro ⟨place, resolved, folder⟩
    obtain ⟨entries, lies⟩ := node?_eq_folder.2 folder
    rw [find_of_resolve resolved lies]
    rfl

theorem readBytes_of_file {bytes : List UInt8} (resolved : fs.resolve p = .ok place)
    (file : fs.content? place = some (.file bytes)) : fs.readBytes p = .ok bytes := by
  rw [readBytes, find_of_resolve resolved (node?_eq_file.2 file)]
  rfl

theorem readBytes_of_folder (resolved : fs.resolve p = .ok place)
    (folder : fs.content? place = some .folder) : fs.readBytes p = .error .isDirectory := by
  obtain ⟨entries, lies⟩ := node?_eq_folder.2 folder
  rw [readBytes, find_of_resolve resolved lies]
  rfl

/-- A file holds a text when its bytes encode it. -/
theorem readText_of_file {bytes : List UInt8} {text : List Char}
    (resolved : fs.resolve p = .ok place) (file : fs.content? place = some (.file bytes))
    (decoded : Text.decode? bytes = some text) : fs.readText p = .ok text := by
  rw [readText, readBytes_of_file resolved file]
  simp [bind, Except.bind, pure, Except.pure, decoded]

theorem readText_of_not_decoded {bytes : List UInt8} (resolved : fs.resolve p = .ok place)
    (file : fs.content? place = some (.file bytes)) (decoded : Text.decode? bytes = none) :
    fs.readText p = .error .invalidData := by
  rw [readText, readBytes_of_file resolved file]
  simp [bind, Except.bind, throw, throwThe, MonadExceptOf.throw, decoded]

end FileSystem
end Markers

import Markers.FileSystem.Action
import Markers.Proofs.FileSystem
import Markers.Proofs.Text.Utf8

/-!
# What an action changes

An action creates folders and writes files, and removes nothing: `Changes written` says that a file
system differs from an earlier one only in folders where nothing was and in what lies at the written
places, none of which was a folder. Every way that could be gone can still be gone, and every other
file holds what it held.

`makeFolders` writes nothing (`makeFolders_changes`), and `writeFile` writes at the location of its
path if at all (`writeFile_changes`); it leaves the file with its text there and the path leading to
it (`Wrote`), or it fails and has written nothing. Whether it can write does not depend on the text,
and where it has written once it can write again (`writable_of_writeFile`).
-/

namespace Markers

theorem splitOn_append_replicate (sep : Char) (s : List Char) (count : Nat) :
    (s ++ List.replicate count sep).splitOn sep = s.splitOn sep ++ List.replicate count [] := by
  have alone (count : Nat) :
      (List.replicate count sep).splitOn sep = List.replicate (count + 1) [] := by
    induction count with
    | zero => rfl
    | succ count ih =>
      have split : ([] ++ sep :: List.replicate count sep).splitOn sep =
          [].splitOn sep ++ (List.replicate count sep).splitOn sep :=
        List.splitOn_append_cons_self [] _
      rw [List.nil_append] at split
      rw [List.replicate_succ, split, ih]
      rfl
  cases count with
  | zero => simp
  | succ count => rw [List.replicate_succ, List.splitOn_append_cons_self, alone]

namespace FileSystem
variable {fs mid after : FileSystem} {p : Path} {names place : List String} {name : String}
  {segments : List String} {written : List (List String)}

/-- A path has the segments of the path without the slashes at its end, and empty ones for them. -/
theorem segments_eq_append_replicate (p : Path) :
    ∃ count, p.segments = (withoutSlashes p).segments ++ List.replicate count "" := by
  let text := p.text.toList.reverse
  have slashes : text.takeWhile (· == '/') =
      List.replicate (text.takeWhile (· == '/')).length '/' := by
    refine List.eq_replicate_of_mem fun c mem => ?_
    simpa using List.all_eq_true.1 List.all_takeWhile c mem
  have split : p.text.toList = (text.dropWhile (· == '/')).reverse ++
      List.replicate (text.takeWhile (· == '/')).length '/' := by
    rw [← List.reverse_inj, List.reverse_append, List.reverse_reverse, List.reverse_replicate,
      ← slashes, List.takeWhile_append_dropWhile]
  refine ⟨(text.takeWhile (· == '/')).length, ?_⟩
  rw [Path.segments, split, splitOn_append_replicate, List.map_append, List.map_replicate]
  simp only [withoutSlashes, Path.segments, String.toList_ofList, text]

theorem withoutSlashes_of_not_endsWith (file : p.text.endsWith '/' = false) :
    withoutSlashes p = p := by
  have last : ∀ c ∈ p.text.toList.reverse.head?, ¬(c == '/') = true := by
    intro c mem same
    rw [List.head?_reverse, Option.mem_def] at mem
    rw [beq_iff_eq] at same
    rw [String.endsWith_char_eq_getLast?, mem, same] at file
    exact absurd file (by simp)
  have kept : p.text.toList.reverse.dropWhile (· == '/') = p.text.toList.reverse := by
    cases text : p.text.toList.reverse with
    | nil => rfl
    | cons c s => exact List.dropWhile_cons_of_neg (last c (by rw [text]; rfl))
  rw [withoutSlashes, kept, List.reverse_reverse, String.ofList_toList]

/-- Where something new would lie: under a name, in a folder to which the rest of the path leads. -/
theorem place_eq_ok : fs.place p = .ok (names, name) ↔
    p.text ≠ "" ∧ ¬(name = "" ∨ name = "." ∨ name = "..") ∧ fs.content? names = some .folder ∧
      ∃ front, (withoutSlashes p).segments = front ++ [name] ∧ fs.follow p front = .ok names := by
  unfold place
  by_cases blank : p.text = ""
  · simp [blank, throw, throwThe, MonadExceptOf.throw, bind, Except.bind]
  simp only [blank, if_false, pure, Except.pure, bind, Except.bind, throw, throwThe,
    MonadExceptOf.throw]
  constructor
  · intro placed
    split at placed
    · cases placed
    next between followed =>
      split at placed
      · cases placed
      · cases placed
      next entries last folder ends =>
        split at placed
        · cases placed
        next plain =>
          cases placed
          obtain ⟨front, split⟩ := List.getLast?_eq_some_iff.1 ends
          rw [split, List.dropLast_concat] at followed
          exact ⟨blank, plain, node?_eq_folder.1 ⟨entries, folder⟩, front, split, followed⟩
      · cases placed
  · rintro ⟨_, plain, folder, front, split, followed⟩
    obtain ⟨entries, lies⟩ := node?_eq_folder.2 folder
    simp only [split, List.dropLast_concat, followed, List.getLast?_concat, lies, plain, if_false]

/-- Where something new would lie is the location of its path. -/
theorem location_of_place (lies : fs.place p = .ok (names, name))
    (slash : p.text.endsWith '/' = false) : fs.location p = names ++ [name] := by
  obtain ⟨_, plain, _, front, split, followed⟩ := place_eq_ok.1 lies
  rw [withoutSlashes_of_not_endsWith slash] at split
  have way : front.foldl Path.step (fs.start p) = names := foldl_step_of_foldlM_enter followed
  rw [location, split, List.foldl_append, way]
  exact Path.step_name plain names

/-- That what a file system has come to differs from it only in new folders and in what lies at the
written places, none of which is a folder. -/
structure Changes (written : List (List String)) (fs after : FileSystem) : Prop where
  current : after.current = fs.current
  folder : ∀ {place}, fs.content? place = some .folder → after.content? place = some .folder
  rest : ∀ {place}, place ∉ written → after.content? place = fs.content? place ∨
    fs.content? place = none ∧ after.content? place = some .folder

namespace Changes

theorem refl (written : List (List String)) (fs : FileSystem) : Changes written fs fs :=
  ⟨rfl, id, fun _ => .inl rfl⟩

theorem trans (first : Changes written fs mid) (second : Changes written mid after) :
    Changes written fs after where
  current := second.current.trans first.current
  folder := second.folder ∘ first.folder
  rest unwritten := by
    rcases first.rest unwritten with same | ⟨free, new⟩
    · rw [← same]
      exact second.rest unwritten
    · exact .inr ⟨free, second.folder new⟩

theorem mono {more : List (List String)} (changes : Changes written fs after)
    (subset : written ⊆ more) : Changes more fs after :=
  ⟨changes.current, changes.folder, fun unwritten =>
    changes.rest fun mem => unwritten (subset mem)⟩

/-- A file at a place that is not written holds what it held. -/
theorem fileAt? (changes : Changes written fs after) (unwritten : place ∉ written) :
    after.fileAt? place = fs.fileAt? place := by
  rw [FileSystem.fileAt?, FileSystem.fileAt?]
  rcases changes.rest unwritten with same | ⟨free, new⟩
  · rw [same]
  · rw [free, new]

theorem start (changes : Changes written fs after) (p : Path) : after.start p = fs.start p := by
  rw [FileSystem.start, FileSystem.start, changes.current]

theorem location (changes : Changes written fs after) (p : Path) :
    after.location p = fs.location p := by
  rw [FileSystem.location, FileSystem.location, changes.start]

/-- A way that could be gone can still be gone. -/
theorem foldlM_enter (changes : Changes written fs after)
    (followed : segments.foldlM fs.enter names = .ok place) :
    segments.foldlM after.enter names = .ok place := by
  induction segments generalizing names with
  | nil => exact followed
  | cons segment segments ih =>
    obtain ⟨folder, followed⟩ := foldlM_enter_cons.1 followed
    exact foldlM_enter_cons.2 ⟨changes.folder folder, ih followed⟩

theorem follow (changes : Changes written fs after) (followed : fs.follow p segments = .ok place) :
    after.follow p segments = .ok place := by
  have way : segments.foldlM after.enter (fs.start p) = .ok place := changes.foldlM_enter followed
  rwa [← changes.start] at way

theorem place_ok (changes : Changes written fs after) (lies : fs.place p = .ok (names, name)) :
    after.place p = .ok (names, name) := by
  obtain ⟨text, plain, folder, front, split, followed⟩ := place_eq_ok.1 lies
  exact place_eq_ok.2 ⟨text, plain, changes.folder folder, front, split, changes.follow followed⟩

/-- The way to where something new lies. -/
theorem follow_place (changes : Changes written fs after) (lies : fs.place p = .ok (names, name)) :
    after.follow p (withoutSlashes p).segments = .ok (names ++ [name]) := by
  obtain ⟨_, plain, folder, front, split, followed⟩ := place_eq_ok.1 lies
  rw [split, follow_append]
  refine ⟨names, changes.follow followed, foldlM_enter_cons.2 ⟨changes.folder folder, ?_⟩⟩
  rw [Path.step_name plain]
  rfl

theorem isFolder (changes : Changes written fs after) (folder : fs.isFolder p = true) :
    after.isFolder p = true := by
  obtain ⟨place, resolved, folder⟩ := isFolder_iff.1 folder
  obtain ⟨text, followed, _⟩ := resolve_eq_ok.1 resolved
  have kept := changes.folder folder
  exact isFolder_iff.2
    ⟨place, resolve_eq_ok.2 ⟨text, changes.follow followed, by rw [kept]; rfl⟩, kept⟩

end Changes

/-- A file put where no folder is changes what lies there. -/
theorem changes_put (node : Node) (folder : fs.content? names = some .folder)
    (free : fs.content? (names ++ [name]) ≠ some .folder) (bare : node.entries = []) :
    Changes [names ++ [name]] fs { fs with root := fs.root.put node (names ++ [name]) } where
  current := rfl
  folder {place} old := by
    have ne : place ≠ names ++ [name] := fun eq => free (eq ▸ old)
    rw [content?, Node.content?_put folder free bare, if_neg ne]
    exact old
  rest {place} unwritten := by
    have ne : place ≠ names ++ [name] := by simpa using unwritten
    rw [content?, Node.content?_put folder free bare, if_neg ne]
    exact .inl rfl

theorem content?_put_self (node : Node) (folder : fs.content? names = some .folder)
    (free : fs.content? (names ++ [name]) ≠ some .folder) (bare : node.entries = []) :
    content? { fs with root := fs.root.put node (names ++ [name]) } (names ++ [name]) =
      some node.content := by
  rw [content?, Node.content?_put folder free bare, if_pos rfl]

/-- A folder put where nothing was is no more than a new folder. -/
theorem changes_put_folder (folder : fs.content? names = some .folder)
    (free : fs.content? (names ++ [name]) = none) :
    Changes [] fs { fs with root := fs.root.put (.folder []) (names ++ [name]) } where
  current := rfl
  folder old := (changes_put (.folder []) folder (by simp [free]) rfl).folder old
  rest {place} _ := by
    by_cases here : place = names ++ [name]
    · subst here
      exact .inr ⟨free, content?_put_self (.folder []) folder (by simp [free]) rfl⟩
    · exact (changes_put (.folder []) folder (by simp [free]) rfl).rest (by simpa using here)

/-- Everything that a successful `writeBytes` says about a path and what it has changed. -/
theorem writeBytes_eq_ok {bytes : List UInt8} : fs.writeBytes p bytes = .ok after ↔
    ∃ names name, fs.place p = .ok (names, name) ∧ p.text.endsWith '/' = false ∧
      fs.content? (names ++ [name]) ≠ some .folder ∧
      { fs with root := fs.root.put (.file bytes) (names ++ [name]) } = after := by
  unfold writeBytes
  cases lies : fs.place p with
  | error => simp [bind, Except.bind]
  | ok found =>
    obtain ⟨names, name⟩ := found
    simp only [bind, Except.bind, pure, Except.pure, throw, throwThe, MonadExceptOf.throw,
      Except.ok.injEq, Prod.mk.injEq]
    cases slash : p.text.endsWith '/' with
    | true => simp
    | false =>
      simp only [Bool.false_eq_true, if_false, true_and]
      constructor
      · intro wrote
        split at wrote
        · cases wrote
        next free =>
          cases wrote
          refine ⟨names, name, ⟨rfl, rfl⟩, fun folder => ?_, rfl⟩
          obtain ⟨entries, lies⟩ := node?_eq_folder.2 folder
          exact free entries lies
      · rintro ⟨_, _, ⟨rfl, rfl⟩, free, rfl⟩
        split
        next entries lies => exact absurd (node?_eq_folder.1 ⟨entries, lies⟩) free
        next => rfl

/-- That a path has come to lead to a file with some bytes. -/
structure Wrote (p : Path) (bytes : List UInt8) (fs after : FileSystem) : Prop where
  resolve : after.resolve p = .ok (fs.location p)
  file : after.content? (fs.location p) = some (.file bytes)

theorem writeBytes_changes {bytes : List UInt8} (wrote : fs.writeBytes p bytes = .ok after) :
    Changes [fs.location p] fs after ∧ Wrote p bytes fs after := by
  obtain ⟨names, name, lies, slash, free, rfl⟩ := writeBytes_eq_ok.1 wrote
  obtain ⟨text, _, folder, _⟩ := place_eq_ok.1 lies
  have location := location_of_place lies slash
  have changes := changes_put (.file bytes) folder free rfl
  have file := content?_put_self (.file bytes) folder free rfl
  have way := changes.follow_place lies
  rw [withoutSlashes_of_not_endsWith slash] at way
  have resolved := resolve_eq_ok.2 ⟨text, way, by rw [file]; rfl⟩
  refine ⟨?_, ?_, ?_⟩ <;> rw [location]
  · exact changes
  · exact resolved
  · exact file

/-- What has happened when a folder was created. -/
theorem makeFolder_eq_ok (made : fs.makeFolder p = .ok after) :
    ∃ names name, fs.place p = .ok (names, name) ∧ fs.content? (names ++ [name]) = none ∧
      { fs with root := fs.root.put (.folder []) (names ++ [name]) } = after := by
  unfold makeFolder at made
  simp only [bind, Except.bind, pure, Except.pure, throw, throwThe, MonadExceptOf.throw] at made
  split at made
  · cases made
  next =>
    split at made
    · cases made
    next found lies =>
      split at made
      · cases made
      next free =>
        cases made
        exact ⟨found.1, found.2, lies, node?_eq_none.1 free, rfl⟩

/-- A new folder is one that its path leads to. -/
theorem makeFolder_changes (made : fs.makeFolder p = .ok after) :
    Changes [] fs after ∧ after.isFolder p = true := by
  obtain ⟨names, name, lies, free, rfl⟩ := makeFolder_eq_ok made
  obtain ⟨text, _, folder, _⟩ := place_eq_ok.1 lies
  obtain ⟨count, slashes⟩ := segments_eq_append_replicate p
  have changes := changes_put_folder folder free
  have noFolder : fs.content? (names ++ [name]) ≠ some .folder := by simp [free]
  have new := content?_put_self (.folder []) folder noFolder rfl
  have way := follow_append.2 ⟨_, changes.follow_place lies, foldlM_enter_replicate count new⟩
  rw [← slashes] at way
  exact ⟨changes, isFolder_iff.2 ⟨_, resolve_eq_ok.2 ⟨text, way, by rw [new]; rfl⟩, new⟩⟩

end FileSystem

namespace FileAction
open FileSystem
variable {fs after : FileSystem} {p : Path} {text : List Char}

theorem makeFolder_changes {result : Except FileFault Unit}
    (ran : makeFolder p fs = (result, after)) :
    Changes [] fs after ∧ (result = .ok () → after.isFolder p = true) := by
  unfold makeFolder change at ran
  cases made : fs.makeFolder p with
  | ok new =>
    simp only [made] at ran
    cases ran
    exact ⟨(FileSystem.makeFolder_changes made).1, fun _ => (FileSystem.makeFolder_changes made).2⟩
  | error fault =>
    simp only [made] at ran
    split at ran
    next new same =>
      split at same
      next folder => cases same; cases ran; exact ⟨.refl _ fs, fun _ => folder⟩
      next => cases same
    next => cases ran; exact ⟨.refl _ fs, nofun⟩

theorem makeFoldersWithin_changes (depth : Nat) {result : Except FileFault Unit}
    (ran : makeFoldersWithin p depth fs = (result, after)) :
    Changes [] fs after ∧ (result = .ok () → after.isFolder p = true) := by
  induction depth generalizing p fs result after with
  | zero => exact makeFolder_changes ran
  | succ depth ih =>
    unfold makeFoldersWithin at ran
    split at ran
    next above _ _ =>
      -- the folders above come first, if the path names any
      by_cases here : above.text = ""
      · simp only [here, ne_eq, not_true_eq_false, if_false] at ran
        exact makeFolder_changes ran
      · simp only [here, ne_eq, not_false_eq_true, if_true] at ran
        rcases bind_cases ran with ⟨fault, outer, rfl⟩ | ⟨_, mid, outer, inner⟩
        · exact ⟨(ih outer).1, nofun⟩
        · obtain ⟨changes, there⟩ := makeFolder_changes inner
          exact ⟨(ih outer).1.trans changes, there⟩
    next => exact makeFolder_changes ran

/-- Creating folders writes nothing, and the folder is there when it ends well. -/
theorem makeFolders_changes {result : Except FileFault Unit}
    (ran : makeFolders p fs = (result, after)) :
    Changes [] fs after ∧ (result = .ok () → after.isFolder p = true) :=
  makeFoldersWithin_changes _ ran

/-- A folder that is there stays as it is. -/
theorem makeFolders_of_isFolder (folder : fs.isFolder p = true) :
    makeFolders p fs = (.ok (), fs) := by
  have there : fs.exists? p = true := by
    obtain ⟨place, resolved, _⟩ := isFolder_iff.1 folder
    exact exists?_iff.2 ⟨place, resolved⟩
  have taken : fs.makeFolder p = .error .alreadyExists := by
    simp [FileSystem.makeFolder, there, throw, throwThe, MonadExceptOf.throw, bind, Except.bind]
  have stays : makeFolder p fs = (.ok (), fs) := by
    simp only [makeFolder, change, taken, folder, if_true]
  unfold makeFolders
  cases p.components.length with
  | zero => exact stays
  | succ depth => simp only [makeFoldersWithin, taken, stays]

/-- Create the folders that a path lies in. -/
def makeParents (p : Path) : FileAction Failure Unit :=
  match p.parent? with
  | some folder =>
    if folder.text ≠ "" then (makeFolders folder).mapError (Failure.fileWrite folder) else done ()
  | none => done ()

theorem writeFile_eq (p : Path) (text : List Char) : writeFile p text = makeParents p >>= fun _ =>
    (change fun fs => fs.writeBytes p (Text.encode text)).mapError (Failure.fileWrite p) := by
  unfold writeFile makeParents
  cases p.parent? with
  | none => rfl
  | some folder =>
    by_cases blank : folder.text = ""
    · simp [blank]
      rfl
    · simp [blank]

/-- That the folder a path lies in is there, if the path names one. -/
def HasParent (fs : FileSystem) (p : Path) : Prop :=
  ∀ folder, p.parent? = some folder → folder.text ≠ "" → fs.isFolder folder = true

theorem makeParents_changes {result : Except Failure Unit}
    (ran : makeParents p fs = (result, after)) :
    Changes [] fs after ∧ (result = .ok () → HasParent after p) := by
  unfold makeParents at ran
  cases parent : p.parent? with
  | none =>
    rw [parent] at ran
    cases ran
    exact ⟨.refl _ fs, fun _ folder same => by simp [parent] at same⟩
  | some folder =>
    rw [parent] at ran
    by_cases blank : folder.text = ""
    · simp only [blank, ne_eq, not_true_eq_false, if_false] at ran
      cases ran
      refine ⟨.refl _ fs, fun _ other same text => ?_⟩
      rw [parent] at same
      cases same
      exact absurd blank text
    · simp only [blank, ne_eq, not_false_eq_true, if_true, mapError] at ran
      cases made : makeFolders folder fs with
      | mk outcome mid =>
        obtain ⟨changes, there⟩ := makeFolders_changes made
        rw [made] at ran
        cases ran
        refine ⟨changes, fun well other same _ => ?_⟩
        rw [parent] at same
        cases same
        cases outcome with
        | error fault => cases well
        | ok _ => exact there rfl

theorem makeParents_of_hasParent (there : HasParent fs p) : makeParents p fs = (.ok (), fs) := by
  unfold makeParents
  cases parent : p.parent? with
  | none => rfl
  | some folder =>
    by_cases blank : folder.text = ""
    · simp only [blank, ne_eq, not_true_eq_false, if_false]
      rfl
    · simp only [blank, ne_eq, not_false_eq_true, if_true, mapError]
      rw [makeFolders_of_isFolder (there folder parent blank)]
      rfl

/-- A failed `writeFile` has written nothing. -/
theorem writeFile_error {failure : Failure} (ran : writeFile p text fs = (.error failure, after)) :
    Changes [] fs after := by
  rw [writeFile_eq] at ran
  rcases bind_cases ran with ⟨_, parents, -⟩ | ⟨_, mid, parents, ran⟩
  · exact (makeParents_changes parents).1
  have changes := (makeParents_changes parents).1
  simp only [mapError, change] at ran
  cases wrote : mid.writeBytes p (Text.encode text) with
  | error fault => rw [wrote] at ran; cases ran; exact changes
  | ok new => rw [wrote] at ran; cases ran

/-- A successful `writeFile` has created the folders and written the file. -/
theorem writeFile_eq_ok : writeFile p text fs = (.ok (), after) ↔
    ∃ mid, makeParents p fs = (.ok (), mid) ∧ mid.writeBytes p (Text.encode text) = .ok after := by
  rw [writeFile_eq, bind_eq_ok_iff]
  constructor
  · rintro ⟨_, mid, parents, ran⟩
    refine ⟨mid, parents, ?_⟩
    simp only [mapError, change] at ran
    cases wrote : mid.writeBytes p (Text.encode text) with
    | error fault => rw [wrote] at ran; cases ran
    | ok new => rw [wrote] at ran; cases ran; rfl
  · rintro ⟨mid, parents, wrote⟩
    refine ⟨(), mid, parents, ?_⟩
    simp only [mapError, change, wrote]
    rfl

/-- A file that was written lies at the location of its path, which leads to it. -/
theorem writeFile_changes (ran : writeFile p text fs = (.ok (), after)) :
    Changes [fs.location p] fs after ∧ Wrote p (Text.encode text) fs after := by
  obtain ⟨mid, parents, wrote⟩ := writeFile_eq_ok.1 ran
  obtain ⟨before, -⟩ := makeParents_changes parents
  obtain ⟨changes, written⟩ := writeBytes_changes wrote
  obtain ⟨resolve, file⟩ := written
  rw [before.location] at changes resolve file
  exact ⟨(before.mono (List.nil_subset _)).trans changes, resolve, file⟩

end FileAction

namespace FileSystem
open FileAction
variable {fs after : FileSystem} {p : Path} {text : List Char}

/-- That a file can be written under a path. -/
def Writable (fs : FileSystem) (p : Path) : Prop :=
  ∃ text after, writeFile p text fs = (.ok (), after)

/-- One text can be written as well as another one. -/
theorem Writable.writeFile (writable : fs.Writable p) (text : List Char) :
    ∃ after, writeFile p text fs = (.ok (), after) := by
  obtain ⟨other, _, ran⟩ := writable
  obtain ⟨mid, parents, wrote⟩ := writeFile_eq_ok.1 ran
  obtain ⟨names, name, lies, slash, free, -⟩ := writeBytes_eq_ok.1 wrote
  exact ⟨_, writeFile_eq_ok.2 ⟨mid, parents,
    writeBytes_eq_ok.2 ⟨names, name, lies, slash, free, rfl⟩⟩⟩

/-- That a path leads to a file in a folder that is there, so that nothing has to be created to
write it once more. -/
structure Rewritable (fs : FileSystem) (p : Path) : Prop where
  parent : HasParent fs p
  place : ∃ names name, fs.place p = .ok (names, name)
  slash : p.text.endsWith '/' = false
  file : (fs.fileAt? (fs.location p)).isSome

/-- A file that was written can be written once more. -/
theorem rewritable_of_writeFile (ran : FileAction.writeFile p text fs = (.ok (), after)) :
    after.Rewritable p := by
  obtain ⟨mid, parents, wrote⟩ := writeFile_eq_ok.1 ran
  obtain ⟨changes, written⟩ := writeBytes_changes wrote
  obtain ⟨names, name, lies, slash, -⟩ := writeBytes_eq_ok.1 wrote
  refine ⟨fun folder parent text => ?_, ⟨names, name, changes.place_ok lies⟩, slash, ?_⟩
  · exact changes.isFolder ((makeParents_changes parents).2 rfl folder parent text)
  · rw [changes.location, fileAt?_eq_some.2 written.file]
    rfl

/-- What is written elsewhere does not matter. -/
theorem Rewritable.of_changes {written : List (List String)} (here : fs.Rewritable p)
    (changes : Changes written fs after) (elsewhere : fs.location p ∉ written) :
    after.Rewritable p := by
  obtain ⟨parent, ⟨names, name, lies⟩, slash, file⟩ := here
  refine ⟨fun folder above text => changes.isFolder (parent folder above text),
    ⟨names, name, changes.place_ok lies⟩, slash, ?_⟩
  rw [changes.location, changes.fileAt? elsewhere]
  exact file

/-- Writing once more changes the file and nothing else. -/
theorem Rewritable.writeFile (here : fs.Rewritable p) (text : List Char) :
    ∃ after, writeFile p text fs = (.ok (), after) ∧ Changes [fs.location p] after fs := by
  obtain ⟨parent, ⟨names, name, lies⟩, slash, file⟩ := here
  obtain ⟨bytes, file⟩ := Option.isSome_iff_exists.1 file
  have location := location_of_place lies slash
  have folder := (place_eq_ok.1 lies).2.2.1
  rw [fileAt?_eq_some, location] at file
  have free : fs.content? (names ++ [name]) ≠ some .folder := by simp [file]
  have bare : (Node.file (Text.encode text)).entries = [] := rfl
  refine ⟨_, writeFile_eq_ok.2 ⟨fs, makeParents_of_hasParent parent,
    writeBytes_eq_ok.2 ⟨names, name, lies, slash, free, rfl⟩⟩, rfl, ?_, ?_⟩
  · intro place new
    rw [content?, Node.content?_put folder free bare] at new
    split at new
    · cases new
    · exact new
  · intro place elsewhere
    rw [location, List.mem_singleton] at elsewhere
    left
    rw [content?, content?, Node.content?_put folder free bare, if_neg elsewhere]

/-- A file that was written can be written again. -/
theorem writable_of_writeFile (ran : FileAction.writeFile p text fs = (.ok (), after)) :
    after.Writable p := by
  obtain ⟨final, again, _⟩ := (rewritable_of_writeFile ran).writeFile text
  exact ⟨text, final, again⟩

/-- A text that was written is read again. -/
theorem readText_of_writeFile (ran : FileAction.writeFile p text fs = (.ok (), after)) :
    after.readText p = .ok text := by
  have wrote := (writeFile_changes ran).2
  exact readText_of_file wrote.resolve wrote.file (Text.decode?_encode text)

end FileSystem
end Markers

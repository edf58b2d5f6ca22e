import Markers.FileSystem

/-!
# File actions

A file action changes a file system and ends with a value or a failure. What it changed before it
failed stays changed. `ask` answers a question without changing anything, `makeFolders` creates a
folder and those above it, and `writeFile` writes a text below them.
-/

namespace Markers

/-- A change of a file system that ends with a value or a failure. -/
def FileAction (ε α : Type) :=
  FileSystem → Except ε α × FileSystem

namespace FileAction
variable {ε ε' α β : Type}

/-- End with a value and change nothing. -/
def done (a : α) : FileAction ε α := fun fs =>
  (.ok a, fs)

/-- One action and then another one, unless the first fails. -/
def andThen (x : FileAction ε α) (f : α → FileAction ε β) : FileAction ε β := fun fs =>
  match x fs with
  | (.ok a, fs) => f a fs
  | (.error e, fs) => (.error e, fs)

instance : Monad (FileAction ε) where
  pure := done
  bind := andThen

/-- Answer a question about the file system. -/
def ask (f : FileSystem → Except ε α) : FileAction ε α := fun fs =>
  (f fs, fs)

/-- Change the file system, or leave it as it is and fail. -/
def change (f : FileSystem → Except ε FileSystem) : FileAction ε Unit := fun fs =>
  match f fs with
  | .ok fs => (.ok (), fs)
  | .error e => (.error e, fs)

/-- The same change with another failure. -/
def mapError (f : ε → ε') (x : FileAction ε α) : FileAction ε' α := fun fs =>
  ((x fs).1.mapError f, (x fs).2)

theorem pure_apply (a : α) (fs : FileSystem) : (pure a : FileAction ε α) fs = (.ok a, fs) :=
  rfl

theorem bind_apply (x : FileAction ε α) (f : α → FileAction ε β) (fs : FileSystem) :
    (x >>= f) fs = match x fs with
      | (.ok a, fs) => f a fs
      | (.error e, fs) => (.error e, fs) :=
  rfl

/-- A sequence ends well when both parts do, the second in what the first one left. -/
theorem bind_eq_ok_iff {x : FileAction ε α} {f : α → FileAction ε β} {fs after : FileSystem}
    {b : β} :
    (x >>= f) fs = (.ok b, after) ↔
      ∃ a between, x fs = (.ok a, between) ∧ f a between = (.ok b, after) := by
  rw [bind_apply]
  rcases x fs with ⟨_ | a, between⟩
  · simp
  · exact ⟨fun h => ⟨a, between, rfl, h⟩, fun ⟨_, _, h, h'⟩ => by cases h; exact h'⟩

/-- A sequence ends with the failure of its first part, or as the second one does in what the first
left. -/
theorem bind_cases {x : FileAction ε α} {f : α → FileAction ε β} {fs after : FileSystem}
    {result : Except ε β} (ran : (x >>= f) fs = (result, after)) :
    (∃ e, x fs = (.error e, after) ∧ result = .error e) ∨
      ∃ a between, x fs = (.ok a, between) ∧ f a between = (result, after) := by
  rw [bind_apply] at ran
  rcases first : x fs with ⟨e | a, between⟩
  · rw [first] at ran
    cases ran
    exact .inl ⟨e, rfl, rfl⟩
  · rw [first] at ran
    exact .inr ⟨a, between, rfl, ran⟩

theorem ask_eq {f : FileSystem → Except ε α} {fs after : FileSystem} {result : Except ε α} :
    ask f fs = (result, after) ↔ f fs = result ∧ fs = after := by
  rw [ask, Prod.mk.injEq]

/-- Create a folder if it is not there. -/
def makeFolder (p : Path) : FileAction FileFault Unit :=
  change fun fs =>
    match fs.makeFolder p with
    | .ok fs => .ok fs
    | .error fault => if fs.isFolder p then .ok fs else .error fault

/-- Create a folder, and at most `depth` folders above it where they are missing. -/
def makeFoldersWithin (p : Path) : Nat → FileAction FileFault Unit
  | 0 => makeFolder p
  | depth + 1 => fun fs =>
    match fs.makeFolder p, p.parent? with
    | .error .notFound, some above =>
      (do
        if above.text ≠ "" then makeFoldersWithin above depth
        makeFolder p : FileAction FileFault Unit) fs
    | _, _ => makeFolder p fs

/-- Create a folder, and those above it where they are missing. -/
def makeFolders (p : Path) : FileAction FileFault Unit :=
  makeFoldersWithin p p.components.length

/-- Write a text as a file. The folders it lies in are created first. -/
def writeFile (p : Path) (text : List Char) : FileAction Failure Unit := do
  match p.parent? with
  | some folder =>
    if folder.text ≠ "" then (makeFolders folder).mapError (Failure.fileWrite folder)
  | none => pure ()
  (change fun fs => fs.writeBytes p (Text.encode text)).mapError (Failure.fileWrite p)

end FileAction
end Markers

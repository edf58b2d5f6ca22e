import Markers.HistoryFile
import Markers.Proofs.FileSystem.Change
import Markers.Proofs.History

/-!
# Histories in files

`FileSystem.historyAt?` is the history that lies at a place: none at all where a file holds no
history, and the empty one where no file is. What `loadHistory` gives is the history at the place
its path leads to (`loadHistory_of_file`). A history that fits comes back from its text and from
every file that it is saved in (`readBack`).
-/

namespace Markers

namespace FileSystem
variable {fs after : FileSystem} {path : Path} {place : List String} {history : History}

/-- The history that a file at a place holds; no file holds the empty one. -/
def historyAt? (fs : FileSystem) (place : List String) : Option History :=
  match fs.fileAt? place with
  | some bytes => (Text.decode? bytes).bind History.parse?
  | none => some .empty

theorem historyAt?_of_file {bytes : List UInt8} (file : fs.fileAt? place = some bytes) :
    fs.historyAt? place = (Text.decode? bytes).bind History.parse? := by
  rw [historyAt?, file]

theorem historyAt?_of_none (free : fs.fileAt? place = none) :
    fs.historyAt? place = some .empty := by
  rw [historyAt?, free]

theorem loadHistory_of_not_exists (absent : fs.exists? path = false) :
    fs.loadHistory path = .ok .empty := by
  rw [loadHistory, absent]
  rfl

/-- A file with a text holds the history that the text gives, and a text that gives none fails. -/
theorem loadHistory_of_text {bytes : List UInt8} {text : List Char}
    (resolved : fs.resolve path = .ok place) (file : fs.content? place = some (.file bytes))
    (decoded : Text.decode? bytes = some text) :
    fs.loadHistory path = (History.parse? text).elim (.error (.history path)) .ok := by
  have held : (fs.readText path).mapError (Failure.fileRead path) = .ok text := by
    rw [readText_of_file resolved file decoded]
    rfl
  rw [loadHistory, if_pos (exists?_iff.2 ⟨place, resolved⟩), held]
  cases parsed : History.parse? text <;>
    simp [bind, Except.bind, parsed, pure, Except.pure, throw, throwThe, MonadExceptOf.throw]

/-- The history in a file is the one that its bytes write. -/
theorem loadHistory_of_file {bytes : List UInt8} (resolved : fs.resolve path = .ok place)
    (file : fs.content? place = some (.file bytes)) :
    fs.loadHistory path = .ok history ↔
      (Text.decode? bytes).bind History.parse? = some history := by
  have there := exists?_iff.2 ⟨place, resolved⟩
  cases decoded : Text.decode? bytes with
  | none =>
    have stuck : fs.loadHistory path = .error (.fileRead path .invalidData) := by
      rw [loadHistory, there, readText_of_not_decoded resolved file decoded]
      rfl
    simp [stuck]
  | some text =>
    rw [loadHistory_of_text resolved file decoded, Option.bind_some]
    cases History.parse? text <;> simp

theorem loadHistory_of_folder (resolved : fs.resolve path = .ok place)
    (folder : fs.content? place = some .folder) :
    fs.loadHistory path = .error (.fileRead path .isDirectory) := by
  rw [loadHistory, exists?_iff.2 ⟨place, resolved⟩, readText, readBytes_of_folder resolved folder]
  rfl

/-- A history is loaded from where its path leads, or it is empty and the path leads nowhere. -/
theorem loadHistory_eq_ok (loaded : fs.loadHistory path = .ok history) :
    (fs.exists? path = false ∧ history = .empty) ∨
      ∃ place bytes, fs.resolve path = .ok place ∧ fs.content? place = some (.file bytes) ∧
        (Text.decode? bytes).bind History.parse? = some history := by
  cases found : fs.exists? path with
  | false =>
    rw [loadHistory_of_not_exists found] at loaded
    cases loaded
    exact .inl ⟨rfl, rfl⟩
  | true =>
    obtain ⟨place, resolved⟩ := exists?_iff.1 found
    obtain ⟨content, lies⟩ := Option.isSome_iff_exists.1 (resolve_eq_ok.1 resolved).2.2
    cases content with
    | folder =>
      rw [loadHistory_of_folder resolved lies] at loaded
      cases loaded
    | file bytes =>
      exact .inr ⟨place, bytes, resolved, lies, (loadHistory_of_file resolved lies).1 loaded⟩

/-- A history that is loaded fits. -/
theorem fits_of_loadHistory (loaded : fs.loadHistory path = .ok history) : history.Fits := by
  rcases loadHistory_eq_ok loaded with ⟨_, rfl⟩ | ⟨_, _, _, _, read⟩
  · exact History.fits_empty
  · obtain ⟨text, _, read⟩ := Option.bind_eq_some_iff.1 read
    exact History.fits_of_parse? read

/-- A file that can be reached holds the history that is loaded from it. -/
theorem historyAt?_of_loadHistory (loaded : fs.loadHistory path = .ok history)
    (reached : (fs.fileAt? (fs.location path)).isSome →
      fs.resolve path = .ok (fs.location path)) :
    fs.historyAt? (fs.location path) = some history := by
  rcases loadHistory_eq_ok loaded with ⟨absent, rfl⟩ | ⟨place, bytes, resolved, file, read⟩
  · apply historyAt?_of_none
    cases lies : fs.fileAt? (fs.location path) with
    | none => rfl
    | some bytes =>
      have there := exists?_iff.2 ⟨_, reached (by rw [lies]; rfl)⟩
      rw [absent] at there
      cases there
  · rw [← eq_location_of_resolve resolved, historyAt?_of_file (fileAt?_eq_some.2 file)]
    exact read

theorem Changes.historyAt? {written : List (List String)} (changes : Changes written fs after)
    (unwritten : place ∉ written) : after.historyAt? place = fs.historyAt? place := by
  rw [FileSystem.historyAt?, FileSystem.historyAt?, changes.fileAt? unwritten]

/-- A history in a file that is not written is loaded again. -/
theorem Changes.loadHistory {written : List (List String)} (changes : Changes written fs after)
    (unwritten : fs.location path ∉ written) (there : fs.exists? path = true)
    (loaded : fs.loadHistory path = .ok history) : after.loadHistory path = .ok history := by
  rcases loadHistory_eq_ok loaded with ⟨absent, _⟩ | ⟨place, bytes, resolved, file, read⟩
  · rw [absent] at there
    cases there
  · obtain ⟨text, followed, _⟩ := resolve_eq_ok.1 resolved
    have kept : after.content? place = some (.file bytes) := by
      rw [← fileAt?_eq_some, changes.fileAt? (eq_location_of_resolve resolved ▸ unwritten)]
      exact fileAt?_eq_some.2 file
    have again : after.resolve path = .ok place :=
      resolve_eq_ok.2 ⟨text, changes.follow followed, by rw [kept]; rfl⟩
    exact (loadHistory_of_file again kept).2 read

/-- File systems that differ only in files elsewhere load the same history. -/
theorem loadHistory_of_changes {written : List (List String)} (changes : Changes written fs after)
    (back : Changes written after fs) (elsewhere : fs.location path ∉ written)
    (loaded : fs.loadHistory path = .ok history) : after.loadHistory path = .ok history := by
  cases there : fs.exists? path with
  | true => exact changes.loadHistory elsewhere there loaded
  | false =>
    rw [loadHistory_of_not_exists there] at loaded
    cases loaded
    refine loadHistory_of_not_exists (Bool.eq_false_iff.2 fun found => ?_)
    -- what is there now was there before
    obtain ⟨place, resolved⟩ := exists?_iff.1 found
    obtain ⟨text, followed, lies⟩ := resolve_eq_ok.1 resolved
    have here : (fs.content? place).isSome := by
      have unwritten : place ∉ written := by
        rw [eq_location_of_resolve resolved, changes.location]
        exact elsewhere
      rcases back.rest unwritten with same | ⟨free, _⟩
      · rw [same]
        exact lies
      · simp [free] at lies
    rw [exists?_iff.2 ⟨place, resolve_eq_ok.2 ⟨text, back.follow followed, here⟩⟩] at there
    cases there

/-- A history that was saved is loaded again. -/
theorem loadHistory_of_saveHistory (fits : history.Fits)
    (saved : FileAction.saveHistory path history fs = (.ok (), after)) :
    after.loadHistory path = .ok history := by
  have wrote := (FileAction.writeFile_changes saved).2
  rw [loadHistory_of_file wrote.resolve wrote.file, Text.decode?_encode, Option.bind_some]
  exact History.parse?_render fits

end FileSystem

namespace History
open FileSystem FileAction

/-- That a history comes back: from its text, and from every file that can be written. -/
structure ReadBack (history : History) : Prop where
  text : parse? history.render.toList = some history
  file : ∀ {fs : FileSystem} {path : Path}, fs.Writable path →
    ∃ after, saveHistory path history fs = (.ok (), after) ∧ after.loadHistory path = .ok history

theorem readBack_of_fits {history : History} (fits : history.Fits) : history.ReadBack where
  text := parse?_render fits
  file writable := by
    obtain ⟨after, saved⟩ := writable.writeFile history.render.toList
    exact ⟨after, saved, loadHistory_of_saveHistory fits saved⟩

/-- **Round trip.** Every history with numbers of 64 bits comes back, and so does every history that
some text or some file gives. -/
theorem readBack : (∀ history : History, history.Fits → history.ReadBack) ∧
    (∀ text history, parse? text = some history → history.ReadBack) ∧
    ∀ (fs : FileSystem) (path : Path) history, fs.loadHistory path = .ok history →
      history.ReadBack :=
  ⟨fun _ fits => readBack_of_fits fits, fun _ _ read => readBack_of_fits (fits_of_parse? read),
    fun _ _ _ loaded => readBack_of_fits (fits_of_loadHistory loaded)⟩

/-- Names with a quote, a backslash, a control character and one of four bytes, the greatest number,
no counts and no keywords; a text with the older names of fields; a file with an empty object. -/
theorem readBack_strange :
    let names : ProjectCount := ⟨"\"\\\u0001😀", 18446744073709551615,
      .ofList [("é\n", 18446744073709551615)]⟩
    let history : History :=
      ⟨.ofList [("", []), ("2024-01-01T00:00:00Z", [names, ⟨"", 0, .empty⟩])]⟩
    let text := "\x7b\"t\": [\x7b\"ProjectName\": \"a\", \"TotalCount\": 3\x7d]\x7d".toList
    let fs : FileSystem := ⟨.folder [("h", .file [123, 125])], []⟩
    (history.Fits ∧ history.ReadBack) ∧ (∃ old, parse? text = some old ∧ old.ReadBack) ∧
      ∃ kept, fs.loadHistory ⟨"h"⟩ = .ok kept ∧ kept.ReadBack := by
  intro names history text fs
  have fits : history.Fits := by
    intro counts mem
    obtain ⟨timestamp, mem⟩ := SortedMap.mem_values_ofList mem
    simp only [List.mem_cons, Prod.mk.injEq, List.not_mem_nil, or_false] at mem
    rcases mem with ⟨rfl, rfl⟩ | ⟨rfl, rfl⟩
    · simp
    · simp only [List.forall_mem_cons]
      refine ⟨⟨by decide, fun n mem => ?_⟩,
        ⟨by decide, by simp [SortedMap.empty, SortedMap.values]⟩, by simp⟩
      obtain ⟨keyword, mem⟩ := SortedMap.mem_values_ofList mem
      simp only [List.mem_singleton, Prod.mk.injEq] at mem
      rw [mem.2]
      decide
  have old : (parse? text).isSome = true := by decide +kernel
  have kept : (fs.loadHistory ⟨"h"⟩).isOk = true := by decide +kernel
  refine ⟨⟨fits, readBack.1 history fits⟩, ?_, ?_⟩
  · obtain ⟨old, read⟩ := Option.isSome_iff_exists.1 old
    exact ⟨old, read, readBack.2.1 text old read⟩
  · cases loaded : fs.loadHistory ⟨"h"⟩ with
    | error failure => simp [loaded, Except.isOk, Except.toBool] at kept
    | ok history => exact ⟨history, rfl, readBack.2.2 fs ⟨"h"⟩ history loaded⟩

end History
end Markers

import Markers.HistoryStore
import Markers.Proofs.HistoryFile

/-!
# Stores of histories agree

A store whose state loads a history answers `append` from that history alone (`append_of_invalid`,
`append_of_isTimestamp`), apart from what saving says. `InStep` relates a file system to the history in
memory while snapshots are still to be added: the file holds that history, and it can be written if
some snapshot is going to be. Each call keeps the two in step, so over any calls they answer alike
and end with the same history (`appendAll_agree`): for each valid timestamp the counts that were
added last.
-/

namespace Markers

/-- That a text writes an instant. -/
def IsTimestamp (timestamp : String) : Prop :=
  ∃ instant, Instant.parse timestamp = .ok instant

instance (timestamp : String) : Decidable (IsTimestamp timestamp) :=
  decidable_of_iff ((Instant.parse timestamp).toOption.isSome = true) <| by
    rw [IsTimestamp]
    cases Instant.parse timestamp <;> simp [Except.toOption]

namespace History
variable {history : History} {timestamp : String} {counts : List ProjectCount}

theorem insert_of_invalid {fault : TimestampFault}
    (invalid : Instant.parse timestamp = .error fault) :
    history.insert timestamp counts = .error (.invalidTimestamp timestamp fault) := by
  simp [insert, Instant.ofTimestamp, invalid, bind, Except.bind]

theorem insert_of_isTimestamp (valid : IsTimestamp timestamp) :
    history.insert timestamp counts = .ok ⟨history.snapshots.insert timestamp counts⟩ := by
  obtain ⟨instant, valid⟩ := valid
  simp [insert, Instant.ofTimestamp, valid, bind, Except.bind, pure, Except.pure]

end History

namespace HistoryStore
variable {σ : Type} {store : HistoryStore σ} {state after : σ} {history : History}
  {timestamp : String} {counts : List ProjectCount}

/-- A store refuses an invalid timestamp and stays as it is. -/
theorem append_of_invalid (loaded : store.load state = .ok history) {fault : TimestampFault}
    (invalid : Instant.parse timestamp = .error fault) :
    store.append timestamp counts state =
      (.error (.invalidTimestamp timestamp fault), state) := by
  rw [append, loaded]
  simp only [History.insert_of_invalid invalid]

/-- A store that can save answers with what it has saved. -/
theorem append_of_isTimestamp (loaded : store.load state = .ok history)
    (valid : IsTimestamp timestamp)
    (saved : store.save ⟨history.snapshots.insert timestamp counts⟩ state = (.ok (), after)) :
    store.append timestamp counts state =
      (.ok ⟨history.snapshots.insert timestamp counts⟩, after) := by
  rw [append, loaded]
  simp only [History.insert_of_isTimestamp valid, saved]

/-- A store that does not load a history stays as it is. -/
theorem append_of_not_loaded {failure : Failure} (stuck : store.load state = .error failure) :
    store.append timestamp counts state = (.error failure, state) := by
  rw [append, stuck]

/-- What has happened when a snapshot was added. -/
theorem append_eq_ok (added : store.append timestamp counts state = (.ok history, after)) :
    ∃ stored, store.load state = .ok stored ∧ IsTimestamp timestamp ∧
      history = ⟨stored.snapshots.insert timestamp counts⟩ ∧
      store.save history state = (.ok (), after) := by
  cases loaded : store.load state with
  | error failure => simp [append_of_not_loaded loaded] at added
  | ok stored =>
    cases parsed : Instant.parse timestamp with
    | error fault => simp [append_of_invalid loaded parsed] at added
    | ok instant =>
      have valid : IsTimestamp timestamp := ⟨instant, parsed⟩
      rw [append, loaded] at added
      simp only [History.insert_of_isTimestamp valid] at added
      split at added
      next saved => cases added; exact ⟨stored, rfl, valid, rfl, saved⟩
      next => cases added

/-- What one call does to a store: an invalid timestamp is refused and nothing changes, a valid one
is answered with the history that is loaded next. -/
structure Atomic (store : HistoryStore σ) (state : σ) (timestamp : String)
    (counts : List ProjectCount) : Prop where
  refused : ∀ {fault}, Instant.parse timestamp = .error fault →
    store.append timestamp counts state = (.error (.invalidTimestamp timestamp fault), state)
  taken : IsTimestamp timestamp → ∃ history after,
    store.append timestamp counts state = (.ok history, after) ∧ store.load after = .ok history

/-- The history behind one call in memory. -/
theorem memory_append (history : History) (timestamp : String) (counts : List ProjectCount) :
    memory.append timestamp counts history = match Instant.parse timestamp with
      | .ok _ => (.ok ⟨history.snapshots.insert timestamp counts⟩,
          ⟨history.snapshots.insert timestamp counts⟩)
      | .error fault => (.error (.invalidTimestamp timestamp fault), history) := by
  cases parsed : Instant.parse timestamp with
  | ok instant => exact append_of_isTimestamp rfl ⟨instant, parsed⟩ rfl
  | error fault => exact append_of_invalid rfl parsed

theorem memory_atomic (history : History) (timestamp : String) (counts : List ProjectCount) :
    memory.Atomic history timestamp counts where
  refused invalid := append_of_invalid rfl invalid
  taken valid := ⟨_, _, append_of_isTimestamp rfl valid rfl, rfl⟩

/-- What is stored in memory under a timestamp after some calls: the counts of the last one that has
it, if it is valid. -/
theorem get?_appendAll_memory (calls : List (String × List ProjectCount)) (history : History)
    (timestamp : String) : (memory.appendAll calls history).2.get? timestamp =
      match Instant.parse timestamp with
      | .ok _ => (calls.reverse.lookup timestamp).or (history.get? timestamp)
      | .error _ => history.get? timestamp := by
  induction calls generalizing history with
  | nil =>
    cases Instant.parse timestamp <;> rfl
  | cons call calls ih =>
    obtain ⟨other, counts⟩ := call
    have stored : (memory.append other counts history).2.get? timestamp =
        match Instant.parse other with
        | .ok _ => if timestamp = other then some counts else history.get? timestamp
        | .error _ => history.get? timestamp := by
      rw [memory_append]
      cases Instant.parse other with
      | error => rfl
      | ok =>
        simp only [History.get?, SortedMap.insert, SortedMap.get?_alter,
          Std.LawfulEqOrd.compare_eq_iff_eq]
    have step : (memory.appendAll ((other, counts) :: calls) history).2 =
        (memory.appendAll calls (memory.append other counts history).2).2 := rfl
    rw [step, ih, stored, List.reverse_cons, List.lookup_append]
    by_cases same : timestamp = other
    · subst same
      cases Instant.parse timestamp <;> simp
    · have ne : (timestamp == other) = false := by simpa using same
      cases Instant.parse other <;> simp [same, List.lookup_cons, ne]

section File
variable {path : Path} {fs : FileSystem} {calls : List (String × List ProjectCount)}

/-- That a file holds the history in memory and takes what the calls to come will write. -/
structure InStep (path : Path) (calls : List (String × List ProjectCount)) (fs : FileSystem)
    (history : History) : Prop where
  load : fs.loadHistory path = .ok history
  fits : ∀ call ∈ calls, ∀ count ∈ call.2, count.Fits
  writable : (∃ call ∈ calls, IsTimestamp call.1) → fs.Writable path

/-- One call: the file answers as the memory does, and the two stay in step. -/
theorem InStep.append (inStep : InStep path ((timestamp, counts) :: calls) fs history) :
    (file path).Atomic fs timestamp counts ∧
      ((file path).append timestamp counts fs).1 = (memory.append timestamp counts history).1 ∧
      InStep path calls ((file path).append timestamp counts fs).2
        (memory.append timestamp counts history).2 := by
  obtain ⟨load, fits, writable⟩ := inStep
  have here := fits (timestamp, counts) (List.mem_cons_self ..)
  have later := fun call mem => fits call (List.mem_cons_of_mem _ mem)
  rw [memory_append]
  cases parsed : Instant.parse timestamp with
  | error fault =>
    have refused : (file path).append timestamp counts fs =
        (.error (.invalidTimestamp timestamp fault), fs) := append_of_invalid load parsed
    rw [refused]
    refine ⟨⟨fun invalid => ?_, fun ⟨_, valid⟩ => ?_⟩, rfl, load, later, fun ⟨call, mem, valid⟩ =>
      writable ⟨call, List.mem_cons_of_mem _ mem, valid⟩⟩
    · rw [parsed] at invalid
      cases invalid
      exact refused
    · simp [parsed] at valid
  | ok instant =>
    have valid : IsTimestamp timestamp := ⟨instant, parsed⟩
    let new : History := ⟨history.snapshots.insert timestamp counts⟩
    have newFits : new.Fits := (FileSystem.fits_of_loadHistory load).insert here
    obtain ⟨after, saved⟩ :=
      (writable ⟨_, List.mem_cons_self .., valid⟩).writeFile new.render.toList
    have taken : (file path).append timestamp counts fs = (.ok new, after) :=
      append_of_isTimestamp load valid saved
    have loaded := FileSystem.loadHistory_of_saveHistory newFits saved
    rw [taken]
    refine ⟨⟨fun invalid => ?_, fun _ => ⟨_, after, taken, loaded⟩⟩, rfl, loaded, later, fun _ =>
      FileSystem.writable_of_writeFile saved⟩
    simp [parsed] at invalid

/-- Any calls: they keep the file and the memory in step for those that follow. -/
theorem InStep.appendAll {more : List (String × List ProjectCount)}
    (inStep : InStep path (calls ++ more) fs history) :
    ((file path).appendAll calls fs).1 = (memory.appendAll calls history).1 ∧
      InStep path more ((file path).appendAll calls fs).2 (memory.appendAll calls history).2 := by
  induction calls generalizing fs history with
  | nil => exact ⟨rfl, inStep⟩
  | cons call calls ih =>
    obtain ⟨-, answer, next⟩ := inStep.append
    obtain ⟨answers, last⟩ := ih next
    exact ⟨congr (congrArg List.cons answer) answers, last⟩

/-- **The stores agree.** Snapshots added to an empty history in memory and to a file that does not
exist yet are answered alike, and both end with the counts that were added last under each valid
timestamp. Every call is atomic in either store. -/
theorem appendAll_agree (absent : fs.exists? path = false)
    (fits : ∀ call ∈ calls, ∀ count ∈ call.2, count.Fits)
    (writable : (∃ call ∈ calls, IsTimestamp call.1) → fs.Writable path) :
    ((file path).appendAll calls fs).1 = (memory.appendAll calls .empty).1 ∧
      (∃ history, (file path).load ((file path).appendAll calls fs).2 = .ok history ∧
        memory.load (memory.appendAll calls .empty).2 = .ok history ∧
        ∀ timestamp counts, history.get? timestamp = some counts ↔
          IsTimestamp timestamp ∧ calls.reverse.lookup timestamp = some counts) ∧
      ∀ front timestamp counts rest, calls = front ++ (timestamp, counts) :: rest →
        (file path).Atomic ((file path).appendAll front fs).2 timestamp counts ∧
        memory.Atomic (memory.appendAll front .empty).2 timestamp counts := by
  have start : InStep path calls fs .empty :=
    ⟨FileSystem.loadHistory_of_not_exists absent, fits, writable⟩
  refine ⟨?_, ⟨(memory.appendAll calls .empty).2, ?_, rfl, fun timestamp counts => ?_⟩, ?_⟩
  · exact (InStep.appendAll (calls.append_nil.symm ▸ start)).1
  · exact (InStep.appendAll (calls.append_nil.symm ▸ start)).2.load
  · have nothing : History.empty.get? timestamp = none := rfl
    rw [get?_appendAll_memory, nothing, Option.or_none]
    cases parsed : Instant.parse timestamp with
    | ok instant => simp [show IsTimestamp timestamp from ⟨instant, parsed⟩]
    | error fault =>
      have invalid : ¬IsTimestamp timestamp := fun ⟨instant, valid⟩ => by simp [parsed] at valid
      simp [invalid]
  · rintro front timestamp counts rest rfl
    exact ⟨(InStep.appendAll start).2.append.1, memory_atomic _ timestamp counts⟩

/-- A timestamp twice and a text that is none, into a folder that is not there yet. -/
theorem appendAll_agree_repeated :
    let fs : FileSystem := ⟨.folder [], []⟩
    let path : Path := ⟨"data/history.json"⟩
    let calls : List (String × List ProjectCount) :=
      [("2024-01-01T00:00:00Z", [⟨"a", 1, .empty⟩]), ("yesterday", []),
        ("2024-01-01T00:00:00Z", [])]
    ((file path).appendAll calls fs).1 = (memory.appendAll calls .empty).1 ∧
      ∃ history, (file path).load ((file path).appendAll calls fs).2 = .ok history ∧
        history.get? "2024-01-01T00:00:00Z" = some [] ∧ history.get? "yesterday" = none := by
  intro fs path calls
  have absent : fs.exists? path = false := by decide +kernel
  have writes : (FileAction.writeFile path [] fs).1.isOk = true := by decide +kernel
  have writable : fs.Writable path := by
    cases ran : FileAction.writeFile path [] fs with
    | mk result after =>
      cases result with
      | ok => exact ⟨[], after, ran⟩
      | error failure => simp [ran, Except.isOk, Except.toBool] at writes
  have fits : ∀ call ∈ calls, ∀ count ∈ call.2, count.Fits := by
    simp only [calls, List.forall_mem_cons]
    exact ⟨⟨⟨by decide, by simp [SortedMap.empty, SortedMap.values]⟩, by simp⟩, by simp, by simp,
      by simp⟩
  have valid : (Instant.parse "2024-01-01T00:00:00Z").isOk = true := by decide +kernel
  have invalid : (Instant.parse "yesterday").isOk = false := by decide +kernel
  obtain ⟨answers, ⟨history, loaded, -, stored⟩, -⟩ :=
    appendAll_agree absent fits (fun _ => writable)
  refine ⟨answers, history, loaded, (stored _ []).2 ⟨?_, by decide⟩, ?_⟩
  · cases parsed : Instant.parse "2024-01-01T00:00:00Z" with
    | ok instant => exact ⟨instant, parsed⟩
    | error fault => simp [parsed, Except.isOk, Except.toBool] at valid
  · refine Option.eq_none_iff_forall_ne_some.2 fun counts there => ?_
    obtain ⟨⟨instant, parsed⟩, -⟩ := (stored _ counts).1 there
    simp [parsed, Except.isOk, Except.toBool] at invalid

end File

end HistoryStore
end Markers

import Markers.History

/-!
# Stores of histories

A store keeps a history in some state. `append` loads the history, inserts a snapshot and saves it
again; when loading or inserting fails, nothing is saved. The store `memory` keeps the history
itself.
-/

namespace Markers

/-- How a history is kept in a state. -/
structure HistoryStore (σ : Type) where
  /-- The whole history; a state that holds nothing yet gives the empty one. -/
  load : σ → Except Failure History
  /-- Keep a history in place of the one that was there. -/
  save : History → σ → Except Failure Unit × σ

namespace HistoryStore
variable {σ : Type}

/-- Add a snapshot to the stored history. The whole history is the answer. -/
def append (store : HistoryStore σ) (timestamp : String) (counts : List ProjectCount) (state : σ) :
    Except Failure History × σ :=
  match store.load state with
  | .error failure => (.error failure, state)
  | .ok stored =>
    match stored.insert timestamp counts with
    | .error failure => (.error failure, state)
    | .ok history =>
      match store.save history state with
      | (.ok (), state) => (.ok history, state)
      | (.error failure, state) => (.error failure, state)

/-- Add snapshots one after the other, whether or not some of them fail. -/
def appendAll (store : HistoryStore σ) :
    List (String × List ProjectCount) → σ → List (Except Failure History) × σ
  | [], state => ([], state)
  | (timestamp, counts) :: calls, state =>
    let (answer, state) := store.append timestamp counts state
    let (answers, state) := store.appendAll calls state
    (answer :: answers, state)

/-- The history itself. -/
def memory : HistoryStore History where
  load := .ok
  save history _ := (.ok (), history)

end HistoryStore
end Markers

import Markers.Aggregation
import Markers.Json.Reader
import Markers.Json.Record

/-!
# Histories

A history maps timestamps to snapshots, which are the counts of all projects at that time. Its
series list values over time, ordered by instant and then by the text of the timestamp. The text of
a history is a JSON object of snapshots; `History.parse?` also takes older names of the fields of a
count, and `History.render` writes the current ones.
-/

namespace Markers

/-- Values over time. -/
structure Series where
  title : String
  points : List (String × Nat)
deriving DecidableEq, Repr

/-- The snapshots taken so far, by the text of their timestamps. -/
structure History where
  snapshots : SortedMap String (List ProjectCount)
deriving DecidableEq, Repr

namespace History

/-- No snapshots. -/
def empty : History :=
  ⟨.empty⟩

/-- The history with a snapshot, in place of one under the same timestamp. -/
def insert (history : History) (timestamp : String) (counts : List ProjectCount) :
    Except Failure History := do
  let _ ← Instant.ofTimestamp timestamp
  return ⟨history.snapshots.insert timestamp counts⟩

/-- Number of snapshots. -/
def size (history : History) : Nat :=
  history.snapshots.size

/-- The timestamps in the order of their texts. -/
def timestamps (history : History) : List String :=
  history.snapshots.keys

/-- The snapshot under a timestamp. -/
def get? (history : History) (timestamp : String) : Option (List ProjectCount) :=
  history.snapshots.get? timestamp

/-- The order of snapshots, each behind the instant it was taken at: by instant, then by the text of
the timestamp. -/
def compareDated (a b : Instant × String × List ProjectCount) : Ordering :=
  compareLex (compareOn (·.1)) (compareOn (·.2.1)) a b

/-- The snapshots by instant, and by the text of the timestamp for one instant. -/
def chronological (history : History) : Except Failure (List (String × List ProjectCount)) := do
  let dated ← history.snapshots.entries.mapM fun snapshot => do
    let instant ← Instant.ofTimestamp snapshot.1
    return (instant, snapshot)
  return (dated.mergeSort fun a b => (compareDated a b).isLE).map (·.2)

/-- The total of every project under each timestamp; of several counts of one name the last. -/
def totals (history : History) : List (String × SortedMap String Nat) :=
  history.snapshots.entries.map fun (timestamp, counts) =>
    (timestamp, .ofList (counts.map fun count => (count.name, count.total)))

/-- Every keyword that some snapshot counts. -/
def kinds (history : History) : SortedSet String :=
  .ofList <| history.snapshots.values.flatMap fun counts =>
    counts.flatMap fun count => count.kinds.keys

/-- The names of all projects that some snapshot counts. -/
def projectNames (snapshots : List (String × List ProjectCount)) : SortedSet String :=
  .ofList (snapshots.flatMap fun snapshot => snapshot.2.map ProjectCount.name)

/-- The total of numbers, kept in the 64 bits of a stored count. -/
def wordSum (numbers : List Nat) : Nat :=
  sum numbers % Json.word

/-- A series per project, with a point for each of its counts. -/
def projectSeries (history : History) : Except Failure (List Series) := do
  let snapshots ← history.chronological
  return (projectNames snapshots).members.map fun name =>
    ⟨name, snapshots.flatMap fun (timestamp, counts) =>
      (counts.filter (·.name == name)).map fun count => (timestamp, count.total)⟩

/-- A series per keyword, over all projects. -/
def kindSeries (history : History) : Except Failure (List Series) := do
  let snapshots ← history.chronological
  return history.kinds.members.map fun kind =>
    ⟨kind, snapshots.map fun (timestamp, counts) =>
      (timestamp, wordSum (counts.map (·.ofKeyword kind)))⟩

/-- The series of the totals of all projects together. -/
def totalSeries (history : History) (title : String) : Except Failure Series := do
  let snapshots ← history.chronological
  return ⟨title, snapshots.map fun (timestamp, counts) =>
    (timestamp, wordSum (counts.map ProjectCount.total))⟩

end History

namespace ProjectCount

/-- The count as JSON. -/
def toJson (count : ProjectCount) : Json :=
  .ofFields [("name", .ofString count.name), ("total", .natural count.total),
    ("kinds", .ofFields (count.kinds.entries.map fun kind => (kind.1, .natural kind.2)))]

/-- The fields of a count, with the names they had before. -/
def fields : List Json.Field :=
  [⟨["name", "ProjectName"], false⟩, ⟨["total", "TotalCount"], false⟩,
    ⟨["kinds", "LevelCount"], true⟩]

/-- The numbers by keyword that a JSON object gives; the last value of a repeated key counts. -/
def kindsOfJson? (value : Json) : Option (SortedMap String Nat) := do
  let entries ← value.entries?
  let kinds ← entries.mapM fun entry => (entry.2.naturalIn? Json.word).map fun n => (entry.1, n)
  return .ofList kinds

/-- The count that a JSON record gives. -/
def ofJson? (value : Json) : Option ProjectCount :=
  match value.readRecord? fields with
  | some [some name, some total, kinds] => do
    let name ← name.text?
    let total ← total.naturalIn? Json.word
    let kinds ← match kinds with
      | some kinds => kindsOfJson? kinds
      | none => some .empty
    return ⟨name, total, kinds⟩
  | _ => none

/-- The counts that a JSON array gives. -/
def listOfJson? (value : Json) : Option (List ProjectCount) := do
  let items ← value.items?
  items.mapM ofJson?

end ProjectCount

namespace History

/-- The history as JSON. -/
def toJson (history : History) : Json :=
  .ofFields (history.snapshots.entries.map fun (timestamp, counts) =>
    (timestamp, .array (counts.map ProjectCount.toJson)))

/-- The text of a history. -/
def render (history : History) : String :=
  history.toJson.pretty

/-- The history that a JSON object gives; the last snapshot of a repeated timestamp counts. -/
def ofJson? (value : Json) : Option History := do
  let entries ← value.entries?
  let snapshots ← entries.mapM fun entry =>
    (ProjectCount.listOfJson? entry.2).map fun counts => (entry.1, counts)
  return ⟨.ofList snapshots⟩

/-- The history that a text writes; a blank text is an empty one. -/
def parse? (text : List Char) : Option History :=
  if Text.trim text = [] then some empty else (Json.parse? text).bind ofJson?

end History
end Markers

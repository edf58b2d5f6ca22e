import Markers.Proofs.Aggregation
import Markers.Proofs.Plot

/-!
# Counts from the scan to the chart

A snapshot of an aggregation is `Balanced`: its projects add up to the total, and so do the numbers
by kind. At a timestamp of a history each of the three kinds of series sums up the snapshot stored
there (`valuesAt_totalSeries`, `sum_valuesAt_projectSeries`, `sum_valuesAt_kindSeries`). So the
charts show the total of the aggregation that was recorded last (`series_conserve`), whatever
projects and kinds the other ones have.
-/

namespace Markers

/-! ## Aggregations -/

/-- That counts of projects add up to a total, and their numbers by kind to the totals. -/
structure Balanced (counts : List ProjectCount) (total : Nat) : Prop where
  projects : sum (counts.map ProjectCount.total) = total
  kinds : ∀ count ∈ counts, sum count.kinds.values = count.total

namespace Aggregation

theorem total_foldl_absorb (count : ProjectCount) (parts : List ProjectCount) :
    (parts.foldl ProjectCount.absorb count).total =
      count.total + sum (parts.map ProjectCount.total) := by
  induction parts generalizing count with
  | nil => rfl
  | cons part parts ih =>
    rw [List.foldl_cons, ih, List.map_cons, sum_cons, ← Nat.add_assoc]
    rfl

/-- The snapshot of a session is balanced. -/
theorem balanced_snapshot (scans : List FileScan) (map : ProjectMap) :
    Balanced (build (Session.ofScans scans) map).snapshot
      (build (Session.ofScans scans) map).total.total where
  projects := by
    have total := total_foldl_absorb (.zero "Total" (Session.ofScans scans).kinds.members)
      (build (Session.ofScans scans) map).snapshot
    exact (total.trans (Nat.zero_add _)).symm
  kinds := by
    intro count mem
    obtain ⟨report, reported, rfl⟩ := List.mem_map.1 mem
    obtain ⟨name, _, rfl⟩ := List.mem_map.1 reported
    have counts := counts_reportOf (Session.sound_ofScans scans) map name
    exact counts.values.trans counts.total.symm

end Aggregation

/-! ## Series -/

/-- The values of a series at a timestamp. -/
def Series.valuesAt (series : Series) (timestamp : String) : List Nat :=
  (series.points.filter (·.1 == timestamp)).map (·.2)

theorem Instant.parse_of_ofTimestamp {timestamp : String} {instant : Instant}
    (written : ofTimestamp timestamp = .ok instant) : parse timestamp = .ok instant := by
  rw [ofTimestamp] at written
  split at written
  · next parsed => cases written; exact parsed
  · cases written

namespace History
variable {history : History} {snapshots : List (String × List ProjectCount)}
  {timestamp title : String} {counts : List ProjectCount}

/-- Ordered snapshots stand behind their instants, sorted. -/
theorem exists_dated (ordered : history.chronological = .ok snapshots) :
    ∃ dated : List (Instant × String × List ProjectCount),
      snapshots = (dated.mergeSort fun a b => (compareDated a b).isLE).map (·.2) ∧
      dated.map (·.2) = history.snapshots.entries ∧
      ∀ snapshot ∈ dated, Instant.parse snapshot.2.1 = .ok snapshot.1 := by
  simp only [chronological, bind, Except.bind, pure, Except.pure] at ordered
  split at ordered
  · cases ordered
  · next dated found =>
    cases ordered
    refine ⟨dated, rfl, ?_, fun snapshot mem => ?_⟩
    · refine map_of_mapM_eq_ok (fun snapshot dated here => ?_) found
      split at here
      · cases here
      · cases here
        rfl
    · obtain ⟨stored, _, here⟩ := exists_of_mem_mapM_eq_ok found mem
      split at here
      · cases here
      · next instant written =>
        cases here
        exact Instant.parse_of_ofTimestamp written

/-- Ordered by time, the snapshots are those of the history. -/
theorem perm_chronological (ordered : history.chronological = .ok snapshots) :
    snapshots.Perm history.snapshots.entries := by
  obtain ⟨dated, rfl, same, _⟩ := exists_dated ordered
  rw [← same]
  exact (List.mergeSort_perm dated _).map _

/-- At a timestamp there is the one snapshot stored under it. -/
theorem filter_chronological (ordered : history.chronological = .ok snapshots)
    (stored : history.get? timestamp = some counts) :
    snapshots.filter (·.1 == timestamp) = [(timestamp, counts)] := by
  have perm := (perm_chronological ordered).filter (·.1 == timestamp)
  have one := SortedMap.filter_entries history.snapshots timestamp
  rw [one, show history.snapshots.get? timestamp = some counts from stored] at perm
  exact List.perm_singleton.1 perm

/-- The values at a timestamp are those made of its snapshots. -/
theorem valuesAt_flatMap (f : List ProjectCount → List Nat) (title timestamp : String)
    (snapshots : List (String × List ProjectCount)) :
    Series.valuesAt ⟨title, snapshots.flatMap fun s => (f s.2).map (s.1, ·)⟩ timestamp =
      (snapshots.filter (·.1 == timestamp)).flatMap fun s => f s.2 := by
  rw [Series.valuesAt]
  induction snapshots with
  | nil => rfl
  | cons s snapshots ih =>
    rw [List.flatMap_cons, List.filter_append, List.map_append, ih]
    cases here : s.1 == timestamp <;> simp [here, List.filter_map, Function.comp_def]

/-- The series of a history whose snapshots can be ordered. -/
theorem exists_series (ordered : history.chronological = .ok snapshots) (title : String) :
    ∃ projects kinds total, history.projectSeries = .ok projects ∧
      history.kindSeries = .ok kinds ∧ history.totalSeries title = .ok total := by
  rw [projectSeries, kindSeries, totalSeries, ordered]
  exact ⟨_, _, _, rfl, rfl, rfl⟩

section At
variable (ordered : history.chronological = .ok snapshots)
  (stored : history.get? timestamp = some counts)
include ordered stored

/-- A series with one value for each snapshot. -/
theorem valuesAt_map (f : List ProjectCount → Nat) (title : String) :
    Series.valuesAt ⟨title, snapshots.map fun s => (s.1, f s.2)⟩ timestamp = [f counts] := by
  have values := valuesAt_flatMap (fun counts => [f counts]) title timestamp snapshots
  rw [filter_chronological ordered stored] at values
  simpa [← List.map_eq_flatMap] using values

theorem valuesAt_totalSeries {series : Series} (made : history.totalSeries title = .ok series) :
    series.valuesAt timestamp = [wordSum (counts.map ProjectCount.total)] := by
  rw [totalSeries, ordered] at made
  cases made
  exact valuesAt_map ordered stored (fun counts => wordSum (counts.map ProjectCount.total)) title

/-- The projects' series together have the total of each count of the snapshot. -/
theorem sum_valuesAt_projectSeries {series : List Series}
    (made : history.projectSeries = .ok series) :
    sum (series.flatMap (·.valuesAt timestamp)) = sum (counts.map ProjectCount.total) := by
  rw [projectSeries, ordered] at made
  cases made
  have named : ∀ count ∈ counts, count.name ∈ (projectNames snapshots).members := by
    intro count mem
    have snapshot : (timestamp, counts) ∈ snapshots := by
      apply List.mem_of_mem_filter (p := (·.1 == timestamp))
      rw [filter_chronological ordered stored]
      exact List.mem_singleton_self _
    rw [projectNames, SortedSet.mem_ofList]
    exact List.mem_flatMap.2 ⟨_, snapshot, List.mem_map_of_mem mem⟩
  have parts := (perm_flatMap_filter ProjectCount.name (projectNames snapshots).nodup_members
    named).map ProjectCount.total
  rw [List.map_flatMap] at parts
  have values (name : String) := valuesAt_flatMap
    (fun counts => (counts.filter (·.name == name)).map ProjectCount.total) name timestamp snapshots
  simp only [filter_chronological ordered stored, List.flatMap_singleton, List.map_map] at values
  rw [List.flatMap_map, ← sum_perm parts]
  exact congrArg sum (List.flatMap_congr fun name _ => values name)

/-- The kinds' series together have the numbers of all counts of the snapshot. -/
theorem sum_valuesAt_kindSeries {series : List Series} (made : history.kindSeries = .ok series)
    (fits : sum (counts.map fun count => sum count.kinds.values) < Json.word) :
    sum (series.flatMap (·.valuesAt timestamp)) =
      sum (counts.map fun count => sum count.kinds.values) := by
  rw [kindSeries, ordered] at made
  cases made
  let number (kind : String) : Nat := sum (counts.map (·.ofKeyword kind))
  have listed : ∀ count ∈ counts, ∀ keyword ∈ count.kinds.keys, keyword ∈ history.kinds.members := by
    intro count mem keyword key
    rw [kinds, SortedSet.mem_ofList]
    refine List.mem_flatMap.2 ⟨counts, SortedMap.mem_values_of_get? stored, ?_⟩
    exact List.mem_flatMap.2 ⟨count, mem, key⟩
  have all : sum (history.kinds.members.map number) =
      sum (counts.map fun count => sum count.kinds.values) := by
    rw [sum_map_comm]
    refine congrArg sum (List.map_congr_left fun count mem => ?_)
    exact count.kinds.sum_map_get? history.kinds.nodup_members (listed count mem)
  -- each number is a part of the sum, so it is not cut
  have values : ∀ kind ∈ history.kinds.members,
      Series.valuesAt ⟨kind, snapshots.map fun s =>
        (s.1, wordSum (s.2.map (·.ofKeyword kind)))⟩ timestamp = [number kind] := by
    intro kind mem
    rw [valuesAt_map ordered stored (fun counts => wordSum (counts.map (·.ofKeyword kind))) kind]
    have le : number kind ≤ sum (history.kinds.members.map number) :=
      le_sum_of_mem (List.mem_map_of_mem mem)
    have small : number kind < Json.word := by omega
    exact congrArg (fun n => [n]) (Nat.mod_eq_of_lt small)
  rw [List.flatMap_map, ← all, List.map_eq_flatMap]
  exact congrArg sum (List.flatMap_congr values)

/-- Each kind of series has the total of a balanced snapshot. -/
theorem values_of_balanced {n : Nat} (balanced : Balanced counts n) (fits : n < Json.word)
    {projects kinds : List Series} {total : Series} (byProject : history.projectSeries = .ok projects)
    (byKind : history.kindSeries = .ok kinds) (inAll : history.totalSeries title = .ok total) :
    total.valuesAt timestamp = [n] ∧ sum (projects.flatMap (·.valuesAt timestamp)) = n ∧
      sum (kinds.flatMap (·.valuesAt timestamp)) = n := by
  have numbers : sum (counts.map fun count => sum count.kinds.values) = n :=
    (congrArg sum (List.map_congr_left balanced.kinds)).trans balanced.projects
  refine ⟨?_, ?_, ?_⟩
  · rw [valuesAt_totalSeries ordered stored inAll, wordSum, balanced.projects, Nat.mod_eq_of_lt fits]
  · rw [sum_valuesAt_projectSeries ordered stored byProject, balanced.projects]
  · rw [sum_valuesAt_kindSeries ordered stored byKind (numbers ▸ fits), numbers]

end At

/-! ## Histories of aggregations -/

/-- The history with snapshots inserted one after the other. -/
def insertAll (history : History) (inserted : List (String × List ProjectCount)) :
    Except Failure History :=
  inserted.foldlM (fun history snapshot => history.insert snapshot.1 snapshot.2) history

theorem insertAll_of_isTimestamp {inserted : List (String × List ProjectCount)}
    (valid : ∀ snapshot ∈ inserted, IsTimestamp snapshot.1) :
    history.insertAll inserted = .ok
      ⟨inserted.foldl (fun map snapshot => map.insert snapshot.1 snapshot.2) history.snapshots⟩ := by
  induction inserted generalizing history with
  | nil => rfl
  | cons snapshot inserted ih =>
    obtain ⟨here, valid⟩ := List.forall_mem_cons.1 valid
    rw [insertAll, List.foldlM_cons, insert_of_isTimestamp here]
    exact ih valid

/-- A history has the snapshot inserted last under each timestamp. -/
theorem exists_insertAll {inserted : List (String × List ProjectCount)}
    (valid : ∀ snapshot ∈ inserted, IsTimestamp snapshot.1) :
    ∃ history, empty.insertAll inserted = .ok history ∧ ∀ timestamp,
      history.get? timestamp = (inserted.reverse.find? (·.1 == timestamp)).map (·.2) := by
  refine ⟨_, insertAll_of_isTimestamp valid, fun timestamp => ?_⟩
  have last := SortedMap.get?_foldl_insert (·.1) (·.2) inserted .empty timestamp
  have same : (fun snapshot : String × List ProjectCount => compare timestamp snapshot.1 == .eq) =
      (·.1 == timestamp) := by
    funext snapshot
    rw [Bool.eq_iff_iff, beq_iff_eq, beq_iff_eq, Std.LawfulEqOrd.compare_eq_iff_eq, eq_comm]
  rw [same] at last
  exact last.trans Option.or_none

theorem mem_timestamps : timestamp ∈ history.timestamps ↔ (history.get? timestamp).isSome = true :=
  SortedMap.mem_keys_iff

/-- **Counts are conserved.** A history of aggregations has a snapshot for each timestamp, and its
series can be made. At each timestamp the value of the total, the values of all projects together
and those of all kinds together are the total of the aggregation that was recorded there last. -/
theorem series_conserve {runs : List (String × Aggregation)} (title : String)
    (valid : ∀ run ∈ runs, IsTimestamp run.1)
    (built : ∀ run ∈ runs, ∃ scans map, run.2 = Aggregation.build (Session.ofScans scans) map)
    (fits : ∀ run ∈ runs, run.2.total.total < Json.word) :
    ∃ history projects kinds total,
      empty.insertAll (runs.map fun run => (run.1, run.2.snapshot)) = .ok history ∧
      history.projectSeries = .ok projects ∧ history.kindSeries = .ok kinds ∧
      history.totalSeries title = .ok total ∧
      (∀ timestamp, timestamp ∈ history.timestamps ↔ timestamp ∈ runs.map (·.1)) ∧
      ∀ timestamp ∈ history.timestamps, ∃ aggregation,
        runs.reverse.find? (·.1 == timestamp) = some (timestamp, aggregation) ∧
        total.valuesAt timestamp = [aggregation.total.total] ∧
        sum (projects.flatMap (·.valuesAt timestamp)) = aggregation.total.total ∧
        sum (kinds.flatMap (·.valuesAt timestamp)) = aggregation.total.total := by
  have stamped : ∀ snapshot ∈ runs.map fun run => (run.1, run.2.snapshot),
      IsTimestamp snapshot.1 := List.forall_mem_map.2 valid
  obtain ⟨history, inserted, recorded⟩ := exists_insertAll stamped
  have stored (timestamp : String) : history.get? timestamp =
      (runs.reverse.find? (·.1 == timestamp)).map (·.2.snapshot) := by
    rw [recorded, ← List.map_reverse, List.find?_map, Option.map_map]
    rfl
  have timestamps (timestamp : String) :
      timestamp ∈ history.timestamps ↔ timestamp ∈ runs.map (·.1) := by
    rw [mem_timestamps, stored, Option.isSome_map, List.find?_isSome]
    simp
  obtain ⟨snapshots, ordered⟩ := exists_chronological.2 fun timestamp mem => by
    obtain ⟨run, mem, same⟩ := List.mem_map.1 ((timestamps timestamp).1 mem)
    exact same ▸ valid run mem
  obtain ⟨projects, kinds, total, byProject, byKind, inAll⟩ := exists_series ordered title
  refine ⟨history, projects, kinds, total, inserted, byProject, byKind, inAll, timestamps, ?_⟩
  intro timestamp mem
  rw [mem_timestamps, stored, Option.isSome_map] at mem
  obtain ⟨⟨found, aggregation⟩, last⟩ := Option.isSome_iff_exists.1 mem
  have same : found = timestamp := by simpa using List.find?_some last
  subst same
  have ran := List.mem_reverse.1 (List.mem_of_find?_eq_some last)
  have here := stored found
  rw [last, Option.map_some] at here
  have fits := fits _ ran
  obtain ⟨scans, map, rfl⟩ := built _ ran
  have balanced := Aggregation.balanced_snapshot scans map
  exact ⟨_, last, values_of_balanced ordered here balanced fits byProject byKind inAll⟩

/-- A run over one file with a marker of each of the given kinds. -/
private def runOver (name : String) (kinds : List Kind) (map : ProjectMap) : Aggregation :=
  .build (.ofScans [⟨⟨name⟩, kinds.map fun kind => ⟨"", kind, ⟨name⟩, ⟨1, 1⟩, ⟨1, 2⟩⟩⟩]) map

/-- Two spellings of an instant are two timestamps, and one recorded twice has the later run. -/
theorem series_conserve_replaced :
    let runs := [("2024-03-01T10:00:00Z", runOver "a.cs" [.todo, .bug] ⟨[]⟩),
      ("2024-03-01T11:00:00+01:00", runOver "p/a.cs" [.net (.one 3)] ⟨[⟨"p", ⟨"p"⟩, none⟩]⟩),
      ("2024-03-01T10:00:00Z", runOver "p/b.cs" [.todo, .todo, .note] ⟨[⟨"p", ⟨"p"⟩, none⟩]⟩)]
    (∀ run ∈ runs, IsTimestamp run.1) ∧
    (∀ run ∈ runs, ∃ scans map, run.2 = Aggregation.build (Session.ofScans scans) map) ∧
    (∀ run ∈ runs, run.2.total.total < Json.word) ∧
    ∃ history projects kinds,
      empty.insertAll (runs.map fun run => (run.1, run.2.snapshot)) = .ok history ∧
      history.projectSeries = .ok projects ∧ history.kindSeries = .ok kinds ∧
      sum (projects.flatMap (·.valuesAt "2024-03-01T10:00:00Z")) = 3 ∧
      sum (kinds.flatMap (·.valuesAt "2024-03-01T10:00:00Z")) = 3 := by
  intro runs
  have valid : ∀ run ∈ runs, IsTimestamp run.1 := by decide +kernel
  have built : ∀ run ∈ runs, ∃ scans map,
      run.2 = Aggregation.build (Session.ofScans scans) map := by
    simp only [runs, List.forall_mem_cons]
    exact ⟨⟨_, _, rfl⟩, ⟨_, _, rfl⟩, ⟨_, _, rfl⟩, nofun⟩
  have fits : ∀ run ∈ runs, run.2.total.total < Json.word := by decide +kernel
  obtain ⟨history, projects, kinds, _, inserted, byProject, byKind, _, timestamps, sums⟩ :=
    series_conserve "All" valid built fits
  obtain ⟨aggregation, last, _, projectSum, kindSum⟩ :=
    sums "2024-03-01T10:00:00Z" ((timestamps _).2 (by decide +kernel))
  have three : ((runs.reverse.find? (·.1 == "2024-03-01T10:00:00Z")).map (·.2.total.total)) =
      some 3 := by decide +kernel
  rw [last] at three
  have three := Option.some.inj three
  exact ⟨valid, built, fits, history, projects, kinds, inserted, byProject, byKind,
    projectSum.trans three, kindSum.trans three⟩

end History
end Markers

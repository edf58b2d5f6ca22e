import Markers.Plot
import Markers.Proofs.HistoryStore

/-!
# Plots of a history

The series of a history can be made exactly if every timestamp in it is one, and so can its plots.
-/

namespace Markers

/-- The snapshots of a history can be ordered exactly if each has an instant. -/
theorem History.exists_chronological {history : History} :
    (∃ snapshots, history.chronological = .ok snapshots) ↔
      ∀ timestamp ∈ history.timestamps, IsTimestamp timestamp := by
  have dated : (∃ dated, (history.snapshots.entries.mapM fun snapshot => do
        let instant ← Instant.ofTimestamp snapshot.1
        return (instant, snapshot)) = .ok dated) ↔
      ∀ timestamp ∈ history.timestamps, IsTimestamp timestamp := by
    rw [exists_mapM_eq_ok, timestamps, SortedMap.keys, List.forall_mem_map]
    refine forall₂_congr fun snapshot _ => ?_
    rw [IsTimestamp, Instant.ofTimestamp]
    cases Instant.parse snapshot.1 <;> simp [bind, Except.bind, pure, Except.pure]
  rw [← dated, chronological]
  cases history.snapshots.entries.mapM fun snapshot => do
    let instant ← Instant.ofTimestamp snapshot.1
    return (instant, snapshot) <;> simp [bind, Except.bind, pure, Except.pure]

/-- A history has plots exactly if each of its timestamps is one. -/
theorem Plot.exists_todoPlots {history : History} :
    (∃ plots, todoPlots history = .ok plots) ↔
      ∀ timestamp ∈ history.timestamps, IsTimestamp timestamp := by
  rw [← History.exists_chronological, todoPlots, History.projectSeries, History.kindSeries,
    History.totalSeries]
  cases history.chronological <;> simp [bind, Except.bind, pure, Except.pure]

end Markers

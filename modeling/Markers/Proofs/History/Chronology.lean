import Markers.Proofs.History.Series

/-!
# Snapshots in time

The snapshots of a history can be ordered unless some timestamp writes no instant, and then no series
and no chart can be made (`failure_chronological`). Ordered, they are the snapshots of the history by
their instants, and by the text of the timestamp for one instant (`increasing_chronological`). All
series follow this order, and the charts show their points (`chronology`).
-/

namespace Markers

/-- That one timestamp comes before another: it writes an earlier instant, whatever the offsets, or
both write one instant and its text comes first. -/
def EarlierThan (timestamp later : String) : Prop :=
  ∃ a b, Instant.parse timestamp = .ok a ∧ Instant.parse later = .ok b ∧
    (a.seconds < b.seconds ∨ a.seconds = b.seconds ∧
      (a.nanos < b.nanos ∨ a.nanos = b.nanos ∧ timestamp < later))

namespace History
variable {history : History} {snapshots : List (String × List ProjectCount)}

instance : Std.TransCmp compareDated :=
  inferInstanceAs (Std.TransCmp (compareLex
    (compareOn fun dated : Instant × String × List ProjectCount => dated.1)
    (compareOn fun dated => dated.2.1)))

/-- Dated snapshots are compared by instant and text. -/
theorem earlierThan_of_compareDated {a b : Instant × String × List ProjectCount}
    (parsed : Instant.parse a.2.1 = .ok a.1) (parsed' : Instant.parse b.2.1 = .ok b.1)
    (before : compareDated a b = .lt) : EarlierThan a.2.1 b.2.1 := by
  refine ⟨a.1, b.1, parsed, parsed', ?_⟩
  have order : ((compare a.1.seconds b.1.seconds).then (compare a.1.nanos b.1.nanos)).then
      (compare a.2.1 b.2.1) = .lt := before
  have text : compare a.2.1 b.2.1 = .lt ↔ a.2.1 < b.2.1 := compareOfLessAndEq_eq_lt
  rw [Ordering.then_eq_lt, Ordering.then_eq_lt, Ordering.then_eq_eq, Int.compare_eq_lt,
    Int.compare_eq_eq, Nat.compare_eq_lt, Nat.compare_eq_eq, text] at order
  rcases order with (earlier | ⟨same, earlier⟩) | ⟨⟨same, nanos⟩, first⟩
  · exact .inl earlier
  · exact .inr ⟨same, .inl earlier⟩
  · exact .inr ⟨same, .inr ⟨nanos, first⟩⟩

theorem increasing_chronological (ordered : history.chronological = .ok snapshots) :
    snapshots.Pairwise fun a b => EarlierThan a.1 b.1 := by
  obtain ⟨dated, rfl, same, parsed⟩ := exists_dated ordered
  have sorted := pairwise_mergeSort_isLE compareDated dated
  -- no timestamp comes twice
  have stored : history.snapshots.entries.Pairwise fun a b => a.1 ≠ b.1 := by
    refine history.snapshots.increasing.imp fun {a b} lt equal => ?_
    have self : compare b.1 b.1 = .eq := Std.ReflCmp.compare_self
    rw [equal, self] at lt
    cases lt
  rw [← same, List.pairwise_map] at stored
  have distinct := stored.perm (List.mergeSort_perm dated fun a b => (compareDated a b).isLE).symm
    Ne.symm
  refine List.pairwise_map.2 ((sorted.and distinct).imp_of_mem fun {a b} mem mem' h => ?_)
  refine earlierThan_of_compareDated (parsed a (List.mem_mergeSort.1 mem))
    (parsed b (List.mem_mergeSort.1 mem')) ?_
  refine (Ordering.isLE_iff_eq_lt_or_eq_eq.1 h.1).resolve_right fun equal => h.2 ?_
  exact Std.LawfulEqOrd.eq_of_compare (compareLex_eq_eq.1 equal).2

/-- What cannot be ordered has a timestamp that writes no instant. -/
theorem failure_chronological {failure : Failure} (stuck : history.chronological = .error failure) :
    ∃ timestamp ∈ history.timestamps, ∃ fault, Instant.parse timestamp = .error fault ∧
      failure = .invalidTimestamp timestamp fault := by
  simp only [chronological, bind, Except.bind, pure, Except.pure] at stuck
  split at stuck
  · next found =>
    cases stuck
    obtain ⟨snapshot, mem, here⟩ := exists_of_mapM_eq_error found
    refine ⟨snapshot.1, List.mem_map_of_mem mem, ?_⟩
    simp only [Instant.ofTimestamp] at here
    cases parsed : Instant.parse snapshot.1 with
    | ok instant => simp [parsed] at here
    | error fault =>
      simp only [parsed] at here
      cases here
      exact ⟨fault, rfl, rfl⟩
  · cases stuck

/-- The snapshots cannot be ordered exactly if some timestamp writes no instant. -/
theorem chronological_fails_iff : (∃ failure, history.chronological = .error failure) ↔
    ∃ timestamp ∈ history.timestamps, ¬IsTimestamp timestamp := by
  have ordered : (∃ snapshots, history.chronological = .ok snapshots) ↔
      ∀ timestamp ∈ history.timestamps, IsTimestamp timestamp := exists_chronological
  constructor
  · rintro ⟨failure, stuck⟩
    obtain ⟨timestamp, mem, fault, parsed, _⟩ := failure_chronological stuck
    refine ⟨timestamp, mem, fun ⟨instant, parsed'⟩ => ?_⟩
    rw [parsed] at parsed'
    cases parsed'
  · rintro ⟨timestamp, mem, invalid⟩
    cases found : history.chronological with
    | error failure => exact ⟨failure, rfl⟩
    | ok snapshots => exact absurd (ordered.1 ⟨snapshots, found⟩ timestamp mem) invalid

end History

/-! ## Series -/

/-- That a series has a point at a snapshot for each count of its project there, and in the order of
the snapshots. -/
structure Series.OfProject (series : Series) (snapshots : List (String × List ProjectCount)) :
    Prop where
  each : series.points.map (·.1) = snapshots.flatMap fun snapshot =>
    List.replicate (snapshot.2.countP (·.name == series.title)) snapshot.1
  named : ∀ point ∈ series.points, ∃ counts, (point.1, counts) ∈ snapshots ∧
    ∃ count ∈ counts, count.name = series.title
  ordered : series.points.Pairwise fun p q => p.1 = q.1 ∨ EarlierThan p.1 q.1

/-- That a chart has a line for each of some series, with as many values as timestamps. -/
structure Plot.Shows (plot : Plot) (series : List Series) : Prop where
  even : ∀ line ∈ plot.data, line.x.length = line.y.length
  points : plot.data.map (fun line => ⟨line.title, line.x.zip line.y⟩) = series

/-- A chart of lines made from series shows them. -/
theorem Plot.shows_map {α : Type} (title image : String) (l : List α) (f : α → Series)
    (dotted : α → Bool) :
    Shows ⟨title, image, l.map fun a => ofSeries (f a) (dotted a)⟩ (l.map f) where
  even := by
    intro line mem
    obtain ⟨a, _, rfl⟩ := List.mem_map.1 mem
    simp [ofSeries]
  points := by
    rw [List.map_map]
    refine List.map_congr_left fun a _ => ?_
    have zipped : ((f a).points.map (·.1)).zip ((f a).points.map (·.2)) = (f a).points := by
      rw [List.zip_map']
      exact List.map_id _
    exact congrArg (Series.mk (f a).title) zipped

namespace History
variable {history : History} {snapshots : List (String × List ProjectCount)}

/-- The points of a project, as its series has them. -/
theorem ofProject_points (increasing : snapshots.Pairwise fun a b => EarlierThan a.1 b.1)
    (name : String) :
    Series.OfProject ⟨name, snapshots.flatMap fun (timestamp, counts) =>
      (counts.filter (·.name == name)).map fun count => (timestamp, count.total)⟩ snapshots where
  each := by
    rw [List.map_flatMap]
    refine List.flatMap_congr fun snapshot _ => ?_
    rw [List.map_map, List.countP_eq_length_filter]
    exact List.map_const' ..
  named := by
    intro point mem
    obtain ⟨snapshot, stored, mem⟩ := List.mem_flatMap.1 mem
    obtain ⟨count, counted, rfl⟩ := List.mem_map.1 mem
    obtain ⟨counted, name⟩ := List.mem_filter.1 counted
    exact ⟨snapshot.2, stored, count, counted, eq_of_beq name⟩
  ordered := by
    refine List.pairwise_flatMap.2 ⟨fun snapshot _ => ?_, increasing.imp fun {a b} earlier => ?_⟩
    · exact List.pairwise_map.2 (List.pairwise_of_forall fun _ _ => .inl rfl)
    · intro p mem q mem'
      obtain ⟨_, _, rfl⟩ := List.mem_map.1 mem
      obtain ⟨_, _, rfl⟩ := List.mem_map.1 mem'
      exact .inr earlier

/-- That the series of a history follow some snapshots, and its charts show the series. -/
structure Charted (history : History) (snapshots : List (String × List ProjectCount)) : Prop where
  /-- The total has one point for each snapshot. -/
  total : ∀ title, ∃ series, history.totalSeries title = .ok series ∧
    series.points.map (·.1) = snapshots.map (·.1)
  /-- A kind has one point for each snapshot. -/
  kinds : ∃ all, history.kindSeries = .ok all ∧
    ∀ series ∈ all, series.points.map (·.1) = snapshots.map (·.1)
  projects : ∃ all, history.projectSeries = .ok all ∧ ∀ series ∈ all, series.OfProject snapshots
  plots : ∃ byProject byKind inAll projects kinds total, history.projectSeries = .ok byProject ∧
    history.kindSeries = .ok byKind ∧ history.totalSeries "Total" = .ok inAll ∧
    Plot.todoPlots history = .ok [projects, kinds, total] ∧ projects.Shows byProject ∧
    kinds.Shows (byKind.map fun series => { series with title := series.title ++ " Total" }) ∧
    total.Shows [inAll]

theorem charted_of_chronological (ordered : history.chronological = .ok snapshots) :
    history.Charted snapshots where
  total title := by
    rw [totalSeries, ordered]
    exact ⟨_, rfl, List.map_map⟩
  kinds := by
    rw [kindSeries, ordered]
    refine ⟨_, rfl, fun series mem => ?_⟩
    obtain ⟨kind, _, rfl⟩ := List.mem_map.1 mem
    exact List.map_map
  projects := by
    rw [projectSeries, ordered]
    refine ⟨_, rfl, fun series mem => ?_⟩
    obtain ⟨name, _, rfl⟩ := List.mem_map.1 mem
    exact ofProject_points (increasing_chronological ordered) name
  plots := by
    obtain ⟨byProject, byKind, inAll, projects, kinds, total⟩ := exists_series ordered "Total"
    refine ⟨byProject, byKind, inAll, ?_, ?_, ?_, projects, kinds, total, ?made, ?_, ?_, ?_⟩
    case made =>
      rw [Plot.todoPlots, projects, kinds, total]
      rfl
    · have shown := Plot.shows_map "TO-DO per Project" Plot.projectImage byProject id fun series =>
        Text.contains "Tests".toList series.title.toList
      rwa [List.map_id] at shown
    · exact Plot.shows_map ..
    · exact Plot.shows_map "TO-DO - Total" Plot.totalImage [inAll] id fun _ => false

/-- **Chronology.** The snapshots of a history cannot be ordered exactly if one of its timestamps
writes no instant; then its series and charts fail for the same reason. Otherwise they are ordered by
instant and text, all series follow that order, and the charts show the series. -/
theorem chronology (history : History) :
    ((∃ failure, history.chronological = .error failure) ↔
      ∃ timestamp ∈ history.timestamps, ¬IsTimestamp timestamp) ∧
    (∀ failure, history.chronological = .error failure → history.projectSeries = .error failure ∧
      history.kindSeries = .error failure ∧ (∀ title, history.totalSeries title = .error failure) ∧
      Plot.todoPlots history = .error failure) ∧
    ∀ snapshots, history.chronological = .ok snapshots →
      snapshots.Perm history.snapshots.entries ∧
      snapshots.Pairwise (fun a b => EarlierThan a.1 b.1) ∧ history.Charted snapshots := by
  refine ⟨chronological_fails_iff, fun failure stuck => ?_, fun snapshots ordered =>
    ⟨perm_chronological ordered, increasing_chronological ordered,
      charted_of_chronological ordered⟩⟩
  have projects : history.projectSeries = .error failure := by
    rw [projectSeries, stuck]
    rfl
  have kinds : history.kindSeries = .error failure := by
    rw [kindSeries, stuck]
    rfl
  refine ⟨projects, kinds, fun title => ?_, ?_⟩
  · rw [totalSeries, stuck]
    rfl
  · rw [Plot.todoPlots, projects]
    rfl

end History
end Markers

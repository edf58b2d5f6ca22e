import Markers.Proofs.Plot
import Markers.Proofs.Run.Artifacts

/-!
# Runs one after the other

A run that ends well leaves files that can be written once more and a history that can be loaded and
drawn (`Ready`), so the next run ends well if its timestamp is one (`Ready.run`). It counts the same
as long as no file that a run writes decides on what is counted (`Apart`). Both hold again behind
the next run, so they hold behind any number of runs (`runAll_again`).

An output folder that lies below the source folder is enough (`apart_of_below`), and a source folder
inside the output folder is not: there the next run scans what this one wrote (`filesScanned_lt`).
-/

namespace Markers

namespace Settings
open FileAction FileSystem
variable {settings : Settings} {fs reported recorded after : FileSystem} {now : String}
  {names : List String} {outcome : Outcome} {session : Session} {aggregation : Aggregation}
  {history : History} {timestamp : Option String} {repo : Option Repository}

/-- What a run that ends well has done, step by step. -/
theorem run_eq_ok : settings.run now fs = (.ok outcome, after) ↔
    ∃ session aggregation repo reported history timestamp recorded plots,
      settings.survey fs = .ok (session, aggregation, repo) ∧
      writeFile settings.reportPath (fs.renderReport settings repo aggregation).toList fs =
        (.ok (), reported) ∧
      settings.updateHistory now aggregation reported = (.ok (history, timestamp), recorded) ∧
      Plot.todoPlots history = .ok plots ∧
      writeFile settings.plotsPath (Plot.listToJson plots).pretty.toList recorded =
        (.ok (), after) ∧
      outcome = ⟨aggregation, session.fileCount, repo, timestamp, history.size,
        settings.reportPath, settings.historyPath, settings.plotsPath⟩ := by
  unfold run
  constructor
  · intro ran
    obtain ⟨⟨session, aggregation, repo⟩, _, found, ran⟩ := bind_eq_ok_iff.1 ran
    obtain ⟨surveyed, rfl⟩ := ask_eq.1 found
    obtain ⟨report, _, rendered, ran⟩ := bind_eq_ok_iff.1 ran
    obtain ⟨same, rfl⟩ := ask_eq.1 rendered
    rw [← Except.ok.inj same] at ran
    obtain ⟨_, reported, wrote, ran⟩ := bind_eq_ok_iff.1 ran
    obtain ⟨⟨history, timestamp⟩, recorded, records, ran⟩ := bind_eq_ok_iff.1 ran
    obtain ⟨plots, _, drawn, ran⟩ := bind_eq_ok_iff.1 ran
    obtain ⟨plotted, rfl⟩ := ask_eq.1 drawn
    obtain ⟨_, final, writes, ran⟩ := bind_eq_ok_iff.1 ran
    rw [pure_apply] at ran
    cases ran
    exact ⟨session, aggregation, repo, reported, history, timestamp, _, plots, surveyed, wrote,
      records, plotted, writes, rfl⟩
  · rintro ⟨session, aggregation, repo, reported, history, timestamp, recorded, plots, surveyed,
      wrote, records, plotted, writes, rfl⟩
    exact bind_eq_ok_iff.2 ⟨_, fs, ask_eq.2 ⟨surveyed, rfl⟩,
      bind_eq_ok_iff.2 ⟨_, fs, ask_eq.2 ⟨rfl, rfl⟩,
      bind_eq_ok_iff.2 ⟨_, reported, wrote,
      bind_eq_ok_iff.2 ⟨_, recorded, records,
      bind_eq_ok_iff.2 ⟨_, recorded, ask_eq.2 ⟨plotted, rfl⟩,
      bind_eq_ok_iff.2 ⟨_, after, writes, rfl⟩⟩⟩⟩⟩⟩

/-! ## What a run leaves -/

/-- The artifacts lie at places of their own. -/
theorem location_artifacts_ne (default : settings.DefaultNames) (fs : FileSystem) :
    fs.location settings.reportPath ≠ fs.location settings.historyPath ∧
      fs.location settings.reportPath ≠ fs.location settings.plotsPath ∧
      fs.location settings.historyPath ≠ fs.location settings.plotsPath := by
  rw [location_reportPath default, location_historyPath default, location_plotsPath,
    default.report, default.history]
  simp

theorem updateHistory_overwrites
    (ran : settings.updateHistory now aggregation fs = (.ok (history, timestamp), after)) :
    Overwrites [fs.location settings.historyPath] fs after := by
  cases record : settings.record with
  | false =>
    rw [updateHistory_of_not_record record] at ran
    cases (Prod.mk.inj ran).2
    exact .refl _ fs
  | true =>
    obtain ⟨_, added⟩ := updateHistory_of_record record ran
    obtain ⟨_, _, _, _, saved⟩ := HistoryStore.append_eq_ok added
    exact overwrites_of_writeFile saved

/-- A run that ends well writes its artifacts and nothing else. -/
theorem run_overwrites (ran : settings.run now fs = (.ok outcome, after)) :
    Overwrites (settings.artifacts.map fs.location) fs after := by
  obtain ⟨session, aggregation, repo, reported, history, timestamp, recorded, plots, -, wrote,
    records, -, writes, -⟩ := run_eq_ok.1 ran
  have report := overwrites_of_writeFile wrote
  have middle := updateHistory_overwrites records
  have last := overwrites_of_writeFile writes
  rw [middle.location, report.location] at last
  rw [report.location] at middle
  exact ((report.mono (by simp [artifacts])).trans (middle.mono (by simp [artifacts]))).trans
    (last.mono (by simp [artifacts]))

/-- After a run that ends well its output folder can be entered. -/
theorem enters_of_run (default : settings.DefaultNames)
    (ran : settings.run now fs = (.ok outcome, after)) :
    after.Enters settings.output (fs.location settings.output) := by
  obtain ⟨session, aggregation, repo, reported, history, timestamp, recorded, plots, -, wrote,
    records, -, writes, -⟩ := run_eq_ok.1 ran
  have reports : Reported settings fs reported := ⟨_, wrote⟩
  have enters := reports.enters default
  rw [reports.changes.location] at enters
  exact (overwrites_of_writeFile writes).enters ((updateHistory_overwrites records).enters enters)

/-- What the next run finds: its files can be written once more, and each timestamp of its history
is one. -/
structure Ready (settings : Settings) (fs : FileSystem) (history : History) : Prop where
  report : fs.Rewritable settings.reportPath
  plots : fs.Rewritable settings.plotsPath
  recorded : settings.record = true → fs.Rewritable settings.historyPath
  loaded : fs.loadHistory settings.historyPath = .ok history
  dated : ∀ timestamp ∈ history.timestamps, IsTimestamp timestamp

theorem loadPlots_eq_ok {plots : List Plot} (drawn : fs.loadPlots settings = .ok plots) :
    ∃ history, fs.loadHistory settings.historyPath = .ok history ∧
      Plot.todoPlots history = .ok plots := by
  rw [loadPlots] at drawn
  cases loaded : fs.loadHistory settings.historyPath with
  | error failure => simp [loaded, bind, Except.bind] at drawn
  | ok history => exact ⟨history, rfl, by simpa [loaded, bind, Except.bind] using drawn⟩

/-- A run that ends well leaves everything ready for the next one. -/
theorem exists_ready_of_run (default : settings.DefaultNames)
    (ran : settings.run now fs = (.ok outcome, after))
    (small : outcome.aggregation.total.total < Json.word) :
    ∃ history, settings.Ready after history := by
  obtain ⟨previous, kept⟩ := (run_history default ran).1 outcome rfl small
  obtain ⟨_, drawn, _⟩ := kept.plots
  obtain ⟨final, loaded, plotted⟩ := loadPlots_eq_ok drawn
  obtain ⟨session, aggregation, repo, reported, history, timestamp, recorded, plots, -, wrote,
    records, -, writes, -⟩ := run_eq_ok.1 ran
  have distinct := location_artifacts_ne default
  have middle := (updateHistory_overwrites records).toChanges
  have last := (overwrites_of_writeFile writes).toChanges
  refine ⟨final, ?_, rewritable_of_writeFile writes, fun record => ?_, loaded,
    Plot.exists_todoPlots.1 ⟨_, plotted⟩⟩
  · exact ((rewritable_of_writeFile wrote).of_changes middle (by simp [distinct])).of_changes last
      (by simp [distinct])
  · obtain ⟨_, added⟩ := updateHistory_of_record record records
    obtain ⟨_, _, _, _, saved⟩ := HistoryStore.append_eq_ok added
    exact (rewritable_of_writeFile saved).of_changes last (by simp [distinct])

/-- A history whose file can be written once more takes one more snapshot. -/
theorem exists_updateHistory (loaded : fs.loadHistory settings.historyPath = .ok history)
    (dated : ∀ timestamp ∈ history.timestamps, IsTimestamp timestamp)
    (recorded : settings.record = true → fs.Rewritable settings.historyPath)
    (valid : settings.record = true → IsTimestamp (settings.timestamp.getD now))
    (aggregation : Aggregation) :
    ∃ history timestamp after,
      settings.updateHistory now aggregation fs = (.ok (history, timestamp), after) ∧
      ∀ timestamp ∈ history.timestamps, IsTimestamp timestamp := by
  cases record : settings.record with
  | false =>
    rw [updateHistory_of_not_record record, loaded]
    exact ⟨history, none, fs, rfl, dated⟩
  | true =>
    let next : History :=
      ⟨history.snapshots.insert (settings.timestamp.getD now) aggregation.snapshot⟩
    obtain ⟨after, saved, _⟩ := (recorded record).writeFile next.render.toList
    have added : appendSnapshot settings.historyPath (settings.timestamp.getD now)
        aggregation.snapshot fs = (.ok next, after) :=
      HistoryStore.append_of_isTimestamp loaded (valid record) saved
    refine ⟨next, some (settings.timestamp.getD now), after, ?_, ?_⟩
    · unfold updateHistory
      rw [if_pos record]
      exact bind_eq_ok_iff.2 ⟨_, after, added, rfl⟩
    · intro timestamp mem
      rcases SortedMap.mem_keys_alter.1 mem with rfl | mem
      · exact valid record
      · exact dated timestamp mem

/-- A run for which everything is ready ends well. -/
theorem Ready.run (default : settings.DefaultNames) (ready : settings.Ready fs history)
    (surveyed : settings.survey fs = .ok (session, aggregation, repo))
    (valid : settings.record = true → IsTimestamp (settings.timestamp.getD now)) :
    ∃ outcome after, settings.run now fs = (.ok outcome, after) ∧
      outcome.aggregation = aggregation ∧ outcome.filesScanned = session.fileCount := by
  have distinct := location_artifacts_ne default
  obtain ⟨reported, wrote, back⟩ :=
    ready.report.writeFile (fs.renderReport settings repo aggregation).toList
  have changes := (writeFile_changes wrote).1
  have elsewhere := (location_historyPath_ne default fs).1
  obtain ⟨history, timestamp, recorded, records, dated⟩ := exists_updateHistory
    (loadHistory_of_changes changes back elsewhere ready.loaded) ready.dated
    (fun record => (ready.recorded record).of_changes changes elsewhere) valid aggregation
  obtain ⟨plots, plotted⟩ := Plot.exists_todoPlots.2 dated
  have there : recorded.Rewritable settings.plotsPath :=
    (ready.plots.of_changes changes (by simp [distinct, Ne.symm])).of_changes
      (updateHistory_overwrites records).toChanges (by simp [distinct, Ne.symm])
  obtain ⟨after, writes, _⟩ := there.writeFile (Plot.listToJson plots).pretty.toList
  exact ⟨_, after, run_eq_ok.2 ⟨session, aggregation, repo, reported, history, timestamp, recorded,
    plots, surveyed, wrote, records, plotted, writes, rfl⟩, rfl, rfl⟩

/-! ## What is counted again -/

/-- That no file that a run writes decides on what it counts: where a walk gets to one, the filter
leaves it out, or it lies in an output folder below the source folder, which either was there before
or held no such file; and where one is taken for a manifest, it was there before. -/
structure Apart (settings : Settings) (fs : FileSystem) (source : List String) : Prop where
  files : ∀ place ∈ settings.places (fs.location settings.output), Reaches source place →
    settings.filter.accepts (.ofNames place) = true →
      settings.output.text ≠ "" ∧ source <+: fs.location settings.output ∧
        (fs.exists? settings.output = true ∨ fs.fileAt? place = none)
  manifests : ∀ place ∈ settings.places (fs.location settings.output), Reaches source place →
    ProjectMap.IsManifest settings.manifestPatterns (.ofNames place) → (fs.fileAt? place).isSome

/-- Without patterns for manifests, and with an output folder below the source folder that is there
or holds no artifacts, no file that a run writes decides on what it counts. -/
theorem apart_of_below (default : settings.DefaultNames) (usual : settings.manifestPatterns = [])
    (named : ∀ name ∈ fs.location settings.output, IsEntryName name)
    (text : settings.output.text ≠ "") (below : names <+: fs.location settings.output)
    (there : fs.exists? settings.output = true ∨
      ∀ place ∈ settings.places (fs.location settings.output), fs.fileAt? place = none) :
    settings.Apart fs names where
  files place mem _ _ := ⟨text, below, there.imp_right fun free => free place mem⟩
  manifests place mem _ manifest := by
    obtain ⟨globs, name, compiled, last, accepted⟩ := manifest
    rw [usual, if_pos rfl] at compiled
    have other : ∀ name ∈ ["TO-DO.md", "todo_history.json", "todo_plots.json"],
        (([ProjectMap.defaultPattern].mapM Glob.ofPattern).map fun globs =>
          globs.any (·.accepts name)).toOption = some false := by decide +kernel
    have artifact : name ∈ ["TO-DO.md", "todo_history.json", "todo_plots.json"] := by
      rw [Path.fileName?_ofNames (default.isEntryName_places named place mem)] at last
      simp only [places, default.report, default.history, List.mem_cons, List.not_mem_nil,
        or_false] at mem
      rcases mem with rfl | rfl | rfl <;> simp_all
    simpa [compiled, accepted, Except.map, Except.toOption] using other name artifact

/-- What holds before a run holds after it. -/
theorem Apart.again (apart : settings.Apart fs names)
    (rewrites : Overwrites (settings.places (fs.location settings.output)) fs after)
    (enters : after.Enters settings.output (fs.location settings.output)) :
    settings.Apart after names where
  files place written reached kept := by
    rw [rewrites.location] at written ⊢
    obtain ⟨text, below, -⟩ := apart.files place written reached kept
    exact ⟨text, below, .inl (enters.exists? text)⟩
  manifests place written reached manifest := by
    rw [rewrites.location] at written
    exact rewrites.file (apart.manifests place written reached manifest)

/-- A scan counts the files that the filter keeps and that no run writes. -/
theorem Apart.scanned_iff (apart : settings.Apart fs names) (tree : fs.IsTree)
    (default : settings.DefaultNames) (lies : (fs.content? names).isSome)
    (named : ∀ name ∈ fs.location settings.output, IsEntryName name) {path : Path} :
    (fs.Walks names path ∧ settings.filter.accepts path = true ∧
        ¬settings.Excludes fs (.ofNames names) path) ↔
      fs.Walks names path ∧ (settings.filter.accepts path && decide (path ∉
        (settings.places (fs.location settings.output)).map Path.ofNames)) = true := by
  rw [Bool.and_eq_true, decide_eq_true_eq, excludes_iff tree default lies]
  refine and_congr_right fun walks => and_congr_right fun kept => ?_
  constructor
  · intro counted artifact
    obtain ⟨place, rfl, file, reached⟩ := walks_iff.1 walks
    have mem := (Path.mem_map_ofNames (tree.isEntryName (isSome_content?_of_fileAt? file))
      (default.isEntryName_places named)).1 artifact
    obtain ⟨-, below, there | free⟩ := apart.files place mem reached kept
    · exact counted ⟨there, below, artifact⟩
    · simp [free] at file
  · exact fun other ⟨_, _, artifact⟩ => other artifact

/-- The source folder is scanned as before. -/
theorem Apart.scanSource_again (apart : settings.Apart fs names) (tree : fs.IsTree)
    (default : settings.DefaultNames)
    (rewrites : Overwrites (settings.places (fs.location settings.output)) fs after)
    (enters : after.Enters settings.output (fs.location settings.output))
    (lies : (fs.content? names).isSome) :
    after.scanSource settings (.ofNames names) = fs.scanSource settings (.ofNames names) := by
  have tree' := rewrites.tree tree
  have lies' := rewrites.isSome_content? lies
  have named := tree'.isEntryName (by rw [enters.folder]; rfl)
  have output := rewrites.location settings.output
  obtain ⟨found, scans, scanned, session, -, increasing, mem⟩ :=
    scanSource_ofNames tree lies settings
  obtain ⟨found', scans', scanned', session', -, increasing', mem'⟩ :=
    scanSource_ofNames tree' lies' settings
  let keep (path : Path) : Bool := settings.filter.accepts path &&
    decide (path ∉ (settings.places (fs.location settings.output)).map Path.ofNames)
  have before (path : Path) : path ∈ found ↔ fs.Walks names path ∧ keep path = true := by
    rw [mem, apart.scanned_iff tree default lies named]
  have later (path : Path) : path ∈ found' ↔ after.Walks names path ∧ keep path = true := by
    have apart' := apart.again rewrites enters
    rw [mem', apart'.scanned_iff tree' default lies' (output ▸ named), output]
  have same : found' = found := by
    refine eq_of_increasing increasing' increasing fun path => ?_
    rw [later, before]
    refine rewrites.walks_iff keep fun place written _ kept => ?_
    simp only [keep, Bool.and_eq_true, decide_eq_true_eq] at kept
    exact absurd (List.mem_map_of_mem written) kept.2
  have again : found.mapM after.scanFile = found.mapM fs.scanFile := by
    refine mapM_congr fun path mem => ?_
    obtain ⟨walks, kept⟩ := (before path).1 mem
    simp only [keep, Filter.accepts, Bool.and_eq_true, decide_eq_true_eq] at kept
    obtain ⟨⟨⟨supported, _⟩, _⟩, unwritten⟩ := kept
    exact rewrites.scanFile tree walks supported unwritten
  rw [same, again, scanned] at scanned'
  rw [session, session', Except.ok.inj scanned']

/-- What a run takes from the file system, part by part. -/
theorem survey_parts : settings.survey fs = .ok (session, aggregation, repo) ↔
    ∃ source map, fs.sourceFolder settings.source = .ok source ∧
      fs.scanSource settings source = .ok session ∧
      ProjectMap.discover fs source settings.manifestPatterns = .ok map ∧
      aggregation = Aggregation.build session map ∧
      repo = fs.describeRepository settings source := by
  rw [survey]
  cases fs.sourceFolder settings.source with
  | error => simp [bind, Except.bind]
  | ok source =>
    cases scanned : fs.scanSource settings source with
    | error => simp [bind, Except.bind, scanned]
    | ok other =>
      cases mapped : ProjectMap.discover fs source settings.manifestPatterns with
      | error => simp [bind, Except.bind, scanned, mapped]
      | ok map =>
        simp only [bind, Except.bind, pure, Except.pure, scanned, mapped, Except.ok.injEq,
          Prod.mk.injEq]
        constructor
        · rintro ⟨rfl, rfl, rfl⟩
          exact ⟨source, map, rfl, scanned, mapped, rfl, rfl⟩
        · rintro ⟨_, _, rfl, scanned', mapped', rfl, rfl⟩
          rw [scanned] at scanned'
          rw [mapped] at mapped'
          cases scanned'
          cases mapped'
          exact ⟨rfl, rfl, rfl⟩

/-- The same is counted as before. -/
theorem survey_again (tree : fs.IsTree) (default : settings.DefaultNames)
    (apart : settings.Apart fs (fs.location settings.source))
    (rewrites : Overwrites (settings.places (fs.location settings.output)) fs after)
    (enters : after.Enters settings.output (fs.location settings.output))
    (surveyed : settings.survey fs = .ok (session, aggregation, repo)) :
    ∃ repo, settings.survey after = .ok (session, aggregation, repo) := by
  obtain ⟨source, map, folder, scanned, mapped, built, -⟩ := survey_parts.1 surveyed
  obtain ⟨names, resolved, rfl⟩ := sourceFolder_eq_ok.1 folder
  rw [← eq_location_of_resolve resolved] at apart
  obtain ⟨lies, _⟩ := tree.isEntryName_of_resolve resolved
  refine ⟨after.describeRepository settings (.ofNames names),
    survey_parts.2 ⟨.ofNames names, map, ?_, ?_, ?_, built, rfl⟩⟩
  · exact sourceFolder_eq_ok.2 ⟨names, rewrites.resolve resolved, rfl⟩
  · rw [apart.scanSource_again tree default rewrites enters lies]
    exact scanned
  · rw [ProjectMap.discover_again tree rewrites lies apart.manifests]
    exact mapped

/-! ## One run after the other -/

/-- Runs with the same settings at several times, one after the other. -/
def runAll (settings : Settings) :
    List (Option String × String) → FileAction Failure (List Outcome)
  | [] => pure []
  | (timestamp, now) :: times => do
    let outcome ← run { settings with timestamp } now
    let outcomes ← runAll settings times
    return outcome :: outcomes

/-- That every run with the settings counts what is given, now and as often as it is run. -/
structure Repeats (settings : Settings) (fs : FileSystem) (session : Session)
    (aggregation : Aggregation) : Prop where
  tree : fs.IsTree
  apart : settings.Apart fs (fs.location settings.source)
  surveyed : ∃ repo, settings.survey fs = .ok (session, aggregation, repo)
  ready : ∃ history, settings.Ready fs history

/-- A run that ends well repeats. -/
theorem repeats_of_run (tree : fs.IsTree) (default : settings.DefaultNames)
    (apart : settings.Apart fs (fs.location settings.source))
    (surveyed : settings.survey fs = .ok (session, outcome.aggregation, repo))
    (ran : settings.run now fs = (.ok outcome, after))
    (small : outcome.aggregation.total.total < Json.word) :
    settings.Repeats after session outcome.aggregation := by
  have enters := enters_of_run default ran
  have rewrites := run_overwrites ran
  rw [map_location_artifacts default] at rewrites
  refine ⟨rewrites.tree tree, ?_, survey_again tree default apart rewrites enters surveyed,
    exists_ready_of_run default ran small⟩
  rw [rewrites.location]
  exact apart.again rewrites enters

/-- The timestamp of the settings does not matter for what is counted. -/
theorem Repeats.withTimestamp (repeats : settings.Repeats fs session aggregation)
    (timestamp : Option String) : Repeats { settings with timestamp } fs session aggregation := by
  obtain ⟨tree, ⟨files, manifests⟩, surveyed, history, report, plots, recorded, loaded, dated⟩ :=
    repeats
  exact ⟨tree, ⟨files, manifests⟩, surveyed, history, report, plots, recorded, loaded, dated⟩

/-- One more run ends well, counts the same, and can be repeated. -/
theorem Repeats.run (repeats : settings.Repeats fs session aggregation)
    (default : settings.DefaultNames) (small : aggregation.total.total < Json.word)
    (valid : settings.record = true → IsTimestamp (timestamp.getD now)) :
    ∃ outcome after, run { settings with timestamp } now fs = (.ok outcome, after) ∧
      outcome.aggregation = aggregation ∧ outcome.filesScanned = session.fileCount ∧
      settings.Repeats after session aggregation := by
  obtain ⟨tree, apart, ⟨repo, surveyed⟩, history, ready⟩ := repeats.withTimestamp timestamp
  have default' : DefaultNames { settings with timestamp } := ⟨default.report, default.history⟩
  obtain ⟨outcome, after, ran, rfl, count⟩ := ready.run default' surveyed valid
  have again := repeats_of_run tree default' apart surveyed ran small
  exact ⟨outcome, after, ran, rfl, count, again.withTimestamp settings.timestamp⟩

/-- Any number of further runs. -/
theorem Repeats.runAll (repeats : settings.Repeats fs session aggregation)
    (default : settings.DefaultNames) (small : aggregation.total.total < Json.word)
    {times : List (Option String × String)}
    (valid : settings.record = true → ∀ time ∈ times, IsTimestamp (time.1.getD time.2)) :
    ∃ outcomes after, settings.runAll times fs = (.ok outcomes, after) ∧
      outcomes.length = times.length ∧ ∀ outcome ∈ outcomes,
        outcome.aggregation = aggregation ∧ outcome.filesScanned = session.fileCount := by
  induction times generalizing fs with
  | nil => exact ⟨[], fs, rfl, rfl, by simp⟩
  | cons time times ih =>
    obtain ⟨timestamp, now⟩ := time
    have first : settings.record = true → IsTimestamp (timestamp.getD now) :=
      fun record => valid record (timestamp, now) (List.mem_cons_self ..)
    obtain ⟨outcome, mid, ran, same, count, repeats⟩ := repeats.run default small first
    obtain ⟨outcomes, after, others, length, all⟩ :=
      ih repeats fun record time mem => valid record time (List.mem_cons_of_mem _ mem)
    refine ⟨outcome :: outcomes, after, ?_, by simp [length], ?_⟩
    · exact bind_eq_ok_iff.2 ⟨outcome, mid, ran, bind_eq_ok_iff.2 ⟨outcomes, after, others, rfl⟩⟩
    · exact List.forall_mem_cons.2 ⟨⟨same, count⟩, all⟩

theorem exists_outcome {ended : Except Failure Outcome × FileSystem} {check : Outcome → Bool}
    (well : (ended.1.map check).toOption = some true) :
    ∃ outcome after, ended = (.ok outcome, after) ∧ check outcome = true := by
  obtain ⟨result, after⟩ := ended
  cases result with
  | error failure => simp [Except.map, Except.toOption] at well
  | ok outcome => exact ⟨outcome, after, rfl, by simpa [Except.map, Except.toOption] using well⟩

/-- **Runs repeat.** When a run ends well and no file that it writes decides on what is counted, any
number of further runs with these settings, each at a valid time, end well and count the same. -/
theorem runAll_again (tree : fs.IsTree) (default : settings.DefaultNames)
    (ran : settings.run now fs = (.ok outcome, after))
    (small : outcome.aggregation.total.total < Json.word)
    (apart : settings.Apart fs (fs.location settings.source))
    (times : List (Option String × String))
    (valid : settings.record = true → ∀ time ∈ times, IsTimestamp (time.1.getD time.2)) :
    ∃ outcomes final, settings.runAll times after = (.ok outcomes, final) ∧
      outcomes.length = times.length ∧ ∀ again ∈ outcomes,
        again.aggregation = outcome.aggregation ∧ again.filesScanned = outcome.filesScanned := by
  obtain ⟨session, aggregation, repo, reported, history, timestamp, recorded, plots, surveyed, -, -,
    -, -, rfl⟩ := run_eq_ok.1 ran
  exact (repeats_of_run tree default apart surveyed ran small).runAll default small valid

/-- Two more runs over a folder that the artifacts are written into, one of them at the same time as
the first. -/
theorem runAll_again_here :
    let fs : FileSystem := ⟨.folder [("w", .folder
      [("a.sh", .file (Text.encode "# TODO: x\n".toList)),
        ("TO-DO.md", .file (Text.encode "- [ ] TODO: y\n".toList))])], ["w"]⟩
    let settings : Settings := { Settings.ofFolders ⟨"."⟩ ⟨"."⟩ with
      timestamp := some "2024-03-01T10:00:00Z" }
    let times := [(some "2024-03-01T10:00:00Z", ""), (none, "2024-03-02T10:00:00Z")]
    ∃ outcome after outcomes final, settings.run "" fs = (.ok outcome, after) ∧
      settings.runAll times after = (.ok outcomes, final) ∧ outcomes.length = 2 ∧
      ∀ again ∈ outcomes,
        again.aggregation = outcome.aggregation ∧ again.filesScanned = outcome.filesScanned := by
  intro fs settings times
  have tree : fs.IsTree := by
    refine ⟨rfl, ?_⟩
    simp only [fs, Node.IsTree.isTree_folder, Node.IsTree.isTree_file, List.forall_mem_cons,
      List.not_mem_nil, false_implies, implies_true, and_true]
    decide +kernel
  have apart : settings.Apart fs (fs.location settings.source) := by
    refine apart_of_below ⟨rfl, rfl⟩ rfl ?_ (by decide) ?_ (.inl ?_) <;> decide +kernel
  have valid : ∀ time ∈ times, IsTimestamp (time.1.getD time.2) := by decide +kernel
  have well : ((settings.run "" fs).1.map fun outcome =>
      decide (outcome.aggregation.total.total < Json.word)).toOption = some true := by
    decide +kernel
  obtain ⟨outcome, after, ran, small⟩ := exists_outcome well
  obtain ⟨outcomes, final, again⟩ :=
    runAll_again tree ⟨rfl, rfl⟩ ran (of_decide_eq_true small) apart times fun _ => valid
  exact ⟨outcome, after, outcomes, final, ran, again⟩

/-! ## Artifacts that are scanned -/

/-- Where the output folder does not lie below the source folder but a new artifact does, it is
scanned with what was scanned before. -/
theorem fileCount_lt (tree : fs.IsTree) (default : settings.DefaultNames)
    (rewrites : Overwrites (settings.places (fs.location settings.output)) fs after)
    (lies : (fs.content? names).isSome) (outside : ¬names <+: fs.location settings.output)
    {place : List String} (reached : Reaches names place)
    (kept : settings.filter.accepts (.ofNames place) = true)
    (free : fs.fileAt? place = none) (written : (after.fileAt? place).isSome) :
    ∃ before later, fs.scanSource settings (.ofNames names) = .ok before ∧
      after.scanSource settings (.ofNames names) = .ok later ∧
      before.fileCount < later.fileCount := by
  have tree' := rewrites.tree tree
  have lies' := rewrites.isSome_content? lies
  obtain ⟨found, scans, -, session, keys, increasing, mem⟩ := scanSource_ofNames tree lies settings
  obtain ⟨found', scans', -, session', keys', -, mem'⟩ := scanSource_ofNames tree' lies' settings
  refine ⟨_, _, session, session', ?_⟩
  have left (path : Path) : ¬settings.Excludes fs (.ofNames names) path := fun excluded =>
    outside ((excludes_iff tree default lies).1 excluded).2.1
  have left' (path : Path) : ¬settings.Excludes after (.ofNames names) path := fun excluded => by
    have below := ((excludes_iff tree' default lies').1 excluded).2.1
    rw [rewrites.location] at below
    exact outside below
  have more : .ofNames place :: found ⊆ found' := by
    refine List.cons_subset.2 ⟨?_, fun path before => ?_⟩
    · exact (mem' _).2 ⟨walks_iff.2 ⟨place, rfl, written, reached⟩, kept, left' _⟩
    · obtain ⟨walks, kept, _⟩ := (mem path).1 before
      obtain ⟨other, spelled, file, reached⟩ := walks_iff.1 walks
      exact (mem' path).2
        ⟨walks_iff.2 ⟨other, spelled, rewrites.file file, reached⟩, kept, left' path⟩
  have new : .ofNames place ∉ found := by
    intro before
    obtain ⟨other, spelled, file, _⟩ := walks_iff.1 ((mem _).1 before).1
    have same := (Path.ofNames_inj (tree'.isEntryName (isSome_content?_of_fileAt? written))
      (tree.isEntryName (isSome_content?_of_fileAt? file))).1 spelled
    rw [← same, free] at file
    cases file
  have once := List.nodup_cons.2 ⟨new, nodup_of_increasing increasing⟩
  have length := (List.subperm_of_subset once more).length_le
  rw [List.length_cons, ← keys, ← keys', SortedMap.keys, SortedMap.keys, List.length_map,
    List.length_map] at length
  exact length

/-- **A run that scans what the one before wrote.** The artifacts are left out only if the whole
output folder lies below the source folder. Where it does not but a new artifact does, the next run
scans more files than the run that wrote it. -/
theorem filesScanned_lt (tree : fs.IsTree) (default : settings.DefaultNames)
    (ran : settings.run now fs = (.ok outcome, after))
    (small : outcome.aggregation.total.total < Json.word)
    (outside : ¬fs.location settings.source <+: fs.location settings.output) {place : List String}
    (reached : Reaches (fs.location settings.source) place)
    (kept : settings.filter.accepts (.ofNames place) = true)
    (free : fs.fileAt? place = none) (written : (after.fileAt? place).isSome) {now' : String}
    (valid : settings.record = true → IsTimestamp (timestamp.getD now')) :
    ∃ again final, run { settings with timestamp } now' after = (.ok again, final) ∧
      outcome.filesScanned < again.filesScanned := by
  have rewrites := run_overwrites ran
  rw [map_location_artifacts default] at rewrites
  obtain ⟨history, report, plots, recorded, loaded, dated⟩ := exists_ready_of_run default ran small
  obtain ⟨session, aggregation, repo, _, _, _, _, _, surveyed, -, -, -, -, rfl⟩ := run_eq_ok.1 ran
  obtain ⟨source, map, folder, scanned, mapped, -, -⟩ := survey_parts.1 surveyed
  obtain ⟨names, resolved, rfl⟩ := sourceFolder_eq_ok.1 folder
  rw [← eq_location_of_resolve resolved] at outside reached
  obtain ⟨lies, _⟩ := tree.isEntryName_of_resolve resolved
  obtain ⟨before, later, scanned', again, less⟩ :=
    fileCount_lt tree default rewrites lies outside reached kept free written
  obtain ⟨map', mapped'⟩ :=
    ProjectMap.exists_discover (rewrites.tree tree) (rewrites.isSome_content? lies) mapped
  have surveyed' := survey_parts.2 ⟨_, map',
    sourceFolder_eq_ok.2 ⟨names, rewrites.resolve resolved, rfl⟩, again, mapped', rfl, rfl⟩
  have default' : DefaultNames { settings with timestamp } := ⟨default.report, default.history⟩
  have ready : Ready { settings with timestamp } after history :=
    ⟨report, plots, recorded, loaded, dated⟩
  obtain ⟨next, final, ran', -, count⟩ := ready.run default' surveyed' valid
  have same : before = session := Except.ok.inj (scanned'.symm.trans scanned)
  exact ⟨next, final, ran', by rw [count, ← same]; exact less⟩

/-- A source folder in which the history is kept. -/
theorem filesScanned_lt_metadata :
    let fs : FileSystem := ⟨.folder [("w", .folder [("metadata", .folder
      [("a.cs", .file (Text.encode "// TODO: x\n".toList))])])], []⟩
    let settings : Settings := { Settings.ofFolders ⟨"w/metadata"⟩ ⟨"w"⟩ with
      timestamp := some "2024-03-01T10:00:00Z" }
    fs.IsTree ∧ settings.DefaultNames ∧ IsTimestamp "2024-03-02T10:00:00Z" ∧
      ∃ outcome after again final, settings.run "" fs = (.ok outcome, after) ∧
        run { settings with timestamp := some "2024-03-02T10:00:00Z" } "" after =
          (.ok again, final) ∧ outcome.filesScanned < again.filesScanned := by
  intro fs settings
  have tree : fs.IsTree := by
    refine ⟨rfl, ?_⟩
    simp only [fs, Node.IsTree.isTree_folder, Node.IsTree.isTree_file, List.forall_mem_cons,
      List.not_mem_nil, false_implies, implies_true, and_true]
    decide +kernel
  have later : IsTimestamp "2024-03-02T10:00:00Z" := by decide +kernel
  let history := ["w", "metadata", "todo_history.json"]
  have well : ((settings.run "" fs).1.map fun outcome =>
      decide (outcome.aggregation.total.total < Json.word)).toOption = some true := by
    decide +kernel
  have written : ((settings.run "" fs).2.fileAt? history).isSome := by decide +kernel
  obtain ⟨outcome, after, ran, small⟩ := exists_outcome well
  rw [ran] at written ⊢
  have reached : Reaches (fs.location settings.source) history :=
    ⟨["todo_history.json"], by decide +kernel, by decide⟩
  have valid : settings.record = true →
      IsTimestamp ((some "2024-03-02T10:00:00Z" : Option String).getD "") := fun _ => later
  obtain ⟨again, final, ran', more⟩ := filesScanned_lt tree ⟨rfl, rfl⟩ ran (of_decide_eq_true small)
    (by decide +kernel) reached (by decide +kernel) (by decide +kernel) written valid
  exact ⟨tree, ⟨rfl, rfl⟩, later, outcome, after, again, final, rfl, ran', more⟩

end Settings
end Markers

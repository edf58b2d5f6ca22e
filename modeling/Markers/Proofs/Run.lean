import Markers.Proofs.Aggregation
import Markers.Proofs.FileSystem.Below
import Markers.Proofs.HistoryStore
import Markers.Run

/-!
# Runs

A run writes at three places: `Ran` lists how far it can get and what has changed by then. The file
of the history is neither of the other two (`location_historyPath_ne`), and it can be reached as
soon as the report lies in the output folder (`Reported`). So the history that a run loads is the
one that lay there before the run, and what it saves is still there after the plots have been
written (`run_history`).
-/

namespace Markers

/-! ## The counts of a run -/

namespace ProjectCount

/-- The numbers of a count are at most the number of its findings. -/
theorem Counts.fits {count : ProjectCount} {kinds : List Kind} {findings : List Finding}
    (counts : count.Counts kinds findings) (small : findings.length < Json.word) : count.Fits where
  total := counts.total ▸ small
  kinds _ mem := Nat.lt_of_le_of_lt (le_sum_of_mem mem) (counts.values ▸ small)

end ProjectCount

namespace Aggregation

theorem length_findings_filter_le (scans : List FileScan) (keep : FileScan → Bool) :
    ((scans.filter keep).flatMap FileScan.findings).length ≤
      (scans.flatMap FileScan.findings).length := by
  induction scans with
  | nil => simp
  | cons scan scans ih =>
    rw [List.filter_cons]
    split
    · simp only [List.flatMap_cons, List.length_append]
      omega
    · simp only [List.flatMap_cons, List.length_append]
      omega

/-- The counts of a snapshot have 64 bits if the total has. -/
theorem fits_snapshot {session : Session} (sound : session.Sound) (map : ProjectMap)
    (small : (build session map).total.total < Json.word) :
    ∀ count ∈ (build session map).snapshot, count.Fits := by
  intro count mem
  rw [snapshot, projects_build, List.map_map] at mem
  obtain ⟨name, _, rfl⟩ := List.mem_map.1 mem
  rw [(counts_total sound map).total] at small
  exact (counts_reportOf sound map name).fits
    (Nat.lt_of_le_of_lt (length_findings_filter_le session.scans _) small)

end Aggregation

namespace Settings
open FileAction FileSystem
variable {settings : Settings} {now : String} {fs reported recorded after : FileSystem}
  {aggregation : Aggregation} {history : History} {timestamp : Option String}

/-- A run aggregates the session of some files. -/
theorem survey_eq_ok {session : Session} {repo : Option Repository}
    (surveyed : settings.survey fs = .ok (session, aggregation, repo)) :
    session.Sound ∧ ∃ map, aggregation = Aggregation.build session map := by
  simp only [survey, bind, Except.bind, pure, Except.pure] at surveyed
  split at surveyed
  · cases surveyed
  next source _ =>
    split at surveyed
    · cases surveyed
    next scanned scan =>
      split at surveyed
      · cases surveyed
      next map _ =>
        cases surveyed
        refine ⟨?_, map, rfl⟩
        simp only [scanSource, scanFolder, bind, Except.bind, pure, Except.pure] at scan
        split at scan
        · cases scan
        · split at scan
          · cases scan
          · split at scan
            · cases scan
            next scans _ => cases scan; exact Session.sound_ofScans scans

/-! ## The places of the artifacts -/

/-- That the files have the names that they have when none is chosen. -/
structure DefaultNames (settings : Settings) : Prop where
  report : settings.reportName = "TO-DO.md"
  history : settings.historyName = "todo_history.json"

theorem isEntryName_metadata : IsEntryName "metadata" := ⟨by decide, by decide⟩

theorem isEntryName_charts : IsEntryName "charts" := ⟨by decide, by decide⟩

theorem isEntryName_plots : IsEntryName "todo_plots.json" := ⟨by decide, by decide⟩

theorem DefaultNames.isEntryName_report (names : settings.DefaultNames) :
    IsEntryName settings.reportName := by
  rw [names.report]
  exact ⟨by decide, by decide⟩

theorem DefaultNames.isEntryName_history (names : settings.DefaultNames) :
    IsEntryName settings.historyName := by
  rw [names.history]
  exact ⟨by decide, by decide⟩

theorem location_reportPath (names : settings.DefaultNames) (fs : FileSystem) :
    fs.location settings.reportPath = fs.location settings.output ++ [settings.reportName] :=
  location_join fs settings.output names.isEntryName_report

theorem location_historyPath (names : settings.DefaultNames) (fs : FileSystem) :
    fs.location settings.historyPath =
      fs.location settings.output ++ ["metadata"] ++ [settings.historyName] := by
  rw [historyPath, location_join fs _ names.isEntryName_history, metadataFolder,
    location_join fs _ isEntryName_metadata]

theorem location_plotsPath (fs : FileSystem) (settings : Settings) :
    fs.location settings.plotsPath =
      fs.location settings.output ++ ["charts"] ++ ["todo_plots.json"] := by
  rw [plotsPath, location_join fs _ isEntryName_plots, chartFolder,
    location_join fs _ isEntryName_charts]

theorem location_historyPath_ne (names : settings.DefaultNames) (fs : FileSystem) :
    fs.location settings.historyPath ∉ [fs.location settings.reportPath] ∧
      fs.location settings.historyPath ∉ [fs.location settings.plotsPath] := by
  rw [location_reportPath names, location_historyPath names, location_plotsPath, names.report,
    names.history]
  simp

/-! ## The stages of a run -/

/-- That the report was written. -/
def Reported (settings : Settings) (fs reported : FileSystem) : Prop :=
  ∃ text, writeFile settings.reportPath text fs = (.ok (), reported)

/-- How far a run can get, and what it leaves behind. -/
inductive Ran (settings : Settings) (now : String) (fs : FileSystem) :
    Except Failure Outcome → FileSystem → Prop where
  /-- There is no report: the source cannot be scanned, or the report cannot be written. -/
  | unreported {failure : Failure} {after : FileSystem} (changes : Changes [] fs after) :
      Ran settings now fs (.error failure) after
  /-- The history cannot be loaded, or not be saved. -/
  | unrecorded {aggregation : Aggregation} {reported after : FileSystem} {failure : Failure}
      (reports : Reported settings fs reported)
      (fails : settings.updateHistory now aggregation reported = (.error failure, after)) :
      Ran settings now fs (.error failure) after
  /-- There are no plots of the history, or they cannot be written. -/
  | unplotted {aggregation : Aggregation} {reported recorded after : FileSystem}
      {history : History} {timestamp : Option String} {failure : Failure}
      (reports : Reported settings fs reported)
      (records : settings.updateHistory now aggregation reported =
        (.ok (history, timestamp), recorded))
      (changes : Changes [] recorded after) : Ran settings now fs (.error failure) after
  | finished {outcome : Outcome} {session : Session} {repo : Option Repository}
      {reported recorded after : FileSystem} {history : History} {plots : List Plot}
      (surveyed : settings.survey fs = .ok (session, outcome.aggregation, repo))
      (reports : Reported settings fs reported)
      (records : settings.updateHistory now outcome.aggregation reported =
        (.ok (history, outcome.timestamp), recorded))
      (plotted : Plot.todoPlots history = .ok plots)
      (writes : writeFile settings.plotsPath (Plot.listToJson plots).pretty.toList recorded =
        (.ok (), after))
      (size : outcome.historySize = history.size) : Ran settings now fs (.ok outcome) after

theorem ran_of_run {result : Except Failure Outcome}
    (ran : settings.run now fs = (result, after)) : Ran settings now fs result after := by
  unfold run at ran
  rcases bind_cases ran with ⟨failure, stuck, rfl⟩ | ⟨⟨session, aggregation, repo⟩, _, found, ran⟩
  · obtain ⟨-, rfl⟩ := ask_eq.1 stuck
    exact .unreported (.refl [] fs)
  obtain ⟨surveyed, rfl⟩ := ask_eq.1 found
  rcases bind_cases ran with ⟨_, stuck, -⟩ | ⟨report, _, rendered, ran⟩
  · cases (ask_eq.1 stuck).1
  obtain ⟨-, rfl⟩ := ask_eq.1 rendered
  rcases bind_cases ran with ⟨failure, stuck, rfl⟩ | ⟨_, reported, wrote, ran⟩
  · exact .unreported (writeFile_error stuck)
  have reports : Reported settings fs reported := ⟨_, wrote⟩
  rcases bind_cases ran with ⟨failure, stuck, rfl⟩ | ⟨⟨history, timestamp⟩, recorded, records, ran⟩
  · exact .unrecorded reports stuck
  rcases bind_cases ran with ⟨failure, stuck, rfl⟩ | ⟨plots, _, drawn, ran⟩
  · obtain ⟨-, rfl⟩ := ask_eq.1 stuck
    exact .unplotted reports records (.refl [] recorded)
  obtain ⟨plotted, rfl⟩ := ask_eq.1 drawn
  rcases bind_cases ran with ⟨failure, stuck, rfl⟩ | ⟨_, final, writes, ran⟩
  · exact .unplotted reports records (writeFile_error stuck)
  cases ran
  exact .finished surveyed reports records plotted writes rfl

theorem Reported.changes (reports : Reported settings fs reported) :
    Changes [fs.location settings.reportPath] fs reported := by
  obtain ⟨text, wrote⟩ := reports
  exact (writeFile_changes wrote).1

/-- The report lies in the output folder, which can be entered from then on. -/
theorem Reported.enters (names : settings.DefaultNames) (reports : Reported settings fs reported) :
    reported.Enters settings.output (reported.location settings.output) := by
  obtain ⟨text, wrote⟩ := reports
  exact enters_of_resolve_join names.isEntryName_report (writeFile_changes wrote).2.resolve

/-! ## The history of a run -/

theorem updateHistory_of_record (record : settings.record = true)
    (ran : settings.updateHistory now aggregation fs = (.ok (history, timestamp), after)) :
    timestamp = some (settings.timestamp.getD now) ∧
      appendSnapshot settings.historyPath (settings.timestamp.getD now) aggregation.snapshot fs =
        (.ok history, after) := by
  unfold updateHistory at ran
  rw [if_pos record] at ran
  obtain ⟨stored, between, added, same⟩ := bind_eq_ok_iff.1 ran
  cases same
  exact ⟨rfl, added⟩

theorem updateHistory_of_not_record (idle : settings.record = false)
    (aggregation : Aggregation) (fs : FileSystem) :
    settings.updateHistory now aggregation fs =
      ((fs.loadHistory settings.historyPath).map (·, none), fs) := by
  unfold updateHistory
  rw [if_neg (by simp [idle]), bind_apply, ask]
  cases fs.loadHistory settings.historyPath <;> rfl

/-- Without a history to load the history stays as it is. -/
theorem updateHistory_of_not_loaded {failure : Failure}
    (stuck : fs.loadHistory settings.historyPath = .error failure) (aggregation : Aggregation) :
    settings.updateHistory now aggregation fs = (.error failure, fs) := by
  cases record : settings.record with
  | false =>
    rw [updateHistory_of_not_record record, stuck]
    rfl
  | true =>
    unfold updateHistory
    have refused : appendSnapshot settings.historyPath (settings.timestamp.getD now)
        aggregation.snapshot fs = (.error failure, fs) := HistoryStore.append_of_not_loaded stuck
    rw [if_pos record, bind_apply, refused]

/-- Without a timestamp to record the history stays as it is. -/
theorem updateHistory_of_invalid (record : settings.record = true)
    (invalid : ¬IsTimestamp (settings.timestamp.getD now)) (aggregation : Aggregation)
    (fs : FileSystem) :
    ∃ failure, settings.updateHistory now aggregation fs = (.error failure, fs) := by
  cases loaded : fs.loadHistory settings.historyPath with
  | error failure => exact ⟨failure, updateHistory_of_not_loaded loaded aggregation⟩
  | ok history =>
    cases parsed : Instant.parse (settings.timestamp.getD now) with
    | ok instant => exact absurd ⟨instant, parsed⟩ invalid
    | error fault =>
      have refused : appendSnapshot settings.historyPath (settings.timestamp.getD now)
          aggregation.snapshot fs = (.error (.invalidTimestamp _ fault), fs) :=
        HistoryStore.append_of_invalid loaded parsed
      unfold updateHistory
      rw [if_pos record, bind_apply, refused]
      exact ⟨_, rfl⟩

/-- In an output folder that can be entered a file of a history can be reached. -/
theorem resolve_historyPath (names : settings.DefaultNames)
    (enters : fs.Enters settings.output (fs.location settings.output))
    (lies : (fs.content? (fs.location settings.historyPath)).isSome) :
    fs.resolve settings.historyPath = .ok (fs.location settings.historyPath) := by
  rw [location_historyPath names] at lies ⊢
  have folder : fs.content? (fs.location settings.output ++ ["metadata"]) = some .folder :=
    Node.content?_eq_folder_of_append (by simp) lies
  exact (enters.join isEntryName_metadata folder).resolve_join names.isEntryName_history lies

/-- What is loaded once the report is written is what lay there before the run. -/
theorem Reported.historyAt? (names : settings.DefaultNames)
    (reports : Reported settings fs reported)
    (loaded : reported.loadHistory settings.historyPath = .ok history) :
    fs.historyAt? (fs.location settings.historyPath) = some history := by
  have here := reports.changes.location settings.historyPath
  have reached := historyAt?_of_loadHistory loaded fun file =>
    resolve_historyPath names (reports.enters names) (by
      obtain ⟨bytes, file⟩ := Option.isSome_iff_exists.1 file
      rw [fileAt?_eq_some.1 file]
      rfl)
  rw [here] at reached
  rw [← reached]
  exact (reports.changes.historyAt? (location_historyPath_ne names fs).1).symm

/-- Writing the plots leaves the history as it is loaded. -/
theorem loadHistory_of_plots (names : settings.DefaultNames) {text : List Char}
    (enters : fs.Enters settings.output (fs.location settings.output))
    (writes : writeFile settings.plotsPath text fs = (.ok (), after))
    (loaded : fs.loadHistory settings.historyPath = .ok history) :
    after.loadHistory settings.historyPath = .ok history := by
  have changes := (writeFile_changes writes).1
  cases there : fs.exists? settings.historyPath with
  | true => exact changes.loadHistory (location_historyPath_ne names fs).2 there loaded
  | false =>
    -- nothing lies there before, and only the folder of the charts can be new
    have free : fs.content? (fs.location settings.historyPath) = none := by
      cases lies : fs.content? (fs.location settings.historyPath) with
      | none => rfl
      | some content =>
        have resolved := resolve_historyPath names enters (by rw [lies]; rfl)
        rw [exists?_iff.2 ⟨_, resolved⟩] at there
        cases there
    have still : after.content? (fs.location settings.historyPath) = none := by
      rw [← free]
      apply enters.writeFile_join isEntryName_charts isEntryName_plots writes
      · rw [location_historyPath names]
        simp
      · rw [location_historyPath names]
        simp
    have absent : after.exists? settings.historyPath = false := by
      cases found : after.exists? settings.historyPath with
      | false => rfl
      | true =>
        obtain ⟨place, resolved⟩ := exists?_iff.1 found
        have lies := (resolve_eq_ok.1 resolved).2.2
        rw [eq_location_of_resolve resolved, changes.location, still] at lies
        cases lies
    rw [loadHistory_of_not_exists there] at loaded
    cases loaded
    exact loadHistory_of_not_exists absent

/-- What a run that ends well has done with the history, and that its plots are those of it. -/
structure Kept (settings : Settings) (now : String) (fs after : FileSystem) (outcome : Outcome)
    (previous : History) : Prop where
  /-- The previous history is what lay in the file, -/
  before : fs.historyAt? (fs.location settings.historyPath) = some previous
  /-- and what was loaded from it, if the path led there before the folders were created. -/
  loaded : fs.exists? settings.historyPath = true →
    fs.loadHistory settings.historyPath = .ok previous
  recorded : settings.record = true → ∃ timestamp history,
    timestamp = settings.timestamp.getD now ∧
    history = ⟨previous.snapshots.insert timestamp outcome.aggregation.snapshot⟩ ∧
    after.loadHistory settings.historyPath = .ok history ∧
    outcome.timestamp = some timestamp ∧ outcome.historySize = history.size
  unrecorded : settings.record = false → after.loadHistory settings.historyPath = .ok previous ∧
    outcome.timestamp = none ∧ outcome.historySize = previous.size
  plots : ∃ plots, after.loadPlots settings = .ok plots ∧
    after.readText settings.plotsPath = .ok (Plot.listToJson plots).pretty.toList

/-- What lies at the path of the history has been loaded before the run, if the path led there. -/
theorem Reported.loadHistory (reports : Reported settings fs reported)
    (before : fs.historyAt? (fs.location settings.historyPath) = some history)
    (later : reported.loadHistory settings.historyPath = .ok history)
    (there : fs.exists? settings.historyPath = true) :
    fs.loadHistory settings.historyPath = .ok history := by
  obtain ⟨place, resolved⟩ := exists?_iff.1 there
  obtain ⟨text, followed, lies⟩ := resolve_eq_ok.1 resolved
  obtain ⟨content, lies⟩ := Option.isSome_iff_exists.1 lies
  cases content with
  | file bytes =>
    rw [← eq_location_of_resolve resolved, historyAt?_of_file (fileAt?_eq_some.2 lies)] at before
    exact (loadHistory_of_file resolved lies).2 before
  | folder =>
    have kept := reports.changes.folder lies
    have again := resolve_eq_ok.2 ⟨text, reports.changes.follow followed, by rw [kept]; rfl⟩
    rw [loadHistory_of_folder again kept] at later
    cases later

theorem kept_of_finished (names : settings.DefaultNames) {outcome : Outcome} {plots : List Plot}
    {session : Session} {repo : Option Repository}
    (small : outcome.aggregation.total.total < Json.word)
    (surveyed : settings.survey fs = .ok (session, outcome.aggregation, repo))
    (reports : Reported settings fs reported)
    (records : settings.updateHistory now outcome.aggregation reported =
      (.ok (history, outcome.timestamp), recorded))
    (plotted : Plot.todoPlots history = .ok plots)
    (writes : writeFile settings.plotsPath (Plot.listToJson plots).pretty.toList recorded =
      (.ok (), after))
    (size : outcome.historySize = history.size) :
    ∃ previous, Kept settings now fs after outcome previous := by
  have enters := reports.enters names
  have text := readText_of_writeFile writes
  cases record : settings.record with
  | false =>
    rw [updateHistory_of_not_record record] at records
    obtain ⟨loaded, rfl⟩ := Prod.mk.inj records
    cases later : reported.loadHistory settings.historyPath with
    | error failure => simp [later, Except.map] at loaded
    | ok stored =>
      simp only [later, Except.map, Except.ok.injEq, Prod.mk.injEq] at loaded
      obtain ⟨rfl, stamp⟩ := loaded
      have before := reports.historyAt? names later
      have final := loadHistory_of_plots names enters writes later
      refine ⟨stored, before, reports.loadHistory before later, fun bad => by simp [record] at bad,
        fun _ => ⟨final, stamp.symm, size⟩, plots, ?_, text⟩
      rw [loadPlots, final]
      exact plotted
  | true =>
    obtain ⟨stamp, added⟩ := updateHistory_of_record record records
    obtain ⟨stored, later, valid, same, saved⟩ := HistoryStore.append_eq_ok added
    obtain ⟨sound, map, aggregated⟩ := survey_eq_ok surveyed
    have counts : ∀ count ∈ outcome.aggregation.snapshot, count.Fits := by
      rw [aggregated] at small ⊢
      exact Aggregation.fits_snapshot sound map small
    have fits : history.Fits := same ▸ (fits_of_loadHistory later).insert counts
    have before := reports.historyAt? names later
    have changes := (writeFile_changes saved).1
    have inside : recorded.Enters settings.output (recorded.location settings.output) := by
      rw [changes.location]
      exact changes.enters enters
    have final := loadHistory_of_plots names inside writes (loadHistory_of_saveHistory fits saved)
    refine ⟨stored, before, reports.loadHistory before later,
      fun _ => ⟨_, history, rfl, same, final, stamp, size⟩, fun bad => by simp [record] at bad,
      plots, ?_, text⟩
    rw [loadPlots, final]
    exact plotted

/-- A run that has nothing to do with the history leaves its file alone. -/
theorem fileAt?_of_ran (names : settings.DefaultNames) {result : Except Failure Outcome}
    (ran : Ran settings now fs result after)
    (idle : ∀ aggregation reported, Reported settings fs reported →
      (settings.updateHistory now aggregation reported).2 = reported) :
    after.fileAt? (fs.location settings.historyPath) =
      fs.fileAt? (fs.location settings.historyPath) := by
  obtain ⟨notReport, notPlots⟩ := location_historyPath_ne names fs
  cases ran with
  | unreported changes => exact changes.fileAt? (by simp)
  | unrecorded reports fails =>
    have same := congrArg Prod.snd fails
    rw [idle _ _ reports] at same
    cases same
    exact reports.changes.fileAt? notReport
  | unplotted reports records changes =>
    have same := congrArg Prod.snd records
    rw [idle _ _ reports] at same
    cases same
    rw [changes.fileAt? (by simp)]
    exact reports.changes.fileAt? notReport
  | finished surveyed reports records plotted writes size =>
    have same := congrArg Prod.snd records
    rw [idle _ _ reports] at same
    cases same
    have changes := (writeFile_changes writes).1
    rw [reports.changes.location] at changes
    rw [changes.fileAt? notPlots]
    exact reports.changes.fileAt? notReport

/-- A run whose history fails cannot end well. -/
theorem error_of_ran {result : Except Failure Outcome} (ran : Ran settings now fs result after)
    (refused : ∀ aggregation reported, Reported settings fs reported →
      ∃ failure, settings.updateHistory now aggregation reported = (.error failure, reported)) :
    ∃ failure, result = .error failure := by
  cases ran with
  | finished surveyed reports records =>
    obtain ⟨failure, fails⟩ := refused _ _ reports
    rw [records] at fails
    cases fails
  | _ => exact ⟨_, rfl⟩

/-- **No run loses history.** A run that ends well and records has set its timestamp, and nothing
else, in the history that lay there before; its plots are those of the history that is loaded then.
The file of the history stays as it is in every run that does not record, whose timestamp is
invalid, or where it holds no history; the last two fail. -/
theorem run_history (names : settings.DefaultNames) {result : Except Failure Outcome}
    (ran : settings.run now fs = (result, after)) :
    (∀ outcome, result = .ok outcome → outcome.aggregation.total.total < Json.word →
      ∃ previous, Kept settings now fs after outcome previous) ∧
    (settings.record = false → after.fileAt? (fs.location settings.historyPath) =
      fs.fileAt? (fs.location settings.historyPath)) ∧
    (settings.record = true → ¬IsTimestamp (settings.timestamp.getD now) →
      (∃ failure, result = .error failure) ∧ after.fileAt? (fs.location settings.historyPath) =
        fs.fileAt? (fs.location settings.historyPath)) ∧
    (fs.historyAt? (fs.location settings.historyPath) = none →
      (∃ failure, result = .error failure) ∧ after.fileAt? (fs.location settings.historyPath) =
        fs.fileAt? (fs.location settings.historyPath)) := by
  have stages := ran_of_run ran
  -- a history that is refused is the end of the run, and its file is not written
  have refuse (refused : ∀ aggregation reported, Reported settings fs reported →
      ∃ failure, settings.updateHistory now aggregation reported = (.error failure, reported)) :
      (∃ failure, result = .error failure) ∧ after.fileAt? (fs.location settings.historyPath) =
        fs.fileAt? (fs.location settings.historyPath) := by
    refine ⟨error_of_ran stages refused, fileAt?_of_ran names stages ?_⟩
    intro aggregation reported reports
    obtain ⟨failure, fails⟩ := refused aggregation reported reports
    rw [fails]
  refine ⟨?_, fun idle => ?_, fun record invalid => ?_, fun broken => ?_⟩
  · rintro outcome rfl small
    cases stages with
    | finished surveyed reports records plotted writes size =>
      exact kept_of_finished names small surveyed reports records plotted writes size
  · refine fileAt?_of_ran names stages fun aggregation reported _ => ?_
    rw [updateHistory_of_not_record idle]
  · exact refuse fun aggregation reported _ =>
      updateHistory_of_invalid record invalid aggregation reported
  · refine refuse fun aggregation reported reports => ?_
    cases loaded : reported.loadHistory settings.historyPath with
    | error failure => exact ⟨failure, updateHistory_of_not_loaded loaded aggregation⟩
    | ok history =>
      rw [reports.historyAt? names loaded] at broken
      cases broken

/-- A run over a script with one marker and an empty history, recorded under a timestamp and under a
text that is none. -/
theorem run_history_script :
    let script := Text.encode "# TODO: x\n".toList
    let output : Node :=
      .folder [("metadata", .folder [("todo_history.json", .file [123, 125])])]
    let folder : Node := .folder [("a.sh", .file script), ("output", output)]
    let fs : FileSystem := ⟨.folder [("w", folder)], ["w"]⟩
    let valid : Settings := { Settings.default with timestamp := some "2024-03-01T10:00:00Z" }
    let invalid : Settings := { Settings.default with timestamp := some "yesterday" }
    (∃ outcome after previous, valid.run "" fs = (.ok outcome, after) ∧
      Kept valid "" fs after outcome previous) ∧
    ∃ failure after, invalid.run "" fs = (.error failure, after) ∧
      after.fileAt? ["w", "output", "metadata", "todo_history.json"] = some [123, 125] := by
  intro script output folder fs valid invalid
  constructor
  · have well : ((valid.run "" fs).1.map fun outcome =>
        decide (outcome.aggregation.total.total < Json.word)).toOption = some true := by
      decide +kernel
    generalize ran : valid.run "" fs = ended at well
    obtain ⟨result, after⟩ := ended
    cases result with
    | error failure => simp [Except.map, Except.toOption] at well
    | ok outcome =>
      simp only [Except.map, Except.toOption, Option.some.injEq, decide_eq_true_eq] at well
      obtain ⟨previous, kept⟩ := (run_history ⟨rfl, rfl⟩ ran).1 outcome rfl well
      exact ⟨outcome, after, previous, rfl, kept⟩
  · have refused : ¬IsTimestamp "yesterday" := by
      rintro ⟨instant, parsed⟩
      have fails : (Instant.parse "yesterday").isOk = false := by decide +kernel
      simp [parsed, Except.isOk, Except.toBool] at fails
    have place : fs.location invalid.historyPath =
        ["w", "output", "metadata", "todo_history.json"] := by decide +kernel
    have bytes : fs.fileAt? ["w", "output", "metadata", "todo_history.json"] = some [123, 125] := by
      decide +kernel
    generalize ran : invalid.run "" fs = ended
    obtain ⟨result, after⟩ := ended
    obtain ⟨⟨failure, failed⟩, same⟩ := (run_history ⟨rfl, rfl⟩ ran).2.2.1 rfl refused
    rw [place, bytes] at same
    exact ⟨failure, after, congrArg (·, after) failed, same⟩

end Settings
end Markers

import Markers.Proofs.Discovery
import Markers.Proofs.Discovery.Together
import Markers.Proofs.Glob
import Markers.Proofs.Run

/-!
# The artifacts are left out

The artifacts below the canonical output folder are spelled as a walk spells them
(`artifacts_ofNames`), and their escaped patterns match these paths alone. So a run scans all files
that the filter keeps but the three that it writes, whether it scans one file after the other or many
at the same time (`scanSource_exact`). This is said of paths that are Unicode text: others may have
the same text once replacement characters stand for their bytes, and a pattern for one then matches
the other as well.
-/

namespace Markers

/-- The escaped patterns of paths match the texts of these and no others. -/
theorem Glob.exists_mapM_escape (paths : List Path) :
    ∃ globs, (paths.map fun path => escape path.text).mapM ofPattern = .ok globs ∧
      ∀ path : Path, globs.any (·.accepts path.text) = true ↔ path ∈ paths := by
  induction paths with
  | nil => exact ⟨[], rfl, by simp⟩
  | cons first paths ih =>
    obtain ⟨glob, compiled, accepts⟩ := exists_ofPattern_escape first.text
    obtain ⟨globs, rest, others⟩ := ih
    refine ⟨glob :: globs, ?_, fun path => ?_⟩
    · rw [List.map_cons, List.mapM_cons, compiled, rest]
      rfl
    · rw [List.any_cons, Bool.or_eq_true, accepts, others, List.mem_cons, Path.mk.injEq]

/-- More unwanted patterns leave out what these match. -/
theorem Filter.accepts_unwanted (filter : Filter) (globs : List Glob) (path : Path) :
    ({ filter with unwanted := filter.unwanted ++ globs } : Filter).accepts path =
      (filter.accepts path && !globs.any (·.accepts path.text)) := by
  simp only [Filter.accepts, List.any_append]
  cases Family.supports path <;> cases filter.unwanted.any (·.accepts path.text) <;>
    cases globs.any (·.accepts path.text) <;> simp

namespace Settings
open FileSystem
variable {settings : Settings} {fs : FileSystem} {place names : List String} {source output : Path}

/-- Where a run writes, when its output folder is at some place. -/
def places (settings : Settings) (place : List String) : List (List String) :=
  [place ++ [settings.reportName], place ++ ["metadata"] ++ [settings.historyName],
    place ++ ["charts"] ++ ["todo_plots.json"]]

theorem DefaultNames.isEntryName_places (default : settings.DefaultNames)
    (named : ∀ name ∈ place, IsEntryName name) :
    ∀ written ∈ settings.places place, ∀ name ∈ written, IsEntryName name := by
  have report := default.isEntryName_report
  have history := default.isEntryName_history
  have metadata := isEntryName_metadata
  have charts := isEntryName_charts
  have plots := isEntryName_plots
  intro written mem name inside
  simp only [places, List.mem_cons, List.not_mem_nil, or_false] at mem
  rcases mem with rfl | rfl | rfl <;>
    simp only [List.mem_append, List.mem_singleton] at inside
  · rcases inside with inside | rfl
    · exact named name inside
    · exact report
  · rcases inside with (inside | rfl) | rfl
    · exact named name inside
    · exact metadata
    · exact history
  · rcases inside with (inside | rfl) | rfl
    · exact named name inside
    · exact charts
    · exact plots

/-- A run writes at the places of its output folder. -/
theorem map_location_artifacts (default : settings.DefaultNames) (fs : FileSystem) :
    settings.artifacts.map fs.location = settings.places (fs.location settings.output) := by
  simp only [artifacts, List.map_cons, List.map_nil, location_reportPath default,
    location_historyPath default, location_plotsPath, places]

/-- Below a canonical output folder the artifacts have canonical paths. -/
theorem artifacts_ofNames (default : settings.DefaultNames)
    (named : ∀ name ∈ place, IsEntryName name) :
    artifacts { settings with output := .ofNames place } =
      (settings.places place).map Path.ofNames := by
  have metadata : ∀ name ∈ place ++ ["metadata"], IsEntryName name := by
    simpa [or_imp, forall_and] using ⟨named, isEntryName_metadata⟩
  have charts : ∀ name ∈ place ++ ["charts"], IsEntryName name := by
    simpa [or_imp, forall_and] using ⟨named, isEntryName_charts⟩
  simp only [artifacts, reportPath, historyPath, plotsPath, metadataFolder, chartFolder, places,
    List.map_cons, List.map_nil, Path.join_ofNames named default.isEntryName_report,
    Path.join_ofNames named isEntryName_metadata, Path.join_ofNames named isEntryName_charts,
    Path.join_ofNames metadata default.isEntryName_history,
    Path.join_ofNames charts isEntryName_plots]

end Settings

namespace FileSystem
variable {fs : FileSystem} {p q : Path}

/-- The canonical path of what is there is that of its names. -/
theorem canonical_eq_ok :
    fs.canonical p = .ok q ↔ ∃ names, fs.resolve p = .ok names ∧ q = .ofNames names := by
  rw [canonical]
  cases fs.resolve p with
  | error fault => simp [Except.map]
  | ok names => simp [Except.map, eq_comm]

theorem sourceFolder_eq_ok :
    fs.sourceFolder p = .ok q ↔ ∃ names, fs.resolve p = .ok names ∧ q = .ofNames names := by
  rw [← canonical_eq_ok, sourceFolder]
  cases there : fs.exists? p with
  | true =>
    rw [if_pos rfl]
    cases fs.canonical p <;> simp [Except.mapError]
  | false =>
    have absent : ∀ names, fs.resolve p ≠ .ok names := by
      intro names resolved
      rw [exists?_iff.2 ⟨names, resolved⟩] at there
      cases there
    simp only [Bool.false_eq_true, if_false, reduceCtorEq, false_iff]
    intro found
    obtain ⟨names, resolved, _⟩ := canonical_eq_ok.1 found
    exact absent names resolved

/-- What leads somewhere leads to a place with names. -/
theorem IsTree.isEntryName_of_resolve (tree : fs.IsTree) {names : List String}
    (resolved : fs.resolve p = .ok names) :
    (fs.content? names).isSome ∧ ∀ name ∈ names, IsEntryName name := by
  have lies := (resolve_eq_ok.1 resolved).2.2
  exact ⟨lies, tree.isEntryName lies⟩

end FileSystem

namespace Settings
open FileSystem
variable {settings : Settings} {fs : FileSystem} {names place : List String} {source output : Path}

/-- That a scan of the source folder leaves a path out, as that of a file that a run writes: if the
output folder is there and lies below the source folder. -/
def Excludes (settings : Settings) (fs : FileSystem) (source path : Path) : Prop :=
  ∃ output, fs.canonical settings.output = .ok output ∧ output.startsWith source = true ∧
    path ∈ artifacts { settings with output }

/-- What is left out below a source folder lies where a run writes. -/
theorem excludes_iff (tree : fs.IsTree) (default : settings.DefaultNames)
    (lies : (fs.content? names).isSome) {path : Path} :
    settings.Excludes fs (.ofNames names) path ↔ fs.exists? settings.output = true ∧
      names <+: fs.location settings.output ∧
      path ∈ (settings.places (fs.location settings.output)).map Path.ofNames := by
  have named := tree.isEntryName lies
  constructor
  · rintro ⟨output, there, below, artifact⟩
    obtain ⟨place, resolved, rfl⟩ := canonical_eq_ok.1 there
    obtain ⟨_, named'⟩ := tree.isEntryName_of_resolve resolved
    rw [Path.startsWith_ofNames named' named] at below
    rw [artifacts_ofNames default named'] at artifact
    rw [← eq_location_of_resolve resolved]
    exact ⟨exists?_iff.2 ⟨place, resolved⟩, below, artifact⟩
  · rintro ⟨there, below, artifact⟩
    obtain ⟨place, resolved⟩ := exists?_iff.1 there
    obtain ⟨_, named'⟩ := tree.isEntryName_of_resolve resolved
    rw [← eq_location_of_resolve resolved] at below artifact
    refine ⟨_, canonical_eq_ok.2 ⟨place, resolved, rfl⟩, ?_, ?_⟩
    · rw [Path.startsWith_ofNames named' named]
      exact below
    · rw [artifacts_ofNames default named']
      exact artifact

/-- The patterns for the artifacts are compiled, and match what is left out. -/
theorem exists_artifactGlobs (settings : Settings) (fs : FileSystem) (source : Path) :
    ∃ globs, (fs.artifactPatterns settings source).mapM Glob.ofPattern = .ok globs ∧
      ∀ path : Path, globs.any (·.accepts path.text) = true ↔ settings.Excludes fs source path := by
  unfold artifactPatterns Excludes
  cases fs.canonical settings.output with
  | error fault => exact ⟨[], rfl, by simp⟩
  | ok output =>
    cases below : output.startsWith source with
    | false => exact ⟨[], by simp [below]; rfl, by simp [below]⟩
    | true =>
      obtain ⟨globs, compiled, accepts⟩ :=
        Glob.exists_mapM_escape (artifacts { settings with output })
      refine ⟨globs, by simp only [below, if_true]; exact compiled, fun path => ?_⟩
      rw [accepts]
      simp [below]

/-- A scan of the source folder is that of a folder with more unwanted patterns. -/
theorem scanSource_eq_scanFolder {globs : List Glob}
    (compiled : (fs.artifactPatterns settings source).mapM Glob.ofPattern = .ok globs) :
    fs.scanSource settings source = fs.scanFolder source
      { settings.filter with unwanted := settings.filter.unwanted ++ globs } := by
  rw [scanSource, compiled]
  rfl

/-- The source folder of a tree is scanned: all files that a walk finds and the filter keeps, but
those left out. -/
theorem scanSource_ofNames (tree : fs.IsTree) (lies : (fs.content? names).isSome)
    (settings : Settings) :
    ∃ found scans, found.mapM fs.scanFile = .ok scans ∧
      fs.scanSource settings (.ofNames names) = .ok (Session.ofScans scans) ∧
      (Session.ofScans scans).files.keys = found ∧
      (found.Pairwise fun a b => compare a b = .lt) ∧
      ∀ path, path ∈ found ↔ fs.Walks names path ∧ settings.filter.accepts path = true ∧
        ¬settings.Excludes fs (.ofNames names) path := by
  obtain ⟨globs, compiled, accepts⟩ := settings.exists_artifactGlobs fs (.ofNames names)
  obtain ⟨found, scans, scanned, session, keys, increasing, mem⟩ := scanFolder_ofNames tree lies
    { settings.filter with unwanted := settings.filter.unwanted ++ globs }
  refine ⟨found, scans, scanned, ?_, keys, increasing, fun path => ?_⟩
  · exact (scanSource_eq_scanFolder compiled).trans session
  · rw [mem, Filter.accepts_unwanted, Bool.and_eq_true, Bool.not_eq_true', ← accepts,
      Bool.not_eq_true]

/-- **The artifacts are left out, and nothing else.** When the output folder lies in the source
folder, or is that folder, whatever their names are, the patterns for the artifacts are valid and
the files scanned are those that the filter keeps, without the artifacts below the canonical output
folder. A file is left out exactly if it lies where the run writes. Scanning the files at the same
time gives the same session. -/
theorem scanSource_exact (tree : fs.IsTree) (default : settings.DefaultNames)
    (here : fs.sourceFolder settings.source = .ok source)
    (there : fs.canonical settings.output = .ok output) (inside : output.startsWith source = true) :
    ∃ globs found session,
      (fs.artifactPatterns settings source).mapM Glob.ofPattern = .ok globs ∧
      fs.discover source settings.filter = .ok found ∧
      fs.scanSource settings source = .ok session ∧
      (∀ answer, fs.ScansFolderTogether source
        { settings.filter with unwanted := settings.filter.unwanted ++ globs } answer →
          answer = .ok session) ∧
      session.files.keys = found.filter (· ∉ artifacts { settings with output }) ∧
      ∀ path ∈ found, path ∉ session.files.keys ↔
        fs.location path ∈ settings.artifacts.map fs.location := by
  obtain ⟨names, resolved, rfl⟩ := sourceFolder_eq_ok.1 here
  obtain ⟨place, resolved', rfl⟩ := canonical_eq_ok.1 there
  obtain ⟨lies, named⟩ := tree.isEntryName_of_resolve resolved
  obtain ⟨_, named'⟩ := tree.isEntryName_of_resolve resolved'
  obtain ⟨globs, compiled, _⟩ := settings.exists_artifactGlobs fs (.ofNames names)
  obtain ⟨found, discovered, increasing, mem⟩ := walk_ofNames tree lies settings.filter.accepts
  obtain ⟨kept, scans, _, session, keys, increasing', mem'⟩ := scanSource_ofNames tree lies settings
  have excludes : ∀ path, settings.Excludes fs (.ofNames names) path ↔
      path ∈ artifacts { settings with output := .ofNames place } := by
    intro path
    constructor
    · rintro ⟨output, same, _, artifact⟩
      cases there.symm.trans same
      exact artifact
    · exact fun artifact => ⟨_, there, inside, artifact⟩
  have scanned : kept =
      found.filter (· ∉ artifacts { settings with output := .ofNames place }) := by
    refine eq_of_increasing increasing' (increasing.filter _) fun path => ?_
    rw [mem', excludes, List.mem_filter, mem, decide_eq_true_eq, and_assoc]
  have together : ∀ answer, fs.ScansFolderTogether (.ofNames names)
      { settings.filter with unwanted := settings.filter.unwanted ++ globs } answer →
        answer = .ok (Session.ofScans scans) := by
    rw [scanSource_eq_scanFolder compiled] at session
    exact fun _ together => together.eq_of_ok session
  refine ⟨globs, found, _, compiled, discovered, session, together, keys.trans scanned, ?_⟩
  intro path found
  obtain ⟨inner, bytes, rfl, file⟩ := ((mem path).1 found).1.exists_file
  have named'' := tree.isEntryName (by rw [file]; rfl)
  rw [keys, scanned, List.mem_filter, artifacts_ofNames default named', decide_eq_true_eq,
    Path.mem_map_ofNames named'' (default.isEntryName_places named'), location_ofNames fs named'',
    map_location_artifacts default, ← eq_location_of_resolve resolved', not_and_not_right]
  exact ⟨fun written => written found, fun written _ => written⟩

/-- A source folder, an output folder and a folder beside it whose names have characters that mean
something in patterns; only the report in the output folder is an artifact. -/
example :
    let report : Node := .file (Text.encode "- [ ] TODO: x\n".toList)
    let folder : Node := .folder [("*?", .folder [("TO-DO.md", report), ("!]", report)]),
      ("ab", .folder [("TO-DO.md", report)])]
    let fs : FileSystem := ⟨.folder [("w[1]!", folder)], []⟩
    ((fs.scanSource (.ofFolders ⟨"w[1]!"⟩ ⟨"w[1]!/./*?/"⟩) ⟨"/w[1]!"⟩).map
      (·.files.keys)).toOption = some [⟨"/w[1]!/ab/TO-DO.md"⟩] := by
  decide +kernel

end Settings
end Markers

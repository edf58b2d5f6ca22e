import Markers.Proofs.Discovery

/-!
# Scanning folders

Only a path without a family is refused as unsupported (`scanFile_eq_unsupported`), and no walk with
a filter lists one. So scanning a folder never ends with that failure, in order or at the same time
(`scanFolder_supported`). Both ways give the same session whenever no file fails
(`ScansFolderTogether.eq_of_ok`).
-/

namespace Markers

theorem scanText_eq_unsupported {path : Path} {text key : String} :
    scanText path text = .error (.unsupportedFileType key) ↔
      Family.supports path = false ∧ key = Family.keyOf path := by
  have plain := Family.withoutDot_of_not_mem (Family.dot_not_mem_keyOf path)
  unfold scanText
  rw [← Bool.not_eq_true, Family.supports_iff, plain]
  cases Family.ofPath? path with
  | none => simp [eq_comm]
  | some family => cases scanned : family.scan? text.toList <;> simp [scanned]

namespace FileSystem
variable {fs : FileSystem} {start path : Path} {paths : List Path} {filter : Filter}
  {failure : Failure} {session : Session} {answer : Except Failure Session}

/-- A file is refused as unsupported exactly if its path is, whatever lies there. -/
theorem scanFile_eq_unsupported {key : String} :
    fs.scanFile path = .error (.unsupportedFileType key) ↔
      Family.supports path = false ∧ key = Family.keyOf path := by
  have plain := Family.withoutDot_of_not_mem (Family.dot_not_mem_keyOf path)
  cases known : Family.ofPath? path with
  | none =>
    have unsupported : Family.supports path = false := by
      rw [← Bool.not_eq_true, Family.supports_iff, known]
      simp
    have refused : fs.scanFile path = .error (.unsupportedFileType (Family.keyOf path)) := by
      rw [scanFile, known, plain]
      rfl
    simp [refused, unsupported, eq_comm]
  | some family =>
    have supported := Family.supports_iff.2 ⟨family, known⟩
    cases read : fs.readBytes path with
    | error fault => simp [scanFile, known, read, supported, bind, Except.bind, Except.mapError]
    | ok bytes =>
      simp [scanFile, known, read, bind, Except.bind, Except.mapError, scanText_eq_unsupported]

/-- What is discovered is accepted by the filter. -/
theorem accepts_of_discover (found : fs.discover start filter = .ok paths) :
    ∀ path ∈ paths, filter.accepts path = true := by
  intro path mem
  rw [discover, walk] at found
  split at found
  · cases found
  · cases found
    exact (List.mem_filter.1 (List.mem_mergeSort.1 mem)).2

theorem discover_eq_error (stuck : fs.discover start filter = .error failure) :
    failure = .pathNotFound start := by
  rw [discover, walk] at stuck
  split at stuck
  · cases stuck
    rfl
  · cases stuck

/-- Scanning one file after the other is one of the ways to scan them at the same time. -/
theorem scansFolderTogether_scanFolder (fs : FileSystem) (start : Path) (filter : Filter) :
    fs.ScansFolderTogether start filter (fs.scanFolder start filter) := by
  rw [scanFolder]
  cases found : fs.discover start filter with
  | error failure => exact .undiscovered found
  | ok paths =>
    cases scanned : paths.mapM fs.scanFile with
    | error failure =>
      obtain ⟨path, mem, stuck⟩ := exists_of_mapM_eq_error scanned
      simp only [bind, Except.bind, scanned]
      exact .discovered found (.one mem stuck)
    | ok scans =>
      simp only [bind, Except.bind, scanned]
      exact .discovered found (.all scanned)

/-- Where scanning one file after the other succeeds, nothing else can come of scanning them at the
same time. -/
theorem ScansFolderTogether.eq_of_ok (scanned : fs.scanFolder start filter = .ok session)
    (together : fs.ScansFolderTogether start filter answer) : answer = .ok session := by
  cases together with
  | undiscovered stuck => simp [scanFolder, stuck, bind, Except.bind] at scanned
  | @discovered paths _ found answers =>
    simp only [scanFolder, found, bind, Except.bind] at scanned
    cases answers with
    | all scans =>
      rw [scans] at scanned
      exact scanned
    | one mem stuck =>
      split at scanned
      next => cases scanned
      next all =>
        obtain ⟨scan, fine⟩ := exists_mapM_eq_ok.1 ⟨_, all⟩ _ mem
        rw [fine] at stuck
        cases stuck

/-- A folder is never refused as unsupported, however its files are scanned. -/
theorem ScansFolderTogether.not_unsupported {key : String} :
    ¬fs.ScansFolderTogether start filter (.error (.unsupportedFileType key)) := by
  generalize outcome : (Except.error (.unsupportedFileType key) : Except Failure Session) = answer
  intro together
  cases together with
  | undiscovered stuck =>
    cases outcome
    cases discover_eq_error stuck
  | discovered found answers =>
    cases answers with
    | all => cases outcome
    | one mem stuck =>
      cases outcome
      obtain ⟨unsupported, _⟩ := scanFile_eq_unsupported.1 stuck
      have supported := Family.supports_iff.2 (Filter.exists_ofPath? (accepts_of_discover found _ mem))
      rw [unsupported] at supported
      cases supported

/-- **Filters and families agree.** A path is supported exactly if a family is found for it, and
only then its file is not refused as unsupported. A filter accepts no other paths, so scanning a
folder with any filter never ends with an unsupported file, whether its files are scanned one after
the other or at the same time. -/
theorem scanFolder_supported :
    (∀ path, Family.supports path = true ↔ ∃ family, Family.ofPath? path = some family) ∧
      (∀ (fs : FileSystem) path key, fs.scanFile path = .error (.unsupportedFileType key) ↔
        Family.supports path = false ∧ key = Family.keyOf path) ∧
      (∀ (filter : Filter) path, filter.accepts path = true →
        ∃ family, Family.ofPath? path = some family) ∧
      ∀ (fs : FileSystem) start filter key,
        fs.scanFolder start filter ≠ .error (.unsupportedFileType key) ∧
          ¬fs.ScansFolderTogether start filter (.error (.unsupportedFileType key)) := by
  refine ⟨fun _ => Family.supports_iff, fun _ _ _ => scanFile_eq_unsupported,
    fun _ _ => Filter.exists_ofPath?, fun fs start filter key => ⟨fun ended => ?_, ?_⟩⟩
  · have together := scansFolderTogether_scanFolder fs start filter
    rw [ended] at together
    exact ScansFolderTogether.not_unsupported together
  · exact ScansFolderTogether.not_unsupported

end FileSystem
end Markers

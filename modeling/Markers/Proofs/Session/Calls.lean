import Markers.Discovery
import Markers.Proofs.Session

/-!
# Calls on a session

A `Session.Call` records a scan, scans a text or scans a file. A call that fails changes nothing, so
the session behind any calls is that of the scans they recorded (`callAll_eq`). `Session.Tracks`
says what a session knows of the scans recorded in it: the last one of each path, the number of
findings in these, and the kinds of all of them, also of those that were replaced
(`callAll_tracks`).
-/

namespace Markers.Session
variable {session : Session} {scans : List FileScan}

/-- What can be asked of a session. Files may have changed from one call to the next. -/
inductive Call where
  | record (scan : FileScan)
  | scanText (path : Path) (text : String)
  | scanFile (fs : FileSystem) (path : Path)

/-- The scan that a call records, unless it fails. -/
def Call.scan : Call → Except Failure FileScan
  | record scan => .ok scan
  | scanText path text => Markers.scanText path text
  | scanFile fs path => fs.scanFile path

/-- What a call answers, which is the scan now stored for its path, and the session behind it. -/
def call (session : Session) (c : Call) : Except Failure (Option FileScan) × Session :=
  let after := session.add c.scan
  (c.scan.map fun scan => after.get? scan.path, after)

/-- The session behind some calls, whether or not some of them fail. -/
def callAll (session : Session) (calls : List Call) : Session :=
  calls.foldl (fun session c => (session.call c).2) session

/-- The scans that some calls record, in their order. -/
def recorded (calls : List Call) : List FileScan :=
  calls.filterMap fun c => c.scan.toOption

theorem call_of_error {c : Call} {failure : Failure} (failed : c.scan = .error failure) :
    session.call c = (.error failure, session) := by
  rw [call, failed]
  rfl

theorem call_of_ok {c : Call} {scan : FileScan} (scanned : c.scan = .ok scan) :
    session.call c = (.ok ((session.record scan).get? scan.path), session.record scan) := by
  rw [call, scanned]
  rfl

theorem callAll_eq (session : Session) (calls : List Call) :
    session.callAll calls = (recorded calls).foldl record session := by
  induction calls generalizing session with
  | nil => rfl
  | cons c calls ih =>
    have step : session.callAll (c :: calls) = (session.call c).2.callAll calls := rfl
    rw [step, ih, recorded, recorded, List.filterMap_cons]
    cases scanned : c.scan with
    | error failure =>
      rw [call_of_error scanned]
      rfl
    | ok scan =>
      rw [call_of_ok scanned]
      rfl

/-! ## What is stored -/

theorem compare_path_eq_iff {path : Path} {scan : FileScan} :
    compare path scan.path = .eq ↔ scan.path.same path = true := by
  rw [← Path.compare_eq_iff]
  exact ⟨Std.OrientedCmp.eq_symm, Std.OrientedCmp.eq_symm⟩

theorem get?_record (session : Session) (scan : FileScan) (path : Path) :
    (session.record scan).get? path =
      if scan.path.same path then some scan else session.get? path := by
  have stored := SortedMap.get?_alter session.files scan.path path fun _ => scan
  simp only [compare_path_eq_iff] at stored
  exact stored

/-- A path has the last scan that was recorded for it. -/
theorem get?_ofScans (scans : List FileScan) (path : Path) :
    (ofScans scans).get? path = scans.reverse.find? fun scan => scan.path.same path := by
  have same : (fun scan : FileScan => compare path scan.path == .eq) =
      fun scan => scan.path.same path := by
    funext scan
    rw [Bool.eq_iff_iff, beq_iff_eq, compare_path_eq_iff]
  have stored := SortedMap.get?_foldl_insert FileScan.path id scans .empty path
  rw [Option.map_id, id, same] at stored
  rw [get?, files_ofScans]
  exact stored.trans Option.or_none

/-- That each scan is stored under its own path. -/
def Keyed (session : Session) : Prop :=
  ∀ entry ∈ session.files.entries, compare entry.2.path entry.1 = .eq

theorem Keyed.record (keyed : session.Keyed) (scan : FileScan) : (session.record scan).Keyed := by
  intro entry mem
  rcases SortedMap.mem_alterEntries mem with ⟨same, _, new⟩ | there
  · rw [new]
    exact same
  · exact keyed entry there

theorem keyed_ofScans (scans : List FileScan) : (ofScans scans).Keyed := by
  have all : ∀ session : Session, session.Keyed → (scans.foldl Session.record session).Keyed := by
    induction scans with
    | nil => exact fun _ keyed => keyed
    | cons scan scans ih => exact fun session keyed => ih _ (keyed.record scan)
  apply all
  intro entry mem
  cases mem

/-- A scan is stored exactly if it is found under its path. -/
theorem Keyed.mem_scans (keyed : session.Keyed) {scan : FileScan} :
    scan ∈ session.scans ↔ session.get? scan.path = some scan := by
  constructor
  · intro mem
    obtain ⟨key, mem⟩ := SortedMap.mem_values.1 mem
    exact SortedMap.get?_of_mem mem (keyed _ mem)
  · exact SortedMap.mem_values_of_get?

/-- No path is stored twice, however it is spelled. -/
theorem Keyed.distinct (keyed : session.Keyed) :
    session.scans.Pairwise fun a b => a.path.same b.path = false := by
  rw [scans, SortedMap.values, List.pairwise_map]
  refine session.files.increasing.imp_of_mem fun {a b} memA memB lt => ?_
  rw [← Bool.not_eq_true, ← Path.compare_eq_iff]
  intro same
  have keys : compare a.1 b.1 = .eq := Std.TransCmp.eq_trans
    (Std.OrientedCmp.eq_symm (keyed a memA)) (Std.TransCmp.eq_trans same (keyed b memB))
  rw [lt] at keys
  cases keys

/-! ## What a session knows of its calls -/

/-- What a session knows of the scans recorded in it. -/
structure Tracks (session : Session) (recorded : List FileScan) : Prop where
  total : session.total = sum (session.scans.map FileScan.size)
  findings : session.findings.length = session.total
  /-- A path has the last scan recorded for it, also under another spelling. -/
  last : ∀ path, session.get? path = recorded.reverse.find? fun scan => scan.path.same path
  /-- What is stored is found under its path, and there is one scan for each. -/
  stored : ∀ scan, scan ∈ session.scans ↔ session.get? scan.path = some scan
  distinct : session.scans.Pairwise fun a b => a.path.same b.path = false
  kinds : ∀ kind, kind ∈ session.kinds.members ↔
    ∃ scan ∈ recorded, ∃ a ∈ scan.findings, a.kind = kind
  known : ∀ scan ∈ session.scans, ∀ a ∈ scan.findings, a.kind ∈ session.kinds.members
  /-- What a scan replaces is part of the total, so that it can be taken away. -/
  replaced : ∀ path, ((session.get? path).map FileScan.size).getD 0 ≤ session.total

theorem tracks_ofScans (scans : List FileScan) : (ofScans scans).Tracks scans := by
  have sound := sound_ofScans scans
  have keyed := keyed_ofScans scans
  constructor
  case total => exact sound.total
  case findings =>
    rw [findings, length_flatMap, sound.total]
    rfl
  case last => exact get?_ofScans scans
  case stored => exact fun _ => keyed.mem_scans
  case distinct => exact keyed.distinct
  case kinds =>
    intro kind
    simp only [mem_kinds_ofScans, List.mem_flatMap, List.mem_map]
  case known => exact sound.kinds
  case replaced =>
    intro path
    cases found : (ofScans scans).get? path with
    | none => exact Nat.zero_le _
    | some scan =>
      have mem : scan ∈ (ofScans scans).scans := SortedMap.mem_values_of_get? found
      rw [sound.total]
      exact le_sum_of_mem (List.mem_map_of_mem mem)

/-- **A session keeps its books.** After any calls, failing ones and repeated paths included, a
session has the last scan of each path, their number of findings as its total, and the kinds of all
scans ever recorded. A further call either fails and changes nothing, or records its scan, which is
then found under its path; what it replaces is never more than the total. -/
theorem callAll_tracks (calls : List Call) :
    let session := empty.callAll calls
    session.Tracks (recorded calls) ∧
      ∀ c, session.call c = match c.scan with
        | .ok scan => (.ok (some scan), session.record scan)
        | .error failure => (.error failure, session) := by
  intro session
  constructor
  · have same : session = ofScans (recorded calls) := callAll_eq empty calls
    rw [same]
    exact tracks_ofScans (recorded calls)
  · intro c
    cases scanned : c.scan with
    | error failure => exact call_of_error scanned
    | ok scan =>
      have own : scan.path.same scan.path = true := beq_self_eq_true _
      rw [call_of_ok scanned, get?_record, if_pos own]

end Markers.Session

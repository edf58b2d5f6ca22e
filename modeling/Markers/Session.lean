import Markers.Finding
import Markers.Failure
import Markers.SortedMap
import Markers.SortedSet
import Markers.Sum

/-!
# Scan sessions

A session gathers the scans of many files, one per path, together with every kind seen and the
number of findings stored. Recording a path again replaces its scan, while kinds seen before
stay seen.
-/

namespace Markers

/-- The results of scanning files. -/
structure Session where
  /-- The scan of each path, in path order. -/
  files : SortedMap Path FileScan
  /-- Every kind recorded so far, in order. -/
  kinds : SortedSet Kind
  /-- Number of findings in the stored scans. -/
  total : Nat
deriving DecidableEq, Repr

/-- The findings of a text, as that of the file at a path. -/
def scanText (path : Path) (text : String) : Except Failure FileScan :=
  match Family.ofPath? path with
  | none => .error (.unsupportedFileType (Family.withoutDot (Family.keyOf path)))
  | some family =>
    match family.scan? text.toList with
    | some markers => .ok ⟨path, markers.map (Finding.ofMarker path)⟩
    | none => .error .offset

/-- A file of a known family has what the scanner of the family finds. -/
theorem scanText_of_scan? {path : Path} {family : Family} {text : String} {found : List Marker}
    (known : Family.ofPath? path = some family) (scanned : family.scan? text.toList = some found) :
    scanText path text = .ok ⟨path, found.map (Finding.ofMarker path)⟩ := by
  unfold scanText
  rw [known]
  simp only [scanned]

namespace Session

/-- A session without files. -/
def empty : Session :=
  ⟨.empty, .empty, 0⟩

/-- The scan stored for a path. -/
def get? (session : Session) (path : Path) : Option FileScan :=
  session.files.get? path

/-- Add the scan of a file, in place of the one stored for its path. -/
def record (session : Session) (scan : FileScan) : Session where
  files := session.files.insert scan.path scan
  kinds := session.kinds.insertAll (scan.findings.map Finding.kind)
  total := session.total + scan.size - ((session.get? scan.path).map FileScan.size).getD 0

/-- Add what a scan gives. A scan that failed changes nothing. -/
def add (session : Session) (result : Except Failure FileScan) : Session :=
  match result with
  | .ok scan => session.record scan
  | .error _ => session

/-- The session of a list of scans. -/
def ofScans (scans : List FileScan) : Session :=
  scans.foldl record empty

/-- Number of files. -/
def fileCount (session : Session) : Nat :=
  session.files.size

/-- The stored scans, in path order. -/
def scans (session : Session) : List FileScan :=
  session.files.values

/-- All findings, by path and then by place in the file. -/
def findings (session : Session) : List Finding :=
  session.scans.flatMap FileScan.findings

/-- Number of findings of a kind. -/
def countKind (session : Session) (kind : Kind) : Nat :=
  sum (session.scans.map fun scan => scan.countKind kind)

end Session
end Markers

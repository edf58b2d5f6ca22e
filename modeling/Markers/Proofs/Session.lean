import Markers.Proofs.Keyword
import Markers.Proofs.Path
import Markers.Proofs.SortedMap
import Markers.Session

/-!
# What a session knows

`Session.Sound` says that a session has the kinds and the number of the findings in its stored
scans. Recording a scan keeps it (`Sound.record`), also in place of another one. Scans of different
files can be recorded in any order (`ofScans_eq_of_perm`).
-/

namespace Markers.Session

/-- The kinds and the number of findings are those of the stored scans; kinds may be left over from
scans that were replaced. -/
structure Sound (session : Session) : Prop where
  kinds : ∀ scan ∈ session.scans, ∀ a ∈ scan.findings, a.kind ∈ session.kinds.members
  total : session.total = sum (session.scans.map FileScan.size)

theorem sound_empty : empty.Sound where
  kinds := by
    intro scan mem
    simp [scans, empty, SortedMap.values, SortedMap.empty] at mem
  total := rfl

/-- Recording a scan keeps a session sound. -/
theorem Sound.record {session : Session} (h : session.Sound) (scan : FileScan) :
    (session.record scan).Sound where
  kinds := by
    intro stored mem a found
    have kinds : ∀ k, k ∈ (session.record scan).kinds.members ↔
        k ∈ session.kinds.members ∨ k ∈ scan.findings.map Finding.kind :=
      fun _ => SortedSet.mem_insertAll
    rw [kinds]
    rcases SortedMap.mem_values_insert mem with rfl | mem
    · exact .inr (List.mem_map_of_mem found)
    · exact .inl (h.kinds stored mem a found)
  total := by
    have sums := SortedMap.sum_values_alter FileScan.size session.files scan.path fun _ => scan
    have total := h.total
    show session.total + scan.size - ((session.files.get? scan.path).map FileScan.size).getD 0 =
      sum ((session.files.alter scan.path fun _ => scan).values.map FileScan.size)
    change session.total = sum (session.files.values.map FileScan.size) at total
    omega

theorem Sound.recordAll {session : Session} (h : session.Sound) (scans : List FileScan) :
    (scans.foldl Session.record session).Sound := by
  induction scans generalizing session with
  | nil => exact h
  | cons scan scans ih => exact ih (h.record scan)

/-- A session of scans is sound. -/
theorem sound_ofScans (scans : List FileScan) : (ofScans scans).Sound :=
  sound_empty.recordAll scans

/-! ## The order of recording -/

theorem files_ofScans (scans : List FileScan) :
    (ofScans scans).files = scans.foldl (fun files scan => files.insert scan.path scan) .empty := by
  have all : ∀ session : Session, (scans.foldl record session).files =
      scans.foldl (fun files scan => files.insert scan.path scan) session.files := by
    induction scans with
    | nil => exact fun _ => rfl
    | cons scan scans ih => exact fun session => ih (session.record scan)
  exact all empty

/-- Scans that come in the order of their paths are stored as they come. -/
theorem keys_ofScans {scans : List FileScan}
    (increasing : (scans.map FileScan.path).Pairwise fun a b => compare a b = .lt) :
    (ofScans scans).files.keys = scans.map FileScan.path := by
  have stored := SortedMap.ofList_entries
    ⟨scans.map fun scan => (scan.path, scan), List.pairwise_map.2 (List.pairwise_map.1 increasing)⟩
  rw [SortedMap.ofList, List.foldl_map] at stored
  rw [files_ofScans, stored, SortedMap.keys, List.map_map]
  rfl

/-- A session has the kinds of all scans recorded in it, also of those that were replaced. -/
theorem mem_kinds_ofScans {scans : List FileScan} {kind : Kind} :
    kind ∈ (ofScans scans).kinds.members ↔
      kind ∈ scans.flatMap fun scan => scan.findings.map Finding.kind := by
  have all : ∀ session : Session, kind ∈ (scans.foldl record session).kinds.members ↔
      kind ∈ session.kinds.members ∨
        kind ∈ scans.flatMap fun scan => scan.findings.map Finding.kind := by
    induction scans with
    | nil => simp
    | cons scan scans ih =>
      intro session
      have step : kind ∈ (session.record scan).kinds.members ↔
          kind ∈ session.kinds.members ∨ kind ∈ scan.findings.map Finding.kind :=
        SortedSet.mem_insertAll
      rw [List.foldl_cons, ih, step, List.flatMap_cons, List.mem_append, or_assoc]
  rw [ofScans, all]
  simp [empty, SortedSet.empty]

/-- The order in which scans of different files are recorded does not matter. -/
theorem ofScans_eq_of_perm {scans scans' : List FileScan}
    (distinct : scans.Pairwise fun a b => a.path.same b.path = false)
    (same : scans.Perm scans') : ofScans scans = ofScans scans' := by
  -- the two insertions may be any two of the scans, so the paths must differ both ways round
  have other : ∀ a ∈ scans, ∀ b ∈ scans, a ≠ b → compare a.path b.path ≠ .eq := by
    have forward := distinct.imp (S := fun a b => a ≠ b → compare a.path b.path ≠ .eq)
      fun {a b} differ _ => by rw [Ne, Path.compare_eq_iff, differ]; exact Bool.false_ne_true
    refine List.Pairwise.forall_of_forall_of_flip (fun a _ differ => absurd rfl differ) forward ?_
    exact forward.imp fun {a b} differ distinct same =>
      differ distinct.symm (Std.OrientedCmp.eq_symm same)
  have files : (ofScans scans).files = (ofScans scans').files := by
    rw [files_ofScans, files_ofScans]
    apply same.foldl_eq'
    intro a memA b memB files
    by_cases one : b = a
    · rw [one]
    · exact SortedMap.alter_comm files _ _ (other b memB a memA one)
  have kinds : (ofScans scans).kinds = (ofScans scans').kinds := by
    apply SortedSet.ext
    intro kind
    rw [mem_kinds_ofScans, mem_kinds_ofScans]
    exact (same.flatMap_right _).mem_iff
  have total : (ofScans scans).total = (ofScans scans').total := by
    rw [(sound_ofScans scans).total, (sound_ofScans scans').total, Session.scans, files]
    rfl
  calc ofScans scans
    _ = ⟨(ofScans scans).files, (ofScans scans).kinds, (ofScans scans).total⟩ := rfl
    _ = ofScans scans' := by rw [files, kinds, total]

end Markers.Session

import Markers.Proofs.Aggregation
import Markers.Proofs.Finding

/-!
# The findings of a file in a report

A report has the findings of a file in the order of their sort keys. Findings that are stored in the
order of their positions stay as they are exactly if each position is keyed before all later ones
(`build_positions`). A line or a column with seven digits can come before one with six
(`build_positions_million`).
-/

namespace Markers

namespace ProjectReport
variable {scan : FileScan}

/-- Sorting leaves findings as they are exactly if their keys are in order. -/
theorem findings_sortFindings_eq_iff :
    (sortFindings scan).findings = scan.findings ↔
      scan.findings.Pairwise fun a b => (compare a.sortKey b.sortKey).isLE = true := by
  constructor
  · intro kept
    have sorted := pairwise_mergeSort_isLE (compareOn Finding.sortKey) scan.findings
    exact kept ▸ sorted
  · exact List.mergeSort_of_pairwise

/-- Findings of one file in the order of their positions stay so exactly if their positions are
keyed in that order. -/
theorem findings_sortFindings_eq_iff_keyedBefore (own : ∀ a ∈ scan.findings, a.file = scan.path)
    (increasing : scan.findings.Pairwise fun a b => a.start < b.start) :
    (sortFindings scan).findings = scan.findings ↔
      scan.findings.Pairwise fun a b => a.start.KeyedBefore b.start := by
  have keyed {a b : Finding} (mem : a ∈ scan.findings) (mem' : b ∈ scan.findings)
      (before : a.start < b.start) :
      (compare a.sortKey b.sortKey).isLE = true ↔ a.start.KeyedBefore b.start :=
    Finding.isLE_compare_sortKey_iff ((own a mem).trans (own b mem').symm) before
  rw [findings_sortFindings_eq_iff]
  constructor
  · intro sorted
    exact (increasing.and sorted).imp_of_mem fun mem mem' h => (keyed mem mem' h.1).1 h.2
  · intro sorted
    exact (increasing.and sorted).imp_of_mem fun mem mem' h => (keyed mem mem' h.1).2 h.2

end ProjectReport

namespace Aggregation
open ProjectReport

/-- **Findings by position.** A stored file whose findings are its own and in the order of their
positions is in one report, with the same findings. They are in the order of their positions there
exactly if they are in the stored order, and exactly if the positions are keyed in their order; this
is so if all lines and columns are below one million. -/
theorem build_positions (session : Session) (map : ProjectMap) {scan : FileScan}
    (stored : scan ∈ session.scans) (own : ∀ a ∈ scan.findings, a.file = scan.path)
    (increasing : scan.findings.Pairwise fun a b => a.start < b.start) :
    ∃ report ∈ (build session map).projects, ∃ file ∈ report.files,
      (∀ other ∈ (build session map).projects, file ∈ other.files → other = report) ∧
      file.path = scan.path ∧ file.findings.Perm scan.findings ∧
      (file.findings.Pairwise (fun a b => a.start < b.start) ↔ file.findings = scan.findings) ∧
      (file.findings = scan.findings ↔
        scan.findings.Pairwise fun a b => a.start.KeyedBefore b.start) ∧
      (∀ a ∈ scan.findings, ∀ b ∈ scan.findings, a.start < b.start →
        (a.sortKey < b.sortKey ↔ a.start.KeyedBefore b.start)) ∧
      ((∀ a ∈ scan.findings, a.start.line < 1000000 ∧ a.start.column < 1000000) →
        file.findings = scan.findings) := by
  obtain ⟨report, reported, within, _, only⟩ := owner_build session map scan stored
  have kept := findings_sortFindings_eq_iff_keyedBefore own increasing
  refine ⟨report, reported, sortFindings scan, within, only, rfl, findings_sortFindings scan, ?_, kept,
    fun a mem b mem' => ?_, fun small => ?_⟩
  · refine ⟨fun ordered => ?_, fun same => same ▸ increasing⟩
    refine (findings_sortFindings scan).eq_of_pairwise (fun a b _ _ lt gt => ?_) ordered increasing
    exact absurd (Position.lt_trans lt gt) fun self => Position.not_le_of_lt self (.inr rfl)
  · exact Finding.sortKey_lt_iff ((own a mem).trans (own b mem').symm)
  · exact kept.2 <| increasing.imp_of_mem fun mem mem' before =>
      Position.keyedBefore_of_lt before (small _ mem) (small _ mem')

/-- A file with a marker of each given kind at a position. -/
private def fileWith (markers : List (Kind × Position)) : FileScan :=
  ⟨⟨"a.cs"⟩, markers.map fun marker => ⟨"", marker.1, ⟨"a.cs"⟩, marker.2, marker.2⟩⟩

/-- Beyond one million lines: the first line is before all lines with seven digits, and these have
one length. -/
theorem build_positions_beyond :
    let scan := fileWith [(.todo, ⟨1, 4⟩), (.bug, ⟨1000000, 1⟩), (.net .none, ⟨1000001, 120⟩)]
    let session := Session.ofScans [scan]
    scan ∈ session.scans ∧ (∀ a ∈ scan.findings, a.file = scan.path) ∧
      scan.findings.Pairwise (fun a b => a.start < b.start) ∧
      ∃ report ∈ (build session ⟨[]⟩).projects, ∃ file ∈ report.files,
        file.path = scan.path ∧ file.findings = scan.findings := by
  intro scan session
  have stored : scan ∈ session.scans := List.mem_singleton_self _
  have own : ∀ a ∈ scan.findings, a.file = scan.path := by decide
  have increasing : scan.findings.Pairwise fun a b => a.start < b.start := by decide
  obtain ⟨report, reported, file, within, _, path, _, _, kept, _⟩ :=
    build_positions session ⟨[]⟩ stored own increasing
  exact ⟨stored, own, increasing, report, reported, file, within, path, kept.2 (by decide)⟩

/-- Two markers on a long line: the digits 1000000 of the second column come before the digits 100004
of the first one, so the report has them the other way round. -/
theorem build_positions_million :
    let scan := fileWith [(.bug, ⟨1, 100004⟩), (.todo, ⟨1, 1000000⟩)]
    let session := Session.ofScans [scan]
    scan ∈ session.scans ∧ (∀ a ∈ scan.findings, a.file = scan.path) ∧
      scan.findings.Pairwise (fun a b => a.start < b.start) ∧
      ∃ report ∈ (build session ⟨[]⟩).projects, ∃ file ∈ report.files,
        file.path = scan.path ∧ file.findings = scan.findings.reverse ∧
          ¬file.findings.Pairwise fun a b => a.start < b.start := by
  intro scan session
  have stored : scan ∈ session.scans := List.mem_singleton_self _
  have turned : (sortFindings scan).findings = scan.findings.reverse := by
    have sorted := pairwise_mergeSort_isLE (compareOn Finding.sortKey) scan.findings
    have keys : scan.findings.reverse.Pairwise
        fun a b => (compareOn Finding.sortKey a b).isLE = true := by decide +kernel
    have distinct : ∀ a ∈ scan.findings, ∀ b ∈ scan.findings.reverse,
        a.sortKey = b.sortKey → a = b := by decide +kernel
    refine List.Perm.eq_of_pairwise (fun a b mem mem' le ge => ?_) sorted keys
      ((List.mergeSort_perm _ _).trans (List.reverse_perm _).symm)
    have same : compare a.sortKey b.sortKey = .eq := Std.OrientedCmp.isLE_antisymm le ge
    exact distinct a (List.mem_mergeSort.1 mem) b mem' (Std.LawfulEqOrd.eq_of_compare same)
  obtain ⟨report, reported, within, _⟩ := owner_build session ⟨[]⟩ scan stored
  refine ⟨stored, by decide, by decide, report, reported, sortFindings scan, within, rfl, turned, ?_⟩
  rw [turned]
  decide

end Aggregation
end Markers

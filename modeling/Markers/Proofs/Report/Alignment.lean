import Markers.Proofs.Aggregation
import Markers.Proofs.Report.Markdown
import Markers.Proofs.Scan.Lines
import Markers.Proofs.Text.Decimal

/-!
# Columns of the summary

Rows are aligned if they are equally long and have their bare pipes at the same columns (`Aligned`).
Both depend on the widths of the cells alone (`HasWidths`). Every line of the summary has a first
cell as wide as the longest name, and each further one is as wide as its header unless the number in
it has more digits than that, so a row is in line with the headers exactly if its numbers fit under
them (`inLine_summaryRow_iff`). No number is greater than that of the last row, which is the sum of
the others (`le_total`), so the table is aligned exactly if the totals fit
(`summaryTable_aligned`).
-/

namespace Markers.Report
open Text

/-- A text of one cell has no bare pipes. -/
theorem Layout.pipeColumns {s : List Char} (cell : Layout 0 0 s) (column : Nat) :
    pipeColumns false column s = [] := by
  rw [← List.length_eq_zero_iff, length_pipeColumns, cell.pipes]

/-- That two rows are equally long and have the separators of their cells at the same columns. -/
structure InLine (row row' : List Char) : Prop where
  length : row.length = row'.length
  columns : pipeColumns false 0 row = pipeColumns false 0 row'

/-- That all rows of a table are in line with one another. -/
def Aligned (rows : List (List Char)) : Prop :=
  ∀ row ∈ rows, ∀ row' ∈ rows, InLine row row'

theorem InLine.symm {row row' : List Char} (h : InLine row row') : InLine row' row :=
  ⟨h.length.symm, h.columns.symm⟩

theorem InLine.trans {row row' row'' : List Char} (h : InLine row row') (h' : InLine row' row'') :
    InLine row row'' :=
  ⟨h.length.trans h'.length, h.columns.trans h'.columns⟩

/-- Rows are aligned when all are in line with one of them. -/
theorem aligned_iff_of_mem {rows : List (List Char)} {head : List Char} (mem : head ∈ rows) :
    Aligned rows ↔ ∀ row ∈ rows, InLine row head := by
  constructor
  · exact fun all row mem' => all row mem' head mem
  · exact fun all row mem' row' mem'' => (all row mem').trans (all row' mem'').symm

/-! ## Widths of cells -/

/-- The columns of separators of three characters, with the pipe in the middle, between a cell that
ends at a column and further ones of the given widths. -/
def separatorColumns (column : Nat) : List Nat → List Nat
  | [] => []
  | width :: widths => (column + 1) :: separatorColumns (column + 3 + width) widths

/-- That a row consists of cells of the given widths with such separators between them. -/
structure HasWidths (row : List Char) (first : Nat) (widths : List Nat) : Prop where
  length : row.length = first + sum (widths.map (3 + ·))
  columns : pipeColumns false 0 row = separatorColumns first widths

/-- Three characters with a bare pipe in the middle. -/
structure IsSeparator (separator : List Char) : Prop where
  length : separator.length = 3
  columns : ∀ column, pipeColumns false column separator = [column + 1]
  first : separator.head? ≠ some '|'

theorem isSeparator_bar : IsSeparator " | ".toList :=
  ⟨rfl, fun _ => rfl, by decide⟩

theorem isSeparator_rule : IsSeparator "-|-".toList :=
  ⟨rfl, fun _ => rfl, by decide⟩

section Rows
variable {row row' first separator : List Char} {cells : List (List Char)} {width : Nat}
  {widths : List Nat}

theorem IsSeparator.head?_append (between : IsSeparator separator) (s : List Char) :
    (separator ++ s).head? ≠ some '|' := by
  have nonempty : separator ≠ [] := by
    rintro rfl
    cases between.length
  rw [List.head?_append_of_ne_nil _ nonempty]
  exact between.first

theorem head?_cells (between : IsSeparator separator) (cells : List (List Char)) :
    (cells.flatMap (separator ++ ·)).head? ≠ some '|' := by
  cases cells with
  | nil => simp
  | cons cell cells =>
    rw [List.flatMap_cons, List.append_assoc]
    exact between.head?_append _

theorem pipeColumns_cells (between : IsSeparator separator)
    (each : ∀ cell ∈ cells, Layout 0 0 cell) (column : Nat) :
    pipeColumns false column (cells.flatMap (separator ++ ·)) =
      separatorColumns column (cells.map List.length) := by
  induction cells generalizing column with
  | nil => rfl
  | cons cell cells ih =>
    obtain ⟨here, later⟩ := List.forall_mem_cons.1 each
    rw [List.flatMap_cons, pipeColumns_append (head?_cells between cells),
      pipeColumns_append here.head?_ne, between.columns, here.pipeColumns, ih later,
      List.length_append, between.length, ← Nat.add_assoc]
    rfl

theorem hasWidths_join (between : IsSeparator separator) (here : Layout 0 0 first)
    (each : ∀ cell ∈ cells, Layout 0 0 cell) :
    HasWidths (join separator (first :: cells)) first.length (cells.map List.length) where
  length := by
    rw [join_cons, List.length_append, length_flatMap, List.map_map]
    simp only [List.length_append, between.length]
    rfl
  columns := by
    rw [join_cons, pipeColumns_append (head?_cells between cells), here.pipeColumns,
      pipeColumns_cells between each, Nat.zero_add]
    rfl

theorem HasWidths.inLine (has : HasWidths row width widths) (has' : HasWidths row' width widths) :
    InLine row row' :=
  ⟨has.length.trans has'.length.symm, has.columns.trans has'.columns.symm⟩

end Rows

/-- What an operation makes no smaller on either side, a fold with it makes no smaller either. -/
theorem le_foldl {α : Type} (size : α → Nat) (op : α → α → α)
    (left : ∀ a b, size a ≤ size (op a b)) (right : ∀ a b, size b ≤ size (op a b)) (l : List α)
    (start : α) :
    size start ≤ size (l.foldl op start) ∧ ∀ a ∈ l, size a ≤ size (l.foldl op start) := by
  induction l generalizing start with
  | nil => simp
  | cons a l ih =>
    obtain ⟨first, rest⟩ := ih (op start a)
    exact ⟨(left start a).trans first, List.forall_mem_cons.2 ⟨(right start a).trans first, rest⟩⟩

/-! ## The lines of the summary -/

/-- The columns behind the first: the width of the header and the number in a row. -/
def countColumns (kinds : List Kind) (count : ProjectCount) : List (Nat × Nat) :=
  ("Total".toList.length, count.total) ::
    kinds.map fun kind => (kind.token.length, count.ofKeyword kind.render)

/-- That no number of a row has more digits than its header has characters. -/
structure FitsHeaders (kinds : List Kind) (count : ProjectCount) : Prop where
  total : count.total < unit "Total".toList.length
  number : ∀ kind ∈ kinds, count.ofKeyword kind.render < unit kind.token.length

theorem length_decimal_le_iff {width n : Nat} (pos : 0 < width) :
    (decimal n).length ≤ width ↔ n < unit width :=
  Nat.length_toDigits_le_iff (by decide) pos

theorem length_token_pos (kind : Kind) : 0 < kind.token.length := by
  cases kind <;> exact Nat.succ_pos _

theorem fitsHeaders_iff {kinds : List Kind} {count : ProjectCount} :
    FitsHeaders kinds count ↔
      ∀ column ∈ countColumns kinds count, (decimal column.2).length ≤ column.1 := by
  rw [countColumns, List.forall_mem_cons, List.forall_mem_map]
  simp only [length_decimal_le_iff (length_token_pos _)]
  rw [length_decimal_le_iff (by decide)]
  exact ⟨fun fits => ⟨fits.total, fits.number⟩, fun fits => ⟨fits.1, fits.2⟩⟩

theorem nameWidth_spec (aggregation : Aggregation) :
    max totalLabel.length "Project".toList.length ≤ nameWidth aggregation ∧
      ∀ report ∈ aggregation.projects, (nameCell report).length ≤ nameWidth aggregation := by
  obtain ⟨labels, names⟩ := le_foldl id max Nat.le_max_left Nat.le_max_right
    (aggregation.projects.map fun report => (nameCell report).length)
    (max totalLabel.length "Project".toList.length)
  rw [nameWidth]
  simp only [id_eq] at labels names
  exact ⟨labels, List.forall_mem_map.1 names⟩

theorem length_nameHeader (aggregation : Aggregation) :
    (padEnd (nameWidth aggregation) "Project".toList).length = nameWidth aggregation := by
  rw [length_padEnd]
  exact Nat.max_eq_left ((Nat.le_max_right ..).trans (nameWidth_spec aggregation).1)

theorem hasWidths_headLine (aggregation : Aggregation) :
    HasWidths (headLine aggregation) (nameWidth aggregation)
      ((countHeaders aggregation.kinds).map List.length) := by
  have project : Layout 0 0 "Project".toList := ⟨by decide, by decide⟩
  have row := hasWidths_join isSeparator_bar (project.padEnd (nameWidth aggregation))
    (layout_countHeaders aggregation.kinds)
  rwa [length_nameHeader] at row

theorem hasWidths_ruleLine (aggregation : Aggregation) :
    HasWidths (ruleLine aggregation) (nameWidth aggregation)
      ((countHeaders aggregation.kinds).map List.length) := by
  have dashes (n : Nat) : Layout 0 0 (List.replicate n '-') :=
    layout_replicate (by decide) (by decide) n
  have row := hasWidths_join isSeparator_rule (dashes (nameWidth aggregation))
    (List.forall_mem_map.2 fun header (_ : header ∈ countHeaders aggregation.kinds) =>
      dashes header.length)
  rw [List.length_replicate, List.map_map] at row
  simp only [Function.comp_def, List.length_replicate] at row
  rwa [ruleLine, List.map_cons, length_nameHeader]

theorem hasWidths_summaryRow {width : Nat} (kinds : List Kind) {label : List Char}
    (cell : Layout 0 0 label) (fits : label.length ≤ width) (count : ProjectCount) :
    HasWidths (summaryRow width kinds label count) width
      ((countColumns kinds count).map fun column => max column.1 (decimal column.2).length) := by
  have numbers : ∀ number ∈ (countColumns kinds count).map fun column =>
      padStart column.1 (decimal column.2), Layout 0 0 number :=
    List.forall_mem_map.2 fun column _ => (layout_decimal column.2).padStart column.1
  have row := hasWidths_join isSeparator_bar (cell.padEnd width) numbers
  rw [length_padEnd, Nat.max_eq_left fits, List.map_map] at row
  simp only [Function.comp_def, length_padStart] at row
  have cells : join " | ".toList (padEnd width label ::
      (countColumns kinds count).map fun column => padStart column.1 (decimal column.2)) =
        summaryRow width kinds label count := by
    rw [summaryRow, countColumns, List.map_cons, List.map_map]
    rfl
  rwa [cells] at row

/-- A row of numbers is in line with the headers exactly if its numbers fit under them. -/
theorem inLine_summaryRow_iff (aggregation : Aggregation) {label : List Char}
    (cell : Layout 0 0 label) (fits : label.length ≤ nameWidth aggregation) (count : ProjectCount) :
    InLine (summaryRow (nameWidth aggregation) aggregation.kinds label count)
      (headLine aggregation) ↔ FitsHeaders aggregation.kinds count := by
  have row := hasWidths_summaryRow aggregation.kinds cell fits count
  have head := hasWidths_headLine aggregation
  have headers : (countHeaders aggregation.kinds).map List.length =
      (countColumns aggregation.kinds count).map (·.1) := by
    rw [countHeaders, countColumns, List.map_cons, List.map_cons, List.map_map, List.map_map]
    rfl
  rw [headers] at head
  rw [fitsHeaders_iff]
  constructor
  · intro inLine column mem
    have same := inLine.length
    rw [row.length, head.length, Nat.add_left_cancel_iff, List.map_map, List.map_map] at same
    -- the sums of the widths are equal, and no cell is narrower than its header
    have width := eq_of_sum_map_eq (fun column _ => Nat.add_le_add_left (Nat.le_max_left ..) 3)
      same.symm column mem
    rw [Nat.add_left_cancel width]
    exact Nat.le_max_right ..
  · intro all
    have widths : (countColumns aggregation.kinds count).map
        (fun column => max column.1 (decimal column.2).length) =
          (countColumns aggregation.kinds count).map (·.1) :=
      List.map_congr_left fun column mem => Nat.max_eq_left (all column mem)
    rw [widths] at row
    exact row.inLine head

theorem inLine_nameCell_iff {aggregation : Aggregation} {report : ProjectReport}
    (mem : report ∈ aggregation.projects) :
    InLine (summaryRow (nameWidth aggregation) aggregation.kinds (nameCell report) report.count)
      (headLine aggregation) ↔ FitsHeaders aggregation.kinds report.count :=
  inLine_summaryRow_iff aggregation (layout_escapeCell _)
    ((nameWidth_spec aggregation).2 report mem) report.count

theorem inLine_totalLabel_iff (aggregation : Aggregation) :
    InLine (summaryRow (nameWidth aggregation) aggregation.kinds totalLabel aggregation.total)
      (headLine aggregation) ↔ FitsHeaders aggregation.kinds aggregation.total :=
  inLine_summaryRow_iff aggregation ⟨by decide, by decide⟩
    ((Nat.le_max_left ..).trans (nameWidth_spec aggregation).1) aggregation.total

theorem aligned_summaryLines_iff (aggregation : Aggregation) :
    Aligned (summaryLines aggregation) ↔ FitsHeaders aggregation.kinds aggregation.total ∧
      ∀ report ∈ aggregation.projects, FitsHeaders aggregation.kinds report.count := by
  have head := hasWidths_headLine aggregation
  rw [aligned_iff_of_mem (mem_summaryLines.2 (.inl rfl))]
  constructor
  · intro all
    constructor
    · refine (inLine_totalLabel_iff aggregation).1 (all _ ?_)
      exact mem_summaryLines.2 (.inr (.inr (.inr rfl)))
    · intro report mem
      refine (inLine_nameCell_iff mem).1 (all _ ?_)
      exact mem_summaryLines.2 (.inr (.inr (.inl ⟨report, mem, rfl⟩)))
  · rintro ⟨total, each⟩ row listed
    rcases mem_summaryLines.1 listed with same | same | ⟨report, mem, same⟩ | same
    · rw [same]
      exact head.inLine head
    · rw [same]
      exact (hasWidths_ruleLine aggregation).inLine head
    · rw [same]
      exact (inLine_nameCell_iff mem).2 (each report mem)
    · rw [same]
      exact (inLine_totalLabel_iff aggregation).2 total

/-! ## Counts -/

theorem FitsHeaders.mono {kinds : List Kind} {count count' : ProjectCount}
    (fits : FitsHeaders kinds count') (total : count.total ≤ count'.total)
    (number : ∀ keyword, count.ofKeyword keyword ≤ count'.ofKeyword keyword) :
    FitsHeaders kinds count where
  total := Nat.lt_of_le_of_lt total fits.total
  number kind mem := Nat.lt_of_le_of_lt (number kind.render) (fits.number kind mem)

/-- No number of a report is greater than that of all reports together. -/
theorem le_total (session : Session) (map : ProjectMap) :
    let aggregation := Aggregation.build session map
    ∀ report ∈ aggregation.projects, report.count.total ≤ aggregation.total.total ∧
      ∀ keyword, report.count.ofKeyword keyword ≤ aggregation.total.ofKeyword keyword := by
  intro aggregation report mem
  have counted : report.count ∈ aggregation.projects.map ProjectReport.count :=
    List.mem_map_of_mem mem
  constructor
  · exact (le_foldl ProjectCount.total ProjectCount.absorb (fun _ _ => Nat.le_add_right ..)
      (fun _ _ => Nat.le_add_left ..) _ _).2 _ counted
  · intro keyword
    refine (le_foldl (·.ofKeyword keyword) ProjectCount.absorb ?_ ?_ _ _).2 _ counted
    · intro count other
      rw [ProjectCount.ofKeyword_absorb]
      exact Nat.le_add_right ..
    · intro count other
      rw [ProjectCount.ofKeyword_absorb]
      exact Nat.le_add_left ..

theorem splitOn_flatMap_line {rows : List (List Char)} (each : ∀ row ∈ rows, '\n' ∉ row) :
    (rows.flatMap line).splitOn '\n' = rows ++ [[]] := by
  induction rows with
  | nil => rfl
  | cons row rows ih =>
    obtain ⟨here, later⟩ := List.forall_mem_cons.1 each
    rw [List.flatMap_cons, line, List.append_assoc, List.singleton_append,
      List.splitOn_append_cons_self_of_not_mem here, ih later, List.cons_append]

theorem splitOn_summaryTable (aggregation : Aggregation) :
    (summaryTable aggregation).splitOn '\n' = summaryLines aggregation ++ [[]] :=
  splitOn_flatMap_line fun row mem =>
    List.count_eq_zero.1 (layout_summaryLines aggregation row mem).breaks

/-- **The summary is aligned exactly if the totals fit under their headers.** The lines of its text
are the header, the rule, a row for each project and the last row. All have the same number of
characters and their bare pipes at the same columns exactly if each number of the last row has no
more digits than its header has characters, however long the names are; and the row of a project is
in line with the headers exactly if its own numbers fit. -/
theorem summaryTable_aligned (session : Session) (map : ProjectMap) :
    let aggregation := Aggregation.build session map
    (summaryTable aggregation).splitOn '\n' = summaryLines aggregation ++ [[]] ∧
      (Aligned (summaryLines aggregation) ↔ FitsHeaders aggregation.kinds aggregation.total) ∧
      ∀ report ∈ aggregation.projects,
        InLine (summaryRow (nameWidth aggregation) aggregation.kinds (nameCell report) report.count)
          (headLine aggregation) ↔ FitsHeaders aggregation.kinds report.count := by
  intro aggregation
  refine ⟨splitOn_summaryTable aggregation, ?_, fun report mem => inLine_nameCell_iff mem⟩
  rw [aligned_summaryLines_iff, and_iff_left_iff_imp]
  intro fits report mem
  obtain ⟨total, number⟩ := le_total session map report mem
  exact fits.mono total number

/-- A text of shell comments, each with one finding. -/
def bugLines (n : Nat) : List Char :=
  (List.replicate n "# BUG\n".toList).flatten

theorem scan?_bugLines (n : Nat) : ∃ found, Family.shell.scan? (bugLines n) = some found ∧
    found.map Marker.kind = List.replicate n .bug := by
  induction n with
  | zero =>
    have none : bugLines 0 = [] := rfl
    rw [none]
    exact ⟨[], by decide +kernel, rfl⟩
  | succ n ih =>
    obtain ⟨found, scanned, kinds⟩ := ih
    have one : (Family.shell.scan? "# BUG".toList).map (·.map Marker.kind) = some [.bug] := by
      decide +kernel
    obtain ⟨first, rest, scanned₁, scanned₂, joined⟩ :=
      Scan.scan?_append_newline (by decide) (Family.blockless_shell "# BUG".toList)
        (Family.blockless_shell (bugLines n))
    cases scanned.symm.trans scanned₂
    rw [scanned₁, Option.map_some, Option.some_inj] at one
    refine ⟨_, joined, ?_⟩
    rw [List.map_append, one, List.map_map, List.replicate_succ, ← kinds]
    rfl

/-- A thousand findings of a kind are too many for a column of three characters. -/
theorem summaryTable_aligned_thousand :
    ∃ scan, scanText ⟨"a.sh"⟩ (String.ofList (bugLines 1000)) = .ok scan ∧
      let aggregation := Aggregation.build (.ofScans [scan]) ⟨[]⟩
      (summaryTable aggregation).splitOn '\n' = summaryLines aggregation ++ [[]] ∧
        ¬Aligned (summaryLines aggregation) := by
  obtain ⟨found, scanned, kinds⟩ := scan?_bugLines 1000
  rw [← String.toList_ofList (l := bugLines 1000)] at scanned
  have known : Family.ofPath? ⟨"a.sh"⟩ = some .shell := by decide
  refine ⟨_, scanText_of_scan? known scanned, splitOn_summaryTable _, fun aligned => ?_⟩
  have all : (found.map (Finding.ofMarker ⟨"a.sh"⟩)).map Finding.kind =
      List.replicate 1000 .bug := by
    rw [← kinds, List.map_map]
    rfl
  generalize found.map (Finding.ofMarker ⟨"a.sh"⟩) = findings at aligned all
  have counts := Aggregation.counts_total (Session.sound_ofScans [⟨⟨"a.sh"⟩, findings⟩]) ⟨[]⟩
  have scans : (Session.ofScans [⟨⟨"a.sh"⟩, findings⟩]).scans = [⟨⟨"a.sh"⟩, findings⟩] := rfl
  have number := counts.number .bug
  rw [Session.findings, scans, List.flatMap_singleton] at number
  have thousand : findings.countP (fun a => a.kind = .bug) = 1000 := calc
    _ = (findings.map Finding.kind).countP (· = .bug) := (List.countP_map ..).symm
    _ = 1000 := by rw [all, List.countP_replicate, if_pos (by decide)]
  have some : Kind.bug ∈ (Session.ofScans [⟨⟨"a.sh"⟩, findings⟩]).kinds.members := by
    rw [Session.mem_kinds_ofScans, List.flatMap_singleton, all]
    exact List.mem_replicate.2 ⟨by decide, rfl⟩
  have fits := ((aligned_summaryLines_iff _).1 aligned).1.number .bug some
  rw [number, thousand] at fits
  exact absurd fits (by decide)

end Markers.Report

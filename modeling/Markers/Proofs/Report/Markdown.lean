import Markers.Proofs.Keyword
import Markers.Proofs.Link
import Markers.Report.Markdown

/-!
# Tables of Markdown reports

A row of a table is one line with a bare pipe between any two cells, that is, one behind no
backslash; `pipeColumns` says where they stand. The `Layout` of a text counts its bare pipes and its
newlines, and adds up when texts are put together. Escaped texts have neither. So each line of the
summary has a bare pipe in front of each number (`layout_summaryLines`). In the row of a finding
everything is escaped but the name of its file, so the row has the bare pipes and the newlines of
that name besides its own two pipes (`layout_reportRow`). `render_tables` finds the rows in the
report.
-/

namespace Markers

namespace Text

/-- Number of pipes that no backslash stands directly in front of. The flag says whether there is
one in front of the text. -/
def barePipes (escaped : Bool) : List Char → Nat
  | [] => 0
  | c :: s => (if c = '|' ∧ escaped = false then 1 else 0) + barePipes (c == '\\') s

/-- The columns of the bare pipes of a text that begins at a column. The flag says whether there is
a backslash in front of the text. -/
def pipeColumns (escaped : Bool) (column : Nat) : List Char → List Nat
  | [] => []
  | c :: s =>
    (if c = '|' ∧ escaped = false then [column] else []) ++ pipeColumns (c == '\\') (column + 1) s

theorem length_pipeColumns (escaped : Bool) (column : Nat) (s : List Char) :
    (pipeColumns escaped column s).length = barePipes escaped s := by
  induction s generalizing escaped column with
  | nil => rfl
  | cons c s ih =>
    rw [pipeColumns, barePipes, List.length_append, ih]
    split <;> rfl

theorem pipeColumns_of_head? {s : List Char} (first : s.head? ≠ some '|') (escaped : Bool)
    (column : Nat) : pipeColumns escaped column s = pipeColumns false column s := by
  cases s with
  | nil => rfl
  | cons c s =>
    have other : c ≠ '|' := by simpa using first
    simp only [pipeColumns, other, false_and, if_false]

theorem pipeColumns_append {t : List Char} (first : t.head? ≠ some '|') (escaped : Bool)
    (column : Nat) (s : List Char) : pipeColumns escaped column (s ++ t) =
      pipeColumns escaped column s ++ pipeColumns false (column + s.length) t := by
  induction s generalizing escaped column with
  | nil => exact pipeColumns_of_head? first escaped column
  | cons c s ih =>
    rw [List.cons_append, pipeColumns, pipeColumns, ih, List.append_assoc, List.length_cons,
      Nat.add_right_comm, Nat.add_assoc]

theorem barePipes_append {t : List Char} (first : t.head? ≠ some '|') (escaped : Bool)
    (s : List Char) : barePipes escaped (s ++ t) = barePipes escaped s + barePipes false t := by
  rw [← length_pipeColumns escaped 0, pipeColumns_append first, List.length_append,
    length_pipeColumns, length_pipeColumns]

end Text

namespace Report
open Text

/-- What a text does to a table: its bare pipes separate cells, and its newlines end rows. -/
structure Layout (pipes breaks : Nat) (s : List Char) : Prop where
  pipes : barePipes false s = pipes
  breaks : s.count '\n' = breaks

section Layout
variable {pipes breaks : Nat} {s t separator : List Char} {cells : List (List Char)}

/-! ## Texts of one cell -/

theorem Layout.head?_ne (cell : Layout 0 breaks s) : s.head? ≠ some '|' := by
  intro first
  obtain ⟨s, rfl⟩ := List.head?_eq_some_iff.1 first
  simpa [barePipes] using cell.pipes

theorem Layout.append {pipes' breaks' : Nat} (left : Layout pipes breaks s)
    (right : Layout pipes' breaks' t) (first : t.head? ≠ some '|') :
    Layout (pipes + pipes') (breaks + breaks') (s ++ t) where
  pipes := by rw [barePipes_append first, left.pipes, right.pipes]
  breaks := by rw [List.count_append, left.breaks, right.breaks]

/-- A text of one cell changes nothing behind another one, whatever that ends in. -/
theorem Layout.append_cell (left : Layout pipes breaks s) (cell : Layout 0 0 t) :
    Layout pipes breaks (s ++ t) :=
  left.append cell cell.head?_ne

theorem layout_flatMap {α : Type} {f : α → List Char} {l : List α}
    (each : ∀ a ∈ l, Layout 0 0 (f a)) : Layout 0 0 (l.flatMap f) := by
  induction l with
  | nil => exact ⟨rfl, rfl⟩
  | cons a l ih =>
    obtain ⟨here, later⟩ := List.forall_mem_cons.1 each
    exact here.append_cell (ih later)

theorem layout_singleton {c : Char} (pipe : c ≠ '|') (newline : c ≠ '\n') : Layout 0 0 [c] where
  pipes := by simp [barePipes, pipe]
  breaks := by simp [newline]

theorem layout_of_plain (pipe : '|' ∉ s) (newline : '\n' ∉ s) : Layout 0 0 s := by
  rw [← List.flatMap_singleton' s]
  refine layout_flatMap fun c mem => layout_singleton ?_ ?_
  · exact fun same => pipe (same ▸ mem)
  · exact fun same => newline (same ▸ mem)

theorem layout_of_isAlphanum (all : ∀ c ∈ s, c.isAlphanum = true) : Layout 0 0 s :=
  layout_of_plain (fun mem => absurd (all _ mem) (by decide))
    (fun mem => absurd (all _ mem) (by decide))

theorem layout_replicate {c : Char} (pipe : c ≠ '|') (newline : c ≠ '\n') (n : Nat) :
    Layout 0 0 (List.replicate n c) :=
  layout_of_plain (fun mem => pipe (List.eq_of_mem_replicate mem).symm)
    (fun mem => newline (List.eq_of_mem_replicate mem).symm)

theorem layout_decimal (n : Nat) : Layout 0 0 (decimal n) :=
  layout_of_isAlphanum fun c mem => by
    have digit : c.isDigit = true := Nat.isDigit_of_mem_toDigits (by decide) (by decide) mem
    rw [Char.isAlphanum, digit, Bool.or_true]

theorem layout_token (kind : Kind) : Layout 0 0 kind.token :=
  layout_of_isAlphanum fun _ => Kind.isAlphanum_of_mem_token

theorem layout_escapeCell (text : String) : Layout 0 0 (Finding.escapeCell text).toList := by
  rw [Finding.escapeCell, String.toList_ofList]
  refine layout_flatMap fun c _ => ?_
  rw [Finding.escapeCellChar]
  split
  · exact ⟨by decide, by decide⟩
  · split
    · exact ⟨by decide, by decide⟩
    · exact layout_singleton ‹_› ‹_›

theorem Layout.padEnd (cell : Layout pipes breaks s) (width : Nat) :
    Layout pipes breaks (padEnd width s) :=
  cell.append_cell (layout_replicate (by decide) (by decide) _)

theorem Layout.padStart (cell : Layout 0 0 s) (width : Nat) : Layout 0 0 (padStart width s) :=
  (layout_replicate (by decide) (by decide) _).append_cell cell

/-! ## Rows -/

theorem join_cons (separator first : List Char) (cells : List (List Char)) :
    join separator (first :: cells) = first ++ cells.flatMap (separator ++ ·) := by
  induction cells generalizing first with
  | nil => simp [join]
  | cons cell cells ih =>
    have next : join separator (first :: cell :: cells) =
        first ++ separator ++ join separator (cell :: cells) := by
      simp [join]
    rw [next, ih, List.flatMap_cons]
    simp only [List.append_assoc]

/-- Cells with a separator in front of each one. -/
theorem Layout.append_cells (left : Layout pipes breaks s) (pipe : Layout 1 0 separator)
    (first : separator.head? ≠ some '|') (each : ∀ cell ∈ cells, Layout 0 0 cell) :
    Layout (pipes + cells.length) breaks (s ++ cells.flatMap (separator ++ ·)) := by
  induction cells generalizing s pipes with
  | nil =>
    rw [List.flatMap_nil, List.append_nil]
    exact left
  | cons cell cells ih =>
    obtain ⟨here, later⟩ := List.forall_mem_cons.1 each
    -- the first separator and cell go to the text in front of the others
    have one := ih ((left.append pipe first).append_cell here) later
    rw [List.flatMap_cons, List.length_cons, Nat.add_comm cells.length, ← Nat.add_assoc]
    simpa only [List.append_assoc] using one

theorem layout_join (pipe : Layout 1 0 separator) (first : separator.head? ≠ some '|')
    (here : Layout 0 0 s) (each : ∀ cell ∈ cells, Layout 0 0 cell) :
    Layout cells.length 0 (join separator (s :: cells)) := by
  rw [join_cons, ← Nat.zero_add cells.length]
  exact here.append_cells pipe first each

theorem layout_bar : Layout 1 0 " | ".toList :=
  ⟨by decide, by decide⟩

theorem layout_rule : Layout 1 0 "-|-".toList :=
  ⟨by decide, by decide⟩

end Layout

/-! ## The summary -/

theorem layout_summaryRow (width : Nat) (kinds : List Kind) {label : List Char}
    (cell : Layout 0 0 label) (count : ProjectCount) :
    Layout (1 + kinds.length) 0 (summaryRow width kinds label count) := by
  have numbers : ∀ number ∈ padStart "Total".toList.length (decimal count.total) ::
      kinds.map fun kind => padStart kind.token.length (decimal (count.ofKeyword kind.render)),
      Layout 0 0 number := by
    refine List.forall_mem_cons.2 ⟨(layout_decimal _).padStart _, List.forall_mem_map.2 ?_⟩
    exact fun kind _ => (layout_decimal _).padStart _
  have row := layout_join layout_bar (by decide) (cell.padEnd width) numbers
  rwa [List.length_cons, List.length_map, Nat.add_comm] at row

theorem layout_countHeaders (kinds : List Kind) :
    ∀ header ∈ countHeaders kinds, Layout 0 0 header :=
  List.forall_mem_cons.2 ⟨⟨by decide, by decide⟩,
    List.forall_mem_map.2 fun kind _ => layout_token kind⟩

/-- The first line of the summary. -/
def headLine (aggregation : Aggregation) : List Char :=
  join " | ".toList
    (padEnd (nameWidth aggregation) "Project".toList :: countHeaders aggregation.kinds)

/-- The line below the headers. -/
def ruleLine (aggregation : Aggregation) : List Char :=
  join "-|-".toList ((padEnd (nameWidth aggregation) "Project".toList ::
    countHeaders aggregation.kinds).map fun header => List.replicate header.length '-')

theorem mem_summaryLines {aggregation : Aggregation} {row : List Char} :
    row ∈ summaryLines aggregation ↔
      row = headLine aggregation ∨ row = ruleLine aggregation ∨
        (∃ report ∈ aggregation.projects, row =
          summaryRow (nameWidth aggregation) aggregation.kinds (nameCell report) report.count) ∨
        row =
          summaryRow (nameWidth aggregation) aggregation.kinds totalLabel aggregation.total := by
  simp only [summaryLines, List.mem_append, List.mem_cons, List.not_mem_nil, or_false, List.mem_map,
    or_assoc, eq_comm (b := row)]
  rfl

/-- Each line of the summary has a bare pipe in front of the total and of each kind. -/
theorem layout_summaryLines (aggregation : Aggregation) :
    ∀ row ∈ summaryLines aggregation, Layout (1 + aggregation.kinds.length) 0 row := by
  have headers := layout_countHeaders aggregation.kinds
  have length : (countHeaders aggregation.kinds).length = 1 + aggregation.kinds.length := by
    rw [countHeaders, List.length_cons, List.length_map, Nat.add_comm]
  intro row mem
  rcases mem_summaryLines.1 mem with same | same | ⟨report, _, same⟩ | same
  · have project : Layout 0 0 "Project".toList := ⟨by decide, by decide⟩
    rw [same, ← length]
    exact layout_join layout_bar (by decide) (project.padEnd _) headers
  · have dashes (n : Nat) : Layout 0 0 (List.replicate n '-') :=
      layout_replicate (by decide) (by decide) n
    have each : ∀ cell ∈ (countHeaders aggregation.kinds).map
        fun header => List.replicate header.length '-', Layout 0 0 cell :=
      List.forall_mem_map.2 fun header _ => dashes header.length
    rw [same, ← length,
      ← List.length_map (fun header : List Char => List.replicate header.length '-')]
    exact layout_join layout_rule (by decide) (dashes _) each
  · rw [same]
    exact layout_summaryRow _ _ (layout_escapeCell report.count.name) report.count
  · rw [same]
    exact layout_summaryRow _ _ ⟨by decide, by decide⟩ aggregation.total

/-! ## Findings -/

/-- The name of the file of a finding, as its row has it. -/
def fileTitle (a : Finding) : List Char :=
  a.file.displayName.toList

/-- The source cell of a finding, which does not depend on the links before it. -/
def sourceText (options : Options) (a : Finding) : String :=
  match findingUrl? options a with
  | some url => "[" ++ a.location ++ "][" ++ linkId url ++ "]"
  | none => a.location

/-- The row of a finding in a report. -/
def reportRow (options : Options) (a : Finding) : List Char :=
  findingRow (sourceText options a) a

theorem layout_render (p : Position) : Layout 0 0 p.render.toList := by
  have colon : Layout 0 0 [':'] := ⟨by decide, by decide⟩
  have written : p.render.toList = decimal p.line ++ [':'] ++ decimal p.column := by
    simp [Position.render, decimal, Nat.repr]
  rw [written]
  exact ((layout_decimal _).append_cell colon).append_cell (layout_decimal _)

variable {pipes breaks : Nat}

theorem layout_location {a : Finding} (title : Layout pipes breaks (fileTitle a)) :
    Layout pipes breaks a.location.toList := by
  have space : Layout 0 0 [' '] := ⟨by decide, by decide⟩
  have dash : Layout 0 0 ['-'] := ⟨by decide, by decide⟩
  have start := (title.append_cell space).append_cell (layout_render a.start)
  rw [Finding.location]
  split
  · simpa [fileTitle] using (start.append_cell dash).append_cell (layout_render a.stop)
  · simpa [fileTitle] using start

/-- A link has the layout of its title. The id is any text here, so that no hash is unfolded. -/
theorem layout_link {title id : String} (cell : Layout pipes breaks title.toList)
    (name : Layout 0 0 id.toList) :
    Layout pipes breaks ("[" ++ title ++ "][" ++ id ++ "]").toList := by
  have opened : Layout pipes breaks ('[' :: title.toList) := by
    refine ⟨?_, ?_⟩
    · simpa [barePipes] using cell.pipes
    · simpa using cell.breaks
  have between : Layout 0 0 [']', '['] := ⟨by decide, by decide⟩
  have close : Layout 0 0 [']'] := ⟨by decide, by decide⟩
  simpa using ((opened.append_cell between).append_cell name).append_cell close

theorem layout_sourceText (options : Options) {a : Finding}
    (title : Layout pipes breaks (fileTitle a)) :
    Layout pipes breaks (sourceText options a).toList := by
  have location := layout_location title
  have id (url : String) : Layout 0 0 (linkId url).toList :=
    layout_of_isAlphanum fun _ => isAlphanum_of_mem_linkId
  rw [sourceText]
  cases findingUrl? options a with
  | none => exact location
  | some url => exact layout_link location (id url)

/-- The row of a finding has two bare pipes besides those in the name of its file. -/
theorem layout_reportRow (options : Options) {a : Finding}
    (title : Layout pipes breaks (fileTitle a)) :
    Layout (pipes + 1 + 1) breaks (reportRow options a) := by
  have source := (layout_sourceText options title).padEnd sourceWidth
  have category := (layout_token a.kind).padEnd categoryWidth
  have text : Layout 0 0 a.markdownText.toList := layout_escapeCell a.text
  exact (((source.append layout_bar (by decide)).append_cell category).append layout_bar
    (by decide)).append_cell text

/-! ## Reports -/

/-- The part of a report about a project, but for the links that it adds. -/
def projectText (options : Options) (report : ProjectReport) : List Char :=
  "\n### ".toList ++ nameCell report ++ "\n\n".toList ++ tableHead ++
    (report.files.flatMap FileScan.findings).flatMap fun a => line (reportRow options a)

theorem snd_sourceCell (options : Options) (links : LinkRegistry) (a : Finding) :
    (sourceCell options links a).2 = sourceText options a := by
  rw [sourceCell, sourceText]
  cases findingUrl? options a <;> rfl

theorem snd_findingRows (options : Options) (links : LinkRegistry) (findings : List Finding) :
    (findingRows options links findings).2 =
      findings.flatMap fun a => line (reportRow options a) := by
  induction findings generalizing links with
  | nil => rfl
  | cons a findings ih =>
    simp only [findingRows, ih, snd_sourceCell, List.flatMap_cons]
    rfl

theorem snd_sections (options : Options) (links : LinkRegistry) (reports : List ProjectReport) :
    (sections options links reports).2 = reports.flatMap (projectText options) := by
  induction reports generalizing links with
  | nil => rfl
  | cons report reports ih =>
    simp only [sections, projectSection, snd_findingRows, ih, List.flatMap_cons]
    rfl

/-- A report begins with the links to the projects, and has the summary and the parts of the
projects under headings of their own. -/
theorem exists_parts (aggregation : Aggregation) (options : Options) :
    ∃ charts links, (render aggregation options).toList =
      "# TO-DOs\n\n".toList ++ aggregation.projects.flatMap (fun report => line (bullet report)) ++
        "\n## Summary\n\n".toList ++ charts ++ summaryTable aggregation ++
        "\n## Projects\n".toList ++ aggregation.projects.flatMap (projectText options) ++
        links := by
  have made := snd_sections options .empty aggregation.projects
  have regroup (front charts blank table title parts rule links last : List Char) :
      front ++ charts ++ blank ++ table ++ title ++ parts ++ rule ++ links ++ last =
        front ++ (charts ++ blank) ++ table ++ title ++ parts ++ (rule ++ links ++ last) := by
    simp only [List.append_assoc]
  rw [← made]
  unfold render
  generalize sections options .empty aggregation.projects = sections
  rw [String.toList_ofList]
  exact ⟨_, _, regroup ..⟩

/-- The summary and the parts of the projects stand in the report as they are. -/
theorem exists_render (aggregation : Aggregation) (options : Options) :
    ∃ front back, (render aggregation options).toList =
      front ++ (summaryTable aggregation ++ "\n## Projects\n".toList ++
        aggregation.projects.flatMap (projectText options)) ++ back := by
  obtain ⟨charts, links, parts⟩ := exists_parts aggregation options
  have regroup (front table title parts back : List Char) :
      front ++ table ++ title ++ parts ++ back = front ++ (table ++ title ++ parts) ++ back := by
    simp only [List.append_assoc]
  exact ⟨_, links, parts.trans (regroup ..)⟩

/-- **Tables keep their shape but for file names.** A report has the summary and then a part for
each project, with a row for each of its findings. Each line of the summary is one line with a bare
pipe for the total and one for each kind, whatever the projects are called. The row of a finding has
two bare pipes besides those in the name of its file, and is broken where that name is. So it is one
line of three cells exactly if the name has no bare pipe and no newline. -/
theorem render_tables (aggregation : Aggregation) (options : Options) :
    (∃ front back, (render aggregation options).toList =
      front ++ (summaryTable aggregation ++ "\n## Projects\n".toList ++
        aggregation.projects.flatMap (projectText options)) ++ back) ∧
    (summaryLines aggregation).length = aggregation.projects.length + 3 ∧
    (∀ row ∈ summaryLines aggregation, Layout (1 + aggregation.kinds.length) 0 row) ∧
    (∀ a, Layout (barePipes false (fileTitle a) + 2) ((fileTitle a).count '\n')
      (reportRow options a)) ∧
    ∀ a, Layout 2 0 (reportRow options a) ↔ Layout 0 0 (fileTitle a) := by
  have rows (a : Finding) : Layout (barePipes false (fileTitle a) + 2) ((fileTitle a).count '\n')
      (reportRow options a) := layout_reportRow options ⟨rfl, rfl⟩
  refine ⟨exists_render aggregation options, ?_, layout_summaryLines aggregation, rows, fun a => ?_⟩
  · simp [summaryLines]
  constructor
  · intro row
    have pipes := (rows a).pipes.symm.trans row.pipes
    exact ⟨by omega, (rows a).breaks.symm.trans row.breaks⟩
  · exact layout_reportRow options

/-- A pipe in the name of a file makes a fourth cell. -/
theorem render_tables_pipe :
    let a : Finding := ⟨"x", .todo, ⟨"a|b.cs"⟩, ⟨1, 4⟩, ⟨1, 10⟩⟩
    let aggregation := Aggregation.build (.ofScans [⟨a.file, [a]⟩]) ⟨[]⟩
    let options : Options := ⟨none, "", false, fun _ => none⟩
    (scanText a.file "// TODO: x\n").toOption = some ⟨a.file, [a]⟩ ∧
    aggregation.projects.flatMap (projectText options) =
      "\n### unassigned\n\n".toList ++ tableHead ++ line (reportRow options a) ∧
    barePipes false (reportRow options a) = 3 := by
  intro a aggregation options
  exact ⟨by decide +kernel, by decide +kernel, by decide +kernel⟩

end Report
end Markers

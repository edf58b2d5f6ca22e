import Markers.Proofs.Report.Markdown
import Markers.Proofs.Scan.Span

/-!
# Text cells

A text is one cell of a table if it has no line ending, be it a newline or a carriage return, and no
pipe without a backslash in front of it (`IsCell`). Escaping takes care of newlines and pipes in any
text, and it keeps carriage returns (`isCell_escapeCell_iff`). A marker covers nothing that could be
one but its text, so the cell of a finding is broken exactly if the file has a carriage return
within the span of the finding (`scanText_cells`).
-/

namespace Markers

namespace Text

/-- No pipe is bare exactly if each is directly behind a backslash, which may be the one in front of
the text. -/
theorem barePipes_eq_zero_iff {s : List Char} {escaped : Bool} :
    barePipes escaped s = 0 ↔ ∀ front back, s = front ++ '|' :: back →
      front.getLast? = some '\\' ∨ front = [] ∧ escaped = true := by
  induction s generalizing escaped with
  | nil => simp [barePipes]
  | cons c s ih =>
    rw [barePipes, Nat.add_eq_zero_iff, ih]
    constructor
    · rintro ⟨here, later⟩ front back split
      cases front with
      | nil =>
        obtain ⟨rfl, _⟩ := List.cons.inj split
        cases escaped with
        | false => simp at here
        | true => exact .inr ⟨rfl, rfl⟩
      | cons d front =>
        obtain ⟨rfl, rfl⟩ := List.cons.inj split
        rcases later front back rfl with last | ⟨rfl, slash⟩
        · obtain ⟨more, rfl⟩ := List.getLast?_eq_some_iff.1 last
          exact .inl (List.getLast?_eq_some_iff.2 ⟨c :: more, rfl⟩)
        · rw [eq_of_beq slash]
          exact .inl rfl
    · intro all
      constructor
      · rw [if_neg]
        rintro ⟨rfl, bare⟩
        rcases all [] s rfl with last | ⟨_, slash⟩
        · cases last
        · rw [bare] at slash
          cases slash
      · rintro front back rfl
        rcases all (c :: front) back rfl with last | ⟨empty, _⟩
        · cases front with
          | nil =>
            obtain rfl := Option.some.inj last
            exact .inr ⟨rfl, rfl⟩
          | cons d front =>
            rw [List.getLast?_cons_cons] at last
            exact .inl last
        · cases empty

end Text

namespace Report
open Text

/-- That a text is one cell on one line: no line ending is in it, and every pipe is directly behind
a backslash. -/
structure IsCell (s : List Char) : Prop where
  newline : '\n' ∉ s
  carriage : '\r' ∉ s
  pipes : ∀ front back, s = front ++ '|' :: back → front.getLast? = some '\\'

/-- A text with the layout of a cell is one but for carriage returns. -/
theorem isCell_iff_of_layout {s : List Char} (layout : Layout 0 0 s) : IsCell s ↔ '\r' ∉ s := by
  refine ⟨IsCell.carriage, fun carriage => ⟨List.count_eq_zero.1 layout.breaks, carriage, ?_⟩⟩
  intro front back split
  rcases barePipes_eq_zero_iff.1 layout.pipes front back split with last | ⟨_, slash⟩
  · exact last
  · cases slash

theorem carriage_mem_escapeCell {text : String} :
    '\r' ∈ (Finding.escapeCell text).toList ↔ '\r' ∈ text.toList := by
  rw [Finding.escapeCell, String.toList_ofList, List.mem_flatMap]
  constructor
  · rintro ⟨c, mem, inside⟩
    rw [Finding.escapeCellChar] at inside
    split at inside
    · simp at inside
    · split at inside
      · simp at inside
      · rwa [List.mem_singleton.1 inside]
  · intro mem
    exact ⟨'\r', mem, by decide⟩

/-- Escaping makes a cell of every text without carriage returns. -/
theorem isCell_escapeCell_iff {text : String} :
    IsCell (Finding.escapeCell text).toList ↔ '\r' ∉ text.toList := by
  rw [isCell_iff_of_layout (layout_escapeCell text), carriage_mem_escapeCell]

end Report

/-! ## Findings -/

theorem Family.eq_or_eq_of_separates {family : Family} {s : List Char}
    (separates : family.Separates s) : ∀ c ∈ s, c = ':' ∨ c = ' ' := by
  intro c mem
  cases family with
  | cStyle | sql | python | powerShell =>
    obtain ⟨colon, space, rfl, rfl | rfl, rfl | rfl⟩ := separates <;> simp_all
  | xml =>
    obtain ⟨m, n, rfl⟩ := separates
    simp only [List.mem_append, List.mem_cons, List.mem_replicate] at mem
    rcases mem with ⟨_, space⟩ | colon | ⟨_, space⟩
    · exact .inr space
    · exact .inl colon
    · exact .inr space
  | shell =>
    obtain ⟨n, rfl⟩ := separates
    rcases List.mem_cons.1 mem with colon | mem
    · exact .inl colon
    · exact .inr (List.eq_of_mem_replicate mem)
  | markdown =>
    obtain ⟨colon, n, rfl, single⟩ := separates
    rcases List.mem_append.1 mem with mem | mem
    · rcases single with rfl | rfl
      · cases mem
      · exact .inl (List.mem_singleton.1 mem)
    · exact .inr (List.eq_of_mem_replicate mem)

open Scan Position in
/-- All carriage returns that a marker covers are in its text. -/
theorem Marker.Exact.carriage_mem_iff {family : Family} {text : List Char} {reading : Reading}
    {marker : Marker} (covers : marker.Exact family text reading) :
    '\r' ∈ between text marker.start marker.stop ↔ '\r' ∈ marker.text.toList := by
  have word : '\r' ∉ marker.kind.token := fun mem =>
    absurd (Kind.isAlphanum_of_mem_token mem) (by decide)
  by_cases bare : reading.keyword = []
  · rw [(covers.bare bare).2.2]
  · by_cases empty : marker.text = ""
    · rw [covers.keyword bare empty, empty]
      simpa using word
    · obtain ⟨separator, separates, covered⟩ := covers.separated bare empty
      have plain : '\r' ∉ separator := by
        intro mem
        rcases Family.eq_or_eq_of_separates separates _ mem with bad | bad <;> cases bad
      rw [covered]
      simp [word, plain]

open Scan Report Position in
/-- **The text of a finding is one cell but for carriage returns.** In every file of a known family
the text of each finding is escaped to one line with no bare pipe in it. It has a carriage return
exactly if the file has one within the span of the finding; so it is one cell of a table exactly if
there is none, and every text is one in a file without carriage returns. -/
theorem scanText_cells {path : Path} {family : Family} (known : Family.ofPath? path = some family)
    (text : String) :
    ∃ findings, scanText path text = .ok ⟨path, findings⟩ ∧
      (∀ a ∈ findings, Layout 0 0 a.markdownText.toList ∧
        ('\r' ∈ a.markdownText.toList ↔ '\r' ∈ between text.toList a.start a.stop) ∧
        (IsCell a.markdownText.toList ↔ '\r' ∉ between text.toList a.start a.stop)) ∧
      ('\r' ∉ text.toList → ∀ a ∈ findings, IsCell a.markdownText.toList) := by
  obtain ⟨steps, run, found⟩ := exists_scan? family text.toList
  have cells : ∀ a ∈ (markers steps).map (Finding.ofMarker path),
      ('\r' ∈ a.text.toList ↔ '\r' ∈ between text.toList a.start a.stop) := by
    intro a listed
    obtain ⟨marker, marked, rfl⟩ := List.mem_map.1 listed
    obtain ⟨step, mem, outcome⟩ := List.mem_flatMap.1 marked
    obtain ⟨reading, _, covers⟩ := (run.possible_of_mem mem).exact (Option.mem_toList.1 outcome)
    exact covers.carriage_mem_iff.symm
  refine ⟨_, scanText_of_scan? known found, fun a listed => ?_, fun plain a listed => ?_⟩
  · have carriage := cells a listed
    exact ⟨layout_escapeCell a.text, carriage_mem_escapeCell.trans carriage,
      isCell_escapeCell_iff.trans (not_congr carriage)⟩
  · refine isCell_escapeCell_iff.2 fun mem => plain ?_
    exact mem_of_mem_between ((cells a listed).1 mem)

open Scan Report Position in
/-- An item over two lines, with pipes on both. -/
theorem scanText_cells_markdown :
    Family.ofPath? ⟨"notes.md"⟩ = some .markdown ∧ '\r' ∉ "- [ ] a | b\n  c |\n".toList ∧
      ∃ findings, scanText ⟨"notes.md"⟩ "- [ ] a | b\n  c |\n" = .ok ⟨⟨"notes.md"⟩, findings⟩ ∧
        ∀ a ∈ findings, IsCell a.markdownText.toList ∧
          '\r' ∉ between "- [ ] a | b\n  c |\n".toList a.start a.stop := by
  have known : Family.ofPath? ⟨"notes.md"⟩ = some .markdown := by decide
  have plain : '\r' ∉ "- [ ] a | b\n  c |\n".toList := by decide
  obtain ⟨findings, scanned, exactly, cells⟩ := scanText_cells known "- [ ] a | b\n  c |\n"
  refine ⟨known, plain, findings, scanned, fun a listed => ?_⟩
  have cell := cells plain a listed
  exact ⟨cell, (exactly a listed).2.2.1 cell⟩

open Report Position in
/-- In a file with carriage returns a block comment over two lines has one in the middle of its
text, which stays in the cell. -/
theorem scanText_cells_carriage :
    let a : Finding := ⟨"a\r\nb", .todo, ⟨"a.cs"⟩, ⟨1, 4⟩, ⟨2, 1⟩⟩
    (scanText ⟨"a.cs"⟩ "/* TODO: a\r\nb */\n").toOption = some ⟨⟨"a.cs"⟩, [a]⟩ ∧
      a.markdownText = "a\r<br />b" ∧ ¬IsCell a.markdownText.toList := by
  intro a
  refine ⟨by decide +kernel, by decide +kernel, fun cell => cell.carriage ?_⟩
  decide +kernel

end Markers

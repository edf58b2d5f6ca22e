import Markers.Proofs.Scan.Run
import Markers.Session

/-!
# Spans of markers

The characters of a text from the first to the last position of a marker are its keyword, a
separator of the family and its text, and nothing else (`scanText_spans`). `Family.Separates` says
which separators a family has, and `Marker.Exact` what a span is made of.
-/

namespace Markers

/-- What may stand between a keyword and the text behind it: a colon and a space, either of which
may be missing; in markup a colon among spaces; in a shell script a colon and spaces; in an item a
colon, which may be missing, and spaces. -/
def Family.Separates : Family → List Char → Prop
  | .cStyle, s | .sql, s | .python, s | .powerShell, s =>
    ∃ colon space, s = colon ++ space ∧ (colon = [] ∨ colon = [':']) ∧ (space = [] ∨ space = [' '])
  | .xml, s => ∃ m n, s = List.replicate m ' ' ++ ':' :: List.replicate n ' '
  | .shell, s => ∃ n, s = ':' :: List.replicate n ' '
  | .markdown, s => ∃ colon n, s = colon ++ List.replicate n ' ' ∧ (colon = [] ∨ colon = [':'])

/-- A separator of a form is one of its families. -/
theorem Family.separates_of_form {family : Family} {form : CommentForm} {s : List Char}
    (mem : form ∈ family.forms) (h : form.Separates s) : family.Separates s := by
  have colonSpace : (s = [] ∨ s = [':'] ∨ s = [' '] ∨ s = [':', ' ']) →
      ∃ colon space, s = colon ++ space ∧ (colon = [] ∨ colon = [':']) ∧
        (space = [] ∨ space = [' ']) := by
    rintro (rfl | rfl | rfl | rfl)
    · exact ⟨[], [], rfl, .inl rfl, .inl rfl⟩
    · exact ⟨[':'], [], rfl, .inr rfl, .inl rfl⟩
    · exact ⟨[], [' '], rfl, .inl rfl, .inr rfl⟩
    · exact ⟨[':'], [' '], rfl, .inr rfl, .inr rfl⟩
  cases family with
  | cStyle | sql | python | powerShell =>
    simp only [Family.forms, List.mem_cons, List.not_mem_nil, or_false] at mem
    rcases mem with rfl | rfl
    · exact colonSpace h
    · exact colonSpace h
  | xml =>
    obtain rfl := List.mem_singleton.1 mem
    exact h
  | shell =>
    obtain rfl := List.mem_singleton.1 mem
    exact h
  | markdown =>
    obtain rfl := List.mem_singleton.1 mem
    obtain ⟨n, rfl | rfl⟩ := h
    · exact ⟨[], n, rfl, .inl rfl⟩
    · exact ⟨[':'], n, rfl, .inr rfl⟩

open Position in
/-- What a marker that was read in a text covers there, from its first to its last character. -/
structure Marker.Exact (family : Family) (text : List Char) (reading : Scan.Reading)
    (marker : Marker) : Prop where
  /-- A keyword without text is all of it. -/
  keyword : reading.keyword ≠ [] → marker.text = "" →
    between text marker.start marker.stop = marker.kind.token
  /-- Between a keyword and text stands a separator. -/
  separated : reading.keyword ≠ [] → marker.text ≠ "" →
    ∃ separator, family.Separates separator ∧ between text marker.start marker.stop =
      marker.kind.token ++ separator ++ marker.text.toList
  /-- An item without a keyword has text, which is all of it. -/
  bare : reading.keyword = [] → family = .markdown ∧ marker.text ≠ "" ∧
    between text marker.start marker.stop = marker.text.toList
  /-- No blank ends the text. -/
  trimmed : ∀ c, marker.text.toList.getLast? = some c → Text.isBlank c = false
  /-- No letter stands at the column behind a keyword. -/
  whole : reading.keyword ≠ [] → ∀ c,
    (⟨marker.start.line, marker.start.column + marker.kind.token.length⟩, c) ∈
      placed origin text → c.isAlpha = false

namespace Scan
open Text PositionIndex Position

/-- Only items may lack a keyword. -/
theorem markdown_of_defaultKind? {family : Family} (kind : family.defaultKind?.isSome = true) :
    family = .markdown := by
  cases family with
  | markdown => rfl
  | _ => simp [Family.defaultKind?] at kind

namespace Spans
variable {form : CommentForm} {text : List Char} {m : Match} {reading : Reading}
  {body : List Char} {marker : Marker} {before separator behind : List Char}

/-- The span of a marker is all that it was read from. -/
theorem between_eq (h : Spans form text m reading body marker before separator behind) :
    between text marker.start marker.stop = reading.keyword ++ separator ++ body := by
  obtain ⟨c, span, same, sameLine, start, stop⟩ := h.first
  have split := h.split
  rw [same] at split ⊢
  rw [split, start, stop]
  exact between_append before span behind sameLine

/-- The column behind the keyword is that of the character behind it. -/
theorem not_isAlpha_of_mem_placed
    (h : Spans form text m reading body marker before separator behind)
    (reads : Keyword.Reads reading.keyword) {c : Char}
    (mem : (⟨marker.start.line, marker.start.column + reading.keyword.length⟩, c) ∈
      placed origin text) : c.isAlpha = false := by
  obtain ⟨d, word, keyword, initial⟩ := reads.initial
  obtain ⟨e, span, same, sameLine, start, _⟩ := h.first
  have oneLine : '\n' ∉ reading.keyword := by
    intro newline
    have := reads.word '\n' newline
    simp at this
  have first : marker.start = ⟨(origin.after before).line, (origin.after before).column + 1⟩ := by
    rw [start, advance, if_neg sameLine]
  have place : origin.after (before ++ reading.keyword) =
      ⟨(origin.after before).line, (origin.after before).column + reading.keyword.length⟩ := by
    rw [after_append, after_of_not_mem oneLine]
  have split : text = (before ++ reading.keyword) ++ (separator ++ body ++ behind) := by
    rw [h.split]
    simp
  have follows := h.whole reads.ne_nil _ split
  have column : marker.start.column + reading.keyword.length =
      (origin.after (before ++ reading.keyword)).column + 1 := by
    simp only [first, place]
    omega
  have line : marker.start.line = (origin.after (before ++ reading.keyword)).line := by
    rw [first, place]
  rw [split, line, column] at mem
  have head := head_of_mem_placed mem
  generalize separator ++ body ++ behind = rest at follows head
  cases rest with
  | nil => simp at head
  | cons f rest =>
    cases head
    simpa [Keyword.endsBefore] using follows

end Spans

theorem Reading.Placed.reads {family : Family} {form : CommentForm} {text : List Char} {m : Match}
    {reading : Reading} (placed : reading.Placed family form text m) :
    reading.keyword = [] ∧ family.defaultKind?.isSome = true ∨ Keyword.Reads reading.keyword := by
  cases placed with
  | keyword _ _ _ _ _ _ reads _ _ => exact .inr reads
  | bare _ _ _ _ _ kind _ _ => exact .inl ⟨rfl, kind⟩

/-- A marker covers what was read. -/
theorem Step.Marked.exact {family : Family} {text : List Char} {step : Step} {marker : Marker}
    {reading : Reading} {kept before separator behind : List Char}
    (marked : step.Marked family text marker reading kept before separator behind)
    (mem : step.candidate.form ∈ family.forms) : marker.Exact family text reading := by
  have spans := marked.spans
  have covered := spans.between_eq
  have token : reading.keyword ≠ [] → reading.keyword = marker.kind.token := by
    intro some
    obtain ⟨kind, named, token⟩ := marked.placed.exists_kind
    cases marked.named.symm.trans named
    exact (token some).symm
  have toList := marked.body
  have text_eq_empty : marker.text = "" ↔ trimEnd kept = [] := by
    rw [← toList, String.toList_eq_nil_iff]
  constructor
  case keyword =>
    intro some empty
    rcases spans.separated with ⟨rfl, _⟩ | ⟨_, some', _⟩
    · rw [covered, token some, text_eq_empty.1 empty, List.append_nil, List.append_nil]
    · exact absurd (text_eq_empty.1 empty) some'
  case separated =>
    intro some some'
    rcases spans.separated with ⟨_, none⟩ | ⟨_, _, separates⟩
    · exact absurd (none.resolve_left some) (mt text_eq_empty.2 some')
    · refine ⟨separator, Family.separates_of_form mem separates, ?_⟩
      rw [covered, token some, toList]
  case bare =>
    intro none
    rcases marked.placed.reads with ⟨_, default⟩ | reads
    · refine ⟨markdown_of_defaultKind? default, ?_, ?_⟩
      · exact mt text_eq_empty.1 (marked.solid.resolve_left (not_not_intro none))
      · rcases spans.separated with ⟨rfl, _⟩ | ⟨some, _⟩
        · rw [covered, none, toList, List.append_nil, List.nil_append]
        · exact absurd none some
    · exact absurd none reads.ne_nil
  case trimmed =>
    intro c last
    rw [toList] at last
    exact isBlank_of_getLast?_trimEnd last
  case whole =>
    intro some c char
    rcases marked.placed.reads with ⟨none, _⟩ | reads
    · exact absurd none some
    · rw [← token some] at char
      exact spans.not_isAlpha_of_mem_placed reads char

/-- A marker that becomes of a match was read there, and covers what was read. -/
theorem Step.Possible.exact {family : Family} {text : List Char} {step : Step} {marker : Marker}
    (h : step.Possible family text) (some : step.outcome.marker = some marker) :
    ∃ reading, reading? family text step.candidate.place = Option.some (Option.some reading) ∧
      marker.Exact family text reading := by
  obtain ⟨reading, _, _, _, _, marked⟩ := h.exists_marked some
  exact ⟨reading, marked.read, marked.exact h.form_mem⟩

end Scan

open Scan in
/-- Spans are exact. The findings of a file are the markers of a run over its text, and each covers
what was read there. -/
theorem scanText_spans {path : Path} {family : Family} (known : Family.ofPath? path = some family)
    (text : String) :
    ∃ steps, Run family text.toList 0 steps ∧
      scanText path text = .ok ⟨path, (markers steps).map (Finding.ofMarker path)⟩ ∧
      ∀ step ∈ steps, ∀ marker, step.outcome.marker = some marker →
        ∃ reading, reading? family text.toList step.candidate.place = some (some reading) ∧
          marker.Exact family text.toList reading := by
  obtain ⟨steps, run, found⟩ := exists_scan? family text.toList
  refine ⟨steps, run, ?_, ?_⟩
  · unfold scanText
    rw [known]
    dsimp only
    rw [found]
  · intro step mem marker some
    exact (run.possible_of_mem mem).exact some

open Scan in
theorem scanText_spans_markdown :
    Family.ofPath? ⟨"notes.md"⟩ = some .markdown ∧
      ∃ steps, Run .markdown "- [ ] TODOs: ü\n  b ".toList 0 steps ∧
        scanText ⟨"notes.md"⟩ "- [ ] TODOs: ü\n  b " =
          .ok ⟨⟨"notes.md"⟩, (markers steps).map (Finding.ofMarker ⟨"notes.md"⟩)⟩ ∧
        ∀ step ∈ steps, ∀ marker, step.outcome.marker = some marker →
          ∃ reading, reading? .markdown "- [ ] TODOs: ü\n  b ".toList step.candidate.place =
              some (some reading) ∧
            marker.Exact .markdown "- [ ] TODOs: ü\n  b ".toList reading :=
  ⟨by decide, scanText_spans (by decide) "- [ ] TODOs: ü\n  b "⟩

/-- A keyword that goes on as a word is text, and the span ends before the last blank. -/
example : Family.markdown.scan? "- [ ] TODOs: ü\n  b ".toList =
    some [⟨.todo, "TODOs: ü\n  b", ⟨1, 7⟩, ⟨2, 3⟩⟩] := by cbv

end Markers

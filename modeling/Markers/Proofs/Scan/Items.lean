import Markers.Proofs.Scan.Coverage
import Markers.Proofs.Scan.Order
import Mathlib.Data.List.Nodup

/-!
# One finding for each item

A marker of an item starts on the line of its checkbox (`Step.Possible.exists_line`), on which no
other one starts (`Step.Possible.eq_of_line_eq`). As no item starts inside another one, no item that
makes a marker is passed over (`Run.mem_of_possible`), and a letter or digit on its line is enough to
make one. `scanText_items` says so of the lines of a file.
-/

namespace Markers
open Text

/-! ## Lines -/

theorem lineStart_append_newline (front before : List Char) :
    lineStart (front ++ '\n' :: before) = lineStart before := by
  rcases List.eq_nil_or_concat before with rfl | ⟨before, c, rfl⟩
  · simp [lineStart]
  · rw [lineStart, lineStart, List.concat_eq_append, List.getLast?_concat, ← List.cons_append,
      ← List.append_assoc, List.getLast?_concat]

/-- The characters in front of the start of a line end with a newline, if there are any. -/
theorem newline_mem_of_lineStart {before : List Char} (start : lineStart before = true)
    (some : before ≠ []) : '\n' ∈ before := by
  obtain ⟨front, c, rfl⟩ := (List.eq_nil_or_concat before).resolve_left some
  rw [lineStart, List.concat_eq_append, List.getLast?_concat, Option.getD_some, beq_iff_eq] at start
  simp [start]

/-- At the start of a line stands the line with as many others in front of it as newlines. -/
theorem getElem?_splitOn_append {before : List Char} (start : lineStart before = true)
    (rest : List Char) : ((before ++ rest).splitOn '\n')[before.count '\n']? =
      some (CommentForm.restOfLine rest) := by
  induction rows : before.count '\n' generalizing before with
  | zero =>
    obtain rfl : before = [] := by
      by_contra some
      exact List.count_eq_zero.1 rows (newline_mem_of_lineStart start some)
    obtain ⟨lines, split⟩ := CommentForm.splitOn_newline rest
    rw [List.nil_append, split, List.getElem?_cons_zero]
  | succ row ih =>
    have newline : '\n' ∈ before := List.count_pos_iff.1 (by omega)
    obtain ⟨front, before, rfl, oneLine⟩ := List.eq_append_cons_of_mem newline
    rw [lineStart_append_newline] at start
    rw [List.count_append, List.count_cons_self, List.count_eq_zero.2 oneLine, Nat.zero_add] at rows
    rw [List.append_assoc, List.cons_append, List.splitOn_append_cons_self_of_not_mem oneLine,
      List.getElem?_cons_succ, ih start (by omega)]

/-- Every line of a text stands at the start of a line. -/
theorem exists_of_getElem?_splitOn {text line : List Char} {row : Nat}
    (h : (text.splitOn '\n')[row]? = some line) :
    ∃ before rest, text = before ++ rest ∧ lineStart before = true ∧ before.count '\n' = row ∧
      CommentForm.restOfLine rest = line := by
  induction row generalizing text with
  | zero =>
    obtain ⟨lines, split⟩ := CommentForm.splitOn_newline text
    rw [split, List.getElem?_cons_zero, Option.some.injEq] at h
    exact ⟨[], text, rfl, rfl, rfl, h⟩
  | succ row ih =>
    by_cases newline : '\n' ∈ text
    · obtain ⟨front, behind, rfl, oneLine⟩ := List.eq_append_cons_of_mem newline
      rw [List.splitOn_append_cons_self_of_not_mem oneLine, List.getElem?_cons_succ] at h
      obtain ⟨before, rest, rfl, start, rfl, same⟩ := ih h
      refine ⟨front ++ '\n' :: before, rest, by simp, ?_, ?_, same⟩
      · rw [lineStart_append_newline, start]
      · rw [List.count_append, List.count_cons_self, List.count_eq_zero.2 oneLine, Nat.zero_add]
    · rw [List.splitOn_eq_singleton newline, List.getElem?_cons_succ] at h
      cases h

namespace Scan
open PositionIndex Position

/-! ## Items -/

/-- What is read of an item starts at its keyword or behind its separator. -/
theorem contentStart_of_reading? {family : Family} {text : List Char} {m : Match}
    {reading : Reading} {separator content closer : List Char}
    (body : m.shape.body = .content separator content closer)
    (read : reading? family text m = some (some reading)) :
    reading.keyword ≠ [] ∨ reading.contentStart = m.keywordStart ∨
      m.shape.keyword = [] ∧ reading.contentStart = m.keywordEnd + byteLength separator := by
  have plain : plainReading m = ⟨m.shape.keyword, m.keywordEnd + byteLength separator, content⟩ := by
    rw [plainReading, Match.content?, body]
  unfold reading? at read
  split at read
  · next bare =>
    cases read
    rw [plain]
    exact .inr (.inr ⟨bare, rfl⟩)
  · next some =>
    obtain ⟨whole, _, read⟩ := Option.bind_eq_some_iff.1 read
    split at read
    · cases read
      rw [plain]
      exact .inl some
    · split at read
      · cases read
      · obtain ⟨word, found, same⟩ := Option.map_eq_some_iff.1 read
        cases same
        obtain ⟨piece, _, rfl⟩ := Option.map_eq_some_iff.1 found
        exact .inr (.inl rfl)

namespace Step.Possible
variable {text : List Char} {step step' : Step} {marker marker' : Marker}

theorem matches_checkbox (h : step.Possible .markdown text) :
    CommentForm.checkbox.Matches text step.candidate.place := by
  rw [← List.mem_singleton.1 h.form_mem]
  exact h.found

/-- The marker of an item starts on the line of its checkbox. -/
theorem exists_line (h : step.Possible .markdown text) (some : step.outcome.marker = some marker) :
    ∃ before rest item, text = before ++ rest ∧
      byteLength before = step.candidate.place.start ∧ lineStart before = true ∧
      marker.start.line = before.count '\n' + 1 ∧
      CommentForm.ItemLine (CommentForm.restOfLine rest) item := by
  obtain ⟨before, rest, rfl, place, matched⟩ := h.matches_checkbox
  obtain ⟨_, _, opened, _⟩ := CommentForm.matchAt?_checkbox matched
  refine ⟨before, rest, _, rfl, place, CommentForm.lineStart_of_matchAt?_checkbox matched, ?_,
    CommentForm.itemLine_of_opener? opened⟩
  obtain ⟨separator, inner, item⟩ := CommentForm.exists_item matched
  obtain ⟨reading, _, front, _, _, marked⟩ := h.exists_marked some
  obtain ⟨c, span, _, sameLine, start, _⟩ := marked.spans.first
  -- what stands between the start of the line and the marker
  obtain ⟨part, behind, split, oneLine, length⟩ : ∃ part behind, rest = part ++ behind ∧ '\n' ∉ part ∧
      byteLength front = byteLength (before ++ part) := by
    have oneLine := item.oneLine
    simp only [List.mem_append, not_or] at oneLine
    have opens := marked.spans.opens
    have atKeyword : byteLength front = step.candidate.place.keywordStart → ∃ part behind,
        rest = part ++ behind ∧ '\n' ∉ part ∧ byteLength front = byteLength (before ++ part) := by
      intro same
      refine ⟨step.candidate.place.shape.opener,
        step.candidate.place.shape.keyword ++ separator ++ inner, ?_, oneLine.1.1, ?_⟩
      · rw [item.split]
        simp
      · rw [same, byteLength_append, place, Match.keywordStart]
    split at opens
    · next bare =>
      rcases contentStart_of_reading? item.body marked.read with some | same | ⟨none, same⟩
      · exact absurd bare some
      · exact atKeyword (opens.trans same)
      · refine ⟨step.candidate.place.shape.opener ++ separator, inner, ?_, ?_, ?_⟩
        · rw [item.split, none, List.append_nil]
        · simp [oneLine.1.1, oneLine.2]
        · rw [opens, same, Match.keywordEnd, Match.keywordStart, none, ← place]
          simp only [byteLength_append, byteLength_nil, Nat.add_zero, Nat.add_assoc]
    · exact atKeyword opens
  have whole := marked.spans.split
  rw [split, ← List.append_assoc, List.append_assoc front] at whole
  obtain ⟨rfl, _⟩ := append_inj_of_byteLength whole length.symm
  rw [start, advance, if_neg sameLine, after_append, after_of_not_mem oneLine, line_after,
    Nat.add_comm]
  rfl

/-- Items whose markers start on one line are the same. -/
theorem eq_of_line_eq (h : step.Possible .markdown text) (h' : step'.Possible .markdown text)
    (some : step.outcome.marker = some marker) (some' : step'.outcome.marker = Option.some marker')
    (same : marker.start.line = marker'.start.line) : step = step' := by
  obtain ⟨before, rest, _, split, place, start, line, _⟩ := h.exists_line some
  obtain ⟨before', rest', _, split', place', start', line', _⟩ := h'.exists_line some'
  have count : before.count '\n' = before'.count '\n' := by omega
  -- the text between two starts of lines has a newline
  have free : ∀ {a y : List Char}, lineStart (a ++ y) = true →
      (a ++ y).count '\n' = a.count '\n' → y = [] := by
    intro a y start count
    by_contra passed
    rw [lineStart, List.getLast?_append_of_ne_nil _ passed] at start
    have newline := newline_mem_of_lineStart start passed
    rw [List.count_append] at count
    exact absurd (List.count_pos_iff.2 newline) (by omega)
  apply h.unique h'
  rw [← place, ← place']
  rcases Nat.le_total (byteLength before) (byteLength before') with le | le
  · obtain ⟨y, rfl, _⟩ := append_of_le (split.symm.trans split') le
    rw [free start' count.symm, List.append_nil]
  · obtain ⟨y, rfl, _⟩ := append_of_le (split'.symm.trans split) le
    rw [free start count, List.append_nil]

/-- Scanning goes on behind an item with a marker. -/
theorem cursor_of_checkbox (h : step.Possible .markdown text)
    (some : step.outcome.marker = some marker) :
    step.outcome.cursor = step.candidate.place.stop := by
  obtain ⟨before, rest, _, _, matched⟩ := h.matches_checkbox
  obtain ⟨_, _, item⟩ := CommentForm.exists_item matched
  obtain ⟨reading, _, _, _, _, marked⟩ := h.exists_marked some
  rw [marked.goesOn, List.mem_singleton.1 h.form_mem, Reading.next, CommentForm.stopIn_checkbox,
    resume, item.body]

end Step.Possible

/-- An item with a letter or digit on its line makes a marker. -/
theorem exists_step_of_itemLine {before rest item : List Char} {c : Char}
    (start : lineStart before = true)
    (line : CommentForm.ItemLine (CommentForm.restOfLine rest) item) (mem : c ∈ item)
    (word : c.isAlphanum = true) :
    ∃ step : Step, step.Possible .markdown (before ++ rest) ∧
      step.candidate.place.start = byteLength before ∧ step.outcome.marker.isSome = true := by
  obtain ⟨shape, matched⟩ := CommentForm.exists_matchAt?_of_itemLine line mem word
  have mem' : CommentForm.checkbox ∈ Family.markdown.forms := List.mem_singleton_self _
  have found : CommentForm.checkbox.Matches (before ++ rest) ⟨byteLength before, shape⟩ :=
    ⟨before, rest, rfl, rfl, start ▸ matched⟩
  obtain ⟨o, accepted, judged⟩ := accept?_spec mem' found
  refine ⟨⟨⟨.checkbox, ⟨byteLength before, shape⟩⟩, o⟩, ⟨mem', found, accepted⟩, rfl, ?_⟩
  obtain ⟨separator, inner, pieces⟩ := CommentForm.exists_item matched
  cases judged with
  | marked => rfl
  | glued read => cases (reading?_eq_none_iff.1 read).2.2
  | unended tail body _ => cases pieces.body.symm.trans body
  | blank reading kept _ placed cut bare empty =>
    -- the letter or digit is part of the body, which is blank
    obtain ⟨_, none, _, separator', inner', body, blank⟩ :=
      placed.of_blank mem' found cut bare empty
    have onLine : c ∈ CommentForm.restOfLine rest := by
      obtain ⟨_, _, same, _⟩ := line
      rw [same]
      exact List.mem_append_right _ mem
    have oneLine := pieces.oneLine
    have split := pieces.split
    simp only at none body
    rw [split, CommentForm.restOfLine_append oneLine, none, List.append_nil] at onLine
    rcases List.mem_append.1 onLine with mem | mem
    · rw [pieces.plain c mem] at word
      cases word
    · obtain ⟨lines, _, same, _⟩ := CommentForm.itemLines_spec inner
      have inside : c ∈ CommentForm.itemLines inner' := by
        have same' : CommentForm.itemLines inner = CommentForm.itemLines inner' :=
          (Body.content.inj (pieces.body.symm.trans body)).2.1
        rw [← same', same]
        exact List.mem_append_left _ mem
      rw [not_isAlphanum_of_isBlank (blank c inside)] at word
      cases word

namespace Run
variable {text : List Char} {steps : List Step}

/-- No item with a marker is passed over. -/
theorem mem_of_possible (run : Run .markdown text 0 steps) {step : Step}
    (possible : step.Possible .markdown text) (marked : step.outcome.marker.isSome = true) :
    step ∈ steps := by
  rcases run.covers possible marked (Nat.zero_le _) with mem | ⟨taken, mem, marked', behind, inside⟩
  · exact mem
  · have possible' := run.possible_of_mem mem
    obtain ⟨marker, some⟩ := Option.isSome_iff_exists.1 marked'
    rw [possible'.cursor_of_checkbox some] at inside
    have apart := stop_le_of_items possible'.matches_checkbox possible.matches_checkbox behind
    omega

/-- No two markers start on one line. -/
theorem nodup_lines (run : Run .markdown text 0 steps) :
    ((markers steps).map fun marker => marker.start.line).Nodup := by
  apply List.pairwise_map.2
  apply run.pairwise_markers.imp_of_mem
  intro a b first later apart same
  obtain ⟨step, mem, found⟩ := List.mem_flatMap.1 first
  obtain ⟨step', mem', found'⟩ := List.mem_flatMap.1 later
  rw [Option.mem_toList] at found found'
  have possible := run.possible_of_mem mem
  obtain rfl := possible.eq_of_line_eq (run.possible_of_mem mem') found found' same
  cases found.symm.trans found'
  exact not_le_of_lt apart (run.start_le_stop first)

end Run
end Scan

open Scan in
/-- One finding for each open checkbox. In a Markdown file the lines on which findings start are
pairwise distinct, and each of them is an item; and each item with a letter or digit on its line is
the line on which one finding starts. -/
theorem scanText_items {path : Path} (known : Family.ofPath? path = some .markdown) (text : String) :
    ∃ findings, scanText path text = .ok ⟨path, findings⟩ ∧
      (findings.map fun a => a.start.line).Nodup ∧
      (∀ a ∈ findings, ∃ row line item, a.start.line = row + 1 ∧
        (text.toList.splitOn '\n')[row]? = some line ∧ CommentForm.ItemLine line item) ∧
      ∀ row line item, (text.toList.splitOn '\n')[row]? = some line →
        CommentForm.ItemLine line item → (∃ c ∈ item, c.isAlphanum = true) →
          (findings.map fun a => a.start.line).count (row + 1) = 1 := by
  obtain ⟨steps, run, found⟩ := exists_scan? .markdown text.toList
  have lines : ((markers steps).map (Finding.ofMarker path)).map (fun a => a.start.line) =
      (markers steps).map fun marker => marker.start.line := by
    rw [List.map_map]
    rfl
  refine ⟨(markers steps).map (Finding.ofMarker path), scanText_of_scan? known found, ?_, ?_, ?_⟩
  · rw [lines]
    exact run.nodup_lines
  · intro a mem
    obtain ⟨marker, taken, rfl⟩ := List.mem_map.1 mem
    obtain ⟨step, among, some⟩ := List.mem_flatMap.1 taken
    obtain ⟨before, rest, item, split, _, start, line, isItem⟩ :=
      (run.possible_of_mem among).exists_line (Option.mem_toList.1 some)
    exact ⟨_, _, item, line, split ▸ getElem?_splitOn_append start rest, isItem⟩
  · rintro row line item among isItem ⟨c, mem, word⟩
    obtain ⟨before, rest, split, start, rfl, rfl⟩ := exists_of_getElem?_splitOn among
    obtain ⟨step, possible, place, marked⟩ := exists_step_of_itemLine start isItem mem word
    rw [← split] at possible
    have taken := run.mem_of_possible possible marked
    obtain ⟨marker, some⟩ := Option.isSome_iff_exists.1 marked
    rw [lines]
    apply List.count_eq_one_of_mem run.nodup_lines
    obtain ⟨before', rest', _, split', place', start', line', _⟩ := possible.exists_line some
    obtain ⟨rfl, _⟩ :=
      append_inj_of_byteLength (split.symm.trans split') (place.symm.trans place'.symm)
    rw [← line']
    exact List.mem_map_of_mem (List.mem_flatMap.2 ⟨step, taken, Option.mem_toList.2 some⟩)

theorem scanText_items_neighbours :
    Family.ofPath? ⟨"R.md"⟩ = some .markdown ∧
      ∃ findings, scanText ⟨"R.md"⟩ "- [ ]   \n- [ ] TODOs\n  b\n\t- [ ] BUG:\n- [ ] NET7" =
          .ok ⟨⟨"R.md"⟩, findings⟩ ∧
        (findings.map fun a => a.start.line).Nodup ∧
        (∀ a ∈ findings, ∃ row line item, a.start.line = row + 1 ∧
          ("- [ ]   \n- [ ] TODOs\n  b\n\t- [ ] BUG:\n- [ ] NET7".toList.splitOn '\n')[row]? =
              some line ∧
            CommentForm.ItemLine line item) ∧
        ∀ row line item,
          ("- [ ]   \n- [ ] TODOs\n  b\n\t- [ ] BUG:\n- [ ] NET7".toList.splitOn '\n')[row]? =
              some line →
            CommentForm.ItemLine line item → (∃ c ∈ item, c.isAlphanum = true) →
              (findings.map fun a => a.start.line).count (row + 1) = 1 :=
  ⟨by decide, scanText_items (by decide) "- [ ]   \n- [ ] TODOs\n  b\n\t- [ ] BUG:\n- [ ] NET7"⟩

end Markers

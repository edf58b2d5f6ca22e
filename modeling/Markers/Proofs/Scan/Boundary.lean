import Markers.Proofs.Position.Counting
import Markers.Proofs.Scan.Run
import Markers.Session

/-!
# Scanning stays on character boundaries

The pieces of a match lie between boundaries of the text (`Matches.isBoundary_start` and the lemmas
behind it), and so do the content of a reading and the cursor that a step leaves
(`Step.Possible.isBoundary_cursor`). `Step.InRange` gathers every offset that a step uses, and
`scanText_inRange` says that all of them are boundaries, so that no text is ever cut inside a
character or behind its end.
-/

namespace Markers
open Text

/-! ## Stops -/

/-- Each stop in a body is a piece of it, and whether its keyword ends is asked at a boundary. -/
def CommentForm.StopsInRange (form : CommentForm) (body : List Char) : Prop :=
  ∀ stop ∈ form.stops 0 0 body, ∃ matched,
    form.stopAt? (matched ++ stop.2) = some (matched, stop.2) ∧
    slice? body stop.1 (stop.1 + byteLength matched) = some matched ∧
    Keyword.endsAt? body (stop.1 + byteLength matched) = some (Keyword.endsBefore stop.2)

theorem CommentForm.stopsInRange (form : CommentForm) (body : List Char) :
    form.StopsInRange body := by
  intro stop mem
  obtain ⟨before, behind, matched, rfl, place, found⟩ := stop_of_mem_stops mem
  obtain ⟨_, _, _, rfl, _⟩ := exists_matchAt?_of_stopAt? true found
  have ends := Scan.endsAt?_append (before ++ matched) stop.2
  have piece := slice?_append before matched stop.2
  rw [List.append_assoc] at ends piece
  rw [byteLength_append] at ends
  rw [place, Nat.zero_add]
  exact ⟨matched, found, piece, ends⟩

namespace CommentForm.Matches
variable {form : CommentForm} {text : List Char} {m : Match}

/-! ## Matches -/

theorem isBoundary_start (h : form.Matches text m) : IsBoundary text m.start := by
  obtain ⟨before, rest, split, length, _⟩ := h
  exact ⟨before, rest, split, length⟩

theorem isBoundary_keywordStart (h : form.Matches text m) : IsBoundary text m.keywordStart := by
  obtain ⟨before, rest, start, _, split⟩ := Scan.exists_split h
  exact ⟨before, _, by rw [split, List.append_assoc], start⟩

theorem isBoundary_keywordEnd (h : form.Matches text m) : IsBoundary text m.keywordEnd := by
  obtain ⟨before, rest, _, stop, split⟩ := Scan.exists_split h
  exact ⟨before ++ m.shape.keyword, _, split, stop⟩

theorem isBoundary_stop (h : form.Matches text m) : IsBoundary text m.stop := by
  obtain ⟨before, rest, _, stop, split⟩ := Scan.exists_split h
  refine ⟨before ++ m.shape.keyword ++ m.shape.body.chars, rest, by simp [split], ?_⟩
  rw [byteLength_append, stop, Match.stop]

/-- Where scanning goes on behind a match whose content is not cut. -/
theorem isBoundary_resume (h : form.Matches text m) : IsBoundary text (Scan.resume m) := by
  unfold Scan.resume
  split
  · exact h.isBoundary_keywordEnd
  · exact h.isBoundary_stop

/-- The content of a match stands where it says. -/
theorem slice?_content (h : form.Matches text m) {start : Nat} {content : List Char}
    (some : m.content? = some (start, content)) :
    slice? text start (start + byteLength content) = Option.some content := by
  obtain ⟨before, rest, _, stop, split⟩ := Scan.exists_split h
  unfold Match.content? at some
  split at some
  · next separator text closer body =>
    cases some
    rw [← stop, ← byteLength_append, split, body]
    have piece := slice?_append (before ++ m.shape.keyword ++ separator) content (closer ++ rest)
    simpa [Body.chars] using piece
  · simp at some

end CommentForm.Matches

namespace Scan

/-! ## Readings -/

/-- The content of a reading stands where it says. -/
theorem Reading.Placed.exists_content {family : Family} {form : CommentForm} {text : List Char}
    {m : Match} {reading : Reading} (placed : reading.Placed family form text m) :
    ∃ before rest, text = before ++ reading.content ++ rest ∧
      byteLength before = reading.contentStart := by
  cases placed with
  | keyword before separator content rest split =>
    exact ⟨before ++ m.shape.keyword ++ separator, rest, split, rfl⟩
  | bare before c content rest split => exact ⟨before, rest, split, rfl⟩

/-- A boundary of the content is one of the text. -/
theorem Reading.Placed.isBoundary {family : Family} {form : CommentForm} {text : List Char}
    {m : Match} {reading : Reading} (placed : reading.Placed family form text m) {offset : Nat}
    (inside : IsBoundary reading.content offset) :
    IsBoundary text (reading.contentStart + offset) := by
  obtain ⟨before, rest, rfl, length⟩ := placed.exists_content
  rw [← length]
  exact inside.within before rest

/-- A body is cut at a boundary of it. -/
theorem isBoundary_stopIn {form : CommentForm} {body : List Char} {stop : Nat}
    (cut : form.stopIn body = some stop) : IsBoundary body stop := by
  obtain ⟨before, behind, _, _, split, length, _⟩ := CommentForm.stopIn_eq_some cut
  exact ⟨before, behind, split, length⟩

theorem Reading.Placed.isBoundary_next {family : Family} {form : CommentForm} {text : List Char}
    {m : Match} {reading : Reading} (placed : reading.Placed family form text m)
    (found : form.Matches text m) : IsBoundary text (reading.next form (resume m)) := by
  unfold Reading.next
  split
  · exact found.isBoundary_resume
  · next stop cut => exact placed.isBoundary (isBoundary_stopIn cut)

/-! ## Steps -/

namespace Step.Possible
variable {family : Family} {text : List Char} {step : Step}

/-- Scanning goes on at a boundary. -/
theorem isBoundary_cursor (h : step.Possible family text) :
    IsBoundary text step.outcome.cursor := by
  have judged := h.judged
  generalize step.outcome = o at judged
  cases judged with
  | glued | unended => exact h.found.isBoundary_keywordEnd
  | blank _ _ _ placed => exact placed.isBoundary_next h.found
  | marked _ _ _ _ _ placed => exact placed.isBoundary_next h.found

/-- Scanning goes on inside the text, or at its end. -/
theorem cursor_le_byteLength (h : step.Possible family text) :
    step.outcome.cursor ≤ byteLength text :=
  h.isBoundary_cursor.le

end Step.Possible

/-- Every offset that a step uses is a boundary of the text that it cuts. -/
structure Step.InRange (family : Family) (text : List Char) (step : Step) : Prop where
  /-- The start of the match, which a warning about an open block locates. -/
  start : IsBoundary text step.candidate.place.start
  /-- The keyword, from which a glued word is cut and behind which a letter is looked for. -/
  keyword : IsBoundary text step.candidate.place.keywordStart ∧
    IsBoundary text step.candidate.place.keywordEnd
  /-- The content of the match. -/
  content : ∀ start content, step.candidate.place.content? = some (start, content) →
    slice? text start (start + byteLength content) = some content
  /-- The stops that may stand in the tail of a keyword without a colon. -/
  tail : ∀ tail, step.candidate.place.shape.body = .tail tail →
    step.candidate.form.StopsInRange (trimStart tail)
  /-- The content that is read, which is that of the match or a glued word. -/
  reading : ∀ reading, reading? family text step.candidate.place = some (some reading) →
    slice? text reading.contentStart (reading.contentStart + byteLength reading.content) =
        some reading.content ∧
      step.candidate.form.StopsInRange reading.content
  /-- The cut of the content. -/
  cut : ∀ reading stop, reading? family text step.candidate.place = some (some reading) →
    step.candidate.form.stopIn reading.content = some stop → IsBoundary reading.content stop
  /-- The end of the body, where the blanks behind it begin. -/
  body : ∀ reading kept, reading? family text step.candidate.place = some (some reading) →
    reading.kept? step.candidate.form = some kept →
    IsBoundary text (reading.contentStart + byteLength (trimEnd kept))
  /-- The cursor, from which the next search starts. -/
  cursor : IsBoundary text step.outcome.cursor

theorem Step.Possible.inRange {family : Family} {text : List Char} {step : Step}
    (h : step.Possible family text) : step.InRange family text where
  start := h.found.isBoundary_start
  keyword := ⟨h.found.isBoundary_keywordStart, h.found.isBoundary_keywordEnd⟩
  content := fun _ _ some => h.found.slice?_content some
  tail := fun tail _ => step.candidate.form.stopsInRange (trimStart tail)
  reading := by
    intro reading read
    obtain ⟨before, rest, split, length⟩ :=
      (placed_of_reading? h.form_mem h.found read).exists_content
    refine ⟨?_, step.candidate.form.stopsInRange reading.content⟩
    rw [split, ← length]
    exact slice?_append before reading.content rest
  cut := fun _ _ _ cut => isBoundary_stopIn cut
  body := by
    intro reading kept read cut
    obtain ⟨rest, content⟩ := Reading.exists_body cut
    refine (placed_of_reading? h.form_mem h.found read).isBoundary ?_
    rw [content]
    exact isBoundary_append _ rest
  cursor := h.isBoundary_cursor

end Scan

open Scan PositionIndex in
/-- Scanning a file of a known family gives its findings, and all offsets used on the way are
boundaries of the text, those of positions among them: there is always a last line, and a position
is defined exactly at a boundary. -/
theorem scanText_inRange {path : Path} {family : Family}
    (known : Family.ofPath? path = some family) (text : String) :
    (∃ steps, Pending.Run family text.toList 0 (Pending.start family text.toList) steps ∧
      scanText path text = .ok ⟨path, (markers steps).map (Finding.ofMarker path)⟩ ∧
      ∀ step ∈ steps, step.InRange family text.toList) ∧
    (ofText text.toList).lineEnds ≠ [] ∧
    (∀ offset, ((ofText text.toList).locate? offset).isSome ↔
      IsBoundary text.toList (min offset (byteLength text.toList))) ∧
    ∀ offset, ((ofText text.toList).locateChar? offset).isSome ↔
      IsBoundary text.toList offset := by
  obtain ⟨steps, run, found⟩ := exists_scan? family text.toList
  refine ⟨⟨steps, Pending.run_start_iff.2 run, scanText_of_scan? known found, ?_⟩,
    lineEnds_ne_nil text.toList, fun offset => isSome_locate?_iff,
    fun offset => isSome_locateChar?_iff⟩
  intro step mem
  exact (run.possible_of_mem mem).inRange

open Scan PositionIndex in
theorem scanText_inRange_python :
    Family.ofPath? ⟨"a.py"⟩ = some .python ∧
      (∃ steps,
        Pending.Run .python "# TODO: ü\u3000".toList 0
          (Pending.start .python "# TODO: ü\u3000".toList) steps ∧
        scanText ⟨"a.py"⟩ "# TODO: ü\u3000" =
          .ok ⟨⟨"a.py"⟩, (markers steps).map (Finding.ofMarker ⟨"a.py"⟩)⟩ ∧
        ∀ step ∈ steps, step.InRange .python "# TODO: ü\u3000".toList) ∧
      (ofText "# TODO: ü\u3000".toList).lineEnds ≠ [] ∧
      (∀ offset, ((ofText "# TODO: ü\u3000".toList).locate? offset).isSome ↔
        IsBoundary "# TODO: ü\u3000".toList
          (min offset (byteLength "# TODO: ü\u3000".toList))) ∧
      ∀ offset, ((ofText "# TODO: ü\u3000".toList).locateChar? offset).isSome ↔
        IsBoundary "# TODO: ü\u3000".toList offset :=
  ⟨by decide, scanText_inRange (by decide) "# TODO: ü\u3000"⟩

end Markers

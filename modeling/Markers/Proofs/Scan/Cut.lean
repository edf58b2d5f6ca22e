import Markers.Proofs.Scan.LineComment
import Markers.Proofs.Scan.Run

/-!
# Cut bodies

The body of a line comment is cut where the form has a stop in it. There the form has another match,
whose keyword is whole (`exists_match_of_stopIn`), and that match is taken next
(`Run.exists_next_of_cutAt`). It is a marker as well, unless it is a keyword of a shell comment
that has no colon and whose line goes on with something else; then the text behind the cut is in no
marker (`scan?_cut`).

A marker that the form would read on its own stays in the text of another marker only if the comment
sign in front of its keyword has two or more spaces behind it (`scan?_swallows`).
-/

namespace Markers.Scan
open Text PositionIndex

/-! ## The match at a cut -/

/-- The body of a match is cut at an offset of the text. -/
def Step.CutAt (family : Family) (text : List Char) (step : Step) (place : Nat) : Prop :=
  ∃ reading stop, reading? family text step.candidate.place = some (some reading) ∧
    step.candidate.form.stopIn reading.content = some stop ∧ place = reading.contentStart + stop

namespace Step.Possible
variable {family : Family} {text : List Char} {step : Step}

/-- A keyword without a colon makes a marker only at the end of its line. -/
theorem tailEnds_of_marked (h : step.Possible family text)
    (marked : step.outcome.marker.isSome = true) {tail : List Char}
    (body : step.candidate.place.shape.body = .tail tail) :
    tailEnds step.candidate.form tail = true := by
  obtain ⟨reading?, _, accepted⟩ := Option.bind_eq_some_iff.1 h.accepted
  cases reading? with
  | none =>
    rw [← Option.some.inj accepted] at marked
    simp at marked
  | some reading =>
    simp only [body] at accepted
    split at accepted
    · assumption
    · rw [← Option.some.inj accepted] at marked
      simp at marked

/-- A match with a whole keyword is a marker, unless something other than a marker follows on the
line of a keyword without a colon. -/
theorem isSome_marker_iff (h : step.Possible family text)
    (reads : Keyword.Reads step.candidate.place.shape.keyword)
    (whole : Keyword.endsAt? text step.candidate.place.keywordEnd = some true) :
    step.outcome.marker.isSome = true ↔
      ∀ tail, step.candidate.place.shape.body = .tail tail →
        tailEnds step.candidate.form tail = true := by
  constructor
  · intro marked tail body
    exact h.tailEnds_of_marked marked body
  · intro ends
    have judged := h.judged
    generalize step.outcome = o at judged ⊢
    cases judged with
    | glued read =>
      rw [reading?_eq_none_iff, whole] at read
      simp at read
    | unended tail body goesOn =>
      rw [ends tail body] at goesOn
      simp at goesOn
    | blank reading _ read _ _ bare _ =>
      rw [reading?, if_neg reads.ne_nil, whole, Option.bind_some, if_pos rfl] at read
      cases read
      have keyword : (plainReading step.candidate.place).keyword =
          step.candidate.place.shape.keyword := by
        unfold plainReading
        split <;> rfl
      rw [keyword] at bare
      exact absurd bare reads.ne_nil
    | marked => rfl

/-- A cut moves the cursor to it. -/
theorem cursor_of_cutAt (h : step.Possible family text) {place : Nat}
    (cut : step.CutAt family text place) : step.outcome.cursor = place := by
  obtain ⟨reading, stop, read, stops, rfl⟩ := cut
  have next : reading.next step.candidate.form (resume step.candidate.place) =
      reading.contentStart + stop := by
    rw [Reading.next, stops]
  have judged := h.judged
  generalize step.outcome = o at judged ⊢
  cases judged with
  | glued read' =>
    rw [read] at read'
    simp at read'
  | unended tail body _ =>
    obtain ⟨_, _, _, _, _, _, stopped, _⟩ := CommentForm.stopIn_eq_some stops
    have kind := defaultKind?_of_cuts h.form_mem (CommentForm.cuts_of_stopAt? stopped)
    obtain ⟨rfl, _⟩ := reading?_of_defaultKind?_none kind read
    -- there is no content without a colon
    have content : (plainReading step.candidate.place).content = [] := by
      unfold plainReading Match.content?
      rw [body]
    rw [content] at stops
    simp [CommentForm.stopIn, CommentForm.stops] at stops
  | blank _ _ read' | marked _ _ _ _ read' =>
    cases read.symm.trans read'
    exact next

/-- A match whose body is cut is a marker, and its form has a match with a whole keyword at the
cut. -/
theorem exists_match_of_cutAt (h : step.Possible family text) {place : Nat}
    (cut : step.CutAt family text place) :
    ∃ m, step.candidate.form.Matches text m ∧ m.start = place ∧ Keyword.Reads m.shape.keyword ∧
      Keyword.endsAt? text m.keywordEnd = some true := by
  obtain ⟨reading, stop, read, stops, rfl⟩ := cut
  obtain ⟨_, _, _, _, _, _, stopped, _⟩ := CommentForm.stopIn_eq_some stops
  have cuts := CommentForm.cuts_of_stopAt? stopped
  obtain ⟨rfl, _⟩ := reading?_of_defaultKind?_none (defaultKind?_of_cuts h.form_mem cuts) read
  obtain ⟨m, found, start, whole⟩ := exists_match_of_stopIn h.found stops
  exact ⟨m, found, start, reads_of_cuts cuts found, whole⟩

end Step.Possible

namespace Run
variable {family : Family} {text : List Char} {cursor : Nat} {earlier later : List Step}
  {step : Step}

/-- What follows a step of a run is the run from the cursor that the step leaves. -/
theorem of_append (run : Run family text cursor (earlier ++ step :: later)) :
    Run family text step.outcome.cursor later := by
  induction earlier generalizing cursor with
  | nil =>
    cases run with
    | step _ _ rest => exact rest
  | cons _ earlier ih =>
    cases run with
    | step _ _ rest => exact ih rest

/-- Behind a match whose body is cut the match at the cut is taken. It is of the same form, and a
marker unless its keyword has no colon and its line goes on. -/
theorem exists_next_of_cutAt (run : Run family text cursor (earlier ++ step :: later))
    {place : Nat} (cut : step.CutAt family text place) :
    ∃ next rest, later = next :: rest ∧ next.candidate.form = step.candidate.form ∧
      next.candidate.place.start = place ∧
      (next.outcome.marker.isSome = true ↔ ∀ tail, next.candidate.place.shape.body = .tail tail →
        tailEnds next.candidate.form tail = true) := by
  have possible := run.possible_of_mem (List.mem_append_right earlier (List.mem_cons_self ..))
  obtain ⟨m, found, start, reads, whole⟩ := possible.exists_match_of_cutAt cut
  have behind := run.of_append
  rw [possible.cursor_of_cutAt cut] at behind
  cases behind with
  | done early =>
    have before := early _ possible.form_mem _ found
    omega
  | @step _ c o rest leftmost accepted _ =>
    have here : c.place.start = m.start := by
      have least := leftmost.least possible.form_mem found (Nat.le_of_eq start.symm)
      have ahead := leftmost.ahead
      omega
    have form := form_unique leftmost.form_mem possible.form_mem leftmost.found found here
    obtain rfl := (form ▸ leftmost.found).unique found here
    refine ⟨⟨c, o⟩, rest, rfl, form, start, ?_⟩
    have next : Step.Possible family text ⟨c, o⟩ := ⟨leftmost.form_mem, leftmost.found, accepted⟩
    exact next.isSome_marker_iff reads whole

end Run

/-- A body is cut only where the same form matches again, with a whole keyword, and that match is
the next one taken. It is the next marker as well, unless its keyword has no colon and something
other than a marker follows on the line; only shell comments have such keywords. -/
theorem scan?_cut (family : Family) (text : List Char) :
    ∃ steps, Run family text 0 steps ∧ family.scan? text = some (markers steps) ∧
      ∀ earlier step later place, steps = earlier ++ step :: later →
        step.CutAt family text place →
        ∃ next rest, later = next :: rest ∧ next.candidate.form = step.candidate.form ∧
          next.candidate.place.start = place ∧
          (next.outcome.marker.isSome = true ↔
            ∀ tail, next.candidate.place.shape.body = .tail tail →
              tailEnds next.candidate.form tail = true) ∧
          (family ≠ .shell → next.outcome.marker.isSome = true) := by
  obtain ⟨steps, run, found⟩ := exists_scan? family text
  refine ⟨steps, run, found, ?_⟩
  rintro earlier step later place rfl cut
  obtain ⟨next, rest, rfl, form, start, marked⟩ := run.exists_next_of_cutAt cut
  refine ⟨next, rest, rfl, form, start, marked, ?_⟩
  intro other
  apply marked.2
  intro tail body
  have possible : next.Possible family text := run.possible_of_mem (by simp)
  obtain ⟨_, pieces⟩ := pieces_of_matches possible.found
  have mem := possible.form_mem
  rw [pieces.tail tail body] at mem
  cases family with
  | shell => contradiction
  | _ => simp [Family.forms] at mem

/-- A body is cut at a keyword that has no colon and whose line goes on. What stands behind the cut
is in no marker. -/
theorem scan?_cut_shell :
    ∃ step next : Step, Run .shell "# TODO: a # BUG b\n".toList 0 [step, next] ∧
      step.CutAt .shell "# TODO: a # BUG b\n".toList 10 ∧
      next.candidate.place.start = 10 ∧ next.outcome.marker = none ∧
      Family.shell.scan? "# TODO: a # BUG b\n".toList = some [⟨.todo, "a", ⟨1, 3⟩, ⟨1, 9⟩⟩] := by
  have run : Run .shell "# TODO: a # BUG b\n".toList 0
      [⟨⟨.hashColon, ⟨0, ⟨['#', ' '], "TODO".toList, .content [':', ' '] "a # BUG b".toList [],
          by decide⟩⟩⟩, ⟨10, some ⟨.todo, "a", ⟨1, 3⟩, ⟨1, 9⟩⟩⟩⟩,
        ⟨⟨.hashColon, ⟨10, ⟨['#', ' '], "BUG".toList, .tail " b".toList, by decide⟩⟩⟩,
          ⟨15, none⟩⟩] :=
    .of_nextMatch rfl rfl (.of_nextMatch rfl rfl (.done (nextMatch_eq_none_iff.1 rfl)))
  refine ⟨_, _, run, ⟨⟨"TODO".toList, 8, "a # BUG b".toList⟩, 2, rfl, rfl, rfl⟩, rfl, rfl, ?_⟩
  exact run.scan?_eq

/-! ## Markers in the text of other markers -/

/-- A marker of the same form starts in the text of this one, where the form would read it if the
cursor stood there. -/
structure Step.Swallows (family : Family) (text : List Char) (step inner : Step) : Prop where
  possible : inner.Possible family text
  same : inner.candidate.form = step.candidate.form
  marked : inner.outcome.marker.isSome = true
  inside : ∃ marker reading, step.outcome.marker = some marker ∧
    reading? family text step.candidate.place = some (some reading) ∧
    reading.contentStart ≤ inner.candidate.place.start ∧
    inner.candidate.place.start < reading.contentStart + byteLength marker.text.toList

/-- The text of a marker is what is kept of its content, without the blanks at its end. -/
theorem Step.Possible.exists_kept {family : Family} {text : List Char} {step : Step}
    {marker : Marker} {reading : Reading} (h : step.Possible family text)
    (some : step.outcome.marker = some marker)
    (read : reading? family text step.candidate.place = Option.some (Option.some reading)) :
    ∃ kept, reading.kept? step.candidate.form = Option.some kept ∧
      marker.text.toList = trimEnd kept := by
  obtain ⟨_, kept, _, _, _, marked⟩ := h.exists_marked some
  cases read.symm.trans marked.read
  exact ⟨kept, marked.cut, marked.body⟩

/-- A match in the content of a line comment whose opener is short enough is a stop in it. -/
theorem exists_stopIn_le_of_matches {form : CommentForm} {text gap : List Char} {m inner : Match}
    (allowed : form.StopGap gap) (opener : inner.shape.opener = form.lead ++ gap)
    (found : form.Matches text m) (found' : form.Matches text inner)
    (whole : Keyword.endsAt? text inner.keywordEnd = some true)
    (behind : (plainReading m).contentStart ≤ inner.start)
    (inside : inner.start < (plainReading m).contentStart + byteLength (plainReading m).content) :
    ∃ stop, form.stopIn (plainReading m).content = some stop ∧
      (plainReading m).contentStart + stop ≤ inner.start := by
  have cuts := CommentForm.cuts_of_stopGap allowed
  obtain ⟨before, rest, split, start, breaks⟩ := exists_content cuts found
  obtain ⟨front, s, split', start', matched⟩ := found'
  obtain ⟨gap', tail, last, parts, opener', _, read⟩ :=
    CommentForm.exists_lead (CommentForm.ne_checkbox_of_cuts cuts) matched
  obtain rfl := List.append_cancel_left (opener.symm.trans opener')
  -- the match starts in the content, `x` behind its start
  obtain ⟨x, rfl, content⟩ := append_of_le (split.symm.trans split') (by omega)
  rw [byteLength_append] at start'
  obtain ⟨y, content', rfl⟩ := append_of_le content.symm (by omega)
  have breaks : Breaks rest := by
    apply breaks.resolve_left
    intro none
    rw [none, byteLength_nil] at inside
    omega
  obtain rfl := (Keyword.read?_spec read).2
  have ends : Keyword.endsBefore last = true := by
    have stop : byteLength (before ++ x ++ inner.shape.opener ++ inner.shape.keyword) =
        inner.keywordEnd := by
      simp only [byteLength_append, start', Match.keywordEnd, Match.keywordStart]
    have same : text = before ++ x ++ inner.shape.opener ++ inner.shape.keyword ++ last := by
      rw [split', parts, opener]
      simp only [List.append_assoc]
    rw [← stop, same, endsAt?_append] at whole
    exact Option.some.inj whole
  have stopped : form.stopAt? (y ++ rest) =
      some (form.lead ++ gap ++ inner.shape.keyword, last) :=
    CommentForm.stopAt?_eq_some_iff.2 ⟨gap, _, allowed, rfl, parts, read⟩
  rw [CommentForm.stopAt?_append y breaks] at stopped
  obtain ⟨⟨_, last'⟩, stopped', same⟩ := Option.map_eq_some_iff.1 stopped
  obtain ⟨rfl, rfl⟩ := Prod.mk.inj same
  rw [Keyword.endsBefore_append last' breaks.not_isAlphanum] at ends
  obtain ⟨n, first, le⟩ := CommentForm.exists_stopIn_le stopped' ends x
  rw [content']
  exact ⟨n, first, by omega⟩

/-- No marker that starts in the text of another one of its form has an opener that is short enough
for a stop. -/
theorem Step.Possible.not_stopGap_of_swallows {family : Family} {text gap : List Char}
    {step inner : Step} (h : step.Possible family text)
    (swallows : step.Swallows family text inner)
    (opener : inner.candidate.place.shape.opener = step.candidate.form.lead ++ gap) :
    ¬ step.candidate.form.StopGap gap := by
  intro allowed
  have found := swallows.possible.found
  rw [swallows.same] at found
  obtain ⟨marker, reading, some, read, behind, inside⟩ := swallows.inside
  obtain ⟨kept, cut, written⟩ := h.exists_kept some read
  have kind := defaultKind?_of_cuts h.form_mem (CommentForm.cuts_of_stopGap allowed)
  obtain ⟨rfl, _⟩ := reading?_of_defaultKind?_none kind read
  have whole : Keyword.endsAt? text inner.candidate.place.keywordEnd = Option.some true := by
    obtain ⟨reading, read⟩ := swallows.possible.exists_reading swallows.marked
    have reads := reads_of_cuts (CommentForm.cuts_of_stopGap allowed) found
    exact (reading?_of_defaultKind?_none kind read).2 reads.ne_nil
  have short := byteLength_trimEnd_le kept
  obtain ⟨rest, content⟩ := Reading.exists_body cut
  have within := congrArg byteLength content
  rw [byteLength_append] at within
  rw [written] at inside
  obtain ⟨stop, first, le⟩ :=
    exists_stopIn_le_of_matches allowed opener h.found found whole behind (by omega)
  rw [Reading.kept?, first] at cut
  have taken := byteLength_of_takeBytes? cut
  omega

/-- A marker whose body is cut where the next one begins has no marker of the same form in its text,
unless several spaces stand between the comment sign and the keyword of that. A shell comment has
none at all. -/
theorem scan?_swallows (family : Family) (text : List Char) :
    ∃ steps, Run family text 0 steps ∧ family.scan? text = some (markers steps) ∧
      ∀ step ∈ steps, step.candidate.form.cuts = true → ∀ inner, step.Swallows family text inner →
        ∃ opener n, step.candidate.form = .line opener true ∧ 2 ≤ n ∧
          inner.candidate.place.shape.opener = opener.chars ++ List.replicate n ' ' := by
  obtain ⟨steps, run, found⟩ := exists_scan? family text
  refine ⟨steps, run, found, ?_⟩
  intro step mem cuts inner swallows
  have matches' := swallows.possible.found
  rw [swallows.same] at matches'
  obtain ⟨_, s, _, _, matched⟩ := matches'
  obtain ⟨gap, _, _, _, opener, gaps, _⟩ :=
    CommentForm.exists_lead (CommentForm.ne_checkbox_of_cuts cuts) matched
  have long := (run.possible_of_mem mem).not_stopGap_of_swallows swallows opener
  generalize step.candidate.form = form at cuts opener gaps long
  have spaces : gap = List.replicate gap.length ' ' := by
    apply List.eq_replicate_of_mem
    intro c inGap
    obtain ⟨sign, rfl⟩ | rfl := CommentForm.form_of_cuts cuts
    · exact eq_of_beq (gaps c inGap)
    · exact eq_of_beq (gaps c inGap)
  obtain ⟨sign, rfl⟩ | rfl := CommentForm.form_of_cuts cuts
  · refine ⟨sign, gap.length, rfl, ?_, by rw [opener, spaces]; simp [CommentForm.lead]⟩
    by_contra few
    apply long
    obtain none | one : gap.length = 0 ∨ gap.length = 1 := by omega
    · exact .inl (List.eq_nil_of_length_eq_zero none)
    · exact .inr (by rw [spaces, one]; rfl)
  · exact absurd ⟨_, spaces⟩ long

/-- Two spaces behind the comment sign keep a marker in the text of another one. -/
theorem scan?_swallows_slashes :
    ∃ step inner : Step, Run .cStyle "// TODO: a //  BUG: b\n".toList 0 [step] ∧
      step.candidate.form.cuts = true ∧
      step.Swallows .cStyle "// TODO: a //  BUG: b\n".toList inner ∧
      Family.cStyle.scan? "// TODO: a //  BUG: b\n".toList =
        some [⟨.todo, "a //  BUG: b", ⟨1, 4⟩, ⟨1, 21⟩⟩] := by
  have run : Run .cStyle "// TODO: a //  BUG: b\n".toList 0
      [⟨⟨.line .slashes true, ⟨0, ⟨"// ".toList, "TODO".toList,
        .content [':', ' '] "a //  BUG: b".toList [], by decide⟩⟩⟩,
        ⟨21, some ⟨.todo, "a //  BUG: b", ⟨1, 4⟩, ⟨1, 21⟩⟩⟩⟩] :=
    .of_nextMatch rfl rfl (.done (nextMatch_eq_none_iff.1 rfl))
  have inner : Run .cStyle "// TODO: a //  BUG: b\n".toList 11
      [⟨⟨.line .slashes true, ⟨11, ⟨"//  ".toList, "BUG".toList, .content [':', ' '] ['b'] [],
        by decide⟩⟩⟩, ⟨21, some ⟨.bug, "b", ⟨1, 16⟩, ⟨1, 21⟩⟩⟩⟩] :=
    .of_nextMatch rfl rfl (.done (nextMatch_eq_none_iff.1 rfl))
  have possible := inner.possible_of_mem (List.mem_singleton.2 rfl)
  refine ⟨_, _, run, rfl, ⟨possible, rfl, rfl, _, ⟨"TODO".toList, 9, "a //  BUG: b".toList⟩, rfl,
    rfl, ?_, ?_⟩, run.scan?_eq⟩
  · decide
  · decide

end Markers.Scan

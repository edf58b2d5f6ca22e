import Markers.Proofs.Scan.Cut

/-!
# Block comments in a text

The content of a block goes up to the first delimiter that closes it, or to the end of the text when
there is none, whatever its form lets stand around it (`exists_upToFirst_of_block`). Nothing cuts a
block, so its marker is that content without the blanks at its end, and scanning goes on behind the
delimiter (`Step.Possible.extent`). `scan?_blocks` says so for all blocks of a text, which have a
marker unless a letter follows their keyword.
-/

namespace Markers
open Text

namespace CommentForm

/-- The delimiter that closes a block. -/
def closer : CommentForm → List Char
  | starBlock => ['*', '/']
  | quoteBlock => ['"', '"', '"']
  | angleBlock => ['#', '>']
  | markupBlock => ['-', '-', '>']
  | line _ _ | hashColon | checkbox => []

theorem closer_ne_nil {form : CommentForm} (block : form.style = .block) : form.closer ≠ [] := by
  cases form with
  | line | hashColon | checkbox => cases block
  | _ => exact List.cons_ne_nil _ _

/-- Items and line comments are no blocks. -/
theorem ne_checkbox_of_block {form : CommentForm} (block : form.style = .block) :
    form ≠ checkbox := by
  rintro rfl
  cases block

theorem cuts_of_block {form : CommentForm} (block : form.style = .block) : form.cuts ≠ true := by
  cases form with
  | line | hashColon | checkbox => cases block
  | _ => exact Bool.false_ne_true

/-- The content of a block is the text behind the separator, up to the delimiter of its form. -/
theorem exists_upTo_of_block {form : CommentForm} {s separator content close : List Char}
    (block : form.style = .block)
    (bodied : form.body? s = some (.content separator content close)) :
    ∃ inner, s = separator ++ inner ∧ upTo form.closer inner = (content, close) := by
  cases form with
  | line | hashColon | checkbox => cases block
  | starBlock | quoteBlock | angleBlock =>
    cases bodied
    exact ⟨_, (colonSpace_append s).symm, rfl⟩
  | markupBlock =>
    rcases markupBody?_spec bodied with ⟨_, inner, split, _, same⟩ | ⟨_, _, _, same⟩
    · cases same
      exact ⟨inner, split, rfl⟩
    · cases same

/-- The content of a block goes up to the first delimiter, if there is one, and the match up to its
end. -/
theorem exists_upToFirst_of_block {form : CommentForm} {s separator content close : List Char}
    (block : form.style = .block)
    (bodied : form.body? s = some (.content separator content close)) :
    ∃ inner behind, s = separator ++ inner ∧ inner = content ++ close ++ behind ∧
      UpToFirst form.closer inner content behind := by
  obtain ⟨inner, split, found⟩ := exists_upTo_of_block block bodied
  obtain ⟨behind, upToFirst, whole⟩ := upTo_spec form.closer inner
  rw [found] at upToFirst whole
  exact ⟨inner, behind, split, whole, upToFirst⟩

end CommentForm

namespace Scan
open PositionIndex

/-- How far a block goes in a text, whose content starts at `start` behind the characters `before`:
`body` is what stands in front of the first closing delimiter, `blanks` are the blanks at its end,
and scanning goes on at `cursor`, in front of `behind`. -/
structure Extent (form : CommentForm) (text : List Char) (start cursor : Nat) (marker : Marker)
    (before rest body blanks behind : List Char) : Prop where
  split : text = before ++ rest
  opens : byteLength before = start
  fills : CommentForm.UpToFirst form.closer rest body behind
  verbatim : body = marker.text.toList ++ blanks
  blank : ∀ c ∈ blanks, isBlank c = true
  solid : ∀ c ∈ marker.text.toList.getLast?, isBlank c = false
  free : ¬ form.closer <:+: marker.text.toList
  resumes : dropBytes? text cursor = some behind

/-- The content of a block stands in front of the first delimiter behind it, and the match ends
where that delimiter ends. -/
theorem exists_upToFirst_of_matches {form : CommentForm} {text : List Char} {m : Match}
    {start : Nat} {content : List Char} (found : form.Matches text m) (block : form.style = .block)
    (has : m.content? = some (start, content)) :
    ∃ before rest behind, text = before ++ rest ∧ byteLength before = start ∧
      CommentForm.UpToFirst form.closer rest content behind ∧ resume m = m.stop ∧
      dropBytes? text m.stop = some behind := by
  obtain ⟨front, _, rfl, place, matched⟩ := found
  obtain ⟨_, tail, opened, read, bodied⟩ :=
    CommentForm.matchAt?_eq_some (CommentForm.ne_checkbox_of_block block) matched
  obtain rfl := CommentForm.opener?_eq_append opened
  obtain rfl := (Keyword.read?_spec read).2
  unfold Match.content? at has
  split at has
  · next separator content close body =>
    cases has
    rw [body] at bodied
    obtain ⟨_, behind, rfl, rfl, upToFirst⟩ := CommentForm.exists_upToFirst_of_block block bodied
    refine ⟨front ++ m.shape.opener ++ m.shape.keyword ++ separator, content ++ close ++ behind,
      behind, by simp, ?_, upToFirst, ?_, ?_⟩
    · simp only [byteLength_append, place, Match.keywordEnd, Match.keywordStart]
    · unfold resume
      rw [body]
    · have stop : m.stop = byteLength (front ++ m.shape.opener ++ m.shape.keyword ++ separator ++
          content ++ close) := by
        simp only [Match.stop, Match.keywordEnd, Match.keywordStart, body, Body.chars,
          byteLength_append, place, Nat.add_assoc]
      have drops := dropBytes?_append (front ++ m.shape.opener ++ m.shape.keyword ++ separator ++
        content ++ close) behind
      rw [← stop] at drops
      simpa using drops
  · simp at has

/-- A block with content has a marker exactly if its keyword is a whole word. -/
theorem Step.Possible.isSome_marker_iff_of_block {family : Family} {text : List Char} {step : Step}
    {content : Nat × List Char} (h : step.Possible family text)
    (block : step.candidate.form.style = .block)
    (has : step.candidate.place.content? = some content) :
    step.outcome.marker.isSome = true ↔
      Keyword.endsAt? text step.candidate.place.keywordEnd = some true := by
  have plain := CommentForm.ne_checkbox_of_block block
  obtain ⟨_, pieces⟩ := pieces_of_matches h.found
  have reads := pieces.keyword.resolve_left fun item => plain item.2
  constructor
  · intro marked
    obtain ⟨reading, read⟩ := h.exists_reading marked
    have kind := defaultKind?_of_ne_checkbox h.form_mem plain
    exact (reading?_of_defaultKind?_none kind read).2 reads.ne_nil
  · intro whole
    rw [h.isSome_marker_iff reads whole]
    intro tail body
    rw [Match.content?, body] at has
    cases has

/-- Nothing cuts a block: the text of its marker is the content without the blanks at its end, and
scanning goes on behind the match. -/
theorem Step.Possible.body_of_block {family : Family} {text : List Char} {step : Step}
    {marker : Marker} {start : Nat} {content : List Char} (h : step.Possible family text)
    (block : step.candidate.form.style = .block)
    (has : step.candidate.place.content? = some (start, content))
    (some : step.outcome.marker = some marker) :
    marker.text.toList = trimEnd content ∧ step.outcome.cursor = resume step.candidate.place := by
  have kind := defaultKind?_of_ne_checkbox h.form_mem (CommentForm.ne_checkbox_of_block block)
  have uncut : step.candidate.form.stopIn content = none :=
    CommentForm.stopIn_eq_none (CommentForm.cuts_of_block block)
  obtain ⟨reading, kept, _, _, _, marked⟩ := h.exists_marked some
  obtain ⟨rfl, _⟩ := reading?_of_defaultKind?_none kind marked.read
  have reads : plainReading step.candidate.place =
      ⟨step.candidate.place.shape.keyword, start, content⟩ := by
    unfold plainReading
    rw [has]
  have cut := marked.cut
  have goesOn := marked.goesOn
  rw [reads, Reading.kept?, uncut] at cut
  rw [reads, Reading.next, uncut] at goesOn
  cases cut
  exact ⟨marked.body, goesOn⟩

/-- The marker of a block has the extent of its content. -/
theorem Step.Possible.extent {family : Family} {text : List Char} {step : Step} {marker : Marker}
    {start : Nat} {content : List Char} (h : step.Possible family text)
    (block : step.candidate.form.style = .block)
    (has : step.candidate.place.content? = some (start, content))
    (some : step.outcome.marker = some marker) :
    ∃ before rest blanks behind, Extent step.candidate.form text start step.outcome.cursor marker
      before rest content blanks behind := by
  obtain ⟨before, rest, behind, split, opens, upToFirst, resumes, drops⟩ :=
    exists_upToFirst_of_matches h.found block has
  obtain ⟨body, goesOn⟩ := h.body_of_block block has some
  obtain ⟨blanks, trimmed, blank⟩ := trimEnd_append_blanks content
  have first := upToFirst.not_infix (CommentForm.closer_ne_nil block)
  rw [← body] at trimmed
  refine ⟨before, rest, blanks, behind, split, opens, upToFirst, trimmed, blank, ?_, ?_, ?_⟩
  · rw [body]
    exact fun c last => isBlank_of_getLast?_trimEnd last
  · intro inside
    rw [trimmed] at first
    exact first (inside.trans (List.prefix_append _ _).isInfix)
  · rw [goesOn, resumes]
    exact drops

/-- Blocks end where they are closed. A block with content has a marker if its keyword is a whole
word. The text of the marker is what stands behind the separator up to the first closing delimiter,
or up to the end of the text if there is none, without the blanks at the end, and scanning goes on
just behind that delimiter. -/
theorem scan?_blocks (family : Family) (text : List Char) :
    ∃ steps, Run family text 0 steps ∧ family.scan? text = some (markers steps) ∧
      ∀ step ∈ steps, step.candidate.form.style = .block →
        ∀ start content, step.candidate.place.content? = some (start, content) →
          (step.outcome.marker.isSome = true ↔
            Keyword.endsAt? text step.candidate.place.keywordEnd = some true) ∧
          ∀ marker, step.outcome.marker = some marker →
            ∃ before rest body blanks behind,
              Extent step.candidate.form text start step.outcome.cursor marker
                before rest body blanks behind := by
  obtain ⟨steps, run, found⟩ := exists_scan? family text
  refine ⟨steps, run, found, ?_⟩
  intro step mem block start content has
  have possible := run.possible_of_mem mem
  refine ⟨possible.isSome_marker_iff_of_block block has, fun marker some => ?_⟩
  obtain ⟨before, rest, blanks, behind, extent⟩ := possible.extent block has some
  exact ⟨before, rest, content, blanks, behind, extent⟩

/-- Of two stars in front of a slash one is text. -/
example : Family.cStyle.scan? "/* TODO: a **/ b */".toList =
    some [⟨.todo, "a *", ⟨1, 4⟩, ⟨1, 12⟩⟩] := by cbv

end Scan
end Markers

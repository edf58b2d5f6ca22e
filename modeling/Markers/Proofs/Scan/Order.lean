import Markers.Proofs.Scan.Run
import Markers.Session

/-!
# Markers stand in the order of the text

The span of a marker lies behind the start of its match and ends where scanning goes on, or before
(`Step.Possible.exists_span`). So the markers of a run come from left to right, and each ends before
the next one begins (`Run.pairwise_markers`); `scanText_ordered` says so of the findings of a file.
-/

namespace Markers.Scan
open Text PositionIndex Position

/-- The content of a reading ends where scanning goes on, or before. -/
theorem content_le_resume {family : Family} {text : List Char} {m : Match} {reading : Reading}
    (read : reading? family text m = some (some reading)) :
    reading.contentStart + byteLength reading.content ≤ resume m := by
  have plain : (plainReading m).contentStart + byteLength (plainReading m).content ≤ resume m := by
    unfold plainReading Match.content? resume Match.stop
    cases body : m.shape.body with
    | content separator content closer =>
      simp only [Body.chars, byteLength_append]
      omega
    | tail | absent => simp
  unfold reading? at read
  split at read
  · cases read
    exact plain
  · obtain ⟨whole, _, read⟩ := Option.bind_eq_some_iff.1 read
    split at read
    · cases read
      exact plain
    · split at read
      · simp at read
      · obtain ⟨word, found, same⟩ := Option.map_eq_some_iff.1 read
        cases same
        obtain ⟨piece, sliced, rfl⟩ := Option.map_eq_some_iff.1 found
        rw [byteLength_of_slice? sliced]
        unfold Match.content? resume Match.stop
        cases body : m.shape.body with
        | content separator content closer =>
          simp only [Body.chars, byteLength_append]
          omega
        | tail | absent => simp

/-- What is kept of the content ends where scanning goes on, or before. -/
theorem kept_le_next {family : Family} {form : CommentForm} {text : List Char} {m : Match}
    {reading : Reading} {kept : List Char} (read : reading? family text m = some (some reading))
    (cut : reading.kept? form = some kept) :
    reading.contentStart + byteLength kept ≤ reading.next form (resume m) := by
  unfold Reading.kept? at cut
  unfold Reading.next
  cases stop : form.stopIn reading.content with
  | none =>
    rw [stop] at cut
    cases cut
    exact content_le_resume read
  | some n =>
    rw [stop] at cut
    have taken : byteLength kept = n := byteLength_of_takeBytes? cut
    simp only [taken]
    omega

/-- The span of a marker lies between the start of its match and where scanning goes on. -/
theorem Step.Possible.exists_span {family : Family} {text : List Char} {step : Step}
    {marker : Marker} (h : step.Possible family text) (some : step.outcome.marker = some marker) :
    ∃ before c span behind, text = before ++ c :: span ++ behind ∧ c ≠ '\n' ∧
      marker.start = (origin.after before).advance c ∧
      marker.stop = origin.after (before ++ c :: span) ∧
      step.candidate.place.start < byteLength before ∧
      byteLength (before ++ c :: span) ≤ step.outcome.cursor := by
  obtain ⟨reading, kept, before, separator, behind, marked⟩ := h.exists_marked some
  obtain ⟨c, span, same, sameLine, start, stop⟩ := marked.spans.first
  have split := marked.spans.split
  have closes := marked.spans.closes
  rw [same] at split closes
  refine ⟨before, c, span, behind, split, sameLine, start, stop, ?_, ?_⟩
  · rw [marked.spans.opens]
    split
    · exact start_lt_of_reading? marked.read
    · exact step.candidate.place.start_lt_keywordStart
  · have within := kept_le_next marked.read marked.cut
    have short := byteLength_trimEnd_le kept
    rw [marked.goesOn]
    omega

namespace Run
variable {family : Family} {text : List Char} {cursor : Nat} {steps : List Step}

/-- The markers of a run stand behind all that lies before its cursor. -/
theorem lt_start_of_mem (run : Run family text cursor steps) {a b : List Char}
    (split : text = a ++ b) (passed : byteLength a ≤ cursor) {marker : Marker}
    (mem : marker ∈ markers steps) : origin.after a < marker.start := by
  induction run with
  | done => simp [markers] at mem
  | @step cursor c o steps next accepted rest ih =>
    have possible : Step.Possible family text ⟨c, o⟩ := ⟨next.form_mem, next.found, accepted⟩
    have ahead := next.ahead
    have forward := start_lt_of_accept? accepted
    rcases List.mem_append.1 mem with mem | mem
    · obtain ⟨before, d, span, behind, split', _, start, _, opens, _⟩ :=
        possible.exists_span (Option.mem_toList.1 mem)
      simp only at opens
      rw [split, List.append_assoc] at split'
      obtain ⟨x, rfl, _⟩ := append_of_le split' (by omega)
      rw [start, after_append]
      exact lt_of_le_of_lt (le_after _ x) (lt_advance _ d)
    · exact ih (by omega) mem

/-- The markers of a run come from left to right, and none overlaps the next one. -/
theorem pairwise_markers (run : Run family text cursor steps) :
    (markers steps).Pairwise fun a b => a.stop < b.start := by
  induction run with
  | done => exact .nil
  | @step cursor c o steps next accepted rest ih =>
    have possible : Step.Possible family text ⟨c, o⟩ := ⟨next.form_mem, next.found, accepted⟩
    apply List.pairwise_append.2
    refine ⟨?_, ih, ?_⟩
    · show o.marker.toList.Pairwise _
      cases o.marker with
      | none => exact .nil
      | some marker => exact List.pairwise_singleton _ marker
    · intro a first b later
      obtain ⟨before, d, span, behind, split, _, _, stop, _, closes⟩ :=
        possible.exists_span (Option.mem_toList.1 first)
      rw [stop]
      exact rest.lt_start_of_mem split closes later

/-- No marker ends before it starts. -/
theorem start_le_stop (run : Run family text cursor steps) {marker : Marker}
    (mem : marker ∈ markers steps) : marker.start ≤ marker.stop := by
  obtain ⟨step, taken, found⟩ := List.mem_flatMap.1 mem
  obtain ⟨before, c, span, _, _, _, start, stop, _, _⟩ :=
    (run.possible_of_mem taken).exists_span (Option.mem_toList.1 found)
  rw [start, stop, after_append, after_cons]
  exact le_after _ span

end Run
end Markers.Scan

namespace Markers
open Scan Position

/-- The findings of a file come in the order of its text: each ends before the next one starts, so
their starts increase. -/
theorem scanText_ordered {path : Path} {family : Family} (known : Family.ofPath? path = some family)
    (text : String) :
    ∃ findings, scanText path text = .ok ⟨path, findings⟩ ∧
      (∀ a ∈ findings, (compare a.start a.stop).isLE) ∧
      (findings.Pairwise fun a b => compare a.stop b.start = .lt) ∧
      findings.Pairwise fun a b => compare a.start b.start = .lt := by
  obtain ⟨steps, run, found⟩ := exists_scan? family text.toList
  have inside : ∀ m ∈ markers steps, m.start ≤ m.stop := fun m mem => run.start_le_stop mem
  refine ⟨(markers steps).map (Finding.ofMarker path), scanText_of_scan? known found, ?_, ?_, ?_⟩
  · intro a mem
    obtain ⟨m, taken, rfl⟩ := List.mem_map.1 mem
    exact isLE_compare_iff.2 (inside m taken)
  · apply List.pairwise_map.2
    apply run.pairwise_markers.imp
    intro a b apart
    exact compare_eq_lt_iff.2 apart
  · apply List.pairwise_map.2
    apply run.pairwise_markers.imp_of_mem
    intro a b first _ apart
    exact compare_eq_lt_iff.2 (lt_of_le_of_lt (inside a first) apart)

theorem scanText_ordered_sql :
    Family.ofPath? ⟨"a.sql"⟩ = some .sql ∧
      ∃ findings, scanText ⟨"a.sql"⟩ "-- TODO -- BUG: x /* NOTE\n*/ /* KILL: é\n b */" =
          .ok ⟨⟨"a.sql"⟩, findings⟩ ∧
        (∀ a ∈ findings, (compare a.start a.stop).isLE) ∧
        (findings.Pairwise fun a b => compare a.stop b.start = .lt) ∧
        findings.Pairwise fun a b => compare a.start b.start = .lt :=
  have known : Family.ofPath? ⟨"a.sql"⟩ = some .sql := by decide
  ⟨known, scanText_ordered known "-- TODO -- BUG: x /* NOTE\n*/ /* KILL: é\n b */"⟩

end Markers

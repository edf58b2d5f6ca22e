import Markers.Proofs.Scan.Boundary

/-!
# Scanning moves forward

Where `accept?` sets the cursor differs from match to match, but whether or not there is a marker,
it is behind the start of the match and not behind the end of the text (`start_lt_of_accept?` and
`Step.Possible.cursor_le_byteLength`). So a run leaves at least one byte behind at every step
(`Run.advances`), and a text has at least as many bytes as its run has steps (`scan?_advances`).
-/

namespace Markers.Scan
open Text PositionIndex

/-- Steps from a cursor on, each of which takes a match at or behind the cursor and sets the cursor
behind the start of that match, but not behind `limit`. -/
inductive Advances (limit : Nat) : Nat → List Step → Prop where
  | done {cursor : Nat} : Advances limit cursor []
  | step {cursor : Nat} {step : Step} {steps : List Step}
      (ahead : cursor ≤ step.candidate.place.start)
      (forward : step.candidate.place.start < step.outcome.cursor)
      (inside : step.outcome.cursor ≤ limit)
      (rest : Advances limit step.outcome.cursor steps) : Advances limit cursor (step :: steps)

/-- There are not more steps than bytes between the cursor and the limit: each one pays a byte. -/
theorem Advances.length_le {limit cursor : Nat} {steps : List Step}
    (h : Advances limit cursor steps) (inside : cursor ≤ limit) :
    cursor + steps.length ≤ limit := by
  induction h with
  | done => exact inside
  | step ahead forward inside' _ ih =>
    have behind := ih inside'
    rw [List.length_cons]
    omega

/-- Any match of the family moves the cursor forward, but not out of the text. -/
theorem exists_accept?_forward {family : Family} {form : CommentForm} {text : List Char} {m : Match}
    (mem : form ∈ family.forms) (found : form.Matches text m) :
    ∃ o, accept? family (ofText text) form m = some o ∧ m.start < o.cursor ∧
      o.cursor ≤ byteLength text := by
  obtain ⟨o, accepted, _⟩ := accept?_spec mem found
  have possible : Step.Possible family text ⟨⟨form, m⟩, o⟩ := ⟨mem, found, accepted⟩
  exact ⟨o, accepted, start_lt_of_accept? accepted, possible.cursor_le_byteLength⟩

theorem Run.advances {family : Family} {text : List Char} {cursor : Nat} {steps : List Step}
    (run : Run family text cursor steps) : Advances (byteLength text) cursor steps := by
  induction run with
  | done => exact .done
  | step next accepted _ ih =>
    obtain ⟨o, accepted', forward, inside⟩ := exists_accept?_forward next.form_mem next.found
    cases accepted.symm.trans accepted'
    exact .step next.ahead forward inside ih

/-- Every match moves the cursor forward inside the text, whether there is a marker or not. The one
run of the scanner therefore moves forward at every step, ends, and has at most as many steps as the
text has bytes. -/
theorem scan?_advances (family : Family) (text : List Char) :
    (∀ form ∈ family.forms, ∀ m, form.Matches text m →
      ∃ o, accept? family (ofText text) form m = some o ∧ m.start < o.cursor ∧
        o.cursor ≤ byteLength text) ∧
    ∃ steps, (∀ steps', Pending.Run family text 0 (Pending.start family text) steps' ↔
        steps' = steps) ∧
      family.scan? text = some (markers steps) ∧
      Advances (byteLength text) 0 steps ∧ steps.length ≤ byteLength text := by
  refine ⟨fun form mem m found => exists_accept?_forward mem found, ?_⟩
  obtain ⟨steps, run, found⟩ := exists_scan? family text
  have advances := run.advances
  refine ⟨steps, fun steps' => ?_, found, advances, ?_⟩
  · rw [Pending.run_start_iff]
    exact run.iff_eq
  · have paid := advances.length_le (Nat.zero_le _)
    rwa [Nat.zero_add] at paid

end Markers.Scan

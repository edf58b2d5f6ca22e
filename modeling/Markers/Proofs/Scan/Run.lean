import Markers.Proofs.Scan.Outcome
import Markers.Scan.Pending

/-!
# Runs of the scanner

`Run` is the plain scanner step by step: from a cursor it takes the leftmost match of any form and
goes on where that match leaves the cursor. Every text has a run, and only one (`exists_run`,
`Run.unique`), and its markers are those of `Family.scanAfresh?`. What a step with a marker does is
gathered in `Step.Marked`. The scanner that keeps matches found ahead takes the same steps
(`Pending.run_start_iff`) and finds the same markers (`scan?_plain`).
-/

namespace Markers.Scan
open Text PositionIndex

/-- A match that was taken, and what became of it. -/
structure Step where
  candidate : Candidate
  outcome : Outcome

/-- A match of the family anywhere in the text, with what becomes of it. -/
structure Step.Possible (family : Family) (text : List Char) (step : Step) : Prop where
  form_mem : step.candidate.form ∈ family.forms
  found : step.candidate.form.Matches text step.candidate.place
  accepted : accept? family (ofText text) step.candidate.form step.candidate.place =
    some step.outcome

/-- A step has a marker: its text is what is kept of a reading, without the blanks at the end, it
spans what was read, and scanning goes on behind the content or at its cut. -/
structure Step.Marked (family : Family) (text : List Char) (step : Step) (marker : Marker)
    (reading : Reading) (kept before separator behind : List Char) : Prop where
  read : reading? family text step.candidate.place = some (some reading)
  placed : reading.Placed family step.candidate.form text step.candidate.place
  cut : reading.kept? step.candidate.form = some kept
  solid : reading.keyword ≠ [] ∨ trimEnd kept ≠ []
  named : reading.kind? family = some marker.kind
  body : marker.text.toList = trimEnd kept
  spans : Spans step.candidate.form text step.candidate.place reading (trimEnd kept) marker before
    separator behind
  goesOn : step.outcome.cursor =
    reading.next step.candidate.form (resume step.candidate.place)

/-- The plain scanner from a cursor on: until no form has a match at or behind the cursor, it takes
the leftmost one and goes on at the cursor that this match leaves. -/
inductive Run (family : Family) (text : List Char) : Nat → List Step → Prop where
  | done {cursor : Nat}
      (none : ∀ form ∈ family.forms, ∀ m, form.Matches text m → m.start < cursor) :
      Run family text cursor []
  | step {cursor : Nat} {c : Candidate} {o : Outcome} {steps : List Step}
      (next : Leftmost family text cursor c)
      (accepted : accept? family (ofText text) c.form c.place = some o)
      (rest : Run family text o.cursor steps) : Run family text cursor (⟨c, o⟩ :: steps)

/-- The markers of the steps of a run. -/
def markers (steps : List Step) : List Marker :=
  steps.flatMap fun step => step.outcome.marker.toList

namespace Run
variable {family : Family} {text : List Char} {cursor : Nat} {steps steps' : List Step}

/-- The scanner makes one run from a cursor. -/
theorem unique (run : Run family text cursor steps) (run' : Run family text cursor steps') :
    steps = steps' := by
  induction run generalizing steps' with
  | done none =>
    cases run' with
    | done => rfl
    | step next _ _ =>
      have early := none _ next.form_mem _ next.found
      have ahead := next.ahead
      omega
  | step next accepted _ ih =>
    cases run' with
    | done none =>
      have early := none _ next.form_mem _ next.found
      have ahead := next.ahead
      omega
    | step next' accepted' rest' =>
      cases next.unique next'
      cases accepted.symm.trans accepted'
      rw [ih rest']

theorem iff_eq (run : Run family text cursor steps) :
    Run family text cursor steps' ↔ steps' = steps := by
  constructor
  · intro run'
    exact run'.unique run
  · rintro rfl
    exact run

/-- Every step of a run takes a match of the family. -/
theorem possible_of_mem (run : Run family text cursor steps) {step : Step} (mem : step ∈ steps) :
    step.Possible family text := by
  induction run with
  | done => simp at mem
  | step next accepted _ ih =>
    rcases List.mem_cons.1 mem with rfl | mem
    · exact ⟨next.form_mem, next.found, accepted⟩
    · exact ih mem

/-- Every step of a run takes a match at its cursor or behind it. -/
theorem le_start_of_mem (run : Run family text cursor steps) {step : Step} (mem : step ∈ steps) :
    cursor ≤ step.candidate.place.start := by
  induction run with
  | done => simp at mem
  | @step cursor c o steps next accepted _ ih =>
    have ahead := next.ahead
    have forward := start_lt_of_accept? accepted
    rcases List.mem_cons.1 mem with rfl | mem
    · exact ahead
    · have behind := ih mem
      omega

/-- Of two steps of a run one comes first, and the other takes its match where that one left the
cursor, or behind. -/
theorem le_start_or_le_start (run : Run family text cursor steps) {step step' : Step}
    (mem : step ∈ steps) (mem' : step' ∈ steps) (other : step ≠ step') :
    step.outcome.cursor ≤ step'.candidate.place.start ∨
      step'.outcome.cursor ≤ step.candidate.place.start := by
  induction run with
  | done => simp at mem
  | step _ _ rest ih =>
    rcases List.mem_cons.1 mem with rfl | mem
    · rcases List.mem_cons.1 mem' with rfl | mem'
      · contradiction
      · exact .inl (rest.le_start_of_mem mem')
    · rcases List.mem_cons.1 mem' with rfl | mem'
      · exact .inr (rest.le_start_of_mem mem)
      · exact ih mem mem'

end Run

namespace Step.Possible
variable {family : Family} {text : List Char} {step step' : Step}

theorem judged (h : step.Possible family text) :
    Judged family step.candidate.form text step.candidate.place step.outcome := by
  obtain ⟨o, accepted, judged⟩ := accept?_spec h.form_mem h.found
  cases h.accepted.symm.trans accepted
  exact judged

/-- What a marker was read from, where it stands, and where scanning goes on behind it. -/
theorem exists_marked (h : step.Possible family text) {marker : Marker}
    (some : step.outcome.marker = some marker) :
    ∃ reading kept before separator behind,
      step.Marked family text marker reading kept before separator behind := by
  obtain ⟨c, o⟩ := step
  have judged : Judged family c.form text c.place o := h.judged
  cases judged with
  | glued | unended | blank => cases some
  | marked reading kept kind _ read placed cut solid named mark =>
    cases some
    obtain ⟨_, body⟩ := Reading.exists_body cut
    obtain ⟨marker', before, separator, behind, mark', sort, written, spans⟩ :=
      placed.exists_mark body kind solid
    cases mark.symm.trans mark'
    have toList : marker.text.toList = trimEnd kept := by rw [written, String.toList_ofList]
    exact ⟨reading, kept, before, separator, behind, read, placed, cut, solid, sort ▸ named, toList,
      spans, rfl⟩

/-- A marker has a reading. -/
theorem exists_reading (h : step.Possible family text)
    (marked : step.outcome.marker.isSome = true) :
    ∃ reading, reading? family text step.candidate.place = some (some reading) := by
  obtain ⟨marker, some⟩ := Option.isSome_iff_exists.1 marked
  obtain ⟨reading, _, _, _, _, marked⟩ := h.exists_marked some
  exact ⟨reading, marked.read⟩

/-- There is one match at an offset, and one outcome of it. -/
theorem unique (h : step.Possible family text) (h' : step'.Possible family text)
    (same : step.candidate.place.start = step'.candidate.place.start) : step = step' := by
  have form := form_unique h.form_mem h'.form_mem h.found h'.found same
  have accepted := h.accepted
  have accepted' := h'.accepted
  have found := h.found
  have found' := h'.found
  obtain ⟨⟨form₁, m⟩, o⟩ := step
  obtain ⟨⟨form₂, m'⟩, o'⟩ := step'
  cases form
  cases found.unique found' same
  cases accepted.symm.trans accepted'
  rfl

end Step.Possible

/-- The plain scanner comes to an end from every cursor, and its markers are those of the run. -/
theorem exists_run (family : Family) (text : List Char) (cursor : Nat) :
    ∃ steps, Run family text cursor steps ∧
      from? family (ofText text) cursor = some (markers steps) := by
  fun_induction from? family (ofText text) cursor with
  | case1 cursor next =>
    exact ⟨[], .done (nextMatch_eq_none_iff.1 next), rfl⟩
  | case2 cursor c next failed =>
    have left : Leftmost family text cursor c := nextMatch_eq_some_iff.1 next
    obtain ⟨o, accepted, _⟩ := accept?_spec left.form_mem left.found
    rw [accepted] at failed
    simp at failed
  | case3 cursor c next o accepted _ _ ih =>
    obtain ⟨steps, run, found⟩ := ih
    refine ⟨⟨c, o⟩ :: steps, .step (nextMatch_eq_some_iff.1 next) accepted run, ?_⟩
    rw [found]
    rfl

theorem Pending.forms_start (family : Family) (text : List Char) :
    (Pending.start family text).map (·.1) = family.forms := by
  rw [Pending.start, List.map_map]
  exact List.map_id _

/-- Nothing is known before the first search. -/
theorem Pending.holds_start (family : Family) (text : List Char) :
    ∀ slot ∈ Pending.start family text, Pending.Holds 0 slot := by
  intro slot mem
  obtain ⟨form, _, rfl⟩ := List.mem_map.1 mem
  trivial

/-- Keeping matches found ahead does not change the markers. -/
theorem scan?_eq_scanAfresh? (family : Family) (text : List Char) :
    family.scan? text = family.scanAfresh? text :=
  Pending.from?_eq 0 _ (Pending.forms_start family text) (Pending.holds_start family text)

/-- Every text has a run, whose markers the scanner finds. -/
theorem exists_scan? (family : Family) (text : List Char) :
    ∃ steps, Run family text 0 steps ∧ family.scan? text = some (markers steps) := by
  rw [scan?_eq_scanAfresh?]
  exact exists_run family text 0

/-! ## Matches kept -/

namespace Pending

/-- The scanner that keeps matches, from a cursor on: it brings its forms up to date with the cursor,
takes the leftmost match that it knows, forgets it, and goes on at the cursor that it leaves. -/
inductive Run (family : Family) (text : List Char) : Nat → List (Slot text) → List Step → Prop where
  | done {cursor : Nat} {slots : List (Slot text)}
      (none : leftmost (refreshAll cursor slots) = none) : Run family text cursor slots []
  | step {cursor : Nat} {slots : List (Slot text)} {c : Candidate} {o : Outcome} {steps : List Step}
      (next : leftmost (refreshAll cursor slots) = some c)
      (accepted : accept? family (ofText text) c.form c.place = some o)
      (rest : Run family text o.cursor (release c.form (refreshAll cursor slots)) steps) :
      Run family text cursor slots (⟨c, o⟩ :: steps)

/-- As long as what it keeps comes from searches, the scanner that keeps matches takes the steps of
the plain one. -/
theorem run_iff {family : Family} {text : List Char} {cursor : Nat} {slots : List (Slot text)}
    {steps : List Step} (forms : slots.map (·.1) = family.forms)
    (holds : ∀ slot ∈ slots, Holds cursor slot) :
    Run family text cursor slots steps ↔ Scan.Run family text cursor steps := by
  have passed : ∀ {cursor c o}, Leftmost family text cursor c →
      accept? family (ofText text) c.form c.place = some o → cursor ≤ o.cursor := by
    intro cursor c o left accepted
    exact Nat.le_trans left.ahead (Nat.le_of_lt (start_lt_of_accept? accepted))
  constructor
  · intro run
    induction run with
    | done none =>
      rw [leftmost_refreshAll forms holds] at none
      exact .done (nextMatch_eq_none_iff.1 none)
    | step next accepted _ ih =>
      rw [leftmost_refreshAll forms holds, nextMatch_eq_some_iff] at next
      refine .step next accepted (ih ?_ (holds_release_refreshAll (passed next accepted) holds))
      rw [forms_release_refreshAll, forms]
  · intro run
    induction run generalizing slots with
    | done none =>
      refine .done ?_
      rw [leftmost_refreshAll forms holds]
      exact nextMatch_eq_none_iff.2 none
    | step left accepted _ ih =>
      refine .step ?_ accepted (ih ?_ (holds_release_refreshAll (passed left accepted) holds))
      · rw [leftmost_refreshAll forms holds]
        exact nextMatch_eq_some_iff.2 left
      · rw [forms_release_refreshAll, forms]

/-- From the start of a text both scanners take the same steps. -/
theorem run_start_iff {family : Family} {text : List Char} {steps : List Step} :
    Run family text 0 (start family text) steps ↔ Scan.Run family text 0 steps :=
  run_iff (forms_start family text) (holds_start family text)

end Pending

/-! ## Runs as results -/

/-- A run goes on with the match that a search finds. -/
theorem Run.of_nextMatch {family : Family} {text : List Char} {cursor : Nat}
    {c : Candidate} {o : Outcome} {steps : List Step}
    (next : nextMatch family text cursor = some c)
    (accepted : accept? family (ofText text) c.form c.place = some o)
    (rest : Run family text o.cursor steps) : Run family text cursor (⟨c, o⟩ :: steps) :=
  .step (nextMatch_eq_some_iff.1 next) accepted rest

/-- The scanner finds the markers of a run from the start of the text. -/
theorem Run.scan?_eq {family : Family} {text : List Char} {steps : List Step}
    (run : Run family text 0 steps) : family.scan? text = some (markers steps) := by
  obtain ⟨steps', run', found⟩ := exists_scan? family text
  rw [found, run'.unique run]

/-- The scanner that keeps matches found ahead is the plain one: there is exactly one plain run
from the start of a text, and both find its markers. -/
theorem scan?_plain (family : Family) (text : List Char) :
    ∃ steps, (∀ steps', Run family text 0 steps' ↔ steps' = steps) ∧
      family.scan? text = some (markers steps) ∧
      family.scanAfresh? text = some (markers steps) := by
  obtain ⟨steps, run, found⟩ := exists_scan? family text
  refine ⟨steps, fun steps' => run.iff_eq, found, ?_⟩
  rw [← scan?_eq_scanAfresh?, found]

/-! ## Two texts -/

/-- Two texts are scanned alike from related cursors on: where a match is taken in the first one, a
match is taken in the second one that makes the marker which `f` gives, and the cursors behind both
are related; where nothing is left in the first one, nothing is left in the second one. -/
structure Simulation (family : Family) (text text' : List Char) (f : Marker → Marker)
    (Related : Nat → Nat → Prop) : Prop where
  step : ∀ {cursor cursor' : Nat} {c : Candidate} {o : Outcome}, Related cursor cursor' →
    Leftmost family text cursor c → accept? family (ofText text) c.form c.place = some o →
    ∃ c' o', Leftmost family text' cursor' c' ∧
      accept? family (ofText text') c'.form c'.place = some o' ∧
      o'.marker = o.marker.map f ∧ Related o.cursor o'.cursor
  done : ∀ {cursor cursor' : Nat}, Related cursor cursor' →
    (∀ form ∈ family.forms, ∀ m, form.Matches text m → m.start < cursor) →
    ∀ form ∈ family.forms, ∀ m, form.Matches text' m → m.start < cursor'

/-- Two texts have the same matches in the same order: each match of one text makes a pair with one
of the other text. -/
structure Paired (family : Family) (text text' : List Char)
    (Pair : CommentForm → Match → Match → Prop) : Prop where
  found : ∀ {form : CommentForm} {m m' : Match}, Pair form m m' →
    form.Matches text m ∧ form.Matches text' m'
  right : ∀ {form : CommentForm} {m : Match}, form ∈ family.forms → form.Matches text m →
    ∃ m', Pair form m m'
  left : ∀ {form : CommentForm} {m' : Match}, form ∈ family.forms → form.Matches text' m' →
    ∃ m, Pair form m m'
  lt : ∀ {form form₁ : CommentForm} {m m' m₁ m₁' : Match}, Pair form m m' → Pair form₁ m₁ m₁' →
    (m.start < m₁.start ↔ m'.start < m₁'.start)

namespace Paired
variable {family : Family} {text text' : List Char} {Pair : CommentForm → Match → Match → Prop}

/-- The match that is taken next makes a pair with the one that is taken next in the other text,
from cursors that have the same matches in front of them. -/
theorem leftmost (paired : Paired family text text' Pair) {cursor cursor' : Nat} {c : Candidate}
    (sides : ∀ {form : CommentForm} {m m' : Match}, Pair form m m' →
      (m.start < cursor ↔ m'.start < cursor'))
    (next : Leftmost family text cursor c) :
    ∃ m', Pair c.form c.place m' ∧ Leftmost family text' cursor' ⟨c.form, m'⟩ := by
  obtain ⟨m', pair⟩ := paired.right next.form_mem next.found
  have ahead : cursor' ≤ m'.start := by
    have ahead := next.ahead
    have early := sides pair
    omega
  obtain ⟨earlier, later, forms, first, least⟩ := next.order
  refine ⟨m', pair, (paired.found pair).2, ahead, earlier, later, forms, ?_, ?_⟩
  · intro form mem m₁' found' ahead'
    obtain ⟨m₁, pair₁⟩ := paired.left (forms ▸ List.mem_append_left _ mem) found'
    have early := sides pair₁
    exact (paired.lt pair pair₁).1 (first form mem m₁ (paired.found pair₁).1 (by omega))
  · intro form mem m₁' found' ahead'
    obtain ⟨m₁, pair₁⟩ := paired.left (forms ▸ List.mem_append_right _ mem) found'
    have early := sides pair₁
    have le := least form mem m₁ (paired.found pair₁).1 (by omega)
    have order := paired.lt pair₁ pair
    simp only
    omega

/-- Texts whose matches make pairs are scanned alike if both matches of a pair are accepted
alike. -/
theorem simulation {f : Marker → Marker} {Related : Nat → Nat → Prop}
    (paired : Paired family text text' Pair)
    (sides : ∀ {cursor cursor' : Nat} {form : CommentForm} {m m' : Match},
      Related cursor cursor' → Pair form m m' → (m.start < cursor ↔ m'.start < cursor'))
    (accepts : ∀ {form : CommentForm} {m m' : Match} {o : Outcome}, form ∈ family.forms →
      Pair form m m' → accept? family (ofText text) form m = some o →
      ∃ o', accept? family (ofText text') form m' = some o' ∧ o'.marker = o.marker.map f ∧
        Related o.cursor o'.cursor) : Simulation family text text' f Related where
  step := by
    intro cursor cursor' c o related next accepted
    obtain ⟨m', pair, next'⟩ := paired.leftmost (sides related) next
    obtain ⟨o', accepted', marker, behind⟩ := accepts next.form_mem pair accepted
    exact ⟨_, o', next', accepted', marker, behind⟩
  done := by
    intro cursor cursor' related early form mem m' found'
    obtain ⟨m, pair⟩ := paired.left mem found'
    exact (sides related pair).1 (early form mem m (paired.found pair).1)

end Paired

namespace Simulation
variable {family : Family} {text text' : List Char} {f : Marker → Marker}
  {Related : Nat → Nat → Prop}

/-- A run of the first text has one of the second text beside it. -/
theorem exists_run (sim : Simulation family text text' f Related) {cursor cursor' : Nat}
    {steps : List Step} (related : Related cursor cursor') (run : Run family text cursor steps) :
    ∃ steps', Run family text' cursor' steps' ∧ markers steps' = (markers steps).map f := by
  induction run generalizing cursor' with
  | done none => exact ⟨[], .done (sim.done related none), rfl⟩
  | @step cursor c o steps next accepted _ ih =>
    obtain ⟨c', o', next', accepted', marker, behind⟩ := sim.step related next accepted
    obtain ⟨steps', run', same⟩ := ih behind
    refine ⟨⟨c', o'⟩ :: steps', .step next' accepted' run', ?_⟩
    show o'.marker.toList ++ markers steps' = (o.marker.toList ++ markers steps).map f
    rw [marker, same, List.map_append]
    cases o.marker <;> rfl

/-- The scanner finds in the second text what `f` gives for the first one. -/
theorem scan?_eq (sim : Simulation family text text' f Related) (start : Related 0 0) :
    ∃ found, family.scan? text = some found ∧ family.scan? text' = some (found.map f) := by
  obtain ⟨steps, run, found⟩ := exists_scan? family text
  obtain ⟨steps', run', same⟩ := sim.exists_run start run
  exact ⟨markers steps, found, by rw [run'.scan?_eq, same]⟩

end Simulation
end Markers.Scan

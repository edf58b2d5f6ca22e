import Markers.Family
import Markers.Marker

/-!
# Scanning a text for markers

`from?` goes through a text with a cursor. At every step `nextMatch` takes the leftmost match of any
form at or behind the cursor, the earlier form on a tie, and `accept?` turns it into a marker or
drops it, moving the cursor past its start either way (`start_lt_of_accept?`). All offsets that
`accept?` uses go through partial operations on the text, so `from?` is defined exactly when each of
them is a character boundary of the text.
-/

namespace Markers.Scan
open Text

/-- The first match of a form at or behind `cursor`. `before` is the character in front of the
text, and `offset` is where the text stands. -/
def search (form : CommentForm) (cursor : Nat) (before : Option Char) (offset : Nat) :
    List Char → Option Match
  | [] => none
  | c :: s =>
    if offset < cursor then search form cursor (some c) (offset + c.utf8Size) s
    else
      match form.matchAt? (before.getD '\n' == '\n') (c :: s) with
      | some shape => some ⟨offset, shape⟩
      | none => search form cursor (some c) (offset + c.utf8Size) s

theorem search_bounds {form : CommentForm} {cursor : Nat} {m : Match} (text : List Char) :
    ∀ {before : Option Char} {offset : Nat}, search form cursor before offset text = some m →
      cursor ≤ m.start ∧ m.start < offset + byteLength text := by
  induction text with
  | nil => simp [search]
  | cons c s ih =>
    intro before offset h
    have size := c.utf8Size_pos
    rw [search] at h
    split at h
    · have := ih h
      simp only [byteLength_cons]
      omega
    · split at h
      · cases h
        simp only [byteLength_cons]
        omega
      · have := ih h
        simp only [byteLength_cons]
        omega

/-- The first match of a form at or behind `cursor` in a whole text. -/
def searchFrom (form : CommentForm) (text : List Char) (cursor : Nat) : Option Match :=
  search form cursor none 0 text

/-- A match together with its form. -/
structure Candidate where
  form : CommentForm
  place : Match

/-- The candidate further to the left; the first one on a tie. -/
def Candidate.leftmost : Option Candidate → Option Candidate → Option Candidate
  | some a, some b => if b.place.start < a.place.start then some b else some a
  | some a, none => some a
  | none, b => b

/-- The leftmost match of any form at or behind `cursor`. -/
def nextMatch (family : Family) (text : List Char) (cursor : Nat) : Option Candidate :=
  (family.forms.map fun form => (searchFrom form text cursor).map (Candidate.mk form)).foldl
    Candidate.leftmost none

/-- Where scanning goes on, and the marker found. -/
structure Outcome where
  cursor : Nat
  marker : Option Marker

/-- What a match says once a keyword glued to a word is undone. The keyword is empty when the
marker has none. -/
structure Reading where
  keyword : List Char
  contentStart : Nat
  content : List Char

/-- A keyword with the content of its match, or with an empty one behind it. -/
def plainReading (m : Match) : Reading :=
  match m.content? with
  | some (start, content) => ⟨m.shape.keyword, start, content⟩
  | none => ⟨m.shape.keyword, m.keywordEnd, []⟩

/-- The whole word that a glued keyword starts, and what follows it, as content. -/
def wordReading? (text : List Char) (m : Match) : Option Reading :=
  let stop := match m.content? with
    | some (start, content) => start + byteLength content
    | none => m.keywordEnd
  (slice? text m.keywordStart stop).map (Reading.mk [] m.keywordStart)

/-- The reading of a match. A keyword that a letter follows is none: with a default kind it is the
start of the body, without one there is no marker. -/
def reading? (family : Family) (text : List Char) (m : Match) : Option (Option Reading) :=
  if m.shape.keyword = [] then some (some (plainReading m))
  else
    (Keyword.endsAt? text m.keywordEnd).bind fun whole =>
      if whole then some (some (plainReading m))
      else if family.defaultKind?.isNone then some none
      else (wordReading? text m).map some

namespace Reading

/-- The kind that the keyword names, or the default kind. -/
def kind? (family : Family) (reading : Reading) : Option Kind :=
  if reading.keyword = [] then family.defaultKind? else Kind.ofToken? reading.keyword

/-- The content up to the first stop in it. -/
def kept? (form : CommentForm) (reading : Reading) : Option (List Char) :=
  match form.stopIn reading.content with
  | none => some reading.content
  | some stop => takeBytes? reading.content stop

/-- Where scanning goes on: at the first stop in the content, or else at `cursor`. -/
def next (form : CommentForm) (cursor : Nat) (reading : Reading) : Nat :=
  match form.stopIn reading.content with
  | none => cursor
  | some stop => reading.contentStart + stop

end Reading

/-- Whether a keyword without a colon ends where the rest of its line begins: only blanks follow,
or another marker does. -/
def tailEnds (form : CommentForm) (tail : List Char) : Bool :=
  trimEnd (trimStart tail) = [] || form.stopIn (trimStart tail) == some 0

/-- The marker of a reading whose body is known. -/
def mark? (index : PositionIndex) (m : Match) (reading : Reading) (kind : Kind)
    (body : List Char) : Option Marker := do
  let bare := reading.keyword = []
  let start ← index.locateChar? (if bare then reading.contentStart else m.keywordStart)
  let stop ← index.locate? <|
    if body = [] then (if bare then reading.contentStart else m.keywordEnd)
    else reading.contentStart + byteLength body
  return ⟨kind, String.ofList body, start, stop⟩

/-- The marker of a reading, where scanning goes on at `cursor` unless the content is cut. An item
with neither keyword nor body is no marker. -/
def settle? (family : Family) (index : PositionIndex) (form : CommentForm) (m : Match)
    (cursor : Nat) (reading : Reading) : Option Outcome :=
  match reading.kind? family with
  | none => some ⟨cursor, none⟩
  | some kind =>
    (reading.kept? form).bind fun kept =>
      if reading.keyword = [] ∧ trimEnd kept = [] then some ⟨reading.next form cursor, none⟩
      else
        (mark? index m reading kind (trimEnd kept)).map fun marker =>
          ⟨reading.next form cursor, some marker⟩

/-- Turn a match into a marker or drop it. Behind a keyword without a colon scanning goes on at
once, behind other matches at their end, and behind a cut body at the cut. -/
def accept? (family : Family) (index : PositionIndex) (form : CommentForm) (m : Match) :
    Option Outcome :=
  (reading? family index.text m).bind fun
    | none => some ⟨m.keywordEnd, none⟩
    | some reading =>
      match m.shape.body with
      | .tail tail =>
        if tailEnds form tail then settle? family index form m m.keywordEnd reading
        else some ⟨m.keywordEnd, none⟩
      | _ => settle? family index form m m.stop reading

theorem start_lt_contentStart_plainReading (m : Match) :
    m.start < (plainReading m).contentStart := by
  unfold plainReading
  split
  · next found => exact Match.start_lt_of_content? found
  · exact m.start_lt_keywordEnd

theorem start_lt_of_reading? {family : Family} {text : List Char} {m : Match} {reading : Reading}
    (h : reading? family text m = some (some reading)) : m.start < reading.contentStart := by
  unfold reading? at h
  split at h
  · cases h
    exact start_lt_contentStart_plainReading m
  · obtain ⟨whole, _, h⟩ := Option.bind_eq_some_iff.1 h
    split at h
    · cases h
      exact start_lt_contentStart_plainReading m
    · split at h
      · simp at h
      · obtain ⟨word, read, h⟩ := Option.map_eq_some_iff.1 h
        cases h
        obtain ⟨_, _, rfl⟩ := Option.map_eq_some_iff.1 read
        exact m.start_lt_keywordStart

theorem start_lt_next {form : CommentForm} {cursor start : Nat} {reading : Reading}
    (passed : start < cursor) (content : start < reading.contentStart) :
    start < reading.next form cursor := by
  unfold Reading.next
  split <;> omega

theorem start_lt_of_settle? {family : Family} {index : PositionIndex} {form : CommentForm}
    {m : Match} {cursor : Nat} {reading : Reading} {o : Outcome} (passed : m.start < cursor)
    (content : m.start < reading.contentStart)
    (h : settle? family index form m cursor reading = some o) : m.start < o.cursor := by
  unfold settle? at h
  split at h
  · cases h
    exact passed
  · obtain ⟨kept, _, h⟩ := Option.bind_eq_some_iff.1 h
    split at h
    · cases h
      exact start_lt_next passed content
    · obtain ⟨_, _, rfl⟩ := Option.map_eq_some_iff.1 h
      exact start_lt_next passed content

/-- Every match moves the cursor past its own start. -/
theorem start_lt_of_accept? {family : Family} {index : PositionIndex} {form : CommentForm}
    {m : Match} {o : Outcome} (h : accept? family index form m = some o) :
    m.start < o.cursor := by
  obtain ⟨reading?, read, h⟩ := Option.bind_eq_some_iff.1 h
  cases reading? with
  | none =>
    cases h
    exact m.start_lt_keywordEnd
  | some reading =>
    have content := start_lt_of_reading? read
    simp only at h
    split at h
    · split at h
      · exact start_lt_of_settle? m.start_lt_keywordEnd content h
      · cases h
        exact m.start_lt_keywordEnd
    · exact start_lt_of_settle? m.start_lt_stop content h

theorem Candidate.leftmost_eq_or (a b : Option Candidate) :
    leftmost a b = a ∨ leftmost a b = b := by
  unfold leftmost
  split
  · split <;> simp
  · simp
  · simp

theorem Candidate.foldl_leftmost_mem (found : List (Option Candidate)) :
    ∀ best, found.foldl leftmost best = best ∨ found.foldl leftmost best ∈ found := by
  induction found with
  | nil => intro best; exact .inl rfl
  | cons a found ih =>
    intro best
    rw [List.foldl_cons]
    rcases ih (leftmost best a) with h | h
    · rw [h]
      rcases leftmost_eq_or best a with h | h
      · exact .inl h
      · rw [h]
        exact .inr (List.mem_cons_self ..)
    · exact .inr (List.mem_cons_of_mem _ h)

theorem nextMatch_bounds {family : Family} {text : List Char} {cursor : Nat} {c : Candidate}
    (h : nextMatch family text cursor = some c) :
    cursor ≤ c.place.start ∧ c.place.start < byteLength text := by
  unfold nextMatch at h
  rcases Candidate.foldl_leftmost_mem _ none with best | mem
  · rw [h] at best
    simp at best
  · rw [h] at mem
    obtain ⟨form, _, mapped⟩ := List.mem_map.1 mem
    obtain ⟨m, found, rfl⟩ := Option.map_eq_some_iff.1 mapped
    have := search_bounds text found
    simp only
    omega

/-- The markers of a text from a cursor on. -/
def from? (family : Family) (index : PositionIndex) (cursor : Nat) : Option (List Marker) :=
  match next : nextMatch family index.text cursor with
  | none => some []
  | some candidate =>
    match step : accept? family index candidate.form candidate.place with
    | none => none
    | some outcome =>
      have := nextMatch_bounds next
      have := start_lt_of_accept? step
      (from? family index outcome.cursor).map (outcome.marker.toList ++ ·)
termination_by byteLength index.text - cursor

end Markers.Scan

namespace Markers

/-- The markers of a text in a file of the given family, searched for afresh at every step. -/
def Family.scanAfresh? (family : Family) (text : List Char) : Option (List Marker) :=
  Scan.from? family (PositionIndex.ofText text) 0

end Markers

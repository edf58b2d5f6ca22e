import Markers.Scan

/-!
# Scanning with matches found ahead

A search may find a match far behind the cursor, and none at all in most of a text. `Pending.from?`
keeps what the search for each form has found: a match counts until the cursor has passed its start,
and a form without a match is never searched for again. `Pending.from?_eq` says that this gives the
same markers as searching for every form afresh at every step.
-/

namespace Markers.Scan
open Text

/-- What is known about the next match of a form. -/
inductive Pending (text : List Char) where
  | unknown
  | found (m : Match) (inside : m.start < byteLength text)
  | exhausted

namespace Pending
variable {text : List Char}

/-- What a search finds. -/
def ofSearch (form : CommentForm) (text : List Char) (cursor : Nat) : Pending text :=
  match h : searchFrom form text cursor with
  | some m => found m (by have := (search_bounds text h).2; omega)
  | none => exhausted

/-- Search again if nothing is known, or if the match starts before the cursor. -/
def refresh (form : CommentForm) (cursor : Nat) : Pending text → Pending text
  | unknown => ofSearch form text cursor
  | found m inside => if m.start < cursor then ofSearch form text cursor else found m inside
  | exhausted => exhausted

/-- The match that was found. -/
def match? : Pending text → Option Match
  | found m _ => some m
  | _ => none

/-- A form with what is known about its next match. -/
abbrev Slot (text : List Char) :=
  CommentForm × Pending text

/-- Bring all forms up to date with the cursor. -/
def refreshAll (cursor : Nat) (slots : List (Slot text)) : List (Slot text) :=
  slots.map fun slot => (slot.1, slot.2.refresh slot.1 cursor)

/-- The leftmost match that was found. -/
def leftmost (slots : List (Slot text)) : Option Candidate :=
  (slots.map fun slot => slot.2.match?.map (Candidate.mk slot.1)).foldl Candidate.leftmost none

/-- Forget the match of a form. -/
def release (form : CommentForm) (slots : List (Slot text)) : List (Slot text) :=
  slots.map fun slot => if slot.1 = form then (slot.1, unknown) else slot

theorem match?_ofSearch (form : CommentForm) (cursor : Nat) :
    (ofSearch form text cursor).match? = searchFrom form text cursor := by
  unfold ofSearch
  split <;> simp_all [match?]

theorem match?_refresh_bounds {form : CommentForm} {cursor : Nat} {pending : Pending text}
    {m : Match} (h : (pending.refresh form cursor).match? = some m) :
    cursor ≤ m.start ∧ m.start < byteLength text := by
  unfold refresh at h
  split at h
  · rw [match?_ofSearch] at h
    have := search_bounds text h
    omega
  · split at h
    · rw [match?_ofSearch] at h
      have := search_bounds text h
      omega
    · cases h
      omega
  · simp [match?] at h

theorem leftmost_bounds {cursor : Nat} {slots : List (Slot text)} {c : Candidate}
    (h : leftmost (refreshAll cursor slots) = some c) :
    cursor ≤ c.place.start ∧ c.place.start < byteLength text := by
  unfold leftmost at h
  rcases Candidate.foldl_leftmost_mem _ none with best | mem
  · rw [h] at best
    simp at best
  · rw [h] at mem
    obtain ⟨_, refreshed, mapped⟩ := List.mem_map.1 mem
    obtain ⟨slot, _, rfl⟩ := List.mem_map.1 refreshed
    obtain ⟨m, found, rfl⟩ := Option.map_eq_some_iff.1 mapped
    exact match?_refresh_bounds found

/-- The markers of a text from a cursor on, where the matches of some searches are known. -/
def from? (family : Family) (index : PositionIndex) (cursor : Nat)
    (slots : List (Slot index.text)) : Option (List Marker) :=
  match next : leftmost (refreshAll cursor slots) with
  | none => some []
  | some candidate =>
    match step : accept? family index candidate.form candidate.place with
    | none => none
    | some outcome =>
      have := leftmost_bounds next
      have := start_lt_of_accept? step
      (from? family index outcome.cursor
        (release candidate.form (refreshAll cursor slots))).map (outcome.marker.toList ++ ·)
termination_by byteLength index.text - cursor

/-- What is known before the first search. -/
def start (family : Family) (text : List Char) : List (Slot text) :=
  family.forms.map fun form => (form, unknown)

/-! ## What is known stays true -/

/-- What is known about a form comes from a search at or before the cursor. -/
def Holds (cursor : Nat) (slot : Slot text) : Prop :=
  match slot.2 with
  | unknown => True
  | found m _ => ∃ earlier ≤ cursor, searchFrom slot.1 text earlier = some m
  | exhausted => ∃ earlier ≤ cursor, searchFrom slot.1 text earlier = none

theorem search_later {form : CommentForm} {earlier cursor : Nat} (passed : earlier ≤ cursor)
    (text : List Char) :
    ∀ {before : Option Char} {offset : Nat} {m : Match},
      search form earlier before offset text = some m → cursor ≤ m.start →
        search form cursor before offset text = some m := by
  induction text with
  | nil => simp [search]
  | cons c s ih =>
    intro before offset m h ahead
    rw [search] at h ⊢
    split at h
    · rw [if_pos (by omega)]
      exact ih h ahead
    · split at h
      · next shape matched =>
        cases h
        simp only at ahead
        rw [if_neg (by omega)]
      · split
        · exact ih h ahead
        · exact ih h ahead

theorem search_none_later {form : CommentForm} {earlier cursor : Nat} (passed : earlier ≤ cursor)
    (text : List Char) :
    ∀ {before : Option Char} {offset : Nat}, search form earlier before offset text = none →
      search form cursor before offset text = none := by
  induction text with
  | nil => simp [search]
  | cons c s ih =>
    intro before offset h
    rw [search] at h ⊢
    split at h
    · rw [if_pos (by omega)]
      exact ih h
    · split at h
      · simp at h
      · split
        · exact ih h
        · exact ih h

theorem Holds.later {earlier cursor : Nat} {slot : Slot text} (h : Holds earlier slot)
    (passed : earlier ≤ cursor) : Holds cursor slot := by
  rcases slot with ⟨form, _ | ⟨m, inside⟩ | _⟩
  · trivial
  · obtain ⟨first, le, found⟩ := h
    exact ⟨first, by omega, found⟩
  · obtain ⟨first, le, none⟩ := h
    exact ⟨first, by omega, none⟩

theorem Holds.match?_refresh {cursor : Nat} {slot : Slot text} (h : Holds cursor slot) :
    (slot.2.refresh slot.1 cursor).match? = searchFrom slot.1 text cursor := by
  rcases slot with ⟨form, _ | ⟨m, inside⟩ | _⟩
  · exact match?_ofSearch form cursor
  · obtain ⟨first, le, found⟩ := h
    simp only [refresh]
    split
    · exact match?_ofSearch form cursor
    · exact (search_later le text found (by omega)).symm
  · obtain ⟨first, le, none⟩ := h
    exact (search_none_later le text none).symm

theorem holds_ofSearch (form : CommentForm) (cursor : Nat) :
    Holds cursor (form, ofSearch form text cursor) := by
  unfold ofSearch
  split
  · next h => exact ⟨cursor, Nat.le_refl _, h⟩
  · next h => exact ⟨cursor, Nat.le_refl _, h⟩

theorem Holds.refresh {cursor : Nat} {slot : Slot text} (h : Holds cursor slot) :
    Holds cursor (slot.1, slot.2.refresh slot.1 cursor) := by
  rcases slot with ⟨form, _ | ⟨m, inside⟩ | _⟩
  · exact holds_ofSearch form cursor
  · simp only [Pending.refresh]
    split
    · exact holds_ofSearch form cursor
    · exact h
  · exact h

/-- Bringing a family's forms up to date and taking the leftmost match finds what searching afresh
finds. -/
theorem leftmost_refreshAll {family : Family} {cursor : Nat} {slots : List (Slot text)}
    (forms : slots.map (·.1) = family.forms) (holds : ∀ slot ∈ slots, Holds cursor slot) :
    leftmost (refreshAll cursor slots) = nextMatch family text cursor := by
  unfold leftmost nextMatch refreshAll
  rw [← forms, List.map_map, List.map_map]
  congr 1
  refine List.map_congr_left fun slot mem => ?_
  simp only [Function.comp_apply, (holds slot mem).match?_refresh]

theorem forms_release_refreshAll (form : CommentForm) (cursor : Nat) (slots : List (Slot text)) :
    (release form (refreshAll cursor slots)).map (·.1) = slots.map (·.1) := by
  unfold release refreshAll
  rw [List.map_map, List.map_map]
  refine List.map_congr_left fun slot _ => ?_
  simp only [Function.comp_apply]
  split <;> rfl

theorem holds_release_refreshAll {form : CommentForm} {cursor later : Nat}
    {slots : List (Slot text)} (passed : cursor ≤ later) (holds : ∀ slot ∈ slots, Holds cursor slot) :
    ∀ slot ∈ release form (refreshAll cursor slots), Holds later slot := by
  intro slot mem
  obtain ⟨refreshed, kept, rfl⟩ := List.mem_map.1 mem
  obtain ⟨old, known, rfl⟩ := List.mem_map.1 kept
  split
  · trivial
  · exact ((holds old known).refresh).later passed

/-- Keeping matches does not change the markers found. -/
theorem from?_eq {family : Family} {index : PositionIndex} (cursor : Nat)
    (slots : List (Slot index.text)) (forms : slots.map (·.1) = family.forms)
    (holds : ∀ slot ∈ slots, Holds cursor slot) :
    from? family index cursor slots = Scan.from? family index cursor := by
  fun_induction from? family index cursor slots with
  | case1 cursor slots none =>
    rw [leftmost_refreshAll forms holds] at none
    unfold Scan.from?
    split <;> simp_all
  | case2 cursor slots candidate next none =>
    rw [leftmost_refreshAll forms holds] at next
    unfold Scan.from?
    split
    · simp_all
    · next candidate' next' =>
      cases next.symm.trans next'
      split <;> simp_all
  | case3 cursor slots candidate next outcome step bounds lt ih =>
    rw [leftmost_refreshAll forms holds] at next
    have passed : cursor ≤ outcome.cursor := by omega
    rw [ih (by rw [forms_release_refreshAll, forms]) (holds_release_refreshAll passed holds)]
    symm
    rw [Scan.from?]
    split
    · simp_all
    · next candidate' next' =>
      cases next.symm.trans next'
      split
      · simp_all
      · next outcome' step' =>
        cases step.symm.trans step'
        rfl

end Pending
end Markers.Scan

namespace Markers

/-- The markers of a text in a file of the given family, from left to right. -/
def Family.scan? (family : Family) (text : List Char) : Option (List Marker) :=
  Scan.Pending.from? family (PositionIndex.ofText text) 0 (Scan.Pending.start family text)

end Markers

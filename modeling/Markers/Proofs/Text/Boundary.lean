import Markers.Proofs.Text

/-!
# Character boundaries

`IsBoundary` says that an offset lies between two characters of a text, or at one of its ends.
Cutting a text is defined at its boundaries and nowhere else (`isSome_dropBytes?_iff`), and so is
taking a slice (`isSome_slice?_iff`). A boundary of a part is one of the text around it
(`IsBoundary.within`).
-/

namespace Markers.Text

/-- The offset cuts the text in two. -/
def IsBoundary (s : List Char) (offset : Nat) : Prop :=
  ∃ before behind, s = before ++ behind ∧ byteLength before = offset

theorem isBoundary_append (before behind : List Char) :
    IsBoundary (before ++ behind) (byteLength before) :=
  ⟨before, behind, rfl, rfl⟩

theorem isBoundary_byteLength (s : List Char) : IsBoundary s (byteLength s) :=
  ⟨s, [], by simp, rfl⟩

theorem IsBoundary.le {s : List Char} {offset : Nat} (h : IsBoundary s offset) :
    offset ≤ byteLength s := by
  obtain ⟨before, behind, rfl, rfl⟩ := h
  rw [byteLength_append]
  omega

/-- A boundary of a part is one of the text around it. -/
theorem IsBoundary.within {part : List Char} {offset : Nat} (h : IsBoundary part offset)
    (before behind : List Char) :
    IsBoundary (before ++ part ++ behind) (byteLength before + offset) := by
  obtain ⟨front, back, rfl, rfl⟩ := h
  refine ⟨before ++ front, back ++ behind, by simp, ?_⟩
  rw [byteLength_append]

/-! ## Where cutting is defined -/

/-- What follows the first bytes of a text is the rest of it behind as many bytes. -/
theorem dropBytes?_eq_some {s t : List Char} {n : Nat} (h : dropBytes? s n = some t) :
    ∃ before, s = before ++ t ∧ byteLength before = n := by
  induction s generalizing n with
  | nil =>
    cases n with
    | zero =>
      cases h
      exact ⟨[], rfl, rfl⟩
    | succ n => simp [dropBytes?] at h
  | cons c s ih =>
    cases n with
    | zero =>
      cases h
      exact ⟨[], rfl, rfl⟩
    | succ n =>
      rw [dropBytes?] at h
      split at h
      · obtain ⟨before, rfl, length⟩ := ih h
        refine ⟨c :: before, rfl, ?_⟩
        rw [byteLength_cons, length]
        omega
      · simp at h

theorem isSome_dropBytes?_iff {s : List Char} {n : Nat} :
    (dropBytes? s n).isSome ↔ IsBoundary s n := by
  rw [Option.isSome_iff_exists]
  constructor
  · rintro ⟨behind, h⟩
    obtain ⟨before, split, length⟩ := dropBytes?_eq_some h
    exact ⟨before, behind, split, length⟩
  · rintro ⟨before, behind, rfl, rfl⟩
    exact ⟨behind, dropBytes?_append before behind⟩

/-- A slice is a part of the text, which begins at the first offset and ends at the second. -/
theorem slice?_eq_some {s part : List Char} {a b : Nat} (h : slice? s a b = some part) :
    ∃ before behind, s = before ++ part ++ behind ∧ byteLength before = a ∧
      a + byteLength part = b := by
  have length := byteLength_of_slice? h
  unfold slice? at h
  split at h
  · obtain ⟨rest, dropped, taken⟩ := Option.bind_eq_some_iff.1 h
    obtain ⟨before, rfl, start⟩ := dropBytes?_eq_some dropped
    obtain ⟨behind, rfl, _⟩ := takeBytes?_eq_some taken
    exact ⟨before, behind, by simp, start, length⟩
  · cases h

/-- What stands behind a text makes no difference to a slice of it. -/
theorem slice?_append_right {s part : List Char} {a b : Nat} (h : slice? s a b = some part)
    (t : List Char) : slice? (s ++ t) a b = some part := by
  obtain ⟨before, behind, rfl, rfl, rfl⟩ := slice?_eq_some h
  rw [List.append_assoc _ behind, slice?_append]

/-- A slice goes from one boundary of a text to a later one. -/
theorem isSome_slice?_iff {s : List Char} {a b : Nat} :
    (slice? s a b).isSome ↔ a ≤ b ∧ IsBoundary s a ∧ IsBoundary s b := by
  constructor
  · intro h
    obtain ⟨part, sliced⟩ := Option.isSome_iff_exists.1 h
    obtain ⟨before, behind, rfl, rfl, rfl⟩ := slice?_eq_some sliced
    refine ⟨Nat.le_add_right .., ⟨before, _, List.append_assoc .., rfl⟩, before ++ part, behind,
      rfl, byteLength_append ..⟩
  · rintro ⟨le, ⟨before, _, rfl, rfl⟩, ⟨_, behind, split, rfl⟩⟩
    obtain ⟨part, rfl, rfl⟩ := append_of_le split le
    rw [← List.append_assoc, byteLength_append, slice?_append]
    rfl

instance (s : List Char) (offset : Nat) : Decidable (IsBoundary s offset) :=
  decidable_of_iff _ isSome_dropBytes?_iff

/-- No text begins in the middle of a character. -/
example : ¬ IsBoundary ['é', 'a'] 1 ∧ IsBoundary ['é', 'a'] 2 := by decide

end Markers.Text

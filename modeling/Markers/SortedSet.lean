/-!
# Sorted sets

A `SortedSet` is the list of its members in strictly increasing order. `insert` adds a member, unless
one compares equal to it.
-/

namespace Markers

/-- A finite set, as the list of its members in increasing order. -/
structure SortedSet (κ : Type) [Ord κ] where
  members : List κ
  increasing : members.Pairwise fun a b => compare a b = .lt
deriving DecidableEq, Repr

namespace SortedSet
variable {κ : Type} [Ord κ]

/-- The set without members. -/
def empty : SortedSet κ :=
  ⟨[], .nil⟩

/-- Members with one more. -/
def insertMember (key : κ) : List κ → List κ
  | [] => [key]
  | k :: keys =>
    match compare key k with
    | .lt => key :: k :: keys
    | .eq => k :: keys
    | .gt => k :: insertMember key keys

theorem eq_or_mem_of_mem_insertMember {key k : κ} {keys : List κ}
    (h : k ∈ insertMember key keys) : k = key ∨ k ∈ keys := by
  induction keys with
  | nil => simpa [insertMember] using h
  | cons first keys ih =>
    rw [insertMember] at h
    split at h
    · simpa using h
    · exact .inr h
    · rcases List.mem_cons.1 h with rfl | h
      · simp
      · rcases ih h with rfl | h
        · simp
        · simp [h]

theorem increasing_insertMember [Std.TransOrd κ] (key : κ) {keys : List κ}
    (h : keys.Pairwise fun a b => compare a b = .lt) :
    (insertMember key keys).Pairwise fun a b => compare a b = .lt := by
  induction keys with
  | nil => simp [insertMember]
  | cons first keys ih =>
    have ⟨below, rest⟩ := List.pairwise_cons.1 h
    rw [insertMember]
    split
    · next lt =>
      refine List.pairwise_cons.2 ⟨fun k mem => ?_, h⟩
      rcases List.mem_cons.1 mem with rfl | mem
      · exact lt
      · exact Std.TransCmp.lt_trans lt (below k mem)
    · exact h
    · next gt =>
      refine List.pairwise_cons.2 ⟨fun k mem => ?_, ih rest⟩
      rcases eq_or_mem_of_mem_insertMember mem with rfl | mem
      · exact Std.OrientedCmp.gt_iff_lt.1 gt
      · exact below k mem

/-- The set with one more member. -/
def insert [Std.TransOrd κ] (set : SortedSet κ) (key : κ) : SortedSet κ :=
  ⟨insertMember key set.members, increasing_insertMember key set.increasing⟩

/-- The set with all members of a list. -/
def insertAll [Std.TransOrd κ] (set : SortedSet κ) (keys : List κ) : SortedSet κ :=
  keys.foldl insert set

/-- The set of the members of a list. -/
def ofList [Std.TransOrd κ] (keys : List κ) : SortedSet κ :=
  empty.insertAll keys

end SortedSet
end Markers

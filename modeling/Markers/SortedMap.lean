/-!
# Sorted maps

A `SortedMap` is the list of its entries in strictly increasing order of their keys. `alter` changes
the value of one key; an entry whose key compares equal to it keeps its own key.
-/

namespace Markers

/-- A finite map, as the list of its entries in increasing order of their keys. -/
structure SortedMap (κ ν : Type) [Ord κ] where
  entries : List (κ × ν)
  increasing : entries.Pairwise fun a b => compare a.1 b.1 = .lt
deriving DecidableEq, Repr

namespace SortedMap
variable {κ ν : Type} [Ord κ]

/-- The map without entries. -/
def empty : SortedMap κ ν :=
  ⟨[], .nil⟩

/-- Entries in which the value of a key is what `f` makes of its old value. -/
def alterEntries (key : κ) (f : Option ν → ν) : List (κ × ν) → List (κ × ν)
  | [] => [(key, f none)]
  | (k, v) :: entries =>
    match compare key k with
    | .lt => (key, f none) :: (k, v) :: entries
    | .eq => (k, f (some v)) :: entries
    | .gt => (k, v) :: alterEntries key f entries

theorem key_of_mem_alterEntries {key : κ} {f : Option ν → ν} {entry : κ × ν}
    {entries : List (κ × ν)} (h : entry ∈ alterEntries key f entries) :
    entry.1 = key ∨ ∃ old ∈ entries, old.1 = entry.1 := by
  induction entries with
  | nil => simp_all [alterEntries]
  | cons first entries ih =>
    rw [alterEntries] at h
    split at h
    · rcases List.mem_cons.1 h with rfl | h
      · exact .inl rfl
      · exact .inr ⟨entry, h, rfl⟩
    · rcases List.mem_cons.1 h with rfl | h
      · exact .inr ⟨first, List.mem_cons_self .., rfl⟩
      · exact .inr ⟨entry, List.mem_cons_of_mem _ h, rfl⟩
    · rcases List.mem_cons.1 h with rfl | h
      · exact .inr ⟨first, List.mem_cons_self .., rfl⟩
      · rcases ih h with same | ⟨old, mem, same⟩
        · exact .inl same
        · exact .inr ⟨old, List.mem_cons_of_mem _ mem, same⟩

theorem increasing_alterEntries [Std.TransOrd κ] (key : κ) (f : Option ν → ν)
    {entries : List (κ × ν)} (h : entries.Pairwise fun a b => compare a.1 b.1 = .lt) :
    (alterEntries key f entries).Pairwise fun a b => compare a.1 b.1 = .lt := by
  induction entries with
  | nil => simp [alterEntries]
  | cons first entries ih =>
    have ⟨below, rest⟩ := List.pairwise_cons.1 h
    rw [alterEntries]
    split
    · next lt =>
      refine List.pairwise_cons.2 ⟨fun entry mem => ?_, h⟩
      rcases List.mem_cons.1 mem with rfl | mem
      · exact lt
      · exact Std.TransCmp.lt_trans lt (below entry mem)
    · exact List.pairwise_cons.2 ⟨below, rest⟩
    · next gt =>
      refine List.pairwise_cons.2 ⟨fun entry mem => ?_, ih rest⟩
      rcases key_of_mem_alterEntries mem with same | ⟨old, mem, same⟩
      · rw [same]
        exact Std.OrientedCmp.gt_iff_lt.1 gt
      · rw [← same]
        exact below old mem

/-- The map in which the value of a key is what `f` makes of its old value. -/
def alter [Std.TransOrd κ] (map : SortedMap κ ν) (key : κ) (f : Option ν → ν) : SortedMap κ ν :=
  ⟨alterEntries key f map.entries, increasing_alterEntries key f map.increasing⟩

/-- The map with a value for a key. -/
def insert [Std.TransOrd κ] (map : SortedMap κ ν) (key : κ) (value : ν) : SortedMap κ ν :=
  map.alter key fun _ => value

/-- The value of a key. -/
def get? (map : SortedMap κ ν) (key : κ) : Option ν :=
  (map.entries.find? fun entry => compare key entry.1 == .eq).map (·.2)

/-- The map that takes the last value given for each key. -/
def ofList [Std.TransOrd κ] (entries : List (κ × ν)) : SortedMap κ ν :=
  entries.foldl (fun map entry => map.insert entry.1 entry.2) empty

/-- Number of entries. -/
def size (map : SortedMap κ ν) : Nat :=
  map.entries.length

/-- The keys in order. -/
def keys (map : SortedMap κ ν) : List κ :=
  map.entries.map (·.1)

/-- The values in the order of their keys. -/
def values (map : SortedMap κ ν) : List ν :=
  map.entries.map (·.2)

end SortedMap
end Markers

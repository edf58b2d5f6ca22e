import Markers.SortedMap
import Markers.SortedSet
import Markers.Sum

/-!
# Sorted maps and sets

What `get?` finds behind `alter` (`get?_alter`), the keys of an altered map (`mem_keys_alter`), and
the sum over its values (`sum_values_alter`). Different keys can be altered in either order
(`alter_comm`), and insertions leave the last value of each key (`get?_foldl_insert`); a map is made
of its own entries in any order (`ofList_of_perm`). A sorted set has the members that were put into
it (`mem_insertAll`), and is determined by them (`SortedSet.ext`). Lists come before them: sums,
mapping with failures, and sorting by an `Ordering` (`pairwise_mergeSort_isLE`).
-/

namespace Markers

/-- A sum does not depend on the order. -/
theorem sum_perm {a b : List Nat} (same : a.Perm b) : sum a = sum b := by
  induction same with
  | nil => rfl
  | cons n _ ih => rw [sum_cons, sum_cons, ih]
  | swap m n a =>
    simp only [sum_cons]
    omega
  | trans _ _ first second => exact first.trans second

theorem le_sum_of_mem {numbers : List Nat} {n : Nat} (mem : n ∈ numbers) : n ≤ sum numbers := by
  induction numbers with
  | nil => simp at mem
  | cons first numbers ih =>
    rw [sum_cons]
    rcases List.mem_cons.1 mem with rfl | mem
    · exact Nat.le_add_right ..
    · exact Nat.le_add_left_of_le (ih mem)

theorem sum_eq_zero {numbers : List Nat} (zero : ∀ n ∈ numbers, n = 0) : sum numbers = 0 := by
  induction numbers with
  | nil => rfl
  | cons n numbers ih =>
    obtain ⟨rfl, rest⟩ := List.forall_mem_cons.1 zero
    rw [sum_cons, ih rest]

theorem sum_map_add {α : Type} (f g : α → Nat) (l : List α) :
    sum (l.map fun a => f a + g a) = sum (l.map f) + sum (l.map g) := by
  induction l with
  | nil => rfl
  | cons a l ih =>
    simp only [List.map_cons, sum_cons, ih]
    omega

theorem sum_map_const {α : Type} (l : List α) (n : Nat) : sum (l.map fun _ => n) = n * l.length := by
  induction l with
  | nil => rfl
  | cons a l ih => rw [List.map_cons, sum_cons, ih, List.length_cons, Nat.mul_succ, Nat.add_comm]

theorem sum_map_le {α : Type} {l : List α} {f g : α → Nat} (le : ∀ a ∈ l, f a ≤ g a) :
    sum (l.map f) ≤ sum (l.map g) := by
  induction l with
  | nil => exact Nat.le_refl 0
  | cons a l ih =>
    obtain ⟨here, later⟩ := List.forall_mem_cons.1 le
    exact Nat.add_le_add here (ih later)

/-- Sums of numbers that are not smaller are equal only if each of the numbers is. -/
theorem eq_of_sum_map_eq {α : Type} {l : List α} {f g : α → Nat} (le : ∀ a ∈ l, f a ≤ g a)
    (same : sum (l.map f) = sum (l.map g)) : ∀ a ∈ l, f a = g a := by
  induction l with
  | nil => simp
  | cons a l ih =>
    obtain ⟨here, later⟩ := List.forall_mem_cons.1 le
    have rest := sum_map_le later
    rw [List.map_cons, List.map_cons, sum_cons, sum_cons] at same
    refine List.forall_mem_cons.2 ⟨by omega, ih later (by omega)⟩

/-- Rows and columns of a table have one sum. -/
theorem sum_map_comm {α β : Type} (f : α → β → Nat) (l : List α) (m : List β) :
    sum (l.map fun a => sum (m.map (f a))) = sum (m.map fun b => sum (l.map (f · b))) := by
  induction l with
  | nil => exact (sum_eq_zero (by simp)).symm
  | cons a l ih => simp only [List.map_cons, sum_cons, ih, sum_map_add]

/-- In a list without repetition one member has the value, and all others have none. -/
theorem sum_map_indicator {α : Type} [DecidableEq α] {l : List α} {a : α} (nodup : l.Nodup)
    (mem : a ∈ l) (n : Nat) : sum (l.map fun b => if b = a then n else 0) = n := by
  induction l with
  | nil => cases mem
  | cons first l ih =>
    obtain ⟨fresh, nodup⟩ := List.nodup_cons.1 nodup
    rw [List.map_cons, sum_cons]
    by_cases here : first = a
    · subst here
      have rest : sum (l.map fun b => if b = first then n else 0) = 0 := by
        refine sum_eq_zero (List.forall_mem_map.2 fun b later => if_neg ?_)
        rintro rfl
        exact fresh later
      rw [if_pos rfl, rest, Nat.add_zero]
    · rw [if_neg here, ih nodup ((List.mem_cons.1 mem).resolve_left (Ne.symm here)), Nat.zero_add]

theorem length_flatMap {α β : Type} (f : α → List β) (l : List α) :
    (l.flatMap f).length = sum (l.map fun a => (f a).length) := by
  induction l with
  | nil => rfl
  | cons a l ih => rw [List.flatMap_cons, List.length_append, ih, List.map_cons, sum_cons]

theorem countP_flatMap {α β : Type} (p : β → Bool) (f : α → List β) (l : List α) :
    (l.flatMap f).countP p = sum (l.map fun a => (f a).countP p) := by
  induction l with
  | nil => rfl
  | cons a l ih => rw [List.flatMap_cons, List.countP_append, ih, List.map_cons, sum_cons]

/-- A list is mapped without a failure when each of its members is. -/
theorem exists_mapM_eq_ok {ε α β : Type} {f : α → Except ε β} {l : List α} :
    (∃ results, l.mapM f = .ok results) ↔ ∀ a ∈ l, ∃ b, f a = .ok b := by
  induction l with
  | nil => simp [pure, Except.pure]
  | cons a l ih =>
    rw [List.forall_mem_cons, ← ih, List.mapM_cons]
    cases f a with
    | error => simp [bind, Except.bind]
    | ok b => cases l.mapM f <;> simp [bind, Except.bind, pure, Except.pure]

/-- A failure is that of some member. -/
theorem exists_of_mapM_eq_error {ε α β : Type} {f : α → Except ε β} {l : List α} {failure : ε}
    (stuck : l.mapM f = .error failure) : ∃ a ∈ l, f a = .error failure := by
  induction l with
  | nil => cases stuck
  | cons a l ih =>
    rw [List.mapM_cons] at stuck
    cases first : f a with
    | error =>
      rw [first] at stuck
      cases stuck
      exact ⟨a, List.mem_cons_self .., first⟩
    | ok b =>
      rw [first] at stuck
      cases rest : l.mapM f with
      | error =>
        rw [rest] at stuck
        cases stuck
        obtain ⟨a', mem, here⟩ := ih rest
        exact ⟨a', List.mem_cons_of_mem _ mem, here⟩
      | ok results =>
        rw [rest] at stuck
        cases stuck

/-- A result is that of some member. -/
theorem exists_of_mem_mapM_eq_ok {ε α β : Type} {f : α → Except ε β} {l : List α} {results : List β}
    (mapped : l.mapM f = .ok results) {b : β} (mem : b ∈ results) : ∃ a ∈ l, f a = .ok b := by
  induction l generalizing results with
  | nil =>
    cases mapped
    cases mem
  | cons a l ih =>
    rw [List.mapM_cons] at mapped
    cases first : f a with
    | error =>
      rw [first] at mapped
      cases mapped
    | ok b' =>
      rw [first] at mapped
      cases rest : l.mapM f with
      | error =>
        rw [rest] at mapped
        cases mapped
      | ok others =>
        rw [rest] at mapped
        cases mapped
        rcases List.mem_cons.1 mem with rfl | mem
        · exact ⟨a, List.mem_cons_self .., first⟩
        · obtain ⟨a', mem', here⟩ := ih rest mem
          exact ⟨a', List.mem_cons_of_mem _ mem', here⟩

/-- What `g` reads off each result is the member it is of. -/
theorem map_of_mapM_eq_ok {ε α β : Type} {f : α → Except ε β} {g : β → α} {l : List α}
    {results : List β} (back : ∀ a b, f a = .ok b → g b = a) (mapped : l.mapM f = .ok results) :
    results.map g = l := by
  induction l generalizing results with
  | nil =>
    cases mapped
    rfl
  | cons a l ih =>
    rw [List.mapM_cons] at mapped
    cases first : f a with
    | error =>
      rw [first] at mapped
      cases mapped
    | ok b =>
      rw [first] at mapped
      cases rest : l.mapM f with
      | error =>
        rw [rest] at mapped
        cases mapped
      | ok others =>
        rw [rest] at mapped
        cases mapped
        rw [List.map_cons, back a b first, ih rest]

theorem mapM_congr {ε α β : Type} {f g : α → Except ε β} {l : List α}
    (same : ∀ a ∈ l, f a = g a) : l.mapM f = l.mapM g := by
  induction l with
  | nil => rfl
  | cons a l ih =>
    obtain ⟨first, same⟩ := List.forall_mem_cons.1 same
    rw [List.mapM_cons, List.mapM_cons, first, ih same]

/-! ## Sorting -/

section Sorting
variable {α : Type} (cmp : α → α → Ordering)

/-- Of two elements one comes before the other, or neither does. -/
theorem isLE_or_isLE [Std.OrientedCmp cmp] (a b : α) :
    ((cmp a b).isLE || (cmp b a).isLE) = true := by
  cases order : cmp a b with
  | lt | eq => rfl
  | gt => rw [Std.OrientedCmp.gt_iff_lt.1 order]; rfl

theorem pairwise_mergeSort_isLE [Std.TransCmp cmp] (l : List α) :
    (l.mergeSort fun a b => (cmp a b).isLE).Pairwise fun a b => (cmp a b).isLE = true :=
  List.pairwise_mergeSort (fun _ _ _ => Std.TransCmp.isLE_trans) (isLE_or_isLE cmp) l

end Sorting

/-! ## Entries -/

namespace SortedMap
variable {κ ν : Type} [Ord κ]

theorem eq_of_entries {map map' : SortedMap κ ν} (same : map.entries = map'.entries) :
    map = map' := by
  cases map
  cases map'
  cases same
  rfl

/-- The value that entries give a key. -/
def lookup (key : κ) (entries : List (κ × ν)) : Option ν :=
  (entries.find? fun entry => compare key entry.1 == .eq).map (·.2)

theorem get?_eq_lookup (map : SortedMap κ ν) (key : κ) :
    map.get? key = lookup key map.entries := rfl

@[simp] theorem lookup_nil (key : κ) : lookup key ([] : List (κ × ν)) = none := rfl

theorem lookup_cons (key k : κ) (v : ν) (entries : List (κ × ν)) :
    lookup key ((k, v) :: entries) =
      if compare key k = .eq then some v else lookup key entries := by
  unfold lookup
  rw [List.find?_cons]
  cases compare key k <;> simp

theorem lookup_eq_none_of_lt {key : κ} {entries : List (κ × ν)}
    (below : ∀ entry ∈ entries, compare key entry.1 = .lt) : lookup key entries = none := by
  rw [lookup, Option.map_eq_none_iff, List.find?_eq_none]
  intro entry mem
  simp [below entry mem]

theorem exists_of_lookup_eq_some {key : κ} {entries : List (κ × ν)} {v : ν}
    (h : lookup key entries = some v) : ∃ entry ∈ entries, entry.2 = v := by
  obtain ⟨entry, found, rfl⟩ := Option.map_eq_some_iff.1 h
  exact ⟨entry, List.mem_of_find?_eq_some found, rfl⟩

theorem mem_values {map : SortedMap κ ν} {v : ν} : v ∈ map.values ↔ ∃ k, (k, v) ∈ map.entries := by
  simp [values]

theorem mem_values_of_get? {map : SortedMap κ ν} {key : κ} {v : ν} (h : map.get? key = some v) :
    v ∈ map.values := by
  obtain ⟨entry, mem, rfl⟩ := exists_of_lookup_eq_some h
  exact List.mem_map.2 ⟨entry, mem, rfl⟩

section Lookup
variable [Std.TransOrd κ]

/-- An entry of altered entries is that of the key, or was there. -/
theorem mem_alterEntries {key : κ} {f : Option ν → ν} {entries : List (κ × ν)} {entry : κ × ν}
    (mem : entry ∈ alterEntries key f entries) :
    (compare key entry.1 = .eq ∧ ∃ old, entry.2 = f old) ∨ entry ∈ entries := by
  have self : compare key key = .eq := Std.ReflCmp.compare_self
  induction entries with
  | nil =>
    cases List.mem_singleton.1 mem
    exact .inl ⟨self, none, rfl⟩
  | cons first entries ih =>
    rw [alterEntries] at mem
    split at mem
    · rcases List.mem_cons.1 mem with rfl | mem
      · exact .inl ⟨self, none, rfl⟩
      · exact .inr mem
    · next same =>
      rcases List.mem_cons.1 mem with rfl | mem
      · exact .inl ⟨same, some first.2, rfl⟩
      · exact .inr (List.mem_cons_of_mem _ mem)
    · rcases List.mem_cons.1 mem with rfl | mem
      · exact .inr (List.mem_cons_self ..)
      · exact (ih mem).imp_right (List.mem_cons_of_mem _)

/-- A map has for a key the value of the entry whose key compares equal to it. -/
theorem get?_of_mem {map : SortedMap κ ν} {key k : κ} {v : ν} (mem : (k, v) ∈ map.entries)
    (same : compare key k = .eq) : map.get? key = some v := by
  rw [get?_eq_lookup]
  have increasing := map.increasing
  generalize map.entries = entries at mem increasing
  induction entries with
  | nil => cases mem
  | cons first entries ih =>
    obtain ⟨below, rest⟩ := List.pairwise_cons.1 increasing
    rw [lookup_cons]
    rcases List.mem_cons.1 mem with rfl | mem
    · rw [if_pos same]
    · have lt : compare first.1 key = .lt :=
        Std.TransCmp.lt_of_lt_of_eq (below _ mem) (Std.OrientedCmp.eq_symm same)
      have other : compare key first.1 ≠ .eq := by
        rw [Std.OrientedCmp.gt_of_lt lt]
        decide
      rw [if_neg other]
      exact ih mem rest

/-- Altering a key changes what is found for it and nothing else. -/
theorem lookup_alterEntries (key k : κ) (f : Option ν → ν) {entries : List (κ × ν)}
    (increasing : entries.Pairwise fun a b => compare a.1 b.1 = .lt) :
    lookup k (alterEntries key f entries) =
      if compare k key = .eq then some (f (lookup key entries)) else lookup k entries := by
  induction entries with
  | nil => rw [alterEntries, lookup_cons, lookup_nil, lookup_nil]
  | cons first entries ih =>
    obtain ⟨k₀, v⟩ := first
    obtain ⟨below, rest⟩ := List.pairwise_cons.1 increasing
    rw [alterEntries]
    split
    · next lt =>
      have none : lookup key ((k₀, v) :: entries) = none := by
        apply lookup_eq_none_of_lt
        intro entry mem
        rcases List.mem_cons.1 mem with rfl | mem
        · exact lt
        · exact Std.TransCmp.lt_trans lt (below entry mem)
      rw [lookup_cons, none]
    · next same =>
      have both : compare k k₀ = .eq ↔ compare k key = .eq := by
        rw [Std.TransCmp.congr_right same]
      rw [lookup_cons, lookup_cons, lookup_cons, if_pos same]
      by_cases h : compare k key = .eq
      · rw [if_pos h, if_pos (both.2 h)]
      · rw [if_neg h, if_neg (mt both.1 h), if_neg (mt both.1 h)]
    · next gt =>
      have other : compare k k₀ = .eq → compare k key ≠ .eq := by
        intro here there
        have same := Std.TransCmp.eq_trans (Std.OrientedCmp.eq_symm there) here
        rw [gt] at same
        simp at same
      have behind : lookup key ((k₀, v) :: entries) = lookup key entries := by
        rw [lookup_cons, gt, if_neg (by decide)]
      rw [behind, lookup_cons, lookup_cons, ih rest]
      by_cases h : compare k k₀ = .eq
      · rw [if_pos h, if_pos h, if_neg (other h)]
      · rw [if_neg h, if_neg h]

/-- Altering a key changes what is found for it and nothing else. -/
theorem get?_alter (map : SortedMap κ ν) (key k : κ) (f : Option ν → ν) :
    (map.alter key f).get? k =
      if compare k key = .eq then some (f (map.get? key)) else map.get? k :=
  lookup_alterEntries key k f map.increasing

/-- The sum over the values of an altered map, where the old value is put back. -/
theorem sum_alterEntries (g : ν → Nat) (key : κ) (f : Option ν → ν) {entries : List (κ × ν)}
    (increasing : entries.Pairwise fun a b => compare a.1 b.1 = .lt) :
    sum ((alterEntries key f entries).map fun entry => g entry.2) +
        ((lookup key entries).map g).getD 0 =
      sum (entries.map fun entry => g entry.2) + g (f (lookup key entries)) := by
  induction entries with
  | nil => simp [alterEntries]
  | cons first entries ih =>
    obtain ⟨k₀, v⟩ := first
    obtain ⟨below, rest⟩ := List.pairwise_cons.1 increasing
    rw [alterEntries]
    split
    · next lt =>
      have none : lookup key ((k₀, v) :: entries) = none := by
        apply lookup_eq_none_of_lt
        intro entry mem
        rcases List.mem_cons.1 mem with rfl | mem
        · exact lt
        · exact Std.TransCmp.lt_trans lt (below entry mem)
      rw [none]
      simp only [List.map_cons, sum_cons, Option.map_none, Option.getD_none]
      omega
    · next same =>
      rw [lookup_cons, if_pos same]
      simp only [List.map_cons, sum_cons, Option.map_some, Option.getD_some]
      omega
    · next gt =>
      have rest := ih rest
      rw [lookup_cons, gt, if_neg (by decide)]
      simp only [List.map_cons, sum_cons]
      omega

theorem sum_values_alter (g : ν → Nat) (map : SortedMap κ ν) (key : κ) (f : Option ν → ν) :
    sum ((map.alter key f).values.map g) + ((map.get? key).map g).getD 0 =
      sum (map.values.map g) + g (f (map.get? key)) := by
  have sums := sum_alterEntries g key f map.increasing
  rw [values, values, List.map_map, List.map_map]
  exact sums

/-- A value of a map with one more is the new one or was there. -/
theorem mem_values_insert {map : SortedMap κ ν} {key : κ} {value v : ν}
    (mem : v ∈ (map.insert key value).values) : v = value ∨ v ∈ map.values := by
  obtain ⟨k, mem⟩ := mem_values.1 mem
  rcases mem_alterEntries mem with ⟨_, _, new⟩ | there
  · exact .inl new
  · exact .inr (mem_values.2 ⟨k, there⟩)

theorem mem_values_foldl_insert {entries : List (κ × ν)} {map : SortedMap κ ν} {v : ν}
    (mem : v ∈ (entries.foldl (fun map entry => map.insert entry.1 entry.2) map).values) :
    v ∈ map.values ∨ ∃ k, (k, v) ∈ entries := by
  induction entries generalizing map with
  | nil => exact .inl mem
  | cons entry entries ih =>
    rcases ih mem with mem | ⟨k, mem⟩
    · rcases mem_values_insert mem with rfl | mem
      · exact .inr ⟨entry.1, List.mem_cons_self ..⟩
      · exact .inl mem
    · exact .inr ⟨k, List.mem_cons_of_mem _ mem⟩

/-- The values of a list's map are values of the list. -/
theorem mem_values_ofList {entries : List (κ × ν)} {v : ν} (mem : v ∈ (ofList entries).values) :
    ∃ k, (k, v) ∈ entries := by
  rcases mem_values_foldl_insert mem with mem | found
  · simp [empty, values] at mem
  · exact found

/-- After insertions a key has the value that was inserted last for it. -/
theorem get?_foldl_insert {α : Type} (key : α → κ) (value : α → ν) (l : List α)
    (map : SortedMap κ ν) (k : κ) :
    (l.foldl (fun map a => map.insert (key a) (value a)) map).get? k =
      ((l.reverse.find? fun a => compare k (key a) == .eq).map value).or (map.get? k) := by
  induction l generalizing map with
  | nil => rfl
  | cons a l ih =>
    rw [List.foldl_cons, ih, insert, get?_alter, List.reverse_cons, List.find?_append,
      Option.map_or, Option.or_assoc]
    cases order : compare k (key a) <;> simp [order]

theorem alterEntries_comm_of_lt {a b : κ} (f g : Option ν → ν) (lt : compare a b = .lt)
    (entries : List (κ × ν)) :
    alterEntries a f (alterEntries b g entries) = alterEntries b g (alterEntries a f entries) := by
  have gt : compare b a = .gt := Std.OrientedCmp.gt_iff_lt.2 lt
  induction entries with
  | nil => simp only [alterEntries, lt, gt]
  | cons first entries ih =>
    obtain ⟨k, v⟩ := first
    cases here : compare b k with
    | lt =>
      have before : compare a k = .lt := Std.TransCmp.lt_trans lt here
      simp only [alterEntries, here, before, lt, gt]
    | eq =>
      have before : compare a k = .lt := Std.TransCmp.lt_of_lt_of_eq lt here
      simp only [alterEntries, here, before, gt]
    | gt => cases there : compare a k <;> simp only [alterEntries, here, there, gt, ih]

/-- Keys that do not compare equal can be altered in either order. -/
theorem alter_comm (map : SortedMap κ ν) {a b : κ} (f g : Option ν → ν)
    (other : compare a b ≠ .eq) : (map.alter b g).alter a f = (map.alter a f).alter b g := by
  rw [alter, alter, alter, alter, SortedMap.mk.injEq]
  cases order : compare a b with
  | lt => exact alterEntries_comm_of_lt f g order map.entries
  | eq => exact absurd order other
  | gt => exact (alterEntries_comm_of_lt g f (Std.OrientedCmp.gt_iff_lt.1 order) map.entries).symm

/-! ## Lists of entries in order -/

theorem alterEntries_of_lt {key : κ} {f : Option ν → ν} {entries : List (κ × ν)}
    (above : ∀ entry ∈ entries, compare entry.1 key = .lt) :
    alterEntries key f entries = entries ++ [(key, f none)] := by
  induction entries with
  | nil => rfl
  | cons first entries ih =>
    obtain ⟨here, rest⟩ := List.forall_mem_cons.1 above
    have gt : compare key first.1 = .gt := Std.OrientedCmp.gt_iff_lt.2 here
    rw [alterEntries, gt]
    exact congrArg (first :: ·) (ih rest)

/-- A map is made of its own entries. -/
theorem ofList_entries (map : SortedMap κ ν) : ofList map.entries = map := by
  have all : ∀ (front : SortedMap κ ν) (entries : List (κ × ν)),
      (front.entries ++ entries).Pairwise (fun a b => compare a.1 b.1 = .lt) →
      (entries.foldl (fun map entry => map.insert entry.1 entry.2) front).entries =
        front.entries ++ entries := by
    intro front entries increasing
    induction entries generalizing front with
    | nil => rw [List.append_nil]; rfl
    | cons entry entries ih =>
      have above : ∀ old ∈ front.entries, compare old.1 entry.1 = .lt := fun old mem =>
        (List.pairwise_append.1 increasing).2.2 old mem entry (List.mem_cons_self ..)
      have step : (front.insert entry.1 entry.2).entries = front.entries ++ [entry] :=
        alterEntries_of_lt above
      rw [List.append_cons, ← step] at increasing
      rw [List.foldl_cons, ih _ increasing, step, List.append_assoc, List.singleton_append]
  exact eq_of_entries (all empty map.entries map.increasing)

/-- A map is made of its own entries in any order. -/
theorem ofList_of_perm {map : SortedMap κ ν} {entries : List (κ × ν)}
    (perm : entries.Perm map.entries) : ofList entries = map := by
  have comm (a b : κ × ν) (lt : compare a.1 b.1 = .lt) (m : SortedMap κ ν) :
      (m.insert a.1 a.2).insert b.1 b.2 = (m.insert b.1 b.2).insert a.1 a.2 := by
    have other : compare b.1 a.1 ≠ .eq := by
      rw [Std.OrientedCmp.gt_of_lt lt]
      decide
    exact alter_comm m _ _ other
  have all := List.Pairwise.forall_of_forall_of_flip
    (R := fun a b : κ × ν => ∀ m : SortedMap κ ν,
      (m.insert a.1 a.2).insert b.1 b.2 = (m.insert b.1 b.2).insert a.1 a.2)
    (fun _ _ _ => rfl) (map.increasing.imp fun {a b} lt => comm a b lt)
    (map.increasing.imp fun {a b} lt m => (comm a b lt m).symm)
  calc ofList entries = ofList map.entries :=
        (perm.symm.foldl_eq' (fun a mem b mem' m => all mem mem' m) empty).symm
    _ = map := ofList_entries map

end Lookup

section Keys
variable [Std.LawfulEqOrd κ]

theorem mem_keys_iff {map : SortedMap κ ν} {key : κ} :
    key ∈ map.keys ↔ (map.get? key).isSome = true := by
  rw [get?, Option.isSome_map, List.find?_isSome, keys, List.mem_map]
  constructor
  · rintro ⟨entry, mem, rfl⟩
    exact ⟨entry, mem, by simp⟩
  · rintro ⟨entry, mem, same⟩
    exact ⟨entry, mem, (Std.LawfulEqOrd.eq_of_compare (by simpa using same)).symm⟩

/-- The entry of a key is the only one with that key. -/
theorem filter_entries [BEq κ] [LawfulBEq κ] (map : SortedMap κ ν) (key : κ) :
    map.entries.filter (·.1 == key) = (map.get? key).toList.map (key, ·) := by
  rw [get?_eq_lookup]
  have increasing := map.increasing
  generalize map.entries = entries at increasing
  induction entries with
  | nil => rfl
  | cons entry entries ih =>
    obtain ⟨k, v⟩ := entry
    obtain ⟨below, increasing⟩ := List.pairwise_cons.1 increasing
    rw [lookup_cons]
    by_cases same : key = k
    · subst same
      have self : compare key key = .eq := Std.ReflCmp.compare_self
      have others : entries.filter (·.1 == key) = [] := by
        refine List.filter_eq_nil_iff.2 fun entry mem here => ?_
        have lt := below entry mem
        rw [eq_of_beq here, self] at lt
        cases lt
      simp [others]
    · have other : compare key k ≠ .eq := fun eq => same (Std.LawfulEqOrd.eq_of_compare eq)
      rw [if_neg other, ← ih increasing, List.filter_cons_of_neg]
      simpa using Ne.symm same

/-- The values found for keys that include those of the map are all its values. -/
theorem sum_map_get? [DecidableEq κ] (map : SortedMap κ Nat) {l : List κ} (nodup : l.Nodup)
    (listed : ∀ key ∈ map.keys, key ∈ l) :
    sum (l.map fun key => (map.get? key).getD 0) = sum map.values := by
  simp only [get?_eq_lookup]
  rw [keys, List.forall_mem_map] at listed
  rw [values]
  have increasing := map.increasing
  generalize map.entries = entries at listed increasing
  induction entries with
  | nil => exact sum_eq_zero (by simp)
  | cons entry entries ih =>
    obtain ⟨k, n⟩ := entry
    obtain ⟨here, listed⟩ := List.forall_mem_cons.1 listed
    obtain ⟨below, increasing⟩ := List.pairwise_cons.1 increasing
    -- the first key has a value of its own and none behind it
    have split (key : κ) : (lookup key ((k, n) :: entries)).getD 0 =
        (if key = k then n else 0) + (lookup key entries).getD 0 := by
      rw [lookup_cons]
      by_cases same : key = k
      · subst same
        simp [lookup_eq_none_of_lt below]
      · simp [same]
    simp only [split]
    rw [sum_map_add, sum_map_indicator nodup here, ih listed increasing, List.map_cons, sum_cons]

variable [Std.TransOrd κ]

theorem mem_keys_alter {map : SortedMap κ ν} {key k : κ} {f : Option ν → ν} :
    k ∈ (map.alter key f).keys ↔ k = key ∨ k ∈ map.keys := by
  rw [mem_keys_iff, mem_keys_iff, get?_alter]
  by_cases same : k = key
  · simp [same]
  · simp [same]

/-- Altering a map key by key adds these keys. -/
theorem mem_keys_foldl_alter {α : Type} {key : α → κ} {f : α → Option ν → ν} {l : List α}
    {map : SortedMap κ ν} {k : κ} :
    k ∈ (l.foldl (fun map a => map.alter (key a) (f a)) map).keys ↔
      k ∈ map.keys ∨ k ∈ l.map key := by
  induction l generalizing map with
  | nil => simp
  | cons a l ih =>
    rw [List.foldl_cons, ih, mem_keys_alter, List.map_cons, List.mem_cons, or_assoc, or_left_comm]

/-- The keys of a list's map are those of the list. -/
theorem mem_keys_ofList {entries : List (κ × ν)} {k : κ} :
    k ∈ (ofList entries).keys ↔ k ∈ entries.map (·.1) := by
  apply Iff.trans mem_keys_foldl_alter
  simp [empty, keys]

end Keys

end SortedMap

namespace SortedSet
variable {κ : Type} [Ord κ] [Std.LawfulEqOrd κ]

theorem mem_insertMember {key k : κ} {keys : List κ} :
    k ∈ insertMember key keys ↔ k = key ∨ k ∈ keys := by
  induction keys with
  | nil => simp [insertMember]
  | cons first keys ih =>
    rw [insertMember]
    split
    · simp
    · next same =>
      obtain rfl := Std.LawfulEqOrd.eq_of_compare same
      simp
    · rw [List.mem_cons, ih, List.mem_cons, or_left_comm]

/-- No member comes twice. -/
theorem nodup_members (set : SortedSet κ) : set.members.Nodup := by
  refine set.increasing.imp fun {a b} lt same => ?_
  subst same
  have self : compare a a = .eq := Std.ReflCmp.compare_self
  rw [self] at lt
  simp at lt

variable [Std.TransOrd κ]

theorem mem_insertAll {set : SortedSet κ} {keys : List κ} {k : κ} :
    k ∈ (set.insertAll keys).members ↔ k ∈ set.members ∨ k ∈ keys := by
  induction keys generalizing set with
  | nil => simp [insertAll]
  | cons key keys ih =>
    have step : k ∈ (set.insert key).members ↔ k = key ∨ k ∈ set.members := mem_insertMember
    have rest : k ∈ ((set.insert key).insertAll keys).members ↔
        k ∈ (set.insert key).members ∨ k ∈ keys := ih
    rw [insertAll, List.foldl_cons, ← insertAll, rest, step, List.mem_cons, or_assoc, or_left_comm]

theorem mem_ofList {keys : List κ} {k : κ} : k ∈ (ofList keys).members ↔ k ∈ keys := by
  rw [ofList, mem_insertAll]
  simp [empty]

/-- Sets with the same members are equal. -/
theorem ext {set set' : SortedSet κ} (same : ∀ k, k ∈ set.members ↔ k ∈ set'.members) :
    set = set' := by
  have perm := (List.perm_ext_iff_of_nodup set.nodup_members set'.nodup_members).2 same
  have antisymm (a b : κ) (lt : compare a b = .lt) (gt : compare b a = .lt) : a = b := by
    have := Std.TransCmp.lt_trans lt gt
    simp at this
  have equal : set.members = set'.members :=
    List.Perm.eq_of_pairwise (fun a b _ _ => antisymm a b) set.increasing set'.increasing perm
  cases set; cases set'; cases equal; rfl

end SortedSet
end Markers

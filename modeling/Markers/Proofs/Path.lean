import Markers.Path

/-!
# Paths by their components

Paths compare equal when they have the same components (`Path.compare_eq_iff`), however they are
written. A file name is cut at its last dot (`Path.cutName_of_dot`), so nothing behind the cut has
one.
-/

namespace Markers

namespace Component

theorem eq_of_rank_of_nameText {a b : Component} (rank : a.rank = b.rank)
    (nameText : a.nameText = b.nameText) : a = b := by
  cases a <;> cases b <;> simp_all [Component.rank, Component.nameText]

/-- Components that compare equal are equal. -/
instance : Std.LawfulEqOrd Component where
  eq_of_compare {a b} same := by
    obtain ⟨rank, nameText⟩ := compareLex_eq_eq.1 same
    exact eq_of_rank_of_nameText (Std.LawfulEqOrd.eq_of_compare rank)
      (Std.LawfulEqOrd.eq_of_compare nameText)

end Component

namespace Path

theorem compare_eq_iff {p q : Path} : compare p q = .eq ↔ p.same q = true := by
  have components : compare p q = compare p.components q.components := rfl
  rw [components, Std.LawfulEqOrd.compare_eq_iff_eq, same, beq_iff_eq]

/-! ## Extensions -/

theorem takeWhile_append_of_plain {after : List Char} (plain : '.' ∉ after) (front : List Char) :
    (after.reverse ++ front).takeWhile (· ≠ '.') = after.reverse ++ front.takeWhile (· ≠ '.') := by
  apply List.takeWhile_append_of_pos
  intro c mem
  exact decide_eq_true fun same => plain (same ▸ List.mem_reverse.1 mem)

theorem cutName_of_not_mem {name : List Char} (plain : '.' ∉ name) : cutName name = (name, none) := by
  have all : name.reverse.takeWhile (· ≠ '.') = name.reverse := by
    simpa using takeWhile_append_of_plain plain []
  rw [cutName, all, List.reverse_reverse]
  simp only [or_true, if_true]

/-- A name with dots is cut at the last one, unless that is its first character. -/
theorem cutName_of_dot {after : List Char} (stem : List Char) (last : '.' ∉ after) :
    cutName (stem ++ '.' :: after) =
      if stem = [] then (stem ++ '.' :: after, none) else (stem, some after) := by
  have behind : ((stem ++ '.' :: after).reverse.takeWhile (· ≠ '.')).reverse = after := by
    rw [List.reverse_append, List.reverse_cons, List.append_assoc, takeWhile_append_of_plain last]
    simp
  have front : (stem ++ '.' :: after).length - after.length - 1 = stem.length := by
    simp only [List.length_append, List.length_cons]
    omega
  have shorter : after.length ≠ (stem ++ '.' :: after).length := by
    simp only [List.length_append, List.length_cons]
    omega
  rw [cutName, behind, front, List.take_left]
  simp only [shorter, or_false]

/-- A name has no dot, or a last one. -/
theorem exists_last_dot (name : List Char) :
    '.' ∉ name ∨ ∃ stem after, name = stem ++ '.' :: after ∧ '.' ∉ after := by
  by_cases mem : '.' ∈ name
  · obtain ⟨after, stem, split, first⟩ := List.eq_append_cons_of_mem (List.mem_reverse.2 mem)
    refine .inr ⟨stem.reverse, after.reverse, ?_, mt List.mem_reverse.1 first⟩
    rw [← List.reverse_reverse name, split]
    simp
  · exact .inl mem

end Path
end Markers

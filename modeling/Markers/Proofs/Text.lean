import Markers.Text.Blank
import Markers.Text.Bytes
import Mathlib.Data.List.Infix

/-!
# Cutting and trimming texts

Two ways to cut one text at offsets fit together: the cut at the smaller offset splits the leading
part of the other one (`append_of_le`). `slice?` between two cuts gives the characters between
them. `trimEnd` keeps a leading part that ends in no blank.
-/

namespace Markers.Text

/-! ## Cuts -/

/-- Of two ways to cut a text, the one at the smaller offset cuts the leading part of the other. -/
theorem append_of_le {a b a' b' : List Char} (same : a ++ b = a' ++ b')
    (le : byteLength a ≤ byteLength a') : ∃ x, a' = a ++ x ∧ b = x ++ b' := by
  induction a generalizing a' with
  | nil => exact ⟨a', rfl, same⟩
  | cons c a ih =>
    cases a' with
    | nil =>
      have := c.utf8Size_pos
      simp only [byteLength_cons, byteLength_nil] at le
      omega
    | cons d a' =>
      simp only [List.cons_append, List.cons.injEq] at same
      obtain ⟨rfl, same⟩ := same
      simp only [byteLength_cons] at le
      obtain ⟨x, rfl, rfl⟩ := ih same (by omega)
      exact ⟨x, rfl, rfl⟩

/-- A text is cut in one way at an offset. -/
theorem append_inj_of_byteLength {a b a' b' : List Char} (same : a ++ b = a' ++ b')
    (eq : byteLength a = byteLength a') : a = a' ∧ b = b' := by
  obtain ⟨x, rfl, rfl⟩ := append_of_le same (Nat.le_of_eq eq)
  have empty : x = [] := by
    apply Decidable.byContradiction
    intro nonempty
    have := byteLength_pos nonempty
    simp only [byteLength_append] at eq
    omega
  simp [empty]

/-- A character that is not among those of a part stands behind it. -/
theorem byteLength_le_of_not_mem {a part s before rest : List Char} {c : Char}
    (same : a ++ part ++ s = before ++ c :: rest) (behind : byteLength a ≤ byteLength before)
    (other : c ∉ part) : byteLength (a ++ part) ≤ byteLength before := by
  by_contra inside
  rw [List.append_assoc] at same
  obtain ⟨x, rfl, split⟩ := append_of_le same behind
  simp only [byteLength_append] at inside
  obtain ⟨y, rfl, here⟩ := append_of_le split.symm (by omega)
  cases y with
  | nil => simp at inside
  | cons d y =>
    cases here
    exact other (by simp)

theorem slice?_append (a b c : List Char) :
    slice? (a ++ b ++ c) (byteLength a) (byteLength a + byteLength b) = some b := by
  unfold slice?
  rw [if_pos (by omega), List.append_assoc, dropBytes?_append, Option.bind_some,
    Nat.add_sub_cancel_left, takeBytes?_append]

/-- The first bytes of a text are a leading part of it, and as many as were asked for. -/
theorem takeBytes?_eq_some {s t : List Char} {n : Nat} (h : takeBytes? s n = some t) :
    ∃ rest, s = t ++ rest ∧ byteLength t = n := by
  induction s generalizing n t with
  | nil =>
    cases n with
    | zero =>
      cases h
      exact ⟨[], rfl, rfl⟩
    | succ n => simp [takeBytes?] at h
  | cons c s ih =>
    cases n with
    | zero =>
      cases h
      exact ⟨c :: s, rfl, rfl⟩
    | succ n =>
      rw [takeBytes?] at h
      split at h
      · obtain ⟨t, taken, rfl⟩ := Option.map_eq_some_iff.1 h
        obtain ⟨rest, rfl, length⟩ := ih taken
        refine ⟨rest, rfl, ?_⟩
        rw [byteLength_cons, length]
        omega
      · simp at h

theorem byteLength_of_takeBytes? {s t : List Char} {n : Nat} (h : takeBytes? s n = some t) :
    byteLength t = n := by
  obtain ⟨_, _, length⟩ := takeBytes?_eq_some h
  exact length

theorem byteLength_of_slice? {s t : List Char} {a b : Nat} (h : slice? s a b = some t) :
    a + byteLength t = b := by
  unfold slice? at h
  split at h
  · obtain ⟨rest, _, taken⟩ := Option.bind_eq_some_iff.1 h
    rw [byteLength_of_takeBytes? taken]
    omega
  · simp at h

/-! ## Trimming -/

/-- What `trimEnd` keeps ends in no blank. -/
theorem isBlank_of_getLast?_trimEnd {s : List Char} {c : Char}
    (last : (trimEnd s).getLast? = some c) : isBlank c = false := by
  induction s with
  | nil => simp [trimEnd] at last
  | cons d s ih =>
    rw [trimEnd] at last
    split at last
    · split at last
      · simp at last
      · next solid =>
        cases last
        simpa using solid
    · next e t kept =>
      rw [kept] at ih
      rw [List.getLast?_cons_cons] at last
      exact ih last

theorem trimEnd_cons (c : Char) (s : List Char) :
    trimEnd (c :: s) = if trimEnd s = [] ∧ isBlank c = true then [] else c :: trimEnd s := by
  rw [trimEnd]
  cases trimEnd s <;> simp

theorem trimEnd_eq_nil_iff {s : List Char} : trimEnd s = [] ↔ ∀ c ∈ s, isBlank c = true := by
  induction s with
  | nil => simp [trimEnd]
  | cons d s ih =>
    rw [trimEnd, List.forall_mem_cons, ← ih]
    split
    · next blank => by_cases h : isBlank d = true <;> simp [h, blank]
    · next kept => simp [kept]

/-- A text with a character that is not blank is not blank. -/
theorem trim_ne_nil_of_mem {s : List Char} {c : Char} (mem : c ∈ s) (solid : isBlank c = false) :
    trim s ≠ [] := by
  intro empty
  have behind := trimEnd_eq_nil_iff.1 empty
  have front : ∀ c ∈ s.takeWhile isBlank, isBlank c = true := List.all_eq_true.1 List.all_takeWhile
  rw [← List.takeWhile_append_dropWhile (p := isBlank) (l := s), List.mem_append] at mem
  have blank : isBlank c = true := mem.elim (front c) (behind c)
  rw [solid] at blank
  cases blank

/-- Blanks behind a text make no difference to what is left of it. -/
theorem trimEnd_append_of_blank (s : List Char) {t : List Char}
    (blank : ∀ c ∈ t, isBlank c = true) : trimEnd (s ++ t) = trimEnd s := by
  induction s with
  | nil => exact trimEnd_eq_nil_iff.2 blank
  | cons c s ih => rw [List.cons_append, trimEnd_cons, ih, trimEnd_cons]

/-- A text without blanks is what is left of it between blanks. -/
theorem trim_of_solid {front s back : List Char} (blank : ∀ c ∈ front, isBlank c = true)
    (blank' : ∀ c ∈ back, isBlank c = true) (solid : ∀ c ∈ s, isBlank c = false) (inside : s ≠ []) :
    trim (front ++ s ++ back) = s := by
  have start : trimStart (front ++ s ++ back) = s ++ back := by
    obtain ⟨c, t, rfl⟩ := List.exists_cons_of_ne_nil inside
    rw [trimStart, List.append_assoc, List.dropWhile_append_of_pos blank, List.cons_append,
      List.dropWhile_cons_of_neg (by simp [solid c (List.mem_cons_self ..)])]
  obtain ⟨blanks, split, all⟩ := trimEnd_append_blanks s
  have none : blanks = [] := by
    refine List.eq_nil_iff_forall_not_mem.2 fun c mem => ?_
    have solid := solid c (split ▸ List.mem_append_right _ mem)
    rw [all c mem] at solid
    cases solid
  rw [none, List.append_nil] at split
  rw [trim, start, trimEnd_append_of_blank s blank', ← split]

theorem byteLength_trimEnd_le (s : List Char) : byteLength (trimEnd s) ≤ byteLength s := by
  obtain ⟨blanks, split, _⟩ := trimEnd_append_blanks s
  have total := congrArg byteLength split
  rw [byteLength_append] at total
  omega

/-! ## Line breaks -/

/-- Whether a text is empty or begins with a line break. -/
def Breaks (t : List Char) : Prop :=
  ∀ c ∈ t.head?, c = '\n' ∨ c = '\r'

theorem Breaks.not_isAlphanum {t : List Char} (breaks : Breaks t) :
    ∀ c ∈ t.head?, c.isAlphanum = false := by
  intro c mem
  rcases breaks c mem with rfl | rfl <;> rfl

/-! ## The end of a line -/

theorem takeWhile_append_cons {p : Char → Bool} {c : Char} (stops : p c = false)
    (s t : List Char) : (s ++ c :: t).takeWhile p = s.takeWhile p := by
  induction s with
  | nil => rw [List.nil_append, List.takeWhile_cons, stops]; rfl
  | cons d s ih => rw [List.cons_append, List.takeWhile_cons, ih, List.takeWhile_cons]

theorem dropWhile_append_cons {p : Char → Bool} {c : Char} (stops : p c = false)
    (s t : List Char) : (s ++ c :: t).dropWhile p = s.dropWhile p ++ c :: t := by
  induction s with
  | nil => rw [List.nil_append, List.dropWhile_cons, stops]; rfl
  | cons d s ih =>
    rw [List.cons_append, List.dropWhile_cons, ih, List.dropWhile_cons]
    split <;> rfl

theorem isPrefixOf?_append_cons {literal : List Char} {c : Char} (other : c ∉ literal)
    (s t : List Char) :
    literal.isPrefixOf? (s ++ c :: t) = (literal.isPrefixOf? s).map (· ++ c :: t) := by
  induction literal generalizing s with
  | nil => rfl
  | cons d literal ih =>
    simp only [List.mem_cons, not_or] at other
    cases s with
    | nil => simp [List.isPrefixOf?, Ne.symm other.1]
    | cons e s =>
      show (if d == e then literal.isPrefixOf? (s ++ c :: t) else none) =
        (if d == e then literal.isPrefixOf? s else none).map (· ++ c :: t)
      rw [ih other.2]
      split <;> rfl

/-! ## Blanks and words -/

/-- A character that is not blank keeps what stands in front of it from the trimming at the end. -/
theorem trimEnd_append_cons {c : Char} (solid : isBlank c = false) (s t : List Char) :
    trimEnd (s ++ c :: t) = s ++ c :: trimEnd t := by
  induction s with
  | nil => rw [List.nil_append, trimEnd_cons, solid]; simp
  | cons d s ih => rw [List.cons_append, trimEnd_cons, ih]; simp

/-- Around a character that is not blank either side is trimmed by itself. -/
theorem trim_append_cons {c : Char} (solid : isBlank c = false) (s t : List Char) :
    trim (s ++ c :: t) = trimStart s ++ c :: trimEnd t := by
  rw [trim, trimStart, dropWhile_append_cons solid, trimEnd_append_cons solid, trimStart]

/-- No letter or digit is blank. -/
theorem not_isAlphanum_of_isBlank {c : Char} (blank : isBlank c = true) : c.isAlphanum = false := by
  apply Bool.eq_false_iff.2
  intro word
  have range : ((65 ≤ c.toNat ∧ c.toNat ≤ 90) ∨ (97 ≤ c.toNat ∧ c.toNat ≤ 122)) ∨
      (48 ≤ c.toNat ∧ c.toNat ≤ 57) := by
    rcases Bool.or_eq_true_iff.1 word with alpha | digit
    · rcases Bool.or_eq_true_iff.1 alpha with upper | lower
      · exact .inl (.inl (of_decide_eq_true upper))
      · obtain ⟨low, high⟩ := Bool.and_eq_true_iff.1 lower
        exact .inl (.inr ⟨of_decide_eq_true low, of_decide_eq_true high⟩)
    · obtain ⟨low, high⟩ := Bool.and_eq_true_iff.1 digit
      exact .inr ⟨of_decide_eq_true low, of_decide_eq_true high⟩
  simp only [isBlank, blankRanges, List.any_cons, List.any_nil, Bool.or_false, Bool.or_eq_true,
    Bool.and_eq_true, decide_eq_true_eq] at blank
  omega

end Markers.Text

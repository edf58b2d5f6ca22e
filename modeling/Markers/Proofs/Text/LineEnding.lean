import Markers.Proofs.Position
import Mathlib.Data.List.Infix

/-!
# Carriage returns in front of newlines

`toCrlf` writes a carriage return in front of every newline. A test that does not tell the two
characters apart stops at the same place with or without them (`takeWhile_toCrlf`), positions stay
the same (`Position.after_toCrlf`), and a cut of the longer text is one of the shorter text, or
separates the two characters (`exists_of_toCrlf_eq_append`).
-/

namespace Markers.Text

/-- A text with a carriage return in front of every newline. -/
def toCrlf : List Char → List Char
  | [] => []
  | c :: s => if c = '\n' then '\r' :: '\n' :: toCrlf s else c :: toCrlf s

@[simp] theorem toCrlf_nil : toCrlf [] = [] := rfl

@[simp] theorem toCrlf_newline (s : List Char) :
    toCrlf ('\n' :: s) = '\r' :: '\n' :: toCrlf s := rfl

theorem toCrlf_cons {c : Char} (other : c ≠ '\n') (s : List Char) :
    toCrlf (c :: s) = c :: toCrlf s :=
  if_neg other

@[simp] theorem toCrlf_append (a b : List Char) : toCrlf (a ++ b) = toCrlf a ++ toCrlf b := by
  induction a with
  | nil => rfl
  | cons c a ih =>
    rw [List.cons_append, toCrlf, toCrlf, ih]
    split <;> rfl

theorem toCrlf_of_not_mem {s : List Char} (oneLine : '\n' ∉ s) : toCrlf s = s := by
  induction s with
  | nil => rfl
  | cons c s ih =>
    simp only [List.mem_cons, not_or] at oneLine
    rw [toCrlf_cons (Ne.symm oneLine.1), ih oneLine.2]

theorem byteLength_toCrlf (s : List Char) :
    byteLength (toCrlf s) = byteLength s + s.count '\n' := by
  induction s with
  | nil => rfl
  | cons c s ih =>
    by_cases newline : c = '\n'
    · subst newline
      have cr : Char.utf8Size '\r' = 1 := rfl
      rw [toCrlf_newline, byteLength_cons, byteLength_cons, byteLength_cons, ih,
        List.count_cons_self]
      omega
    · rw [toCrlf_cons newline, byteLength_cons, byteLength_cons, ih, List.count_cons_of_ne newline]
      omega

theorem toCrlf_eq_nil_iff {s : List Char} : toCrlf s = [] ↔ s = [] := by
  cases s with
  | nil => simp
  | cons c s =>
    rw [toCrlf]
    split <;> simp

/-- A text that begins with neither keeps its first character. -/
theorem head?_toCrlf {s : List Char} {c : Char} (first : c ∈ (toCrlf s).head?) :
    c ∈ s.head? ∨ c = '\r' ∧ '\n' ∈ s.head? := by
  cases s with
  | nil => simp at first
  | cons d s =>
    by_cases newline : d = '\n'
    · subst newline
      cases first
      exact .inr ⟨rfl, rfl⟩
    · rw [toCrlf_cons newline] at first
      exact .inl first

/-- A text begins with any other character as it does without carriage returns. -/
theorem head?_toCrlf_iff {s : List Char} {c : Char} (noCr : c ≠ '\r') (noNewline : c ≠ '\n') :
    (toCrlf s).head? = some c ↔ s.head? = some c := by
  constructor
  · intro first
    exact (head?_toCrlf first).resolve_right fun cr => noCr cr.1
  · intro first
    obtain ⟨s, rfl⟩ := List.head?_eq_some_iff.1 first
    rw [toCrlf_cons noNewline]
    rfl

/-- A cut between the characters of the longer text is one of the shorter text, or it separates a
carriage return from its newline. -/
theorem exists_of_toCrlf_eq_append {s x y : List Char} (split : toCrlf s = x ++ y) :
    (∃ a b, s = a ++ b ∧ x = toCrlf a ∧ y = toCrlf b) ∨
      ∃ a b, s = a ++ '\n' :: b ∧ x = toCrlf a ++ ['\r'] ∧ y = '\n' :: toCrlf b := by
  induction s generalizing x with
  | nil =>
    obtain ⟨rfl, rfl⟩ := List.append_eq_nil_iff.1 split.symm
    exact .inl ⟨[], [], rfl, rfl, rfl⟩
  | cons c s ih =>
    -- what is cut behind the first character is cut in the rest
    have later : ∀ z, toCrlf s = z ++ y →
        (∃ a b, c :: s = a ++ b ∧ toCrlf [c] ++ z = toCrlf a ∧ y = toCrlf b) ∨
          ∃ a b, c :: s = a ++ '\n' :: b ∧ toCrlf [c] ++ z = toCrlf a ++ ['\r'] ∧
            y = '\n' :: toCrlf b := by
      intro z split
      rcases ih split with ⟨a, b, rfl, rfl, rfl⟩ | ⟨a, b, rfl, rfl, rfl⟩
      · exact .inl ⟨c :: a, b, rfl, by rw [← toCrlf_append]; rfl, rfl⟩
      · refine .inr ⟨c :: a, b, rfl, ?_, rfl⟩
        rw [← List.append_assoc, ← toCrlf_append]
        rfl
    cases x with
    | nil => exact .inl ⟨[], c :: s, rfl, rfl, split.symm⟩
    | cons d x =>
      by_cases newline : c = '\n'
      · subst newline
        rw [toCrlf_newline, List.cons_append, List.cons.injEq] at split
        obtain ⟨rfl, split⟩ := split
        cases x with
        | nil => exact .inr ⟨[], s, rfl, rfl, split.symm⟩
        | cons e x =>
          rw [List.cons_append, List.cons.injEq] at split
          obtain ⟨rfl, split⟩ := split
          exact later x split
      · rw [toCrlf_cons newline, List.cons_append, List.cons.injEq] at split
        obtain ⟨rfl, split⟩ := split
        have first : toCrlf [c] = [c] := toCrlf_cons newline []
        rw [first] at later
        exact later x split

/-- No character or the carriage return of a newline that follows. -/
inductive CrBefore (rest : List Char) : List Char → Prop where
  | nothing : CrBefore rest []
  | newline (behind : List Char) (follows : rest = '\n' :: behind) : CrBefore rest ['\r']

theorem CrBefore.exists_toCrlf {rest cr : List Char} (h : CrBefore rest cr) :
    ∃ rest', toCrlf rest = cr ++ rest' := by
  cases h with
  | nothing => exact ⟨toCrlf rest, rfl⟩
  | newline behind follows =>
    subst follows
    exact ⟨'\n' :: toCrlf behind, rfl⟩

theorem CrBefore.isBlank {rest cr : List Char} (h : CrBefore rest cr) :
    ∀ c ∈ cr, isBlank c = true := by
  cases h with
  | nothing => simp
  | newline => simp only [List.mem_singleton, forall_eq]; rfl

/-- A cut further on is further on in the longer text. -/
theorem byteLength_toCrlf_lt {a b a' b' : List Char} (same : a ++ b = a' ++ b')
    (lt : byteLength a < byteLength a') : byteLength (toCrlf a) < byteLength (toCrlf a') := by
  obtain ⟨x, rfl, _⟩ := append_of_le same (Nat.le_of_lt lt)
  rw [byteLength_append] at lt
  rw [toCrlf_append, byteLength_append, byteLength_toCrlf x]
  omega

theorem byteLength_toCrlf_le {a b a' b' : List Char} (same : a ++ b = a' ++ b')
    (le : byteLength a ≤ byteLength a') : byteLength (toCrlf a) ≤ byteLength (toCrlf a') := by
  obtain ⟨x, rfl, _⟩ := append_of_le same le
  rw [toCrlf_append, byteLength_append]
  omega

/-! ## Tests that do not tell the two characters apart -/

section
variable {p : Char → Bool} (alike : p '\r' = p '\n')
include alike

theorem takeWhile_toCrlf (s : List Char) :
    (toCrlf s).takeWhile p = toCrlf (s.takeWhile p) := by
  induction s with
  | nil => rfl
  | cons c s ih =>
    by_cases newline : c = '\n'
    · subst newline
      rw [toCrlf_newline, List.takeWhile_cons, List.takeWhile_cons, List.takeWhile_cons, alike, ih]
      split <;> rfl
    · rw [toCrlf_cons newline, List.takeWhile_cons, List.takeWhile_cons, ih]
      split
      · rw [toCrlf_cons newline]
      · rfl

theorem dropWhile_toCrlf (s : List Char) :
    (toCrlf s).dropWhile p = toCrlf (s.dropWhile p) := by
  induction s with
  | nil => rfl
  | cons c s ih =>
    by_cases newline : c = '\n'
    · subst newline
      rw [toCrlf_newline, List.dropWhile_cons, List.dropWhile_cons, List.dropWhile_cons, alike, ih]
      split <;> rfl
    · rw [toCrlf_cons newline, List.dropWhile_cons, List.dropWhile_cons, ih]
      split
      · rfl
      · rw [toCrlf_cons newline]

end

theorem isPrefixOf?_toCrlf {literal : List Char} (plain : '\n' ∉ literal ∧ '\r' ∉ literal)
    (s : List Char) : literal.isPrefixOf? (toCrlf s) = (literal.isPrefixOf? s).map toCrlf := by
  induction literal generalizing s with
  | nil => rfl
  | cons c literal ih =>
    simp only [List.mem_cons, not_or] at plain
    obtain ⟨⟨noNewline, plain⟩, noCr, plain'⟩ := plain
    cases s with
    | nil => rfl
    | cons d s =>
      by_cases newline : d = '\n'
      · subst newline
        simp [List.isPrefixOf?, Ne.symm noNewline, Ne.symm noCr]
      · rw [toCrlf_cons newline]
        show (if c == d then literal.isPrefixOf? (toCrlf s) else none) =
          (if c == d then literal.isPrefixOf? s else none).map toCrlf
        rw [ih ⟨plain, plain'⟩]
        split <;> rfl

theorem isPrefixOf_toCrlf {literal : List Char} (plain : '\n' ∉ literal ∧ '\r' ∉ literal)
    (s : List Char) : literal.isPrefixOf (toCrlf s) = literal.isPrefixOf s := by
  rw [← List.isSome_isPrefixOf?_eq_isPrefixOf, isPrefixOf?_toCrlf plain, Option.isSome_map,
    List.isSome_isPrefixOf?_eq_isPrefixOf]

theorem trimEnd_toCrlf (s : List Char) : trimEnd (toCrlf s) = toCrlf (trimEnd s) := by
  induction s with
  | nil => rfl
  | cons c s ih =>
    by_cases newline : c = '\n'
    · subst newline
      have newline : isBlank '\n' = true := rfl
      have cr : isBlank '\r' = true := rfl
      rw [toCrlf_newline, trimEnd_cons, trimEnd_cons, trimEnd_cons, ih]
      by_cases none : trimEnd s = []
      · simp [none, newline, cr]
      · simp [none, toCrlf_eq_nil_iff]
    · rw [toCrlf_cons newline, trimEnd_cons, trimEnd_cons, ih]
      simp only [toCrlf_eq_nil_iff]
      split
      · rfl
      · rw [toCrlf_cons newline]

end Markers.Text

namespace Markers.Position
open Text

/-- No line gets longer by what stands in front of its newline. -/
theorem after_toCrlf (p : Position) (s : List Char) : p.after (toCrlf s) = p.after s := by
  induction s generalizing p with
  | nil => rfl
  | cons c s ih =>
    by_cases newline : c = '\n'
    · subst newline
      rw [toCrlf_newline, after_cons, after_cons, after_cons, ih]
      rfl
    · rw [toCrlf_cons newline, after_cons, after_cons, ih]

end Markers.Position

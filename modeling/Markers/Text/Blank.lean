/-!
# Blank characters

`isBlank` is the Unicode property White_Space. `trimStart` and `trimEnd` remove the blank
characters at one end of a text; `trimEnd_append_blanks` says that what `trimEnd` removes is blank.
-/

namespace Markers.Text

/-- The code points with the property White_Space, as inclusive ranges. -/
def blankRanges : List (Nat × Nat) :=
  [(0x09, 0x0D), (0x20, 0x20), (0x85, 0x85), (0xA0, 0xA0), (0x1680, 0x1680), (0x2000, 0x200A),
    (0x2028, 0x2029), (0x202F, 0x202F), (0x205F, 0x205F), (0x3000, 0x3000)]

/-- Whether a character has the property White_Space. -/
def isBlank (c : Char) : Bool :=
  blankRanges.any fun r => decide (r.1 ≤ c.toNat) && decide (c.toNat ≤ r.2)

/-- A text without the blanks at its start. -/
def trimStart (s : List Char) : List Char :=
  s.dropWhile isBlank

/-- A text without the blanks at its end. -/
def trimEnd : List Char → List Char
  | [] => []
  | c :: s =>
    match trimEnd s with
    | [] => if isBlank c then [] else [c]
    | d :: t => c :: d :: t

/-- A text without the blanks at either end. -/
def trim (s : List Char) : List Char :=
  trimEnd (trimStart s)

theorem trimEnd_append_blanks (s : List Char) :
    ∃ blanks, s = trimEnd s ++ blanks ∧ ∀ c ∈ blanks, isBlank c = true := by
  induction s with
  | nil => exact ⟨[], rfl, by simp⟩
  | cons c s ih =>
    obtain ⟨blanks, split, all⟩ := ih
    simp only [trimEnd]
    cases ht : trimEnd s with
    | nil =>
      rw [ht, List.nil_append] at split
      by_cases hc : isBlank c = true
      · exact ⟨c :: blanks, by simp [hc, split], by simpa [hc] using all⟩
      · exact ⟨blanks, by simp [hc, split], all⟩
    | cons d t => exact ⟨blanks, by rw [ht] at split; rw [split]; rfl, all⟩

end Markers.Text

import Markers.Text.Anchor
import Mathlib.Data.List.Forall2

/-!
# Which headings share an anchor

An anchor has one character for each letter, digit, dash and space of the heading, and nothing else
(`toList_anchor`). `Writes` says which: it tells neither the case of a letter nor dash from space.
So an anchor is empty only if there is nothing to write (`exists_writes_iff`), and two headings
share one exactly if what is left of them differs in nothing else (`anchor_eq_anchor_iff`).
-/

namespace Markers.Text

/-- Whether an anchor has a character for a character of the heading. -/
def isAnchored (c : Char) : Bool :=
  c.isAlphanum || c = '-' || c = ' ' || c = '\u212A' || c = '\u0130'

/-- What an anchor has for a character of the heading. The last two are the characters outside ASCII
with a letter in their lower case form. -/
inductive Writes : Char → Char → Prop where
  | word {c : Char} (word : c.isAlphanum = true) : Writes c c.toLower
  | dash : Writes '-' '-'
  | space : Writes ' ' '-'
  | kelvin : Writes '\u212A' 'k'
  | dotted : Writes '\u0130' 'i'

/-- That an anchor has the same for two characters. -/
def SameInAnchor (c d : Char) : Prop :=
  ∃ a, Writes c a ∧ Writes d a

/-- That two headings agree in all that an anchor has a character for. -/
def SharesAnchor (heading heading' : String) : Prop :=
  List.Forall₂ SameInAnchor (heading.toList.filter isAnchored) (heading'.toList.filter isAnchored)

/-- The character of an anchor for one of the heading, if there is one. -/
def anchorChar (c : Char) : Char :=
  if c = ' ' then '-' else lowerAscii c

/-! ## Single characters -/

theorem Writes.isAnchored {c a : Char} (writes : Writes c a) : isAnchored c = true := by
  cases writes with
  | word word => rw [Text.isAnchored, word]; rfl
  | dash | space | kelvin | dotted => rfl

theorem Writes.eq_anchorChar {c a : Char} (writes : Writes c a) : a = anchorChar c := by
  cases writes with
  | word word =>
    have other {d : Char} (plain : d.isAlphanum = false) : c ≠ d := by
      rintro rfl
      rw [word] at plain
      cases plain
    rw [anchorChar, if_neg (other rfl), lowerAscii, if_neg (other rfl), if_neg (other rfl)]
  | dash | space | kelvin | dotted => rfl

theorem writes_anchorChar {c : Char} (kept : isAnchored c = true) : Writes c (anchorChar c) := by
  have writes : ∃ a, Writes c a := by
    simp only [isAnchored, Bool.or_eq_true, decide_eq_true_eq] at kept
    rcases kept with (((word | rfl) | rfl) | rfl) | rfl
    · exact ⟨_, .word word⟩
    · exact ⟨_, .dash⟩
    · exact ⟨_, .space⟩
    · exact ⟨_, .kelvin⟩
    · exact ⟨_, .dotted⟩
  obtain ⟨a, writes⟩ := writes
  rwa [← writes.eq_anchorChar]

/-- In lower case the letters and digits are what an anchor has besides dashes. -/
theorem isAnchorChar_toLower (c : Char) :
    isAnchorChar c.toLower = (c.isAlphanum || c = '-') := by
  show _ = (((c.isUpper || c.isLower) || c.isDigit) || c = '-')
  unfold Char.toLower
  split
  · next upper =>
    have range : 65 ≤ c.toNat ∧ c.toNat ≤ 90 :=
      ⟨UInt32.le_iff_toNat_le.1 upper.1, UInt32.le_iff_toNat_le.1 upper.2⟩
    have word : c.isUpper = true := decide_eq_true upper
    rw [word, isAnchorChar]
    unfold Char.isLower
    simp [UInt32.le_iff_toNat_le]
    omega
  · next plain =>
    have small : c.isUpper = false := decide_eq_false plain
    rw [small, Bool.false_or, isAnchorChar]

theorem isAnchorChar_anchorChar (c : Char) : isAnchorChar (anchorChar c) = isAnchored c := by
  by_cases space : c = ' '
  · subst space
    rfl
  by_cases kelvin : c = '\u212A'
  · subst kelvin
    rfl
  by_cases dotted : c = '\u0130'
  · subst dotted
    rfl
  rw [anchorChar, if_neg space, lowerAscii, if_neg kelvin, if_neg dotted, isAnchorChar_toLower]
  simp [isAnchored, space, kelvin, dotted]

/-! ## Headings -/

theorem toList_anchor (heading : String) :
    (anchor heading).toList = (heading.toList.filter isAnchored).map anchorChar := by
  rw [anchor, String.toList_ofList]
  show (heading.toList.map anchorChar).filter isAnchorChar = _
  rw [List.filter_map]
  congr 2
  exact funext isAnchorChar_anchorChar

/-- The anchor of a heading is empty exactly if it has no character for any of the heading. -/
theorem anchor_eq_empty_iff {heading : String} :
    anchor heading = "" ↔ ∀ c ∈ heading.toList, ∀ a, ¬Writes c a := by
  rw [← String.toList_eq_nil_iff, toList_anchor, List.map_eq_nil_iff, List.filter_eq_nil_iff]
  refine forall₂_congr fun c _ => ?_
  constructor
  · exact fun kept a writes => kept writes.isAnchored
  · exact fun none kept => none _ (writes_anchorChar kept)

/-- A heading has something for an anchor exactly if its anchor is not empty. -/
theorem exists_writes_iff {heading : String} :
    (∃ c ∈ heading.toList, ∃ a, Writes c a) ↔ anchor heading ≠ "" := by
  rw [Ne, anchor_eq_empty_iff]
  simp only [not_forall, not_not, exists_prop]

/-- Two headings have one anchor exactly if they agree in all that it has a character for. -/
theorem anchor_eq_anchor_iff {heading heading' : String} :
    anchor heading = anchor heading' ↔ SharesAnchor heading heading' := by
  have same (c d : Char) :
      SameInAnchor c d ↔ isAnchored c = true ∧ anchorChar c = anchorChar d := by
    constructor
    · rintro ⟨a, writes, writes'⟩
      exact ⟨writes.isAnchored, writes.eq_anchorChar.symm.trans writes'.eq_anchorChar⟩
    · rintro ⟨kept, eq⟩
      have kept' : isAnchored d = true := by
        rw [← isAnchorChar_anchorChar, ← eq, isAnchorChar_anchorChar, kept]
      exact ⟨anchorChar c, writes_anchorChar kept, eq ▸ writes_anchorChar kept'⟩
  rw [← String.toList_inj, toList_anchor, toList_anchor, SharesAnchor, ← List.forall₂_eq_eq_eq,
    List.forall₂_map_left_iff, List.forall₂_map_right_iff]
  have relation : SameInAnchor = fun c d => isAnchored c = true ∧ anchorChar c = anchorChar d :=
    funext fun c => funext fun d => propext (same c d)
  rw [relation, List.forall₂_and_left]
  refine (and_iff_right fun c mem => ?_).symm
  exact (List.mem_filter.1 mem).2

end Markers.Text

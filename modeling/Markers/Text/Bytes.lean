/-!
# Byte offsets into a text

A text is a list of characters; an offset into it counts the bytes of its UTF-8 form.
`dropBytes?`, `takeBytes?` and `slice?` are defined exactly where the offsets are character
boundaries inside the text. `dropBytes?_append` and `takeBytes?_append` say that cutting at the
length of a leading part gives that part and what follows it.
-/

namespace Markers.Text

/-- Number of bytes in the UTF-8 form. -/
def byteLength : List Char → Nat
  | [] => 0
  | c :: s => c.utf8Size + byteLength s

@[simp] theorem byteLength_nil : byteLength [] = 0 := rfl

@[simp] theorem byteLength_cons (c : Char) (s : List Char) :
    byteLength (c :: s) = c.utf8Size + byteLength s := rfl

@[simp] theorem byteLength_append (a b : List Char) :
    byteLength (a ++ b) = byteLength a + byteLength b := by
  induction a with
  | nil => simp
  | cons c a ih => simp [ih, Nat.add_assoc]

/-- Every character takes at least one byte. -/
theorem length_le_byteLength (s : List Char) : s.length ≤ byteLength s := by
  induction s with
  | nil => simp
  | cons c s ih =>
    have := c.utf8Size_pos
    simp only [List.length_cons, byteLength_cons]
    omega

theorem byteLength_pos {s : List Char} (h : s ≠ []) : 0 < byteLength s := by
  have := length_le_byteLength s
  have := List.length_pos_iff.2 h
  omega

/-- What follows the first `n` bytes; none when byte `n` is inside a character or past the end. -/
def dropBytes? : List Char → Nat → Option (List Char)
  | s, 0 => some s
  | [], _ + 1 => none
  | c :: s, n + 1 => if c.utf8Size ≤ n + 1 then dropBytes? s (n + 1 - c.utf8Size) else none

/-- The first `n` bytes; none when byte `n` is inside a character or past the end. -/
def takeBytes? : List Char → Nat → Option (List Char)
  | _, 0 => some []
  | [], _ + 1 => none
  | c :: s, n + 1 =>
    if c.utf8Size ≤ n + 1 then (takeBytes? s (n + 1 - c.utf8Size)).map (c :: ·) else none

/-- The bytes from offset `a` up to offset `b`. -/
def slice? (s : List Char) (a b : Nat) : Option (List Char) :=
  if a ≤ b then (dropBytes? s a).bind (takeBytes? · (b - a)) else none

theorem dropBytes?_append (a b : List Char) : dropBytes? (a ++ b) (byteLength a) = some b := by
  induction a with
  | nil => cases b <;> rfl
  | cons c a ih =>
    obtain ⟨n, hn⟩ : ∃ n, c.utf8Size + byteLength a = n + 1 :=
      ⟨c.utf8Size + byteLength a - 1, by have := c.utf8Size_pos; omega⟩
    have le : c.utf8Size ≤ n + 1 := by omega
    have rest : n + 1 - c.utf8Size = byteLength a := by omega
    simp [hn, dropBytes?, le, rest, ih]

theorem takeBytes?_append (a b : List Char) : takeBytes? (a ++ b) (byteLength a) = some a := by
  induction a with
  | nil => cases b <;> rfl
  | cons c a ih =>
    obtain ⟨n, hn⟩ : ∃ n, c.utf8Size + byteLength a = n + 1 :=
      ⟨c.utf8Size + byteLength a - 1, by have := c.utf8Size_pos; omega⟩
    have le : c.utf8Size ≤ n + 1 := by omega
    have rest : n + 1 - c.utf8Size = byteLength a := by omega
    simp [hn, takeBytes?, le, rest, ih]

end Markers.Text

/-!
# Padding

Widths count characters; a text that is too wide stays as it is.
-/

namespace Markers.Text

/-- A text with spaces behind it, up to a width. -/
def padEnd (width : Nat) (s : List Char) : List Char :=
  s ++ List.replicate (width - s.length) ' '

/-- A text with copies of a character in front of it, up to a width. -/
def padStartWith (c : Char) (width : Nat) (s : List Char) : List Char :=
  List.replicate (width - s.length) c ++ s

/-- A text with spaces in front of it, up to a width. -/
def padStart (width : Nat) (s : List Char) : List Char :=
  padStartWith ' ' width s

/-- The decimal digits of a number. -/
def decimal (n : Nat) : List Char :=
  Nat.toDigits 10 n

/-- Texts with a separator between them. -/
def join (separator : List Char) (texts : List (List Char)) : List Char :=
  List.intercalate separator texts

@[simp] theorem length_padEnd (width : Nat) (s : List Char) :
    (padEnd width s).length = max width s.length := by
  simp [padEnd]
  omega

@[simp] theorem length_padStartWith (c : Char) (width : Nat) (s : List Char) :
    (padStartWith c width s).length = max width s.length := by
  simp [padStartWith]
  omega

@[simp] theorem length_padStart (width : Nat) (s : List Char) :
    (padStart width s).length = max width s.length :=
  length_padStartWith ..

end Markers.Text

import Markers.Text.Bytes

/-!
# The pieces of a marker

A marker found in a text is cut into consecutive pieces: what opens the comment, the keyword, and
a body. `Match` places the pieces at an offset of the text, from which `Match.keywordEnd` and
`Match.stop` count forward.
-/

namespace Markers

/-- What follows the keyword of a marker. -/
inductive Body where
  /-- Text behind a separator, up to a closing delimiter if the comment has one. -/
  | content (separator text closer : List Char)
  /-- The rest of a line whose keyword has no colon. -/
  | tail (text : List Char)
  /-- Nothing but blanks and the closing delimiter. -/
  | absent (closer : List Char)
deriving DecidableEq, Repr

/-- The consecutive pieces of a marker; the keyword is empty when an item has none. -/
structure Shape where
  opener : List Char
  keyword : List Char
  body : Body
  opener_ne_nil : opener ≠ []
deriving Repr

/-- A marker at an offset of a text. -/
structure Match where
  start : Nat
  shape : Shape
deriving Repr

namespace Body

/-- All characters of the body. -/
def chars : Body → List Char
  | content separator text closer => separator ++ text ++ closer
  | tail text => text
  | absent closer => closer

end Body

namespace Match
open Text

/-- The offset of the keyword. -/
def keywordStart (m : Match) : Nat :=
  m.start + byteLength m.shape.opener

/-- The offset just past the keyword. -/
def keywordEnd (m : Match) : Nat :=
  m.keywordStart + byteLength m.shape.keyword

/-- The offset just past the whole match. -/
def stop (m : Match) : Nat :=
  m.keywordEnd + byteLength m.shape.body.chars

/-- The content with its offset, where the match has one. -/
def content? (m : Match) : Option (Nat × List Char) :=
  match m.shape.body with
  | .content separator text _ => some (m.keywordEnd + byteLength separator, text)
  | _ => none

theorem start_lt_keywordStart (m : Match) : m.start < m.keywordStart := by
  have := byteLength_pos m.shape.opener_ne_nil
  unfold keywordStart
  omega

theorem start_lt_keywordEnd (m : Match) : m.start < m.keywordEnd := by
  have := m.start_lt_keywordStart
  unfold keywordEnd
  omega

theorem start_lt_stop (m : Match) : m.start < m.stop := by
  have := m.start_lt_keywordEnd
  unfold stop
  omega

theorem start_lt_of_content? {m : Match} {p : Nat × List Char} (h : m.content? = some p) :
    m.start < p.1 := by
  have := m.start_lt_keywordEnd
  unfold content? at h
  split at h
  · cases h
    simp only
    omega
  · simp at h

end Match
end Markers

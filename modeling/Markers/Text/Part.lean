/-!
# Parts of texts

`contains` looks for a text inside another one, at any place.
-/

namespace Markers.Text

/-- Whether a text contains another one. -/
def contains (part : List Char) : List Char → Bool
  | [] => part.isEmpty
  | c :: s => part.isPrefixOf (c :: s) || contains part s

end Markers.Text

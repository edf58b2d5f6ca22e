import Markers.Kind
import Markers.Position

/-!
# Markers

A marker is what scanning a text finds: its kind, its body, and where both lie.
-/

namespace Markers

/-- A marker in a text. The span goes from the keyword, or the body of an item without one, to the
last character of the body, or of the keyword when the body is empty. -/
structure Marker where
  kind : Kind
  text : String
  start : Position
  stop : Position
deriving DecidableEq, Repr

end Markers

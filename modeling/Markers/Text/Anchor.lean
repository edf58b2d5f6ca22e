/-!
# Heading anchors

The anchor of a heading is its text in lower case, with dashes for spaces and without anything but
ASCII letters, digits and dashes. Two characters outside ASCII have an ASCII letter in their lower
case form: the Kelvin sign and the capital I with a dot.
-/

namespace Markers.Text

/-- The ASCII part of the lower case form of a character. -/
def lowerAscii (c : Char) : Char :=
  if c = '\u212A' then 'k' else if c = '\u0130' then 'i' else c.toLower

/-- Whether a character may stand in an anchor. -/
def isAnchorChar (c : Char) : Bool :=
  c.isLower || c.isDigit || c = '-'

/-- The anchor of a heading. -/
def anchor (heading : String) : String :=
  String.ofList <| (heading.toList.map fun c => if c = ' ' then '-' else lowerAscii c).filter
    isAnchorChar

end Markers.Text

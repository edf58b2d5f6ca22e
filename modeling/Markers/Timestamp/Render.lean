import Markers.Text.Pad
import Markers.Timestamp

/-!
# Writing timestamps

`Instant.render` writes a time in UTC. The fraction has three, six or nine digits, as few as it
takes, and none for a whole second.
-/

namespace Markers.Instant
open Text

/-- The year that a day falls in, counted in days from the start of year 0. Years have four
digits. -/
def yearOf (day : Nat) : Nat :=
  ((List.range 9999).takeWhile fun year => decide (daysBeforeYear (year + 1) ≤ day)).length

/-- The month that a day of a year falls in, counted from the first day as 0. -/
def monthOf (year day : Nat) : Nat :=
  ((List.range 11).takeWhile fun m => decide (daysBeforeMonth year (m + 2) ≤ day)).length + 1

/-- A number in at least `width` digits. -/
def field (width n : Nat) : List Char :=
  padStartWith '0' width (decimal n)

/-- The date of a day counted from the start of year 0. -/
def renderDate (day : Nat) : List Char :=
  let year := yearOf day
  let dayOfYear := day - daysBeforeYear year
  let month := monthOf year dayOfYear
  field 4 year ++ '-' :: field 2 month ++
    '-' :: field 2 (dayOfYear - daysBeforeMonth year month + 1)

/-- The time of a second of a day. -/
def renderTime (second : Nat) : List Char :=
  field 2 (second / 3600) ++ ':' :: field 2 (second / 60 % 60) ++ ':' :: field 2 (second % 60)

/-- The fraction of a second. -/
def renderFraction (nanos : Nat) : List Char :=
  if nanos = 0 then []
  else if nanos % 1000000 = 0 then '.' :: field 3 (nanos / 1000000)
  else if nanos % 1000 = 0 then '.' :: field 6 (nanos / 1000)
  else '.' :: field 9 nanos

/-- The timestamp in UTC of a time since the start of 1970. -/
def render (seconds nanos : Nat) : String :=
  String.ofList <|
    renderDate (dayNumber 1970 1 1 + seconds / 86400) ++ 'T' :: renderTime (seconds % 86400) ++
      renderFraction nanos ++ "+00:00".toList

end Markers.Instant

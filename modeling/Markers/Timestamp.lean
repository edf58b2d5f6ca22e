import Markers.Sum
import Markers.Text.Bytes

/-!
# RFC 3339 timestamps

`Instant.parse` reads a timestamp with a four-digit year, an optional fraction and a numeric offset
or `Z`. The first fault from left to right is reported: the form of the date, its range, the form
of the time, its range, the form of the offset, what follows it, and the offset's range. A second
of 60 is the second before, with a nanosecond count of at least one second.
-/

namespace Markers

/-- Why a text is no timestamp. -/
inductive TimestampFault where
  | tooShort
  | invalid
  | outOfRange
  | trailing
deriving DecidableEq, Repr

namespace TimestampFault

/-- The fault in words. -/
def message : TimestampFault → String
  | tooShort => "premature end of input"
  | invalid => "input contains invalid characters"
  | outOfRange => "input is out of range"
  | trailing => "trailing input"

end TimestampFault

/-- A point in time, with the offset from UTC at which it was written. -/
structure Instant where
  /-- Seconds since 1970-01-01T00:00:00Z. -/
  seconds : Int
  /-- Nanoseconds past that second; one second more inside a leap second. -/
  nanos : Nat
  /-- Seconds east of UTC. -/
  offset : Int
deriving DecidableEq, Repr

namespace Instant
open Text

/-- By the time meant, whatever the offset. -/
instance : Ord Instant where
  compare := compareLex (compareOn seconds) (compareOn nanos)

instance : Std.TransOrd Instant :=
  inferInstanceAs (Std.TransCmp (compareLex (compareOn seconds) (compareOn nanos)))

/-! ## Calendar -/

/-- The Gregorian rule. -/
def isLeap (year : Nat) : Bool :=
  year % 4 = 0 && (year % 100 ≠ 0 || year % 400 = 0)

/-- Days of a month, counted from 1. -/
def monthLength (year month : Nat) : Nat :=
  if month = 2 then (if isLeap year then 29 else 28)
  else if month = 4 ∨ month = 6 ∨ month = 9 ∨ month = 11 then 30
  else 31

/-- Days from the start of year 0 to the start of a year. -/
def daysBeforeYear (year : Nat) : Nat :=
  365 * year + (year + 3) / 4 - (year + 99) / 100 + (year + 399) / 400

/-- Days from the start of a year to the start of a month. -/
def daysBeforeMonth (year month : Nat) : Nat :=
  sum ((List.range (month - 1)).map fun m => monthLength year (m + 1))

/-- Days from the start of year 0 to a date. -/
def dayNumber (year month day : Nat) : Nat :=
  daysBeforeYear year + daysBeforeMonth year month + (day - 1)

/-- Days from 1970-01-01 to a date. -/
def unixDay (year month day : Nat) : Int :=
  (dayNumber year month day : Int) - dayNumber 1970 1 1

/-! ## Parts -/

/-- The number that digits write. -/
def number (digits : List Char) : Except TimestampFault Nat :=
  if digits.all Char.isDigit then
    .ok (digits.foldl (fun n c => n * 10 + (c.toNat - '0'.toNat)) 0)
  else .error .invalid

/-- The day of a date, and what follows it. -/
def date : List Char → Except TimestampFault (Int × List Char)
  | y₁ :: y₂ :: y₃ :: y₄ :: '-' :: m₁ :: m₂ :: '-' :: d₁ :: d₂ :: rest => do
    let year ← number [y₁, y₂, y₃, y₄]
    let month ← number [m₁, m₂]
    let day ← number [d₁, d₂]
    if 1 ≤ month ∧ month ≤ 12 ∧ 1 ≤ day ∧ day ≤ monthLength year month then
      return (unixDay year month day, rest)
    else throw .outOfRange
  | _ => throw .invalid

/-- Nanoseconds of a fraction: the digits behind the ninth say nothing. -/
def nanosOf (digits : List Char) : Except TimestampFault Nat := do
  let kept := digits.take 9
  let value ← number kept
  return value * Nat.pow 10 (9 - kept.length)

/-- The nanoseconds of an optional fraction, and what follows it. -/
def fraction : List Char → Except TimestampFault (Nat × List Char)
  | ['.'] => throw .tooShort
  | '.' :: rest => do
    if rest.takeWhile Char.isDigit = [] then throw .invalid
    let nanos ← nanosOf (rest.takeWhile Char.isDigit)
    return (nanos, rest.dropWhile Char.isDigit)
  | rest => return (0, rest)

/-- The second of the day and nanoseconds of a time behind its separator, and what follows it. -/
def timeOfDay : List Char → Except TimestampFault (Nat × Nat × List Char)
  | separator :: h₁ :: h₂ :: ':' :: m₁ :: m₂ :: ':' :: s₁ :: s₂ :: rest => do
    if separator ≠ 'T' ∧ separator ≠ 't' ∧ separator ≠ ' ' then throw .invalid
    let hour ← number [h₁, h₂]
    let minute ← number [m₁, m₂]
    let second ← number [s₁, s₂]
    let (nanos, rest) ← fraction rest
    if 24 ≤ hour ∨ 60 ≤ minute ∨ 61 ≤ second then throw .outOfRange
    let start := hour * 3600 + minute * 60
    if second = 60 then return (start + 59, 1000000000 + nanos, rest)
    else return (start + second, nanos, rest)
  | _ => throw .invalid

/-- The hours and minutes of an offset in seconds, and what follows them. -/
def hoursMinutes (s : List Char) : Except TimestampFault (Nat × List Char) := do
  if byteLength s < 2 then throw .tooShort
  let hours ← number (s.take 2)
  match s.drop 2 with
  | [] => throw .tooShort
  | ':' :: rest =>
    if byteLength rest < 2 then throw .tooShort
    let minutes ← number (rest.take 2)
    if 60 ≤ minutes then throw .outOfRange
    return (hours * 3600 + minutes * 60, rest.drop 2)
  | _ => throw .invalid

/-- An offset in seconds east of UTC, and what follows it. -/
def offsetOf : List Char → Except TimestampFault (Int × List Char)
  | 'Z' :: rest | 'z' :: rest => return (0, rest)
  | '+' :: rest => do
    let (seconds, rest) ← hoursMinutes rest
    return (seconds, rest)
  | '-' :: rest | '\u2212' :: rest => do
    let (seconds, rest) ← hoursMinutes rest
    return (-seconds, rest)
  | [] => throw .tooShort
  | _ => throw .invalid

/-- The instant that a text writes. -/
def parse (text : String) : Except TimestampFault Instant := do
  let s := text.toList
  if byteLength s < 19 then throw .tooShort
  let (day, s) ← date s
  let (second, nanos, s) ← timeOfDay s
  let (offset, s) ← offsetOf s
  if s ≠ [] then throw .trailing
  if 86400 ≤ offset ∨ offset ≤ -86400 then throw .outOfRange
  return ⟨day * 86400 + second - offset, nanos, offset⟩

end Instant
end Markers

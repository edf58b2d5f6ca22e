import Markers.Json

/-!
# Records in JSON

A record is written as an object, in which each field may appear once under any of its names and
other fields mean nothing, or as an array of its field values in order. `readRecord?` gives the
values of the fields in the order of their description, and `naturalIn?`, `text?` and `entries?`
read the values that records are made of.
-/

namespace Markers.Json

/-- How a field of a record is written. -/
structure Field where
  names : List String
  /-- Whether the field may be left out. -/
  optional : Bool
deriving Repr

/-- A whole number below a bound. -/
def naturalIn? (bound : Nat) : Json → Option Nat
  | natural n => if n < bound then some n else none
  | _ => none

/-- The text of a string. -/
def text? : Json → Option String
  | string (.text s) => some s
  | _ => none

/-- The items of an array. -/
def items? : Json → Option (List Json)
  | array items => some items
  | _ => none

/-- The fields of an object in the order written, if their keys are texts. -/
def entries? : Json → Option (List (String × Json))
  | object fields => fields.mapM fun
    | (.text key, value) => some (key, value)
    | _ => none
  | _ => none

/-- The values that an object gives for a field, under any of its names. -/
def valuesOf (field : Field) (entries : List (String × Json)) : List Json :=
  (entries.filter fun entry => field.names.contains entry.1).map (·.2)

/-- The value of a field in an object: at most one, and exactly one unless it is optional. -/
def fieldValue? (entries : List (String × Json)) (field : Field) : Option (Option Json) :=
  match valuesOf field entries with
  | [value] => some (some value)
  | [] => if field.optional then some none else none
  | _ => none

/-- The values of the fields of a record, absent for optional ones that are left out. -/
def readRecord? (fields : List Field) : Json → Option (List (Option Json))
  | array items =>
    let missing := fields.drop items.length
    if items.length ≤ fields.length ∧ missing.all Field.optional then
      some (items.map some ++ missing.map fun _ => none)
    else none
  | value => do
    let entries ← entries? value
    fields.mapM (fieldValue? entries)

/-- The numbers that the standard integers of a file hold: 64 bits. -/
def word : Nat :=
  Nat.pow 2 64

end Markers.Json

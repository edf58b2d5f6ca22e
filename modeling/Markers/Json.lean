/-!
# JSON values and their text

`Json` holds a document as read: whole numbers by value, other numbers by their text, and the
fields of an object in the order written, repeated ones included. `Json.pretty` writes a value over
several lines, indented by two spaces; `Json.compact` writes it without blanks.
-/

namespace Markers

/-- What a string literal stands for. -/
inductive JsonText where
  | text (s : String)
  /-- The literal escapes half of a surrogate pair, which is no text. -/
  | unpaired
deriving DecidableEq, Repr

/-- A JSON value. -/
inductive Json where
  | null
  | bool (b : Bool)
  | natural (n : Nat)
  /-- A number that is not written with digits alone. -/
  | number (lexeme : List Char)
  | string (literal : JsonText)
  | array (items : List Json)
  | object (fields : List (JsonText × Json))
deriving Repr, Inhabited

namespace Json

/-- A string value. -/
def ofString (s : String) : Json :=
  string (.text s)

/-- An object whose keys are texts. -/
def ofFields (fields : List (String × Json)) : Json :=
  object (fields.map fun field => (.text field.1, field.2))

/-- A hexadecimal digit in lower case. -/
def hexDigit (n : Nat) : Char :=
  Char.ofNat (if n < 10 then '0'.toNat + n else 'a'.toNat + (n - 10))

/-- A character inside a string literal: quotes, backslashes and control characters are escaped. -/
def escapeChar (c : Char) : List Char :=
  if c = '"' then ['\\', '"']
  else if c = '\\' then ['\\', '\\']
  else if c = '\x08' then ['\\', 'b']
  else if c = '\x0C' then ['\\', 'f']
  else if c = '\n' then ['\\', 'n']
  else if c = '\r' then ['\\', 'r']
  else if c = '\t' then ['\\', 't']
  else if c.toNat < 32 then
    ['\\', 'u', '0', '0', hexDigit (c.toNat / 16), hexDigit (c.toNat % 16)]
  else [c]

/-- A text as a string literal. -/
def quote (s : List Char) : List Char :=
  '"' :: s.flatMap escapeChar ++ ['"']

/-- The literal of a string value; one that stands for no text is written as an escape of its kind. -/
def quoteText : JsonText → List Char
  | .text s => quote s.toList
  | .unpaired => ['"', '\\', 'u', 'd', '8', '0', '0', '"']

/-- The digits of a natural number. -/
def digits (n : Nat) : List Char :=
  Nat.toDigits 10 n

/-- A line break and the indentation behind it. -/
def newline (depth : Nat) : List Char :=
  '\n' :: List.replicate (2 * depth) ' '

mutual

/-- A value over several lines, where the line it starts on is indented by `depth` steps. -/
def prettyAt (depth : Nat) : Json → List Char
  | null => "null".toList
  | bool true => "true".toList
  | bool false => "false".toList
  | natural n => digits n
  | number lexeme => lexeme
  | string literal => quoteText literal
  | array [] => ['[', ']']
  | array (item :: items) =>
    '[' :: newline (depth + 1) ++ prettyAt (depth + 1) item ++ prettyItems (depth + 1) items ++
      newline depth ++ [']']
  | object [] => ['{', '}']
  | object ((key, value) :: fields) =>
    '{' :: newline (depth + 1) ++ quoteText key ++ ':' :: ' ' :: prettyAt (depth + 1) value ++
      prettyFields (depth + 1) fields ++ newline depth ++ ['}']

/-- The items of an array behind the first. -/
def prettyItems (depth : Nat) : List Json → List Char
  | [] => []
  | item :: items => ',' :: newline depth ++ prettyAt depth item ++ prettyItems depth items

/-- The fields of an object behind the first. -/
def prettyFields (depth : Nat) : List (JsonText × Json) → List Char
  | [] => []
  | (key, value) :: fields =>
    ',' :: newline depth ++ quoteText key ++ ':' :: ' ' :: prettyAt depth value ++
      prettyFields depth fields

end

mutual

/-- A value without any blanks. -/
def compactChars : Json → List Char
  | null => "null".toList
  | bool true => "true".toList
  | bool false => "false".toList
  | natural n => digits n
  | number lexeme => lexeme
  | string literal => quoteText literal
  | array [] => ['[', ']']
  | array (item :: items) => '[' :: compactChars item ++ compactItems items ++ [']']
  | object [] => ['{', '}']
  | object ((key, value) :: fields) =>
    '{' :: quoteText key ++ ':' :: compactChars value ++ compactFields fields ++ ['}']

/-- The items of an array behind the first. -/
def compactItems : List Json → List Char
  | [] => []
  | item :: items => ',' :: compactChars item ++ compactItems items

/-- The fields of an object behind the first. -/
def compactFields : List (JsonText × Json) → List Char
  | [] => []
  | (key, value) :: fields => ',' :: quoteText key ++ ':' :: compactChars value ++ compactFields fields

end

/-- A value over several lines, without a final line break. -/
def pretty (value : Json) : String :=
  String.ofList (prettyAt 0 value)

/-- A value on one line. -/
def compact (value : Json) : String :=
  String.ofList (compactChars value)

end Json
end Markers

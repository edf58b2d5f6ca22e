import Markers.Json.Token

/-!
# Reading JSON

`Json.parse?` feeds the tokens of a text to a machine that keeps the containers it is inside of, the
innermost first. `Reader.step?` says what each token means in each state; a document is read when
one value is complete and no token is left.
-/

namespace Markers.Json

namespace Reader

/-- A container that has begun, with what it holds so far, the last first. -/
inductive Frame where
  | items (before : List Json)
  /-- A value for the given key is being read. -/
  | fields (before : List (JsonText × Json)) (key : JsonText)
deriving Repr

/-- What the machine is waiting for. -/
inductive State where
  /-- A value. -/
  | value (stack : List Frame)
  /-- The first item of an array, or its end. -/
  | firstItem (stack : List Frame)
  /-- The first key of an object, or its end. -/
  | firstKey (stack : List Frame)
  /-- Another key of an object. -/
  | key (stack : List Frame) (before : List (JsonText × Json))
  /-- The colon behind a key. -/
  | colon (stack : List Frame) (before : List (JsonText × Json)) (key : JsonText)
  /-- What follows a value. -/
  | after (stack : List Frame) (value : Json)
deriving Repr

/-- A token where a value must begin. -/
def beginValue? (stack : List Frame) : Token → Option State
  | .scalar value => some (.after stack value)
  | .openArray => some (.firstItem stack)
  | .openObject => some (.firstKey stack)
  | _ => none

/-- One token. -/
def step? : State → Token → Option State
  | .value stack, token => beginValue? stack token
  | .firstItem stack, .closeArray => some (.after stack (.array []))
  | .firstItem stack, token => beginValue? (.items [] :: stack) token
  | .firstKey stack, .closeObject => some (.after stack (.object []))
  | .firstKey stack, .scalar (.string key) => some (.colon stack [] key)
  | .key stack before, .scalar (.string key) => some (.colon stack before key)
  | .colon stack before key, .colon => some (.value (.fields before key :: stack))
  | .after (.items before :: stack) value, .comma =>
    some (.value (.items (value :: before) :: stack))
  | .after (.items before :: stack) value, .closeArray =>
    some (.after stack (.array (before.reverse ++ [value])))
  | .after (.fields before key :: stack) value, .comma =>
    some (.key stack ((key, value) :: before))
  | .after (.fields before key :: stack) value, .closeObject =>
    some (.after stack (.object (before.reverse ++ [(key, value)])))
  | _, _ => none

/-- All tokens. -/
def run? (state : State) : List Token → Option State
  | [] => some state
  | token :: tokens => (step? state token).bind fun next => run? next tokens

end Reader

/-- The value that a text writes. -/
def parse? (s : List Char) : Option Json := do
  let tokens ← Token.ofChars? s
  match ← Reader.run? (.value []) tokens with
  | .after [] value => some value
  | _ => none

end Markers.Json

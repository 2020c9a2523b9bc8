import Jack.Json.Token

/-!
# Reading JSON

A list of tokens is read from left to right.  A stack holds the arrays and objects that are open, so
values may be nested in each other to any depth.
-/

namespace Jack

/-- An array or an object that is open while one of its parts is read. -/
inductive JsonFrame where
  /-- An array, and its items so far, the last one first. -/
  | array (done : List Json)
  /-- An object, its members so far, the last one first, and the name of the one at hand. -/
  | member (done : List (List JsonChar × Json)) (name : List JsonChar)

/-- What a reader waits for. -/
inductive JsonState where
  /-- A value. -/
  | value
  /-- The first item of an array, or its end. -/
  | firstItem
  /-- The first name of an object, or its end. -/
  | firstName
  /-- The name of a further member. -/
  | name (done : List (List JsonChar × Json))
  /-- The colon after a name. -/
  | colon (done : List (List JsonChar × Json)) (name : List JsonChar)
  /-- What comes after a value. -/
  | after (value : Json)

/-- The state after the first token of a value. -/
def JsonToken.start? : JsonToken → Option JsonState
  | .null => some (.after .null)
  | .bool b => some (.after (.bool b))
  | .number digits => some (.after (.number digits))
  | .string content => some (.after (.string content))
  | .beginArray => some .firstItem
  | .beginObject => some .firstName
  | .endArray | .endObject | .comma | .colon => none

/-- Reads the rest of a value. -/
def readJson : JsonState → List JsonFrame → List JsonToken → Option Json
  | .after v, [], [] => some v
  | .after v, .array done :: frames, .comma :: ts =>
    readJson .value (.array (v :: done) :: frames) ts
  | .after v, .array done :: frames, .endArray :: ts =>
    readJson (.after (.array (v :: done).reverse)) frames ts
  | .after v, .member done name :: frames, .comma :: ts =>
    readJson (.name ((name, v) :: done)) frames ts
  | .after v, .member done name :: frames, .endObject :: ts =>
    readJson (.after (.object ((name, v) :: done).reverse)) frames ts
  | .firstItem, frames, .endArray :: ts => readJson (.after (.array [])) frames ts
  | .firstName, frames, .endObject :: ts => readJson (.after (.object [])) frames ts
  | .firstName, frames, .string name :: ts => readJson (.colon [] name) frames ts
  | .name done, frames, .string name :: ts => readJson (.colon done name) frames ts
  | .colon done name, frames, .colon :: ts => readJson .value (.member done name :: frames) ts
  | .value, frames, t :: ts =>
    match t.start? with
    | some state => readJson state frames ts
    | none => none
  | .firstItem, frames, t :: ts =>
    match t.start? with
    | some state => readJson state (.array [] :: frames) ts
    | none => none
  | _, _, _ => none

/-- The value that a text holds. -/
def Json.parse? (text : String) : Option Json :=
  (jsonTokens? text).bind (readJson .value [])

end Jack

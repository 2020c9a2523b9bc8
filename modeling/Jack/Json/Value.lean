/-!
# JSON values

A JSON string is kept as it is written, a list of `JsonChar`s: an escape `\u` with four digits names
a 16-bit unit, and two units together may stand for one character.  `decodeJsonChars?` puts the
units together; it refuses a unit that needs a partner and has none.  Such a string is no text, but
it may stand where nobody asks for its text.

What reads JSON texts and what writes them is left to others, who are given to those that need them:
a `JsonReader` answers the value of a text, and a `JsonWriter` makes a text of a record.
-/

namespace Jack

/-- A part of a JSON string: a character, or a 16-bit unit given by its number. -/
inductive JsonChar where
  | char (c : Char)
  | unit (n : Nat)
deriving DecidableEq, Repr

/-- A JSON value. -/
inductive Json where
  | null
  | bool (value : Bool)
  /-- A number, as it is written. -/
  | number (digits : List Char)
  | string (content : List JsonChar)
  | array (items : List Json)
  /-- The members of an object in order; a name may come more than once. -/
  | object (members : List (List JsonChar × Json))

/-- What reads JSON: it answers the value that a text holds, if the text is JSON. -/
abbrev JsonReader := String → Option Json

/-- The value of a field of a record. -/
inductive JsonScalar where
  | null
  | bool (value : Bool)
  | text (value : String)
deriving DecidableEq, Repr

/-- What writes JSON: it makes the text of a record, whose fields are given with their names. -/
abbrev JsonWriter := List (String × JsonScalar) → String

/-! ### Units -/

/-- The unit is the first of the two that make up one character. -/
def isHighUnit (n : Nat) : Bool := 0xD800 ≤ n && n ≤ 0xDBFF

/-- The unit is the second of the two that make up one character. -/
def isLowUnit (n : Nat) : Bool := 0xDC00 ≤ n && n ≤ 0xDFFF

/-- The character that two units make up. -/
def pairedChar (high low : Nat) : Char :=
  Char.ofNat (0x10000 + (high - 0xD800) * 0x400 + (low - 0xDC00))

/-- The characters of a JSON string that follow `done`, last character first. -/
def decodeJsonCharsFrom (done : List Char) : List JsonChar → Option (List Char)
  | [] => some done.reverse
  | .char c :: cs => decodeJsonCharsFrom (c :: done) cs
  | .unit n :: .unit m :: cs =>
    if isHighUnit n then
      if isLowUnit m then decodeJsonCharsFrom (pairedChar n m :: done) cs else none
    else if isLowUnit n then none
    else decodeJsonCharsFrom (Char.ofNat n :: done) (.unit m :: cs)
  | .unit n :: cs =>
    if isHighUnit n || isLowUnit n then none
    else decodeJsonCharsFrom (Char.ofNat n :: done) cs

/-- The text of a JSON string, unless a unit in it lacks its partner. -/
def decodeJsonChars? (content : List JsonChar) : Option String :=
  (decodeJsonCharsFrom [] content).map String.ofList

end Jack

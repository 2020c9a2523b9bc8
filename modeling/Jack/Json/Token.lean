import Jack.Json.Value

/-!
# Tokens of JSON

`jsonTokens?` cuts a text into the tokens of JSON, with nothing but blanks between them.  Only the
space, the tab, the line feed and the carriage return are blank in JSON.
-/

namespace Jack

/-- A token of JSON. -/
inductive JsonToken where
  | beginObject | endObject | beginArray | endArray | comma | colon
  | null
  | bool (value : Bool)
  | number (digits : List Char)
  | string (content : List JsonChar)
deriving DecidableEq, Repr

/-- The character is blank in JSON. -/
def isJsonBlank (c : Char) : Bool := c == ' ' || c == '\t' || c == '\n' || c == '\r'

/-! ### Strings -/

/-- The value of a hexadecimal digit. -/
def hexValue? (c : Char) : Option Nat :=
  if '0' ≤ c && c ≤ '9' then some (c.toNat - '0'.toNat)
  else if 'a' ≤ c && c ≤ 'f' then some (c.toNat - 'a'.toNat + 10)
  else if 'A' ≤ c && c ≤ 'F' then some (c.toNat - 'A'.toNat + 10)
  else none

/-- The unit that four hexadecimal digits name. -/
def hexUnit? (a b c d : Char) : Option Nat := do
  let a ← hexValue? a
  let b ← hexValue? b
  let c ← hexValue? c
  let d ← hexValue? d
  return ((a * 16 + b) * 16 + c) * 16 + d

/-- The character that a backslash and one more character stand for. -/
def shortEscape? : Char → Option Char
  | '"' => some '"'
  | '\\' => some '\\'
  | '/' => some '/'
  | 'b' => some '\x08'
  | 'f' => some '\x0c'
  | 'n' => some '\n'
  | 'r' => some '\r'
  | 't' => some '\t'
  | _ => none

/-- Reads the part of a string after `done`, last part first, up to and with its closing quote.
Answers the string and what follows it. -/
def readJsonString (done : List JsonChar) : List Char → Option (List JsonChar × List Char)
  | [] => none
  | '"' :: cs => some (done.reverse, cs)
  | '\\' :: 'u' :: a :: b :: c :: d :: cs =>
    match hexUnit? a b c d with
    | some n => readJsonString (.unit n :: done) cs
    | none => none
  | '\\' :: e :: cs =>
    match shortEscape? e with
    | some c => readJsonString (.char c :: done) cs
    | none => none
  | c :: cs => if c == '\\' || c.toNat < 0x20 then none else readJsonString (.char c :: done) cs

/-! ### Numbers -/

/-- Takes digits, at least one.  Answers the digits and what follows them. -/
def readDigits (cs : List Char) : Option (List Char × List Char) :=
  match cs.takeWhile Char.isDigit with
  | [] => none
  | digits => some (digits, cs.dropWhile Char.isDigit)

/-- Takes the part of a number in front of the point: a zero alone, or digits of which the first is
no zero. -/
def readWhole (cs : List Char) : Option (List Char × List Char) :=
  match cs with
  | '0' :: rest => some (['0'], rest)
  | _ => readDigits cs

/-- Takes the point and the digits after it, if there is a point. -/
def readFraction (cs : List Char) : Option (List Char × List Char) :=
  match cs with
  | '.' :: rest => (readDigits rest).map fun (digits, rest) => ('.' :: digits, rest)
  | _ => some ([], cs)

/-- Takes the exponent, if there is one. -/
def readExponent (cs : List Char) : Option (List Char × List Char) :=
  match cs with
  | e :: rest =>
    if e == 'e' || e == 'E' then
      match rest with
      | '+' :: more => (readDigits more).map fun (digits, rest) => (e :: '+' :: digits, rest)
      | '-' :: more => (readDigits more).map fun (digits, rest) => (e :: '-' :: digits, rest)
      | _ => (readDigits rest).map fun (digits, rest) => (e :: digits, rest)
    else
      some ([], cs)
  | [] => some ([], [])

/-- Takes a number without its sign. -/
def readMagnitude (cs : List Char) : Option (List Char × List Char) := do
  let (whole, cs) ← readWhole cs
  let (fraction, cs) ← readFraction cs
  let (exponent, cs) ← readExponent cs
  return (whole ++ fraction ++ exponent, cs)

/-- Takes a number. -/
def readNumber (cs : List Char) : Option (List Char × List Char) :=
  match cs with
  | '-' :: rest => (readMagnitude rest).map fun (digits, rest) => ('-' :: digits, rest)
  | _ => readMagnitude cs

/-! ### Texts -/

/-- Takes the token at the start of the characters. -/
def readJsonToken (cs : List Char) : Option (JsonToken × List Char) :=
  match cs with
  | '{' :: rest => some (.beginObject, rest)
  | '}' :: rest => some (.endObject, rest)
  | '[' :: rest => some (.beginArray, rest)
  | ']' :: rest => some (.endArray, rest)
  | ',' :: rest => some (.comma, rest)
  | ':' :: rest => some (.colon, rest)
  | 'n' :: 'u' :: 'l' :: 'l' :: rest => some (.null, rest)
  | 't' :: 'r' :: 'u' :: 'e' :: rest => some (.bool true, rest)
  | 'f' :: 'a' :: 'l' :: 's' :: 'e' :: rest => some (.bool false, rest)
  | '"' :: rest => (readJsonString [] rest).map fun (content, rest) => (.string content, rest)
  | _ => (readNumber cs).map fun (digits, rest) => (.number digits, rest)

/-- The loop of `jsonTokens?`.  Each round takes at least one character, so as many rounds as there
are characters suffice; the first list holds one entry for each round that is left. -/
def jsonTokenRounds : List Char → List JsonToken → List Char → Option (List JsonToken)
  | _, done, [] => some done.reverse
  | [], _, _ :: _ => none
  | _ :: rounds, done, c :: cs =>
    if isJsonBlank c then
      jsonTokenRounds rounds done cs
    else
      match readJsonToken (c :: cs) with
      | some (t, rest) => jsonTokenRounds rounds (t :: done) rest
      | none => none

/-- The tokens of a text, if it consists of tokens and blanks. -/
def jsonTokens? (text : String) : Option (List JsonToken) :=
  jsonTokenRounds text.toList [] text.toList

end Jack

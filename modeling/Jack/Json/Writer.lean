import Jack.Json.Value

/-!
# Writing JSON

`Json.writeRecord` writes a record as an object without blanks.  In a text only the quote, the
backslash and the control characters below the space are escaped, five of them by a letter.
-/

namespace Jack

/-- The hexadecimal digit of a number below sixteen, in lower case. -/
def hexDigit (n : Nat) : Char :=
  if n < 10 then Char.ofNat ('0'.toNat + n) else Char.ofNat ('a'.toNat + (n - 10))

/-- The escape that names a 16-bit unit. -/
def unitEscape (n : Nat) : List Char :=
  ['\\', 'u', hexDigit (n / 4096 % 16), hexDigit (n / 256 % 16), hexDigit (n / 16 % 16),
   hexDigit (n % 16)]

/-- How a character is written in a string. -/
def escapeChar (c : Char) : List Char :=
  match c with
  | '"' => ['\\', '"']
  | '\\' => ['\\', '\\']
  | '\x08' => ['\\', 'b']
  | '\t' => ['\\', 't']
  | '\n' => ['\\', 'n']
  | '\x0c' => ['\\', 'f']
  | '\r' => ['\\', 'r']
  | c => if c.toNat < 0x20 then unitEscape c.toNat else [c]

/-- How a text is written, with its quotes. -/
def writtenText (text : String) : List Char := '"' :: (text.toList.flatMap escapeChar ++ ['"'])

/-- How the value of a field is written. -/
def JsonScalar.written : JsonScalar → List Char
  | null => ['n', 'u', 'l', 'l']
  | bool true => ['t', 'r', 'u', 'e']
  | bool false => ['f', 'a', 'l', 's', 'e']
  | text value => writtenText value

/-- How a field is written. -/
def writtenField (field : String × JsonScalar) : List Char :=
  writtenText field.1 ++ ':' :: field.2.written

/-- Writes a record without blanks. -/
def Json.writeRecord : JsonWriter
  | [] => String.ofList ['{', '}']
  | field :: fields =>
    String.ofList
      ('{' :: (writtenField field ++ (fields.flatMap (',' :: writtenField ·) ++ ['}'])))

end Jack

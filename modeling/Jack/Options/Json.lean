import Jack.Json.Value
import Jack.Options

/-!
# Options in JSON

Options are given as a JSON object with up to three members, or as an array of all three values in
order.  Each value may be `null`, which is the same as leaving it out.  Members with other names are
skipped, whatever their values, but a member that is known may not come twice.  Options are written
as a record with all three fields.  Whatever reads or writes the JSON itself is a parameter.
-/

namespace Jack

/-! ### Reading -/

/-- Reads a value that may be `null`. -/
def Json.optional? {α : Type} (read : Json → Option α) : Json → Option (Option α)
  | .null => some none
  | v => (read v).map some

/-- Reads a truth value. -/
def Json.bool? : Json → Option Bool
  | .bool b => some b
  | _ => none

/-- Reads a text. -/
def Json.text? : Json → Option String
  | .string content => decodeJsonChars? content
  | _ => none

/-- The name of a way to make truth. -/
def TrueEncoding.text : TrueEncoding → String
  | notZero => "notZero"
  | negateOne => "negateOne"

/-- The way to make truth of a name. -/
def TrueEncoding.ofText? (text : String) : Option TrueEncoding :=
  [notZero, negateOne].find? fun e => e.text == text

/-- Reads a way to make truth: its name, or an object whose only member has that name and no
value. -/
def Json.encoding? : Json → Option TrueEncoding
  | .string content => (decodeJsonChars? content).bind TrueEncoding.ofText?
  | .object [(name, .null)] => (decodeJsonChars? name).bind TrueEncoding.ofText?
  | _ => none

/-- The members of an object with their names decoded. -/
def decodeMembers (members : List (List JsonChar × Json)) : Option (List (String × Json)) :=
  members.mapM fun (name, v) => (decodeJsonChars? name).map (·, v)

/-- Reads the member of a name, which may be missing but may not come twice. -/
def member? {α : Type} (members : List (String × Json)) (name : String)
    (read : Json → Option α) : Option (Option α) :=
  match members.filter fun m => m.1 == name with
  | [] => some none
  | [(_, v)] => v.optional? read
  | _ :: _ :: _ => none

namespace Options

/-- The name of the option that asks for comments. -/
def annotateKey : String := "annotateStatements"

/-- The name of the option that says how truth is made. -/
def encodingKey : String := "trueEncoding"

/-- The name of the option that gives the subroutine for remainders. -/
def moduloKey : String := "moduloRoutine"

/-- The options that a JSON value holds. -/
def ofJson? : Json → Option Options
  | .object members => do
    let members ← decodeMembers members
    return {
      annotateStatements := ← member? members annotateKey Json.bool?
      trueEncoding := ← member? members encodingKey Json.encoding?
      moduloRoutine := ← member? members moduloKey Json.text? }
  | .array [annotate, encoding, modulo] => do
    return {
      annotateStatements := ← annotate.optional? Json.bool?
      trueEncoding := ← encoding.optional? Json.encoding?
      moduloRoutine := ← modulo.optional? Json.text? }
  | _ => .none

/-- The options that a JSON text holds. -/
def parse? (read : JsonReader) (text : String) : Option Options := (read text).bind ofJson?

/-! ### Writing -/

/-- The value of a field that is `null` if the option is not given. -/
def scalarOrNull {α : Type} (scalar : α → JsonScalar) : Option α → JsonScalar
  | some a => scalar a
  | .none => .null

/-- The fields of options as they are written. -/
def fields (o : Options) : List (String × JsonScalar) :=
  [(annotateKey, scalarOrNull .bool o.annotateStatements),
   (encodingKey, scalarOrNull (fun e => .text e.text) o.trueEncoding),
   (moduloKey, scalarOrNull .text o.moduloRoutine)]

/-- The JSON text of options. -/
def jsonText (write : JsonWriter) (o : Options) : String := write o.fields

/-! ### Files -/

/-- Why a file holds no options. -/
inductive FileFault where
  /-- There is no such file. -/
  | missing
  /-- The bytes are no UTF-8. -/
  | notText
  /-- The text is no JSON, or JSON that holds no options. -/
  | invalid
deriving DecidableEq, Repr

/-- The wording of a failure to read a file of options. -/
def FileFault.message : FileFault → String
  | missing => "failed to read options file: No such file or directory (os error 2)"
  | notText => "failed to read options file: stream did not contain valid UTF-8"
  | invalid => "invalid options"

/-- The options that a file holds; there are no bytes if there is no file. -/
def ofFile (read : JsonReader) (bytes : Option ByteArray) : Except FileFault Options :=
  match bytes with
  | .none => .error .missing
  | some bytes =>
    match String.fromUTF8? bytes with
    | .none => .error .notText
    | some text =>
      match parse? read text with
      | .none => .error .invalid
      | some o => .ok o

end Options

end Jack

import Jack.Code.ClassDec
import Jack.Options
import Jack.Parser.Declaration
import Jack.Text.LineTable
import Jack.Token.Lexer

/-!
# Compiling units

A unit is a name and a text that holds one class.  `compile` takes a text through all stages, and
`compileUnit` says of a failure in which unit and at which line it is.  A `Program` is a list of
units that are compiled one by one under the same options; the failure of one does not touch the
others.
-/

namespace Jack

/-! ### One unit -/

/-- The outcome of a compilation. -/
structure CompiledClass where
  /-- The name of the class. -/
  className : String
  /-- Its code. -/
  code : Code
deriving DecidableEq, Repr

namespace CompiledClass

/-- The lines of VM code. -/
def lines (c : CompiledClass) : List String := c.code.toList.map Instruction.text

/-- The content of a VM file: each line with a line feed after it. -/
def vmText (c : CompiledClass) : String :=
  c.code.foldl (fun text i => text ++ i.text ++ "\n") ""

end CompiledClass

/-- Compiles the text of a unit. -/
def compile (text : String) (options : Options) : Except CompileError CompiledClass := do
  let tokens ← tokenize text
  let parsed ← parse tokens
  let code ← lower parsed.tree parsed.scope text options
  return ⟨parsed.tree.name.text, code⟩

/-- A text from which a class is read has tokens, and the class is read from these. -/
theorem exists_tokens {text : String} {parsed : ParsedClass}
    (h : tokenize text >>= parse = .ok parsed) :
    ∃ tokens, tokenize text = .ok tokens ∧ parse tokens = .ok parsed := by
  cases htokens : tokenize text with
  | error e =>
    rw [htokens] at h
    cases h
  | ok tokens =>
    rw [htokens] at h
    exact ⟨tokens, rfl, h⟩

/-- The failure of a unit. -/
structure UnitFailure where
  /-- The name of the unit. -/
  unit : String
  /-- Where the error is, if it has a span. -/
  location : Option Position
  /-- The error. -/
  error : CompileError
deriving DecidableEq, Repr

namespace UnitFailure

/-- The failure of the unit `unit` with text `text`. -/
def ofError (unit text : String) (error : CompileError) : UnitFailure :=
  ⟨unit, error.span?.map fun span => (LineTable.ofText text).positionOf span.start.toNat,
    error⟩

/-- The wording of a failure. -/
def message (e : UnitFailure) : String :=
  let place := match e.location with
    | some location => ":" ++ location.text
    | none => ""
  e.unit ++ place ++ ": " ++ e.error.message

/-- The stable code of a failure. -/
def code (e : UnitFailure) : String := "jackc::" ++ e.error.kind

/-- The remark on the source: its words and the span that it is about. -/
def label? (e : UnitFailure) : Option (String × Span) :=
  e.error.span?.map fun span => (e.error.label, span)

end UnitFailure

/-- Compiles a unit. -/
def compileUnit (name text : String) (options : Options) : Except UnitFailure CompiledClass :=
  (compile text options).mapError (UnitFailure.ofError name text)

/-! ### Programs -/

/-- Units that are compiled under the same options. -/
structure Program where
  /-- The options. -/
  options : Options
  /-- The names and the texts of the units. -/
  units : List (String × String)

namespace Program

/-- The program without units. -/
def new (options : Options) : Program := ⟨options, []⟩

/-- Adds a unit at the end. -/
def add (p : Program) (name text : String) : Program :=
  { p with units := p.units ++ [(name, text)] }

/-- The number of units. -/
def size (p : Program) : Nat := p.units.length

/-- The program has no units. -/
def isEmpty (p : Program) : Bool := p.units.isEmpty

/-- Compiles each unit. -/
def compile (p : Program) : List (Except UnitFailure CompiledClass) :=
  p.units.map fun (name, text) => compileUnit name text p.options

end Program

end Jack

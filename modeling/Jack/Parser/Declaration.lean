import Jack.Parser.Statement
import Jack.Scope

/-!
# Reading a class

The productions of declarations.  A name is declared in the scopes as soon as it is read, so a name
that is declared twice is reported before anything that comes after it.  `parse` reads a whole unit:
the tree of its class and the scope of the class.
-/

namespace Jack

/-- The tree of a class together with the scope of its variables. -/
structure ParsedClass where
  /-- The tree. -/
  tree : ClassDec
  /-- Static variables and fields. -/
  scope : Scope

/-- The largest number of levels that statement lists, expressions and operands of operators in
front of a term may be nested in each other. -/
def maxNesting : Nat := 64

namespace Parser

/-! ### Types and names -/

/-- Accepts a type. -/
def type? (t : Token) : Option TypeName :=
  match t.keyword? with
  | some .kwInt => some .int
  | some .kwChar => some .char
  | some .kwBoolean => some .boolean
  | _ => t.identifier?.map .object

/-- Takes a type. -/
def type : Parser TypeName := next type? .type .type

/-- Takes what a subroutine returns. -/
def returnType : Parser ReturnType := do
  match ← next? (isKeyword .kwVoid) with
  | some _ => return .void
  | none => return .value (← type)

/-- Declares a variable. -/
def declare (scopes : Scopes) (name : Ident) (type : TypeName) (storage : Storage) :
    Parser Scopes := fun c =>
  match scopes.declare name type storage with
  | .error e => .error e
  | .ok (_, scopes) => .ok (scopes, c)

/-- Reads the names of one declaration and declares each. -/
def declaredNames (rule : Rule) (type : TypeName) (storage : Storage) (scopes : Scopes) :
    Parser (List Ident × Scopes) := do
  let (names, scopes) ← commaSeparated
    (fun (names, scopes) => do
      let name ← identifier rule
      return (name :: names, ← declare scopes name type storage))
    ([], scopes)
  return (names.reverse, scopes)

/-! ### Variables of the class -/

/-- Accepts a word that starts a declaration of variables of the class. -/
def classVarLead (t : Token) : Option (Offset × ClassVarKind) :=
  match t.keyword? with
  | some .kwStatic => some (t.span.start, .static)
  | some .kwField => some (t.span.start, .field)
  | _ => none

/-- Reads a declaration of variables of the class after its first word. -/
def classVarDec (scopes : Scopes) (start : Offset) (kind : ClassVarKind) :
    Parser (ClassVarDec × Scopes) := do
  let type ← type
  let (names, scopes) ← declaredNames .classVarDec type kind.storage scopes
  symbol ';' .classVarDec
  return (⟨kind, type, names, ← spanFrom start⟩, scopes)

/-- Reads the declarations of the variables of the class. -/
def classVarDecs : Parser (List ClassVarDec × Scopes) := do
  let (decs, scopes) ← fold classVarLead
    (fun (decs, scopes) (start, kind) => do
      let (dec, scopes) ← classVarDec scopes start kind
      return (dec :: decs, scopes))
    ([], Scopes.empty)
  return (decs.reverse, scopes)

/-! ### Subroutines -/

/-- Accepts a word that starts a subroutine. -/
def subroutineLead (t : Token) : Option (Offset × SubroutineKind) :=
  match t.keyword? with
  | some .kwConstructor => some (t.span.start, .constructor)
  | some .kwFunction => some (t.span.start, .function)
  | some .kwMethod => some (t.span.start, .method)
  | _ => none

/-- Accepts the word that starts a declaration of local variables. -/
def varLead (t : Token) : Option Offset :=
  if t.keyword? = some .kwVar then some t.span.start else none

/-- Reads parameters up to the closing parenthesis. -/
def parameters (scopes : Scopes) : Parser (List Parameter × Scopes) := do
  if ← atSymbol ')' then
    return ([], scopes)
  let (parameters, scopes) ← commaSeparated
    (fun (parameters, scopes) => do
      let type ← type
      let name ← identifier .parameterList
      return (⟨type, name⟩ :: parameters, ← declare scopes name type .argument))
    ([], scopes)
  return (parameters.reverse, scopes)

/-- Reads a declaration of local variables after its first word. -/
def varDec (scopes : Scopes) (start : Offset) : Parser (VarDec × Scopes) := do
  let type ← type
  let (names, scopes) ← declaredNames .varDec type .localVar scopes
  symbol ';' .varDec
  return (⟨type, names, ← spanFrom start⟩, scopes)

/-- Reads the declarations of the local variables. -/
def varDecs (scopes : Scopes) : Parser (List VarDec × Scopes) := do
  let (decs, scopes) ← fold varLead
    (fun (decs, scopes) start => do
      let (dec, scopes) ← varDec scopes start
      return (dec :: decs, scopes))
    ([], scopes)
  return (decs.reverse, scopes)

/-- The scopes at the start of a subroutine.  A method has its object as a hidden first argument. -/
def subroutineScopes (className : String) (scopes : Scopes) (kind : SubroutineKind)
    (name : Ident) : Parser Scopes :=
  match kind with
  | .method =>
    declare scopes.clearSubroutine ⟨Keyword.kwThis.text, name.span⟩ (.object className) .argument
  | .constructor | .function => pure scopes.clearSubroutine

/-- Reads a subroutine after its first word. -/
def subroutineDec (className : String) (scopes : Scopes) (start : Offset) (kind : SubroutineKind) :
    Parser SubroutineDec := do
  let returnType ← returnType
  let name ← identifier .subroutineDec
  let scopes ← subroutineScopes className scopes kind name
  symbol '(' .subroutineDec
  let (parameters, scopes) ← parameters scopes
  symbol ')' .subroutineDec
  symbol '{' .subroutineBody
  let (varDecs, scopes) ← varDecs scopes
  let statements ← statements scopes.resolve maxNesting
  blockEnd .subroutineBody
  return ⟨kind, returnType, name, parameters, varDecs, statements, ← spanFrom start⟩

/-- Reads subroutines. -/
def subroutineDecs (className : String) (scopes : Scopes) : Parser (List SubroutineDec) := do
  let decs ← fold subroutineLead
    (fun decs (start, kind) => do
      return (← subroutineDec className scopes start kind) :: decs)
    []
  return decs.reverse

/-! ### The class -/

/-- Reads a class. -/
def classDec : Parser ParsedClass := do
  let start ← offset
  keyword .kwClass .classDec
  let name ← identifier .classDec
  symbol '{' .classDec
  let (varDecs, scopes) ← classVarDecs
  let subroutines ← subroutineDecs name.text scopes
  next (isSymbol '}') .classMember .classDec
  return ⟨⟨name, varDecs, subroutines, ← spanFrom start⟩, scopes.ofClass⟩

end Parser

/-- The class that a list of tokens makes up. -/
def parse (tokens : List Token) : Except CompileError ParsedClass :=
  match Parser.classDec ⟨[], tokens⟩ with
  | .error e => .error e
  | .ok (parsed, c) =>
    match c.rest with
    | [] => .ok parsed
    | _ :: _ => .error (c.fault .endOfInput .classDec)

end Jack

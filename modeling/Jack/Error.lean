import Jack.Rule
import Jack.Span
import Jack.Token
import Jack.Variable

/-!
# Errors

Compilation stops at the first error, a `CompileError`.  Each stage has its own faults, and each
fault is a cause that carries what its wording needs; `CompileError.message` is the only place where
causes become prose.
-/

namespace Jack

/-! ### Lexical faults -/

/-- Why a text cannot be cut into tokens. -/
inductive LexicalFault where
  /-- A character that starts no token. -/
  | unexpectedCharacter (c : Char)
  /-- A string constant whose closing quote is missing on its line. -/
  | unterminatedString
  /-- A block comment that is never closed. -/
  | unterminatedComment
  /-- Digits whose value is too large. -/
  | integerOutOfRange (digits : String)
deriving DecidableEq, Repr

/-- The wording of a lexical fault. -/
def LexicalFault.message : LexicalFault → String
  | unexpectedCharacter c => "unexpected character `" ++ c.toString ++ "`"
  | unterminatedString => "unterminated string constant"
  | unterminatedComment => "unterminated block comment"
  | integerOutOfRange digits => "integer constant `" ++ digits ++ "` is larger than 32767"

/-! ### Syntax faults -/

/-- What the grammar admits where a token is refused. -/
inductive Expectation where
  /-- A reserved word. -/
  | keyword (k : Keyword)
  /-- A symbol. -/
  | symbol (c : Char)
  | identifier
  | type
  | term
  | integerConstant
  /-- A declaration, or the brace that closes the class. -/
  | classMember
  /-- A statement, or the brace that closes the block. -/
  | statement
  /-- Code that stays within the limit of nesting. -/
  | shallowerNesting
  | endOfInput
  /-- Anything else, in words. -/
  | described (words : String)
deriving DecidableEq, Repr

/-- The wording of an expectation. -/
def Expectation.text : Expectation → String
  | keyword k => "`" ++ k.text ++ "`"
  | symbol c => "`" ++ c.toString ++ "`"
  | identifier => "an identifier"
  | type => "a type"
  | term => "a term"
  | integerConstant => "an integer constant"
  | classMember => "a class member or `\x7d`"
  | statement => "a statement or `\x7d`"
  | shallowerNesting => "less deeply nested code"
  | endOfInput => "end of input"
  | described words => words

/-- A token that fits no alternative of the grammar rule being read. -/
structure SyntaxFault where
  /-- What the rule admits. -/
  expected : Expectation
  /-- The text of the refused token, or words that say that there is none. -/
  found : String
  /-- The name of the rule. -/
  rule : String
  /-- The texts of the tokens around the refused one. -/
  context : List String
deriving DecidableEq, Repr

/-- The wording of a syntax fault. -/
def SyntaxFault.message (f : SyntaxFault) : String :=
  "expected " ++ f.expected.text ++ ", found `" ++ f.found ++ "` while parsing " ++ f.rule ++
    " (near `" ++ " ".intercalate f.context ++ "`)"

/-! ### Faults of lowering -/

/-- The things that a class holds and whose number a VM operand limits. -/
inductive Countable where
  | localVariables | fields | declaredVariables | stringCharacters | arguments
deriving DecidableEq, Repr

/-- The name of a countable thing, in the plural. -/
def Countable.text : Countable → String
  | localVariables => "local variables"
  | fields => "fields"
  | declaredVariables => "variables"
  | stringCharacters => "string characters"
  | arguments => "arguments"

/-- Why a well-formed class has no VM code. -/
inductive LoweringFault where
  /-- More things of one sort than an operand can count. -/
  | tooMany (what : Countable) (count : Nat)
  /-- A variable that would be the one after the last index of its storage class. -/
  | indexSpaceExhausted (storage : Storage) (name : String) (largest : Nat)
  /-- The name of a class where a variable is needed. -/
  | classAsVariable (name : String)
  /-- An undeclared name where a variable is needed. -/
  | undeclaredVariable (name : String)
  /-- A call without a receiver in a function. -/
  | noCurrentObject (subroutine : String)
  /-- A method call on a variable of a primitive type. -/
  | primitiveReceiver (name : String) (type : TypeName)
  /-- A receiver that is neither a variable nor a class. -/
  | unknownReceiver (name : String)
  /-- A character of a string constant that no operand can hold. -/
  | noCharacterCode (c : Char)
  /-- Anything else, in words. -/
  | described (words : String)
deriving DecidableEq, Repr

/-- The wording of a fault of lowering. -/
def LoweringFault.message : LoweringFault → String
  | tooMany what count => "too many " ++ what.text ++ ": " ++ toString count
  | indexSpaceExhausted storage name largest =>
    "too many " ++ storage.text ++ " variables: `" ++ name ++ "` exceeds index " ++ toString largest
  | classAsVariable name => "`" ++ name ++ "` names a class, not a variable"
  | undeclaredVariable name => "`" ++ name ++ "` is not a declared variable"
  | noCurrentObject subroutine =>
    "`" ++ subroutine ++ "` is called without a receiver inside a function, which has no `this`"
  | primitiveReceiver name type =>
    "`" ++ name ++ "` has primitive type " ++ type.text ++ " and no methods"
  | unknownReceiver name => "`" ++ name ++ "` is neither a declared variable nor a class"
  | noCharacterCode c => "character `" ++ c.toString ++ "` has no VM character code"
  | described words => words

/-! ### The errors of a compilation -/

/-- The error that ends a compilation, with the span it is reported at. -/
inductive CompileError where
  /-- The text cannot be cut into tokens. -/
  | lexical (fault : LexicalFault) (span : Span)
  /-- The tokens are no class. -/
  | parse (fault : SyntaxFault) (span : Span)
  /-- A name is declared twice in one scope. -/
  | duplicate (name : String) (span : Span)
  /-- An operator has no VM code under the options in force. -/
  | unresolvedOperator (symbol : Char) (span : Span)
  /-- The class has no VM code. -/
  | lowering (fault : LoweringFault) (span : Option Span)
deriving DecidableEq, Repr

namespace CompileError

/-- The short stable name of the kind of an error. -/
def kind : CompileError → String
  | lexical .. => "lex"
  | parse .. => "parse"
  | duplicate .. => "duplicate_symbol"
  | unresolvedOperator .. => "unresolved_operator"
  | lowering .. => "codegen"

/-- The span an error is reported at, if it has one. -/
def span? : CompileError → Option Span
  | lexical _ span | parse _ span | duplicate _ span | unresolvedOperator _ span => some span
  | lowering _ span => span

/-- The wording of an error. -/
def message : CompileError → String
  | lexical fault _ => fault.message
  | parse fault _ => fault.message
  | duplicate name _ => "`" ++ name ++ "` is already defined in this scope"
  | unresolvedOperator symbol _ =>
    "no lowering is configured for operator `" ++ symbol.toString ++ "`"
  | lowering fault _ => fault.message

/-- The short remark that is shown under the span of an error. -/
def label : CompileError → String
  | lexical .. => "not a valid token"
  | parse fault _ => "expected " ++ fault.expected.text
  | duplicate .. => "declared again here"
  | unresolvedOperator symbol _ => "`" ++ symbol.toString ++ "` has no lowering"
  | lowering .. => "cannot be lowered"

end CompileError

/-! ### Outcomes -/

section Outcomes

variable {ε α : Type} {outcome : Except ε α}

/-- An outcome that has a value is a success with this value. -/
theorem eq_ok_of_mem_toOption {a : α} (h : a ∈ outcome.toOption) : outcome = .ok a := by
  cases outcome with
  | error e => cases h
  | ok b => exact congrArg Except.ok (Option.some.inj h)

theorem exists_eq_ok (h : outcome.toOption.isSome = true) : ∃ a, outcome = .ok a :=
  (Option.isSome_iff_exists.1 h).imp fun _ ha => eq_ok_of_mem_toOption ha

end Outcomes

end Jack

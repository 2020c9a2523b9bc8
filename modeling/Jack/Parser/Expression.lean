import Jack.Parser.Basic
import Jack.Text.Decimal
import Jack.Tree

/-!
# Reading expressions

The productions of expressions, each a parser over the parsers of its parts.  `Parser.term` and
`Parser.expression` tie them together by recursion on the number of levels of nesting that are left:
an expression takes one level and so does the operand of an operator in front of a term, while
siblings cost nothing.  `resolve` says what a name means where the expression stands.
-/

namespace Jack

/-- The value of an integer constant: digits, with or without a plus sign in front, for a value of
at most 16 bits. -/
def integerConstant? (text : String) : Option Nat :=
  let digits := match text.toList with
    | '+' :: cs => cs
    | cs => cs
  if digits.isEmpty || !digits.all Char.isDigit then none else decimalUpTo? 65535 digits

namespace Parser

variable (resolve : String → Meaning)

/-- A name that is used, with its meaning. -/
def nameUse (name : Ident) : NameUse := ⟨name.text, name.span, resolve name.text⟩

/-- Reads the arguments of a call up to its closing parenthesis. -/
def arguments (expression : Parser Expr) : Parser (List Expr) := do
  if ← atSymbol ')' then
    return []
  let read ← commaSeparated (fun done => do return (← expression) :: done) []
  return read.reverse

/-- Reads the receiver and the name of a call, after the name `first`.  A dot after that name makes
it the receiver. -/
def callee (first : Ident) : Parser (Option NameUse × Ident) := do
  match ← next? (isSymbol '.') with
  | some _ => return (some (nameUse resolve first), ← identifier .subroutineCall)
  | none => return (none, first)

/-- Reads a call. -/
def subroutineCall (expression : Parser Expr) : Parser Call := do
  let start ← offset
  let first ← identifier .subroutineCall
  let (receiver, name) ← callee resolve first
  symbol '(' .subroutineCall
  let arguments ← arguments expression
  symbol ')' .subroutineCall
  return ⟨receiver, name, arguments, ← spanFrom start⟩

/-- Takes the next token as a term of its own, if it is one. -/
def constant (make : Token → Option Term) (expected : Expectation) : Parser Term :=
  next make expected .term

/-- Reads a term that starts with the symbol of the token `t`. -/
def symbolTerm (expression : Parser Expr) (operand : Parser Term) (t : Token) : Parser Term := do
  match t.symbol? with
  | some '(' =>
    symbol '(' .term
    let inner ← expression
    symbol ')' .term
    return .group inner (← spanFrom t.span.start)
  | _ =>
    let op ← next (fun t => t.symbol?.bind UnaryOp.ofSymbol?) .term .term
    let operand ← operand
    return .unary op operand (← spanFrom t.span.start)

/-- Reads a term that starts with a name; the token `after` the name decides which. -/
def nameTerm (expression : Parser Expr) (after : Option Token) : Parser Term := do
  match after.bind Token.symbol? with
  | some '[' =>
    let name ← identifier .term
    symbol '[' .term
    let index ← expression
    symbol ']' .term
    return .element (nameUse resolve name) index
  | some '.' | some '(' => return .call (← subroutineCall resolve expression)
  | _ => return .var (nameUse resolve (← identifier .term))

/-- Reads a term whose expressions and whose operand are read by the given parsers. -/
def termWith (expression : Parser Expr) (operand : Parser Term) : Parser Term := fun c =>
  match c.rest with
  | [] => fail .term .term c
  | t :: after =>
    match t.kind with
    | .integerConstant =>
      constant (fun t => (integerConstant? t.text).map (.integer · t.span)) .integerConstant c
    | .stringConstant => constant (fun t => some (.string t.text t.span)) .term c
    | .keyword =>
      constant (fun t => (t.keyword?.bind KeywordConstant.ofKeyword?).map (.keyword · t.span))
        .term c
    | .symbol => symbolTerm expression operand t c
    | .identifier => nameTerm resolve expression after.head? c

/-- Reads an expression whose terms are read by the given parser. -/
def expressionWith (term : Parser Term) : Parser Expr := do
  let start ← offset
  let head ← term
  let tail ← fold (fun t => t.symbol?.bind BinaryOp.ofSymbol?)
    (fun done op => do return (op, ← term) :: done) []
  return ⟨head, tail.reverse, ← spanFrom start⟩

/-- Reads a term with `levels` levels of nesting left. -/
def term : (levels : Nat) → Cursor → Except CompileError (Term × Cursor)
  | 0, c => termWith resolve (tooDeep .expression) (tooDeep .term) c
  | levels + 1, c => termWith resolve (expressionWith (term levels)) (term levels) c

/-- Reads an expression with `levels` levels of nesting left. -/
def expression : (levels : Nat) → Parser Expr
  | 0 => tooDeep .expression
  | levels + 1 => expressionWith (term resolve levels)

end Parser

end Jack

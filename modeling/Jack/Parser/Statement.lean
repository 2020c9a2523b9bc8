import Jack.Parser.Expression

/-!
# Reading statements

A statement is announced by its first word.  `Parser.statements` reads statements for as long as
such a word comes next; it takes one level of nesting, and so does each block inside it.
-/

namespace Jack

/-- The words that start a statement. -/
inductive StatementWord where
  | letWord | ifWord | whileWord | doWord | returnWord
deriving DecidableEq, Repr

namespace StatementWord

/-- The reserved word that starts a statement. -/
def keyword : StatementWord → Keyword
  | letWord => .kwLet
  | ifWord => .kwIf
  | whileWord => .kwWhile
  | doWord => .kwDo
  | returnWord => .kwReturn

/-- The statement that a reserved word starts. -/
def ofKeyword? : Keyword → Option StatementWord
  | .kwLet => some letWord
  | .kwIf => some ifWord
  | .kwWhile => some whileWord
  | .kwDo => some doWord
  | .kwReturn => some returnWord
  | _ => none

theorem keyword_of_ofKeyword? {k : Keyword} {w : StatementWord} (h : ofKeyword? k = some w) :
    w.keyword = k := by
  cases k <;> cases h <;> rfl

@[simp] theorem ofKeyword?_keyword (w : StatementWord) : ofKeyword? w.keyword = some w := by
  cases w <;> rfl

end StatementWord

namespace Parser

/-- Accepts a word that starts a statement, and keeps where it stands. -/
def statementLead (t : Token) : Option (Offset × StatementWord) :=
  (t.keyword?.bind StatementWord.ofKeyword?).map fun w => (t.span.start, w)

/-- Reads a block in braces. -/
def block (rule : Rule) (statements : Parser (List Statement)) : Parser (List Statement) := do
  symbol '{' rule
  let body ← statements
  blockEnd rule
  return body

/-- Reads a condition in parentheses. -/
def condition (rule : Rule) (expression : Parser Expr) : Parser Expr := do
  symbol '(' rule
  let condition ← expression
  symbol ')' rule
  return condition

variable (resolve : String → Meaning)

/-- Reads the index of an assignment in brackets, if there is one. -/
def targetIndex (expression : Parser Expr) : Parser (Option Expr) := do
  match ← next? (isSymbol '[') with
  | some _ =>
    let index ← expression
    symbol ']' .letStatement
    return some index
  | none => return none

/-- Reads an assignment after its first word. -/
def letStatement (expression : Parser Expr) (start : Offset) : Parser Statement := do
  let target ← identifier .letStatement
  let index ← targetIndex expression
  symbol '=' .letStatement
  let value ← expression
  symbol ';' .letStatement
  return .assign (nameUse resolve target) index value (← spanFrom start)

/-- Reads a conditional statement after its first word. -/
def ifStatement (expression : Parser Expr) (statements : Parser (List Statement)) (start : Offset) :
    Parser Statement := do
  let condition ← condition .ifStatement expression
  let thenBody ← block .ifStatement statements
  match ← next? (isKeyword .kwElse) with
  | some _ =>
    let elseBody ← block .ifStatement statements
    return .ifElse condition thenBody elseBody (← spanFrom start)
  | none => return .ifThen condition thenBody (← spanFrom start)

/-- Reads a loop after its first word. -/
def whileStatement (expression : Parser Expr) (statements : Parser (List Statement))
    (start : Offset) : Parser Statement := do
  let condition ← condition .whileStatement expression
  let body ← block .whileStatement statements
  return .whileLoop condition body (← spanFrom start)

/-- Reads a call for its effect after its first word. -/
def doStatement (expression : Parser Expr) (start : Offset) : Parser Statement := do
  let call ← subroutineCall resolve expression
  symbol ';' .doStatement
  return .doCall call (← spanFrom start)

/-- Reads the value of a return, unless the semicolon comes first. -/
def returnValue (expression : Parser Expr) : Parser (Option Expr) := do
  if ← atSymbol ';' then
    return none
  else
    return some (← expression)

/-- Reads a return after its first word. -/
def returnStatement (expression : Parser Expr) (start : Offset) : Parser Statement := do
  let value ← returnValue expression
  symbol ';' .returnStatement
  return .ret value (← spanFrom start)

/-- Reads a statement after its first word. -/
def statementWith (expression : Parser Expr) (statements : Parser (List Statement)) :
    Offset × StatementWord → Parser Statement
  | (start, .letWord) => letStatement resolve expression start
  | (start, .ifWord) => ifStatement expression statements start
  | (start, .whileWord) => whileStatement expression statements start
  | (start, .doWord) => doStatement resolve expression start
  | (start, .returnWord) => returnStatement expression start

/-- Reads statements whose expressions and blocks are read by the given parsers. -/
def statementsWith (expression : Parser Expr) (statements : Parser (List Statement)) :
    Parser (List Statement) := do
  let read ← fold statementLead
    (fun done lead => do return (← statementWith resolve expression statements lead) :: done) []
  return read.reverse

/-- Reads statements with `levels` levels of nesting left. -/
def statements : (levels : Nat) → Cursor → Except CompileError (List Statement × Cursor)
  | 0, c => tooDeep .statements c
  | levels + 1, c => statementsWith resolve (expression resolve levels) (statements levels) c

end Parser

end Jack

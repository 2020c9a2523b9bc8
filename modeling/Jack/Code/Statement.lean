import Jack.Code.Expression
import Jack.Text.Blank
import Jack.Text.Slice
import Jack.Vm.Label

/-!
# Code of statements

The code of a statement leaves the stack as it was.  A condition is negated and then jumps over what
it guards, so control falls into the guarded statements.  Both labels of a conditional statement are
drawn before its code is made, also where one of them is not used.
-/

namespace Jack

/-- Code that has been made, and the labels that are left for more. -/
structure Output where
  /-- The labels that are left. -/
  labels : LabelSupply
  /-- The code. -/
  code : Code

/-- Adds instructions to an output. -/
def Output.add (out : Output) (instructions : List Instruction) : Output :=
  { out with code := out.code.add instructions }

/-- The span that the comment of a statement shows: up to the end of the condition, if the statement
has one. -/
def Statement.headSpan : Statement → Span
  | .ifThen condition _ span | .ifElse condition _ _ span | .whileLoop condition _ span =>
    ⟨span.start, condition.span.stop⟩
  | s => s.span

/-- What the comment of a statement adds to the text that it shows: the parenthesis that closes the
condition. -/
def Statement.headSuffix : Statement → String
  | .ifThen .. | .ifElse .. | .whileLoop .. => ")"
  | _ => ""

/-- The comment of a statement: its text with blanks collapsed, or its kind where the source has no
such text. -/
def Statement.headline (source : String) (s : Statement) : String :=
  match slice? source s.headSpan with
  | some text => if text.isEmpty then s.rule.text else collapseBlanks text ++ s.headSuffix
  | none => s.rule.text

/-- The comment in front of a statement, if the options ask for one. -/
def Statement.comment (ctx : CodeContext) (s : Statement) : List Instruction :=
  if ctx.options.annotates then [.comment (s.headline ctx.source)] else []

/-- Adds the code of an assignment. -/
def emitAssign (ctx : CodeContext) (target : NameUse) (index : Option Expr) (value : Expr)
    (code : Code) : Code :=
  match index with
  | none => (value.emit ctx code).push target.popped
  | some index =>
    let address := (index.emit ctx (code.push target.pushed)).push (.op .add)
    Code.add (value.emit ctx address)
      [.pop .temp 0, .pop .pointer 1, .push .temp 0, .pop .that 0]

/-- Adds the code of a return. -/
def emitReturn (ctx : CodeContext) (value : Option Expr) (code : Code) : Code :=
  match value with
  | none => Code.add code [.push .constant 0, .ret]
  | some value => (value.emit ctx code).push .ret

mutual

/-- Adds the code of a statement, without the comment in front of it. -/
def Statement.emit (ctx : CodeContext) : Statement → Output → Output
  | .assign target index value _, ⟨labels, code⟩ =>
    ⟨labels, emitAssign ctx target index value code⟩
  | .ifThen condition body _, ⟨labels, code⟩ =>
    let (_, labels) := labels.draw .ifFalse
    let (ifEnd, labels) := labels.draw .ifEnd
    let code := Code.add (condition.emit ctx code) [.op .not, .ifGoto ifEnd]
    (emitStatements ctx body ⟨labels, code⟩).add [.label ifEnd]
  | .ifElse condition thenBody elseBody _, ⟨labels, code⟩ =>
    let (ifFalse, labels) := labels.draw .ifFalse
    let (ifEnd, labels) := labels.draw .ifEnd
    let code := Code.add (condition.emit ctx code) [.op .not, .ifGoto ifFalse]
    let out := (emitStatements ctx thenBody ⟨labels, code⟩).add [.goto ifEnd, .label ifFalse]
    (emitStatements ctx elseBody out).add [.label ifEnd]
  | .whileLoop condition body _, ⟨labels, code⟩ =>
    let (whileStart, labels) := labels.draw .whileStart
    let (whileEnd, labels) := labels.draw .whileEnd
    let code := Code.add (condition.emit ctx (code.push (.label whileStart)))
      [.op .not, .ifGoto whileEnd]
    (emitStatements ctx body ⟨labels, code⟩).add [.goto whileStart, .label whileEnd]
  | .doCall call _, ⟨labels, code⟩ => ⟨labels, (call.emit ctx code).push (.pop .temp 0)⟩
  | .ret value _, ⟨labels, code⟩ => ⟨labels, emitReturn ctx value code⟩

/-- Adds the code of statements, each with its comment. -/
def emitStatements (ctx : CodeContext) : List Statement → Output → Output
  | [], out => out
  | s :: ss, ⟨labels, code⟩ =>
    emitStatements ctx ss (s.emit ctx ⟨labels, Code.add code (s.comment ctx)⟩)

end

end Jack

import Jack.Code.Expression
import Jack.Proofs.Machine

/-!
# The meaning of statements

What expressions and statements do, said on the tree and without the stack machine.  An expression
has a value and may change the memory that all subroutines share, through the calls in it; its terms
are taken strictly from left to right (`Expr.eval`).  It has no value where the tree means nothing:
a name that is no variable is used as one, or there is no subroutine for remainders.

`Statement.Runs` says from which memory to which memory a statement leads and how it ends.  A loop
that does not end leads nowhere.  A condition holds exactly if it is the word of all ones.
-/

namespace Jack

/-! ### Variables -/

/-- The variable that a name stands for. -/
def NameUse.declared? (n : NameUse) : Option Variable :=
  match n.meaning with
  | .declared v => some v
  | .className | .subroutine => none

theorem NameUse.declared?_eq_some_iff {n : NameUse} {v : Variable} :
    n.declared? = some v ↔ n.meaning = .declared v := by
  cases h : n.meaning <;> simp [declared?, h]

theorem NameUse.operand_eq {n : NameUse} {v : Variable} (hv : n.declared? = some v) :
    n.operand = (.ofStorage v.storage, v.index) := by
  rw [operand, declared?_eq_some_iff.1 hv]

namespace Memory

/-- The value of a variable. -/
def get (m : Memory) (v : Variable) : Word :=
  match v.storage with
  | .static => m.globals.statics v.index
  | .field => m.load (m.fieldAddress v.index)
  | .argument => m.arguments v.index
  | .localVar => m.locals v.index

/-- Sets a variable. -/
def set (m : Memory) (v : Variable) (value : Word) : Memory :=
  match v.storage with
  | .static => m.setStatic v.index value
  | .field => m.store (m.fieldAddress v.index) value
  | .argument => m.setArgument v.index value
  | .localVar => m.setLocal v.index value

end Memory

/-! ### Expressions -/

section Expressions

variable (calls : Calls) (ctx : CodeContext)

/-- The value of a constant that is a reserved word. -/
def KeywordConstant.eval (m : Memory) : KeywordConstant → Word
  | .true => BitVec.allOnes 16
  | .false | .null => 0
  | .this => m.this

/-- The value of an operator in front of a term. -/
def UnaryOp.eval (x : Word) : UnaryOp → Word
  | .neg => -x
  | .not => ~~~x

/-- The value of an operator between two terms.  Products, quotients and remainders are left to
subroutines, and comparisons are of signed numbers. -/
def BinaryOp.eval (x y : Word) (m : Memory) : BinaryOp → Option (Word × Memory)
  | .add => some (x + y, m)
  | .sub => some (x - y, m)
  | .and => some (x &&& y, m)
  | .or => some (x ||| y, m)
  | .lt => some (Word.ofBool (x.slt y), m)
  | .gt => some (Word.ofBool (y.slt x), m)
  | .eq => some (Word.ofBool (x == y), m)
  | .mul => some (m.call calls "Math.multiply" [x, y])
  | .div => some (m.call calls "Math.divide" [x, y])
  | .mod => do
    let routine ← ctx.options.moduloRoutine
    return m.call calls routine [x, y]

/-- Appends a character to a string. -/
def appendChar (string : Word × Memory) (c : Char) : Word × Memory :=
  string.2.call calls "String.appendChar" [string.1, Word.ofNat c.toNat]

/-- The value of a string: a new string to which the characters are appended. -/
def evalString (value : String) (m : Memory) : Word × Memory :=
  value.toList.foldl (appendChar calls) (m.call calls "String.new" [Word.ofNat value.length])

/-- The object that a call works on, as an argument in front of the others. -/
def Call.object (m : Memory) (c : Call) : Option (List Word) :=
  match c.receiver with
  | none => some [m.this]
  | some receiver =>
    match receiver.meaning with
    | .declared v => some [m.get v]
    | .className => some []
    | .subroutine => none

mutual

/-- The value of an expression, and the memory after it. -/
def Expr.eval : Expr → Memory → Option (Word × Memory)
  | ⟨head, tail, _⟩, m => do
    let (x, m) ← head.eval m
    evalTail tail x m

/-- The value of operators with their right-hand terms after a value. -/
def evalTail : List (BinaryOp × Term) → Word → Memory → Option (Word × Memory)
  | [], x, m => some (x, m)
  | (op, t) :: tail, x, m => do
    let (y, m) ← t.eval m
    let (x, m) ← op.eval calls ctx x y m
    evalTail tail x m

/-- The value of a term, and the memory after it. -/
def Term.eval : Term → Memory → Option (Word × Memory)
  | .integer value _, m => some (Word.ofNat value, m)
  | .string value _, m => some (evalString calls value m)
  | .keyword value _, m => some (value.eval m, m)
  | .var name, m => do
    let v ← name.declared?
    return (m.get v, m)
  | .element array index, m => do
    let v ← array.declared?
    let (i, m') ← index.eval m
    return (m'.load (m.get v + i), m')
  | .call call, m => call.eval m
  | .group inner _, m => inner.eval m
  | .unary op operand _, m => do
    let (x, m) ← operand.eval m
    return (op.eval x, m)

/-- The result of a call, and the memory after it. -/
def Call.eval : Call → Memory → Option (Word × Memory)
  | ⟨receiver, name, arguments, span⟩, m => do
    let call : Call := ⟨receiver, name, arguments, span⟩
    let object ← call.object m
    let (ws, m) ← evalArguments arguments m
    return m.call calls (qualified (call.owner ctx.className) name.text) (object ++ ws)

/-- The values of arguments, and the memory after them. -/
def evalArguments : List Expr → Memory → Option (List Word × Memory)
  | [], m => some ([], m)
  | e :: es, m => do
    let (w, m) ← e.eval m
    let (ws, m) ← evalArguments es m
    return (w :: ws, m)

end

end Expressions

/-! ### Statements -/

/-- How statements end. -/
inductive Outcome where
  /-- Control goes on behind them. -/
  | normal
  /-- The subroutine returns a word. -/
  | returned (w : Word)

section Statements

variable (calls : Calls) (ctx : CodeContext)

mutual

/-- A statement leads from one memory to another and ends in a way. -/
inductive Statement.Runs : Statement → Memory → Outcome → Memory → Prop
  /-- Sets a variable. -/
  | assign {target : NameUse} {value : Expr} {span : Span} {v : Variable} {w : Word}
      {m m₁ : Memory} (hv : target.declared? = some v)
      (hvalue : value.eval calls ctx m = some (w, m₁)) :
      Statement.Runs (.assign target none value span) m .normal (m₁.set v w)
  /-- Sets an element: the array comes first, then the index, then the value. -/
  | store {target : NameUse} {index value : Expr} {span : Span} {v : Variable} {i w : Word}
      {m m₁ m₂ : Memory} (hv : target.declared? = some v)
      (hindex : index.eval calls ctx m = some (i, m₁))
      (hvalue : value.eval calls ctx m₁ = some (w, m₂)) :
      Statement.Runs (.assign target (some index) value span) m .normal (m₂.store (m.get v + i) w)
  /-- The condition holds. -/
  | ifThenTrue {condition : Expr} {body : List Statement} {span : Span} {o : Outcome}
      {m m₁ m₂ : Memory} (hcondition : condition.eval calls ctx m = some (BitVec.allOnes 16, m₁))
      (hbody : StatementsRun body m₁ o m₂) :
      Statement.Runs (.ifThen condition body span) m o m₂
  /-- The condition does not hold. -/
  | ifThenFalse {condition : Expr} {body : List Statement} {span : Span} {w : Word}
      {m m₁ : Memory} (hcondition : condition.eval calls ctx m = some (w, m₁))
      (hw : w ≠ BitVec.allOnes 16) :
      Statement.Runs (.ifThen condition body span) m .normal m₁
  /-- The condition holds. -/
  | ifElseTrue {condition : Expr} {thenBody elseBody : List Statement} {span : Span} {o : Outcome}
      {m m₁ m₂ : Memory} (hcondition : condition.eval calls ctx m = some (BitVec.allOnes 16, m₁))
      (hbody : StatementsRun thenBody m₁ o m₂) :
      Statement.Runs (.ifElse condition thenBody elseBody span) m o m₂
  /-- The condition does not hold. -/
  | ifElseFalse {condition : Expr} {thenBody elseBody : List Statement} {span : Span}
      {o : Outcome} {w : Word} {m m₁ m₂ : Memory}
      (hcondition : condition.eval calls ctx m = some (w, m₁)) (hw : w ≠ BitVec.allOnes 16)
      (hbody : StatementsRun elseBody m₁ o m₂) :
      Statement.Runs (.ifElse condition thenBody elseBody span) m o m₂
  /-- The loop has ended. -/
  | whileFalse {condition : Expr} {body : List Statement} {span : Span} {w : Word}
      {m m₁ : Memory} (hcondition : condition.eval calls ctx m = some (w, m₁))
      (hw : w ≠ BitVec.allOnes 16) :
      Statement.Runs (.whileLoop condition body span) m .normal m₁
  /-- One round of the loop, and then the others. -/
  | whileTrue {condition : Expr} {body : List Statement} {span : Span} {o : Outcome}
      {m m₁ m₂ m₃ : Memory}
      (hcondition : condition.eval calls ctx m = some (BitVec.allOnes 16, m₁))
      (hbody : StatementsRun body m₁ .normal m₂)
      (hloop : Statement.Runs (.whileLoop condition body span) m₂ o m₃) :
      Statement.Runs (.whileLoop condition body span) m o m₃
  /-- A round of the loop returns. -/
  | whileReturn {condition : Expr} {body : List Statement} {span : Span} {w : Word}
      {m m₁ m₂ : Memory} (hcondition : condition.eval calls ctx m = some (BitVec.allOnes 16, m₁))
      (hbody : StatementsRun body m₁ (.returned w) m₂) :
      Statement.Runs (.whileLoop condition body span) m (.returned w) m₂
  /-- Calls, and drops the result. -/
  | doCall {call : Call} {span : Span} {w : Word} {m m₁ : Memory}
      (hcall : call.eval calls ctx m = some (w, m₁)) :
      Statement.Runs (.doCall call span) m .normal m₁
  /-- Returns zero where there is nothing to return. -/
  | retNothing {span : Span} {m : Memory} : Statement.Runs (.ret none span) m (.returned 0) m
  /-- Returns a value. -/
  | ret {value : Expr} {span : Span} {w : Word} {m m₁ : Memory}
      (hvalue : value.eval calls ctx m = some (w, m₁)) :
      Statement.Runs (.ret (some value) span) m (.returned w) m₁

/-- Statements lead from one memory to another and end in a way. -/
inductive StatementsRun : List Statement → Memory → Outcome → Memory → Prop
  /-- There is nothing to do. -/
  | nil {m : Memory} : StatementsRun [] m .normal m
  /-- The first statement, and then the others. -/
  | cons {s : Statement} {ss : List Statement} {o : Outcome} {m m₁ m₂ : Memory}
      (hs : s.Runs m .normal m₁) (hss : StatementsRun ss m₁ o m₂) :
      StatementsRun (s :: ss) m o m₂
  /-- The first statement returns. -/
  | leave {s : Statement} {ss : List Statement} {w : Word} {m m₁ : Memory}
      (hs : s.Runs m (.returned w) m₁) : StatementsRun (s :: ss) m (.returned w) m₁

end

end Statements

end Jack

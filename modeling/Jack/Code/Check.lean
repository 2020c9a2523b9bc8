import Jack.Error
import Jack.Options
import Jack.Scope
import Jack.Tree

/-!
# Which trees have code

Not every tree that the grammar admits has VM code: names have to be variables where variables are
needed, numbers have to fit an operand, and `%` needs a subroutine to compute it.  The checks walk a
tree in the order in which its code is made and answer with the first violation.  Making the code
itself (`Jack.Code.Expression` and the modules after it) cannot fail.
-/

namespace Jack

/-- The answer of a check: nothing, or the first violation. -/
abbrev Check := Except CompileError Unit

/-- What the checks of a body have to know about its surroundings. -/
structure BodyContext where
  /-- The sort of subroutine that the body belongs to. -/
  kind : SubroutineKind
  /-- The options in force. -/
  options : Options

namespace Check

/-- A violation at a span. -/
def refuse (fault : LoweringFault) (span : Span) : Check := .error (.lowering fault (some span))

/-- The number fits an operand. -/
def fits (what : Countable) (count : Nat) (span : Span) : Check :=
  if count ≤ maxIndex then pure () else refuse (.tooMany what count) span

/-- Every character has a code that fits an operand. -/
def characters (span : Span) : List Char → Check
  | [] => pure ()
  | c :: cs => if c.toNat ≤ maxIndex then characters span cs else refuse (.noCharacterCode c) span

theorem bind_eq_ok_iff {p : Check} {q : Unit → Check} :
    (p >>= q) = .ok () ↔ p = .ok () ∧ q () = .ok () := by
  cases p with
  | error e => simp [bind, Except.bind]
  | ok u => simp [bind, Except.bind]

theorem fits_eq_ok_iff {what : Countable} {count : Nat} {span : Span} :
    fits what count span = .ok () ↔ count ≤ maxIndex := by
  rw [fits]
  split
  · next h => exact ⟨fun _ => h, fun _ => rfl⟩
  · next h => exact ⟨fun hfits => by simp [refuse] at hfits, fun hle => absurd hle h⟩

end Check

/-- The name is a variable with an index that fits an operand. -/
def NameUse.check (n : NameUse) : Check :=
  match n.meaning with
  | .declared v => Check.fits .declaredVariables v.index n.span
  | .className => Check.refuse (.classAsVariable n.name) n.span
  | .subroutine => Check.refuse (.undeclaredVariable n.name) n.span

/-- The name can be called on: it is a class, or a variable that holds an object. -/
def NameUse.checkReceiver (n : NameUse) : Check :=
  match n.meaning with
  | .declared v =>
    match v.type with
    | .object _ => n.check
    | type => Check.refuse (.primitiveReceiver n.name type) n.span
  | .className => pure ()
  | .subroutine => Check.refuse (.unknownReceiver n.name) n.span

/-- The operator, whose right-hand term is at `span`, has code. -/
def BinaryOp.check (ctx : BodyContext) (op : BinaryOp) (span : Span) : Check :=
  match op with
  | .mod =>
    match ctx.options.moduloRoutine with
    | some _ => pure ()
    | none => .error (.unresolvedOperator op.symbol span)
  | _ => pure ()

/-- The call has a receiver that can be called on, or a current object. -/
def Call.checkReceiver (ctx : BodyContext) (c : Call) : Check :=
  match c.receiver with
  | some receiver => receiver.checkReceiver
  | none =>
    match ctx.kind with
    | .function => Check.refuse (.noCurrentObject c.name.text) c.span
    | .constructor | .method => pure ()

mutual

/-- The expression has code. -/
def Expr.check (ctx : BodyContext) : Expr → Check
  | ⟨head, tail, _⟩ => do
    head.check ctx
    checkTail ctx tail

/-- The operators and their right-hand terms have code. -/
def checkTail (ctx : BodyContext) : List (BinaryOp × Term) → Check
  | [] => pure ()
  | (op, term) :: tail => do
    term.check ctx
    op.check ctx term.span
    checkTail ctx tail

/-- The term has code. -/
def Term.check (ctx : BodyContext) : Term → Check
  | .integer _ _ => pure ()
  | .string value span => do
    Check.fits .stringCharacters value.length span
    Check.characters span value.toList
  | .keyword _ _ => pure ()
  | .var name => name.check
  | .element array index => do
    array.check
    index.check ctx
  | .call call => call.check ctx
  | .group inner _ => inner.check ctx
  | .unary _ operand _ => operand.check ctx

/-- The call has code. -/
def Call.check (ctx : BodyContext) : Call → Check
  | ⟨receiver, name, arguments, span⟩ => do
    Check.fits .arguments arguments.length span
    Call.checkReceiver ctx ⟨receiver, name, arguments, span⟩
    checkArguments ctx arguments

/-- The arguments have code. -/
def checkArguments (ctx : BodyContext) : List Expr → Check
  | [] => pure ()
  | e :: es => do
    e.check ctx
    checkArguments ctx es

end

/-- The expression, if there is one, has code. -/
def checkOption (ctx : BodyContext) : Option Expr → Check
  | none => pure ()
  | some e => e.check ctx

mutual

/-- The statement has code. -/
def Statement.check (ctx : BodyContext) : Statement → Check
  | .assign target index value _ => do
    target.check
    checkOption ctx index
    value.check ctx
  | .ifThen condition body _ => do
    condition.check ctx
    checkStatements ctx body
  | .ifElse condition thenBody elseBody _ => do
    condition.check ctx
    checkStatements ctx thenBody
    checkStatements ctx elseBody
  | .whileLoop condition body _ => do
    condition.check ctx
    checkStatements ctx body
  | .doCall call _ => call.check ctx
  | .ret value _ => checkOption ctx value

/-- The statements have code. -/
def checkStatements (ctx : BodyContext) : List Statement → Check
  | [] => pure ()
  | s :: ss => do
    s.check ctx
    checkStatements ctx ss

end

/-- The subroutine of a class with `fields` fields has code.  A constructor has to allocate them. -/
def SubroutineDec.check (options : Options) (fields : Nat) (s : SubroutineDec) : Check := do
  Check.fits .localVariables s.localCount s.span
  if s.kind = .constructor then
    Check.fits .fields fields s.span
  checkStatements ⟨s.kind, options⟩ s.statements

/-- The subroutines of a class with `fields` fields have code. -/
def checkSubroutines (options : Options) (fields : Nat) : List SubroutineDec → Check
  | [] => pure ()
  | s :: ss => do
    s.check options fields
    checkSubroutines options fields ss

end Jack

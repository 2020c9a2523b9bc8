import Jack.Code.ClassDec

/-!
# Listings

The functions that make code add it to an array.  Here each of them is given a list of its own: the
*listing* of a part of a class is the list of the instructions that the part adds, and adding them
is appending that list (`Expr.toList_emit`, `Statement.toList_emit` and so on).  The listing of a
part is put together from the listings of its parts, which the lemmas after each definition say.
What a statement adds depends on the labels that are left, and `Statement.labelsAfter` says which
labels it leaves.
-/

namespace Jack

@[simp] theorem Code.toList_add (code : Code) (instructions : List Instruction) :
    (code.add instructions).toList = code.toList ++ instructions := by
  simp [Code.add]

@[simp] theorem Output.labels_add (out : Output) (instructions : List Instruction) :
    (out.add instructions).labels = out.labels := rfl

@[simp] theorem Output.toList_add (out : Output) (instructions : List Instruction) :
    (out.add instructions).code.toList = out.code.toList ++ instructions := by
  simp [Output.add]

/-! ### Expressions -/

section Expressions

variable (ctx : CodeContext)

/-- The instructions that an expression adds. -/
def Expr.listing (e : Expr) : List Instruction := (e.emit ctx #[]).toList

/-- The instructions that operators and their right-hand terms add. -/
def tailListing (tail : List (BinaryOp × Term)) : List Instruction := (emitTail ctx tail #[]).toList

/-- The instructions that a term adds. -/
def Term.listing (t : Term) : List Instruction := (t.emit ctx #[]).toList

/-- The instructions that a call adds. -/
def Call.listing (c : Call) : List Instruction := (c.emit ctx #[]).toList

/-- The instructions that arguments add. -/
def argumentsListing (es : List Expr) : List Instruction := (emitArguments ctx es #[]).toList

/-- The instructions that make a string. -/
def stringListing (value : String) : List Instruction :=
  [.push .constant value.length, .call "String.new" 1] ++ value.toList.flatMap appendCharacter

theorem toList_emitString (value : String) (code : Code) :
    (emitString value code).toList = code.toList ++ stringListing value := by
  have h : ∀ (cs : List Char) (code : Code),
      (cs.foldl (fun code c => Code.add code (appendCharacter c)) code).toList =
        code.toList ++ cs.flatMap appendCharacter := by
    intro cs
    induction cs with
    | nil => simp
    | cons c cs ih => intro code; simp [ih]
  simp [emitString, stringListing, h]

mutual

theorem Expr.toList_emit : ∀ (e : Expr) (code : Code),
    (e.emit ctx code).toList = code.toList ++ e.listing ctx
  | ⟨head, tail, _⟩, code => by
    rw [Expr.listing, Expr.emit, Expr.emit]
    simp [head.toList_emit, toList_emitTail tail]

theorem toList_emitTail : ∀ (tail : List (BinaryOp × Term)) (code : Code),
    (emitTail ctx tail code).toList = code.toList ++ tailListing ctx tail
  | [], code => by simp [emitTail, tailListing]
  | (op, t) :: ts, code => by
    rw [tailListing, emitTail, emitTail]
    simp [t.toList_emit, toList_emitTail ts]

theorem Term.toList_emit : ∀ (t : Term) (code : Code),
    (t.emit ctx code).toList = code.toList ++ t.listing ctx
  | .integer _ _, code | .keyword _ _, code | .var _, code => by simp [Term.listing, Term.emit]
  | .string _ _, code => by simp [Term.listing, Term.emit, toList_emitString]
  | .element array index, code => by
    rw [Term.listing, Term.emit, Term.emit]
    simp [index.toList_emit]
  | .call call, code => by
    rw [Term.listing, Term.emit, Term.emit]
    simp [call.toList_emit]
  | .group inner _, code => by
    rw [Term.listing, Term.emit, Term.emit]
    simp [inner.toList_emit]
  | .unary op operand _, code => by
    rw [Term.listing, Term.emit, Term.emit]
    simp [operand.toList_emit]

theorem Call.toList_emit : ∀ (c : Call) (code : Code),
    (c.emit ctx code).toList = code.toList ++ c.listing ctx
  | ⟨receiver, name, arguments, span⟩, code => by
    rw [Call.listing, Call.emit, Call.emit]
    simp [toList_emitArguments arguments]

theorem toList_emitArguments : ∀ (es : List Expr) (code : Code),
    (emitArguments ctx es code).toList = code.toList ++ argumentsListing ctx es
  | [], code => by simp [emitArguments, argumentsListing]
  | e :: es, code => by
    rw [argumentsListing, emitArguments, emitArguments]
    simp [e.toList_emit, toList_emitArguments es]

end

@[simp] theorem Expr.listing_mk (head : Term) (tail : List (BinaryOp × Term)) (span : Span) :
    (Expr.mk head tail span).listing ctx = head.listing ctx ++ tailListing ctx tail := by
  rw [listing, emit, toList_emitTail, Term.listing]

@[simp] theorem tailListing_nil : tailListing ctx [] = [] := rfl

@[simp] theorem tailListing_cons (op : BinaryOp) (t : Term) (tail : List (BinaryOp × Term)) :
    tailListing ctx ((op, t) :: tail) =
      t.listing ctx ++ op.instruction ctx.options :: tailListing ctx tail := by
  rw [tailListing, emitTail]
  simp [toList_emitTail, Term.toList_emit]

@[simp] theorem Term.listing_integer (value : Nat) (span : Span) :
    (Term.integer value span).listing ctx = [.push .constant value] := by
  simp [listing, emit]

@[simp] theorem Term.listing_string (value : String) (span : Span) :
    (Term.string value span).listing ctx = stringListing value := by
  simp [listing, emit, toList_emitString]

@[simp] theorem Term.listing_keyword (value : KeywordConstant) (span : Span) :
    (Term.keyword value span).listing ctx = value.instructions ctx.options := by
  simp [listing, emit]

@[simp] theorem Term.listing_var (name : NameUse) :
    (Term.var name).listing ctx = [name.pushed] := by
  simp [listing, emit]

@[simp] theorem Term.listing_element (array : NameUse) (index : Expr) :
    (Term.element array index).listing ctx =
      array.pushed :: (index.listing ctx ++ [.op .add, .pop .pointer 1, .push .that 0]) := by
  rw [listing, emit]
  simp [index.toList_emit]

@[simp] theorem Term.listing_call (call : Call) :
    (Term.call call).listing ctx = call.listing ctx := by
  rw [listing, emit, Call.listing]

@[simp] theorem Term.listing_group (inner : Expr) (span : Span) :
    (Term.group inner span).listing ctx = inner.listing ctx := by
  rw [listing, emit, Expr.listing]

@[simp] theorem Term.listing_unary (op : UnaryOp) (operand : Term) (span : Span) :
    (Term.unary op operand span).listing ctx = operand.listing ctx ++ [.op op.operation] := by
  rw [listing, emit]
  simp [operand.toList_emit]

theorem Call.listing_eq (c : Call) :
    c.listing ctx =
      c.receiverInstructions ++
        (argumentsListing ctx c.arguments ++ [c.instruction ctx.className]) := by
  obtain ⟨receiver, name, arguments, span⟩ := c
  rw [listing, emit]
  simp [toList_emitArguments]

@[simp] theorem argumentsListing_nil : argumentsListing ctx [] = [] := rfl

@[simp] theorem argumentsListing_cons (e : Expr) (es : List Expr) :
    argumentsListing ctx (e :: es) = e.listing ctx ++ argumentsListing ctx es := by
  rw [argumentsListing, emitArguments, toList_emitArguments, Expr.listing]

end Expressions

/-! ### Statements -/

mutual

/-- The labels that a statement leaves. -/
def Statement.labelsAfter : Statement → LabelSupply → LabelSupply
  | .assign _ _ _ _, labels | .doCall _ _, labels | .ret _ _, labels => labels
  | .ifThen _ body _, labels =>
    statementsLabelsAfter body ((labels.bump .ifFalse).bump .ifEnd)
  | .ifElse _ thenBody elseBody _, labels =>
    statementsLabelsAfter elseBody
      (statementsLabelsAfter thenBody ((labels.bump .ifFalse).bump .ifEnd))
  | .whileLoop _ body _, labels =>
    statementsLabelsAfter body ((labels.bump .whileStart).bump .whileEnd)

/-- The labels that statements leave. -/
def statementsLabelsAfter : List Statement → LabelSupply → LabelSupply
  | [], labels => labels
  | s :: ss, labels => statementsLabelsAfter ss (s.labelsAfter labels)

end

section Statements

variable (ctx : CodeContext)

/-- The instructions that an assignment adds. -/
def assignListing (target : NameUse) (index : Option Expr) (value : Expr) : List Instruction :=
  match index with
  | none => value.listing ctx ++ [target.popped]
  | some index =>
    target.pushed :: (index.listing ctx ++ .op .add :: (value.listing ctx ++
      [.pop .temp 0, .pop .pointer 1, .push .temp 0, .pop .that 0]))

/-- The instructions that a return adds. -/
def returnListing (value : Option Expr) : List Instruction :=
  match value with
  | none => [.push .constant 0, .ret]
  | some value => value.listing ctx ++ [.ret]

/-- The instructions that a statement adds, without its comment. -/
def Statement.listing (labels : LabelSupply) (s : Statement) : List Instruction :=
  (s.emit ctx ⟨labels, #[]⟩).code.toList

/-- The instructions that statements add. -/
def statementsListing (labels : LabelSupply) (ss : List Statement) : List Instruction :=
  (emitStatements ctx ss ⟨labels, #[]⟩).code.toList

theorem toList_emitAssign (target : NameUse) (index : Option Expr) (value : Expr) (code : Code) :
    (emitAssign ctx target index value code).toList =
      code.toList ++ assignListing ctx target index value := by
  cases index <;> simp [emitAssign, assignListing, Expr.toList_emit]

theorem toList_emitReturn (value : Option Expr) (code : Code) :
    (emitReturn ctx value code).toList = code.toList ++ returnListing ctx value := by
  cases value <;> simp [emitReturn, returnListing, Expr.toList_emit]

mutual

/-- Which labels a statement leaves does not depend on the code before it. -/
theorem Statement.labels_emit : ∀ (s : Statement) (out : Output),
    (s.emit ctx out).labels = s.labelsAfter out.labels
  | .assign .., _ | .doCall .., _ | .ret .., _ => by simp [Statement.emit, Statement.labelsAfter]
  | .ifThen _ body _, _ | .whileLoop _ body _, _ => by
    simp [Statement.emit, Statement.labelsAfter, LabelSupply.draw, labels_emitStatements body]
  | .ifElse _ thenBody elseBody _, _ => by
    simp [Statement.emit, Statement.labelsAfter, LabelSupply.draw, labels_emitStatements thenBody,
      labels_emitStatements elseBody]

theorem labels_emitStatements : ∀ (ss : List Statement) (out : Output),
    (emitStatements ctx ss out).labels = statementsLabelsAfter ss out.labels
  | [], _ => by simp [emitStatements, statementsLabelsAfter]
  | s :: ss, _ => by
    simp [emitStatements, statementsLabelsAfter, labels_emitStatements ss, s.labels_emit]

end

mutual

theorem Statement.toList_emit : ∀ (s : Statement) (out : Output),
    (s.emit ctx out).code.toList = out.code.toList ++ s.listing ctx out.labels
  | .assign .., _ => by simp [Statement.listing, Statement.emit, toList_emitAssign]
  | .ifThen condition body _, _ | .whileLoop condition body _, _ => by
    rw [Statement.listing, Statement.emit, Statement.emit]
    simp [Expr.toList_emit, toList_emitStatements body]
  | .ifElse condition thenBody elseBody _, _ => by
    rw [Statement.listing, Statement.emit, Statement.emit]
    simp [Expr.toList_emit, toList_emitStatements thenBody, toList_emitStatements elseBody,
      labels_emitStatements]
  | .doCall .., _ => by simp [Statement.listing, Statement.emit, Call.toList_emit]
  | .ret .., _ => by simp [Statement.listing, Statement.emit, toList_emitReturn]

theorem toList_emitStatements : ∀ (ss : List Statement) (out : Output),
    (emitStatements ctx ss out).code.toList =
      out.code.toList ++ statementsListing ctx out.labels ss
  | [], _ => by simp [emitStatements, statementsListing]
  | s :: ss, _ => by
    rw [statementsListing, emitStatements, emitStatements]
    simp [s.toList_emit, toList_emitStatements ss, Statement.labels_emit]

end

variable (labels : LabelSupply)

@[simp] theorem Statement.listing_assign (target : NameUse) (index : Option Expr) (value : Expr)
    (span : Span) :
    (Statement.assign target index value span).listing ctx labels =
      assignListing ctx target index value := by
  simp [listing, emit, toList_emitAssign]

@[simp] theorem Statement.listing_ifThen (condition : Expr) (body : List Statement)
    (span : Span) :
    (Statement.ifThen condition body span).listing ctx labels =
      condition.listing ctx ++
        .op .not :: .ifGoto (labelName .ifEnd labels.ifEnd) ::
          (statementsListing ctx ((labels.bump .ifFalse).bump .ifEnd) body ++
            [.label (labelName .ifEnd labels.ifEnd)]) := by
  rw [listing, emit]
  simp [Expr.toList_emit, toList_emitStatements, LabelSupply.draw, LabelSupply.bump,
    LabelSupply.drawn]

@[simp] theorem Statement.listing_ifElse (condition : Expr) (thenBody elseBody : List Statement)
    (span : Span) :
    (Statement.ifElse condition thenBody elseBody span).listing ctx labels =
      condition.listing ctx ++
        .op .not :: .ifGoto (labelName .ifFalse labels.ifFalse) ::
          (statementsListing ctx ((labels.bump .ifFalse).bump .ifEnd) thenBody ++
            .goto (labelName .ifEnd labels.ifEnd) ::
              .label (labelName .ifFalse labels.ifFalse) ::
                (statementsListing ctx
                    (statementsLabelsAfter thenBody ((labels.bump .ifFalse).bump .ifEnd))
                    elseBody ++
                  [.label (labelName .ifEnd labels.ifEnd)])) := by
  rw [listing, emit]
  simp [Expr.toList_emit, toList_emitStatements, labels_emitStatements, LabelSupply.draw,
    LabelSupply.bump, LabelSupply.drawn]

@[simp] theorem Statement.listing_whileLoop (condition : Expr) (body : List Statement)
    (span : Span) :
    (Statement.whileLoop condition body span).listing ctx labels =
      .label (labelName .whileStart labels.whileStart) :: (condition.listing ctx ++
        .op .not :: .ifGoto (labelName .whileEnd labels.whileEnd) ::
          (statementsListing ctx ((labels.bump .whileStart).bump .whileEnd) body ++
            [.goto (labelName .whileStart labels.whileStart),
              .label (labelName .whileEnd labels.whileEnd)])) := by
  rw [listing, emit]
  simp [Expr.toList_emit, toList_emitStatements, LabelSupply.draw, LabelSupply.bump,
    LabelSupply.drawn]

@[simp] theorem Statement.listing_doCall (call : Call) (span : Span) :
    (Statement.doCall call span).listing ctx labels = call.listing ctx ++ [.pop .temp 0] := by
  simp [listing, emit, Call.toList_emit]

@[simp] theorem Statement.listing_ret (value : Option Expr) (span : Span) :
    (Statement.ret value span).listing ctx labels = returnListing ctx value := by
  simp [listing, emit, toList_emitReturn]

@[simp] theorem statementsListing_nil : statementsListing ctx labels [] = [] := by
  simp [statementsListing, emitStatements]

@[simp] theorem statementsListing_cons (s : Statement) (ss : List Statement) :
    statementsListing ctx labels (s :: ss) =
      s.comment ctx ++
        (s.listing ctx labels ++ statementsListing ctx (s.labelsAfter labels) ss) := by
  rw [statementsListing, emitStatements]
  simp [s.toList_emit, toList_emitStatements, Statement.labels_emit]

end Statements

/-! ### Classes -/

/-- The instructions that subroutines of a class with `fields` fields add. -/
def subroutinesListing (ctx : CodeContext) (fields : Nat) :
    LabelSupply → List SubroutineDec → List Instruction
  | _, [] => []
  | labels, s :: ss =>
    s.header ctx.className fields ++ (statementsListing ctx labels s.statements ++
      subroutinesListing ctx fields (statementsLabelsAfter s.statements labels) ss)

theorem toList_emitSubroutines (ctx : CodeContext) (fields : Nat) (subs : List SubroutineDec)
    (out : Output) :
    (emitSubroutines ctx fields subs out).code.toList =
      out.code.toList ++ subroutinesListing ctx fields out.labels subs := by
  induction subs generalizing out with
  | nil => simp [emitSubroutines, subroutinesListing]
  | cons s ss ih =>
    simp [emitSubroutines, subroutinesListing, ih, toList_emitStatements, labels_emitStatements]

/-- Making the code of a class is checking it and listing its subroutines with labels from zero. -/
theorem map_toList_lower (tree : ClassDec) (scope : Scope) (source : String) (options : Options) :
    (lower tree scope source options).map Array.toList =
      (checkSubroutines options (scope.count .field) tree.subroutines).map fun _ =>
        subroutinesListing ⟨tree.name.text, options, source⟩ (scope.count .field) .new
          tree.subroutines := by
  have h := toList_emitSubroutines ⟨tree.name.text, options, source⟩ (scope.count .field)
    tree.subroutines ⟨.new, #[]⟩
  simp only [List.nil_append] at h
  simp only [lower, bind, Except.bind, pure, Except.pure]
  cases checkSubroutines options (scope.count .field) tree.subroutines with
  | error e => rfl
  | ok u => exact congrArg Except.ok h

/-- A class has code exactly if it passes the checks, and its code is then the listing of its
subroutines with labels from zero. -/
theorem lower_eq_ok_iff {tree : ClassDec} {scope : Scope} {source : String} {options : Options}
    {code : Code} :
    lower tree scope source options = .ok code ↔
      checkSubroutines options (scope.count .field) tree.subroutines = .ok () ∧
        code.toList = subroutinesListing ⟨tree.name.text, options, source⟩ (scope.count .field)
          .new tree.subroutines := by
  simp only [lower, bind, Except.bind, pure, Except.pure]
  cases checkSubroutines options (scope.count .field) tree.subroutines with
  | error e => simp
  | ok u =>
    have h := toList_emitSubroutines ⟨tree.name.text, options, source⟩ (scope.count .field)
      tree.subroutines ⟨.new, #[]⟩
    simp only [List.nil_append] at h
    simp only [Except.ok.injEq, true_and, ← h]
    exact ⟨fun e => e ▸ rfl, fun e => Array.toList_inj.1 e.symm⟩

theorem exists_lower_eq_ok_iff {tree : ClassDec} {scope : Scope} {source : String}
    {options : Options} : (∃ code, lower tree scope source options = .ok code) ↔
      checkSubroutines options (scope.count .field) tree.subroutines = .ok () := by
  simp only [lower, bind, Except.bind]
  cases checkSubroutines options (scope.count .field) tree.subroutines with
  | error e => simp
  | ok u => exact ⟨fun _ => rfl, fun _ => ⟨_, rfl⟩⟩

/-- A class without code is refused with the fault of its check. -/
theorem lower_eq_error_iff {tree : ClassDec} {scope : Scope} {source : String}
    {options : Options} {e : CompileError} : lower tree scope source options = .error e ↔
      checkSubroutines options (scope.count .field) tree.subroutines = .error e := by
  simp only [lower, bind, Except.bind]
  cases checkSubroutines options (scope.count .field) tree.subroutines with
  | error e' => simp
  | ok u => exact ⟨fun h => (nomatch h), fun h => (nomatch h)⟩

end Jack

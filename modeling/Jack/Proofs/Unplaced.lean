import Jack.Proofs.Acceptance
import Jack.Proofs.NameUses
import Jack.Proofs.Offset

/-!
# Trees without ranges

A tree has a range at every node, and code is made without looking at one.  `ClassDec.unplaced`
takes the ranges away and keeps all else, the meanings of the names among it, and
`CompileError.unplaced` takes the range away from an error.

* `Expr.check_unplaced`, `checkSubroutines_unplaced` : a tree without ranges passes the same checks,
  and where it fails one it fails with the same error;
* `Expr.listing_unplaced`, `subroutinesListing_unplaced` : it has the same code, but for comments,
  whichever text these are cut from;
* `lower_unplaced` : **whether a class has code, and which, does not depend on the ranges in its
  tree.**
-/

namespace Jack

/-! ### Taking ranges away -/

/-- A token without its range. -/
def Token.unplaced (t : Token) : Token := ⟨t.kind, t.text, .empty 0⟩

/-- A name that is used, without its range. -/
def NameUse.unplaced (n : NameUse) : NameUse := ⟨n.name, .empty 0, n.meaning⟩

mutual

/-- An expression without ranges. -/
def Expr.unplaced : Expr → Expr
  | ⟨head, tail, _⟩ => ⟨head.unplaced, unplacedTail tail, .empty 0⟩

/-- Operators and their right-hand terms without ranges. -/
def unplacedTail : List (BinaryOp × Term) → List (BinaryOp × Term)
  | [] => []
  | (op, t) :: tail => (op, t.unplaced) :: unplacedTail tail

/-- A term without ranges. -/
def Term.unplaced : Term → Term
  | .integer value _ => .integer value (.empty 0)
  | .string value _ => .string value (.empty 0)
  | .keyword value _ => .keyword value (.empty 0)
  | .var name => .var name.unplaced
  | .element array index => .element array.unplaced index.unplaced
  | .call call => .call call.unplaced
  | .group inner _ => .group inner.unplaced (.empty 0)
  | .unary op operand _ => .unary op operand.unplaced (.empty 0)

/-- A call without ranges. -/
def Call.unplaced : Call → Call
  | ⟨receiver, name, arguments, _⟩ =>
    ⟨receiver.map NameUse.unplaced, name.bare, unplacedArguments arguments, .empty 0⟩

/-- Arguments without ranges. -/
def unplacedArguments : List Expr → List Expr
  | [] => []
  | e :: es => e.unplaced :: unplacedArguments es

end

mutual

/-- A statement without ranges. -/
def Statement.unplaced : Statement → Statement
  | .assign target index value _ =>
    .assign target.unplaced (index.map Expr.unplaced) value.unplaced (.empty 0)
  | .ifThen condition body _ => .ifThen condition.unplaced (unplacedStatements body) (.empty 0)
  | .ifElse condition thenBody elseBody _ =>
    .ifElse condition.unplaced (unplacedStatements thenBody) (unplacedStatements elseBody)
      (.empty 0)
  | .whileLoop condition body _ =>
    .whileLoop condition.unplaced (unplacedStatements body) (.empty 0)
  | .doCall call _ => .doCall call.unplaced (.empty 0)
  | .ret value _ => .ret (value.map Expr.unplaced) (.empty 0)

/-- Statements without ranges. -/
def unplacedStatements : List Statement → List Statement
  | [] => []
  | s :: ss => s.unplaced :: unplacedStatements ss

end

theorem unplacedTail_eq_map (tail : List (BinaryOp × Term)) :
    unplacedTail tail = tail.map fun p => (p.1, p.2.unplaced) := by
  induction tail with
  | nil => rfl
  | cons p tail ih => rw [unplacedTail, ih, List.map_cons]

theorem unplacedArguments_eq_map (es : List Expr) :
    unplacedArguments es = es.map Expr.unplaced := by
  induction es with
  | nil => rfl
  | cons e es ih => rw [unplacedArguments, ih, List.map_cons]

theorem unplacedStatements_eq_map (ss : List Statement) :
    unplacedStatements ss = ss.map Statement.unplaced := by
  induction ss with
  | nil => rfl
  | cons s ss ih => rw [unplacedStatements, ih, List.map_cons]

/-- A subroutine without ranges. -/
def SubroutineDec.unplaced (s : SubroutineDec) : SubroutineDec where
  kind := s.kind
  returnType := s.returnType
  name := s.name.bare
  parameters := s.parameters.map Parameter.bare
  varDecs := s.varDecs.map VarDec.bare
  statements := unplacedStatements s.statements
  span := .empty 0

/-- A class without ranges. -/
def ClassDec.unplaced (c : ClassDec) : ClassDec where
  name := c.name.bare
  varDecs := c.varDecs.map ClassVarDec.bare
  subroutines := c.subroutines.map SubroutineDec.unplaced
  span := .empty 0

/-- An error without its range. -/
def CompileError.unplaced : CompileError → CompileError
  | lexical fault _ => lexical fault (.empty 0)
  | parse fault _ => parse fault (.empty 0)
  | duplicate name _ => duplicate name (.empty 0)
  | unresolvedOperator symbol _ => unresolvedOperator symbol (.empty 0)
  | lowering fault span => lowering fault (span.map fun _ => .empty 0)

@[simp] theorem CompileError.kind_unplaced (e : CompileError) : e.unplaced.kind = e.kind := by
  cases e <;> rfl

@[simp] theorem CompileError.message_unplaced (e : CompileError) :
    e.unplaced.message = e.message := by
  cases e <;> rfl

@[simp] theorem Term.span_unplaced (t : Term) : t.unplaced.span = .empty 0 := by
  cases t with
  | element array index =>
    obtain ⟨head, tail, span⟩ := index
    simp [unplaced, Term.span, NameUse.unplaced, Expr.unplaced]
  | call c =>
    obtain ⟨receiver, name, arguments, span⟩ := c
    simp [unplaced, Term.span, Call.unplaced]
  | _ => simp [unplaced, Term.span, NameUse.unplaced]

theorem SubroutineDec.localCount_unplaced (s : SubroutineDec) :
    s.unplaced.localCount = s.localCount := by
  simp [localCount, unplaced, List.foldr_map, VarDec.bare]

/-! ### Checks -/

section Checks

theorem Check.mapError_bind (p : Check) (q : Unit → Check) :
    (p >>= q).mapError CompileError.unplaced =
      (p.mapError CompileError.unplaced >>= fun u => (q u).mapError CompileError.unplaced) := by
  cases p <;> rfl

theorem Check.mapError_fits (what : Countable) (count : Nat) (span : Span) :
    (fits what count span).mapError CompileError.unplaced = fits what count (.empty 0) := by
  rw [fits, fits]
  split <;> rfl

theorem Check.mapError_characters (span : Span) (cs : List Char) :
    (characters span cs).mapError CompileError.unplaced = characters (.empty 0) cs := by
  induction cs with
  | nil => rfl
  | cons c cs ih =>
    rw [characters, characters]
    split
    · exact ih
    · rfl

theorem NameUse.check_unplaced (n : NameUse) :
    n.unplaced.check = n.check.mapError CompileError.unplaced := by
  obtain ⟨name, span, v | _ | _⟩ := n
  · exact (Check.mapError_fits _ _ _).symm
  · rfl
  · rfl

theorem NameUse.checkReceiver_unplaced (n : NameUse) :
    n.unplaced.checkReceiver = n.checkReceiver.mapError CompileError.unplaced := by
  obtain ⟨name, span, ⟨v, _ | _ | _ | className, storage, index⟩ | _ | _⟩ := n
  · rfl
  · rfl
  · rfl
  · exact (Check.mapError_fits _ _ _).symm
  · rfl
  · rfl

variable (ctx : BodyContext)

theorem BinaryOp.check_unplaced (op : BinaryOp) (span : Span) :
    op.check ctx (.empty 0) = (op.check ctx span).mapError CompileError.unplaced := by
  cases op with
  | mod =>
    simp only [check]
    split <;> rfl
  | _ => rfl

theorem Call.checkReceiver_unplaced (c : Call) :
    c.unplaced.checkReceiver ctx = (c.checkReceiver ctx).mapError CompileError.unplaced := by
  obtain ⟨_ | receiver, name, arguments, span⟩ := c
  · simp only [unplaced, checkReceiver, Option.map_none]
    split <;> rfl
  · exact receiver.checkReceiver_unplaced

theorem length_unplacedArguments (es : List Expr) : (unplacedArguments es).length = es.length := by
  rw [unplacedArguments_eq_map, List.length_map]

mutual

/-- An expression without ranges passes the same checks. -/
theorem Expr.check_unplaced : ∀ e : Expr,
    e.unplaced.check ctx = (e.check ctx).mapError CompileError.unplaced
  | ⟨head, tail, _⟩ => by
    rw [Expr.unplaced, Expr.check, Expr.check, Check.mapError_bind, head.check_unplaced,
      checkTail_unplaced tail]

theorem checkTail_unplaced : ∀ tail : List (BinaryOp × Term),
    checkTail ctx (unplacedTail tail) = (checkTail ctx tail).mapError CompileError.unplaced
  | [] => rfl
  | (op, t) :: tail => by
    rw [unplacedTail, checkTail, checkTail, Check.mapError_bind, t.check_unplaced]
    simp only [Check.mapError_bind, t.span_unplaced, op.check_unplaced ctx t.span,
      checkTail_unplaced tail]

theorem Term.check_unplaced : ∀ t : Term,
    t.unplaced.check ctx = (t.check ctx).mapError CompileError.unplaced
  | .integer _ _ | .keyword _ _ => rfl
  | .string value span => by
    simp only [Term.unplaced, Term.check, Check.mapError_bind, Check.mapError_fits,
      Check.mapError_characters]
  | .var name => name.check_unplaced
  | .element array index => by
    simp only [Term.unplaced, Term.check, Check.mapError_bind, array.check_unplaced,
      index.check_unplaced]
  | .call call => by
    rw [Term.unplaced, Term.check, Term.check, call.check_unplaced]
  | .group inner _ => by
    rw [Term.unplaced, Term.check, Term.check, inner.check_unplaced]
  | .unary _ operand _ => by
    rw [Term.unplaced, Term.check, Term.check, operand.check_unplaced]

theorem Call.check_unplaced : ∀ c : Call,
    c.unplaced.check ctx = (c.check ctx).mapError CompileError.unplaced
  | ⟨receiver, name, arguments, span⟩ => by
    have hreceiver := Call.checkReceiver_unplaced ctx ⟨receiver, name, arguments, span⟩
    rw [Call.unplaced] at hreceiver ⊢
    rw [Call.check, Call.check, Check.mapError_bind, Check.mapError_fits,
      length_unplacedArguments]
    simp only [Check.mapError_bind, hreceiver, checkArguments_unplaced arguments]

theorem checkArguments_unplaced : ∀ es : List Expr,
    checkArguments ctx (unplacedArguments es) =
      (checkArguments ctx es).mapError CompileError.unplaced
  | [] => rfl
  | e :: es => by
    rw [unplacedArguments, checkArguments, checkArguments, Check.mapError_bind, e.check_unplaced,
      checkArguments_unplaced es]

end

theorem checkOption_unplaced (e : Option Expr) :
    checkOption ctx (e.map Expr.unplaced) = (checkOption ctx e).mapError CompileError.unplaced := by
  cases e with
  | none => rfl
  | some e => exact e.check_unplaced ctx

mutual

/-- A statement without ranges passes the same checks. -/
theorem Statement.check_unplaced : ∀ s : Statement,
    s.unplaced.check ctx = (s.check ctx).mapError CompileError.unplaced
  | .assign target index value _ => by
    simp only [Statement.unplaced, Statement.check, Check.mapError_bind, target.check_unplaced,
      checkOption_unplaced, value.check_unplaced]
  | .ifThen condition body _ | .whileLoop condition body _ => by
    simp only [Statement.unplaced, Statement.check, Check.mapError_bind, condition.check_unplaced,
      checkStatements_unplaced body]
  | .ifElse condition thenBody elseBody _ => by
    simp only [Statement.unplaced, Statement.check, Check.mapError_bind, condition.check_unplaced,
      checkStatements_unplaced thenBody, checkStatements_unplaced elseBody]
  | .doCall call _ => by
    rw [Statement.unplaced, Statement.check, Statement.check, call.check_unplaced]
  | .ret value _ => by
    rw [Statement.unplaced, Statement.check, Statement.check, checkOption_unplaced]

theorem checkStatements_unplaced : ∀ ss : List Statement,
    checkStatements ctx (unplacedStatements ss) =
      (checkStatements ctx ss).mapError CompileError.unplaced
  | [] => rfl
  | s :: ss => by
    rw [unplacedStatements, checkStatements, checkStatements, Check.mapError_bind,
      s.check_unplaced, checkStatements_unplaced ss]

end

theorem SubroutineDec.check_unplaced (options : Options) (fields : Nat) (s : SubroutineDec) :
    s.unplaced.check options fields =
      (s.check options fields).mapError CompileError.unplaced := by
  rw [check, check, Check.mapError_bind, Check.mapError_fits, s.localCount_unplaced]
  by_cases hkind : s.kind = .constructor
  · simp only [unplaced, hkind, if_true, Check.mapError_bind, Check.mapError_fits,
      checkStatements_unplaced]
  · simp only [unplaced, hkind, if_false, checkStatements_unplaced]

/-- Subroutines without ranges pass the same checks. -/
theorem checkSubroutines_unplaced (options : Options) (fields : Nat) (ss : List SubroutineDec) :
    checkSubroutines options fields (ss.map SubroutineDec.unplaced) =
      (checkSubroutines options fields ss).mapError CompileError.unplaced := by
  induction ss with
  | nil => rfl
  | cons s ss ih =>
    rw [List.map_cons, checkSubroutines, checkSubroutines, Check.mapError_bind, s.check_unplaced,
      ih]

end Checks

/-! ### Code -/

/-- The instruction is a remark. -/
def Instruction.isComment : Instruction → Bool
  | .comment _ => true
  | _ => false

/-- The code without its remarks. -/
def uncommented (code : List Instruction) : List Instruction := code.filter fun i => !i.isComment

@[simp] theorem uncommented_nil : uncommented [] = [] := rfl

@[simp] theorem uncommented_cons (i : Instruction) (code : List Instruction) :
    uncommented (i :: code) = if i.isComment then uncommented code else i :: uncommented code := by
  cases h : i.isComment <;> simp [uncommented, h]

@[simp] theorem uncommented_append (code code' : List Instruction) :
    uncommented (code ++ code') = uncommented code ++ uncommented code' := List.filter_append ..

section Code

@[simp] theorem NameUse.operand_unplaced (n : NameUse) : n.unplaced.operand = n.operand := rfl

@[simp] theorem NameUse.pushed_unplaced (n : NameUse) : n.unplaced.pushed = n.pushed := rfl

@[simp] theorem NameUse.popped_unplaced (n : NameUse) : n.unplaced.popped = n.popped := rfl

theorem Call.receiverInstructions_unplaced (c : Call) :
    c.unplaced.receiverInstructions = c.receiverInstructions := by
  obtain ⟨_ | receiver, name, arguments, span⟩ := c <;> rfl

theorem Call.instruction_unplaced (className : String) (c : Call) :
    c.unplaced.instruction className = c.instruction className := by
  have hlength := length_unplacedArguments c.arguments
  obtain ⟨_ | receiver, name, arguments, span⟩ := c
  · simp only [unplaced, instruction, hlength]
    rfl
  · simp only [unplaced, instruction, hlength]
    rfl

variable (ctx : CodeContext) (source : String)

mutual

/-- An expression without ranges has the same code. -/
theorem Expr.listing_unplaced : ∀ e : Expr,
    e.unplaced.listing { ctx with source := source } = e.listing ctx
  | ⟨head, tail, _⟩ => by
    rw [Expr.unplaced, Expr.listing_mk, Expr.listing_mk, head.listing_unplaced,
      tailListing_unplaced tail]

theorem tailListing_unplaced : ∀ tail : List (BinaryOp × Term),
    tailListing { ctx with source := source } (unplacedTail tail) = tailListing ctx tail
  | [] => rfl
  | (op, t) :: tail => by
    rw [unplacedTail, tailListing_cons, tailListing_cons, t.listing_unplaced,
      tailListing_unplaced tail]

theorem Term.listing_unplaced : ∀ t : Term,
    t.unplaced.listing { ctx with source := source } = t.listing ctx
  | .integer _ _ | .string _ _ | .keyword _ _ | .var _ => by simp [Term.unplaced]
  | .element array index => by simp [Term.unplaced, index.listing_unplaced]
  | .call call => by simp [Term.unplaced, call.listing_unplaced]
  | .group inner _ => by simp [Term.unplaced, inner.listing_unplaced]
  | .unary op operand _ => by simp [Term.unplaced, operand.listing_unplaced]

theorem Call.listing_unplaced : ∀ c : Call,
    c.unplaced.listing { ctx with source := source } = c.listing ctx
  | ⟨receiver, name, arguments, span⟩ => by
    rw [Call.listing_eq, Call.listing_eq, Call.receiverInstructions_unplaced,
      Call.instruction_unplaced]
    simp only [Call.unplaced, argumentsListing_unplaced arguments]

theorem argumentsListing_unplaced : ∀ es : List Expr,
    argumentsListing { ctx with source := source } (unplacedArguments es) =
      argumentsListing ctx es
  | [] => rfl
  | e :: es => by
    rw [unplacedArguments, argumentsListing_cons, argumentsListing_cons, e.listing_unplaced,
      argumentsListing_unplaced es]

end

theorem assignListing_unplaced (target : NameUse) (index : Option Expr) (value : Expr) :
    assignListing { ctx with source := source } target.unplaced (index.map Expr.unplaced)
      value.unplaced = assignListing ctx target index value := by
  cases index <;> simp [assignListing, Expr.listing_unplaced]

theorem returnListing_unplaced (value : Option Expr) :
    returnListing { ctx with source := source } (value.map Expr.unplaced) =
      returnListing ctx value := by
  cases value <;> simp [returnListing, Expr.listing_unplaced]

theorem Statement.uncommented_comment (s : Statement) : uncommented (s.comment ctx) = [] := by
  rw [comment]
  split <;> rfl

theorem Expr.uncommented_listing (e : Expr) : uncommented (e.listing ctx) = e.listing ctx :=
  List.filter_eq_self.2 fun i hi => by cases e.ofExpression_of_mem_listing ctx i hi <;> rfl

theorem Call.uncommented_listing (c : Call) : uncommented (c.listing ctx) = c.listing ctx :=
  List.filter_eq_self.2 fun i hi => by cases c.ofExpression_of_mem_listing ctx i hi <;> rfl

section Plain

variable {ctx}

mutual

theorem Statement.uncommented_listing (h : ctx.options.annotates = false) :
    ∀ (s : Statement) (labels : LabelSupply),
      uncommented (s.listing ctx labels) = s.listing ctx labels
  | .assign target index value _, labels => by
    cases index <;>
      simp [assignListing, Expr.uncommented_listing, NameUse.pushed, NameUse.popped,
        Instruction.isComment]
  | .ifThen condition body _, labels | .whileLoop condition body _, labels => by
    simp [Expr.uncommented_listing, Instruction.isComment, uncommented_statementsListing h body]
  | .ifElse condition thenBody elseBody _, labels => by
    simp [Expr.uncommented_listing, Instruction.isComment, uncommented_statementsListing h thenBody,
      uncommented_statementsListing h elseBody]
  | .doCall call _, labels => by simp [Call.uncommented_listing, Instruction.isComment]
  | .ret value _, labels => by
    cases value <;> simp [returnListing, Expr.uncommented_listing, Instruction.isComment]

/-- Where the options ask for no comments, there are none. -/
theorem uncommented_statementsListing (h : ctx.options.annotates = false) :
    ∀ (ss : List Statement) (labels : LabelSupply),
      uncommented (statementsListing ctx labels ss) = statementsListing ctx labels ss
  | [], labels => by simp
  | s :: ss, labels => by
    simp [Statement.comment, h, s.uncommented_listing h, uncommented_statementsListing h ss]

end

theorem SubroutineDec.uncommented_header (className : String) (fields : Nat) (s : SubroutineDec) :
    uncommented (s.header className fields) = s.header className fields := by
  cases hkind : s.kind <;> simp [header, hkind, SubroutineKind.prologue, Instruction.isComment]

theorem uncommented_subroutinesListing (h : ctx.options.annotates = false) (fields : Nat)
    (labels : LabelSupply) (ss : List SubroutineDec) :
    uncommented (subroutinesListing ctx fields labels ss) =
      subroutinesListing ctx fields labels ss := by
  induction ss generalizing labels with
  | nil => rfl
  | cons s ss ih =>
    rw [subroutinesListing, uncommented_append, uncommented_append, s.uncommented_header, ih,
      uncommented_statementsListing h]

end Plain

mutual

theorem Statement.labelsAfter_unplaced : ∀ (s : Statement) (labels : LabelSupply),
    s.unplaced.labelsAfter labels = s.labelsAfter labels
  | .assign .., _ | .doCall .., _ | .ret .., _ => by
    simp [Statement.unplaced, Statement.labelsAfter]
  | .ifThen _ body _, _ | .whileLoop _ body _, _ => by
    simp [Statement.unplaced, Statement.labelsAfter, statementsLabelsAfter_unplaced body]
  | .ifElse _ thenBody elseBody _, _ => by
    simp [Statement.unplaced, Statement.labelsAfter, statementsLabelsAfter_unplaced thenBody,
      statementsLabelsAfter_unplaced elseBody]

theorem statementsLabelsAfter_unplaced : ∀ (ss : List Statement) (labels : LabelSupply),
    statementsLabelsAfter (unplacedStatements ss) labels = statementsLabelsAfter ss labels
  | [], _ => rfl
  | s :: ss, _ => by
    rw [unplacedStatements, statementsLabelsAfter, statementsLabelsAfter, s.labelsAfter_unplaced,
      statementsLabelsAfter_unplaced ss]

end

mutual

/-- A statement without ranges has the same code, but for comments. -/
theorem Statement.listing_unplaced : ∀ (s : Statement) (labels : LabelSupply),
    uncommented (s.unplaced.listing { ctx with source := source } labels) =
      uncommented (s.listing ctx labels)
  | .assign target index value _, labels => by
    rw [Statement.unplaced, Statement.listing_assign, Statement.listing_assign,
      assignListing_unplaced]
  | .ifThen condition body _, labels => by
    simp only [Statement.unplaced, Statement.listing_ifThen, condition.listing_unplaced,
      uncommented_append, uncommented_cons, statementsListing_unplaced body]
  | .ifElse condition thenBody elseBody _, labels => by
    simp only [Statement.unplaced, Statement.listing_ifElse, condition.listing_unplaced,
      uncommented_append, uncommented_cons, statementsListing_unplaced thenBody,
      statementsLabelsAfter_unplaced thenBody, statementsListing_unplaced elseBody]
  | .whileLoop condition body _, labels => by
    simp only [Statement.unplaced, Statement.listing_whileLoop, condition.listing_unplaced,
      uncommented_append, uncommented_cons, statementsListing_unplaced body]
  | .doCall call _, labels => by
    rw [Statement.unplaced, Statement.listing_doCall, Statement.listing_doCall,
      call.listing_unplaced]
  | .ret value _, labels => by
    rw [Statement.unplaced, Statement.listing_ret, Statement.listing_ret, returnListing_unplaced]

theorem statementsListing_unplaced : ∀ (ss : List Statement) (labels : LabelSupply),
    uncommented (statementsListing { ctx with source := source } labels (unplacedStatements ss)) =
      uncommented (statementsListing ctx labels ss)
  | [], labels => by simp [unplacedStatements]
  | s :: ss, labels => by
    simp only [unplacedStatements, statementsListing_cons, uncommented_append,
      Statement.uncommented_comment, s.listing_unplaced, s.labelsAfter_unplaced,
      statementsListing_unplaced ss]

end

theorem SubroutineDec.header_unplaced (className : String) (fields : Nat) (s : SubroutineDec) :
    s.unplaced.header className fields = s.header className fields := by
  rw [header, header, s.localCount_unplaced]
  rfl

/-- Subroutines without ranges have the same code, but for comments. -/
theorem subroutinesListing_unplaced (fields : Nat) (labels : LabelSupply)
    (ss : List SubroutineDec) :
    uncommented (subroutinesListing { ctx with source := source } fields labels
        (ss.map SubroutineDec.unplaced)) =
      uncommented (subroutinesListing ctx fields labels ss) := by
  induction ss generalizing labels with
  | nil => rfl
  | cons s ss ih =>
    have hstatements : s.unplaced.statements = unplacedStatements s.statements := rfl
    simp only [List.map_cons, subroutinesListing, uncommented_append, s.header_unplaced,
      hstatements, statementsListing_unplaced, statementsLabelsAfter_unplaced, ih]

end Code

/-! ### Whole classes -/

/-- A class without ranges is refused with the same error, and otherwise has the same code but for
comments, whichever texts these are cut from. -/
theorem lower_unplaced (tree : ClassDec) (scope : Scope) (source source' : String)
    (options : Options) :
    ((lower tree.unplaced scope source' options).map Array.toList).map uncommented =
      (((lower tree scope source options).map Array.toList).map uncommented).mapError
        CompileError.unplaced := by
  have hcheck : checkSubroutines options (scope.count .field) tree.unplaced.subroutines =
      (checkSubroutines options (scope.count .field) tree.subroutines).mapError
        CompileError.unplaced := checkSubroutines_unplaced ..
  have hlisting := subroutinesListing_unplaced ⟨tree.name.text, options, source⟩ source'
    (scope.count .field) .new tree.subroutines
  rw [map_toList_lower, map_toList_lower, hcheck]
  cases checkSubroutines options (scope.count .field) tree.subroutines with
  | error e => rfl
  | ok u => exact congrArg Except.ok hlisting

end Jack

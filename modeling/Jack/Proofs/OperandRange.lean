import Jack.Proofs.LexicalGrammar
import Jack.Proofs.Operands
import Jack.Proofs.ParsedTree

/-!
# The range of operands

An operand of the stack machine is at most `maxIndex`.  Each number that goes into an operand is
held against that limit: integer constants by the lexer, indices by the scopes, and counts by the
checks.  One operand is computed after its check.  A call that works on an object passes it as one
more argument, and only the arguments that are written are counted before.

* `CallsOf.operand_le`, `CallsOf.inRange_iff` : what the operands of code are, if its calls are
  known;
* `Expr.callsOf_listing`, `callsOf_statementsListing` : the calls of the code of a tree are those of
  the tree;
* `operands_inRange_iff` : **the operands of a compiled unit are in range exactly if no call on an
  object has `maxIndex` arguments**, and otherwise such a call exceeds the limit by one.
-/

namespace Jack

/-! ### Operands -/

/-- The number in an instruction. -/
def Instruction.operand? : Instruction → Option Nat
  | .push _ n | .pop _ n | .function _ n | .call _ n => some n
  | .op _ | .label _ | .goto _ | .ifGoto _ | .ret | .comment _ => none

/-- The stack machine can read the number in the instruction, if there is one. -/
def Instruction.InRange (i : Instruction) : Prop := ∀ n ∈ i.operand?, n ≤ maxIndex

section InRange

variable {n : Nat}

@[simp] theorem Instruction.inRange_push {segment : Segment} :
    (Instruction.push segment n).InRange ↔ n ≤ maxIndex := by
  simp [InRange, operand?]

@[simp] theorem Instruction.inRange_pop {segment : Segment} :
    (Instruction.pop segment n).InRange ↔ n ≤ maxIndex := by
  simp [InRange, operand?]

@[simp] theorem Instruction.inRange_function {name : String} :
    (Instruction.function name n).InRange ↔ n ≤ maxIndex := by
  simp [InRange, operand?]

@[simp] theorem Instruction.inRange_call {name : String} :
    (Instruction.call name n).InRange ↔ n ≤ maxIndex := by
  simp [InRange, operand?]

theorem Instruction.inRange_of_operand?_eq_none {i : Instruction} (h : i.operand? = none) :
    i.InRange := by
  simp [InRange, h]

end InRange

/-! ### The calls of a tree -/

/-- The call has the object that it works on as an argument of its own. -/
def Call.onObject (c : Call) : Bool :=
  match c.receiver with
  | none => true
  | some receiver =>
    match receiver.meaning with
    | .declared _ => true
    | .className | .subroutine => false

theorem Call.length_receiverInstructions (c : Call) :
    c.receiverInstructions.length = c.onObject.toNat := by
  obtain ⟨_ | ⟨name, span, _ | _ | _⟩, callee, arguments, span'⟩ := c <;> rfl

mutual

/-- The calls in an expression. -/
def Expr.calls : Expr → List Call
  | ⟨head, tail, _⟩ => head.calls ++ tailCalls tail

/-- The calls in operators and their right-hand terms. -/
def tailCalls : List (BinaryOp × Term) → List Call
  | [] => []
  | (_, t) :: tail => t.calls ++ tailCalls tail

/-- The calls in a term. -/
def Term.calls : Term → List Call
  | .integer _ _ | .string _ _ | .keyword _ _ | .var _ => []
  | .element _ index => index.calls
  | .call call => call.calls
  | .group inner _ => inner.calls
  | .unary _ operand _ => operand.calls

/-- The calls in the arguments of a call, and the call after them. -/
def Call.calls : Call → List Call
  | ⟨receiver, name, arguments, span⟩ =>
    argumentsCalls arguments ++ [⟨receiver, name, arguments, span⟩]

/-- The calls in arguments. -/
def argumentsCalls : List Expr → List Call
  | [] => []
  | e :: es => e.calls ++ argumentsCalls es

end

/-- The calls in an expression, if there is one. -/
def optionCalls : Option Expr → List Call
  | none => []
  | some e => e.calls

mutual

/-- The calls in a statement. -/
def Statement.calls : Statement → List Call
  | .assign _ index value _ => optionCalls index ++ value.calls
  | .ifThen condition body _ | .whileLoop condition body _ => condition.calls ++ statementsCalls body
  | .ifElse condition thenBody elseBody _ =>
    condition.calls ++ (statementsCalls thenBody ++ statementsCalls elseBody)
  | .doCall call _ => call.calls
  | .ret value _ => optionCalls value

/-- The calls in statements. -/
def statementsCalls : List Statement → List Call
  | [] => []
  | s :: ss => s.calls ++ statementsCalls ss

end

/-- The calls in a class. -/
def ClassDec.calls (c : ClassDec) : List Call :=
  c.subroutines.flatMap fun s => statementsCalls s.statements

/-! ### The calls of code -/

/-- The code is in range, apart from the instructions for the calls, which are all there. -/
structure CallsOf (className : String) (code : List Instruction) (calls : List Call) : Prop where
  /-- An instruction out of range is that of a call. -/
  inRange : ∀ i ∈ code, i.InRange ∨ ∃ c ∈ calls, i = c.instruction className
  /-- Every call has its instruction. -/
  mem : ∀ c ∈ calls, c.instruction className ∈ code
  /-- The arguments of a call are in range. -/
  arguments_le : ∀ c ∈ calls, c.arguments.length ≤ maxIndex

namespace CallsOf

variable {className : String} {code code' : List Instruction} {calls calls' : List Call}

theorem of_inRange (h : ∀ i ∈ code, i.InRange) : CallsOf className code [] where
  inRange i hi := .inl (h i hi)
  mem := by simp
  arguments_le := by simp

theorem nil : CallsOf className [] [] := of_inRange (by simp)

theorem append (h : CallsOf className code calls) (h' : CallsOf className code' calls') :
    CallsOf className (code ++ code') (calls ++ calls') where
  inRange i hi := by
    rcases List.mem_append.1 hi with hi | hi
    · exact (h.inRange i hi).imp_right fun ⟨c, hc, heq⟩ => ⟨c, List.mem_append_left _ hc, heq⟩
    · exact (h'.inRange i hi).imp_right fun ⟨c, hc, heq⟩ => ⟨c, List.mem_append_right _ hc, heq⟩
  mem c hc := by
    rcases List.mem_append.1 hc with hc | hc
    · exact List.mem_append_left _ (h.mem c hc)
    · exact List.mem_append_right _ (h'.mem c hc)
  arguments_le := List.forall_mem_append.2 ⟨h.arguments_le, h'.arguments_le⟩

theorem cons {i : Instruction} (hi : i.InRange) (h : CallsOf className code calls) :
    CallsOf className (i :: code) calls :=
  (of_inRange (List.forall_mem_singleton.2 hi)).append h

theorem append_inRange (h : CallsOf className code calls) (h' : ∀ i ∈ code', i.InRange) :
    CallsOf className (code ++ code') calls := by
  have happend := h.append (of_inRange h')
  rwa [List.append_nil] at happend

/-- An instruction without an operand in front of code. -/
theorem plain {i : Instruction} (hi : i.operand? = none) (h : CallsOf className code calls) :
    CallsOf className (i :: code) calls :=
  h.cons (Instruction.inRange_of_operand?_eq_none hi)

theorem append_plain (h : CallsOf className code calls) (h' : ∀ i ∈ code', i.operand? = none) :
    CallsOf className (code ++ code') calls :=
  h.append_inRange fun i hi => Instruction.inRange_of_operand?_eq_none (h' i hi)

theorem call (c : Call) (h : c.arguments.length ≤ maxIndex) :
    CallsOf className [c.instruction className] [c] where
  inRange i hi := .inr ⟨c, List.mem_singleton_self c, List.mem_singleton.1 hi⟩
  mem := by simp
  arguments_le := List.forall_mem_singleton.2 h

/-- An operand exceeds the limit by at most one, and then it is that of a call on an object. -/
theorem operand_le (h : CallsOf className code calls) {i : Instruction} (hi : i ∈ code) :
    ∀ n ∈ i.operand?, n ≤ maxIndex + 1 := by
  intro n hn
  rcases h.inRange i hi with hrange | ⟨c, hc, rfl⟩
  · exact Nat.le_succ_of_le (hrange n hn)
  · have hle := h.arguments_le c hc
    have hobject := c.onObject.toNat_le
    obtain rfl : c.arguments.length + c.receiverInstructions.length = n := Option.some.inj hn
    rw [c.length_receiverInstructions]
    omega

theorem inRange_iff (h : CallsOf className code calls) :
    (∀ i ∈ code, i.InRange) ↔
      ∀ c ∈ calls, c.onObject = true → c.arguments.length < maxIndex := by
  have hcall (c : Call) : (c.instruction className).InRange ↔
      c.arguments.length + c.onObject.toNat ≤ maxIndex := by
    rw [Call.instruction, Instruction.inRange_call, c.length_receiverInstructions]
  constructor
  · intro hcode c hc hobject
    have hrange := (hcall c).1 (hcode _ (h.mem c hc))
    rw [hobject, Bool.toNat_true] at hrange
    exact hrange
  · intro hcalls i hi
    rcases h.inRange i hi with hrange | ⟨c, hc, rfl⟩
    · exact hrange
    · have hle := h.arguments_le c hc
      refine (hcall c).2 ?_
      cases hobject : c.onObject with
      | false => exact hle
      | true => exact hcalls c hc hobject

end CallsOf

/-! ### Integers -/

/-- The integer constants among the terminals are in range. -/
def IntegersFit (ws : List Terminal) : Prop := ∀ n, .integer n ∈ ws → n ≤ maxIndex

theorem IntegersFit.mono {ws ws' : List Terminal} (h : IntegersFit ws) (hsub : ws' ⊆ ws) :
    IntegersFit ws' := fun n hn => h n (hsub hn)

theorem subset_withCommas {pieces : List (List Terminal)} {piece : List Terminal}
    (h : piece ∈ pieces) : piece ⊆ withCommas pieces := by
  intro w hw
  cases pieces with
  | nil => cases h
  | cons first pieces =>
    rw [withCommas, List.mem_append, List.mem_flatMap]
    rcases List.mem_cons.1 h with rfl | h
    · exact .inl hw
    · exact .inr ⟨piece, h, List.mem_cons_of_mem _ hw⟩

/-! ### Expressions -/

theorem Check.characters_eq_ok_iff {span : Span} {cs : List Char} :
    Check.characters span cs = .ok () ↔ ∀ c ∈ cs, c.toNat ≤ maxIndex := by
  induction cs with
  | nil => exact ⟨fun _ => List.forall_mem_nil _, fun _ => rfl⟩
  | cons c cs ih =>
    rw [characters, List.forall_mem_cons]
    split
    · next h => rw [ih, and_iff_right h]
    · next h => exact ⟨fun hcs => by simp [refuse] at hcs, fun hle => absurd hle.1 h⟩

theorem NameUse.operand_le_of_check {n : NameUse} (h : n.check = .ok ()) :
    n.operand.2 ≤ maxIndex := by
  obtain ⟨name, span, v | _ | _⟩ := n
  · exact Check.fits_eq_ok_iff.1 h
  · exact Nat.zero_le _
  · exact Nat.zero_le _

theorem Call.inRange_of_checkReceiver {ctx : BodyContext} {c : Call}
    (h : c.checkReceiver ctx = .ok ()) : ∀ i ∈ c.receiverInstructions, i.InRange := by
  obtain ⟨_ | ⟨name, span, v | _ | _⟩, callee, arguments, span'⟩ := c
  · simp [receiverInstructions]
  · have hcheck : NameUse.check ⟨name, span, .declared v⟩ = .ok () := by
      simp only [checkReceiver, NameUse.checkReceiver] at h
      split at h
      · exact h
      · simp [Check.refuse] at h
    exact List.forall_mem_singleton.2
      (Instruction.inRange_push.2 (NameUse.operand_le_of_check hcheck))
  · simp [receiverInstructions]
  · simp [receiverInstructions]

section Expressions

variable (bodyCtx : BodyContext) (ctx : CodeContext)

theorem inRange_of_mem_string {value : String} (hlength : value.length ≤ maxIndex)
    (hcharacters : ∀ c ∈ value.toList, c.toNat ≤ maxIndex) :
    ∀ i ∈ stringListing value, i.InRange := by
  intro i hi
  simp only [stringListing, appendCharacter, List.mem_append, List.mem_cons, List.not_mem_nil,
    or_false, List.mem_flatMap] at hi
  obtain (rfl | rfl) | ⟨c, hc, rfl | rfl⟩ := hi
  · exact Instruction.inRange_push.2 hlength
  · exact Instruction.inRange_call.2 (by decide)
  · exact Instruction.inRange_push.2 (hcharacters c hc)
  · exact Instruction.inRange_call.2 (by decide)

theorem BinaryOp.inRange_instruction (op : BinaryOp) (options : Options) :
    (op.instruction options).InRange := by
  cases op <;> simp [instruction, Instruction.InRange, Instruction.operand?, maxIndex]

theorem KeywordConstant.inRange_instructions (k : KeywordConstant) (options : Options) :
    ∀ i ∈ k.instructions options, i.InRange := by
  cases k with
  | «true» =>
    rw [instructions]
    split <;> simp [Instruction.InRange, Instruction.operand?, maxIndex]
  | _ => simp [instructions, Instruction.InRange, Instruction.operand?, maxIndex]

mutual

/-- The calls of the code of an expression are those of the expression. -/
theorem Expr.callsOf_listing : ∀ e : Expr, e.check bodyCtx = .ok () → IntegersFit e.terminals →
    CallsOf ctx.className (e.listing ctx) e.calls
  | ⟨head, tail, _⟩, hcheck, hfit => by
    simp only [Expr.check, Check.bind_eq_ok_iff] at hcheck
    rw [Expr.terminals] at hfit
    rw [Expr.listing_mk, Expr.calls]
    exact (head.callsOf_listing hcheck.1 (hfit.mono (by simp))).append
      (callsOf_tailListing tail hcheck.2 (hfit.mono (by simp)))

theorem callsOf_tailListing : ∀ tail : List (BinaryOp × Term),
    checkTail bodyCtx tail = .ok () → IntegersFit (tailTerminals tail) →
      CallsOf ctx.className (tailListing ctx tail) (tailCalls tail)
  | [], _, _ => .nil
  | (op, t) :: tail, hcheck, hfit => by
    simp only [checkTail, Check.bind_eq_ok_iff] at hcheck
    rw [tailTerminals] at hfit
    rw [tailListing_cons, tailCalls]
    have htail := callsOf_tailListing tail hcheck.2.2 (hfit.mono (by simp))
    exact (t.callsOf_listing hcheck.1 (hfit.mono (by simp))).append
      (htail.cons (op.inRange_instruction _))

theorem Term.callsOf_listing : ∀ t : Term, t.check bodyCtx = .ok () → IntegersFit t.terminals →
    CallsOf ctx.className (t.listing ctx) t.calls
  | .integer value _, _, hfit => by
    rw [Term.listing_integer, Term.calls]
    exact .cons (Instruction.inRange_push.2 (hfit value (by simp [Term.terminals]))) .nil
  | .string value _, hcheck, _ => by
    simp only [Term.check, Check.bind_eq_ok_iff, Check.fits_eq_ok_iff,
      Check.characters_eq_ok_iff] at hcheck
    rw [Term.listing_string, Term.calls]
    exact .of_inRange (inRange_of_mem_string hcheck.1 hcheck.2)
  | .keyword value _, _, _ => by
    rw [Term.listing_keyword, Term.calls]
    exact .of_inRange (value.inRange_instructions _)
  | .var name, hcheck, _ => by
    rw [Term.check] at hcheck
    rw [Term.listing_var, Term.calls]
    exact .cons (Instruction.inRange_push.2 (NameUse.operand_le_of_check hcheck)) .nil
  | .element array index, hcheck, hfit => by
    simp only [Term.check, Check.bind_eq_ok_iff] at hcheck
    rw [Term.terminals] at hfit
    rw [Term.listing_element, Term.calls]
    refine .cons (Instruction.inRange_push.2 (NameUse.operand_le_of_check hcheck.1)) ?_
    have hindex : IntegersFit index.terminals := hfit.mono fun w hw => by simp [hw]
    refine (index.callsOf_listing hcheck.2 hindex).append_inRange ?_
    simp [Instruction.InRange, Instruction.operand?, maxIndex]
  | .call call, hcheck, hfit => by
    rw [Term.check] at hcheck
    rw [Term.terminals] at hfit
    rw [Term.listing_call, Term.calls]
    exact call.callsOf_listing hcheck hfit
  | .group inner _, hcheck, hfit => by
    rw [Term.check] at hcheck
    rw [Term.terminals] at hfit
    rw [Term.listing_group, Term.calls]
    exact inner.callsOf_listing hcheck (hfit.mono (by simp))
  | .unary op operand _, hcheck, hfit => by
    rw [Term.check] at hcheck
    rw [Term.terminals] at hfit
    rw [Term.listing_unary, Term.calls]
    refine (operand.callsOf_listing hcheck (hfit.mono (by simp))).append_plain ?_
    exact List.forall_mem_singleton.2 rfl

theorem Call.callsOf_listing : ∀ c : Call, c.check bodyCtx = .ok () → IntegersFit c.terminals →
    CallsOf ctx.className (c.listing ctx) c.calls
  | ⟨receiver, name, arguments, span⟩, hcheck, hfit => by
    simp only [Call.check, Check.bind_eq_ok_iff, Check.fits_eq_ok_iff] at hcheck
    obtain ⟨hlength, hreceiver, harguments⟩ := hcheck
    rw [Call.terminals] at hfit
    have hcode : CallsOf ctx.className (argumentsListing ctx arguments)
        (argumentsCalls arguments) := by
      refine callsOf_argumentsListing arguments harguments fun ws hws => hfit.mono fun w hw => ?_
      simp [subset_withCommas hws hw]
    rw [Call.listing_eq, Call.calls]
    refine (CallsOf.of_inRange (Call.inRange_of_checkReceiver hreceiver)).append ?_
    exact hcode.append (.call _ hlength)

theorem callsOf_argumentsListing : ∀ es : List Expr, checkArguments bodyCtx es = .ok () →
    (∀ ws ∈ argumentsTerminals es, IntegersFit ws) →
      CallsOf ctx.className (argumentsListing ctx es) (argumentsCalls es)
  | [], _, _ => .nil
  | e :: es, hcheck, hfit => by
    simp only [checkArguments, Check.bind_eq_ok_iff] at hcheck
    rw [argumentsTerminals, List.forall_mem_cons] at hfit
    rw [argumentsListing_cons, argumentsCalls]
    exact (e.callsOf_listing hcheck.1 hfit.1).append (callsOf_argumentsListing es hcheck.2 hfit.2)

end

end Expressions

/-! ### Statements and classes -/

section Statements

variable (bodyCtx : BodyContext) (ctx : CodeContext)

theorem callsOf_assignListing {target : NameUse} {index : Option Expr} {value : Expr}
    (htarget : target.check = .ok ()) (hindex : checkOption bodyCtx index = .ok ())
    (hvalue : value.check bodyCtx = .ok ()) (hindexFits : IntegersFit (indexTerminals index))
    (hvalueFits : IntegersFit value.terminals) :
    CallsOf ctx.className (assignListing ctx target index value)
      (optionCalls index ++ value.calls) := by
  have hoperand := NameUse.operand_le_of_check htarget
  have hcode := value.callsOf_listing bodyCtx ctx hvalue hvalueFits
  cases index with
  | none =>
    exact hcode.append_inRange (List.forall_mem_singleton.2 (Instruction.inRange_pop.2 hoperand))
  | some index =>
    have hindexCode := index.callsOf_listing bodyCtx ctx hindex (hindexFits.mono fun w hw => by
      simp [indexTerminals, hw])
    refine .cons (Instruction.inRange_push.2 hoperand) (hindexCode.append ?_)
    refine .plain rfl (hcode.append_inRange ?_)
    simp [Instruction.InRange, Instruction.operand?, maxIndex]

theorem callsOf_returnListing {value : Option Expr} (hcheck : checkOption bodyCtx value = .ok ())
    (hfit : IntegersFit (valueTerminals value)) :
    CallsOf ctx.className (returnListing ctx value) (optionCalls value) := by
  cases value with
  | none => exact .of_inRange (by simp [returnListing, Instruction.InRange, Instruction.operand?])
  | some value =>
    refine (value.callsOf_listing bodyCtx ctx hcheck hfit).append_plain ?_
    exact List.forall_mem_singleton.2 rfl

theorem Statement.inRange_of_mem_comment (s : Statement) : ∀ i ∈ s.comment ctx, i.InRange := by
  intro i hi
  rw [comment] at hi
  split at hi
  · obtain rfl := List.mem_singleton.1 hi
    exact Instruction.inRange_of_operand?_eq_none rfl
  · cases hi

mutual

theorem Statement.callsOf_listing : ∀ (s : Statement) (labels : LabelSupply),
    s.check bodyCtx = .ok () → IntegersFit s.terminals →
      CallsOf ctx.className (s.listing ctx labels) s.calls
  | .assign target index value _, labels, hcheck, hfit => by
    simp only [Statement.check, Check.bind_eq_ok_iff] at hcheck
    rw [Statement.terminals] at hfit
    rw [Statement.listing_assign, Statement.calls]
    exact callsOf_assignListing bodyCtx ctx hcheck.1 hcheck.2.1 hcheck.2.2
      (hfit.mono fun w hw => by simp [hw]) (hfit.mono fun w hw => by simp [hw])
  | .ifThen condition body _, labels, hcheck, hfit => by
    simp only [Statement.check, Check.bind_eq_ok_iff] at hcheck
    rw [Statement.terminals] at hfit
    have hcondition := condition.callsOf_listing bodyCtx ctx hcheck.1
      (hfit.mono fun w hw => by simp [hw])
    have hbody := callsOf_statementsListing body ((labels.bump .ifFalse).bump .ifEnd) hcheck.2
      (hfit.mono fun w hw => by simp [hw])
    rw [Statement.listing_ifThen, Statement.calls]
    exact hcondition.append (.plain rfl (.plain rfl (hbody.append_plain (by
      simp [Instruction.operand?]))))
  | .ifElse condition thenBody elseBody _, labels, hcheck, hfit => by
    simp only [Statement.check, Check.bind_eq_ok_iff] at hcheck
    rw [Statement.terminals] at hfit
    have hcondition := condition.callsOf_listing bodyCtx ctx hcheck.1
      (hfit.mono fun w hw => by simp [hw])
    have hthen := callsOf_statementsListing thenBody ((labels.bump .ifFalse).bump .ifEnd)
      hcheck.2.1 (hfit.mono fun w hw => by simp [hw])
    have helse := callsOf_statementsListing elseBody
      (statementsLabelsAfter thenBody ((labels.bump .ifFalse).bump .ifEnd))
      hcheck.2.2 (hfit.mono fun w hw => by simp [hw])
    rw [Statement.listing_ifElse, Statement.calls]
    exact hcondition.append (.plain rfl (.plain rfl (hthen.append (.plain rfl (.plain rfl
      (helse.append_plain (by simp [Instruction.operand?])))))))
  | .whileLoop condition body _, labels, hcheck, hfit => by
    simp only [Statement.check, Check.bind_eq_ok_iff] at hcheck
    rw [Statement.terminals] at hfit
    have hcondition := condition.callsOf_listing bodyCtx ctx hcheck.1
      (hfit.mono fun w hw => by simp [hw])
    have hbody := callsOf_statementsListing body ((labels.bump .whileStart).bump .whileEnd)
      hcheck.2 (hfit.mono fun w hw => by simp [hw])
    rw [Statement.listing_whileLoop, Statement.calls]
    exact .plain rfl (hcondition.append (.plain rfl (.plain rfl (hbody.append_plain (by
      simp [Instruction.operand?])))))
  | .doCall call _, labels, hcheck, hfit => by
    rw [Statement.check] at hcheck
    rw [Statement.terminals] at hfit
    rw [Statement.listing_doCall, Statement.calls]
    refine (call.callsOf_listing bodyCtx ctx hcheck (hfit.mono (by simp))).append_inRange ?_
    exact List.forall_mem_singleton.2 (Instruction.inRange_pop.2 (Nat.zero_le _))
  | .ret value _, labels, hcheck, hfit => by
    rw [Statement.check] at hcheck
    rw [Statement.terminals] at hfit
    rw [Statement.listing_ret, Statement.calls]
    exact callsOf_returnListing bodyCtx ctx hcheck (hfit.mono (by simp))

/-- The calls of the code of statements are those of the statements. -/
theorem callsOf_statementsListing : ∀ (ss : List Statement) (labels : LabelSupply),
    checkStatements bodyCtx ss = .ok () → IntegersFit (statementsTerminals ss) →
      CallsOf ctx.className (statementsListing ctx labels ss) (statementsCalls ss)
  | [], labels, _, _ => by
    rw [statementsListing_nil]
    exact .nil
  | s :: ss, labels, hcheck, hfit => by
    simp only [checkStatements, Check.bind_eq_ok_iff] at hcheck
    rw [statementsTerminals] at hfit
    rw [statementsListing_cons, statementsCalls]
    have hss := callsOf_statementsListing ss (s.labelsAfter labels) hcheck.2 (hfit.mono (by simp))
    refine (CallsOf.of_inRange (s.inRange_of_mem_comment ctx)).append ?_
    exact (s.callsOf_listing labels hcheck.1 (hfit.mono (by simp))).append hss

end

theorem SubroutineDec.inRange_of_mem_header {options : Options} {fields : Nat} {s : SubroutineDec}
    (h : s.check options fields = .ok ()) (className : String) :
    ∀ i ∈ s.header className fields, i.InRange := by
  simp only [check, Check.bind_eq_ok_iff, Check.fits_eq_ok_iff] at h
  obtain ⟨hlocals, hkind⟩ := h
  refine List.forall_mem_cons.2 ⟨Instruction.inRange_function.2 hlocals, ?_⟩
  cases hs : s.kind with
  | function => simp [SubroutineKind.prologue]
  | method => simp [SubroutineKind.prologue]
  | constructor =>
    rw [if_pos hs, Check.bind_eq_ok_iff, Check.fits_eq_ok_iff] at hkind
    simpa [SubroutineKind.prologue] using ⟨hkind.1, by decide⟩

/-- The calls of the code of subroutines are those of their statements. -/
theorem callsOf_subroutinesListing {options : Options} {fields : Nat} {subs : List SubroutineDec}
    {labels : LabelSupply} (hcheck : checkSubroutines options fields subs = .ok ())
    (hfit : IntegersFit (subs.flatMap SubroutineDec.terminals)) :
    CallsOf ctx.className (subroutinesListing ctx fields labels subs)
      (subs.flatMap fun s => statementsCalls s.statements) := by
  induction subs generalizing labels with
  | nil => exact .nil
  | cons s ss ih =>
    have hstatements := checkStatements_of_checkSubroutines hcheck List.mem_cons_self
    simp only [checkSubroutines, Check.bind_eq_ok_iff] at hcheck
    rw [List.flatMap_cons] at hfit
    have hbody := callsOf_statementsListing _ ctx s.statements labels hstatements
      (hfit.mono fun w hw => by simp [SubroutineDec.terminals, hw])
    rw [subroutinesListing, List.flatMap_cons]
    exact (CallsOf.of_inRange (s.inRange_of_mem_header hcheck.1 _)).append
      (hbody.append (ih hcheck.2 (hfit.mono (by simp))))

end Statements

/-! ### Units -/

/-- What a run of digits is read as is its value. -/
theorem eq_decimalValue_of_mem_integerConstant? {digits : List Char} {n : Nat} (hne : digits ≠ [])
    (hrun : ∀ c ∈ digits, c.isDigit = true) (h : n ∈ integerConstant? (String.ofList digits)) :
    n = decimalValue digits := by
  rw [integerConstant?_ofList hne hrun, Option.mem_def, Option.ite_none_right_eq_some] at h
  exact (Option.some.inj h.2).symm

/-- The lexer makes no integer constant above the limit. -/
theorem Lexed.integerConstant_le {n : Nat} {cs : List Char} {tokens : List Token}
    (h : Lexed n cs tokens) :
    ∀ t ∈ tokens, t.kind = .integerConstant → ∀ v ∈ integerConstant? t.text, v ≤ maxIndex := by
  induction h with
  | finished => simp
  | token _ hlexeme _ ih =>
    refine List.forall_mem_cons.2 ⟨fun hkind v hv => ?_, ih⟩
    cases hlexeme with
    | integer hne hrun hvalue hend =>
      rw [eq_decimalValue_of_mem_integerConstant? hne hrun hv]
      exact hvalue
    | keyword k => cases hkind
    | identifier => cases hkind
    | string => cases hkind
    | symbol => cases hkind

theorem integersFit_of_spells {tokens : List Token} {ws : List Terminal}
    (hspells : List.Forall₂ Token.Spells tokens ws)
    (h : ∀ t ∈ tokens, t.kind = .integerConstant → ∀ v ∈ integerConstant? t.text, v ≤ maxIndex) :
    IntegersFit ws := by
  induction hspells with
  | nil => exact fun n hn => by cases hn
  | cons ht _ ih =>
    rw [List.forall_mem_cons] at h
    intro n hn
    rcases List.mem_cons.1 hn with rfl | hn
    · exact h.1 ht.1 n ht.2
    · exact ih h.2 n hn

/-- **The operands of a compiled unit are in range exactly if no call on an object has `maxIndex`
arguments**, the object not counted.  No operand exceeds the range by more than one. -/
theorem operands_inRange_iff {name text : String} {options : Options} {compiled : CompiledClass}
    (h : compileUnit name text options = .ok compiled) :
    ∃ tokens parsed, tokenize text = .ok tokens ∧ parse tokens = .ok parsed ∧
      (∀ i ∈ compiled.code, ∀ n ∈ i.operand?, n ≤ maxIndex + 1) ∧
      ((∀ i ∈ compiled.code, ∀ n ∈ i.operand?, n ≤ maxIndex) ↔
        ∀ c ∈ parsed.tree.calls, c.onObject = true → c.arguments.length < maxIndex) := by
  obtain ⟨tokens, parsed, htokens, hparsed, hlower⟩ := compile_eq_ok (compile_of_compileUnit h)
  obtain ⟨hcheck, hcode⟩ := lower_eq_ok_iff.1 hlower
  have hfit : IntegersFit parsed.tree.terminals :=
    integersFit_of_spells (spells_of_parse hparsed)
      (lexed_of_tokenize htokens).integerConstant_le
  have hcalls : CallsOf parsed.tree.name.text compiled.code.toList parsed.tree.calls := by
    rw [hcode]
    exact callsOf_subroutinesListing ⟨parsed.tree.name.text, options, text⟩ hcheck
      (hfit.mono fun w hw => by simp [ClassDec.terminals, hw])
  refine ⟨tokens, parsed, htokens, hparsed, fun i hi => ?_, ?_⟩
  · exact hcalls.operand_le (Array.mem_toList_iff.2 hi)
  · rw [← hcalls.inRange_iff]
    simp only [Array.mem_toList_iff, Instruction.InRange]

/-- A class with a call on the current object, one on a variable and one of a function. -/
def pingText : String :=
  "class Ping \x7b method void ping(Ping other) \x7b do ping(other); do other.ping(this);" ++
    " do Sys.wait(7); return; \x7d \x7d"

theorem operands_inRange_iff_ping :
    ∃ compiled, compileUnit "Ping" pingText .none = .ok compiled ∧
      ∃ tokens parsed, tokenize pingText = .ok tokens ∧ parse tokens = .ok parsed ∧
        (∀ i ∈ compiled.code, ∀ n ∈ i.operand?, n ≤ maxIndex + 1) ∧
        ((∀ i ∈ compiled.code, ∀ n ∈ i.operand?, n ≤ maxIndex) ↔
          ∀ c ∈ parsed.tree.calls, c.onObject = true → c.arguments.length < maxIndex) := by
  have hok : (compileUnit "Ping" pingText .none).toOption.isSome = true := by decide +kernel
  obtain ⟨compiled, h⟩ := exists_eq_ok hok
  exact ⟨compiled, h, operands_inRange_iff h⟩

end Jack

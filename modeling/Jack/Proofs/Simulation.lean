import Jack.Proofs.Labels
import Jack.Proofs.Semantics

/-!
# Code does what statements mean

The machine that runs the code of a unit does at each site what the statements of the site mean: it
goes from the memory at which they start to the memory to which they lead, and either arrives behind
their code with the stack that it had, or at one of their returns with the returned word on top.

* `Expr.performs` : the code of an expression pushes its value;
* `Statement.Runs.arrives` : the code of a statement does what the statement means;
* `statements_of_lower` : that holds at every site of a unit.
-/

namespace Jack

/-! ### Expressions -/

section Expressions

variable {calls : Calls} {ctx : CodeContext} {program : List Instruction} {stack : List Word}
  {m m' : Memory}

theorem NameUse.performs_pushed {n : NameUse} {v : Variable} (hv : n.declared? = some v) :
    Performs calls program [n.pushed] stack m (m.get v :: stack) m := by
  rw [pushed, operand_eq hv]
  refine .push fun pc that temp => ?_
  obtain ⟨name, type, storage, index⟩ := v
  cases storage <;> rfl

theorem NameUse.performs_popped {n : NameUse} {v : Variable} {w : Word}
    (hv : n.declared? = some v) :
    Performs calls program [n.popped] (w :: stack) m stack (m.set v w) := by
  rw [popped, operand_eq hv]
  refine .of_exec fun pc that temp => ⟨that, temp, ?_⟩
  obtain ⟨name, type, storage, index⟩ := v
  cases storage <;> rfl

theorem KeywordConstant.performs (k : KeywordConstant) :
    Performs calls program (k.instructions ctx.options) stack m (k.eval m :: stack) m := by
  cases k with
  | «true» =>
    rw [instructions]
    split <;> exact .cons (.push fun _ _ _ => rfl) (.op rfl)
  | «false» | null | this => exact .push fun _ _ _ => rfl

theorem UnaryOp.performs (op : UnaryOp) (x : Word) :
    Performs calls program [.op op.operation] (x :: stack) m (op.eval x :: stack) m :=
  .op (by cases op <;> rfl)

theorem BinaryOp.performs {op : BinaryOp} {x y z : Word}
    (h : op.eval calls ctx x y m = some (z, m')) :
    Performs calls program [op.instruction ctx.options] (y :: x :: stack) m (z :: stack) m' := by
  cases op with
  | mul | div =>
    obtain ⟨rfl, rfl⟩ := Prod.mk.inj (Option.some_inj.1 h)
    exact .call [x, y] rfl
  | mod =>
    simp only [eval, bind, Option.bind_eq_some_iff, pure, Option.some.injEq] at h
    obtain ⟨routine, hroutine, h⟩ := h
    obtain ⟨rfl, rfl⟩ := Prod.mk.inj h
    rw [instruction, hroutine]
    exact .call [x, y] rfl
  | add | sub | and | or | lt | gt | eq =>
    obtain ⟨rfl, rfl⟩ := Prod.mk.inj (Option.some_inj.1 h)
    exact .op rfl

theorem performs_string (value : String) :
    Performs calls program (stringListing value) stack m
      ((evalString calls value m).1 :: stack) (evalString calls value m).2 := by
  -- The string stays on top of the stack while its characters are appended.
  have hchars (cs : List Char) (string : Word × Memory) :
      Performs calls program (cs.flatMap appendCharacter) (string.1 :: stack) string.2
        ((cs.foldl (appendChar calls) string).1 :: stack)
        (cs.foldl (appendChar calls) string).2 := by
    induction cs generalizing string with
    | nil => exact .nil
    | cons c cs ih => exact .cons (.push fun _ _ _ => rfl) (.cons (.call [_, _] rfl) (ih _))
  exact .cons (.push fun _ _ _ => rfl) (.cons (.call [_] rfl) (hchars value.toList _))

/-- The code in front of the arguments of a call pushes the object. -/
theorem Call.performs_object {c : Call} {ws : List Word} (h : c.object m = some ws) :
    c.receiverInstructions.length = ws.length ∧ ∀ stack,
      Performs calls program c.receiverInstructions stack m (ws.reverse ++ stack) m := by
  obtain ⟨_ | receiver, name, arguments, span⟩ := c
  · obtain rfl := Option.some_inj.1 h
    exact ⟨rfl, fun stack => .push fun _ _ _ => rfl⟩
  · cases hm : receiver.meaning with
    | declared v =>
      simp only [object, hm, Option.some.injEq] at h
      simp only [receiverInstructions, hm, ← h]
      exact ⟨rfl, fun stack => receiver.performs_pushed (NameUse.declared?_eq_some_iff.2 hm)⟩
    | className =>
      simp only [object, hm, Option.some.injEq] at h
      simp only [receiverInstructions, hm, ← h]
      exact ⟨rfl, fun stack => .nil⟩
    | subroutine => simp [object, hm] at h

mutual

/-- **The code of an expression pushes its value.** -/
theorem Expr.performs : ∀ (e : Expr) {stack : List Word} {m m' : Memory} {w : Word},
    e.eval calls ctx m = some (w, m') →
      Performs calls program (e.listing ctx) stack m (w :: stack) m'
  | ⟨head, tail, span⟩, stack, m, m', w, h => by
    simp only [Expr.eval, bind, Option.bind_eq_some_iff] at h
    obtain ⟨⟨x, m₁⟩, hhead, htail⟩ := h
    rw [Expr.listing_mk]
    exact (head.performs hhead).append (performs_tailListing tail htail)

theorem performs_tailListing : ∀ (tail : List (BinaryOp × Term)) {stack : List Word}
    {m m' : Memory} {x w : Word}, evalTail calls ctx tail x m = some (w, m') →
      Performs calls program (tailListing ctx tail) (x :: stack) m (w :: stack) m'
  | [], stack, m, m', x, w, h => by
    rw [evalTail] at h
    obtain ⟨rfl, rfl⟩ := Prod.mk.inj (Option.some_inj.1 h)
    exact .nil
  | (op, t) :: tail, stack, m, m', x, w, h => by
    simp only [evalTail, bind, Option.bind_eq_some_iff] at h
    obtain ⟨⟨y, m₁⟩, ht, ⟨z, m₂⟩, hop, htail⟩ := h
    rw [tailListing_cons]
    exact (t.performs ht).append ((BinaryOp.performs hop).cons (performs_tailListing tail htail))

theorem Term.performs : ∀ (t : Term) {stack : List Word} {m m' : Memory} {w : Word},
    t.eval calls ctx m = some (w, m') →
      Performs calls program (t.listing ctx) stack m (w :: stack) m'
  | .integer value span, stack, m, m', w, h => by
    rw [Term.eval] at h
    obtain ⟨rfl, rfl⟩ := Prod.mk.inj (Option.some_inj.1 h)
    exact Term.listing_integer ctx value span ▸ .push fun _ _ _ => rfl
  | .string value span, stack, m, m', w, h => by
    rw [Term.eval] at h
    have hstring : Performs calls program (stringListing value) stack m _ _ :=
      performs_string value
    rwa [Option.some_inj.1 h, ← Term.listing_string ctx value span] at hstring
  | .keyword value span, stack, m, m', w, h => by
    rw [Term.eval] at h
    obtain ⟨rfl, rfl⟩ := Prod.mk.inj (Option.some_inj.1 h)
    exact Term.listing_keyword ctx value span ▸ value.performs
  | .var name, stack, m, m', w, h => by
    simp only [Term.eval, bind, Option.bind_eq_some_iff, pure, Option.some.injEq] at h
    obtain ⟨v, hv, h⟩ := h
    obtain ⟨rfl, rfl⟩ := Prod.mk.inj h
    exact Term.listing_var ctx name ▸ name.performs_pushed hv
  | .element array index, stack, m, m', w, h => by
    simp only [Term.eval, bind, Option.bind_eq_some_iff, pure, Option.some.injEq] at h
    obtain ⟨v, hv, ⟨i, m₁⟩, hi, h⟩ := h
    obtain ⟨rfl, rfl⟩ := Prod.mk.inj h
    rw [Term.listing_element]
    exact (array.performs_pushed hv).cons
      ((index.performs hi).append (.cons (.op rfl) .element))
  | .call call, stack, m, m', w, h => by
    rw [Term.eval] at h
    exact Term.listing_call ctx call ▸ call.performs h
  | .group inner span, stack, m, m', w, h => by
    rw [Term.eval] at h
    exact Term.listing_group ctx inner span ▸ inner.performs h
  | .unary op operand span, stack, m, m', w, h => by
    simp only [Term.eval, bind, Option.bind_eq_some_iff, pure, Option.some.injEq] at h
    obtain ⟨⟨x, m₁⟩, hx, h⟩ := h
    obtain ⟨rfl, rfl⟩ := Prod.mk.inj h
    rw [Term.listing_unary]
    exact (operand.performs hx).append (op.performs x)

theorem Call.performs : ∀ (c : Call) {stack : List Word} {m m' : Memory} {w : Word},
    c.eval calls ctx m = some (w, m') →
      Performs calls program (c.listing ctx) stack m (w :: stack) m'
  | ⟨receiver, name, arguments, span⟩, stack, m, m', w, h => by
    simp only [Call.eval, bind, Option.bind_eq_some_iff, pure, Option.some.injEq] at h
    obtain ⟨object, hobject, ⟨ws, m₁⟩, hws, h⟩ := h
    obtain ⟨hlength, hpush⟩ := Call.performs_object hobject
    obtain ⟨hlength', hpush'⟩ := performs_argumentsListing arguments hws
    -- The object and the arguments lie on the stack in this order, the last one on top.
    have hn : arguments.length +
        (Call.mk receiver name arguments span).receiverInstructions.length =
          (object ++ ws).length := by
      rw [hlength, hlength', List.length_append, Nat.add_comm]
    have hcall : Performs calls program
        [(Call.mk receiver name arguments span).instruction ctx.className]
        ((object ++ ws).reverse ++ stack) m₁ _ _ := .call (object ++ ws) hn
    rw [h, List.reverse_append, List.append_assoc] at hcall
    rw [Call.listing_eq]
    exact (hpush stack).append ((hpush' _).append hcall)

/-- The code of arguments pushes their values, the first one first. -/
theorem performs_argumentsListing : ∀ (es : List Expr) {m m' : Memory} {ws : List Word},
    evalArguments calls ctx es m = some (ws, m') → es.length = ws.length ∧ ∀ stack,
      Performs calls program (argumentsListing ctx es) stack m (ws.reverse ++ stack) m'
  | [], m, m', ws, h => by
    rw [evalArguments] at h
    obtain ⟨rfl, rfl⟩ := Prod.mk.inj (Option.some_inj.1 h)
    exact ⟨rfl, fun stack => .nil⟩
  | e :: es, m, m', ws, h => by
    simp only [evalArguments, bind, Option.bind_eq_some_iff, pure, Option.some.injEq] at h
    obtain ⟨⟨x, m₁⟩, he, ⟨xs, m₂⟩, hes, h⟩ := h
    obtain ⟨rfl, rfl⟩ := Prod.mk.inj h
    obtain ⟨hlength, hpush⟩ := performs_argumentsListing es hes
    refine ⟨congrArg Nat.succ hlength, fun stack => ?_⟩
    rw [argumentsListing_cons, List.reverse_cons, List.append_assoc]
    exact (e.performs he).append (hpush _)

end

end Expressions

/-! ### Jumps -/

section Jumps

variable {calls : Calls} {ctx : CodeContext} {program l : List Instruction} {start pc : Nat}
  {m m' : Memory} {condition : Expr} {name : String}

/-- Where no label is defined twice, jumps go to the definition. -/
theorem labelPosition?_of_nodup (hnodup : (definedLabels program).Nodup)
    (hpc : program[pc]? = some (.label name)) : labelPosition? program name = some pc := by
  refine labelPosition?_eq hpc fun pc' hpc' => ?_
  obtain ⟨hlt, hget⟩ := List.getElem?_eq_some_iff.1 hpc
  obtain ⟨hlt', hget'⟩ := List.getElem?_eq_some_iff.1 hpc'
  -- Of two definitions at different places one comes first, and the labels would be equal.
  have hpair := List.pairwise_iff_getElem.1 (List.pairwise_filterMap.1 hnodup)
  rcases Nat.lt_trichotomy pc' pc with h | h | h
  · exact absurd rfl (hpair _ _ hlt' hlt h name (hget' ▸ rfl) name (hget ▸ rfl))
  · exact h
  · exact absurd rfl (hpair _ _ hlt hlt' h name (hget ▸ rfl) name (hget' ▸ rfl))

/-- A condition is negated in front of the jump. -/
theorem reaches_condition (stack : List Word) {w : Word}
    (hcode : OccursAt program start (condition.listing ctx ++ .op .not :: .ifGoto name :: l))
    (h : condition.eval calls ctx m = some (w, m')) :
    Reaches calls program ⟨start, stack, m⟩
        ⟨start + (condition.listing ctx).length + 1, ~~~w :: stack, m'⟩ ∧
      program[start + (condition.listing ctx).length + 1]? = some (.ifGoto name) := by
  have hperforms : Performs calls program (condition.listing ctx ++ [.op .not]) stack m
      (~~~w :: stack) m' := (condition.performs h).append (.op rfl)
  have hcode' : OccursAt program start
      ((condition.listing ctx ++ [.op .not]) ++ .ifGoto name :: l) := by
    simpa using hcode
  have hreaches := hperforms start hcode'.left
  rw [List.length_append, ← Nat.add_assoc] at hreaches
  exact ⟨hreaches, hcode.right.tail.head⟩

/-- A condition that holds lets control into what it guards. -/
theorem reaches_of_holds (stack : List Word)
    (hcode : OccursAt program start (condition.listing ctx ++ .op .not :: .ifGoto name :: l))
    (h : condition.eval calls ctx m = some (BitVec.allOnes 16, m')) :
    Reaches calls program ⟨start, stack, m⟩
      ⟨start + (condition.listing ctx).length + 2, stack, m'⟩ := by
  obtain ⟨hreaches, hjump⟩ := reaches_condition stack hcode h
  have hnot : ~~~BitVec.allOnes 16 = (0 : Word) := by decide
  exact hreaches.trans (hnot ▸ .ifGoto_zero hjump)

/-- A condition that does not hold jumps. -/
theorem reaches_of_not_holds (stack : List Word) {target : Nat} {w : Word}
    (hcode : OccursAt program start (condition.listing ctx ++ .op .not :: .ifGoto name :: l))
    (h : condition.eval calls ctx m = some (w, m')) (hw : w ≠ BitVec.allOnes 16)
    (ht : labelPosition? program name = some target) :
    Reaches calls program ⟨start, stack, m⟩ ⟨target, stack, m'⟩ := by
  obtain ⟨hreaches, hjump⟩ := reaches_condition stack hcode h
  have hnot : ~~~w ≠ 0 := by
    intro hzero
    have hw' : ~~~(~~~w) = BitVec.allOnes 16 := by rw [hzero]; decide
    exact hw (BitVec.not_not.symm.trans hw')
  exact hreaches.trans (.ifGoto hjump ht hnot)

end Jumps

/-! ### Statements -/

/-- The machine arrives where statements with an outcome lead: behind their code with the stack that
it had, or at a return in their code with the returned word on top. -/
def Arrives (calls : Calls) (program : List Instruction) (start stop : Nat) (stack : List Word)
    (m : Memory) : Outcome → Memory → Prop
  | .normal, m' => Reaches calls program ⟨start, stack, m⟩ ⟨stop, stack, m'⟩
  | .returned w, m' => ∃ pc, start ≤ pc ∧ pc < stop ∧ program[pc]? = some .ret ∧
      Reaches calls program ⟨start, stack, m⟩ ⟨pc, w :: stack, m'⟩

namespace Arrives

variable {calls : Calls} {program : List Instruction} {start start' stop stop' : Nat}
  {stack : List Word} {m m₁ m' : Memory} {o : Outcome}

/-- Code that is run before. -/
theorem after (h : Arrives calls program start' stop stack m₁ o m')
    (hreaches : Reaches calls program ⟨start, stack, m⟩ ⟨start', stack, m₁⟩)
    (hle : start ≤ start') : Arrives calls program start stop stack m o m' := by
  cases o with
  | normal => exact hreaches.trans h
  | returned w =>
    obtain ⟨pc, hpc, hstop, hret, hreaches'⟩ := h
    exact ⟨pc, hle.trans hpc, hstop, hret, hreaches.trans hreaches'⟩

/-- Code that is run behind. -/
theorem before (h : Arrives calls program start stop stack m o m')
    (hreaches : Reaches calls program ⟨stop, stack, m'⟩ ⟨stop', stack, m'⟩)
    (hle : stop ≤ stop') : Arrives calls program start stop' stack m o m' := by
  cases o with
  | normal => exact Reaches.trans h hreaches
  | returned w =>
    obtain ⟨pc, hpc, hstop, hret, hreaches'⟩ := h
    exact ⟨pc, hpc, hstop.trans_le hle, hret, hreaches'⟩

theorem congr_stop (h : Arrives calls program start stop stack m o m') (heq : stop = stop') :
    Arrives calls program start stop' stack m o m' := heq ▸ h

end Arrives

section Statements

variable {calls : Calls} {ctx : CodeContext} {program : List Instruction}

theorem Statement.performs_comment (s : Statement) {stack : List Word} {m : Memory} :
    Performs calls program (s.comment ctx) stack m stack m := by
  rw [comment]
  split
  · exact .comment
  · exact .nil

mutual

/-- **The code of a statement does what the statement means.** -/
theorem Statement.Runs.arrives (hnodup : (definedLabels program).Nodup) {s : Statement}
    {labels : LabelSupply} {start : Nat} (stack : List Word) {m m' : Memory} {o : Outcome}
    (hcode : OccursAt program start (s.listing ctx labels)) :
    s.Runs calls ctx m o m' →
      Arrives calls program start (start + (s.listing ctx labels).length) stack m o m'
  | .assign hv hvalue => by
    rw [Statement.listing_assign] at hcode ⊢
    exact (Expr.performs _ hvalue).append (NameUse.performs_popped hv) start hcode
  | .store hv hindex hvalue => by
    rw [Statement.listing_assign] at hcode ⊢
    exact (NameUse.performs_pushed hv).cons ((Expr.performs _ hindex).append
      (.cons (.op rfl) ((Expr.performs _ hvalue).append .store))) start hcode
  | .ifThenTrue hcondition hbody => by
    rw [Statement.listing_ifThen] at hcode ⊢
    have hend := hcode.right.tail.tail.right.head
    have harrives := (hbody.arrives hnodup stack hcode.right.tail.tail.left).before
      (.label hend) (Nat.le_succ _)
    refine (harrives.after (reaches_of_holds stack hcode hcondition) (by omega)).congr_stop ?_
    simp only [List.length_append, List.length_cons, List.length_nil]
    omega
  | .ifThenFalse hcondition hw => by
    rw [Statement.listing_ifThen] at hcode ⊢
    have hend := hcode.right.tail.tail.right.head
    refine Arrives.congr_stop (o := .normal) (((reaches_of_not_holds stack hcode hcondition hw
      (labelPosition?_of_nodup hnodup hend)).trans (.label hend))) ?_
    simp only [List.length_append, List.length_cons, List.length_nil]
    omega
  | .ifElseTrue hcondition hbody => by
    rw [Statement.listing_ifElse] at hcode ⊢
    have hthen := hcode.right.tail.tail
    have hend := hthen.right.tail.tail.right.head
    have hjump := labelPosition?_of_nodup hnodup hend
    have harrives := (hbody.arrives hnodup stack hthen.left).before
      ((Reaches.goto hthen.right.head hjump).trans (.label hend)) (by omega)
    refine (harrives.after (reaches_of_holds stack hcode hcondition) (by omega)).congr_stop ?_
    simp only [List.length_append, List.length_cons, List.length_nil]
    omega
  | .ifElseFalse hcondition hw hbody => by
    rw [Statement.listing_ifElse] at hcode ⊢
    have hthen := hcode.right.tail.tail
    -- The jump lands on the label between the blocks.
    have hfalse := hthen.right.tail.head
    have helse := hthen.right.tail.tail
    have harrives := (hbody.arrives hnodup stack helse.left).before
      (.label helse.right.head) (Nat.le_succ _)
    have hjump := (reaches_of_not_holds stack hcode hcondition hw
      (labelPosition?_of_nodup hnodup hfalse)).trans (.label hfalse)
    refine (harrives.after hjump (by omega)).congr_stop ?_
    simp only [List.length_append, List.length_cons, List.length_nil]
    omega
  | .whileFalse hcondition hw => by
    rw [Statement.listing_whileLoop] at hcode ⊢
    have hend := hcode.tail.right.tail.tail.right.tail.head
    have hjump := (reaches_of_not_holds stack hcode.tail hcondition hw
      (labelPosition?_of_nodup hnodup hend)).trans (.label hend)
    refine Arrives.congr_stop (o := .normal) ((Reaches.label hcode.head).trans hjump) ?_
    simp only [List.length_append, List.length_cons, List.length_nil]
    omega
  | .whileTrue hcondition hbody hloop => by
    -- One round leads back to the start of the same code, and there the other rounds take over.
    have harrives := hloop.arrives hnodup stack hcode
    rw [Statement.listing_whileLoop] at hcode
    have hbody' := hcode.tail.right.tail.tail
    have hin := (Reaches.label hcode.head).trans
      (reaches_of_holds stack hcode.tail hcondition)
    have hround := hin.trans (hbody.arrives hnodup stack hbody'.left)
    have hback := hround.trans (.goto hbody'.right.head (labelPosition?_of_nodup hnodup hcode.head))
    exact harrives.after hback le_rfl
  | .whileReturn hcondition hbody => by
    rw [Statement.listing_whileLoop] at hcode ⊢
    have hbody' := hcode.tail.right.tail.tail
    have hin := (Reaches.label hcode.head).trans
      (reaches_of_holds stack hcode.tail hcondition)
    obtain ⟨pc, hpc, hlt, hret, hreaches⟩ := hbody.arrives hnodup stack hbody'.left
    refine ⟨pc, by omega, ?_, hret, hin.trans hreaches⟩
    simp only [List.length_append, List.length_cons, List.length_nil]
    omega
  | .doCall hcall => by
    rw [Statement.listing_doCall] at hcode ⊢
    exact (Call.performs _ hcall).append .drop start hcode
  | .retNothing => by
    rw [Statement.listing_ret, returnListing] at hcode ⊢
    have hpush : Performs calls program [.push .constant 0] stack m (0 :: stack) m :=
      .push fun _ _ _ => rfl
    exact ⟨start + 1, by omega, by simp, hcode.tail.head, hpush start (hcode.left (l := [_]))⟩
  | .ret hvalue => by
    rw [Statement.listing_ret, returnListing] at hcode ⊢
    refine ⟨_, Nat.le_add_right _ _, ?_, hcode.right.head, Expr.performs _ hvalue start hcode.left⟩
    simp

/-- **The code of statements does what the statements mean.** -/
theorem StatementsRun.arrives (hnodup : (definedLabels program).Nodup) {ss : List Statement}
    {labels : LabelSupply} {start : Nat} (stack : List Word) {m m' : Memory} {o : Outcome}
    (hcode : OccursAt program start (statementsListing ctx labels ss)) :
    StatementsRun calls ctx ss m o m' →
      Arrives calls program start (start + (statementsListing ctx labels ss).length) stack m o m'
  | .nil => by
    rw [statementsListing_nil]
    exact Reaches.refl
  | .cons hs hss => by
    rw [statementsListing_cons] at hcode ⊢
    have hcomment : Reaches calls program ⟨start, stack, m⟩ ⟨_, stack, m⟩ :=
      Statement.performs_comment _ start hcode.left
    have hfirst := hs.arrives hnodup stack hcode.right.left
    have harrives := hss.arrives hnodup stack hcode.right.right
    refine (harrives.after (hcomment.trans hfirst) (by omega)).congr_stop ?_
    simp only [List.length_append]
    omega
  | .leave hs => by
    rw [statementsListing_cons] at hcode ⊢
    have hcomment : Reaches calls program ⟨start, stack, m⟩ ⟨_, stack, m⟩ :=
      Statement.performs_comment _ start hcode.left
    obtain ⟨pc, hpc, hlt, hret, hreaches⟩ := hs.arrives hnodup stack hcode.right.left
    refine ⟨pc, by omega, ?_, hret, hcomment.trans hreaches⟩
    simp only [List.length_append]
    omega

end

end Statements

/-! ### The statements of a unit -/

/-- **At each site of a unit, and so for all statement lists of the class, the code does what the
statements mean.** -/
theorem statements_of_lower {tree : ClassDec} {scope : Scope} {source : String}
    {options : Options} {code : Code} (h : lower tree scope source options = .ok code) :
    (tree.sites scope source options).map (·.statements) = tree.statementLists ∧
      ∀ b ∈ tree.sites scope source options,
        OccursAt code.toList b.start (b.listing ⟨tree.name.text, options, source⟩) ∧
          ∀ (calls : Calls) (m m' : Memory) (o : Outcome),
            StatementsRun calls ⟨tree.name.text, options, source⟩ b.statements m o m' →
              ∀ stack, Arrives calls code.toList b.start
                (b.stop ⟨tree.name.text, options, source⟩) stack m o m' := by
  refine ⟨statements_subroutinesSites _ _ _, fun b hb => ?_⟩
  have hcode := occurs_of_mem_sites h hb
  exact ⟨hcode, fun calls m m' o hrun stack =>
    hrun.arrives (nodup_definedLabels_of_lower h) stack hcode⟩

namespace Countdown

/-- Calls that do nothing and give zero. -/
def silent : Calls := ⟨fun _ _ globals => (0, globals), fun _ _ _ temp => temp⟩

/-- The memory in which the parameter is one and the array is at address 100. -/
def memory : Memory := ⟨fun _ => 100, fun _ => 1, 0, ⟨fun _ => 0, fun _ => 0⟩⟩

end Countdown

theorem statements_of_lower_countdown :
    ∃ code, lower Countdown.tree .empty "" .none = .ok code ∧
      ∃ m', m'.load 101 = 1 ∧ m'.arguments 0 = 0 ∧ ∀ stack,
        Arrives Countdown.silent code.toList 1 34 stack Countdown.memory (.returned 0) m' := by
  refine ⟨_, rfl, ((Countdown.memory.store 101 1).setArgument 0 0), rfl, rfl, ?_⟩
  have hsite : (⟨[Countdown.loop, .ret none (.empty 0)], .new, 1⟩ : Site) ∈
      Countdown.tree.sites .empty "" .none := List.mem_cons_self
  refine ((statements_of_lower rfl).2 _ hsite).2 _ _ _ _ ?_
  refine .cons (.whileTrue rfl (.cons (.ifElseTrue rfl (.cons (.store rfl rfl rfl) .nil))
    (.cons (.assign rfl rfl) .nil)) (.whileFalse rfl ?_)) (.leave .retNothing)
  decide

end Jack

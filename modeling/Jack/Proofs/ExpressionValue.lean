import Jack.Proofs.Operands
import Jack.Proofs.Simulation

/-!
# Expressions with code have a value

An expression that passes its checks has a value in every memory, and to evaluate it changes nothing
but the memory that all subroutines share.  Its code is straight: it holds no jumps, and it leaves
the scratch memory alone, so that it does the same wherever it stands.  With the simulation of
`Jack.Proofs.Simulation` this says all that the code of an expression does to the machine.

* `Expr.exists_eval_of_check` : an expression with code has a value;
* `Steps.moved` : straight code runs the same wherever it stands, and calls alone touch the scratch
  memory;
* `value_of_check` : **the code of an expression pushes its value, and changes besides only what is
  shared and the address of segment `that`.**
-/

namespace Jack

/-- The memory with other contents in what is shared.  What the subroutine keeps to itself, its
variables and its current object, is as before. -/
def Memory.sharing (m : Memory) (globals : Globals) : Memory := { m with globals := globals }

/-! ### Values -/

section Values

variable {calls : Calls} {ctx : CodeContext} {kind : SubroutineKind} {m : Memory}

theorem NameUse.declared?_of_check {n : NameUse} (h : n.check = .ok ()) :
    ∃ v, n.declared? = some v := by
  obtain ⟨v, hv⟩ := declared_of_check h
  exact ⟨v, declared?_eq_some_iff.2 hv⟩

/-- An operator with code has a value on all operands. -/
theorem BinaryOp.exists_eval_of_check {op : BinaryOp} {span : Span}
    (h : op.check ⟨kind, ctx.options⟩ span = .ok ()) (calls : Calls) (x y : Word) (m : Memory) :
    ∃ w globals, op.eval calls ctx x y m = some (w, m.sharing globals) := by
  cases op with
  | mod =>
    cases hroutine : ctx.options.moduloRoutine with
    | none => simp [check, hroutine] at h
    | some routine => exact ⟨_, _, by simp [eval, hroutine]; rfl⟩
  | mul | div => exact ⟨_, _, rfl⟩
  | add | sub | and | or | lt | gt | eq => exact ⟨_, m.globals, rfl⟩

/-- To make a string changes what is shared and nothing else. -/
theorem exists_evalString (calls : Calls) (value : String) (m : Memory) :
    ∃ w globals, evalString calls value m = (w, m.sharing globals) := by
  have hchars (cs : List Char) (w : Word) (globals : Globals) :
      ∃ w' globals', cs.foldl (appendChar calls) (w, m.sharing globals) =
        (w', m.sharing globals') := by
    induction cs generalizing w globals with
    | nil => exact ⟨w, globals, rfl⟩
    | cons c cs ih => exact ih _ _
  exact hchars value.toList _ _

/-- A call with code has an object to work on, or needs none. -/
theorem Call.exists_object_of_check {c : Call} {bctx : BodyContext}
    (h : Call.checkReceiver bctx c = .ok ()) (m : Memory) : ∃ ws, c.object m = some ws := by
  obtain ⟨_ | receiver, name, arguments, span⟩ := c
  · exact ⟨[m.this], rfl⟩
  · cases hm : receiver.meaning with
    | declared v => exact ⟨[m.get v], by simp [object, hm]⟩
    | className => exact ⟨[], by simp [object, hm]⟩
    | subroutine => simp [checkReceiver, NameUse.checkReceiver, hm, Check.refuse] at h

mutual

/-- **An expression with code has a value**, and its evaluation changes what is shared and nothing
else. -/
theorem Expr.exists_eval_of_check : ∀ (e : Expr), e.check ⟨kind, ctx.options⟩ = .ok () →
    ∀ m : Memory, ∃ w globals, e.eval calls ctx m = some (w, m.sharing globals)
  | ⟨head, tail, span⟩, h, m => by
    simp only [Expr.check, Check.bind_eq_ok_iff] at h
    obtain ⟨x, globals, hx⟩ := head.exists_eval_of_check h.1 m
    obtain ⟨w, globals', hw⟩ := exists_evalTail_of_check tail h.2 x (m.sharing globals)
    exact ⟨w, globals', by simp only [Expr.eval, hx, bind, Option.bind_some]; exact hw⟩

theorem exists_evalTail_of_check : ∀ (tail : List (BinaryOp × Term)),
    checkTail ⟨kind, ctx.options⟩ tail = .ok () → ∀ (x : Word) (m : Memory),
      ∃ w globals, evalTail calls ctx tail x m = some (w, m.sharing globals)
  | [], _, x, m => ⟨x, m.globals, by rw [evalTail]; rfl⟩
  | (op, t) :: tail, h, x, m => by
    simp only [checkTail, Check.bind_eq_ok_iff] at h
    obtain ⟨y, globals, hy⟩ := t.exists_eval_of_check h.1 m
    obtain ⟨z, globals', hz⟩ := BinaryOp.exists_eval_of_check h.2.1 calls x y (m.sharing globals)
    obtain ⟨w, globals'', hw⟩ := exists_evalTail_of_check tail h.2.2 z (m.sharing globals')
    refine ⟨w, globals'', ?_⟩
    simp only [evalTail, hy, bind, Option.bind_some, hz]
    exact hw

theorem Term.exists_eval_of_check : ∀ (t : Term), t.check ⟨kind, ctx.options⟩ = .ok () →
    ∀ m : Memory, ∃ w globals, t.eval calls ctx m = some (w, m.sharing globals)
  | .integer value span, _, m => ⟨_, m.globals, by rw [Term.eval]; rfl⟩
  | .string value span, _, m => by
    obtain ⟨w, globals, hw⟩ := exists_evalString calls value m
    exact ⟨w, globals, by rw [Term.eval, hw]⟩
  | .keyword value span, _, m => ⟨_, m.globals, by rw [Term.eval]; rfl⟩
  | .var name, h, m => by
    rw [Term.check] at h
    obtain ⟨v, hv⟩ := NameUse.declared?_of_check h
    exact ⟨m.get v, m.globals, by simp [Term.eval, hv]; rfl⟩
  | .element array index, h, m => by
    simp only [Term.check, Check.bind_eq_ok_iff] at h
    obtain ⟨v, hv⟩ := NameUse.declared?_of_check h.1
    obtain ⟨i, globals, hi⟩ := index.exists_eval_of_check h.2 m
    exact ⟨(m.sharing globals).load (m.get v + i), globals, by simp [Term.eval, hv, hi]⟩
  | .call call, h, m => by
    rw [Term.check] at h
    rw [Term.eval]
    exact call.exists_eval_of_check h m
  | .group inner span, h, m => by
    rw [Term.check] at h
    rw [Term.eval]
    exact inner.exists_eval_of_check h m
  | .unary op operand span, h, m => by
    rw [Term.check] at h
    obtain ⟨x, globals, hx⟩ := operand.exists_eval_of_check h m
    exact ⟨op.eval x, globals, by simp [Term.eval, hx]⟩

theorem Call.exists_eval_of_check : ∀ (c : Call), c.check ⟨kind, ctx.options⟩ = .ok () →
    ∀ m : Memory, ∃ w globals, c.eval calls ctx m = some (w, m.sharing globals)
  | ⟨receiver, name, arguments, span⟩, h, m => by
    simp only [Call.check, Check.bind_eq_ok_iff] at h
    obtain ⟨object, hobject⟩ := Call.exists_object_of_check h.2.1 m
    obtain ⟨ws, globals, hws⟩ := exists_evalArguments_of_check arguments h.2.2 m
    exact ⟨_, _, by simp only [Call.eval, hobject, hws, bind, Option.bind_some]; rfl⟩

theorem exists_evalArguments_of_check : ∀ (es : List Expr),
    checkArguments ⟨kind, ctx.options⟩ es = .ok () → ∀ m : Memory,
      ∃ ws globals, evalArguments calls ctx es m = some (ws, m.sharing globals)
  | [], _, m => ⟨[], m.globals, by rw [evalArguments]; rfl⟩
  | e :: es, h, m => by
    simp only [checkArguments, Check.bind_eq_ok_iff] at h
    obtain ⟨w, globals, hw⟩ := e.exists_eval_of_check h.1 m
    obtain ⟨ws, globals', hws⟩ := exists_evalArguments_of_check es h.2 (m.sharing globals)
    refine ⟨w :: ws, globals', ?_⟩
    simp only [evalArguments, hw, bind, Option.bind_some, hws]
    rfl

end

end Values

/-! ### Straight code -/

/-- Control goes on behind the instruction, and the instruction itself leaves the scratch memory
alone. -/
def Instruction.IsStraight : Instruction → Prop
  | .push .. | .op _ | .label _ | .comment _ | .call .. => True
  | .pop segment _ => segment ≠ .temp
  | .goto _ | .ifGoto _ | .function .. | .ret => False

theorem OfExpression.isStraight {names : List NameUse} {i : Instruction}
    (h : OfExpression names i) : i.IsStraight := by
  cases h with
  | address => exact fun h => by cases h
  | _ => trivial

/-- The calls leave the scratch memory as it is. -/
def Calls.KeepScratch (calls : Calls) : Prop :=
  ∀ name arguments globals temp, calls.scratch name arguments globals temp = temp

/-- The state with the machine `k` instructions further on. -/
def MachineState.moved (k : Nat) (s : MachineState) : MachineState := { s with pc := k + s.pc }

section Straight

variable {calls : Calls} {program l : List Instruction} {k : Nat} {s t : MachineState}

theorem MachineState.write_moved {w : Word} {segment : Segment} {index : Nat}
    (hsegment : segment ≠ .temp) (h : s.write w segment index = some t) :
    (s.moved k).write w segment index = some (t.moved k) ∧ t.temp = s.temp := by
  match segment, index, hsegment, h with
  | .argument, _, _, rfl | .localVar, _, _, rfl | .static, _, _, rfl | .this, _, _, rfl
  | .that, _, _, rfl | .pointer, 0, _, rfl | .pointer, 1, _, rfl => exact ⟨rfl, rfl⟩

/-- A straight instruction does the same in every program. -/
theorem MachineState.exec_moved {i : Instruction} (hi : i.IsStraight)
    (h : s.exec calls l i = some t) :
    (s.moved k).exec calls program i = some (t.moved k) ∧
      (calls.KeepScratch → t.temp = s.temp) := by
  cases i with
  | push segment index =>
    simp only [exec, bind, Option.bind_eq_some_iff, pure, Option.some.injEq] at h ⊢
    obtain ⟨w, hw, rfl⟩ := h
    exact ⟨⟨w, hw, rfl⟩, fun _ => rfl⟩
  | pop segment index =>
    obtain ⟨⟨pc, _ | ⟨w, stack⟩, m⟩, that, temp⟩ := s
    · cases h
    · obtain ⟨hmoved, htemp⟩ := write_moved hi h
      exact ⟨hmoved, fun _ => htemp⟩
  | op o =>
    simp only [exec, bind, Option.bind_eq_some_iff, pure, Option.some.injEq] at h ⊢
    obtain ⟨stack, hstack, rfl⟩ := h
    exact ⟨⟨stack, hstack, rfl⟩, fun _ => rfl⟩
  | label | comment =>
    obtain rfl := Option.some.inj h
    exact ⟨rfl, fun _ => rfl⟩
  | call name n =>
    obtain ⟨hn, h⟩ := Option.ite_none_right_eq_some.1 h
    obtain rfl := Option.some.inj h
    exact ⟨if_pos hn, fun hkeep => hkeep _ _ _ _⟩
  | goto | ifGoto | function | ret => exact hi.elim

/-- **Straight code runs the same wherever it stands**, and calls alone touch the scratch memory. -/
theorem Steps.moved (hl : ∀ i ∈ l, i.IsStraight) (hcode : OccursAt program k l)
    (h : Steps calls l s t) :
    Steps calls program (s.moved k) (t.moved k) ∧ (calls.KeepScratch → t.temp = s.temp) := by
  induction h with
  | refl => exact ⟨.refl, fun _ => rfl⟩
  | @tail t u _ hstep ih =>
    simp only [MachineState.step, bind, Option.bind_eq_some_iff] at hstep
    obtain ⟨i, hi, hexec⟩ := hstep
    obtain ⟨hmoved, htemp⟩ : (t.moved k).exec calls program i = some (u.moved k) ∧
        (calls.KeepScratch → u.temp = t.temp) :=
      MachineState.exec_moved (hl i (List.mem_of_getElem? hi)) hexec
    have hmem : program[(t.moved k).pc]? = some i :=
      (hcode.getElem? (List.getElem?_eq_some_iff.1 hi).1).trans hi
    refine ⟨ih.1.tail ?_, fun hkeep => (htemp hkeep).trans (ih.2 hkeep)⟩
    rw [MachineState.step_eq hmem, hmoved]

end Straight

/-! ### The code of an expression -/

section Value

variable {kind : SubroutineKind} {options : Options} {e : Expr}

/-- **The code of an expression pushes its value.**  Wherever the code stands in a program, and
whatever the stack, the memory and the called subroutines are, the expression has a value, and the
machine runs through the code to the same stack with that value on top.  The memory is then the one
that the evaluation leads to, and differs from the memory before at most in what is shared: the
variables and the current object of the subroutine are as before.  Of the rest only the address of
segment `that` may change, since calls alone touch the scratch memory. -/
theorem value_of_check (h : e.check ⟨kind, options⟩ = .ok ()) (className source : String)
    (calls : Calls) (program : List Instruction) (s : MachineState)
    (hcode : OccursAt program s.pc (e.listing ⟨className, options, source⟩)) :
    ∃ w globals, e.eval calls ⟨className, options, source⟩ s.memory =
        some (w, s.memory.sharing globals) ∧
      ∃ that temp, Steps calls program s
          ⟨⟨s.pc + (e.listing ⟨className, options, source⟩).length, w :: s.stack,
            s.memory.sharing globals⟩, that, temp⟩ ∧
        (calls.KeepScratch → temp = s.temp) := by
  obtain ⟨w, globals, heval⟩ : ∃ w globals, e.eval calls ⟨className, options, source⟩ s.memory =
      some (w, s.memory.sharing globals) := e.exists_eval_of_check h s.memory
  refine ⟨w, globals, heval, ?_⟩
  -- The code runs on its own first: in a program that is nothing but the code.
  obtain ⟨that, temp, hsteps⟩ := e.performs heval 0 (List.prefix_refl _) s.that s.temp
  obtain ⟨hmoved, htemp⟩ := hsteps.moved
    (fun i hi => (e.ofExpression_of_mem_listing _ i hi).isStraight) hcode
  refine ⟨that, temp, ?_, htemp⟩
  simpa [MachineState.moved] using hmoved

end Value

namespace Countdown

/-- The expression `n + a[n] * step(n) % 4`. -/
def mixed : Expr :=
  expr (.var n) [(.add, .element a (expr (.var n) [])),
    (.mul, .call ⟨none, ⟨"step", .empty 0⟩, [expr (.var n) []], .empty 0⟩),
    (.mod, .integer 4 (.empty 0))]

/-- Calls that multiply, take remainders, and otherwise give three and clear the heap. -/
def arithmetic : Calls where
  meaning
    | "Math.multiply", [x, y], globals => (x * y, globals)
    | "Math.modulo", [x, y], globals => (x % y, globals)
    | _, _, globals => (3, { globals with heap := fun _ => 0 })
  scratch := fun _ _ _ temp => temp

end Countdown

/-- With one in `n` and five in `a[n]` the value is `((1 + 5) * 3) % 4`. -/
theorem value_of_check_mixed :
    ∃ globals that temp, Steps Countdown.arithmetic
      (Countdown.mixed.listing ⟨"Main", ⟨none, none, some "Math.modulo"⟩, ""⟩)
      ⟨⟨0, [7], Countdown.memory.store 101 5⟩, 0, fun _ => 0⟩
      ⟨⟨13, [2, 7], Countdown.memory.sharing globals⟩, that, temp⟩ ∧ temp = fun _ => 0 := by
  have hcheck : Countdown.mixed.check ⟨.method, ⟨none, none, some "Math.modulo"⟩⟩ = .ok () := rfl
  obtain ⟨w, globals, heval, that, temp, hsteps, htemp⟩ := value_of_check hcheck "Main" ""
    Countdown.arithmetic _ ⟨⟨0, [7], Countdown.memory.store 101 5⟩, 0, fun _ => 0⟩
    (List.prefix_refl _)
  obtain rfl : 2 = w := congrArg Prod.fst (Option.some.inj heval)
  exact ⟨globals, that, temp, hsteps, htemp fun _ _ _ _ => rfl⟩

end Jack

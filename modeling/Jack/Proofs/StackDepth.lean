import Jack.Proofs.Routine
import Jack.Proofs.Site

/-!
# The depth of the stack

The code of a class never takes a word that is not there, on no path, whatever the calls return.
That needs one depth of the stack for each position, on which all ways to the position agree.  Here
this depth is computed along the code, from the first instruction to the last: a jump and a return,
behind which control does not fall through, start it again at zero.

* `StackSafe` : a piece of code finds enough words at each instruction, and starts and ends at given
  depths;
* `Expr.stackSafe` : the code of an expression leaves one word more;
* `statementsStackSafe` : the code of statements starts and ends with the empty stack;
* `depths_of_lower` : the depths along the code of a class agree on all of its edges.
-/

namespace Jack

/-! ### One instruction -/

namespace Instruction

/-- The number of words that an instruction takes from the stack. -/
def takes : Instruction → Nat
  | pop .. | ifGoto _ | ret => 1
  | op o => if o.isUnary then 1 else 2
  | call _ n => n
  | push .. | label _ | goto _ | function .. | comment _ => 0

/-- The number of words that an instruction puts on the stack. -/
def gives : Instruction → Nat
  | push .. | op _ | call .. => 1
  | pop .. | ifGoto _ | ret | label _ | goto _ | function .. | comment _ => 0

/-- Control falls through the instruction to the next one, at least on one of its ways. -/
def fallsThrough : Instruction → Bool
  | goto _ | ret => false
  | _ => true

/-- The depth behind an instruction that starts at a depth. -/
def depthAfter (depth : Nat) (i : Instruction) : Nat :=
  if i.fallsThrough then depth - i.takes + i.gives else 0

/-- The depth at which an instruction has to start, if that is fixed: the stack is empty where
control meets, and holds the returned value or the condition. -/
def depth? : Instruction → Option Nat
  | label _ | goto _ | function .. => some 0
  | ifGoto _ | ret => some 1
  | push .. | pop .. | op _ | call .. | comment _ => none

/-- The instruction may start at the depth. -/
def Fits (depth : Nat) (i : Instruction) : Prop := i.takes ≤ depth ∧ ∀ d ∈ i.depth?, depth = d

/-- Where the effect of an instruction does not depend on a subroutine, it is what the instruction
gives less what it takes. -/
theorem stackEffect_eq {i : Instruction} {effect : Int} (h : i.stackEffect = some effect) :
    effect = i.gives - i.takes := by
  cases i with
  | op o => cases hu : o.isUnary <;> simp_all [stackEffect, gives, takes]
  | _ => simp_all [stackEffect, gives, takes]

end Instruction

/-! ### A piece of code -/

/-- Code that starts at depth `d` and ends at depth `d'`, with each instruction at a depth at which
it may start. -/
def StackSafe : Nat → List Instruction → Nat → Prop
  | d, [], d' => d = d'
  | d, i :: l, d' => i.Fits d ∧ StackSafe (i.depthAfter d) l d'

namespace StackSafe

variable {d d' d'' : Nat} {i : Instruction} {l l' : List Instruction}

theorem nil : StackSafe d [] d := rfl

theorem append (h : StackSafe d l d') (h' : StackSafe d' l' d'') : StackSafe d (l ++ l') d'' := by
  induction l generalizing d with
  | nil =>
    obtain rfl : d = d' := h
    exact h'
  | cons i l ih => exact ⟨h.1, ih h.2⟩

theorem cons (h : StackSafe d [i] d') (h' : StackSafe d' l d'') : StackSafe d (i :: l) d'' :=
  append (l := [i]) h h'

theorem single (h : i.Fits d) (hd : i.depthAfter d = d') : StackSafe d [i] d' := ⟨h, hd⟩

theorem push (segment : Segment) (index : Nat) : StackSafe d [.push segment index] (d + 1) :=
  single ⟨Nat.zero_le _, nofun⟩ rfl

theorem pop (segment : Segment) (index : Nat) : StackSafe (d + 1) [.pop segment index] d :=
  single ⟨Nat.le_add_left _ _, nofun⟩ rfl

theorem unary {o : StackOp} (ho : o.isUnary = true) : StackSafe (d + 1) [.op o] (d + 1) :=
  single ⟨by simp [Instruction.takes, ho], nofun⟩
    (by simp [Instruction.depthAfter, Instruction.fallsThrough, Instruction.takes,
      Instruction.gives, ho])

theorem binary {o : StackOp} (ho : o.isUnary = false) : StackSafe (d + 2) [.op o] (d + 1) :=
  single ⟨by simp [Instruction.takes, ho], nofun⟩
    (by simp [Instruction.depthAfter, Instruction.fallsThrough, Instruction.takes,
      Instruction.gives, ho])

theorem call (name : String) (n : Nat) : StackSafe (d + n) [.call name n] (d + 1) :=
  single ⟨Nat.le_add_left _ _, nofun⟩ (congrArg (· + 1) (Nat.add_sub_cancel _ _))

theorem comment (words : String) : StackSafe d [.comment words] d :=
  single ⟨Nat.zero_le _, nofun⟩ rfl

theorem label (name : String) : StackSafe 0 [.label name] 0 :=
  single ⟨le_rfl, fun _ => Option.some_inj.1⟩ rfl

theorem goto (name : String) : StackSafe 0 [.goto name] 0 :=
  single ⟨le_rfl, fun _ => Option.some_inj.1⟩ rfl

theorem function (name : String) (locals : Nat) : StackSafe 0 [.function name locals] 0 :=
  single ⟨le_rfl, fun _ => Option.some_inj.1⟩ rfl

theorem ifGoto (name : String) : StackSafe 1 [.ifGoto name] 0 :=
  single ⟨le_rfl, fun _ => Option.some_inj.1⟩ rfl

theorem ret : StackSafe 1 [.ret] 0 := single ⟨le_rfl, fun _ => Option.some_inj.1⟩ rfl

end StackSafe

/-! ### Expressions -/

section Expressions

variable (ctx : CodeContext)

theorem stackSafe_binaryOp (o : BinaryOp) (d : Nat) :
    StackSafe (d + 2) [o.instruction ctx.options] (d + 1) := by
  cases o with
  | mul | div | mod => exact .call _ 2
  | add | sub | and | or | lt | gt | eq => exact .binary rfl

theorem stackSafe_keyword (k : KeywordConstant) (d : Nat) :
    StackSafe d (k.instructions ctx.options) (d + 1) := by
  cases k with
  | «true» =>
    rw [KeywordConstant.instructions]
    split <;> exact .cons (.push _ _) (.unary rfl)
  | «false» | null | this => exact .push _ _

theorem stackSafe_string (value : String) (d : Nat) :
    StackSafe d (stringListing value) (d + 1) := by
  have hchars (cs : List Char) : StackSafe (d + 1) (cs.flatMap appendCharacter) (d + 1) := by
    induction cs with
    | nil => exact .nil
    | cons c cs ih => exact .cons (.push _ _) (.cons (.call _ 2) ih)
  exact .cons (.push _ _) (.cons (.call _ 1) (hchars value.toList))

theorem stackSafe_receiver (c : Call) (d : Nat) :
    StackSafe d c.receiverInstructions (d + c.receiverInstructions.length) := by
  rw [Call.receiverInstructions]
  split
  · exact .push _ _
  · split
    · exact .push _ _
    · exact .nil
    · exact .nil

mutual

/-- The code of an expression leaves one word more on the stack. -/
theorem Expr.stackSafe : ∀ (e : Expr) (d : Nat), StackSafe d (e.listing ctx) (d + 1)
  | ⟨head, tail, span⟩, d => by
    rw [Expr.listing_mk]
    exact (head.stackSafe d).append (stackSafe_tailListing tail d)

theorem stackSafe_tailListing : ∀ (tail : List (BinaryOp × Term)) (d : Nat),
    StackSafe (d + 1) (tailListing ctx tail) (d + 1)
  | [], _ => .nil
  | (op, t) :: tail, d => by
    rw [tailListing_cons]
    exact (t.stackSafe (d + 1)).append
      (.cons (stackSafe_binaryOp ctx op d) (stackSafe_tailListing tail d))

theorem Term.stackSafe : ∀ (t : Term) (d : Nat), StackSafe d (t.listing ctx) (d + 1)
  | .integer value span, d => Term.listing_integer ctx value span ▸ .push _ _
  | .string value span, d => Term.listing_string ctx value span ▸ stackSafe_string value d
  | .keyword value span, d => Term.listing_keyword ctx value span ▸ stackSafe_keyword ctx value d
  | .var name, d => Term.listing_var ctx name ▸ .push _ _
  | .element array index, d => by
    rw [Term.listing_element]
    exact .cons (.push _ _) ((index.stackSafe (d + 1)).append
      (.cons (.binary rfl) (.cons (.pop _ _) (.push _ _))))
  | .call call, d => Term.listing_call ctx call ▸ call.stackSafe d
  | .group inner span, d => Term.listing_group ctx inner span ▸ inner.stackSafe d
  | .unary op operand span, d => by
    rw [Term.listing_unary]
    exact (operand.stackSafe d).append (.unary (by cases op <;> rfl))

theorem Call.stackSafe : ∀ (c : Call) (d : Nat), StackSafe d (c.listing ctx) (d + 1)
  | ⟨receiver, name, arguments, span⟩, d => by
    rw [Call.listing_eq]
    refine (stackSafe_receiver _ d).append ((stackSafe_argumentsListing arguments _).append ?_)
    rw [Nat.add_assoc, Nat.add_comm _ arguments.length]
    exact .call _ _

theorem stackSafe_argumentsListing : ∀ (es : List Expr) (d : Nat),
    StackSafe d (argumentsListing ctx es) (d + es.length)
  | [], _ => .nil
  | e :: es, d => by
    rw [argumentsListing_cons, List.length_cons, Nat.add_comm es.length, ← Nat.add_assoc]
    exact (e.stackSafe d).append (stackSafe_argumentsListing es (d + 1))

end

end Expressions

/-! ### Statements -/

section Statements

variable (ctx : CodeContext)

theorem Statement.stackSafe_comment (s : Statement) : StackSafe 0 (s.comment ctx) 0 := by
  rw [Statement.comment]
  split
  · exact .comment _
  · exact .nil

theorem stackSafe_assignListing (target : NameUse) (index : Option Expr) (value : Expr) :
    StackSafe 0 (assignListing ctx target index value) 0 := by
  cases index with
  | none => exact (value.stackSafe ctx 0).append (.pop _ _)
  | some index =>
    -- The address waits under the value until the value is put aside.
    refine .cons (.push _ _) ((index.stackSafe ctx 1).append (.cons (.binary rfl) ?_))
    exact (value.stackSafe ctx 1).append
      (.cons (.pop _ _) (.cons (.pop _ _) (.cons (.push _ _) (.pop _ _))))

theorem stackSafe_returnListing (value : Option Expr) :
    StackSafe 0 (returnListing ctx value) 0 := by
  cases value with
  | none => exact .cons (.push _ _) .ret
  | some value => exact (value.stackSafe ctx 0).append .ret

/-- A condition and the jump on its negation. -/
theorem stackSafe_condition (condition : Expr) (name : String) {l : List Instruction}
    (h : StackSafe 0 l 0) :
    StackSafe 0 (condition.listing ctx ++ .op .not :: .ifGoto name :: l) 0 :=
  (condition.stackSafe ctx 0).append (.cons (.unary rfl) (.cons (.ifGoto _) h))

mutual

theorem Statement.stackSafe : ∀ (s : Statement) (labels : LabelSupply),
    StackSafe 0 (s.listing ctx labels) 0
  | .assign target index value span, labels =>
    Statement.listing_assign ctx labels target index value span ▸
      stackSafe_assignListing ctx target index value
  | .ifThen condition body span, labels => by
    rw [Statement.listing_ifThen]
    exact stackSafe_condition ctx condition _
      ((stackSafe_statementsListing body _).append (.label _))
  | .ifElse condition thenBody elseBody span, labels => by
    rw [Statement.listing_ifElse]
    exact stackSafe_condition ctx condition _ ((stackSafe_statementsListing thenBody _).append
      (.cons (.goto _) (.cons (.label _)
        ((stackSafe_statementsListing elseBody _).append (.label _)))))
  | .whileLoop condition body span, labels => by
    rw [Statement.listing_whileLoop]
    exact .cons (.label _) (stackSafe_condition ctx condition _
      ((stackSafe_statementsListing body _).append (.cons (.goto _) (.label _))))
  | .doCall call span, labels => by
    rw [Statement.listing_doCall]
    exact (call.stackSafe ctx 0).append (.pop _ _)
  | .ret value span, labels =>
    Statement.listing_ret ctx labels value span ▸ stackSafe_returnListing ctx value

/-- The code of statements starts and ends with the empty stack. -/
theorem stackSafe_statementsListing : ∀ (ss : List Statement) (labels : LabelSupply),
    StackSafe 0 (statementsListing ctx labels ss) 0
  | [], labels => statementsListing_nil ctx labels ▸ .nil
  | s :: ss, labels => by
    rw [statementsListing_cons]
    exact (s.stackSafe_comment ctx).append
      ((s.stackSafe labels).append (stackSafe_statementsListing ss _))

end

theorem SubroutineDec.stackSafe_header (fields : Nat) (s : SubroutineDec) :
    StackSafe 0 (s.header ctx.className fields) 0 := by
  refine .cons (.function _ _) ?_
  cases s.kind with
  | constructor => exact .cons (.push _ _) (.cons (.call _ 1) (.pop _ _))
  | function => exact .nil
  | method => exact .cons (.push _ _) (.pop _ _)

theorem stackSafe_subroutinesListing (fields : Nat) (subs : List SubroutineDec)
    (labels : LabelSupply) : StackSafe 0 (subroutinesListing ctx fields labels subs) 0 := by
  induction subs generalizing labels with
  | nil => exact .nil
  | cons s ss ih =>
    exact (s.stackSafe_header ctx fields).append
      ((stackSafe_statementsListing ctx s.statements labels).append (ih _))

end Statements

/-! ### The depth at a position -/

/-- The depth of the stack in front of position `k`, computed along the code. -/
def depthAt (program : List Instruction) (k : Nat) : Nat :=
  (program.take k).foldl Instruction.depthAfter 0

section DepthAt

variable {program l : List Instruction} {k start d : Nat} {i : Instruction}

theorem depthAt_succ (h : program[k]? = some i) :
    depthAt program (k + 1) = i.depthAfter (depthAt program k) := by
  simp [depthAt, List.take_add_one, h]

/-- Every instruction of safe code starts at a depth at which it may start. -/
theorem StackSafe.fits_of_getElem? {d' : Nat} (h : StackSafe d l d') (hi : l[k]? = some i) :
    i.Fits ((l.take k).foldl Instruction.depthAfter d) := by
  induction l generalizing d k with
  | nil => simp at hi
  | cons j l ih =>
    cases k with
    | zero =>
      obtain rfl : j = i := by simpa using hi
      exact h.1
    | succ k => exact ih h.2 (by simpa using hi)

/-- The depth behind a piece of a program. -/
theorem StackSafe.depthAt_eq {d' : Nat} (h : StackSafe d l d') (hd : depthAt program start = d)
    (hocc : OccursAt program start l) : depthAt program (start + l.length) = d' := by
  induction l generalizing start d with
  | nil => exact hd.trans h
  | cons j l ih =>
    have hhead := depthAt_succ hocc.head
    have hstop := ih h.2 (hd ▸ hhead) hocc.tail
    rwa [Nat.add_assoc, Nat.add_comm 1] at hstop

end DepthAt

/-! ### Sites begin with the empty stack -/

section Sites

variable {ctx : CodeContext} {program : List Instruction}

theorem depthAt_of_mem_blocks {labels : LabelSupply} {start : Nat} {s : Statement}
    (hocc : OccursAt program start (s.listing ctx labels)) (h : depthAt program start = 0) :
    ∀ b ∈ s.blocks ctx labels start, depthAt program b.start = 0 := by
  -- What stands in front of a block is safe code of its own and ends with the empty stack.
  have hbehind {l l' : List Instruction} (hsafe : StackSafe 0 l 0)
      (hl : OccursAt program start (l ++ l')) : depthAt program (start + l.length) = 0 :=
    hsafe.depthAt_eq h hl.left
  cases s with
  | assign | doCall | ret => simp [Statement.blocks]
  | ifThen condition body span =>
    rw [Statement.listing_ifThen] at hocc
    have hbody := hbehind (stackSafe_condition ctx condition _ .nil) (by simpa using hocc)
    exact List.forall_mem_singleton.2 (by simpa [Nat.add_assoc] using hbody)
  | ifElse condition thenBody elseBody span =>
    rw [Statement.listing_ifElse] at hocc
    have hthen := hbehind (stackSafe_condition ctx condition _ .nil) (by simpa using hocc)
    have helse := hbehind
      (stackSafe_condition ctx condition _ ((stackSafe_statementsListing ctx thenBody _).append
        (.cons (.goto _) (.label _)))) (by simpa using hocc)
    refine List.forall_mem_cons.2 ⟨?_, List.forall_mem_singleton.2 ?_⟩
    · simpa [Nat.add_assoc] using hthen
    · refine Eq.trans (congrArg _ ?_) helse
      simp only [List.length_append, List.length_cons, List.length_nil]
      omega
  | whileLoop condition body span =>
    rw [Statement.listing_whileLoop] at hocc
    have hbody := hbehind (.cons (.label _) (stackSafe_condition ctx condition _ .nil))
      (by simpa using hocc)
    refine List.forall_mem_singleton.2 (Eq.trans (congrArg _ ?_) hbody)
    simp only [List.length_append, List.length_cons, List.length_nil]
    omega

/-- The stack is empty behind the first statement of a site. -/
theorem depthAt_headStop {b : Site} (hocc : OccursAt program b.start (b.listing ctx))
    (h : depthAt program b.start = 0) : depthAt program (b.headStop ctx) = 0 := by
  obtain ⟨ss, labels, start⟩ := b
  cases ss with
  | nil => exact h
  | cons s ss =>
    have hsafe := (s.stackSafe_comment ctx).append (s.stackSafe ctx labels)
    rw [Site.listing, statementsListing_cons, ← List.append_assoc] at hocc
    have hstop := hsafe.depthAt_eq h hocc.left
    rwa [List.length_append, ← Nat.add_assoc] at hstop

theorem depthAt_of_mem_children (b : Site)
    (h : OccursAt program b.start (b.listing ctx) ∧ depthAt program b.start = 0) :
    ∀ c ∈ b.children ctx, OccursAt program c.start (c.listing ctx) ∧
      depthAt program c.start = 0 := by
  intro c hc
  refine ⟨occurs_of_mem_children b h.1 c hc, ?_⟩
  have hstop := depthAt_headStop h.1 h.2
  obtain ⟨hocc, h⟩ := h
  obtain ⟨ss, labels, start⟩ := b
  cases ss with
  | nil => simp [Site.children] at hc
  | cons s ss =>
    rw [Site.listing, statementsListing_cons] at hocc
    simp only [Site.children, List.mem_append, List.mem_singleton] at hc
    rcases hc with hc | rfl
    · exact depthAt_of_mem_blocks hocc.right.left
        ((s.stackSafe_comment ctx).depthAt_eq h hocc.left) c hc
    · exact hstop

theorem depthAt_of_mem_subroutinesSites {fields : Nat} :
    ∀ (subs : List SubroutineDec) (labels : LabelSupply) (start : Nat),
      OccursAt program start (subroutinesListing ctx fields labels subs) →
        depthAt program start = 0 →
          ∀ b ∈ subroutinesSites ctx fields labels start subs,
            OccursAt program b.start (b.listing ctx) ∧ depthAt program b.start = 0
  | [], _, _, _, _ => by simp [subroutinesSites]
  | s :: ss, labels, start, hocc, h => by
    rw [subroutinesListing] at hocc
    rw [subroutinesSites]
    have hbody := (s.stackSafe_header ctx fields).depthAt_eq h hocc.left
    have hrest := (stackSafe_statementsListing ctx s.statements labels).depthAt_eq hbody
      hocc.right.left
    exact List.forall_mem_append.2
      ⟨statementsSites_induction depthAt_of_mem_children _ _ _ ⟨hocc.right.left, hbody⟩,
        depthAt_of_mem_subroutinesSites ss _ _ hocc.right.right hrest⟩

end Sites

/-! ### The depths of a unit -/

/-- One depth of the stack for each position in the code of a class, on which all ways to the
position agree. -/
structure StackDepths (tree : ClassDec) (scope : Scope) (source : String) (options : Options)
    (code : Code) (depth : Nat → Nat) : Prop where
  /-- A subroutine begins with the empty stack, and so does its first instruction after the header
  line; the subroutine before it has ended with the empty stack. -/
  function : ∀ (k : Nat) (name : String) (locals : Nat), code[k]? = some (.function name locals) →
    depth k = 0 ∧ depth (k + 1) = 0
  /-- The last subroutine ends with the empty stack. -/
  stop : depth code.size = 0
  /-- A statement begins and ends with the empty stack. -/
  statement : ∀ b ∈ tree.sites scope source options, depth b.start = 0 ∧
    depth (b.headStop ⟨tree.name.text, options, source⟩) = 0
  /-- The stack is empty at a label. -/
  label : ∀ (k : Nat) (name : String), code[k]? = some (.label name) → depth k = 0
  /-- A return finds the returned word and nothing else. -/
  ret : ∀ k, code[k]? = some .ret → depth k = 1
  /-- Where control falls through an instruction, the depth changes by the effect of it. -/
  fall : ∀ (k : Nat) (i : Instruction) (effect : Int), code[k]? = some i →
    i.fallsThrough = true → i.stackEffect = some effect → (depth (k + 1) : Int) = depth k + effect
  /-- A call takes its arguments and gives one word. -/
  call : ∀ (k : Nat) (name : String) (n : Nat), code[k]? = some (.call name n) →
    (depth (k + 1) : Int) = depth k + (1 - n)
  /-- The depth at a label is that at the jumps to it. -/
  goto : ∀ (k t : Nat) (name : String), code[k]? = some (.goto name) →
    code[t]? = some (.label name) → depth t = depth k
  /-- The depth at a label is that at the conditional jumps to it, without the condition. -/
  ifGoto : ∀ (k t : Nat) (name : String), code[k]? = some (.ifGoto name) →
    code[t]? = some (.label name) → (depth t : Int) = depth k - 1
  /-- No instruction takes a word that is not there. -/
  takes : ∀ (k : Nat) (i : Instruction), code[k]? = some i → i.takes ≤ depth k
  /-- A call finds its arguments among the words that its statement has pushed. -/
  arguments : ∀ b ∈ tree.sites scope source options, ∀ (k : Nat) (name : String) (n : Nat),
    b.Covers ⟨tree.name.text, options, source⟩ k → code[k]? = some (.call name n) →
      depth b.start + n ≤ depth k

/-- **The depths along the code of a class agree on all of its edges, and no instruction takes a
word that is not there.** -/
theorem depths_of_lower {tree : ClassDec} {scope : Scope} {source : String} {options : Options}
    {code : Code} (h : lower tree scope source options = .ok code) :
    ∃ depth : Nat → Nat, StackDepths tree scope source options code depth := by
  have hsafe : StackSafe 0 code.toList 0 := by
    rw [(lower_eq_ok_iff.1 h).2]
    exact stackSafe_subroutinesListing _ _ _ _
  -- Each instruction fits the depth in front of it; all conditions but one follow from that.
  have hfits {k : Nat} {i : Instruction} (hi : code[k]? = some i) :
      i.Fits (depthAt code.toList k) :=
    hsafe.fits_of_getElem? (Array.getElem?_toList ▸ hi)
  have hfixed {k d : Nat} {i : Instruction} (hi : code[k]? = some i) (hd : i.depth? = some d) :
      depthAt code.toList k = d := (hfits hi).2 d hd
  have hnext {k : Nat} {i : Instruction} (hi : code[k]? = some i)
      (hfall : i.fallsThrough = true) :
      depthAt code.toList (k + 1) = depthAt code.toList k - i.takes + i.gives := by
    rw [depthAt_succ (Array.getElem?_toList ▸ hi), Instruction.depthAfter, if_pos hfall]
  have hself : OccursAt code.toList 0 code.toList := List.prefix_refl _
  -- That sites begin with the empty stack does not follow, since a comment may stand there.
  have hsites {b : Site} (hb : b ∈ tree.sites scope source options) :
      depthAt code.toList b.start = 0 := by
    have hocc : OccursAt code.toList 0 (subroutinesListing ⟨tree.name.text, options, source⟩
        (scope.count .field) .new tree.subroutines) :=
      (lower_eq_ok_iff.1 h).2 ▸ hself
    exact (depthAt_of_mem_subroutinesSites _ _ _ hocc rfl b hb).2
  refine ⟨depthAt code.toList, ?_⟩
  constructor
  case function =>
    intro k name locals hk
    have h0 := hfixed hk rfl
    exact ⟨h0, by rw [hnext hk rfl, h0]; rfl⟩
  case stop => simpa using hsafe.depthAt_eq rfl hself
  case statement =>
    exact fun b hb => ⟨hsites hb, depthAt_headStop (occurs_of_mem_sites h hb) (hsites hb)⟩
  case label => exact fun k name hk => hfixed hk rfl
  case ret => exact fun k hk => hfixed hk rfl
  case fall =>
    intro k i effect hk hfall heffect
    have htakes := (hfits hk).1
    rw [hnext hk hfall, Instruction.stackEffect_eq heffect]
    omega
  case call =>
    intro k name n hk
    have htakes : n ≤ depthAt code.toList k := (hfits hk).1
    rw [hnext hk rfl]
    simp only [Instruction.takes, Instruction.gives]
    omega
  case goto =>
    intro k t name hk ht
    rw [hfixed ht rfl, hfixed hk rfl]
  case ifGoto =>
    intro k t name hk ht
    rw [hfixed ht rfl, hfixed hk rfl]
    rfl
  case takes => exact fun k i hk => (hfits hk).1
  case arguments =>
    intro b hb k name n _ hk
    have htakes : n ≤ depthAt code.toList k := (hfits hk).1
    rwa [hsites hb, Nat.zero_add]

theorem depths_of_lower_countdown :
    ∃ code, lower Countdown.tree .empty "" .none = .ok code ∧
      ∃ depth : Nat → Nat, StackDepths Countdown.tree .empty "" .none code depth :=
  ⟨_, rfl, depths_of_lower rfl⟩

end Jack

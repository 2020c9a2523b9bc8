import Jack.Code.Listing

/-!
# The names that a tree uses

`Expr.nameUses`, `Statement.nameUses` and the functions beside them list the names that stand for a
variable, an array or a receiver, in the order of the source.  The names in front of the
parentheses of a call are not among them.

The code of an expression consists of a few kinds of instructions (`OfExpression`), and it touches
no variable that the expression does not use (`Expr.ofExpression_of_mem_listing`).  The code of
statements adds a few more (`OfStatements`); it pops only into variables that a statement assigns
to (`ofStatements_of_mem_statementsListing`).
-/

namespace Jack

/-! ### Names in order -/

mutual

/-- The names used in an expression. -/
def Expr.nameUses : Expr → List NameUse
  | ⟨head, tail, _⟩ => head.nameUses ++ tailNameUses tail

/-- The names used in operators and their right-hand terms. -/
def tailNameUses : List (BinaryOp × Term) → List NameUse
  | [] => []
  | (_, t) :: tail => t.nameUses ++ tailNameUses tail

/-- The names used in a term. -/
def Term.nameUses : Term → List NameUse
  | .integer _ _ | .string _ _ | .keyword _ _ => []
  | .var name => [name]
  | .element array index => array :: index.nameUses
  | .call call => call.nameUses
  | .group inner _ => inner.nameUses
  | .unary _ operand _ => operand.nameUses

/-- The names used in a call. -/
def Call.nameUses : Call → List NameUse
  | ⟨receiver, _, arguments, _⟩ => receiver.toList ++ argumentsNameUses arguments

/-- The names used in arguments. -/
def argumentsNameUses : List Expr → List NameUse
  | [] => []
  | e :: es => e.nameUses ++ argumentsNameUses es

end

theorem tailNameUses_eq_flatMap (tail : List (BinaryOp × Term)) :
    tailNameUses tail = tail.flatMap (·.2.nameUses) := by
  induction tail with
  | nil => rfl
  | cons p tail ih => rw [tailNameUses, ih, List.flatMap_cons]

theorem argumentsNameUses_eq_flatMap (es : List Expr) :
    argumentsNameUses es = es.flatMap Expr.nameUses := by
  induction es with
  | nil => rfl
  | cons e es ih => rw [argumentsNameUses, ih, List.flatMap_cons]

/-- The names used in an expression, if there is one. -/
def optionNameUses : Option Expr → List NameUse
  | none => []
  | some e => e.nameUses

mutual

/-- The names used in a statement. -/
def Statement.nameUses : Statement → List NameUse
  | .assign target index value _ => target :: (optionNameUses index ++ value.nameUses)
  | .ifThen condition body _ | .whileLoop condition body _ =>
    condition.nameUses ++ statementsNameUses body
  | .ifElse condition thenBody elseBody _ =>
    condition.nameUses ++ (statementsNameUses thenBody ++ statementsNameUses elseBody)
  | .doCall call _ => call.nameUses
  | .ret value _ => optionNameUses value

/-- The names used in statements. -/
def statementsNameUses : List Statement → List NameUse
  | [] => []
  | s :: ss => s.nameUses ++ statementsNameUses ss

end

theorem statementsNameUses_eq_flatMap (ss : List Statement) :
    statementsNameUses ss = ss.flatMap Statement.nameUses := by
  induction ss with
  | nil => rfl
  | cons s ss ih => rw [statementsNameUses, ih, List.flatMap_cons]

mutual

/-- The names that a statement assigns to. -/
def Statement.targets : Statement → List NameUse
  | .assign target _ _ _ => [target]
  | .ifThen _ body _ | .whileLoop _ body _ => statementsTargets body
  | .ifElse _ thenBody elseBody _ => statementsTargets thenBody ++ statementsTargets elseBody
  | .doCall _ _ | .ret _ _ => []

/-- The names that statements assign to. -/
def statementsTargets : List Statement → List NameUse
  | [] => []
  | s :: ss => s.targets ++ statementsTargets ss

end

/-! ### The instructions of an expression -/

/-- The instructions that the code of an expression with the names `names` consists of. -/
inductive OfExpression (names : List NameUse) : Instruction → Prop where
  /-- Pushes a constant. -/
  | constant (n : Nat) : OfExpression names (.push .constant n)
  /-- Pushes one of the variables. -/
  | pushed {name : NameUse} (h : name ∈ names) : OfExpression names name.pushed
  /-- Pushes the current object. -/
  | object : OfExpression names (.push .pointer 0)
  /-- Sets the address of an element. -/
  | address : OfExpression names (.pop .pointer 1)
  /-- Pushes an element. -/
  | element : OfExpression names (.push .that 0)
  /-- Applies an operation. -/
  | op (o : StackOp) : OfExpression names (.op o)
  /-- Calls. -/
  | call (name : String) (n : Nat) : OfExpression names (.call name n)

namespace OfExpression

theorem mono {names names' : List NameUse} (hsub : names ⊆ names') {i : Instruction}
    (h : OfExpression names i) : OfExpression names' i := by
  cases h with
  | pushed h => exact .pushed (hsub h)
  | _ => constructor

theorem of_mem_string (names : List NameUse) (value : String) :
    ∀ i ∈ stringListing value, OfExpression names i := by
  intro i hi
  simp only [stringListing, appendCharacter, List.mem_append, List.mem_cons, List.not_mem_nil,
    or_false, List.mem_flatMap] at hi
  obtain (rfl | rfl) | ⟨c, -, rfl | rfl⟩ := hi <;> constructor

theorem of_mem_keyword (names : List NameUse) (options : Options) (k : KeywordConstant) :
    ∀ i ∈ k.instructions options, OfExpression names i := by
  intro i hi
  cases k with
  | «true» =>
    simp only [KeywordConstant.instructions] at hi
    split at hi <;> simp only [List.mem_cons, List.not_mem_nil, or_false] at hi <;>
      rcases hi with rfl | rfl <;> constructor
  | _ =>
    obtain rfl := List.mem_singleton.1 hi
    constructor

theorem instruction (names : List NameUse) (options : Options) (o : BinaryOp) :
    OfExpression names (o.instruction options) := by
  cases o <;> constructor

theorem of_mem_receiver {names : List NameUse} {c : Call} (h : c.receiver.toList ⊆ names) :
    ∀ i ∈ c.receiverInstructions, OfExpression names i := by
  intro i hi
  rw [Call.receiverInstructions] at hi
  -- The object is the current one, a variable, or nothing if the receiver is a class.
  split at hi
  · obtain rfl := List.mem_singleton.1 hi
    exact .object
  · next receiver hr =>
    split at hi
    · obtain rfl := List.mem_singleton.1 hi
      exact .pushed (h (by simp [hr]))
    · cases hi
    · cases hi

end OfExpression

section Listings

variable (ctx : CodeContext)

mutual

/-- The code of an expression touches no variable that the expression does not use. -/
theorem Expr.ofExpression_of_mem_listing :
    ∀ (e : Expr), ∀ i ∈ e.listing ctx, OfExpression e.nameUses i
  | ⟨head, tail, _⟩, i, hi => by
    rw [Expr.listing_mk, List.mem_append] at hi
    rcases hi with hi | hi
    · exact (head.ofExpression_of_mem_listing i hi).mono (by simp [Expr.nameUses])
    · exact (ofExpression_of_mem_tailListing tail i hi).mono (by simp [Expr.nameUses])

theorem ofExpression_of_mem_tailListing :
    ∀ (tail : List (BinaryOp × Term)), ∀ i ∈ tailListing ctx tail,
      OfExpression (tailNameUses tail) i
  | [], _, hi => by simp at hi
  | (op, t) :: tail, i, hi => by
    rw [tailListing_cons, List.mem_append, List.mem_cons] at hi
    rcases hi with hi | rfl | hi
    · exact (t.ofExpression_of_mem_listing i hi).mono (by simp [tailNameUses])
    · exact .instruction _ _ op
    · exact (ofExpression_of_mem_tailListing tail i hi).mono (by simp [tailNameUses])

theorem Term.ofExpression_of_mem_listing :
    ∀ (t : Term), ∀ i ∈ t.listing ctx, OfExpression t.nameUses i
  | .integer value _, i, hi => by
    obtain rfl := List.mem_singleton.1 (Term.listing_integer ctx value _ ▸ hi)
    exact .constant value
  | .string value _, i, hi => .of_mem_string _ value i (Term.listing_string ctx value _ ▸ hi)
  | .keyword value _, i, hi => .of_mem_keyword _ _ value i (Term.listing_keyword ctx value _ ▸ hi)
  | .var name, i, hi => by
    obtain rfl := List.mem_singleton.1 (Term.listing_var ctx name ▸ hi)
    exact .pushed (by simp [Term.nameUses])
  | .element array index, i, hi => by
    simp only [Term.listing_element, List.mem_cons, List.mem_append, List.not_mem_nil,
      or_false] at hi
    rcases hi with rfl | hi | rfl | rfl | rfl
    · exact .pushed (by simp [Term.nameUses])
    · exact (index.ofExpression_of_mem_listing i hi).mono (by simp [Term.nameUses])
    · exact .op _
    · exact .address
    · exact .element
  | .call call, i, hi => by
    rw [Term.listing_call] at hi
    simpa [Term.nameUses] using call.ofExpression_of_mem_listing i hi
  | .group inner _, i, hi => by
    rw [Term.listing_group] at hi
    simpa [Term.nameUses] using inner.ofExpression_of_mem_listing i hi
  | .unary op operand _, i, hi => by
    rw [Term.listing_unary, List.mem_append, List.mem_singleton] at hi
    rcases hi with hi | rfl
    · simpa [Term.nameUses] using operand.ofExpression_of_mem_listing i hi
    · exact .op _

theorem Call.ofExpression_of_mem_listing :
    ∀ (c : Call), ∀ i ∈ c.listing ctx, OfExpression c.nameUses i
  | ⟨receiver, name, arguments, span⟩, i, hi => by
    rw [Call.listing_eq, List.mem_append, List.mem_append, List.mem_singleton] at hi
    rcases hi with hi | hi | rfl
    · exact .of_mem_receiver (by simp [Call.nameUses]) i hi
    · exact (ofExpression_of_mem_argumentsListing arguments i hi).mono (by simp [Call.nameUses])
    · exact .call _ _

theorem ofExpression_of_mem_argumentsListing :
    ∀ (es : List Expr), ∀ i ∈ argumentsListing ctx es, OfExpression (argumentsNameUses es) i
  | [], _, hi => by simp at hi
  | e :: es, i, hi => by
    rw [argumentsListing_cons, List.mem_append] at hi
    rcases hi with hi | hi
    · exact (e.ofExpression_of_mem_listing i hi).mono (by simp [argumentsNameUses])
    · exact (ofExpression_of_mem_argumentsListing es i hi).mono (by simp [argumentsNameUses])

end

end Listings

/-! ### The instructions of statements -/

/-- The instructions that the code of statements consists of which use the names `names` and assign
to the names `targets`. -/
inductive OfStatements (names targets : List NameUse) : Instruction → Prop where
  /-- Belongs to an expression. -/
  | expression {i : Instruction} (h : OfExpression names i) : OfStatements names targets i
  /-- Pops into a variable that is assigned to. -/
  | popped {name : NameUse} (h : name ∈ targets) : OfStatements names targets name.popped
  /-- Drops a value, or puts it aside. -/
  | putAside : OfStatements names targets (.pop .temp 0)
  /-- Takes back a value that was put aside. -/
  | takeBack : OfStatements names targets (.push .temp 0)
  /-- Pops into an element. -/
  | store : OfStatements names targets (.pop .that 0)
  /-- Marks a place. -/
  | label (name : String) : OfStatements names targets (.label name)
  /-- Jumps. -/
  | goto (name : String) : OfStatements names targets (.goto name)
  /-- Jumps on a condition. -/
  | ifGoto (name : String) : OfStatements names targets (.ifGoto name)
  /-- Returns. -/
  | ret : OfStatements names targets .ret
  /-- Shows a statement. -/
  | comment (words : String) : OfStatements names targets (.comment words)

theorem OfStatements.mono {names names' targets targets' : List NameUse} (hnames : names ⊆ names')
    (htargets : targets ⊆ targets') {i : Instruction} (h : OfStatements names targets i) :
    OfStatements names' targets' i := by
  cases h with
  | expression h => exact .expression (h.mono hnames)
  | popped h => exact .popped (htargets h)
  | putAside => exact .putAside
  | takeBack => exact .takeBack
  | store => exact .store
  | label name => exact .label name
  | goto name => exact .goto name
  | ifGoto name => exact .ifGoto name
  | ret => exact .ret
  | comment words => exact .comment words

section StatementListings

variable (ctx : CodeContext)

theorem ofStatements_of_mem_assignListing {target : NameUse} {index : Option Expr} {value : Expr} :
    ∀ i ∈ assignListing ctx target index value,
      OfStatements (target :: (optionNameUses index ++ value.nameUses)) [target] i := by
  intro i hi
  have hvalue (hi : i ∈ value.listing ctx) :
      OfStatements (target :: (optionNameUses index ++ value.nameUses)) [target] i :=
    .expression ((value.ofExpression_of_mem_listing ctx i hi).mono (by simp))
  cases index with
  | none =>
    rw [assignListing, List.mem_append, List.mem_singleton] at hi
    rcases hi with hi | rfl
    · exact hvalue hi
    · exact .popped (List.mem_singleton_self _)
  | some index =>
    simp only [assignListing, List.mem_append, List.mem_cons, List.not_mem_nil, or_false] at hi
    rcases hi with rfl | hi | rfl | hi | rfl | rfl | rfl | rfl
    · exact .expression (.pushed (by simp))
    · exact .expression
        ((index.ofExpression_of_mem_listing ctx i hi).mono (by simp [optionNameUses]))
    · exact .expression (.op _)
    · exact hvalue hi
    · exact .putAside
    · exact .expression .address
    · exact .takeBack
    · exact .store

theorem ofStatements_of_mem_returnListing {value : Option Expr} :
    ∀ i ∈ returnListing ctx value, OfStatements (optionNameUses value) [] i := by
  intro i hi
  cases value with
  | none =>
    simp only [returnListing, List.mem_cons, List.not_mem_nil, or_false] at hi
    rcases hi with rfl | rfl
    · exact .expression (.constant 0)
    · exact .ret
  | some value =>
    rw [returnListing, List.mem_append, List.mem_singleton] at hi
    rcases hi with hi | rfl
    · exact .expression (value.ofExpression_of_mem_listing ctx i hi)
    · exact .ret

theorem ofStatements_of_mem_comment (names targets : List NameUse) (s : Statement) :
    ∀ i ∈ s.comment ctx, OfStatements names targets i := by
  intro i hi
  rw [Statement.comment] at hi
  split at hi
  · obtain rfl := List.mem_singleton.1 hi
    exact .comment _
  · cases hi

mutual

theorem Statement.ofStatements_of_mem_listing :
    ∀ (s : Statement) (labels : LabelSupply), ∀ i ∈ s.listing ctx labels,
      OfStatements s.nameUses s.targets i
  | .assign target index value _, labels, i, hi => by
    rw [Statement.listing_assign] at hi
    exact ofStatements_of_mem_assignListing ctx i hi
  | .ifThen condition body _, labels, i, hi => by
    simp only [Statement.listing_ifThen, List.mem_append, List.mem_cons, List.not_mem_nil,
      or_false] at hi
    rcases hi with hi | rfl | rfl | hi | rfl
    · exact .expression ((condition.ofExpression_of_mem_listing ctx i hi).mono
        (by simp [Statement.nameUses]))
    · exact .expression (.op _)
    · exact .ifGoto _
    · exact (ofStatements_of_mem_statementsListing body _ i hi).mono
        (by simp [Statement.nameUses]) (by simp [Statement.targets])
    · exact .label _
  | .ifElse condition thenBody elseBody _, labels, i, hi => by
    simp only [Statement.listing_ifElse, List.mem_append, List.mem_cons, List.not_mem_nil,
      or_false] at hi
    rcases hi with hi | rfl | rfl | hi | rfl | rfl | hi | rfl
    · exact .expression ((condition.ofExpression_of_mem_listing ctx i hi).mono
        (by simp [Statement.nameUses]))
    · exact .expression (.op _)
    · exact .ifGoto _
    · exact (ofStatements_of_mem_statementsListing thenBody _ i hi).mono
        (fun n hn => by simp [Statement.nameUses, hn]) (by simp [Statement.targets])
    · exact .goto _
    · exact .label _
    · exact (ofStatements_of_mem_statementsListing elseBody _ i hi).mono
        (fun n hn => by simp [Statement.nameUses, hn]) (by simp [Statement.targets])
    · exact .label _
  | .whileLoop condition body _, labels, i, hi => by
    simp only [Statement.listing_whileLoop, List.mem_append, List.mem_cons, List.not_mem_nil,
      or_false] at hi
    rcases hi with rfl | hi | rfl | rfl | hi | rfl | rfl
    · exact .label _
    · exact .expression ((condition.ofExpression_of_mem_listing ctx i hi).mono
        (by simp [Statement.nameUses]))
    · exact .expression (.op _)
    · exact .ifGoto _
    · exact (ofStatements_of_mem_statementsListing body _ i hi).mono
        (by simp [Statement.nameUses]) (by simp [Statement.targets])
    · exact .goto _
    · exact .label _
  | .doCall call _, labels, i, hi => by
    rw [Statement.listing_doCall, List.mem_append, List.mem_singleton] at hi
    rcases hi with hi | rfl
    · exact .expression ((call.ofExpression_of_mem_listing ctx i hi).mono
        (by simp [Statement.nameUses]))
    · exact .putAside
  | .ret value _, labels, i, hi => by
    rw [Statement.listing_ret] at hi
    exact (ofStatements_of_mem_returnListing ctx i hi).mono
      (by simp [Statement.nameUses]) (by simp)

/-- The code of statements pops only into variables that a statement assigns to. -/
theorem ofStatements_of_mem_statementsListing :
    ∀ (ss : List Statement) (labels : LabelSupply), ∀ i ∈ statementsListing ctx labels ss,
      OfStatements (statementsNameUses ss) (statementsTargets ss) i
  | [], _, _, hi => by simp at hi
  | s :: ss, labels, i, hi => by
    rw [statementsListing_cons, List.mem_append, List.mem_append] at hi
    rcases hi with hi | hi | hi
    · exact ofStatements_of_mem_comment ctx _ _ s i hi
    · exact (s.ofStatements_of_mem_listing labels i hi).mono
        (by simp [statementsNameUses]) (by simp [statementsTargets])
    · exact (ofStatements_of_mem_statementsListing ss _ i hi).mono
        (by simp [statementsNameUses]) (by simp [statementsTargets])

end

end StatementListings

end Jack

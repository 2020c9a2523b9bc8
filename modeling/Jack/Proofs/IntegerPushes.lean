import Jack.Code.Listing
import Jack.Proofs.Terminals

/-!
# Integer constants in code

The code of a tree pushes the integer constants of the tree one after the other, in the order in
which they are written.  Other instructions come in between, some of which push constants too, so
`PushesInOrder` speaks of a part of the code.

* `Expr.pushes_listing`, `pushes_statementsListing` : the code of expressions and of statements
  pushes their integer constants in order;
* `pushes_subroutinesListing` : **so does the code of a class.**
-/

namespace Jack

/-- The value of a terminal that is an integer constant. -/
def Terminal.integer? : Terminal → Option Nat
  | integer value => some value
  | keyword _ | identifier _ | symbol _ | string _ => none

/-- The values of the integer constants among terminals, in order. -/
def integersIn (ws : List Terminal) : List Nat := ws.filterMap Terminal.integer?

/-- Some of the instructions push these constants one after the other. -/
def PushesInOrder (values : List Nat) (code : List Instruction) : Prop :=
  (values.map (Instruction.push .constant)).Sublist code

/-! ### Integer constants among terminals -/

section Terminals

variable (ws ws' : List Terminal)

@[simp] theorem integersIn_nil : integersIn [] = [] := rfl

@[simp] theorem integersIn_integer (value : Nat) :
    integersIn (.integer value :: ws) = value :: integersIn ws := rfl

@[simp] theorem integersIn_string (content : String) :
    integersIn (.string content :: ws) = integersIn ws := rfl

@[simp] theorem integersIn_keyword (k : Keyword) :
    integersIn (.keyword k :: ws) = integersIn ws := rfl

@[simp] theorem integersIn_identifier (name : String) :
    integersIn (.identifier name :: ws) = integersIn ws := rfl

@[simp] theorem integersIn_symbol (c : Char) : integersIn (.symbol c :: ws) = integersIn ws := rfl

@[simp] theorem integersIn_append :
    integersIn (ws ++ ws') = integersIn ws ++ integersIn ws' := List.filterMap_append

@[simp] theorem integersIn_withCommas (pieces : List (List Terminal)) :
    integersIn (withCommas pieces) = pieces.flatMap integersIn := by
  cases pieces with
  | nil => rfl
  | cons piece pieces =>
    rw [withCommas, integersIn_append, List.flatMap_cons, integersIn, integersIn,
      List.filterMap_flatMap]
    rfl

@[simp] theorem integersIn_type (type : TypeName) :
    integersIn (type.terminal :: ws) = integersIn ws := by
  cases type <;> rfl

@[simp] theorem integersIn_returnType (type : ReturnType) :
    integersIn (type.terminal :: ws) = integersIn ws := by
  cases type with
  | void => rfl
  | value type => exact integersIn_type ws type

@[simp] theorem integersIn_callee (receiver : Option NameUse) (name : Ident) :
    integersIn (calleeTerminals receiver name) = [] := by
  cases receiver <;> rfl

@[simp] theorem integersIn_names (names : List Ident) : integersIn (namesTerminals names) = [] := by
  simp [namesTerminals]

end Terminals

/-! ### Constants pushed in order -/

namespace PushesInOrder

variable {values values' : List Nat} {code code' : List Instruction}

theorem nil (code : List Instruction) : PushesInOrder [] code := List.nil_sublist code

theorem append (h : PushesInOrder values code) (h' : PushesInOrder values' code') :
    PushesInOrder (values ++ values') (code ++ code') := by
  rw [PushesInOrder, List.map_append]
  exact List.Sublist.append h h'

/-- More instructions in front. -/
theorem cons (i : Instruction) (h : PushesInOrder values code) : PushesInOrder values (i :: code) :=
  List.Sublist.cons i h

/-- More instructions behind. -/
theorem append_right (h : PushesInOrder values code) (code' : List Instruction) :
    PushesInOrder values (code ++ code') :=
  h.trans (List.sublist_append_left code code')

/-- More instructions in front. -/
theorem append_left (h : PushesInOrder values code) (code' : List Instruction) :
    PushesInOrder values (code' ++ code) :=
  h.trans (List.sublist_append_right code' code)

end PushesInOrder

/-! ### Expressions -/

section Expressions

variable (ctx : CodeContext)

mutual

/-- The code of an expression pushes its integer constants in order. -/
theorem Expr.pushes_listing : ∀ e : Expr, PushesInOrder (integersIn e.terminals) (e.listing ctx)
  | ⟨head, tail, _⟩ => by
    rw [Expr.terminals, Expr.listing_mk, integersIn_append]
    exact head.pushes_listing.append (pushes_tailListing tail)

theorem pushes_tailListing : ∀ tail : List (BinaryOp × Term),
    PushesInOrder (integersIn (tailTerminals tail)) (tailListing ctx tail)
  | [] => .nil []
  | (op, t) :: tail => by
    rw [tailTerminals, tailListing_cons, integersIn_symbol, integersIn_append]
    exact t.pushes_listing.append ((pushes_tailListing tail).cons _)

theorem Term.pushes_listing : ∀ t : Term, PushesInOrder (integersIn t.terminals) (t.listing ctx)
  | .integer value _ => by
    rw [Term.listing_integer]
    exact List.Sublist.refl _
  | .string _ _ | .keyword _ _ | .var _ => .nil _
  | .element array index => by
    rw [Term.terminals, Term.listing_element]
    simpa using (index.pushes_listing.append_right _).cons _
  | .call call => by
    rw [Term.terminals, Term.listing_call]
    exact call.pushes_listing
  | .group inner _ => by
    rw [Term.terminals, Term.listing_group]
    simpa using inner.pushes_listing
  | .unary op operand _ => by
    rw [Term.terminals, Term.listing_unary, integersIn_symbol]
    exact operand.pushes_listing.append_right _

theorem Call.pushes_listing : ∀ c : Call, PushesInOrder (integersIn c.terminals) (c.listing ctx)
  | ⟨receiver, name, arguments, span⟩ => by
    rw [Call.terminals, Call.listing_eq]
    simpa using ((pushes_argumentsListing arguments).append_right _).append_left _

theorem pushes_argumentsListing : ∀ es : List Expr,
    PushesInOrder ((argumentsTerminals es).flatMap integersIn) (argumentsListing ctx es)
  | [] => .nil []
  | e :: es => by
    rw [argumentsTerminals, List.flatMap_cons, argumentsListing_cons]
    exact e.pushes_listing.append (pushes_argumentsListing es)

end

end Expressions

/-! ### Statements and classes -/

section Statements

variable (ctx : CodeContext)

theorem pushes_assignListing (target : NameUse) (index : Option Expr) (value : Expr) :
    PushesInOrder (integersIn (indexTerminals index) ++ integersIn value.terminals)
      (assignListing ctx target index value) := by
  have hvalue := value.pushes_listing ctx
  cases index with
  | none => exact hvalue.append_right _
  | some index =>
    rw [indexTerminals, integersIn_symbol, integersIn_append, integersIn_symbol, integersIn_nil,
      List.append_nil]
    exact ((index.pushes_listing ctx).append ((hvalue.append_right _).cons _)).cons _

theorem pushes_returnListing (value : Option Expr) :
    PushesInOrder (integersIn (valueTerminals value)) (returnListing ctx value) := by
  cases value with
  | none => exact .nil _
  | some value => exact (value.pushes_listing ctx).append_right _

mutual

theorem Statement.pushes_listing : ∀ (s : Statement) (labels : LabelSupply),
    PushesInOrder (integersIn s.terminals) (s.listing ctx labels)
  | .assign target index value _, labels => by
    rw [Statement.listing_assign, Statement.terminals]
    simpa using pushes_assignListing ctx target index value
  | .ifThen condition body _, labels => by
    have hbody := pushes_statementsListing body ((labels.bump .ifFalse).bump .ifEnd)
    rw [Statement.listing_ifThen, Statement.terminals]
    simp only [integersIn_keyword, integersIn_symbol, integersIn_append, integersIn_nil,
      List.append_nil]
    exact (condition.pushes_listing ctx).append (((hbody.append_right _).cons _).cons _)
  | .ifElse condition thenBody elseBody _, labels => by
    have hthen := pushes_statementsListing thenBody ((labels.bump .ifFalse).bump .ifEnd)
    have helse := pushes_statementsListing elseBody
      (statementsLabelsAfter thenBody ((labels.bump .ifFalse).bump .ifEnd))
    rw [Statement.listing_ifElse, Statement.terminals]
    simp only [integersIn_keyword, integersIn_symbol, integersIn_append, integersIn_nil,
      List.append_nil]
    exact (condition.pushes_listing ctx).append
      (((hthen.append (((helse.append_right _).cons _).cons _)).cons _).cons _)
  | .whileLoop condition body _, labels => by
    have hbody := pushes_statementsListing body ((labels.bump .whileStart).bump .whileEnd)
    rw [Statement.listing_whileLoop, Statement.terminals]
    simp only [integersIn_keyword, integersIn_symbol, integersIn_append, integersIn_nil,
      List.append_nil]
    exact ((condition.pushes_listing ctx).append
      (((hbody.append_right _).cons _).cons _)).cons _
  | .doCall call _, labels => by
    rw [Statement.listing_doCall, Statement.terminals]
    simpa using (call.pushes_listing ctx).append_right _
  | .ret value _, labels => by
    rw [Statement.listing_ret, Statement.terminals]
    simpa using pushes_returnListing ctx value

/-- The code of statements pushes their integer constants in order. -/
theorem pushes_statementsListing : ∀ (ss : List Statement) (labels : LabelSupply),
    PushesInOrder (integersIn (statementsTerminals ss)) (statementsListing ctx labels ss)
  | [], _ => .nil _
  | s :: ss, labels => by
    rw [statementsListing_cons, statementsTerminals, integersIn_append]
    exact ((s.pushes_listing labels).append
      (pushes_statementsListing ss (s.labelsAfter labels))).append_left _

end

theorem integersIn_subroutine (s : SubroutineDec) :
    integersIn s.terminals = integersIn (statementsTerminals s.statements) := by
  have hparameters : (s.parameters.map Parameter.terminals).flatMap integersIn = [] := by
    simp [List.flatMap_map, Parameter.terminals]
  have hvarDecs : integersIn (s.varDecs.flatMap VarDec.terminals) = [] := by
    induction s.varDecs with
    | nil => rfl
    | cons d ds ih => simp [VarDec.terminals, ih]
  simp [SubroutineDec.terminals, hparameters, hvarDecs]

theorem pushes_subroutinesListing (fields : Nat) (subs : List SubroutineDec)
    (labels : LabelSupply) :
    PushesInOrder (integersIn (subs.flatMap SubroutineDec.terminals))
      (subroutinesListing ctx fields labels subs) := by
  induction subs generalizing labels with
  | nil => exact .nil _
  | cons s ss ih =>
    rw [List.flatMap_cons, integersIn_append, integersIn_subroutine, subroutinesListing]
    exact ((pushes_statementsListing ctx s.statements labels).append (ih _)).append_left _

theorem integersIn_class (c : ClassDec) :
    integersIn c.terminals = integersIn (c.subroutines.flatMap SubroutineDec.terminals) := by
  have hvarDecs : integersIn (c.varDecs.flatMap ClassVarDec.terminals) = [] := by
    induction c.varDecs with
    | nil => rfl
    | cons d ds ih => simp [ClassVarDec.terminals, ih]
  simp [ClassDec.terminals, hvarDecs]

end Statements

end Jack

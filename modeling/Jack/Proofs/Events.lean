import Jack.Proofs.LexicalScope
import Jack.Proofs.Terminals

/-!
# What a reader meets

Between the tokens of a class a reader takes note of two things: that a statement list, an
expression or an operand of an operator starts, on which level, and that the next token declares a
name, after which others of the same scope.  An `Event` is a token or one of these, and
`ClassDec.events` is a class as the list of its events, in the order of the tokens.

The parser has limits, and an event can break one (`Event.limit?`): a level that is too deep, a name
that is declared again, or a variable for which there is no index.

* `ClassDec.terminals_events` : the tokens among the events are those of the class;
* `ClassDec.FirstBreak` : the limit that a class breaks first, and the token where it does.
-/

namespace Jack

/-! ### Limits -/

/-- A limit of the parser. -/
inductive Limit where
  /-- How deep code may be nested; `rule` is what would be nested too deeply. -/
  | depth (rule : Rule)
  /-- That a scope declares no name twice. -/
  | distinct (name : String)
  /-- How many variables of a storage class a scope may have. -/
  | room (storage : Storage) (name : String)
deriving DecidableEq, Repr

/-- What a reader of a class meets. -/
inductive Event where
  /-- A token that is written for the terminal. -/
  | token (w : Terminal)
  /-- The start of a statement list, an expression or an operand on a level. -/
  | enter (rule : Rule) (level : Nat)
  /-- A name that the next token declares, after the others of its scope. -/
  | declare (earlier : List Declaration) (d : Declaration)
deriving DecidableEq, Repr

namespace Event

/-- The terminal of a token. -/
def terminal? : Event → Option Terminal
  | token w => some w
  | enter .. | declare .. => none

/-- The limit that an event breaks.  Level 65 is the first that is too deep, and the 32769th
variable of a storage class the first without an index. -/
def limit? : Event → Option Limit
  | token _ => none
  | enter rule level => if level = 65 then some (.depth rule) else none
  | declare earlier d =>
    if d.name ∈ earlier.map (·.name) then some (.distinct d.name)
    else if earlier.countP (·.storage == d.storage) = 32768 then some (.room d.storage d.name)
    else none

theorem limit?_declare_eq_none_iff {earlier : List Declaration} {d : Declaration} :
    (declare earlier d).limit? = none ↔
      d.name ∉ earlier.map (·.name) ∧ earlier.countP (·.storage == d.storage) ≠ 32768 := by
  rw [limit?]
  split
  · next h => simp [h]
  · next h => split <;> simp_all

end Event

/-- The tokens among events. -/
def terminalsOf (xs : List Event) : List Terminal := xs.filterMap Event.terminal?

section Terminals

variable (xs ys : List Event)

@[simp] theorem terminalsOf_nil : terminalsOf [] = [] := rfl

@[simp] theorem terminalsOf_token (w : Terminal) :
    terminalsOf (.token w :: xs) = w :: terminalsOf xs := rfl

@[simp] theorem terminalsOf_enter (rule : Rule) (level : Nat) :
    terminalsOf (.enter rule level :: xs) = terminalsOf xs := rfl

@[simp] theorem terminalsOf_declare (earlier : List Declaration) (d : Declaration) :
    terminalsOf (.declare earlier d :: xs) = terminalsOf xs := rfl

@[simp] theorem terminalsOf_append : terminalsOf (xs ++ ys) = terminalsOf xs ++ terminalsOf ys :=
  List.filterMap_append

@[simp] theorem terminalsOf_map_token (ws : List Terminal) :
    terminalsOf (ws.map .token) = ws := by
  rw [terminalsOf, List.filterMap_map]
  exact List.filterMap_some

end Terminals

/-- Pieces with commas between them. -/
def joinEvents : List (List Event) → List Event
  | [] => []
  | piece :: pieces => piece ++ pieces.flatMap (.token (.symbol ',') :: ·)

theorem terminalsOf_flatMap {α : Type} (events : α → List Event) (as : List α) :
    terminalsOf (as.flatMap events) = as.flatMap fun a => terminalsOf (events a) :=
  List.filterMap_flatMap

@[simp] theorem terminalsOf_joinEvents (pieces : List (List Event)) :
    terminalsOf (joinEvents pieces) = withCommas (pieces.map terminalsOf) := by
  cases pieces with
  | nil => rfl
  | cons piece pieces => simp [joinEvents, withCommas, terminalsOf_flatMap, List.flatMap_map]

/-! ### The first break -/

/-- None of the events breaks a limit. -/
def Unbroken (xs : List Event) : Prop := ∀ x ∈ xs, x.limit? = none

section Unbroken

variable {xs ys : List Event}

@[simp] theorem unbroken_nil : Unbroken [] := List.forall_mem_nil _

@[simp] theorem unbroken_token_cons {w : Terminal} :
    Unbroken (.token w :: xs) ↔ Unbroken xs :=
  List.forall_mem_cons.trans (and_iff_right rfl)

@[simp] theorem unbroken_enter_cons {rule : Rule} {level : Nat} :
    Unbroken (.enter rule level :: xs) ↔ level ≠ 65 ∧ Unbroken xs := by
  refine List.forall_mem_cons.trans (and_congr_left fun _ => ?_)
  simp [Event.limit?]

@[simp] theorem unbroken_declare_cons {earlier : List Declaration} {d : Declaration} :
    Unbroken (.declare earlier d :: xs) ↔
      (Event.declare earlier d).limit? = none ∧ Unbroken xs :=
  List.forall_mem_cons

@[simp] theorem unbroken_append : Unbroken (xs ++ ys) ↔ Unbroken xs ∧ Unbroken ys :=
  List.forall_mem_append

@[simp] theorem unbroken_map_token (ws : List Terminal) : Unbroken (ws.map .token) :=
  List.forall_mem_map.2 fun _ _ => rfl

@[simp] theorem unbroken_flatMap {α : Type} {events : α → List Event} {as : List α} :
    Unbroken (as.flatMap events) ↔ ∀ a ∈ as, Unbroken (events a) :=
  List.forall_mem_flatMap

@[simp] theorem unbroken_joinEvents {pieces : List (List Event)} :
    Unbroken (joinEvents pieces) ↔ ∀ piece ∈ pieces, Unbroken piece := by
  cases pieces with
  | nil => simp [joinEvents]
  | cons piece pieces => simp [joinEvents]

end Unbroken

/-- The first limit that events break, with the number of tokens that are left there. -/
def firstBreak? : List Event → Option (Limit × Nat)
  | [] => none
  | x :: xs =>
    match x.limit? with
    | some l => some (l, (terminalsOf (x :: xs)).length)
    | none => firstBreak? xs

section FirstBreak

variable {x : Event} {xs : List Event} {l : Limit} {n : Nat}

theorem firstBreak?_of_limit?_eq_none (h : x.limit? = none) :
    firstBreak? (x :: xs) = firstBreak? xs := by
  rw [firstBreak?, h]

theorem firstBreak?_of_limit?_eq_some (h : x.limit? = some l) :
    firstBreak? (x :: xs) = some (l, (terminalsOf (x :: xs)).length) := by
  rw [firstBreak?, h]

theorem firstBreak?_eq_none_iff : firstBreak? xs = none ↔ Unbroken xs := by
  induction xs with
  | nil => exact iff_of_true rfl unbroken_nil
  | cons x xs ih =>
    rw [Unbroken, List.forall_mem_cons]
    cases hx : x.limit? with
    | some l => simp [firstBreak?_of_limit?_eq_some hx]
    | none => simp [firstBreak?_of_limit?_eq_none hx, ih, Unbroken]

/-- In front of the first break nothing is broken. -/
theorem exists_eq_append_of_firstBreak?_eq_some (h : firstBreak? xs = some (l, n)) :
    ∃ before x after, xs = before ++ x :: after ∧ Unbroken before ∧ x.limit? = some l ∧
      (terminalsOf (x :: after)).length = n := by
  induction xs with
  | nil => cases h
  | cons x xs ih =>
    cases hx : x.limit? with
    | some l' =>
      rw [firstBreak?_of_limit?_eq_some hx] at h
      cases h
      exact ⟨[], x, xs, rfl, unbroken_nil, hx, rfl⟩
    | none =>
      rw [firstBreak?_of_limit?_eq_none hx] at h
      obtain ⟨before, y, after, rfl, hbefore, hy, hn⟩ := ih h
      exact ⟨x :: before, y, after, rfl, List.forall_mem_cons.2 ⟨hx, hbefore⟩, hy, hn⟩

end FirstBreak

/-! ### Events of expressions and statements -/

mutual

/-- The events of an expression on a level. -/
def Expr.events (level : Nat) : Expr → List Event
  | ⟨head, tail, _⟩ => .enter .expression level :: (head.events level ++ tailEvents level tail)

/-- The events of operators and their right-hand terms in an expression on a level. -/
def tailEvents (level : Nat) : List (BinaryOp × Term) → List Event
  | [] => []
  | (op, t) :: tail => .token (.symbol op.symbol) :: (t.events level ++ tailEvents level tail)

/-- The events of a term in an expression, or an operand, on a level. -/
def Term.events (level : Nat) : Term → List Event
  | .integer value _ => [.token (.integer value)]
  | .string value _ => [.token (.string value)]
  | .keyword value _ => [.token (.keyword value.keyword)]
  | .var name => [.token (.identifier name.name)]
  | .element array index =>
    .token (.identifier array.name) :: .token (.symbol '[') ::
      (index.events (level + 1) ++ [.token (.symbol ']')])
  | .call call => call.events level
  | .group inner _ =>
    .token (.symbol '(') :: (inner.events (level + 1) ++ [.token (.symbol ')')])
  | .unary op operand _ =>
    .token (.symbol op.symbol) :: .enter .term (level + 1) :: operand.events (level + 1)

/-- The events of a call in an expression, or in a statement list, on a level. -/
def Call.events (level : Nat) : Call → List Event
  | ⟨receiver, name, arguments, _⟩ =>
    (calleeTerminals receiver name).map .token ++ .token (.symbol '(') ::
      (joinEvents (argumentsEvents level arguments) ++ [.token (.symbol ')')])

/-- The events of each argument of a call in an expression, or in a statement list, on a level. -/
def argumentsEvents (level : Nat) : List Expr → List (List Event)
  | [] => []
  | e :: es => e.events (level + 1) :: argumentsEvents level es

end

theorem tailEvents_eq_flatMap (level : Nat) (tail : List (BinaryOp × Term)) :
    tailEvents level tail =
      tail.flatMap fun p => .token (.symbol p.1.symbol) :: p.2.events level := by
  induction tail with
  | nil => rfl
  | cons p tail ih => rw [tailEvents, ih, List.flatMap_cons, List.cons_append]

theorem argumentsEvents_eq_map (level : Nat) (es : List Expr) :
    argumentsEvents level es = es.map (Expr.events (level + 1)) := by
  induction es with
  | nil => rfl
  | cons e es ih => rw [argumentsEvents, ih, List.map_cons]

/-- The events of the index of an assignment in a statement list on a level. -/
def indexEvents (level : Nat) : Option Expr → List Event
  | none => []
  | some index =>
    .token (.symbol '[') :: (index.events (level + 1) ++ [.token (.symbol ']')])

/-- The events of the value of a return in a statement list on a level. -/
def valueEvents (level : Nat) : Option Expr → List Event
  | none => []
  | some value => value.events (level + 1)

mutual

/-- The events of a statement in a statement list on a level. -/
def Statement.events (level : Nat) : Statement → List Event
  | .assign target index value _ =>
    .token (.keyword .kwLet) :: .token (.identifier target.name) ::
      (indexEvents level index ++ .token (.symbol '=') ::
        (value.events (level + 1) ++ [.token (.symbol ';')]))
  | .ifThen condition body _ =>
    .token (.keyword .kwIf) :: .token (.symbol '(') ::
      (condition.events (level + 1) ++ .token (.symbol ')') :: .token (.symbol '{') ::
        .enter .statements (level + 1) ::
          (bodyEvents (level + 1) body ++ [.token (.symbol '}')]))
  | .ifElse condition thenBody elseBody _ =>
    .token (.keyword .kwIf) :: .token (.symbol '(') ::
      (condition.events (level + 1) ++ .token (.symbol ')') :: .token (.symbol '{') ::
        .enter .statements (level + 1) ::
          (bodyEvents (level + 1) thenBody ++ .token (.symbol '}') :: .token (.keyword .kwElse) ::
            .token (.symbol '{') :: .enter .statements (level + 1) ::
              (bodyEvents (level + 1) elseBody ++ [.token (.symbol '}')])))
  | .whileLoop condition body _ =>
    .token (.keyword .kwWhile) :: .token (.symbol '(') ::
      (condition.events (level + 1) ++ .token (.symbol ')') :: .token (.symbol '{') ::
        .enter .statements (level + 1) ::
          (bodyEvents (level + 1) body ++ [.token (.symbol '}')]))
  | .doCall call _ => .token (.keyword .kwDo) :: (call.events level ++ [.token (.symbol ';')])
  | .ret value _ =>
    .token (.keyword .kwReturn) :: (valueEvents level value ++ [.token (.symbol ';')])

/-- The events of the statements of a list on a level. -/
def bodyEvents (level : Nat) : List Statement → List Event
  | [] => []
  | s :: ss => s.events level ++ bodyEvents level ss

end

theorem bodyEvents_eq_flatMap (level : Nat) (ss : List Statement) :
    bodyEvents level ss = ss.flatMap (Statement.events level) := by
  induction ss with
  | nil => rfl
  | cons s ss ih => rw [bodyEvents, ih, List.flatMap_cons]

/-- The events of a statement list on a level. -/
def statementsEvents (level : Nat) (ss : List Statement) : List Event :=
  .enter .statements level :: bodyEvents level ss

mutual

theorem Expr.terminals_events : ∀ (e : Expr) (level : Nat),
    terminalsOf (e.events level) = e.terminals
  | ⟨head, tail, _⟩, level => by
    simp only [Expr.events, Expr.terminals, terminalsOf_enter, terminalsOf_append,
      head.terminals_events, tailTerminals_tailEvents tail]

theorem tailTerminals_tailEvents : ∀ (tail : List (BinaryOp × Term)) (level : Nat),
    terminalsOf (tailEvents level tail) = tailTerminals tail
  | [], _ => rfl
  | (op, t) :: tail, level => by
    simp only [tailEvents, tailTerminals, terminalsOf_token, terminalsOf_append,
      t.terminals_events, tailTerminals_tailEvents tail]

theorem Term.terminals_events : ∀ (t : Term) (level : Nat),
    terminalsOf (t.events level) = t.terminals
  | .integer _ _, _ | .string _ _, _ | .keyword _ _, _ | .var _, _ => rfl
  | .element _ index, level => by
    simp only [Term.events, Term.terminals, terminalsOf_token, terminalsOf_append,
      index.terminals_events, terminalsOf_nil]
  | .call call, level => by simp only [Term.events, Term.terminals, call.terminals_events]
  | .group inner _, level => by
    simp only [Term.events, Term.terminals, terminalsOf_token, terminalsOf_append,
      inner.terminals_events, terminalsOf_nil]
  | .unary _ operand _, level => by
    simp only [Term.events, Term.terminals, terminalsOf_token, terminalsOf_enter,
      operand.terminals_events]

theorem Call.terminals_events : ∀ (c : Call) (level : Nat),
    terminalsOf (c.events level) = c.terminals
  | ⟨receiver, name, arguments, _⟩, level => by
    simp only [Call.events, Call.terminals, terminalsOf_token, terminalsOf_append,
      terminalsOf_map_token, terminalsOf_joinEvents, argumentsTerminals_argumentsEvents arguments,
      terminalsOf_nil]

theorem argumentsTerminals_argumentsEvents : ∀ (es : List Expr) (level : Nat),
    (argumentsEvents level es).map terminalsOf = argumentsTerminals es
  | [], _ => rfl
  | e :: es, level => by
    simp only [argumentsEvents, argumentsTerminals, List.map_cons, e.terminals_events,
      argumentsTerminals_argumentsEvents es]

end

theorem indexTerminals_indexEvents (index : Option Expr) (level : Nat) :
    terminalsOf (indexEvents level index) = indexTerminals index := by
  cases index with
  | none => rfl
  | some index => simp [indexEvents, indexTerminals, index.terminals_events]

theorem valueTerminals_valueEvents (value : Option Expr) (level : Nat) :
    terminalsOf (valueEvents level value) = valueTerminals value := by
  cases value with
  | none => rfl
  | some value => exact value.terminals_events _

mutual

theorem Statement.terminals_events : ∀ (s : Statement) (level : Nat),
    terminalsOf (s.events level) = s.terminals
  | .assign _ index value _, level => by
    simp only [Statement.events, Statement.terminals, terminalsOf_token, terminalsOf_append,
      indexTerminals_indexEvents, value.terminals_events, terminalsOf_nil]
  | .ifThen condition body _, level | .whileLoop condition body _, level => by
    simp only [Statement.events, Statement.terminals, terminalsOf_token, terminalsOf_enter,
      terminalsOf_append, condition.terminals_events, statementsTerminals_bodyEvents body,
      terminalsOf_nil]
  | .ifElse condition thenBody elseBody _, level => by
    simp only [Statement.events, Statement.terminals, terminalsOf_token, terminalsOf_enter,
      terminalsOf_append, condition.terminals_events, statementsTerminals_bodyEvents thenBody,
      statementsTerminals_bodyEvents elseBody, terminalsOf_nil]
  | .doCall call _, level => by
    simp only [Statement.events, Statement.terminals, terminalsOf_token, terminalsOf_append,
      call.terminals_events, terminalsOf_nil]
  | .ret value _, level => by
    simp only [Statement.events, Statement.terminals, terminalsOf_token, terminalsOf_append,
      valueTerminals_valueEvents, terminalsOf_nil]

theorem statementsTerminals_bodyEvents : ∀ (ss : List Statement) (level : Nat),
    terminalsOf (bodyEvents level ss) = statementsTerminals ss
  | [], _ => rfl
  | s :: ss, level => by
    simp only [bodyEvents, statementsTerminals, terminalsOf_append, s.terminals_events,
      statementsTerminals_bodyEvents ss]

end

/-! ### Events of declarations -/

/-- Things that declare names, each with the declarations in front of it. -/
def withEarlier {γ : Type} (declared : γ → List Declaration) :
    List Declaration → List γ → List (List Declaration × γ)
  | _, [] => []
  | earlier, x :: xs => (earlier, x) :: withEarlier declared (earlier ++ declared x) xs

@[simp] theorem map_snd_withEarlier {γ : Type} (declared : γ → List Declaration)
    (earlier : List Declaration) (xs : List γ) :
    (withEarlier declared earlier xs).map Prod.snd = xs := by
  induction xs generalizing earlier with
  | nil => rfl
  | cons x xs ih => rw [withEarlier, List.map_cons, ih]

/-- The events of the names that a declaration declares after others. -/
def namesEvents (type : TypeName) (storage : Storage) (earlier : List Declaration)
    (names : List Ident) : List Event :=
  joinEvents ((withEarlier (fun name => [⟨name.text, type, storage⟩]) earlier names).map fun p =>
    [.declare p.1 ⟨p.2.text, type, storage⟩, .token (.identifier p.2.text)])

/-- The declarations of a declaration of variables of the class. -/
def ClassVarDec.declarations (d : ClassVarDec) : List Declaration :=
  declarationsOf d.type d.kind.storage d.names

/-- The declarations of a declaration of local variables. -/
def VarDec.declarations (d : VarDec) : List Declaration := declarationsOf d.type .localVar d.names

/-- The declaration of a parameter. -/
def Parameter.declaration (p : Parameter) : Declaration := ⟨p.name.text, p.type, .argument⟩

theorem declarationsOf_eq_flatMap (type : TypeName) (storage : Storage) (names : List Ident) :
    declarationsOf type storage names = names.flatMap fun name => [⟨name.text, type, storage⟩] :=
  List.map_eq_flatMap

theorem SubroutineDec.arguments_eq_flatMap {className : String} (s : SubroutineDec) :
    s.arguments className =
      s.kind.object className ++ s.parameters.flatMap fun p => [p.declaration] :=
  congrArg (s.kind.object className ++ ·) List.map_eq_flatMap

/-- The events of a declaration of variables of the class after others. -/
def ClassVarDec.events (earlier : List Declaration) (d : ClassVarDec) : List Event :=
  .token (.keyword d.kind.keyword) :: .token d.type.terminal ::
    (namesEvents d.type d.kind.storage earlier d.names ++ [.token (.symbol ';')])

/-- The events of a declaration of local variables after others. -/
def VarDec.events (earlier : List Declaration) (d : VarDec) : List Event :=
  .token (.keyword .kwVar) :: .token d.type.terminal ::
    (namesEvents d.type .localVar earlier d.names ++ [.token (.symbol ';')])

/-- The events of a parameter after other declarations. -/
def Parameter.events (earlier : List Declaration) (p : Parameter) : List Event :=
  [.token p.type.terminal, .declare earlier p.declaration, .token (.identifier p.name.text)]

/-- The events of a subroutine.  Its scope starts with the object, if it has one, and its statements
are on the first level. -/
def SubroutineDec.events (className : String) (s : SubroutineDec) : List Event :=
  .token (.keyword s.kind.keyword) :: .token s.returnType.terminal ::
    .token (.identifier s.name.text) :: .token (.symbol '(') ::
      (joinEvents ((withEarlier (fun p => [p.declaration]) (s.kind.object className)
          s.parameters).map fun p => p.2.events p.1) ++
        .token (.symbol ')') :: .token (.symbol '{') ::
          ((withEarlier VarDec.declarations (s.arguments className) s.varDecs).flatMap
              (fun p => p.2.events p.1) ++
            (statementsEvents 1 s.statements ++ [.token (.symbol '}')])))

namespace ClassDec

/-- The events of a class. -/
def events (c : ClassDec) : List Event :=
  .token (.keyword .kwClass) :: .token (.identifier c.name.text) :: .token (.symbol '{') ::
    ((withEarlier ClassVarDec.declarations [] c.varDecs).flatMap (fun p => p.2.events p.1) ++
      (c.subroutines.flatMap (SubroutineDec.events c.name.text) ++ [.token (.symbol '}')]))

/-- Of all events of the class the first that breaks a limit breaks this one, and the next token is
the one at index `k`. -/
def FirstBreak (c : ClassDec) (k : Nat) (l : Limit) : Prop :=
  ∃ before x after, c.events = before ++ x :: after ∧ Unbroken before ∧ x.limit? = some l ∧
    (terminalsOf before).length = k

end ClassDec

theorem flatMap_withEarlier {γ : Type} (declared : γ → List Declaration)
    (earlier : List Declaration) (xs : List γ) (f : γ → List Terminal) :
    ((withEarlier declared earlier xs).flatMap fun p => f p.2) = xs.flatMap f := by
  have h := List.flatMap_map (f := Prod.snd) (g := f) (l := withEarlier declared earlier xs)
  rw [map_snd_withEarlier] at h
  exact h.symm

theorem map_withEarlier {γ : Type} (declared : γ → List Declaration)
    (earlier : List Declaration) (xs : List γ) (f : γ → List Terminal) :
    ((withEarlier declared earlier xs).map fun p => f p.2) = xs.map f := by
  have h := List.map_map (f := Prod.snd) (g := f) (l := withEarlier declared earlier xs)
  rw [map_snd_withEarlier] at h
  exact h.symm

theorem namesTerminals_namesEvents (type : TypeName) (storage : Storage)
    (earlier : List Declaration) (names : List Ident) :
    terminalsOf (namesEvents type storage earlier names) = namesTerminals names := by
  rw [namesEvents, terminalsOf_joinEvents, List.map_map, namesTerminals]
  exact congrArg withCommas (map_withEarlier _ _ _ fun name : Ident => [.identifier name.text])

theorem ClassVarDec.terminals_events (earlier : List Declaration) (d : ClassVarDec) :
    terminalsOf (d.events earlier) = d.terminals := by
  simp [events, terminals, namesTerminals_namesEvents]

theorem VarDec.terminals_events (earlier : List Declaration) (d : VarDec) :
    terminalsOf (d.events earlier) = d.terminals := by
  simp [events, terminals, namesTerminals_namesEvents]

theorem SubroutineDec.terminals_events (className : String) (s : SubroutineDec) :
    terminalsOf (s.events className) = s.terminals := by
  have hparameters := map_withEarlier (fun p => [Parameter.declaration p])
    (s.kind.object className) s.parameters Parameter.terminals
  have hdecs := flatMap_withEarlier VarDec.declarations (s.arguments className) s.varDecs
    VarDec.terminals
  simp [events, terminals, statementsEvents, terminalsOf_flatMap, VarDec.terminals_events,
    statementsTerminals_bodyEvents, hdecs, Function.comp_def, Parameter.events, ← hparameters,
    Parameter.terminals]

/-- **The tokens among the events of a class are those that it is written with.** -/
theorem ClassDec.terminals_events (c : ClassDec) : terminalsOf c.events = c.terminals := by
  have hdecs := flatMap_withEarlier ClassVarDec.declarations [] c.varDecs ClassVarDec.terminals
  simp [events, terminals, terminalsOf_flatMap, ClassVarDec.terminals_events,
    SubroutineDec.terminals_events, hdecs]

end Jack

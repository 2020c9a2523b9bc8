import Jack.Code.Listing
import Jack.Proofs.Node

/-!
# Which classes have code

A class has code exactly if its tree and its scope are such that every name, every number and every
operator in it can be written in VM code.  `ClassDec.Lowerable` says so of the nodes of the tree, in
no order.

A class that has no code is refused with a fault, and which one depends on an order.  The *demands*
of a class list what its code needs of it, in the order in which the code is made; the class is
refused with the fault of the first demand that is not met.

* `Expr.decides_check`, `checkStatements_decides`, `checkSubroutines_decides` : the checks answer
  with the fault of the first unmet demand;
* `Expr.met_demands_iff`, `met_statementsDemands_iff`, `ClassDec.met_demands_iff` : the demands are
  what the nodes of the tree have to be like;
* `lower_decided` : **a class has code exactly if it is lowerable, and is refused with the fault of
  its first unmet demand otherwise.**
-/

namespace Jack

/-! ### Nodes that can be lowered -/

/-- The name is a variable with an index that fits an operand. -/
def NameUse.IsVariable (n : NameUse) : Prop :=
  ∃ v, n.meaning = .declared v ∧ v.index ≤ maxIndex

/-- The name can be called on: it is a class, or a variable of class type with an index that fits an
operand. -/
def NameUse.IsReceiver (n : NameUse) : Prop :=
  n.meaning = .className ∨
    ∃ v className, n.meaning = .declared v ∧ v.type = .object className ∧ v.index ≤ maxIndex

/-- In a subroutine of this sort the call has what it works on: a receiver, or the current
object. -/
def Call.HasObject (kind : SubroutineKind) (c : Call) : Prop :=
  match c.receiver with
  | none => kind = .constructor ∨ kind = .method
  | some receiver => receiver.IsReceiver

/-- What the node itself, without the nodes in it, has to be like in order to have code. -/
def Node.Lowerable (ctx : BodyContext) : Node → Prop
  | .statement (.assign target _ _ _) => target.IsVariable
  | .term (.var name) | .term (.element name _) => name.IsVariable
  | .term (.string value _) => value.length ≤ maxIndex ∧ ∀ c ∈ value.toList, c.toNat ≤ maxIndex
  | .call c => c.arguments.length ≤ maxIndex ∧ c.HasObject ctx.kind
  | .expr e => ∀ p ∈ e.tail, p.1 = .mod → ctx.options.moduloRoutine.isSome
  | _ => True

/-- The subroutine of a class with `fields` fields can be lowered. -/
structure SubroutineDec.Lowerable (options : Options) (fields : Nat) (s : SubroutineDec) :
    Prop where
  /-- The number of local variables fits an operand. -/
  locals : s.localCount ≤ maxIndex
  /-- A constructor has to allocate all fields. -/
  fields : s.kind = .constructor → fields ≤ maxIndex
  /-- All nodes of the subroutine can be lowered. -/
  nodes : ∀ n : Node, n.Within (.subroutineDec s) → n.Lowerable ⟨s.kind, options⟩

/-- The class with `fields` fields can be lowered. -/
def ClassDec.Lowerable (options : Options) (fields : Nat) (c : ClassDec) : Prop :=
  ∀ s ∈ c.subroutines, s.Lowerable options fields

/-! ### Demands -/

/-- Something that the code of a class needs of its tree. -/
inductive Demand where
  /-- A number fits an operand. -/
  | fits (what : Countable) (count : Nat) (span : Span)
  /-- A name is a variable. -/
  | isVariable (name : NameUse)
  /-- A call has an object or a class to work on. -/
  | hasObject (kind : SubroutineKind) (call : Call)
  /-- A character of a string has a code that fits an operand. -/
  | character (c : Char) (span : Span)
  /-- An operator, whose right-hand term is at `span`, has code. -/
  | operator (op : BinaryOp) (span : Span)

/-- The fault of a name that is no variable. -/
def NameUse.fault (n : NameUse) : LoweringFault :=
  match n.meaning with
  | .declared v => .tooMany .declaredVariables v.index
  | .className => .classAsVariable n.name
  | .subroutine => .undeclaredVariable n.name

/-- The fault of a name that cannot be called on. -/
def NameUse.receiverFault (n : NameUse) : LoweringFault :=
  match n.meaning with
  | .declared v =>
    match v.type with
    | .object _ => .tooMany .declaredVariables v.index
    | type => .primitiveReceiver n.name type
  | .className | .subroutine => .unknownReceiver n.name

namespace Demand

/-- The demand is met. -/
def Met (options : Options) : Demand → Prop
  | fits _ count _ => count ≤ maxIndex
  | isVariable name => name.IsVariable
  | hasObject kind call => call.HasObject kind
  | character c _ => c.toNat ≤ maxIndex
  | operator op _ => op = .mod → options.moduloRoutine.isSome

/-- The error of a class that does not meet the demand. -/
def error : Demand → CompileError
  | fits what count span => .lowering (.tooMany what count) (some span)
  | isVariable name => .lowering name.fault (some name.span)
  | hasObject _ call =>
    match call.receiver with
    | none => .lowering (.noCurrentObject call.name.text) (some call.span)
    | some receiver => .lowering receiver.receiverFault (some receiver.span)
  | character c span => .lowering (.noCharacterCode c) (some span)
  | operator op span => .unresolvedOperator op.symbol span

end Demand

mutual

/-- The demands of an expression in a subroutine of a sort. -/
def Expr.demands (kind : SubroutineKind) : Expr → List Demand
  | ⟨head, tail, _⟩ => head.demands kind ++ tailDemands kind tail

/-- The demands of operators and their right-hand terms.  Each operator comes after its term. -/
def tailDemands (kind : SubroutineKind) : List (BinaryOp × Term) → List Demand
  | [] => []
  | (op, t) :: tail => t.demands kind ++ .operator op t.span :: tailDemands kind tail

/-- The demands of a term. -/
def Term.demands (kind : SubroutineKind) : Term → List Demand
  | .integer .. | .keyword .. => []
  | .string value span =>
    .fits .stringCharacters value.length span :: value.toList.map (.character · span)
  | .var name => [.isVariable name]
  | .element array index => .isVariable array :: index.demands kind
  | .call c => c.demands kind
  | .group inner _ => inner.demands kind
  | .unary _ operand _ => operand.demands kind

/-- The demands of a call: the number of its arguments and its object come before the arguments. -/
def Call.demands (kind : SubroutineKind) : Call → List Demand
  | ⟨receiver, name, arguments, span⟩ =>
    .fits .arguments arguments.length span :: .hasObject kind ⟨receiver, name, arguments, span⟩ ::
      argumentsDemands kind arguments

/-- The demands of arguments. -/
def argumentsDemands (kind : SubroutineKind) : List Expr → List Demand
  | [] => []
  | e :: es => e.demands kind ++ argumentsDemands kind es

end

/-- The demands of an expression, if there is one. -/
def optionDemands (kind : SubroutineKind) : Option Expr → List Demand
  | none => []
  | some e => e.demands kind

mutual

/-- The demands of a statement.  The target of an assignment comes before its index and its
value. -/
def Statement.demands (kind : SubroutineKind) : Statement → List Demand
  | .assign target index value _ =>
    .isVariable target :: (optionDemands kind index ++ value.demands kind)
  | .ifThen condition body _ | .whileLoop condition body _ =>
    condition.demands kind ++ statementsDemands kind body
  | .ifElse condition thenBody elseBody _ =>
    condition.demands kind ++
      (statementsDemands kind thenBody ++ statementsDemands kind elseBody)
  | .doCall call _ => call.demands kind
  | .ret value _ => optionDemands kind value

/-- The demands of statements. -/
def statementsDemands (kind : SubroutineKind) : List Statement → List Demand
  | [] => []
  | s :: ss => s.demands kind ++ statementsDemands kind ss

end

/-- The demands of the header of a subroutine. -/
def SubroutineDec.headerDemands (fields : Nat) (s : SubroutineDec) : List Demand :=
  .fits .localVariables s.localCount s.span ::
    if s.kind = .constructor then [.fits .fields fields s.span] else []

/-- The demands of a subroutine, those of its header first. -/
def SubroutineDec.demands (fields : Nat) (s : SubroutineDec) : List Demand :=
  s.headerDemands fields ++ statementsDemands s.kind s.statements

/-- The demands of a class with `fields` fields. -/
def ClassDec.demands (fields : Nat) (c : ClassDec) : List Demand :=
  c.subroutines.flatMap (·.demands fields)

/-! ### The first unmet demand -/

/-- The demand is the first one of the list that is not met. -/
inductive FirstUnmet (options : Options) : List Demand → Demand → Prop
  /-- The first one is not met. -/
  | head {d : Demand} {ds : List Demand} (h : ¬ d.Met options) : FirstUnmet options (d :: ds) d
  /-- The first one is met. -/
  | tail {d d' : Demand} {ds : List Demand} (h : d.Met options) (h' : FirstUnmet options ds d') :
    FirstUnmet options (d :: ds) d'

section FirstUnmet

variable {options : Options} {d d' : Demand} {ds ds' : List Demand}

theorem FirstUnmet.append (h : FirstUnmet options ds d) : FirstUnmet options (ds ++ ds') d := by
  induction h with
  | head h => exact .head h
  | tail h _ ih => exact .tail h ih

theorem FirstUnmet.append_left (hds : ∀ d ∈ ds, d.Met options) (h : FirstUnmet options ds' d) :
    FirstUnmet options (ds ++ ds') d := by
  induction ds with
  | nil => exact h
  | cons d₁ ds ih =>
    rw [List.forall_mem_cons] at hds
    exact .tail hds.1 (ih hds.2)

theorem FirstUnmet.unique (h : FirstUnmet options ds d) (h' : FirstUnmet options ds d') :
    d = d' := by
  induction h with
  | head h =>
    cases h' with
    | head => rfl
    | tail hmet => exact absurd hmet h
  | tail h _ ih =>
    cases h' with
    | head hunmet => exact absurd h hunmet
    | tail _ h' => exact ih h'

theorem FirstUnmet.exists_not_met (h : FirstUnmet options ds d) : d ∈ ds ∧ ¬ d.Met options := by
  induction h with
  | head h => exact ⟨List.mem_cons_self, h⟩
  | tail _ _ ih => exact ⟨List.mem_cons_of_mem _ ih.1, ih.2⟩

end FirstUnmet

/-! ### Checks -/

/-- The check succeeds if all of the demands are met, and answers with the error of the first unmet
demand otherwise. -/
def Check.Decides (options : Options) (ds : List Demand) (p : Check) : Prop :=
  (p = .ok () ∧ ∀ d ∈ ds, d.Met options) ∨
    ∃ d, FirstUnmet options ds d ∧ p = .error d.error

namespace Check

variable {options : Options} {d : Demand} {ds ds' : List Demand} {p : Check} {q : Unit → Check}

theorem Decides.ok_iff (h : p.Decides options ds) : p = .ok () ↔ ∀ d ∈ ds, d.Met options := by
  rcases h with ⟨rfl, hmet⟩ | ⟨d, hd, rfl⟩
  · exact ⟨fun _ => hmet, fun _ => rfl⟩
  · obtain ⟨hmem, hunmet⟩ := hd.exists_not_met
    exact ⟨fun h => (nomatch h), fun h => absurd (h d hmem) hunmet⟩

theorem Decides.error_iff (h : p.Decides options ds) {e : CompileError} :
    p = .error e ↔ ∃ d, FirstUnmet options ds d ∧ e = d.error := by
  rcases h with ⟨rfl, hmet⟩ | ⟨d, hd, rfl⟩
  · refine ⟨fun h => (nomatch h), ?_⟩
    rintro ⟨d, hd, -⟩
    obtain ⟨hmem, hunmet⟩ := hd.exists_not_met
    exact absurd (hmet d hmem) hunmet
  · refine ⟨fun h => ⟨d, hd, (Except.error.inj h).symm⟩, ?_⟩
    rintro ⟨d', hd', rfl⟩
    rw [hd.unique hd']

theorem decides_nil : Decides options [] (pure ()) := .inl ⟨rfl, List.forall_mem_nil _⟩

theorem Decides.bind (hp : p.Decides options ds) (hq : (q ()).Decides options ds') :
    Decides options (ds ++ ds') (p >>= q) := by
  rcases hp with ⟨rfl, hmet⟩ | ⟨d, hd, rfl⟩
  · rcases hq with ⟨hq, hmet'⟩ | ⟨d, hd, hq⟩
    · exact .inl ⟨hq, List.forall_mem_append.2 ⟨hmet, hmet'⟩⟩
    · exact .inr ⟨d, hd.append_left hmet, hq⟩
  · exact .inr ⟨d, hd.append, rfl⟩

/-- One demand. -/
theorem decides_singleton (hmet : d.Met options → p = .ok ())
    (hunmet : ¬ d.Met options → p = .error d.error) : p.Decides options [d] := by
  by_cases h : d.Met options
  · exact .inl ⟨hmet h, List.forall_mem_singleton.2 h⟩
  · exact .inr ⟨d, .head h, hunmet h⟩

theorem Decides.cons (hp : p.Decides options [d]) (hq : (q ()).Decides options ds) :
    Decides options (d :: ds) (p >>= q) :=
  bind hp hq

theorem decides_fits (what : Countable) (count : Nat) (span : Span) :
    (fits what count span).Decides options [.fits what count span] :=
  decides_singleton (fun h => if_pos h) (fun h => if_neg h)

theorem decides_characters (span : Span) (cs : List Char) :
    (characters span cs).Decides options (cs.map (.character · span)) := by
  induction cs with
  | nil => exact decides_nil
  | cons c cs ih =>
    rw [characters, List.map_cons]
    split
    · next h =>
      rcases ih with ⟨hok, hmet⟩ | ⟨d, hd, herror⟩
      · exact .inl ⟨hok, List.forall_mem_cons.2 ⟨h, hmet⟩⟩
      · exact .inr ⟨d, .tail h hd, herror⟩
    · next h => exact .inr ⟨_, .head h, rfl⟩

end Check

section Names

variable {options : Options}

theorem NameUse.decides_check (n : NameUse) : n.check.Decides options [.isVariable n] := by
  cases hn : n.meaning with
  | declared v =>
    have hiff : n.IsVariable ↔ v.index ≤ maxIndex := by simp [IsVariable, hn]
    refine Check.decides_singleton (fun h => ?_) (fun h => ?_)
    · simp only [check, hn]
      exact if_pos (hiff.1 h)
    · simp only [check, hn, Demand.error, fault]
      exact if_neg fun hle => h (hiff.2 hle)
  | className | subroutine =>
    refine Check.decides_singleton (fun h => ?_) (fun _ => ?_)
    · simp [Demand.Met, IsVariable, hn] at h
    · simp only [check, hn, Demand.error, fault, Check.refuse]

theorem Call.decides_checkReceiver (kind : SubroutineKind) (c : Call) :
    (Call.checkReceiver ⟨kind, options⟩ c).Decides options [.hasObject kind c] := by
  obtain ⟨_ | receiver, name, arguments, span⟩ := c
  · cases kind with
    | function =>
      refine Check.decides_singleton (fun h => ?_) (fun _ => rfl)
      simp [Demand.Met, HasObject] at h
    | constructor | method =>
      refine Check.decides_singleton (fun _ => rfl) (fun h => ?_)
      simp [Demand.Met, HasObject] at h
  · cases hr : receiver.meaning with
    | declared v =>
      cases htype : v.type with
      | object className =>
        have hiff : receiver.IsReceiver ↔ v.index ≤ maxIndex := by
          simp [NameUse.IsReceiver, hr, htype]
        refine Check.decides_singleton (fun h => ?_) (fun h => ?_)
        · simp only [checkReceiver, NameUse.checkReceiver, NameUse.check, hr, htype]
          exact if_pos (hiff.1 h)
        · simp only [checkReceiver, NameUse.checkReceiver, NameUse.check, hr, htype, Demand.error,
            NameUse.receiverFault]
          exact if_neg fun hle => h (hiff.2 hle)
      | int | char | boolean =>
        refine Check.decides_singleton (fun h => ?_) (fun _ => ?_)
        · simp [Demand.Met, HasObject, NameUse.IsReceiver, hr, htype] at h
        · simp only [checkReceiver, NameUse.checkReceiver, hr, htype, Check.refuse, Demand.error,
            NameUse.receiverFault]
    | className =>
      refine Check.decides_singleton (fun _ => ?_) (fun h => ?_)
      · simp only [checkReceiver, NameUse.checkReceiver, hr]
        rfl
      · simp [Demand.Met, HasObject, NameUse.IsReceiver, hr] at h
    | subroutine =>
      refine Check.decides_singleton (fun h => ?_) (fun _ => ?_)
      · simp [Demand.Met, HasObject, NameUse.IsReceiver, hr] at h
      · simp only [checkReceiver, NameUse.checkReceiver, hr, Check.refuse, Demand.error,
          NameUse.receiverFault]

theorem BinaryOp.decides_check (kind : SubroutineKind) (op : BinaryOp) (span : Span) :
    (op.check ⟨kind, options⟩ span).Decides options [.operator op span] := by
  by_cases hop : op = .mod
  · subst hop
    cases hroutine : options.moduloRoutine with
    | some routine =>
      exact Check.decides_singleton (fun _ => by simp [check, hroutine]; rfl)
        fun h => by simp [Demand.Met, hroutine] at h
    | none =>
      exact Check.decides_singleton (fun h => by simp [Demand.Met, hroutine] at h)
        fun _ => by simp [check, hroutine, Demand.error]
  · have hok : op.check ⟨kind, options⟩ span = .ok () := by
      cases op with
      | mod => exact absurd rfl hop
      | _ => rfl
    exact Check.decides_singleton (fun _ => hok) fun h => absurd (fun h' => absurd h' hop) h

end Names

section Trees

variable (options : Options) (kind : SubroutineKind)

mutual

/-- The check of an expression answers with the first of its demands that is not met. -/
theorem Expr.decides_check : ∀ e : Expr,
    (e.check ⟨kind, options⟩).Decides options (e.demands kind)
  | ⟨head, tail, _⟩ => by
    rw [Expr.check, Expr.demands]
    exact head.decides_check.bind (checkTail_decides tail)

theorem checkTail_decides : ∀ tail : List (BinaryOp × Term),
    (checkTail ⟨kind, options⟩ tail).Decides options (tailDemands kind tail)
  | [] => by
    rw [checkTail, tailDemands]
    exact Check.decides_nil
  | (op, t) :: tail => by
    rw [checkTail, tailDemands]
    exact t.decides_check.bind ((op.decides_check kind t.span).cons (checkTail_decides tail))

theorem Term.decides_check : ∀ t : Term,
    (t.check ⟨kind, options⟩).Decides options (t.demands kind)
  | .integer .. | .keyword .. => by
    rw [Term.check, Term.demands]
    exact Check.decides_nil
  | .string value span => by
    rw [Term.check, Term.demands]
    exact (Check.decides_fits _ _ span).cons (Check.decides_characters span _)
  | .var name => by
    rw [Term.check, Term.demands]
    exact name.decides_check
  | .element array index => by
    rw [Term.check, Term.demands]
    exact array.decides_check.cons index.decides_check
  | .call c => by
    rw [Term.check, Term.demands]
    exact c.decides_check
  | .group inner _ => by
    rw [Term.check, Term.demands]
    exact inner.decides_check
  | .unary _ operand _ => by
    rw [Term.check, Term.demands]
    exact operand.decides_check

theorem Call.decides_check : ∀ c : Call,
    (c.check ⟨kind, options⟩).Decides options (c.demands kind)
  | ⟨receiver, name, arguments, span⟩ => by
    rw [Call.check, Call.demands]
    exact (Check.decides_fits _ _ span).cons
      ((Call.decides_checkReceiver kind _).cons (checkArguments_decides arguments))

theorem checkArguments_decides : ∀ es : List Expr,
    (checkArguments ⟨kind, options⟩ es).Decides options (argumentsDemands kind es)
  | [] => by
    rw [checkArguments, argumentsDemands]
    exact Check.decides_nil
  | e :: es => by
    rw [checkArguments, argumentsDemands]
    exact e.decides_check.bind (checkArguments_decides es)

end

theorem checkOption_decides (e? : Option Expr) :
    (checkOption ⟨kind, options⟩ e?).Decides options (optionDemands kind e?) :=
  match e? with
  | none => Check.decides_nil
  | some e => e.decides_check options kind

mutual

theorem Statement.decides_check : ∀ s : Statement,
    (s.check ⟨kind, options⟩).Decides options (s.demands kind)
  | .assign target index value _ => by
    rw [Statement.check, Statement.demands]
    exact target.decides_check.cons
      ((checkOption_decides options kind index).bind (value.decides_check options kind))
  | .ifThen condition body _ | .whileLoop condition body _ => by
    rw [Statement.check, Statement.demands]
    exact (condition.decides_check options kind).bind (checkStatements_decides body)
  | .ifElse condition thenBody elseBody _ => by
    rw [Statement.check, Statement.demands]
    exact (condition.decides_check options kind).bind
      ((checkStatements_decides thenBody).bind (checkStatements_decides elseBody))
  | .doCall call _ => by
    rw [Statement.check, Statement.demands]
    exact call.decides_check options kind
  | .ret value _ => by
    rw [Statement.check, Statement.demands]
    exact checkOption_decides options kind value

/-- The check of statements answers with the first of their demands that is not met. -/
theorem checkStatements_decides : ∀ ss : List Statement,
    (checkStatements ⟨kind, options⟩ ss).Decides options (statementsDemands kind ss)
  | [] => by
    rw [checkStatements, statementsDemands]
    exact Check.decides_nil
  | s :: ss => by
    rw [checkStatements, statementsDemands]
    exact s.decides_check.bind (checkStatements_decides ss)

end

theorem SubroutineDec.decides_check (fields : Nat) (s : SubroutineDec) :
    (s.check options fields).Decides options (s.demands fields) := by
  have hstatements := checkStatements_decides options s.kind s.statements
  rw [check, demands, headerDemands]
  refine (Check.decides_fits _ _ _).cons ?_
  by_cases hkind : s.kind = .constructor
  · rw [if_pos hkind, if_pos hkind]
    exact (Check.decides_fits _ _ _).cons hstatements
  · rw [if_neg hkind, if_neg hkind]
    exact hstatements

/-- The check of a class answers with the first of its demands that is not met. -/
theorem checkSubroutines_decides (fields : Nat) (ss : List SubroutineDec) :
    (checkSubroutines options fields ss).Decides options (ss.flatMap (·.demands fields)) := by
  induction ss with
  | nil => exact Check.decides_nil
  | cons s ss ih =>
    rw [checkSubroutines, List.flatMap_cons]
    exact (s.decides_check options fields).bind ih

end Trees

/-! ### Demands of nodes -/

section Nodes

variable {ctx : BodyContext}

/-- All nodes within the node can be lowered. -/
def Node.LowerableWithin (ctx : BodyContext) (n : Node) : Prop :=
  ∀ m : Node, m.Within n → m.Lowerable ctx

theorem Node.lowerableWithin_iff {n : Node} :
    n.LowerableWithin ctx ↔ n.Lowerable ctx ∧ ∀ c ∈ n.children, c.LowerableWithin ctx :=
  forall_within_iff

@[simp] theorem Node.lowerableWithin_nameUse (n : NameUse) : (nameUse n).LowerableWithin ctx :=
  lowerableWithin_iff.2 ⟨trivial, List.forall_mem_nil _⟩

@[simp] theorem Node.lowerableWithin_ident (name : Ident) : (ident name).LowerableWithin ctx :=
  lowerableWithin_iff.2 ⟨trivial, List.forall_mem_nil _⟩

variable {options : Options} {kind : SubroutineKind}

mutual

/-- The demands of an expression are met exactly if all nodes in it can be lowered. -/
theorem Expr.met_demands_iff : ∀ e : Expr, (∀ d ∈ e.demands kind, d.Met options) ↔
    (Node.expr e).LowerableWithin ⟨kind, options⟩
  | ⟨head, tail, span⟩ => by
    refine Iff.trans ?_ Node.lowerableWithin_iff.symm
    rw [Expr.demands, List.forall_mem_append, head.met_demands_iff, met_tailDemands_iff tail]
    simp only [Node.Lowerable, Node.children, List.forall_mem_cons, List.forall_mem_map]
    exact ⟨fun ⟨hhead, htail⟩ => ⟨fun p hp => (htail p hp).2, hhead, fun p hp => (htail p hp).1⟩,
      fun ⟨hops, hhead, hterms⟩ => ⟨hhead, fun p hp => ⟨hterms p hp, hops p hp⟩⟩⟩

theorem met_tailDemands_iff : ∀ tail : List (BinaryOp × Term),
    (∀ d ∈ tailDemands kind tail, d.Met options) ↔
      ∀ p ∈ tail, (Node.term p.2).LowerableWithin ⟨kind, options⟩ ∧
        (p.1 = .mod → options.moduloRoutine.isSome)
  | [] => by simp [tailDemands]
  | (op, t) :: tail => by
    rw [tailDemands, List.forall_mem_append, List.forall_mem_cons, t.met_demands_iff,
      met_tailDemands_iff tail, List.forall_mem_cons, and_assoc]
    rfl

theorem Term.met_demands_iff : ∀ t : Term, (∀ d ∈ t.demands kind, d.Met options) ↔
    (Node.term t).LowerableWithin ⟨kind, options⟩
  | .integer .. | .string .. | .keyword .. | .var _ => by
    refine Iff.trans ?_ Node.lowerableWithin_iff.symm
    simp [Term.demands, Node.Lowerable, Node.children, Term.children, Demand.Met]
  | .element array index => by
    refine Iff.trans ?_ Node.lowerableWithin_iff.symm
    rw [Term.demands, List.forall_mem_cons, index.met_demands_iff]
    simp [Node.Lowerable, Node.children, Term.children, Demand.Met]
  | .call c => by
    refine Iff.trans ?_ Node.lowerableWithin_iff.symm
    rw [Term.demands, c.met_demands_iff]
    simp [Node.Lowerable, Node.children, Term.children]
  | .group inner _ => by
    refine Iff.trans ?_ Node.lowerableWithin_iff.symm
    rw [Term.demands, inner.met_demands_iff]
    simp [Node.Lowerable, Node.children, Term.children]
  | .unary _ operand _ => by
    refine Iff.trans ?_ Node.lowerableWithin_iff.symm
    rw [Term.demands, operand.met_demands_iff]
    simp [Node.Lowerable, Node.children, Term.children]

theorem Call.met_demands_iff : ∀ c : Call, (∀ d ∈ c.demands kind, d.Met options) ↔
    (Node.call c).LowerableWithin ⟨kind, options⟩
  | ⟨receiver, name, arguments, span⟩ => by
    refine Iff.trans ?_ Node.lowerableWithin_iff.symm
    rw [Call.demands, List.forall_mem_cons, List.forall_mem_cons, met_argumentsDemands_iff]
    simp only [Node.Lowerable, Node.children, Demand.Met, List.forall_mem_append,
      List.forall_mem_cons, List.forall_mem_map, Node.lowerableWithin_nameUse,
      Node.lowerableWithin_ident, implies_true, true_and, and_assoc]

theorem met_argumentsDemands_iff : ∀ es : List Expr,
    (∀ d ∈ argumentsDemands kind es, d.Met options) ↔
      ∀ e ∈ es, (Node.expr e).LowerableWithin ⟨kind, options⟩
  | [] => by simp [argumentsDemands]
  | e :: es => by
    rw [argumentsDemands, List.forall_mem_append, e.met_demands_iff, met_argumentsDemands_iff es,
      List.forall_mem_cons]

end

theorem met_optionDemands_iff (e? : Option Expr) :
    (∀ d ∈ optionDemands kind e?, d.Met options) ↔
      ∀ e ∈ e?.toList, (Node.expr e).LowerableWithin ⟨kind, options⟩ := by
  cases e? with
  | none => simp [optionDemands]
  | some e => simp [optionDemands, e.met_demands_iff]

mutual

theorem Statement.met_demands_iff : ∀ s : Statement, (∀ d ∈ s.demands kind, d.Met options) ↔
    (Node.statement s).LowerableWithin ⟨kind, options⟩
  | .assign target index value _ => by
    refine Iff.trans ?_ Node.lowerableWithin_iff.symm
    rw [Statement.demands, List.forall_mem_cons, List.forall_mem_append, met_optionDemands_iff,
      value.met_demands_iff]
    simp only [Node.Lowerable, Node.children, Statement.children, Demand.Met,
      List.forall_mem_append, List.forall_mem_cons, List.forall_mem_map, List.not_mem_nil,
      Node.lowerableWithin_nameUse, false_implies, implies_true, true_and, and_true]
  | .ifThen condition body _ | .whileLoop condition body _ => by
    refine Iff.trans ?_ Node.lowerableWithin_iff.symm
    rw [Statement.demands, List.forall_mem_append, condition.met_demands_iff,
      met_statementsDemands_iff body]
    simp only [Node.Lowerable, Node.children, Statement.children, List.forall_mem_cons,
      List.forall_mem_map, true_and]
  | .ifElse condition thenBody elseBody _ => by
    refine Iff.trans ?_ Node.lowerableWithin_iff.symm
    rw [Statement.demands, List.forall_mem_append, List.forall_mem_append,
      condition.met_demands_iff, met_statementsDemands_iff thenBody,
      met_statementsDemands_iff elseBody]
    simp only [Node.Lowerable, Node.children, Statement.children, List.forall_mem_cons,
      List.forall_mem_append, List.forall_mem_map, true_and]
  | .doCall call _ => by
    refine Iff.trans ?_ Node.lowerableWithin_iff.symm
    rw [Statement.demands, call.met_demands_iff]
    simp [Node.Lowerable, Node.children, Statement.children]
  | .ret value _ => by
    refine Iff.trans ?_ Node.lowerableWithin_iff.symm
    rw [Statement.demands, met_optionDemands_iff]
    simp only [Node.Lowerable, Node.children, Statement.children, List.forall_mem_map, true_and]

/-- The demands of statements are met exactly if all nodes in them can be lowered. -/
theorem met_statementsDemands_iff : ∀ ss : List Statement,
    (∀ d ∈ statementsDemands kind ss, d.Met options) ↔
      ∀ s ∈ ss, (Node.statement s).LowerableWithin ⟨kind, options⟩
  | [] => by simp [statementsDemands]
  | s :: ss => by
    rw [statementsDemands, List.forall_mem_append, s.met_demands_iff,
      met_statementsDemands_iff ss, List.forall_mem_cons]

end

theorem Node.lowerableWithin_varDec (d : VarDec) : (varDec d).LowerableWithin ctx := by
  refine lowerableWithin_iff.2 ⟨trivial, ?_⟩
  rw [children, List.forall_mem_map]
  exact fun name _ => lowerableWithin_ident name

theorem SubroutineDec.met_headerDemands_iff {fields : Nat} {s : SubroutineDec} :
    (∀ d ∈ s.headerDemands fields, d.Met options) ↔
      s.localCount ≤ maxIndex ∧ (s.kind = .constructor → fields ≤ maxIndex) := by
  rw [headerDemands, List.forall_mem_cons]
  by_cases hkind : s.kind = .constructor <;> simp [hkind, Demand.Met]

theorem SubroutineDec.met_demands_iff {fields : Nat} {s : SubroutineDec} :
    (∀ d ∈ s.demands fields, d.Met options) ↔ s.Lowerable options fields := by
  -- Of the nodes of a subroutine those in its statements alone can fail.
  have hnodes : (Node.subroutineDec s).LowerableWithin ⟨s.kind, options⟩ ↔
      ∀ st ∈ s.statements, (Node.statement st).LowerableWithin ⟨s.kind, options⟩ := by
    refine Node.lowerableWithin_iff.trans ?_
    simp only [Node.Lowerable, Node.children, List.forall_mem_cons, List.forall_mem_append,
      List.forall_mem_map, Node.lowerableWithin_ident, Node.lowerableWithin_varDec, implies_true,
      true_and]
  rw [demands, List.forall_mem_append, met_headerDemands_iff, met_statementsDemands_iff, ← hnodes]
  exact ⟨fun ⟨⟨hlocals, hfields⟩, hall⟩ => ⟨hlocals, hfields, hall⟩,
    fun h => ⟨⟨h.locals, h.fields⟩, h.nodes⟩⟩

/-- The demands of a class are met exactly if it can be lowered. -/
theorem ClassDec.met_demands_iff {fields : Nat} {c : ClassDec} :
    (∀ d ∈ c.demands fields, d.Met options) ↔ c.Lowerable options fields := by
  rw [demands, List.forall_mem_flatMap]
  exact forall₂_congr fun s _ => SubroutineDec.met_demands_iff

end Nodes

/-! ### Classes -/

/-- **A class has code exactly if it can be lowered**: the local variables of each subroutine, and
the fields if there is a constructor, are at most `maxIndex`; names that are read or assigned to are
variables with no larger an index; calls have no more arguments, and a receiver that can be called
on, or none in a constructor or a method; strings have no more characters, with no larger codes; and
`%` occurs only where a subroutine is configured for it.  **Otherwise the class is refused with the
error of its first unmet demand**, in the order in which its code is made. -/
theorem lower_decided (tree : ClassDec) (scope : Scope) (source : String) (options : Options) :
    ((∃ code, lower tree scope source options = .ok code) ↔
      tree.Lowerable options (scope.count .field)) ∧
    ∀ e, lower tree scope source options = .error e ↔
      ∃ d, FirstUnmet options (tree.demands (scope.count .field)) d ∧ e = d.error := by
  have hdecides : (checkSubroutines options (scope.count .field) tree.subroutines).Decides options
      (tree.demands (scope.count .field)) := checkSubroutines_decides options _ _
  constructor
  · rw [exists_lower_eq_ok_iff, hdecides.ok_iff, ClassDec.met_demands_iff]
  · intro e
    rw [lower_eq_error_iff, hdecides.error_iff]

end Jack

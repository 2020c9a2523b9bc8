import Jack.Proofs.NameUses
import Jack.Proofs.Unplaced

/-!
# Other names in the same places

`Expr.mapNames`, `Statement.mapNames` and the functions beside them put another name in each place
where a tree uses one.  Whether a tree has code, and which, does not change as long as each new name
is a variable in the same place and of the same type as the one before, whatever it is called, or
the same name if it is no variable (`KeepsCode`).

* `Expr.check_mapNames`, `checkStatements_mapNames` : a tree passes the checks with the new names if
  it did with the old ones, and only then;
* `Expr.listing_mapNames`, `statementsListing_mapNames` : it has the same code, but for comments;
* `bareStatements_mapNames` : names that are given their meaning by a function of their spelling
  need not have had any before.
-/

namespace Jack

/-! ### Putting names in their places -/

section Maps

variable (f : NameUse → NameUse)

mutual

/-- An expression with other names. -/
def Expr.mapNames : Expr → Expr
  | ⟨head, tail, span⟩ => ⟨head.mapNames, mapTailNames tail, span⟩

/-- Operators and their right-hand terms with other names. -/
def mapTailNames : List (BinaryOp × Term) → List (BinaryOp × Term)
  | [] => []
  | (op, t) :: tail => (op, t.mapNames) :: mapTailNames tail

/-- A term with other names. -/
def Term.mapNames : Term → Term
  | .integer value span => .integer value span
  | .string value span => .string value span
  | .keyword value span => .keyword value span
  | .var name => .var (f name)
  | .element array index => .element (f array) index.mapNames
  | .call call => .call call.mapNames
  | .group inner span => .group inner.mapNames span
  | .unary op operand span => .unary op operand.mapNames span

/-- A call with another receiver and other names in its arguments.  The called name stays. -/
def Call.mapNames : Call → Call
  | ⟨receiver, name, arguments, span⟩ =>
    ⟨receiver.map f, name, mapArgumentsNames arguments, span⟩

/-- Arguments with other names. -/
def mapArgumentsNames : List Expr → List Expr
  | [] => []
  | e :: es => e.mapNames :: mapArgumentsNames es

end

mutual

/-- A statement with other names. -/
def Statement.mapNames : Statement → Statement
  | .assign target index value span =>
    .assign (f target) (index.map (Expr.mapNames f)) (value.mapNames f) span
  | .ifThen condition body span => .ifThen (condition.mapNames f) (mapStatementsNames body) span
  | .ifElse condition thenBody elseBody span =>
    .ifElse (condition.mapNames f) (mapStatementsNames thenBody) (mapStatementsNames elseBody) span
  | .whileLoop condition body span =>
    .whileLoop (condition.mapNames f) (mapStatementsNames body) span
  | .doCall call span => .doCall (call.mapNames f) span
  | .ret value span => .ret (value.map (Expr.mapNames f)) span

/-- Statements with other names. -/
def mapStatementsNames : List Statement → List Statement
  | [] => []
  | s :: ss => s.mapNames :: mapStatementsNames ss

end

end Maps

section Shape

variable (f g : NameUse → NameUse)

theorem length_mapArgumentsNames (es : List Expr) :
    (mapArgumentsNames f es).length = es.length := by
  induction es with
  | nil => rfl
  | cons e es ih => rw [mapArgumentsNames, List.length_cons, ih, List.length_cons]

mutual

/-- Names that are put in place of names. -/
theorem Expr.mapNames_mapNames : ∀ e : Expr, (e.mapNames f).mapNames g = e.mapNames (g ∘ f)
  | ⟨head, tail, _⟩ => by
    simp only [Expr.mapNames, head.mapNames_mapNames, mapTailNames_mapTailNames tail]

theorem mapTailNames_mapTailNames : ∀ tail : List (BinaryOp × Term),
    mapTailNames g (mapTailNames f tail) = mapTailNames (g ∘ f) tail
  | [] => rfl
  | (op, t) :: tail => by
    simp only [mapTailNames, t.mapNames_mapNames, mapTailNames_mapTailNames tail]

theorem Term.mapNames_mapNames : ∀ t : Term, (t.mapNames f).mapNames g = t.mapNames (g ∘ f)
  | .integer _ _ | .string _ _ | .keyword _ _ | .var _ => rfl
  | .element _ index => by simp only [Term.mapNames, index.mapNames_mapNames, Function.comp_apply]
  | .call call => by simp only [Term.mapNames, call.mapNames_mapNames]
  | .group inner _ => by simp only [Term.mapNames, inner.mapNames_mapNames]
  | .unary _ operand _ => by simp only [Term.mapNames, operand.mapNames_mapNames]

theorem Call.mapNames_mapNames : ∀ c : Call, (c.mapNames f).mapNames g = c.mapNames (g ∘ f)
  | ⟨receiver, _, arguments, _⟩ => by
    simp only [Call.mapNames, Option.map_map, mapArgumentsNames_mapArgumentsNames arguments]

theorem mapArgumentsNames_mapArgumentsNames : ∀ es : List Expr,
    mapArgumentsNames g (mapArgumentsNames f es) = mapArgumentsNames (g ∘ f) es
  | [] => rfl
  | e :: es => by
    simp only [mapArgumentsNames, e.mapNames_mapNames, mapArgumentsNames_mapArgumentsNames es]

end

theorem map_mapNames_map_mapNames (e : Option Expr) :
    (e.map (Expr.mapNames f)).map (Expr.mapNames g) = e.map (Expr.mapNames (g ∘ f)) := by
  cases e with
  | none => rfl
  | some e => exact congrArg some (e.mapNames_mapNames f g)

mutual

theorem Statement.mapNames_mapNames : ∀ s : Statement,
    (s.mapNames f).mapNames g = s.mapNames (g ∘ f)
  | .assign _ index value _ => by
    simp only [Statement.mapNames, map_mapNames_map_mapNames, value.mapNames_mapNames,
      Function.comp_apply]
  | .ifThen condition body _ | .whileLoop condition body _ => by
    simp only [Statement.mapNames, condition.mapNames_mapNames,
      mapStatementsNames_mapStatementsNames body]
  | .ifElse condition thenBody elseBody _ => by
    simp only [Statement.mapNames, condition.mapNames_mapNames,
      mapStatementsNames_mapStatementsNames thenBody,
      mapStatementsNames_mapStatementsNames elseBody]
  | .doCall call _ => by simp only [Statement.mapNames, call.mapNames_mapNames]
  | .ret value _ => by simp only [Statement.mapNames, map_mapNames_map_mapNames]

theorem mapStatementsNames_mapStatementsNames : ∀ ss : List Statement,
    mapStatementsNames g (mapStatementsNames f ss) = mapStatementsNames (g ∘ f) ss
  | [] => rfl
  | s :: ss => by
    simp only [mapStatementsNames, s.mapNames_mapNames, mapStatementsNames_mapStatementsNames ss]

end

mutual

/-- Other names do not change the depth of a tree. -/
theorem Expr.nesting_mapNames : ∀ e : Expr, (e.mapNames f).nesting = e.nesting
  | ⟨head, tail, _⟩ => by
    simp only [Expr.mapNames, Expr.nesting, head.nesting_mapNames, tailNesting_mapTailNames tail]

theorem tailNesting_mapTailNames : ∀ tail : List (BinaryOp × Term),
    tailNesting (mapTailNames f tail) = tailNesting tail
  | [] => rfl
  | (op, t) :: tail => by
    simp only [mapTailNames, tailNesting, t.nesting_mapNames, tailNesting_mapTailNames tail]

theorem Term.nesting_mapNames : ∀ t : Term, (t.mapNames f).nesting = t.nesting
  | .integer _ _ | .string _ _ | .keyword _ _ | .var _ => rfl
  | .element _ index => by simp only [Term.mapNames, Term.nesting, index.nesting_mapNames]
  | .call call => by simp only [Term.mapNames, Term.nesting, call.nesting_mapNames]
  | .group inner _ => by simp only [Term.mapNames, Term.nesting, inner.nesting_mapNames]
  | .unary _ operand _ => by simp only [Term.mapNames, Term.nesting, operand.nesting_mapNames]

theorem Call.nesting_mapNames : ∀ c : Call, (c.mapNames f).nesting = c.nesting
  | ⟨_, _, arguments, _⟩ => by
    simp only [Call.mapNames, Call.nesting, argumentsNesting_mapArgumentsNames arguments]

theorem argumentsNesting_mapArgumentsNames : ∀ es : List Expr,
    argumentsNesting (mapArgumentsNames f es) = argumentsNesting es
  | [] => rfl
  | e :: es => by
    simp only [mapArgumentsNames, argumentsNesting, e.nesting_mapNames,
      argumentsNesting_mapArgumentsNames es]

end

theorem optionNesting_map_mapNames (e : Option Expr) :
    optionNesting (e.map (Expr.mapNames f)) = optionNesting e := by
  cases e with
  | none => rfl
  | some e => exact e.nesting_mapNames f

mutual

theorem Statement.nesting_mapNames : ∀ s : Statement, (s.mapNames f).nesting = s.nesting
  | .assign _ index value _ => by
    simp only [Statement.mapNames, Statement.nesting, optionNesting_map_mapNames,
      value.nesting_mapNames]
  | .ifThen condition body _ | .whileLoop condition body _ => by
    simp only [Statement.mapNames, Statement.nesting, condition.nesting_mapNames,
      statementsNesting_mapStatementsNames body]
  | .ifElse condition thenBody elseBody _ => by
    simp only [Statement.mapNames, Statement.nesting, condition.nesting_mapNames,
      statementsNesting_mapStatementsNames thenBody, statementsNesting_mapStatementsNames elseBody]
  | .doCall call _ => by simp only [Statement.mapNames, Statement.nesting, call.nesting_mapNames]
  | .ret value _ => by
    simp only [Statement.mapNames, Statement.nesting, optionNesting_map_mapNames]

theorem statementsNesting_mapStatementsNames : ∀ ss : List Statement,
    statementsNesting (mapStatementsNames f ss) = statementsNesting ss
  | [] => rfl
  | s :: ss => by
    simp only [mapStatementsNames, statementsNesting, s.nesting_mapNames,
      statementsNesting_mapStatementsNames ss]

end

/-- A terminal whose spelling does not count if it is a name. -/
def Terminal.nameless : Terminal → Terminal
  | .identifier _ => .identifier ""
  | w => w

theorem map_nameless_withCommas (pieces : List (List Terminal)) :
    (withCommas pieces).map Terminal.nameless =
      withCommas (pieces.map (List.map Terminal.nameless)) := by
  cases pieces with
  | nil => rfl
  | cons piece pieces =>
    simp [withCommas, List.map_flatMap, List.flatMap_map, Terminal.nameless]

mutual

/-- Other names stand for names. -/
theorem Expr.nameless_terminals : ∀ e : Expr,
    (e.mapNames f).terminals.map Terminal.nameless = e.terminals.map Terminal.nameless
  | ⟨head, tail, _⟩ => by
    simp only [Expr.mapNames, Expr.terminals, List.map_append, head.nameless_terminals,
      nameless_tailTerminals tail]

theorem nameless_tailTerminals : ∀ tail : List (BinaryOp × Term),
    (tailTerminals (mapTailNames f tail)).map Terminal.nameless =
      (tailTerminals tail).map Terminal.nameless
  | [] => rfl
  | (op, t) :: tail => by
    simp only [mapTailNames, tailTerminals, List.map_cons, List.map_append, t.nameless_terminals,
      nameless_tailTerminals tail]

theorem Term.nameless_terminals : ∀ t : Term,
    (t.mapNames f).terminals.map Terminal.nameless = t.terminals.map Terminal.nameless
  | .integer _ _ | .string _ _ | .keyword _ _ | .var _ => rfl
  | .element _ index => by
    simp only [Term.mapNames, Term.terminals, List.map_cons, List.map_append,
      index.nameless_terminals, Terminal.nameless]
  | .call call => call.nameless_terminals
  | .group inner _ => by
    simp only [Term.mapNames, Term.terminals, List.map_cons, List.map_append,
      inner.nameless_terminals]
  | .unary _ operand _ => by
    simp only [Term.mapNames, Term.terminals, List.map_cons, operand.nameless_terminals]

theorem Call.nameless_terminals : ∀ c : Call,
    (c.mapNames f).terminals.map Terminal.nameless = c.terminals.map Terminal.nameless
  | ⟨receiver, name, arguments, _⟩ => by
    simp only [Call.mapNames, Call.terminals, List.map_cons, List.map_append,
      map_nameless_withCommas, nameless_argumentsTerminals arguments]
    cases receiver <;> rfl

theorem nameless_argumentsTerminals : ∀ es : List Expr,
    (argumentsTerminals (mapArgumentsNames f es)).map (List.map Terminal.nameless) =
      (argumentsTerminals es).map (List.map Terminal.nameless)
  | [] => rfl
  | e :: es => by
    simp only [mapArgumentsNames, argumentsTerminals, List.map_cons, e.nameless_terminals,
      nameless_argumentsTerminals es]

end

theorem nameless_indexTerminals (e : Option Expr) :
    (indexTerminals (e.map (Expr.mapNames f))).map Terminal.nameless =
      (indexTerminals e).map Terminal.nameless := by
  cases e with
  | none => rfl
  | some e =>
    simp only [Option.map_some, indexTerminals, List.map_cons, List.map_append,
      e.nameless_terminals]

theorem nameless_valueTerminals (e : Option Expr) :
    (valueTerminals (e.map (Expr.mapNames f))).map Terminal.nameless =
      (valueTerminals e).map Terminal.nameless := by
  cases e with
  | none => rfl
  | some e => exact e.nameless_terminals f

mutual

theorem Statement.nameless_terminals : ∀ s : Statement,
    (s.mapNames f).terminals.map Terminal.nameless = s.terminals.map Terminal.nameless
  | .assign _ index value _ => by
    simp only [Statement.mapNames, Statement.terminals, List.map_cons, List.map_append,
      nameless_indexTerminals, value.nameless_terminals, Terminal.nameless]
  | .ifThen condition body _ | .whileLoop condition body _ => by
    simp only [Statement.mapNames, Statement.terminals, List.map_cons, List.map_append,
      condition.nameless_terminals, nameless_statementsTerminals body]
  | .ifElse condition thenBody elseBody _ => by
    simp only [Statement.mapNames, Statement.terminals, List.map_cons, List.map_append,
      condition.nameless_terminals, nameless_statementsTerminals thenBody,
      nameless_statementsTerminals elseBody]
  | .doCall call _ => by
    simp only [Statement.mapNames, Statement.terminals, List.map_cons, List.map_append,
      call.nameless_terminals]
  | .ret value _ => by
    simp only [Statement.mapNames, Statement.terminals, List.map_cons, List.map_append,
      nameless_valueTerminals]

theorem nameless_statementsTerminals : ∀ ss : List Statement,
    (statementsTerminals (mapStatementsNames f ss)).map Terminal.nameless =
      (statementsTerminals ss).map Terminal.nameless
  | [] => rfl
  | s :: ss => by
    simp only [mapStatementsNames, statementsTerminals, List.map_append, s.nameless_terminals,
      nameless_statementsTerminals ss]

end

end Shape

/-! ### Names with a meaning -/

/-- The name with the meaning that its spelling has. -/
def NameUse.resolve (meaning : String → Meaning) (n : NameUse) : NameUse :=
  ⟨n.name, n.span, meaning n.name⟩

section Meanings

variable (meaning : String → Meaning)

mutual

/-- It does not matter whether names had a meaning before they are given one. -/
theorem Expr.bare_mapNames : ∀ e : Expr,
    e.bare.mapNames (.resolve meaning) = (e.mapNames (.resolve meaning)).unplaced
  | ⟨head, tail, _⟩ => by
    simp only [Expr.bare, Expr.mapNames, Expr.unplaced, head.bare_mapNames,
      bareTail_mapTailNames tail]

theorem bareTail_mapTailNames : ∀ tail : List (BinaryOp × Term),
    mapTailNames (.resolve meaning) (bareTail tail) =
      unplacedTail (mapTailNames (.resolve meaning) tail)
  | [] => rfl
  | (op, t) :: tail => by
    simp only [bareTail, mapTailNames, unplacedTail, t.bare_mapNames, bareTail_mapTailNames tail]

theorem Term.bare_mapNames : ∀ t : Term,
    t.bare.mapNames (.resolve meaning) = (t.mapNames (.resolve meaning)).unplaced
  | .integer _ _ | .string _ _ | .keyword _ _ | .var _ => rfl
  | .element array index => by
    simp only [Term.bare, Term.mapNames, Term.unplaced, index.bare_mapNames]
    rfl
  | .call call => by simp only [Term.bare, Term.mapNames, Term.unplaced, call.bare_mapNames]
  | .group inner _ => by simp only [Term.bare, Term.mapNames, Term.unplaced, inner.bare_mapNames]
  | .unary _ operand _ => by
    simp only [Term.bare, Term.mapNames, Term.unplaced, operand.bare_mapNames]

theorem Call.bare_mapNames : ∀ c : Call,
    c.bare.mapNames (.resolve meaning) = (c.mapNames (.resolve meaning)).unplaced
  | ⟨receiver, _, arguments, _⟩ => by
    simp only [Call.bare, Call.mapNames, Call.unplaced, bareArguments_mapArgumentsNames arguments]
    cases receiver <;> rfl

theorem bareArguments_mapArgumentsNames : ∀ es : List Expr,
    mapArgumentsNames (.resolve meaning) (bareArguments es) =
      unplacedArguments (mapArgumentsNames (.resolve meaning) es)
  | [] => rfl
  | e :: es => by
    simp only [bareArguments, mapArgumentsNames, unplacedArguments, e.bare_mapNames,
      bareArguments_mapArgumentsNames es]

end

theorem map_bare_map_mapNames (e : Option Expr) :
    (e.map Expr.bare).map (Expr.mapNames (.resolve meaning)) =
      (e.map (Expr.mapNames (.resolve meaning))).map Expr.unplaced := by
  cases e with
  | none => rfl
  | some e => exact congrArg some (e.bare_mapNames meaning)

mutual

theorem Statement.bare_mapNames : ∀ s : Statement,
    s.bare.mapNames (.resolve meaning) = (s.mapNames (.resolve meaning)).unplaced
  | .assign target index value _ => by
    simp only [Statement.bare, Statement.mapNames, Statement.unplaced, map_bare_map_mapNames,
      value.bare_mapNames]
    rfl
  | .ifThen condition body _ | .whileLoop condition body _ => by
    simp only [Statement.bare, Statement.mapNames, Statement.unplaced, condition.bare_mapNames,
      bareStatements_mapNames body]
  | .ifElse condition thenBody elseBody _ => by
    simp only [Statement.bare, Statement.mapNames, Statement.unplaced, condition.bare_mapNames,
      bareStatements_mapNames thenBody, bareStatements_mapNames elseBody]
  | .doCall call _ => by
    simp only [Statement.bare, Statement.mapNames, Statement.unplaced, call.bare_mapNames]
  | .ret value _ => by
    simp only [Statement.bare, Statement.mapNames, Statement.unplaced, map_bare_map_mapNames]

theorem bareStatements_mapNames : ∀ ss : List Statement,
    mapStatementsNames (.resolve meaning) (bareStatements ss) =
      unplacedStatements (mapStatementsNames (.resolve meaning) ss)
  | [] => rfl
  | s :: ss => by
    simp only [bareStatements, mapStatementsNames, unplacedStatements, s.bare_mapNames,
      bareStatements_mapNames ss]

end

end Meanings

/-! ### Names with the same code -/

namespace NameUse

/-- What the code of a name depends on: of a variable all but what it is called, of another name
the spelling. -/
def anonymous (n : NameUse) : NameUse :=
  match n.meaning with
  | .declared v => ⟨"", .empty 0, .declared { v with name := "" }⟩
  | meaning => ⟨n.name, .empty 0, meaning⟩

@[simp] theorem operand_anonymous (n : NameUse) : n.anonymous.operand = n.operand := by
  obtain ⟨name, span, v | _ | _⟩ := n <;> rfl

theorem check_anonymous (n : NameUse) : n.anonymous.check = .ok () ↔ n.check = .ok () := by
  obtain ⟨name, span, v | _ | _⟩ := n
  · exact Check.fits_eq_ok_iff.trans Check.fits_eq_ok_iff.symm
  · simp [anonymous, check, Check.refuse]
  · simp [anonymous, check, Check.refuse]

theorem checkReceiver_anonymous (n : NameUse) :
    n.anonymous.checkReceiver = .ok () ↔ n.checkReceiver = .ok () := by
  obtain ⟨name, span, ⟨v, type, storage, index⟩ | _ | _⟩ := n
  · cases type with
    | object className => exact Check.fits_eq_ok_iff.trans Check.fits_eq_ok_iff.symm
    | _ => simp [anonymous, checkReceiver, Check.refuse]
  · exact Iff.rfl
  · simp [anonymous, checkReceiver, Check.refuse]

end NameUse

/-- Each of the names is replaced by one that has the same code. -/
def KeepsCode (f : NameUse → NameUse) (names : List NameUse) : Prop :=
  ∀ n ∈ names, (f n).anonymous = n.anonymous

section KeepsCode

variable {f : NameUse → NameUse} {names names' : List NameUse} {n : NameUse}

@[simp] theorem keepsCode_cons :
    KeepsCode f (n :: names) ↔ (f n).anonymous = n.anonymous ∧ KeepsCode f names :=
  List.forall_mem_cons

@[simp] theorem keepsCode_append :
    KeepsCode f (names ++ names') ↔ KeepsCode f names ∧ KeepsCode f names' :=
  List.forall_mem_append

theorem NameUse.operand_congr {n' : NameUse} (h : n'.anonymous = n.anonymous) :
    n'.operand = n.operand := by
  rw [← n'.operand_anonymous, h, n.operand_anonymous]

theorem NameUse.pushed_congr {n' : NameUse} (h : n'.anonymous = n.anonymous) :
    n'.pushed = n.pushed := by
  rw [pushed, pushed, operand_congr h]

theorem NameUse.popped_congr {n' : NameUse} (h : n'.anonymous = n.anonymous) :
    n'.popped = n.popped := by
  rw [popped, popped, operand_congr h]

theorem NameUse.check_congr {n' : NameUse} (h : n'.anonymous = n.anonymous) :
    n'.check = .ok () ↔ n.check = .ok () := by
  rw [← n'.check_anonymous, h, n.check_anonymous]

theorem NameUse.checkReceiver_congr {n' : NameUse} (h : n'.anonymous = n.anonymous) :
    n'.checkReceiver = .ok () ↔ n.checkReceiver = .ok () := by
  rw [← n'.checkReceiver_anonymous, h, n.checkReceiver_anonymous]

end KeepsCode

section Checks

variable {f : NameUse → NameUse} (ctx : BodyContext)

theorem Call.checkReceiver_mapNames (c : Call) (h : KeepsCode f c.receiver.toList) :
    (c.mapNames f).checkReceiver ctx = .ok () ↔ c.checkReceiver ctx = .ok () := by
  obtain ⟨_ | receiver, name, arguments, span⟩ := c
  · exact Iff.rfl
  · exact NameUse.checkReceiver_congr (keepsCode_cons.1 h).1

mutual

/-- An expression passes the checks with names that have the same code, and only then. -/
theorem Expr.check_mapNames : ∀ e : Expr, KeepsCode f e.nameUses →
    ((e.mapNames f).check ctx = .ok () ↔ e.check ctx = .ok ())
  | ⟨head, tail, _⟩, h => by
    rw [Expr.nameUses, keepsCode_append] at h
    simp only [Expr.mapNames, Expr.check, Check.bind_eq_ok_iff, head.check_mapNames h.1,
      checkTail_mapTailNames tail h.2]

theorem checkTail_mapTailNames : ∀ tail : List (BinaryOp × Term), KeepsCode f (tailNameUses tail) →
    (checkTail ctx (mapTailNames f tail) = .ok () ↔ checkTail ctx tail = .ok ())
  | [], _ => Iff.rfl
  | (op, t) :: tail, h => by
    rw [tailNameUses, keepsCode_append] at h
    have hop : op.check ctx (t.mapNames f).span = .ok () ↔ op.check ctx t.span = .ok () := by
      cases op with
      | mod =>
        simp only [BinaryOp.check]
        split <;> simp
      | _ => exact Iff.rfl
    simp only [mapTailNames, checkTail, Check.bind_eq_ok_iff, t.check_mapNames h.1, hop,
      checkTail_mapTailNames tail h.2]

theorem Term.check_mapNames : ∀ t : Term, KeepsCode f t.nameUses →
    ((t.mapNames f).check ctx = .ok () ↔ t.check ctx = .ok ())
  | .integer _ _, _ | .string _ _, _ | .keyword _ _, _ => Iff.rfl
  | .var name, h => NameUse.check_congr (keepsCode_cons.1 h).1
  | .element array index, h => by
    rw [Term.nameUses, keepsCode_cons] at h
    simp only [Term.mapNames, Term.check, Check.bind_eq_ok_iff, NameUse.check_congr h.1,
      index.check_mapNames h.2]
  | .call call, h => by simpa only [Term.mapNames, Term.check] using call.check_mapNames h
  | .group inner _, h => by simpa only [Term.mapNames, Term.check] using inner.check_mapNames h
  | .unary _ operand _, h => by
    simpa only [Term.mapNames, Term.check] using operand.check_mapNames h

theorem Call.check_mapNames : ∀ c : Call, KeepsCode f c.nameUses →
    ((c.mapNames f).check ctx = .ok () ↔ c.check ctx = .ok ())
  | ⟨receiver, name, arguments, span⟩, h => by
    rw [Call.nameUses, keepsCode_append] at h
    have hreceiver := Call.checkReceiver_mapNames ctx ⟨receiver, name, arguments, span⟩ h.1
    rw [Call.mapNames] at hreceiver ⊢
    simp only [Call.check, Check.bind_eq_ok_iff, length_mapArgumentsNames, hreceiver,
      checkArguments_mapArgumentsNames arguments h.2]

theorem checkArguments_mapArgumentsNames : ∀ es : List Expr, KeepsCode f (argumentsNameUses es) →
    (checkArguments ctx (mapArgumentsNames f es) = .ok () ↔ checkArguments ctx es = .ok ())
  | [], _ => Iff.rfl
  | e :: es, h => by
    rw [argumentsNameUses, keepsCode_append] at h
    simp only [mapArgumentsNames, checkArguments, Check.bind_eq_ok_iff, e.check_mapNames h.1,
      checkArguments_mapArgumentsNames es h.2]

end

theorem checkOption_map_mapNames (e : Option Expr) (h : KeepsCode f (optionNameUses e)) :
    checkOption ctx (e.map (Expr.mapNames f)) = .ok () ↔ checkOption ctx e = .ok () := by
  cases e with
  | none => exact Iff.rfl
  | some e => exact e.check_mapNames ctx h

mutual

theorem Statement.check_mapNames : ∀ s : Statement, KeepsCode f s.nameUses →
    ((s.mapNames f).check ctx = .ok () ↔ s.check ctx = .ok ())
  | .assign target index value _, h => by
    rw [Statement.nameUses, keepsCode_cons, keepsCode_append] at h
    simp only [Statement.mapNames, Statement.check, Check.bind_eq_ok_iff, NameUse.check_congr h.1,
      checkOption_map_mapNames ctx index h.2.1, value.check_mapNames ctx h.2.2]
  | .ifThen condition body _, h | .whileLoop condition body _, h => by
    rw [Statement.nameUses, keepsCode_append] at h
    simp only [Statement.mapNames, Statement.check, Check.bind_eq_ok_iff,
      condition.check_mapNames ctx h.1, checkStatements_mapNames body h.2]
  | .ifElse condition thenBody elseBody _, h => by
    rw [Statement.nameUses, keepsCode_append, keepsCode_append] at h
    simp only [Statement.mapNames, Statement.check, Check.bind_eq_ok_iff,
      condition.check_mapNames ctx h.1, checkStatements_mapNames thenBody h.2.1,
      checkStatements_mapNames elseBody h.2.2]
  | .doCall call _, h => by
    simpa only [Statement.mapNames, Statement.check] using call.check_mapNames ctx h
  | .ret value _, h => by
    simpa only [Statement.mapNames, Statement.check] using checkOption_map_mapNames ctx value h

/-- Statements pass the checks with names that have the same code, and only then. -/
theorem checkStatements_mapNames : ∀ ss : List Statement, KeepsCode f (statementsNameUses ss) →
    (checkStatements ctx (mapStatementsNames f ss) = .ok () ↔ checkStatements ctx ss = .ok ())
  | [], _ => Iff.rfl
  | s :: ss, h => by
    rw [statementsNameUses, keepsCode_append] at h
    simp only [mapStatementsNames, checkStatements, Check.bind_eq_ok_iff, s.check_mapNames h.1,
      checkStatements_mapNames ss h.2]

end

end Checks

section Code

variable {f : NameUse → NameUse} (ctx : CodeContext)

/-- A call uses of its receiver what the code of a name depends on. -/
theorem Call.receiver_anonymous (className : String) (c : Call) :
    (⟨c.receiver.map NameUse.anonymous, c.name, c.arguments, c.span⟩ : Call).receiverInstructions =
        c.receiverInstructions ∧
      (⟨c.receiver.map NameUse.anonymous, c.name, c.arguments, c.span⟩ : Call).owner className =
        c.owner className := by
  obtain ⟨_ | ⟨name, span, v | _ | _⟩, callee, arguments, span'⟩ := c <;> exact ⟨rfl, rfl⟩

theorem Call.receiver_mapNames (className : String) (c : Call)
    (h : KeepsCode f c.receiver.toList) :
    (c.mapNames f).receiverInstructions = c.receiverInstructions ∧
      (c.mapNames f).instruction className = c.instruction className := by
  have hmapped := (c.mapNames f).receiver_anonymous className
  have horiginal := c.receiver_anonymous className
  have hreceiver : (c.mapNames f).receiver.map NameUse.anonymous =
      c.receiver.map NameUse.anonymous := by
    obtain ⟨_ | receiver, name, arguments, span⟩ := c
    · rfl
    · exact congrArg some (keepsCode_cons.1 h).1
  rw [hreceiver] at hmapped
  have hinstructions : (c.mapNames f).receiverInstructions = c.receiverInstructions :=
    hmapped.1.symm.trans horiginal.1
  have howner : (c.mapNames f).owner className = c.owner className :=
    hmapped.2.symm.trans horiginal.2
  refine ⟨hinstructions, ?_⟩
  obtain ⟨receiver, name, arguments, span⟩ := c
  rw [instruction, instruction, hinstructions, howner]
  simp only [mapNames, length_mapArgumentsNames]

mutual

/-- An expression has the same code with names that have the same code. -/
theorem Expr.listing_mapNames : ∀ e : Expr, KeepsCode f e.nameUses →
    (e.mapNames f).listing ctx = e.listing ctx
  | ⟨head, tail, _⟩, h => by
    rw [Expr.nameUses, keepsCode_append] at h
    rw [Expr.mapNames, Expr.listing_mk, Expr.listing_mk, head.listing_mapNames h.1,
      tailListing_mapTailNames tail h.2]

theorem tailListing_mapTailNames : ∀ tail : List (BinaryOp × Term),
    KeepsCode f (tailNameUses tail) → tailListing ctx (mapTailNames f tail) = tailListing ctx tail
  | [], _ => rfl
  | (op, t) :: tail, h => by
    rw [tailNameUses, keepsCode_append] at h
    rw [mapTailNames, tailListing_cons, tailListing_cons, t.listing_mapNames h.1,
      tailListing_mapTailNames tail h.2]

theorem Term.listing_mapNames : ∀ t : Term, KeepsCode f t.nameUses →
    (t.mapNames f).listing ctx = t.listing ctx
  | .integer _ _, _ | .string _ _, _ | .keyword _ _, _ => rfl
  | .var name, h => by
    simp only [Term.mapNames, Term.listing_var, NameUse.pushed_congr (keepsCode_cons.1 h).1]
  | .element array index, h => by
    rw [Term.nameUses, keepsCode_cons] at h
    simp only [Term.mapNames, Term.listing_element, NameUse.pushed_congr h.1,
      index.listing_mapNames h.2]
  | .call call, h => by simpa only [Term.mapNames, Term.listing_call] using call.listing_mapNames h
  | .group inner _, h => by
    simpa only [Term.mapNames, Term.listing_group] using inner.listing_mapNames h
  | .unary _ operand _, h => by
    rw [Term.nameUses] at h
    simp only [Term.mapNames, Term.listing_unary, operand.listing_mapNames h]

theorem Call.listing_mapNames : ∀ c : Call, KeepsCode f c.nameUses →
    (c.mapNames f).listing ctx = c.listing ctx
  | ⟨receiver, name, arguments, span⟩, h => by
    rw [Call.nameUses, keepsCode_append] at h
    obtain ⟨hinstructions, hinstruction⟩ :=
      Call.receiver_mapNames ctx.className ⟨receiver, name, arguments, span⟩ h.1
    rw [Call.listing_eq, Call.listing_eq, hinstructions, hinstruction]
    simp only [Call.mapNames, argumentsListing_mapArgumentsNames arguments h.2]

theorem argumentsListing_mapArgumentsNames : ∀ es : List Expr,
    KeepsCode f (argumentsNameUses es) →
      argumentsListing ctx (mapArgumentsNames f es) = argumentsListing ctx es
  | [], _ => rfl
  | e :: es, h => by
    rw [argumentsNameUses, keepsCode_append] at h
    rw [mapArgumentsNames, argumentsListing_cons, argumentsListing_cons, e.listing_mapNames h.1,
      argumentsListing_mapArgumentsNames es h.2]

end

theorem assignListing_mapNames {target : NameUse} {index : Option Expr} {value : Expr}
    (h : KeepsCode f (target :: (optionNameUses index ++ value.nameUses))) :
    assignListing ctx (f target) (index.map (Expr.mapNames f)) (value.mapNames f) =
      assignListing ctx target index value := by
  rw [keepsCode_cons, keepsCode_append] at h
  cases index with
  | none =>
    simp only [assignListing, Option.map_none, value.listing_mapNames ctx h.2.2,
      NameUse.popped_congr h.1]
  | some index =>
    simp only [assignListing, Option.map_some, value.listing_mapNames ctx h.2.2,
      index.listing_mapNames ctx h.2.1, NameUse.pushed_congr h.1]

theorem returnListing_mapNames {value : Option Expr} (h : KeepsCode f (optionNameUses value)) :
    returnListing ctx (value.map (Expr.mapNames f)) = returnListing ctx value := by
  cases value with
  | none => rfl
  | some value => simp only [returnListing, Option.map_some, value.listing_mapNames ctx h]

mutual

theorem Statement.labelsAfter_mapNames (f : NameUse → NameUse) :
    ∀ (s : Statement) (labels : LabelSupply),
      (s.mapNames f).labelsAfter labels = s.labelsAfter labels
  | .assign .., _ | .doCall .., _ | .ret .., _ => rfl
  | .ifThen _ body _, _ | .whileLoop _ body _, _ => by
    simp only [Statement.mapNames, Statement.labelsAfter, statementsLabelsAfter_mapNames f body]
  | .ifElse _ thenBody elseBody _, _ => by
    simp only [Statement.mapNames, Statement.labelsAfter,
      statementsLabelsAfter_mapNames f thenBody, statementsLabelsAfter_mapNames f elseBody]

theorem statementsLabelsAfter_mapNames (f : NameUse → NameUse) :
    ∀ (ss : List Statement) (labels : LabelSupply),
      statementsLabelsAfter (mapStatementsNames f ss) labels = statementsLabelsAfter ss labels
  | [], _ => rfl
  | s :: ss, _ => by
    rw [mapStatementsNames, statementsLabelsAfter, statementsLabelsAfter,
      s.labelsAfter_mapNames f, statementsLabelsAfter_mapNames f ss]

end

mutual

theorem Statement.listing_mapNames : ∀ s : Statement, KeepsCode f s.nameUses →
    ∀ labels, uncommented ((s.mapNames f).listing ctx labels) = uncommented (s.listing ctx labels)
  | .assign target index value _, h, labels => by
    rw [Statement.mapNames, Statement.listing_assign, Statement.listing_assign,
      assignListing_mapNames ctx h]
  | .ifThen condition body _, h, labels => by
    rw [Statement.nameUses, keepsCode_append] at h
    simp only [Statement.mapNames, Statement.listing_ifThen, condition.listing_mapNames ctx h.1,
      uncommented_append, uncommented_cons, statementsListing_mapNames body h.2]
  | .ifElse condition thenBody elseBody _, h, labels => by
    rw [Statement.nameUses, keepsCode_append, keepsCode_append] at h
    simp only [Statement.mapNames, Statement.listing_ifElse, condition.listing_mapNames ctx h.1,
      uncommented_append, uncommented_cons, statementsListing_mapNames thenBody h.2.1,
      statementsLabelsAfter_mapNames, statementsListing_mapNames elseBody h.2.2]
  | .whileLoop condition body _, h, labels => by
    rw [Statement.nameUses, keepsCode_append] at h
    simp only [Statement.mapNames, Statement.listing_whileLoop, condition.listing_mapNames ctx h.1,
      uncommented_append, uncommented_cons, statementsListing_mapNames body h.2]
  | .doCall call _, h, labels => by
    rw [Statement.mapNames, Statement.listing_doCall, Statement.listing_doCall,
      call.listing_mapNames ctx h]
  | .ret value _, h, labels => by
    rw [Statement.mapNames, Statement.listing_ret, Statement.listing_ret,
      returnListing_mapNames ctx h]

/-- Statements have the same code with names that have the same code, but for comments. -/
theorem statementsListing_mapNames : ∀ ss : List Statement, KeepsCode f (statementsNameUses ss) →
    ∀ labels, uncommented (statementsListing ctx labels (mapStatementsNames f ss)) =
      uncommented (statementsListing ctx labels ss)
  | [], _, labels => rfl
  | s :: ss, h, labels => by
    rw [statementsNameUses, keepsCode_append] at h
    simp only [mapStatementsNames, statementsListing_cons, uncommented_append,
      Statement.uncommented_comment, s.listing_mapNames h.1, s.labelsAfter_mapNames f,
      statementsListing_mapNames ss h.2]

end

end Code

end Jack

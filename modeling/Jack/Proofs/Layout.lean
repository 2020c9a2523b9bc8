import Jack.Compile
import Jack.Proofs.Unplaced

/-!
# Layout

Blanks and comments decide where the tokens of a text stand, and nothing else.  A parser passes
ranges on into its answer and never asks for one: `Parser.Erases p q f` says that `q` does on tokens
without ranges what `p` does on the tokens with them, where `f` takes the ranges away from an
answer.  Every production has the property, with itself or with itself started at offset zero.

* `Parser.erases_expression`, `Parser.erases_statements`, `Parser.erases_classDec` : the productions
  do not look at ranges;
* `parse_unplaced` : neither does the parser as a whole;
* `compileUnit_of_same_tokens` : **two texts with the same tokens, wherever these stand, have the
  same code or the same error.**
-/

namespace Jack

/-! ### Cursors without ranges -/

namespace Token

@[simp] theorem keyword?_unplaced (t : Token) : t.unplaced.keyword? = t.keyword? := rfl

@[simp] theorem symbol?_unplaced (t : Token) : t.unplaced.symbol? = t.symbol? := rfl

@[simp] theorem identifier?_unplaced (t : Token) : t.unplaced.identifier? = t.identifier? := rfl

/-- Tokens that agree in kind and text are the same tokens without ranges. -/
theorem map_unplaced_eq {ts ts' : List Token}
    (h : List.Forall₂ (fun t t' => t.kind = t'.kind ∧ t.text = t'.text) ts ts') :
    ts.map unplaced = ts'.map unplaced := by
  induction h with
  | nil => rfl
  | cons ht _ ih => rw [List.map_cons, List.map_cons, ih, unplaced, unplaced, ht.1, ht.2]

end Token

namespace Cursor

/-- A cursor over the tokens without their ranges. -/
def unplaced (c : Cursor) : Cursor :=
  ⟨c.passed.map Token.unplaced, c.rest.map Token.unplaced⟩

theorem lastStop_unplaced (c : Cursor) : c.unplaced.lastStop = 0 := by
  obtain ⟨_ | ⟨t, passed⟩, rest⟩ := c <;> rfl

theorem offset_unplaced (c : Cursor) : c.unplaced.offset = 0 := by
  obtain ⟨passed, _ | ⟨t, rest⟩⟩ := c
  · exact lastStop_unplaced ⟨passed, []⟩
  · rfl

theorem spanFrom_unplaced (c : Cursor) : c.unplaced.spanFrom 0 = .empty 0 := by
  rw [spanFrom, lastStop_unplaced]
  rfl

theorem context_unplaced (c : Cursor) : c.unplaced.context = c.context := by
  have htext : Token.text ∘ Token.unplaced = Token.text := rfl
  simp [context, unplaced, ← List.map_take, ← List.map_reverse, htext]

theorem fault_unplaced (c : Cursor) (expected : Expectation) (rule : Rule) :
    c.unplaced.fault expected rule = (c.fault expected rule).unplaced := by
  have hcontext := c.context_unplaced
  have hstop := c.lastStop_unplaced
  obtain ⟨passed, _ | ⟨t, rest⟩⟩ := c
  · show CompileError.parse ⟨expected, "end of input", rule.text, (unplaced ⟨passed, []⟩).context⟩
      (.empty (unplaced ⟨passed, []⟩).lastStop) = _
    rw [hcontext, hstop]
    rfl
  · show CompileError.parse ⟨expected, t.text, rule.text, (unplaced ⟨passed, t :: rest⟩).context⟩
      (.empty 0) = _
    rw [hcontext]
    rfl

end Cursor

namespace Parser

variable {α α' β β' σ : Type}

/-- An outcome without ranges. -/
def unplacedOutcome (f : α → α') :
    Except CompileError (α × Cursor) → Except CompileError (α' × Cursor)
  | .error e => .error e.unplaced
  | .ok (a, c) => .ok (f a, c.unplaced)

/-- On tokens without ranges `q` does what `p` does on the tokens with them. -/
def Erases (p : Parser α) (q : Parser α') (f : α → α') : Prop :=
  ∀ c : Cursor, q c.unplaced = unplacedOutcome f (p c)

/-! ### Combinators -/

section Combinators

variable {p : Parser α} {q : Parser α'} {f : α → α'} {g : β → β'}

theorem erases_pure {a : α} {a' : α'} (h : f a = a') : Erases (pure a) (pure a') f := fun _ =>
  h ▸ rfl

theorem Erases.bind {k : α → Parser β} {k' : α' → Parser β'} (hp : Erases p q f)
    (hk : ∀ a, Erases (k a) (k' (f a)) g) : Erases (p >>= k) (q >>= k') g := by
  intro c
  have hc := hp c
  simp only [Bind.bind, StateT.bind, Except.bind, hc]
  cases p c with
  | error e => rfl
  | ok v => exact hk v.1 v.2

theorem erases_fail (expected : Expectation) (rule : Rule) (f : α → α') :
    Erases (fail expected rule) (fail expected rule) f := fun c =>
  congrArg Except.error (c.fault_unplaced expected rule)

theorem erases_offset : Erases offset offset fun _ => 0 := fun c => by
  rw [offset, c.offset_unplaced]
  rfl

theorem erases_spanFrom (start : Offset) :
    Erases (spanFrom start) (spanFrom 0) fun _ => .empty 0 := fun c => by
  rw [spanFrom, c.spanFrom_unplaced]
  rfl

theorem erases_next {select : Token → Option α} {select' : Token → Option α'}
    (hselect : ∀ t, select' t.unplaced = (select t).map f) (expected : Expectation) (rule : Rule) :
    Erases (next select expected rule) (next select' expected rule) f := by
  rintro ⟨passed, _ | ⟨t, rest⟩⟩
  · exact erases_fail expected rule f ⟨passed, []⟩
  · have ht := hselect t
    simp only [Cursor.unplaced, List.map_cons, next, ht]
    cases select t with
    | none => exact erases_fail expected rule f ⟨passed, t :: rest⟩
    | some a => rfl

theorem erases_next? {select : Token → Option α} {select' : Token → Option α'}
    (hselect : ∀ t, select' t.unplaced = (select t).map f) :
    Erases (next? select) (next? select') (Option.map f) := by
  rintro ⟨passed, _ | ⟨t, rest⟩⟩
  · rfl
  · have ht := hselect t
    simp only [Cursor.unplaced, List.map_cons, next?, ht]
    cases select t <;> rfl

/-- A repetition does not look at ranges if its rounds do not. -/
theorem erases_fold {lead : Token → Option β} {item : σ → β → Parser σ} {f : σ → σ} {g : β → β}
    (hlead : ∀ t, lead t.unplaced = (lead t).map g)
    (hitem : ∀ s b, Erases (item s b) (item (f s) (g b)) f) (s : σ) :
    Erases (fold lead item s) (fold lead item (f s)) f := by
  intro c
  have hrounds (rounds : List Token) (s : σ) (c : Cursor) :
      foldRounds lead item (rounds.map Token.unplaced) (f s) c.unplaced =
        unplacedOutcome f (foldRounds lead item rounds s c) := by
    induction rounds generalizing s c with
    | nil => rfl
    | cons r rounds ih =>
      have hnext := erases_next? hlead c
      rw [List.map_cons, foldRounds, foldRounds, hnext]
      rcases next? lead c with e | ⟨_ | b, c₁⟩
      · rfl
      · rfl
      · have hround := hitem s b c₁
        simp only [unplacedOutcome, Option.map_some, hround]
        rcases item s b c₁ with e | ⟨s₁, c₂⟩
        · rfl
        · exact ih s₁ c₂
  exact hrounds c.rest s c

theorem isSymbol_unplaced (ch : Char) (t : Token) :
    isSymbol ch t.unplaced = (isSymbol ch t).map id := by
  rw [Option.map_id, isSymbol, t.symbol?_unplaced]
  rfl

theorem isKeyword_unplaced (k : Keyword) (t : Token) :
    isKeyword k t.unplaced = (isKeyword k t).map id := by
  rw [Option.map_id, isKeyword, t.keyword?_unplaced]
  rfl

theorem ident?_unplaced (t : Token) : ident? t.unplaced = (ident? t).map Ident.bare := by
  rw [ident?, ident?, t.identifier?_unplaced, Option.map_map]
  rfl

theorem erases_symbol {expected : Expectation} {rule : Rule} (ch : Char) :
    Erases (next (isSymbol ch) expected rule) (next (isSymbol ch) expected rule) id :=
  erases_next (isSymbol_unplaced ch) expected rule

theorem erases_identifier (rule : Rule) :
    Erases (identifier rule) (identifier rule) Ident.bare :=
  erases_next ident?_unplaced _ _

theorem erases_atSymbol (ch : Char) : Erases (atSymbol ch) (atSymbol ch) id := by
  rintro ⟨passed, _ | ⟨t, rest⟩⟩ <;> rfl

theorem erases_commaSeparated {item : σ → Parser σ} {f : σ → σ}
    (hitem : ∀ s, Erases (item s) (item (f s)) f) (s : σ) :
    Erases (commaSeparated item s) (commaSeparated item (f s)) f :=
  (hitem s).bind fun s => erases_fold (isSymbol_unplaced ',') (fun s _ => hitem s) s

end Combinators

/-! ### Expressions -/

section Productions

variable (resolve : String → Meaning)

section Expressions

variable {expression : Parser Expr} {operand : Parser Term}
  (he : Erases expression expression Expr.unplaced)

include he in
theorem erases_arguments :
    Erases (arguments expression) (arguments expression) unplacedArguments := by
  unfold arguments
  refine (erases_atSymbol ')').bind fun atEnd => ?_
  cases atEnd with
  | true => exact erases_pure rfl
  | false =>
    refine Erases.bind (erases_commaSeparated (f := List.map Expr.unplaced) (fun done => ?_) [])
      fun read => erases_pure ?_
    · exact he.bind fun e => erases_pure rfl
    · rw [unplacedArguments_eq_map, List.map_reverse]

theorem erases_callee (first : Ident) :
    Erases (callee resolve first) (callee resolve first.bare)
      fun r => (r.1.map NameUse.unplaced, r.2.bare) := by
  refine (erases_next? (isSymbol_unplaced '.')).bind fun dot => ?_
  cases dot with
  | none => exact erases_pure rfl
  | some u => exact (erases_identifier .subroutineCall).bind fun name => erases_pure rfl

include he in
theorem erases_subroutineCall :
    Erases (subroutineCall resolve expression) (subroutineCall resolve expression)
      Call.unplaced := by
  refine erases_offset.bind fun start => (erases_identifier _).bind fun first => ?_
  refine (erases_callee resolve first).bind fun r => (erases_symbol '(').bind fun _ => ?_
  refine (erases_arguments he).bind fun arguments => (erases_symbol ')').bind fun _ => ?_
  exact (erases_spanFrom start).bind fun span => erases_pure rfl

include he in
theorem erases_symbolTerm (ho : Erases operand operand Term.unplaced) (t : Token) :
    Erases (symbolTerm expression operand t) (symbolTerm expression operand t.unplaced)
      Term.unplaced := by
  unfold symbolTerm
  rw [t.symbol?_unplaced]
  split
  · refine (erases_symbol '(').bind fun _ => he.bind fun inner => ?_
    refine (erases_symbol ')').bind fun _ => ?_
    exact (erases_spanFrom _).bind fun span => erases_pure rfl
  · have hop (t : Token) : t.unplaced.symbol?.bind UnaryOp.ofSymbol? =
        (t.symbol?.bind UnaryOp.ofSymbol?).map id := by
      rw [Option.map_id, t.symbol?_unplaced]
      rfl
    refine (erases_next hop _ _).bind fun op => ho.bind fun operand => ?_
    exact (erases_spanFrom _).bind fun span => erases_pure rfl

include he in
theorem erases_nameTerm (after : Option Token) :
    Erases (nameTerm resolve expression after)
      (nameTerm resolve expression (after.map Token.unplaced)) Term.unplaced := by
  have hafter : (after.map Token.unplaced).bind Token.symbol? = after.bind Token.symbol? := by
    cases after <;> rfl
  have hcall : Erases (do return Term.call (← subroutineCall resolve expression))
      (do return Term.call (← subroutineCall resolve expression)) Term.unplaced :=
    (erases_subroutineCall resolve he).bind fun call => erases_pure rfl
  unfold nameTerm
  rw [hafter]
  split
  · refine (erases_identifier _).bind fun name => (erases_symbol '[').bind fun _ => ?_
    exact he.bind fun index => (erases_symbol ']').bind fun _ => erases_pure rfl
  · exact hcall
  · exact hcall
  · exact (erases_identifier _).bind fun name => erases_pure rfl

include he in
theorem erases_termWith (ho : Erases operand operand Term.unplaced) :
    Erases (termWith resolve expression operand) (termWith resolve expression operand)
      Term.unplaced := by
  rintro ⟨passed, _ | ⟨t, rest⟩⟩
  · exact erases_fail .term .term Term.unplaced ⟨passed, []⟩
  · have hkind : t.unplaced.kind = t.kind := rfl
    have hconstant {make : Token → Option Term} (expected : Expectation)
        (hmake : ∀ t, make t.unplaced = (make t).map Term.unplaced) :=
      erases_next hmake expected .term ⟨passed, t :: rest⟩
    simp only [termWith, Cursor.unplaced, List.map_cons, hkind]
    cases t.kind with
    | integerConstant =>
      refine hconstant .integerConstant fun t => ?_
      rw [Option.map_map]
      rfl
    | stringConstant => exact hconstant .term fun t => rfl
    | keyword =>
      refine hconstant .term fun t => ?_
      rw [Option.map_map]
      rfl
    | symbol => exact erases_symbolTerm he ho t ⟨passed, t :: rest⟩
    | identifier =>
      rw [List.head?_map]
      exact erases_nameTerm resolve he rest.head? ⟨passed, t :: rest⟩

theorem erases_expressionWith {term : Parser Term} (ht : Erases term term Term.unplaced) :
    Erases (expressionWith term) (expressionWith term) Expr.unplaced := by
  have hlead (t : Token) : t.unplaced.symbol?.bind BinaryOp.ofSymbol? =
      (t.symbol?.bind BinaryOp.ofSymbol?).map id := by
    rw [Option.map_id, t.symbol?_unplaced]
    rfl
  refine erases_offset.bind fun start => ht.bind fun head => ?_
  refine Erases.bind (erases_fold (f := List.map fun p => (p.1, p.2.unplaced)) hlead
    (fun done op => ?_) []) fun tail => (erases_spanFrom start).bind fun span => erases_pure ?_
  · exact ht.bind fun t => erases_pure rfl
  · rw [Expr.unplaced, unplacedTail_eq_map, List.map_reverse]

end Expressions

theorem erases_term : ∀ levels, Erases (term resolve levels) (term resolve levels) Term.unplaced
  | 0 => erases_termWith resolve (erases_fail _ _ _) (erases_fail _ _ _)
  | levels + 1 =>
    erases_termWith resolve (erases_expressionWith (erases_term levels)) (erases_term levels)

/-- Reading an expression does not look at ranges. -/
theorem erases_expression :
    ∀ levels, Erases (expression resolve levels) (expression resolve levels) Expr.unplaced
  | 0 => erases_fail _ _ _
  | levels + 1 => erases_expressionWith (erases_term resolve levels)

/-! ### Statements -/

section Statements

variable {expression : Parser Expr} {statements : Parser (List Statement)}
  (he : Erases expression expression Expr.unplaced)
  (hs : Erases statements statements unplacedStatements)

theorem statementLead_unplaced (t : Token) :
    statementLead t.unplaced = (statementLead t).map fun lead => (0, lead.2) := by
  rw [statementLead, statementLead, Option.map_map]
  rfl

include hs in
theorem erases_block (rule : Rule) :
    Erases (block rule statements) (block rule statements) unplacedStatements :=
  (erases_symbol '{').bind fun _ => hs.bind fun _ => (erases_symbol '}').bind fun _ =>
    erases_pure rfl

include he in
theorem erases_condition (rule : Rule) :
    Erases (condition rule expression) (condition rule expression) Expr.unplaced :=
  (erases_symbol '(').bind fun _ => he.bind fun _ => (erases_symbol ')').bind fun _ =>
    erases_pure rfl

include he in
theorem erases_targetIndex :
    Erases (targetIndex expression) (targetIndex expression) (Option.map Expr.unplaced) := by
  refine (erases_next? (isSymbol_unplaced '[')).bind fun bracket => ?_
  cases bracket with
  | none => exact erases_pure rfl
  | some u => exact he.bind fun index => (erases_symbol ']').bind fun _ => erases_pure rfl

include he in
theorem erases_letStatement (start : Offset) :
    Erases (letStatement resolve expression start) (letStatement resolve expression 0)
      Statement.unplaced := by
  refine (erases_identifier _).bind fun target => (erases_targetIndex he).bind fun index => ?_
  refine (erases_symbol '=').bind fun _ => he.bind fun value => (erases_symbol ';').bind fun _ => ?_
  exact (erases_spanFrom start).bind fun span => erases_pure rfl

include he hs in
theorem erases_ifStatement (start : Offset) :
    Erases (ifStatement expression statements start) (ifStatement expression statements 0)
      Statement.unplaced := by
  refine (erases_condition he _).bind fun condition => (erases_block hs _).bind fun thenBody => ?_
  refine (erases_next? (isKeyword_unplaced .kwElse)).bind fun word => ?_
  cases word with
  | none => exact (erases_spanFrom start).bind fun span => erases_pure rfl
  | some u =>
    exact (erases_block hs _).bind fun elseBody => (erases_spanFrom start).bind fun span =>
      erases_pure rfl

include he hs in
theorem erases_whileStatement (start : Offset) :
    Erases (whileStatement expression statements start) (whileStatement expression statements 0)
      Statement.unplaced :=
  (erases_condition he _).bind fun _ => (erases_block hs _).bind fun _ =>
    (erases_spanFrom start).bind fun _ => erases_pure rfl

include he in
theorem erases_doStatement (start : Offset) :
    Erases (doStatement resolve expression start) (doStatement resolve expression 0)
      Statement.unplaced :=
  (erases_subroutineCall resolve he).bind fun _ => (erases_symbol ';').bind fun _ =>
    (erases_spanFrom start).bind fun _ => erases_pure rfl

include he in
theorem erases_returnValue :
    Erases (returnValue expression) (returnValue expression) (Option.map Expr.unplaced) := by
  refine (erases_atSymbol ';').bind fun atEnd => ?_
  cases atEnd with
  | true => exact erases_pure rfl
  | false => exact he.bind fun value => erases_pure rfl

include he in
theorem erases_returnStatement (start : Offset) :
    Erases (returnStatement expression start) (returnStatement expression 0)
      Statement.unplaced :=
  (erases_returnValue he).bind fun _ => (erases_symbol ';').bind fun _ =>
    (erases_spanFrom start).bind fun _ => erases_pure rfl

include he hs in
theorem erases_statementWith : ∀ lead : Offset × StatementWord,
    Erases (statementWith resolve expression statements lead)
      (statementWith resolve expression statements (0, lead.2)) Statement.unplaced
  | (start, .letWord) => erases_letStatement resolve he start
  | (start, .ifWord) => erases_ifStatement he hs start
  | (start, .whileWord) => erases_whileStatement he hs start
  | (start, .doWord) => erases_doStatement resolve he start
  | (start, .returnWord) => erases_returnStatement he start

include he hs in
theorem erases_statementsWith :
    Erases (statementsWith resolve expression statements)
      (statementsWith resolve expression statements) unplacedStatements := by
  refine Erases.bind (erases_fold (f := List.map Statement.unplaced) statementLead_unplaced
    (fun done lead => ?_) []) fun read => erases_pure ?_
  · exact (erases_statementWith resolve he hs lead).bind fun s => erases_pure rfl
  · rw [unplacedStatements_eq_map, List.map_reverse]

end Statements

/-- Reading statements does not look at ranges. -/
theorem erases_statements :
    ∀ levels, Erases (statements resolve levels) (statements resolve levels) unplacedStatements
  | 0 => erases_fail _ _ _
  | levels + 1 =>
    erases_statementsWith resolve (erases_expression resolve levels) (erases_statements levels)

end Productions

/-! ### Declarations -/

theorem erases_type : Erases type type id :=
  erases_next (fun _ => Option.map_id'.symm) _ _

theorem erases_returnType : Erases returnType returnType id := by
  refine (erases_next? (isKeyword_unplaced .kwVoid)).bind fun word => ?_
  cases word with
  | none => exact erases_type.bind fun type => erases_pure rfl
  | some u => exact erases_pure rfl

end Parser

/-- Whether a name can be declared does not depend on where it stands. -/
theorem Scope.declare_bare (s : Scope) (name : Ident) (type : TypeName) (storage : Storage) :
    s.declare name.bare type storage =
      (s.declare name type storage).mapError CompileError.unplaced := by
  have htext : name.bare.text = name.text := rfl
  rw [declare, declare, htext]
  by_cases hname : s.contains name.text = true
  · rw [if_pos hname, if_pos hname]
    rfl
  · rw [if_neg hname, if_neg hname]
    by_cases hindex : maxIndex < s.count storage <;> simp [hindex] <;> rfl

theorem Scopes.declare_bare (s : Scopes) (name : Ident) (type : TypeName) (storage : Storage) :
    s.declare name.bare type storage =
      (s.declare name type storage).mapError CompileError.unplaced := by
  rw [declare, declare]
  cases storage.level with
  | classLevel =>
    simp only [Scope.declare_bare]
    cases s.ofClass.declare name type storage <;> rfl
  | subroutineLevel =>
    simp only [Scope.declare_bare]
    cases s.ofSubroutine.declare name type storage <;> rfl

/-- A parsed class without the ranges in its tree. -/
def ParsedClass.unplaced (p : ParsedClass) : ParsedClass := ⟨p.tree.unplaced, p.scope⟩

namespace Parser

theorem erases_declare (scopes : Scopes) (name : Ident) (type : TypeName) (storage : Storage) :
    Erases (declare scopes name type storage) (declare scopes name.bare type storage) id := by
  intro c
  rw [declare, declare, scopes.declare_bare]
  cases scopes.declare name type storage <;> rfl

theorem erases_declaredNames (rule : Rule) (type : TypeName) (storage : Storage)
    (scopes : Scopes) :
    Erases (declaredNames rule type storage scopes) (declaredNames rule type storage scopes)
      fun r => (r.1.map Ident.bare, r.2) := by
  refine Erases.bind (erases_commaSeparated (f := fun s => (s.1.map Ident.bare, s.2))
    (fun s => ?_) ([], scopes)) fun r => erases_pure ?_
  · exact (erases_identifier rule).bind fun name =>
      (erases_declare s.2 name type storage).bind fun scopes => erases_pure rfl
  · rw [List.map_reverse]

theorem classVarLead_unplaced (t : Token) :
    classVarLead t.unplaced = (classVarLead t).map fun lead => (0, lead.2) := by
  rw [classVarLead, classVarLead, t.keyword?_unplaced]
  split <;> rfl

theorem erases_classVarDec (scopes : Scopes) (start : Offset) (kind : ClassVarKind) :
    Erases (classVarDec scopes start kind) (classVarDec scopes 0 kind)
      fun r => (r.1.bare, r.2) :=
  erases_type.bind fun type => (erases_declaredNames _ type _ scopes).bind fun _ =>
    (erases_symbol ';').bind fun _ => (erases_spanFrom start).bind fun _ => erases_pure rfl

theorem erases_classVarDecs :
    Erases classVarDecs classVarDecs fun r => (r.1.map ClassVarDec.bare, r.2) := by
  refine Erases.bind (erases_fold (f := fun s => (s.1.map ClassVarDec.bare, s.2))
    classVarLead_unplaced (fun s lead => ?_) ([], Scopes.empty)) fun r => erases_pure ?_
  · exact (erases_classVarDec s.2 lead.1 lead.2).bind fun r => erases_pure rfl
  · rw [List.map_reverse]

theorem subroutineLead_unplaced (t : Token) :
    subroutineLead t.unplaced = (subroutineLead t).map fun lead => (0, lead.2) := by
  rw [subroutineLead, subroutineLead, t.keyword?_unplaced]
  split <;> rfl

theorem varLead_unplaced (t : Token) : varLead t.unplaced = (varLead t).map fun _ => 0 := by
  rw [varLead, varLead, t.keyword?_unplaced]
  split <;> rfl

theorem erases_parameters (scopes : Scopes) :
    Erases (parameters scopes) (parameters scopes) fun r => (r.1.map Parameter.bare, r.2) := by
  unfold parameters
  refine (erases_atSymbol ')').bind fun atEnd => ?_
  cases atEnd with
  | true => exact erases_pure rfl
  | false =>
    refine Erases.bind (erases_commaSeparated (f := fun s => (s.1.map Parameter.bare, s.2))
      (fun s => ?_) ([], scopes)) fun r => erases_pure ?_
    · exact erases_type.bind fun type => (erases_identifier _).bind fun name =>
        (erases_declare s.2 name type .argument).bind fun scopes => erases_pure rfl
    · rw [List.map_reverse]

theorem erases_varDec (scopes : Scopes) (start : Offset) :
    Erases (varDec scopes start) (varDec scopes 0) fun r => (r.1.bare, r.2) :=
  erases_type.bind fun type => (erases_declaredNames _ type _ scopes).bind fun _ =>
    (erases_symbol ';').bind fun _ => (erases_spanFrom start).bind fun _ => erases_pure rfl

theorem erases_varDecs (scopes : Scopes) :
    Erases (varDecs scopes) (varDecs scopes) fun r => (r.1.map VarDec.bare, r.2) := by
  refine Erases.bind (erases_fold (f := fun s => (s.1.map VarDec.bare, s.2)) varLead_unplaced
    (fun s start => ?_) ([], scopes)) fun r => erases_pure ?_
  · exact (erases_varDec s.2 start).bind fun r => erases_pure rfl
  · rw [List.map_reverse]

theorem erases_subroutineScopes (className : String) (scopes : Scopes) (kind : SubroutineKind)
    (name : Ident) :
    Erases (subroutineScopes className scopes kind name)
      (subroutineScopes className scopes kind name.bare) id := by
  cases kind with
  | method =>
    exact erases_declare scopes.clearSubroutine ⟨Keyword.kwThis.text, name.span⟩ (.object className)
      .argument
  | constructor => exact erases_pure rfl
  | function => exact erases_pure rfl

theorem erases_subroutineDec (className : String) (scopes : Scopes) (start : Offset)
    (kind : SubroutineKind) :
    Erases (subroutineDec className scopes start kind) (subroutineDec className scopes 0 kind)
      SubroutineDec.unplaced := by
  refine erases_returnType.bind fun returnType => (erases_identifier _).bind fun name => ?_
  refine (erases_subroutineScopes className scopes kind name).bind fun scopes => ?_
  refine (erases_symbol '(').bind fun _ => (erases_parameters scopes).bind fun parameters => ?_
  refine (erases_symbol ')').bind fun _ => (erases_symbol '{').bind fun _ => ?_
  refine (erases_varDecs parameters.2).bind fun varDecs => ?_
  refine (erases_statements varDecs.2.resolve maxNesting).bind fun statements => ?_
  refine (erases_symbol '}').bind fun _ => (erases_spanFrom start).bind fun span => ?_
  exact erases_pure rfl

theorem erases_subroutineDecs (className : String) (scopes : Scopes) :
    Erases (subroutineDecs className scopes) (subroutineDecs className scopes)
      (List.map SubroutineDec.unplaced) := by
  refine Erases.bind (erases_fold (f := List.map SubroutineDec.unplaced) subroutineLead_unplaced
    (fun done lead => ?_) []) fun read => erases_pure ?_
  · exact (erases_subroutineDec className scopes lead.1 lead.2).bind fun s => erases_pure rfl
  · rw [List.map_reverse]

/-- Reading a class does not look at ranges. -/
theorem erases_classDec : Erases classDec classDec ParsedClass.unplaced := by
  refine erases_offset.bind fun start => ?_
  refine (erases_next (isKeyword_unplaced .kwClass) _ _).bind fun _ => ?_
  refine (erases_identifier _).bind fun name => (erases_symbol '{').bind fun _ => ?_
  refine erases_classVarDecs.bind fun varDecs => ?_
  refine (erases_subroutineDecs name.text varDecs.2).bind fun subroutines => ?_
  refine (erases_symbol '}').bind fun _ => (erases_spanFrom start).bind fun span => ?_
  exact erases_pure rfl

end Parser

/-! ### Units -/

/-- The parser does not look at ranges. -/
theorem parse_unplaced (tokens : List Token) :
    parse (tokens.map Token.unplaced) =
      ((parse tokens).map ParsedClass.unplaced).mapError CompileError.unplaced := by
  have hclass := Parser.erases_classDec ⟨[], tokens⟩
  rw [parse, parse]
  simp only [Cursor.unplaced, List.map_nil] at hclass
  rw [hclass]
  rcases Parser.classDec ⟨[], tokens⟩ with e | ⟨parsed, c⟩
  · rfl
  · have hfault := c.fault_unplaced .endOfInput .classDec
    obtain ⟨passed, _ | ⟨t, rest⟩⟩ := c
    · rfl
    · exact congrArg Except.error hfault

/-- What the outcome of a compilation says apart from ranges and comments. -/
def essence (outcome : Except CompileError CompiledClass) :
    Except CompileError (String × List Instruction) :=
  (outcome.map fun c => (c.className, uncommented c.code.toList)).mapError CompileError.unplaced

/-- Apart from ranges and comments, the outcome of a compilation is made from the tokens without
their ranges. -/
theorem essence_compile {text : String} {tokens : List Token} (h : tokenize text = .ok tokens)
    (options : Options) :
    essence (compile text options) =
      (do
        let parsed ← parse (tokens.map Token.unplaced)
        let code ← ((lower parsed.tree parsed.scope "" options).map Array.toList).map uncommented
        return (parsed.tree.name.text, code)) := by
  rw [parse_unplaced]
  simp only [compile, h, bind, Except.bind, pure, Except.pure]
  rcases parse tokens with e | parsed
  · rfl
  · have hlower : ((lower parsed.unplaced.tree parsed.unplaced.scope "" options).map
        Array.toList).map uncommented = _ := lower_unplaced parsed.tree parsed.scope text "" options
    simp only [Except.map, Except.mapError] at hlower ⊢
    rw [hlower]
    rcases lower parsed.tree parsed.scope text options with e | code <;> rfl

theorem eq_or_eq_of_essence_eq {outcome outcome' : Except CompileError CompiledClass}
    (h : essence outcome = essence outcome') :
    (∃ c c', outcome = .ok c ∧ outcome' = .ok c' ∧ c.className = c'.className ∧
        uncommented c.code.toList = uncommented c'.code.toList) ∨
      ∃ e e', outcome = .error e ∧ outcome' = .error e' ∧ e.unplaced = e'.unplaced := by
  cases outcome with
  | error e =>
    cases outcome' with
    | error e' => exact .inr ⟨e, e', rfl, rfl, Except.error.inj h⟩
    | ok c' => cases h
  | ok c =>
    cases outcome' with
    | error e' => cases h
    | ok c' =>
      obtain ⟨hname, hcode⟩ := Prod.mk.inj (Except.ok.inj h)
      exact .inl ⟨c, c', rfl, rfl, hname, hcode⟩

/-- **Layout does not change what a unit is compiled to.**  Two texts whose tokens agree in kind and
text have the same code but for comments, or the same error at another place. -/
theorem compileUnit_of_same_tokens {text text' : String} {tokens tokens' : List Token}
    (h : tokenize text = .ok tokens) (h' : tokenize text' = .ok tokens')
    (hsame : List.Forall₂ (fun t t' => t.kind = t'.kind ∧ t.text = t'.text) tokens tokens')
    (name : String) (options : Options) :
    (∃ c c', compileUnit name text options = .ok c ∧ compileUnit name text' options = .ok c' ∧
        c.className = c'.className ∧
        uncommented c.code.toList = uncommented c'.code.toList) ∨
      ∃ e e', compileUnit name text options = .error e ∧
        compileUnit name text' options = .error e' ∧ e.unit = e'.unit ∧
        e.error.kind = e'.error.kind ∧ e.error.message = e'.error.message ∧
        e.error.unplaced = e'.error.unplaced := by
  have hessence : essence (compile text options) = essence (compile text' options) := by
    rw [essence_compile h, essence_compile h', Token.map_unplaced_eq hsame]
  obtain ⟨c, c', hc, hc', hname, hcode⟩ | ⟨e, e', he, he', herror⟩ :=
    eq_or_eq_of_essence_eq hessence
  · refine .inl ⟨c, c', ?_, ?_, hname, hcode⟩
    · rw [compileUnit, hc, Except.mapError]
    · rw [compileUnit, hc', Except.mapError]
  · have hkind : e.kind = e'.kind := by rw [← e.kind_unplaced, herror, e'.kind_unplaced]
    have hmessage : e.message = e'.message := by
      rw [← e.message_unplaced, herror, e'.message_unplaced]
    refine .inr ⟨.ofError name text e, .ofError name text' e', ?_, ?_, rfl, hkind, hmessage, herror⟩
    · rw [compileUnit, he, Except.mapError]
    · rw [compileUnit, he', Except.mapError]

/-- A class on one line. -/
def denseText : String := "class A\x7bfunction int f(int x)\x7breturn x+1;\x7d\x7d"

/-- The same class on several lines, with comments. -/
def airyText : String :=
  "// counts\nclass A \x7b\n  function int f ( int x ) \x7b\n    return x /* up */ + 1 ;\n  \x7d\n\x7d\n"

theorem compileUnit_of_same_tokens_airy :
    ∃ tokens tokens', tokenize denseText = .ok tokens ∧ tokenize airyText = .ok tokens' ∧
      List.Forall₂ (fun t t' => t.kind = t'.kind ∧ t.text = t'.text) tokens tokens' ∧
      ∃ c c', compileUnit "A" denseText .none = .ok c ∧ compileUnit "A" airyText .none = .ok c' ∧
        c.className = c'.className ∧ uncommented c.code.toList = uncommented c'.code.toList := by
  have hcompiles : ∃ c, compileUnit "A" denseText .none = .ok c :=
    exists_eq_ok (by decide +kernel)
  have hsame : ∃ tokens ∈ (tokenize denseText).toOption, ∃ tokens' ∈ (tokenize airyText).toOption,
      List.Forall₂ (fun t t' => t.kind = t'.kind ∧ t.text = t'.text) tokens tokens' := by
    decide +kernel
  obtain ⟨tokens, hmem, tokens', hmem', hsame⟩ := hsame
  have h := eq_ok_of_mem_toOption hmem
  have h' := eq_ok_of_mem_toOption hmem'
  refine ⟨tokens, tokens', h, h', hsame, ?_⟩
  obtain ⟨c, hc⟩ := hcompiles
  obtain hcodes | ⟨e, e', he, -⟩ := compileUnit_of_same_tokens h h' hsame "A" .none
  · exact hcodes
  · rw [hc] at he
    cases he

end Jack

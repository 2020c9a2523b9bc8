import Jack.Parser.Advance
import Jack.Proofs.NameUses

/-!
# Names of a parsed tree

A parser gives every name that is used the meaning that `resolve` has for it at that place, and a
tree is built from such names only: every name used in an expression or in statements that were read
has the meaning of `resolve` (`yields_expression`, `yields_statements`).

`Parser.Yields` says of a parser that all that it reads has a property.  Sequences and repetitions
keep such properties, as they keep `Parser.Advances`.
-/

namespace Jack

namespace Parser

variable {α β σ : Type}

/-! ### Properties of what is read -/

/-- All that the parser reads has the property. -/
def Yields (p : Parser α) (P : α → Prop) : Prop :=
  ∀ ⦃c : Cursor⦄ ⦃a : α⦄ ⦃c' : Cursor⦄, p c = .ok (a, c') → P a

theorem Yields.bind {p : Parser α} {f : α → Parser β} {P : α → Prop} {Q : β → Prop}
    (hp : Yields p P) (hf : ∀ a, P a → Yields (f a) Q) : Yields (p >>= f) Q := by
  intro c b c'' h
  obtain ⟨a, c', h, h'⟩ := bind_eq_ok_iff.1 h
  exact hf a (hp h) h'

theorem yields_true (p : Parser α) : Yields p fun _ => True := fun _ _ _ _ => trivial

/-- What comes first does not matter. -/
theorem Yields.skip (p : Parser α) {f : α → Parser β} {Q : β → Prop}
    (hf : ∀ a, Yields (f a) Q) : Yields (p >>= f) Q :=
  (yields_true p).bind fun a _ => hf a

theorem yields_pure {a : α} {P : α → Prop} (h : P a) : Yields (pure a) P := by
  intro c b c' hb
  obtain ⟨rfl, -⟩ := pure_eq_ok_iff.1 hb
  exact h

theorem yields_fail (expected : Expectation) (rule : Rule) (P : α → Prop) :
    Yields (fail expected rule) P := by
  intro c a c' h
  simp [fail] at h

theorem yields_next {select : Token → Option α} {P : α → Prop}
    (h : ∀ t a, select t = some a → P a) (expected : Expectation) (rule : Rule) :
    Yields (next select expected rule) P := by
  intro c a c' ha
  obtain ⟨t, ht, -⟩ := next_eq_ok_iff.1 ha
  exact h t a ht

/-- A repetition keeps what each of its items keeps. -/
theorem yields_fold (lead : Token → Option β) {item : σ → β → Parser σ} {P : σ → Prop}
    (hitem : ∀ s b, P s → Yields (item s b) P) {s : σ} (hs : P s) :
    Yields (fold lead item s) P := by
  intro c a c' h
  unfold fold at h
  -- By induction on the rounds; what has been read and the cursor change from one to the next.
  generalize c.rest = rounds at h
  induction rounds generalizing s c with
  | nil =>
    simp only [foldRounds, Except.ok.injEq, Prod.mk.injEq] at h
    exact h.1 ▸ hs
  | cons r rounds ih =>
    rw [foldRounds] at h
    split at h
    · cases h
    · simp only [Except.ok.injEq, Prod.mk.injEq] at h
      exact h.1 ▸ hs
    · next b c₁ hb =>
      split at h
      · cases h
      · next s₁ c₂ hs₁ => exact ih (hitem s b hs hs₁) h

theorem yields_commaSeparated {item : σ → Parser σ} {P : σ → Prop}
    (hitem : ∀ s, P s → Yields (item s) P) {s : σ} (hs : P s) :
    Yields (commaSeparated item s) P :=
  (hitem s hs).bind fun _ hs' => yields_fold _ (fun s _ => hitem s) hs'

end Parser

/-! ### Resolved names -/

/-- The names have the meanings that `resolve` says. -/
def Resolved (resolve : String → Meaning) (names : List NameUse) : Prop :=
  ∀ n ∈ names, n.meaning = resolve n.name

namespace Resolved

variable {resolve : String → Meaning} {names names' : List NameUse}

theorem nil : Resolved resolve [] := by simp [Resolved]

theorem append (h : Resolved resolve names) (h' : Resolved resolve names') :
    Resolved resolve (names ++ names') := List.forall_mem_append.2 ⟨h, h'⟩

theorem nameUse (name : Ident) (h : Resolved resolve names) :
    Resolved resolve (Parser.nameUse resolve name :: names) := List.forall_mem_cons.2 ⟨rfl, h⟩

theorem flatMap {γ : Type} {l : List γ} {f : γ → List NameUse}
    (h : ∀ x ∈ l, Resolved resolve (f x)) : Resolved resolve (l.flatMap f) := by
  intro n hn
  obtain ⟨x, hx, hn⟩ := List.mem_flatMap.1 hn
  exact h x hx n hn

end Resolved

namespace Parser

section Productions

variable (resolve : String → Meaning)

/-! ### Expressions -/

theorem yields_arguments {expression : Parser Expr}
    (he : Yields expression fun e => Resolved resolve e.nameUses) :
    Yields (arguments expression) fun es => Resolved resolve (argumentsNameUses es) := by
  unfold arguments
  refine .skip _ fun b => ?_
  split
  · exact yields_pure .nil
  · have hread : Yields (commaSeparated (fun done => do return (← expression) :: done) [])
        fun done => ∀ e ∈ done, Resolved resolve e.nameUses := by
      refine yields_commaSeparated (fun done hdone => he.bind fun e hfirst => yields_pure ?_)
        (List.forall_mem_nil _)
      exact List.forall_mem_cons.2 ⟨hfirst, hdone⟩
    refine hread.bind fun done hdone => yields_pure ?_
    rw [argumentsNameUses_eq_flatMap]
    exact .flatMap fun e he => hdone e (List.mem_reverse.1 he)

theorem yields_callee (first : Ident) :
    Yields (callee resolve first) fun r => Resolved resolve r.1.toList := by
  refine .skip _ fun dot => ?_
  split
  · exact .skip _ fun _ => yields_pure (.nameUse first .nil)
  · exact yields_pure .nil

theorem yields_subroutineCall {expression : Parser Expr}
    (he : Yields expression fun e => Resolved resolve e.nameUses) :
    Yields (subroutineCall resolve expression) fun c => Resolved resolve c.nameUses :=
  .skip _ fun _ => .skip _ fun _ => (yields_callee resolve _).bind fun _ hreceiver =>
    .skip _ fun _ => (yields_arguments resolve he).bind fun _ harguments => .skip _ fun _ =>
      .skip _ fun _ => yields_pure (hreceiver.append harguments)

theorem yields_symbolTerm {expression : Parser Expr} {operand : Parser Term}
    (he : Yields expression fun e => Resolved resolve e.nameUses)
    (ho : Yields operand fun t => Resolved resolve t.nameUses) (t : Token) :
    Yields (symbolTerm expression operand t) fun t => Resolved resolve t.nameUses := by
  unfold symbolTerm
  split
  · exact .skip _ fun _ => he.bind fun _ hinner => .skip _ fun _ => .skip _ fun _ =>
      yields_pure (by simpa [Term.nameUses] using hinner)
  · exact .skip _ fun _ => ho.bind fun _ hoperand => .skip _ fun _ =>
      yields_pure (by simpa [Term.nameUses] using hoperand)

theorem yields_nameTerm {expression : Parser Expr}
    (he : Yields expression fun e => Resolved resolve e.nameUses) (after : Option Token) :
    Yields (nameTerm resolve expression after) fun t => Resolved resolve t.nameUses := by
  have hcall : Yields (do return Term.call (← subroutineCall resolve expression))
      fun t => Resolved resolve t.nameUses :=
    (yields_subroutineCall resolve he).bind fun _ hcall =>
      yields_pure (by simpa [Term.nameUses] using hcall)
  unfold nameTerm
  split
  · exact .skip _ fun _ => .skip _ fun _ => he.bind fun _ hindex => .skip _ fun _ =>
      yields_pure (by simpa [Term.nameUses] using hindex.nameUse _)
  · exact hcall
  · exact hcall
  · exact .skip _ fun _ => yields_pure (by simpa [Term.nameUses] using Resolved.nil.nameUse _)

theorem yields_termWith {expression : Parser Expr} {operand : Parser Term}
    (he : Yields expression fun e => Resolved resolve e.nameUses)
    (ho : Yields operand fun t => Resolved resolve t.nameUses) :
    Yields (termWith resolve expression operand) fun t => Resolved resolve t.nameUses := by
  have hconstant {make : Token → Option Term} (hmake : ∀ t a, make t = some a → a.nameUses = [])
      (expected : Expectation) :
      Yields (constant make expected) fun t => Resolved resolve t.nameUses :=
    yields_next (fun t a ha => hmake t a ha ▸ .nil) expected .term
  intro c a c' h
  unfold termWith at h
  split at h
  · exact yields_fail _ _ (fun t : Term => Resolved resolve t.nameUses) h
  · split at h
    · refine hconstant (fun t a ha => ?_) _ h
      obtain ⟨_, -, rfl⟩ := Option.map_eq_some_iff.1 ha
      rfl
    · refine hconstant (fun t a ha => ?_) _ h
      exact Option.some_inj.1 ha ▸ rfl
    · refine hconstant (fun t a ha => ?_) _ h
      obtain ⟨_, -, rfl⟩ := Option.map_eq_some_iff.1 ha
      rfl
    · exact yields_symbolTerm resolve he ho _ h
    · exact yields_nameTerm resolve he _ h

theorem yields_expressionWith {term : Parser Term}
    (ht : Yields term fun t => Resolved resolve t.nameUses) :
    Yields (expressionWith term) fun e => Resolved resolve e.nameUses := by
  refine .skip _ fun _ => ht.bind fun head hhead => ?_
  have htail : Yields (fold (fun t => t.symbol?.bind BinaryOp.ofSymbol?)
      (fun done op => do return (op, ← term) :: done) []) fun done =>
        ∀ p ∈ done, Resolved resolve p.2.nameUses := by
    refine yields_fold _ (fun done op hdone => ht.bind fun t hterm => yields_pure ?_)
      (List.forall_mem_nil _)
    exact List.forall_mem_cons.2 ⟨hterm, hdone⟩
  refine htail.bind fun done hdone => .skip _ fun _ => yields_pure (hhead.append ?_)
  rw [tailNameUses_eq_flatMap]
  exact .flatMap fun p hp => hdone p (List.mem_reverse.1 hp)

theorem yields_term : ∀ levels, Yields (term resolve levels) fun t => Resolved resolve t.nameUses
  | 0 => yields_termWith resolve (yields_fail _ _ _) (yields_fail _ _ _)
  | levels + 1 =>
    yields_termWith resolve (yields_expressionWith resolve (yields_term levels))
      (yields_term levels)

/-- The names of an expression that was read have the meanings that `resolve` says. -/
theorem yields_expression :
    ∀ levels, Yields (expression resolve levels) fun e => Resolved resolve e.nameUses
  | 0 => yields_fail _ _ _
  | levels + 1 => yields_expressionWith resolve (yields_term resolve levels)

/-! ### Statements -/

section Statements

variable {expression : Parser Expr} {statements : Parser (List Statement)}
  (he : Yields expression fun e => Resolved resolve e.nameUses)
  (hs : Yields statements fun ss => Resolved resolve (statementsNameUses ss))

include hs in
theorem yields_block (rule : Rule) :
    Yields (block rule statements) fun ss => Resolved resolve (statementsNameUses ss) :=
  .skip _ fun _ => hs.bind fun _ hbody => .skip _ fun _ => yields_pure hbody

include he

theorem yields_condition (rule : Rule) :
    Yields (condition rule expression) fun e => Resolved resolve e.nameUses :=
  .skip _ fun _ => he.bind fun _ hcondition => .skip _ fun _ => yields_pure hcondition

theorem yields_targetIndex :
    Yields (targetIndex expression) fun e => Resolved resolve (optionNameUses e) := by
  refine .skip _ fun bracket => ?_
  split
  · exact he.bind fun _ hindex => .skip _ fun _ => yields_pure hindex
  · exact yields_pure .nil

theorem yields_letStatement (start : Offset) :
    Yields (letStatement resolve expression start) fun s => Resolved resolve s.nameUses :=
  .skip _ fun _ => (yields_targetIndex resolve he).bind fun _ hindex => .skip _ fun _ =>
    he.bind fun _ hvalue => .skip _ fun _ => .skip _ fun _ =>
      yields_pure ((hindex.append hvalue).nameUse _)

include hs in
theorem yields_ifStatement (start : Offset) :
    Yields (ifStatement expression statements start) fun s => Resolved resolve s.nameUses := by
  refine (yields_condition resolve he _).bind fun _ hcondition =>
    (yields_block resolve hs _).bind fun _ hthen => .skip _ fun word => ?_
  split
  · exact (yields_block resolve hs _).bind fun _ helse => .skip _ fun _ =>
      yields_pure (hcondition.append (hthen.append helse))
  · exact .skip _ fun _ => yields_pure (hcondition.append hthen)

include hs in
theorem yields_whileStatement (start : Offset) :
    Yields (whileStatement expression statements start) fun s => Resolved resolve s.nameUses :=
  (yields_condition resolve he _).bind fun _ hcondition =>
    (yields_block resolve hs _).bind fun _ hbody => .skip _ fun _ =>
      yields_pure (hcondition.append hbody)

theorem yields_doStatement (start : Offset) :
    Yields (doStatement resolve expression start) fun s => Resolved resolve s.nameUses :=
  (yields_subroutineCall resolve he).bind fun _ hcall => .skip _ fun _ => .skip _ fun _ =>
    yields_pure (by simpa [Statement.nameUses] using hcall)

theorem yields_returnValue :
    Yields (returnValue expression) fun e => Resolved resolve (optionNameUses e) := by
  refine .skip _ fun atEnd => ?_
  split
  · exact yields_pure .nil
  · exact he.bind fun _ hvalue => yields_pure hvalue

theorem yields_returnStatement (start : Offset) :
    Yields (returnStatement expression start) fun s => Resolved resolve s.nameUses :=
  (yields_returnValue resolve he).bind fun _ hvalue => .skip _ fun _ => .skip _ fun _ =>
    yields_pure (by simpa [Statement.nameUses] using hvalue)

include hs in
theorem yields_statementWith :
    ∀ lead, Yields (statementWith resolve expression statements lead)
      fun s => Resolved resolve s.nameUses
  | (start, .letWord) => yields_letStatement resolve he start
  | (start, .ifWord) => yields_ifStatement resolve he hs start
  | (start, .whileWord) => yields_whileStatement resolve he hs start
  | (start, .doWord) => yields_doStatement resolve he start
  | (start, .returnWord) => yields_returnStatement resolve he start

include hs in
theorem yields_statementsWith :
    Yields (statementsWith resolve expression statements)
      fun ss => Resolved resolve (statementsNameUses ss) := by
  have hread : Yields (fold statementLead
      (fun done lead => do return (← statementWith resolve expression statements lead) :: done) [])
        fun done => ∀ s ∈ done, Resolved resolve s.nameUses := by
    refine yields_fold _ (fun done lead hdone =>
      (yields_statementWith resolve he hs lead).bind fun s hfirst => yields_pure ?_)
      (List.forall_mem_nil _)
    exact List.forall_mem_cons.2 ⟨hfirst, hdone⟩
  refine hread.bind fun done hdone => yields_pure ?_
  rw [statementsNameUses_eq_flatMap]
  exact .flatMap fun s hs => hdone s (List.mem_reverse.1 hs)

end Statements

/-- **The names of statements that were read have the meanings that `resolve` says.** -/
theorem yields_statements : ∀ levels, Yields (statements resolve levels)
    fun ss => Resolved resolve (statementsNameUses ss)
  | 0 => yields_fail _ _ _
  | levels + 1 =>
    yields_statementsWith resolve (yields_expression resolve levels) (yields_statements levels)

end Productions

end Parser

end Jack

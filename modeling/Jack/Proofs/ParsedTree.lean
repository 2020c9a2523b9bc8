import Jack.Parser.Advance
import Jack.Proofs.Terminals

/-!
# Trees and their tokens

A tree is read from the tokens that it is written with.  Every production takes exactly the tokens
that its node stands for, whatever the tokens after these are, so that to write a parsed class out
again gives back its tokens; and no production goes deeper than the levels that were left to it.

`Parser.Reads` says of a parser that the tokens it takes spell certain terminals and that these go
with what it answers.

* `Parser.reads_expression`, `Parser.reads_statements`, `Parser.reads_classDec` : what the
  productions read is written with the tokens they take;
* `terminals_of_parse` : **a list of tokens is what its class is written with.**
-/

namespace Jack

namespace Parser

variable {α β σ : Type}

/-! ### Tokens and answers -/

/-- The tokens that the parser takes spell terminals that go with its answer. -/
def Reads (p : Parser α) (P : List Terminal → α → Prop) : Prop :=
  ∀ ⦃c : Cursor⦄ ⦃a : α⦄ ⦃c' : Cursor⦄, p c = .ok (a, c') →
    ∃ taken ws, c.Passes taken c' ∧ List.Forall₂ Token.Spells taken ws ∧ P ws a

section Combinators

variable {p : Parser α} {f : α → Parser β} {P P' : List Terminal → α → Prop}
  {Q : List Terminal → β → Prop}

theorem Reads.bind (hp : Reads p P)
    (hf : ∀ a ws, P ws a → Reads (f a) fun ws' b => Q (ws ++ ws') b) : Reads (p >>= f) Q := by
  intro c b c'' h
  obtain ⟨a, c', ha, hb⟩ := bind_eq_ok_iff.1 h
  obtain ⟨taken, ws, htaken, hws, hP⟩ := hp ha
  obtain ⟨taken', ws', htaken', hws', hQ⟩ := hf a ws hP hb
  exact ⟨taken ++ taken', ws ++ ws', htaken.trans htaken', List.rel_append hws hws', hQ⟩

theorem Reads.mono (hp : Reads p P) (h : ∀ ws a, P ws a → P' ws a) : Reads p P' := by
  intro c a c' ha
  obtain ⟨taken, ws, htaken, hws, hP⟩ := hp ha
  exact ⟨taken, ws, htaken, hws, h ws a hP⟩

theorem reads_pure {a : α} (h : P [] a) : Reads (pure a) P := by
  intro c b c' hb
  obtain ⟨rfl, rfl⟩ := pure_eq_ok_iff.1 hb
  exact ⟨[], [], .refl c, .nil, h⟩

theorem reads_fail (expected : Expectation) (rule : Rule) (P : List Terminal → α → Prop) :
    Reads (fail expected rule) P := by
  intro c a c' h
  simp [fail] at h

/-- The parser takes no token. -/
def Stays (p : Parser α) : Prop := ∀ ⦃c : Cursor⦄ ⦃a : α⦄ ⦃c' : Cursor⦄, p c = .ok (a, c') → c' = c

theorem Stays.reads (hp : Stays p) (hf : ∀ a, Reads (f a) Q) : Reads (p >>= f) Q := by
  have hnone : Reads p fun ws _ => ws = [] := fun c a c' h => by
    obtain rfl := hp h
    exact ⟨[], [], .refl _, .nil, rfl⟩
  refine hnone.bind fun a ws hws => ?_
  subst hws
  exact hf a

theorem stays_offset : Stays offset := fun _ _ _ h =>
  (congrArg Prod.snd (Except.ok.inj h)).symm

theorem stays_spanFrom (start : Offset) : Stays (spanFrom start) := fun _ _ _ h =>
  (congrArg Prod.snd (Except.ok.inj h)).symm

theorem stays_atSymbol (ch : Char) : Stays (atSymbol ch) := fun _ _ _ h =>
  (congrArg Prod.snd (Except.ok.inj h)).symm

theorem stays_declare (scopes : Scopes) (name : Ident) (type : TypeName) (storage : Storage) :
    Stays (declare scopes name type storage) := by
  intro c a c' h
  unfold declare at h
  split at h
  · cases h
  · exact (congrArg Prod.snd (Except.ok.inj h)).symm

theorem reads_next {select : Token → Option α} (expected : Expectation) (rule : Rule)
    (h : ∀ t a, select t = some a → ∃ w, t.Spells w ∧ P [w] a) :
    Reads (next select expected rule) P := by
  intro c a c' ha
  obtain ⟨t, ht, htaken⟩ := next_eq_ok_iff.1 ha
  obtain ⟨w, hw, hP⟩ := h t a ht
  exact ⟨[t], [w], htaken, .cons hw .nil, hP⟩

theorem reads_next? {select : Token → Option α} {P : List Terminal → Option α → Prop}
    (hsome : ∀ t a, select t = some a → ∃ w, t.Spells w ∧ P [w] (some a)) (hnone : P [] none) :
    Reads (next? select) P := by
  intro c a c' ha
  cases a with
  | some a =>
    obtain ⟨t, ht, htaken⟩ := next?_eq_some_iff.1 ha
    obtain ⟨w, hw, hP⟩ := hsome t a ht
    exact ⟨[t], [w], htaken, .cons hw .nil, hP⟩
  | none =>
    obtain ⟨-, rfl⟩ := next?_eq_none_iff.1 ha
    exact ⟨[], [], .refl _, .nil, hnone⟩

/-- What a repetition has taken and what it answers keep to a relation that each round keeps. -/
theorem reads_fold {lead : Token → Option β} {item : σ → β → Parser σ}
    {I : List Terminal → σ → Prop}
    (hitem : ∀ t b, lead t = some b → ∃ w, t.Spells w ∧
      ∀ ws s, I ws s → Reads (item s b) fun ws' s' => I (ws ++ w :: ws') s')
    {ws : List Terminal} {s : σ} (hs : I ws s) :
    Reads (fold lead item s) fun ws' s' => I (ws ++ ws') s' := by
  intro c a c' h
  unfold fold at h
  generalize c.rest = rounds at h
  induction rounds generalizing s c ws with
  | nil =>
    obtain ⟨rfl, rfl⟩ := Prod.mk.inj (Except.ok.inj h)
    exact ⟨[], [], .refl c, .nil, by simpa using hs⟩
  | cons r rounds ih =>
    rw [foldRounds] at h
    split at h
    · cases h
    · next hb =>
      obtain ⟨-, rfl⟩ := next?_eq_none_iff.1 hb
      obtain ⟨rfl, rfl⟩ := Prod.mk.inj (Except.ok.inj h)
      exact ⟨[], [], .refl _, .nil, by simpa using hs⟩
    · next b c₁ hb =>
      obtain ⟨t, ht, htaken⟩ := next?_eq_some_iff.1 hb
      obtain ⟨w, hw, hround⟩ := hitem t b ht
      split at h
      · cases h
      · next s₁ c₂ hs₁ =>
        obtain ⟨taken₁, ws₁, htaken₁, hws₁, hI₁⟩ := hround ws s hs hs₁
        obtain ⟨taken₂, ws₂, htaken₂, hws₂, hI₂⟩ := ih hI₁ h
        refine ⟨[t] ++ (taken₁ ++ taken₂), [w] ++ (ws₁ ++ ws₂),
          htaken.trans (htaken₁.trans htaken₂),
          List.rel_append (.cons hw .nil) (List.rel_append hws₁ hws₂), ?_⟩
        simpa using hI₂

theorem spells_of_isSymbol {t : Token} {ch : Char} {u : Unit} (h : isSymbol ch t = some u) :
    t.Spells (.symbol ch) := by
  rw [isSymbol, Option.ite_none_right_eq_some] at h
  exact Token.spells_symbol_iff.2 h.1

theorem spells_of_isKeyword {t : Token} {k : Keyword} {u : Unit} (h : isKeyword k t = some u) :
    t.Spells (.keyword k) := by
  rw [isKeyword, Option.ite_none_right_eq_some] at h
  exact Token.spells_keyword_iff.2 h.1

theorem spells_of_ident? {t : Token} {name : Ident} (h : ident? t = some name) :
    t.Spells (.identifier name.text) := by
  obtain ⟨text, htext, rfl⟩ := Option.map_eq_some_iff.1 h
  exact Token.spells_identifier_iff.2 htext

/-- Items with commas between them are taken one after the other. -/
theorem reads_commaSeparated {item : σ → Parser σ} (pieces : σ → List (List Terminal))
    {I : σ → Prop}
    (hitem : ∀ s, I s → Reads (item s) fun ws s' => pieces s' = pieces s ++ [ws] ∧ I s')
    {s : σ} (hpieces : pieces s = []) (hs : I s) :
    Reads (commaSeparated item s) fun ws s' =>
      ws = withCommas (pieces s') ∧ pieces s' ≠ [] ∧ I s' := by
  refine (hitem s hs).bind ?_
  rintro s₁ ws₁ ⟨hfirst, hs₁⟩
  rw [hpieces, List.nil_append] at hfirst
  -- From the first item on there is always one to put a comma after.
  refine reads_fold (I := fun ws s' => ws = withCommas (pieces s') ∧ pieces s' ≠ [] ∧ I s')
    (fun t u ht => ⟨_, spells_of_isSymbol ht, ?_⟩) ⟨by simp [hfirst], by simp [hfirst], hs₁⟩
  rintro ws s' ⟨hws, hne, hs'⟩
  refine (hitem s' hs').mono ?_
  rintro ws' s'' ⟨hpieces', hs''⟩
  refine ⟨?_, by simp [hpieces'], hs''⟩
  rw [hpieces', withCommas_append_singleton hne, hws]

end Combinators

/-! ### Single tokens -/

section SingleTokens

variable {expected : Expectation} {rule : Rule}

theorem reads_symbol (ch : Char) :
    Reads (next (isSymbol ch) expected rule) fun ws _ => ws = [.symbol ch] :=
  reads_next _ _ fun _ _ ht => ⟨_, spells_of_isSymbol ht, rfl⟩

theorem reads_symbol? (ch : Char) :
    Reads (next? (isSymbol ch)) fun ws found => ws = if found.isSome then [.symbol ch] else [] :=
  reads_next? (fun _ _ ht => ⟨_, spells_of_isSymbol ht, rfl⟩) rfl

theorem reads_keyword (k : Keyword) :
    Reads (next (isKeyword k) expected rule) fun ws _ => ws = [.keyword k] :=
  reads_next _ _ fun _ _ ht => ⟨_, spells_of_isKeyword ht, rfl⟩

theorem reads_keyword? (k : Keyword) :
    Reads (next? (isKeyword k)) fun ws found => ws = if found.isSome then [.keyword k] else [] :=
  reads_next? (fun _ _ ht => ⟨_, spells_of_isKeyword ht, rfl⟩) rfl

theorem reads_identifier : Reads (identifier rule) fun ws name => ws = [.identifier name.text] :=
  reads_next _ _ fun _ _ ht => ⟨_, spells_of_ident? ht, rfl⟩

end SingleTokens

/-! ### Expressions -/

/-- The terminals are those of the tree, which is not deeper than `n`. -/
def Written (terminals : α → List Terminal) (nesting : α → Nat) (n : Nat) (ws : List Terminal)
    (a : α) : Prop := ws = terminals a ∧ nesting a ≤ n

section Productions

variable (resolve : String → Meaning) {n : Nat}

section Expressions

variable {expression : Parser Expr} {operand : Parser Term}
  (he : Reads expression (Written Expr.terminals Expr.nesting n))

include he in
theorem reads_arguments :
    Reads (arguments expression)
      (Written (fun es => withCommas (es.map Expr.terminals)) argumentsNesting n) := by
  unfold arguments
  refine (stays_atSymbol _).reads fun atEnd => ?_
  split
  · exact reads_pure ⟨rfl, Nat.zero_le _⟩
  · have hitem (done : List Expr) (hdone : ∀ e ∈ done, e.nesting ≤ n) :
        Reads (do return (← expression) :: done) fun ws done' =>
          done'.reverse.map Expr.terminals = done.reverse.map Expr.terminals ++ [ws] ∧
            ∀ e ∈ done', e.nesting ≤ n := by
      refine he.bind ?_
      rintro e ws ⟨hws, hn⟩
      exact reads_pure ⟨by simp [hws], List.forall_mem_cons.2 ⟨hn, hdone⟩⟩
    refine (reads_commaSeparated (fun done => done.reverse.map Expr.terminals) hitem rfl
      (List.forall_mem_nil _)).bind ?_
    rintro done ws ⟨hws, -, hdone⟩
    refine reads_pure ⟨by simp [hws], ?_⟩
    exact argumentsNesting_le_iff.2 fun e he => hdone e (List.mem_reverse.1 he)

theorem reads_callee (first : Ident) :
    Reads (callee resolve first)
      fun ws r => .identifier first.text :: ws = calleeTerminals r.1 r.2 := by
  refine (reads_symbol? '.').bind fun dot ws hdot => ?_
  split
  · refine reads_identifier.bind fun name _ hname => reads_pure ?_
    simp [hdot, hname, calleeTerminals, nameUse]
  · exact reads_pure (by simp [hdot, calleeTerminals])

include he in
theorem reads_subroutineCall :
    Reads (subroutineCall resolve expression) (Written Call.terminals Call.nesting n) := by
  refine stays_offset.reads fun start => reads_identifier.bind fun first _ hfirst => ?_
  refine (reads_callee resolve first).bind fun r ws hcallee => ?_
  refine (reads_symbol '(').bind fun _ _ hopen => (reads_arguments he).bind ?_
  rintro arguments _ ⟨harguments, hn⟩
  refine (reads_symbol ')').bind fun _ _ hclose => (stays_spanFrom _).reads fun _ => ?_
  refine reads_pure ⟨?_, hn⟩
  subst hfirst hopen hclose harguments
  rw [List.singleton_append, ← List.cons_append, hcallee, Call.terminals, argumentsTerminals_eq_map]
  simp

include he in
theorem reads_symbolTerm (ho : Reads operand (Written Term.terminals (·.nesting + 1) n))
    (t : Token) : Reads (symbolTerm expression operand t) (Written Term.terminals Term.nesting n) := by
  unfold symbolTerm
  split
  · refine (reads_symbol '(').bind fun _ _ hopen => he.bind ?_
    rintro inner _ ⟨hinner, hn⟩
    refine (reads_symbol ')').bind fun _ _ hclose => (stays_spanFrom _).reads fun _ => ?_
    refine reads_pure ⟨?_, hn⟩
    subst hopen hinner hclose
    simp [Term.terminals]
  · refine (reads_next (P := fun ws op => ws = [.symbol (UnaryOp.symbol op)]) _ _ ?operator).bind
      fun op _ hop => ho.bind ?operand
    case operator =>
      intro t op ht
      obtain ⟨c, hc, hop⟩ := Option.bind_eq_some_iff.1 ht
      exact ⟨_, Token.spells_symbol_iff.2 hc, by rw [UnaryOp.symbol_of_ofSymbol? hop]⟩
    case operand =>
      rintro operand _ ⟨hoperand, hn⟩
      refine (stays_spanFrom _).reads fun _ => reads_pure ⟨?_, hn⟩
      subst hop hoperand
      simp [Term.terminals]

include he in
theorem reads_nameTerm (after : Option Token) :
    Reads (nameTerm resolve expression after) (Written Term.terminals Term.nesting n) := by
  have hcall : Reads (do return Term.call (← subroutineCall resolve expression))
      (Written Term.terminals Term.nesting n) := by
    refine (reads_subroutineCall resolve he).bind ?_
    rintro call _ ⟨hcall, hn⟩
    exact reads_pure ⟨by simp [hcall, Term.terminals], hn⟩
  unfold nameTerm
  split
  · refine reads_identifier.bind fun name _ hname => ?_
    refine (reads_symbol '[').bind fun _ _ hopen => he.bind ?_
    rintro index _ ⟨hindex, hn⟩
    refine (reads_symbol ']').bind fun _ _ hclose => reads_pure ⟨?_, hn⟩
    subst hname hopen hindex hclose
    simp [Term.terminals, nameUse]
  · exact hcall
  · exact hcall
  · exact reads_identifier.bind fun name _ hname =>
      reads_pure ⟨by simp [hname, Term.terminals, nameUse], Nat.zero_le _⟩

/-- A token that is a term of its own. -/
theorem reads_constant {make : Token → Option Term} {expected : Expectation} {c c' : Cursor}
    {a : Term} {t : Token} {rest : List Token} (hrest : c.rest = t :: rest)
    (hmake : ∀ a, make t = some a → ∃ w, t.Spells w ∧ a.terminals = [w] ∧ a.nesting = 0)
    (h : constant make expected c = .ok (a, c')) :
    ∃ taken ws, c.Passes taken c' ∧ List.Forall₂ Token.Spells taken ws ∧
      Written Term.terminals Term.nesting n ws a := by
  obtain ⟨t', ht', htaken⟩ := next_eq_ok_iff.1 h
  obtain rfl : t' = t := by
    have := htaken.rest_eq
    simp only [hrest, List.singleton_append, List.cons.injEq] at this
    exact this.1.symm
  obtain ⟨w, hw, hterminals, hnesting⟩ := hmake a ht'
  exact ⟨[t'], [w], htaken, .cons hw .nil, hterminals.symm, by omega⟩

include he in
theorem reads_termWith (ho : Reads operand (Written Term.terminals (·.nesting + 1) n)) :
    Reads (termWith resolve expression operand) (Written Term.terminals Term.nesting n) := by
  intro c a c' h
  unfold termWith at h
  split at h
  · simp [fail] at h
  · next t rest hrest =>
    split at h
    · next hkind =>
      refine reads_constant hrest (fun a ha => ?_) h
      obtain ⟨value, hvalue, rfl⟩ := Option.map_eq_some_iff.1 ha
      exact ⟨.integer value, ⟨hkind, hvalue⟩, rfl, rfl⟩
    · next hkind =>
      refine reads_constant hrest (fun a ha => ?_) h
      obtain rfl := Option.some.inj ha
      exact ⟨.string t.text, ⟨hkind, rfl⟩, rfl, rfl⟩
    · refine reads_constant hrest (fun a ha => ?_) h
      obtain ⟨k, hk, rfl⟩ := Option.map_eq_some_iff.1 ha
      obtain ⟨word, hword, hk⟩ := Option.bind_eq_some_iff.1 hk
      refine ⟨.keyword word, Token.spells_keyword_iff.2 hword, ?_, rfl⟩
      rw [Term.terminals, KeywordConstant.keyword_of_ofKeyword? hk]
    · exact reads_symbolTerm he ho t h
    · exact reads_nameTerm resolve he _ h

theorem reads_expressionWith {term : Parser Term}
    (ht : Reads term (Written Term.terminals Term.nesting n)) :
    Reads (expressionWith term) (Written Expr.terminals Expr.nesting (n + 1)) := by
  have htail : Reads (fold (fun t => t.symbol?.bind BinaryOp.ofSymbol?)
      (fun done op => do return (op, ← term) :: done) []) fun ws done =>
        ws = tailTerminals done.reverse ∧ ∀ p ∈ done, p.2.nesting ≤ n := by
    refine reads_fold (I := fun ws (done : List (BinaryOp × Term)) =>
      ws = tailTerminals done.reverse ∧ ∀ p ∈ done, p.2.nesting ≤ n)
      (fun t op hop => ⟨.symbol (BinaryOp.symbol op), ?_, ?_⟩) ⟨rfl, List.forall_mem_nil _⟩
    · obtain ⟨c, hc, hop⟩ := Option.bind_eq_some_iff.1 hop
      exact Token.spells_symbol_iff.2 (BinaryOp.symbol_of_ofSymbol? hop ▸ hc)
    · rintro ws done ⟨hws, hdone⟩
      refine ht.bind ?_
      rintro a ws' ⟨hws', hn⟩
      refine reads_pure ⟨?_, List.forall_mem_cons.2 ⟨hn, hdone⟩⟩
      simp [hws, hws', tailTerminals_eq_flatMap]
  refine stays_offset.reads fun start => ht.bind ?_
  rintro head _ ⟨hhead, hn⟩
  refine htail.bind ?_
  rintro done _ ⟨hdone, hlevels⟩
  refine (stays_spanFrom _).reads fun _ => reads_pure ⟨?_, ?_⟩
  · simp [hhead, hdone, Expr.terminals]
  · have hn' : tailNesting done.reverse ≤ n :=
      tailNesting_le_iff.2 fun p hp => hlevels p (List.mem_reverse.1 hp)
    rw [Expr.nesting]
    omega

end Expressions

theorem reads_term (levels : Nat) :
    Reads (term resolve levels) (Written Term.terminals Term.nesting levels) := by
  induction levels with
  | zero => exact reads_termWith resolve (reads_fail _ _ _) (reads_fail _ _ _)
  | succ levels ih =>
    -- An operand has one level less than the term that it stands in.
    have hoperand : Reads (term resolve levels)
        (Written Term.terminals (·.nesting + 1) (levels + 1)) :=
      ih.mono fun _ _ h => ⟨h.1, Nat.succ_le_succ h.2⟩
    exact reads_termWith resolve (reads_expressionWith ih) hoperand

/-- An expression is written with the tokens that it is read from, and takes one level at least. -/
theorem reads_expression (levels : Nat) :
    Reads (expression resolve levels) (Written Expr.terminals Expr.nesting levels) := by
  cases levels with
  | zero => exact reads_fail _ _ _
  | succ levels => exact reads_expressionWith (reads_term resolve levels)

/-! ### Statements -/

section Statements

variable {expression : Parser Expr} {statements : Parser (List Statement)}
  (he : Reads expression (Written Expr.terminals Expr.nesting n))
  (hs : Reads statements (Written statementsTerminals (statementsNesting · + 1) n))

include hs in
theorem reads_block (rule : Rule) :
    Reads (block rule statements) (Written
      (fun ss => .symbol '{' :: (statementsTerminals ss ++ [.symbol '}']))
      (statementsNesting · + 1) n) := by
  refine (reads_symbol '{').bind fun _ _ hopen => hs.bind ?_
  rintro body _ ⟨hbody, hn⟩
  refine (reads_symbol '}').bind fun _ _ hclose => reads_pure ⟨?_, hn⟩
  subst hopen hbody hclose
  simp

include he in
theorem reads_condition (rule : Rule) :
    Reads (condition rule expression) (Written
      (fun e => .symbol '(' :: (e.terminals ++ [.symbol ')'])) Expr.nesting n) := by
  refine (reads_symbol '(').bind fun _ _ hopen => he.bind ?_
  rintro e _ ⟨he, hn⟩
  refine (reads_symbol ')').bind fun _ _ hclose => reads_pure ⟨?_, hn⟩
  subst hopen he hclose
  simp

include he in
theorem reads_targetIndex :
    Reads (targetIndex expression) (Written indexTerminals optionNesting n) := by
  refine (reads_symbol? '[').bind fun bracket _ hbracket => ?_
  split
  · refine he.bind ?_
    rintro index _ ⟨hindex, hn⟩
    refine (reads_symbol ']').bind fun _ _ hclose => reads_pure ⟨?_, hn⟩
    subst hbracket hindex hclose
    simp [indexTerminals]
  · exact reads_pure ⟨by simp [hbracket, indexTerminals], Nat.zero_le _⟩

include he in
theorem reads_letStatement (start : Offset) :
    Reads (letStatement resolve expression start)
      fun ws s => .keyword .kwLet :: ws = s.terminals ∧ s.nesting ≤ n := by
  refine reads_identifier.bind fun target _ htarget => (reads_targetIndex he).bind ?_
  rintro index _ ⟨hindex, hn⟩
  refine (reads_symbol '=').bind fun _ _ heq => he.bind ?_
  rintro value _ ⟨hvalue, hn'⟩
  refine (reads_symbol ';').bind fun _ _ hend => (stays_spanFrom _).reads fun _ => ?_
  refine reads_pure ⟨?_, Nat.max_le.2 ⟨hn, hn'⟩⟩
  subst htarget hindex heq hvalue hend
  simp [Statement.terminals, nameUse]

include he hs in
theorem reads_ifStatement (start : Offset) :
    Reads (ifStatement expression statements start)
      fun ws s => .keyword .kwIf :: ws = s.terminals ∧ s.nesting ≤ n := by
  refine (reads_condition he _).bind ?_
  rintro condition _ ⟨hcondition, hn⟩
  refine (reads_block hs _).bind ?_
  rintro thenBody _ ⟨hthen, hn'⟩
  refine (reads_keyword? .kwElse).bind fun word _ hword => ?_
  split
  · refine (reads_block hs _).bind ?_
    rintro elseBody _ ⟨helse, hn''⟩
    refine (stays_spanFrom _).reads fun _ => ?_
    refine reads_pure ⟨?_, Nat.max_le.2 ⟨hn, Nat.max_le.2 ⟨hn', hn''⟩⟩⟩
    subst hcondition hthen hword helse
    simp [Statement.terminals]
  · refine (stays_spanFrom _).reads fun _ => reads_pure ⟨?_, Nat.max_le.2 ⟨hn, hn'⟩⟩
    subst hcondition hthen hword
    simp [Statement.terminals]

include he hs in
theorem reads_whileStatement (start : Offset) :
    Reads (whileStatement expression statements start)
      fun ws s => .keyword .kwWhile :: ws = s.terminals ∧ s.nesting ≤ n := by
  refine (reads_condition he _).bind ?_
  rintro condition _ ⟨hcondition, hn⟩
  refine (reads_block hs _).bind ?_
  rintro body _ ⟨hbody, hn'⟩
  refine (stays_spanFrom _).reads fun _ => reads_pure ⟨?_, Nat.max_le.2 ⟨hn, hn'⟩⟩
  subst hcondition hbody
  simp [Statement.terminals]

include he in
theorem reads_doStatement (start : Offset) :
    Reads (doStatement resolve expression start)
      fun ws s => .keyword .kwDo :: ws = s.terminals ∧ s.nesting ≤ n := by
  refine (reads_subroutineCall resolve he).bind ?_
  rintro call _ ⟨hcall, hn⟩
  refine (reads_symbol ';').bind fun _ _ hend => (stays_spanFrom _).reads fun _ => ?_
  refine reads_pure ⟨?_, hn⟩
  subst hcall hend
  simp [Statement.terminals]

include he in
theorem reads_returnStatement (start : Offset) :
    Reads (returnStatement expression start)
      fun ws s => .keyword .kwReturn :: ws = s.terminals ∧ s.nesting ≤ n := by
  have hvalue : Reads (returnValue expression) (Written valueTerminals optionNesting n) := by
    refine (stays_atSymbol _).reads fun atEnd => ?_
    split
    · exact reads_pure ⟨rfl, Nat.zero_le _⟩
    · refine he.bind ?_
      rintro value _ ⟨hvalue, hn⟩
      exact reads_pure ⟨by simp [hvalue, valueTerminals], hn⟩
  refine hvalue.bind ?_
  rintro value _ ⟨hvalue, hn⟩
  refine (reads_symbol ';').bind fun _ _ hend => (stays_spanFrom _).reads fun _ => ?_
  refine reads_pure ⟨?_, hn⟩
  subst hvalue hend
  simp [Statement.terminals]

include he hs in
theorem reads_statementWith : ∀ lead, Reads (statementWith resolve expression statements lead)
    fun ws s => .keyword lead.2.keyword :: ws = s.terminals ∧ s.nesting ≤ n
  | (start, .letWord) => reads_letStatement resolve he start
  | (start, .ifWord) => reads_ifStatement he hs start
  | (start, .whileWord) => reads_whileStatement he hs start
  | (start, .doWord) => reads_doStatement resolve he start
  | (start, .returnWord) => reads_returnStatement he start

theorem spells_of_statementLead {t : Token} {lead : Offset × StatementWord}
    (h : statementLead t = some lead) : t.Spells (.keyword lead.2.keyword) := by
  obtain ⟨w, hw, rfl⟩ := Option.map_eq_some_iff.1 h
  obtain ⟨k, hk, hw⟩ := Option.bind_eq_some_iff.1 hw
  exact Token.spells_keyword_iff.2 (StatementWord.keyword_of_ofKeyword? hw ▸ hk)

include he hs in
theorem reads_statementsWith :
    Reads (statementsWith resolve expression statements)
      (Written statementsTerminals (statementsNesting · + 1) (n + 1)) := by
  have hread : Reads (fold statementLead (fun done lead => do
      return (← statementWith resolve expression statements lead) :: done) []) fun ws done =>
        ws = statementsTerminals done.reverse ∧ ∀ s ∈ done, s.nesting ≤ n := by
    refine reads_fold (I := fun ws (done : List Statement) =>
      ws = statementsTerminals done.reverse ∧ ∀ s ∈ done, s.nesting ≤ n)
      (fun t lead ht => ⟨_, spells_of_statementLead ht, ?_⟩) ⟨rfl, List.forall_mem_nil _⟩
    rintro ws done ⟨hws, hdone⟩
    refine (reads_statementWith resolve he hs lead).bind ?_
    rintro s ws' ⟨hws', hn⟩
    refine reads_pure ⟨?_, List.forall_mem_cons.2 ⟨hn, hdone⟩⟩
    simp [hws, hws', statementsTerminals_eq_flatMap]
  refine hread.bind ?_
  rintro done _ ⟨hdone, hall⟩
  refine reads_pure ⟨by simp [hdone], Nat.succ_le_succ ?_⟩
  exact statementsNesting_le_iff.2 fun s hs => hall s (List.mem_reverse.1 hs)

end Statements

/-- Statements are written with the tokens that they are read from, and take one level at least. -/
theorem reads_statements (levels : Nat) : Reads (statements resolve levels)
    (Written statementsTerminals (statementsNesting · + 1) levels) := by
  induction levels with
  | zero => exact reads_fail _ _ _
  | succ levels ih => exact reads_statementsWith resolve (reads_expression resolve levels) ih

end Productions

/-! ### Declarations -/

theorem spells_of_type? {t : Token} {type : TypeName} (h : type? t = some type) :
    t.Spells type.terminal := by
  rw [type?] at h
  split at h
  iterate 3
    · next hword =>
      cases h
      exact Token.spells_keyword_iff.2 hword
  · obtain ⟨name, hname, rfl⟩ := Option.map_eq_some_iff.1 h
    exact Token.spells_identifier_iff.2 hname

theorem spells_of_classVarLead {t : Token} {lead : Offset × ClassVarKind}
    (h : classVarLead t = some lead) : t.Spells (.keyword lead.2.keyword) := by
  rw [classVarLead] at h
  split at h
  iterate 2
    · next hword =>
      cases h
      exact Token.spells_keyword_iff.2 hword
  · cases h

theorem spells_of_subroutineLead {t : Token} {lead : Offset × SubroutineKind}
    (h : subroutineLead t = some lead) : t.Spells (.keyword lead.2.keyword) := by
  rw [subroutineLead] at h
  split at h
  iterate 3
    · next hword =>
      cases h
      exact Token.spells_keyword_iff.2 hword
  · cases h

theorem spells_of_varLead {t : Token} {start : Offset} (h : varLead t = some start) :
    t.Spells (.keyword .kwVar) := by
  rw [varLead, Option.ite_none_right_eq_some] at h
  exact Token.spells_keyword_iff.2 h.1

theorem reads_type : Reads type fun ws ty => ws = [ty.terminal] :=
  reads_next _ _ fun _ _ ht => ⟨_, spells_of_type? ht, rfl⟩

theorem reads_returnType : Reads returnType fun ws ty => ws = [ty.terminal] := by
  refine (reads_keyword? .kwVoid).bind fun word _ hword => ?_
  split
  · exact reads_pure (by simp [hword, ReturnType.terminal])
  · exact reads_type.bind fun ty _ hty => reads_pure (by simp [hword, hty, ReturnType.terminal])

theorem reads_declaredNames (rule : Rule) (type : TypeName) (storage : Storage)
    (scopes : Scopes) :
    Reads (declaredNames rule type storage scopes)
      fun ws r => ws = namesTerminals r.1 ∧ r.1 ≠ [] := by
  refine (reads_commaSeparated (I := fun _ => True)
    (fun r => r.1.reverse.map fun name => [.identifier name.text]) ?item rfl trivial).bind ?list
  case item =>
    intro r _
    refine reads_identifier.bind fun name _ hname => ?_
    refine (stays_declare r.2 name type storage).reads fun _ => reads_pure ⟨?_, trivial⟩
    simp [hname]
  case list =>
    rintro r _ ⟨hr, hne, -⟩
    exact reads_pure ⟨by simp [hr, namesTerminals], by simpa using hne⟩

theorem reads_classVarDec (scopes : Scopes) (start : Offset) (kind : ClassVarKind) :
    Reads (classVarDec scopes start kind)
      fun ws r => .keyword kind.keyword :: ws = r.1.terminals ∧ r.1.names ≠ [] := by
  refine reads_type.bind fun ty _ hty => (reads_declaredNames _ ty _ scopes).bind ?_
  rintro r _ ⟨hr, hne⟩
  refine (reads_symbol ';').bind fun _ _ hend => (stays_spanFrom _).reads fun _ => ?_
  refine reads_pure ⟨?_, hne⟩
  simp [hty, hr, hend, ClassVarDec.terminals]

theorem reads_classVarDecs :
    Reads classVarDecs
      fun ws r => ws = r.1.flatMap ClassVarDec.terminals ∧ ∀ d ∈ r.1, d.names ≠ [] := by
  refine (reads_fold (I := fun ws (r : List ClassVarDec × Scopes) =>
      ws = r.1.reverse.flatMap ClassVarDec.terminals ∧ ∀ d ∈ r.1, d.names ≠ [])
    (fun t lead ht => ⟨_, spells_of_classVarLead ht, ?_⟩) ⟨rfl, List.forall_mem_nil _⟩).bind
    fun r _ hr => reads_pure (by simpa using hr)
  rintro ws r ⟨hws, hdecs⟩
  refine (reads_classVarDec r.2 lead.1 lead.2).bind ?_
  rintro r' _ ⟨hr', hne⟩
  refine reads_pure ⟨?_, List.forall_mem_cons.2 ⟨hne, hdecs⟩⟩
  simp [hws, ← hr']

theorem reads_parameters (scopes : Scopes) :
    Reads (parameters scopes)
      fun ws r => ws = withCommas (r.1.map Parameter.terminals) := by
  unfold parameters
  refine (stays_atSymbol _).reads fun atEnd => ?_
  split
  · exact reads_pure rfl
  · refine (reads_commaSeparated (I := fun _ => True)
      (fun r => r.1.reverse.map Parameter.terminals) ?item rfl trivial).bind ?list
    case item =>
      intro r _
      refine reads_type.bind fun ty _ hty => reads_identifier.bind fun name _ hname => ?_
      refine (stays_declare r.2 name ty .argument).reads fun _ => reads_pure ⟨?_, trivial⟩
      simp [hty, hname, Parameter.terminals]
    case list =>
      rintro r _ ⟨hr, -, -⟩
      exact reads_pure (by simp [hr])

theorem reads_varDec (scopes : Scopes) (start : Offset) :
    Reads (varDec scopes start)
      fun ws r => .keyword .kwVar :: ws = r.1.terminals ∧ r.1.names ≠ [] := by
  refine reads_type.bind fun ty _ hty => (reads_declaredNames _ ty _ scopes).bind ?_
  rintro r _ ⟨hr, hne⟩
  refine (reads_symbol ';').bind fun _ _ hend => (stays_spanFrom _).reads fun _ => ?_
  refine reads_pure ⟨?_, hne⟩
  simp [hty, hr, hend, VarDec.terminals]

theorem reads_varDecs (scopes : Scopes) :
    Reads (varDecs scopes)
      fun ws r => ws = r.1.flatMap VarDec.terminals ∧ ∀ d ∈ r.1, d.names ≠ [] := by
  refine (reads_fold (I := fun ws (r : List VarDec × Scopes) =>
      ws = r.1.reverse.flatMap VarDec.terminals ∧ ∀ d ∈ r.1, d.names ≠ [])
    (fun t start ht => ⟨_, spells_of_varLead ht, ?_⟩) ⟨rfl, List.forall_mem_nil _⟩).bind
    fun r _ hr => reads_pure (by simpa using hr)
  rintro ws r ⟨hws, hdecs⟩
  refine (reads_varDec r.2 start).bind ?_
  rintro r' _ ⟨hr', hne⟩
  refine reads_pure ⟨?_, List.forall_mem_cons.2 ⟨hne, hdecs⟩⟩
  simp [hws, ← hr']

theorem stays_subroutineScopes (className : String) (scopes : Scopes) (kind : SubroutineKind)
    (name : Ident) : Stays (subroutineScopes className scopes kind name) := by
  unfold subroutineScopes
  split
  · exact stays_declare _ _ _ _
  · exact fun _ _ _ h => (pure_eq_ok_iff.1 h).2.symm
  · exact fun _ _ _ h => (pure_eq_ok_iff.1 h).2.symm

theorem reads_subroutineDec (className : String) (scopes : Scopes) (start : Offset)
    (kind : SubroutineKind) :
    Reads (subroutineDec className scopes start kind) fun ws s =>
      .keyword kind.keyword :: ws = s.terminals ∧ s.IsGrammatical ∧ s.nesting ≤ maxNesting := by
  refine reads_returnType.bind fun ty _ hty => reads_identifier.bind fun name _ hname => ?_
  refine (stays_subroutineScopes className scopes kind name).reads fun scopes₁ => ?_
  refine (reads_symbol '(').bind fun _ _ hopen => ?_
  refine (reads_parameters scopes₁).bind fun parameters _ hparameters => ?_
  refine (reads_symbol ')').bind fun _ _ hclose => (reads_symbol '{').bind fun _ _ hbody => ?_
  refine (reads_varDecs parameters.2).bind ?_
  rintro decs _ ⟨hdecs, hne⟩
  refine (reads_statements decs.2.resolve maxNesting).bind ?_
  rintro statements _ ⟨hstatements, hn⟩
  refine (reads_symbol '}').bind fun _ _ hend => (stays_spanFrom _).reads fun _ => ?_
  refine reads_pure ⟨?_, hne, hn⟩
  simp [hty, hname, hopen, hparameters, hclose, hbody, hdecs, hstatements, hend,
    SubroutineDec.terminals]

theorem reads_subroutineDecs (className : String) (scopes : Scopes) :
    Reads (subroutineDecs className scopes) fun ws ss =>
      ws = ss.flatMap SubroutineDec.terminals ∧
        ∀ s ∈ ss, s.IsGrammatical ∧ s.nesting ≤ maxNesting := by
  refine (reads_fold (I := fun ws (done : List SubroutineDec) =>
      ws = done.reverse.flatMap SubroutineDec.terminals ∧
        ∀ s ∈ done, s.IsGrammatical ∧ s.nesting ≤ maxNesting)
    ?item ⟨rfl, List.forall_mem_nil _⟩).bind ?list
  case item =>
    refine fun t lead ht => ⟨_, spells_of_subroutineLead ht, ?_⟩
    rintro ws done ⟨hws, hdone⟩
    refine (reads_subroutineDec className scopes lead.1 lead.2).bind ?_
    rintro s _ ⟨hs, hn⟩
    refine reads_pure ⟨?_, List.forall_mem_cons.2 ⟨hn, hdone⟩⟩
    simp [hws, ← hs]
  case list =>
    rintro done _ ⟨hdone, hall⟩
    exact reads_pure ⟨by simpa using hdone, fun s hs => hall s (List.mem_reverse.1 hs)⟩

/-- A class is written with the tokens that it is read from. -/
theorem reads_classDec :
    Reads classDec fun ws parsed =>
      ws = parsed.tree.terminals ∧ parsed.tree.IsGrammatical ∧
        parsed.tree.nesting ≤ maxNesting := by
  refine stays_offset.reads fun start => (reads_keyword .kwClass).bind fun _ _ hclass => ?_
  refine reads_identifier.bind fun name _ hname => (reads_symbol '{').bind fun _ _ hopen => ?_
  refine reads_classVarDecs.bind ?_
  rintro decs _ ⟨hdecs, hne⟩
  refine (reads_subroutineDecs name.text decs.2).bind ?_
  rintro subs _ ⟨hsubs, hall⟩
  refine (reads_symbol '}').bind fun _ _ hend => (stays_spanFrom _).reads fun _ => ?_
  refine reads_pure ⟨?_, ⟨hne, fun s hs => (hall s hs).1⟩,
    ClassDec.nesting_le_iff.2 fun s hs => (hall s hs).2⟩
  simp [hclass, hname, hopen, hdecs, hsubs, hend, ClassDec.terminals]

end Parser

theorem spells_of_parse {tokens : List Token} {parsed : ParsedClass}
    (h : parse tokens = .ok parsed) : List.Forall₂ Token.Spells tokens parsed.tree.terminals := by
  obtain ⟨c, hclass, hrest⟩ := parse_eq_ok_iff.1 h
  obtain ⟨taken, ws, htaken, hws, rfl, -⟩ := Parser.reads_classDec hclass
  have htokens : tokens = taken := by simpa [hrest] using htaken.rest_eq
  exact htokens ▸ hws

theorem nesting_le_of_parse {tokens : List Token} {parsed : ParsedClass}
    (h : parse tokens = .ok parsed) : parsed.tree.nesting ≤ maxNesting := by
  obtain ⟨c, hclass, -⟩ := parse_eq_ok_iff.1 h
  obtain ⟨taken, ws, -, -, -, -, hn⟩ := Parser.reads_classDec hclass
  exact hn

theorem isGrammatical_of_parse {tokens : List Token} {parsed : ParsedClass}
    (h : parse tokens = .ok parsed) : parsed.tree.IsGrammatical := by
  obtain ⟨c, hclass, -⟩ := parse_eq_ok_iff.1 h
  obtain ⟨taken, ws, -, -, -, hgrammatical, -⟩ := Parser.reads_classDec hclass
  exact hgrammatical

/-- **A list of tokens is what its class is written with**, token by token, and the class is not
nested deeper than 64 levels. -/
theorem terminals_of_parse {tokens : List Token} {parsed : ParsedClass}
    (h : parse tokens = .ok parsed) :
    List.Forall₂ Token.Spells tokens parsed.tree.terminals ∧ parsed.tree.nesting ≤ 64 :=
  ⟨spells_of_parse h, nesting_le_of_parse h⟩

theorem terminals_of_parse_gauge :
    ∃ parsed, parse Gauge.tokens = .ok parsed ∧
      List.Forall₂ Token.Spells Gauge.tokens parsed.tree.terminals ∧
        parsed.tree.nesting ≤ 64 := by
  obtain ⟨parsed, h⟩ := Gauge.exists_parse_tokens
  exact ⟨parsed, h, terminals_of_parse h⟩

end Jack

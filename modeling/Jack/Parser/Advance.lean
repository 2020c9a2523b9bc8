import Jack.Parser.Compositional

/-!
# Parsers move forward

Whatever a parser of this grammar reads, it takes from the front of the tokens that are left
(`Parser.Advances`).  The property holds of the parsers of single tokens, sequences and repetitions
keep it, and so every production has it (`compositional_advances`, `advances_expression`,
`advances_statements`, `advances_classDec`).  It is also why `Parser.fold` has rounds enough:
`fold_eq` says what a repetition does without counting them.
-/

namespace Jack

namespace Cursor

/-- The tokens of the unit, those that are taken and those that are left. -/
def tokens (c : Cursor) : List Token := c.passed.reverse ++ c.rest

/-- The cursor moved from `c` to `c'` over the tokens `taken`. -/
structure Passes (c : Cursor) (taken : List Token) (c' : Cursor) : Prop where
  /-- The tokens stood at the front of what was left. -/
  rest_eq : c.rest = taken ++ c'.rest
  /-- The tokens are now the last ones taken. -/
  passed_eq : c'.passed = taken.reverse ++ c.passed

theorem Passes.refl (c : Cursor) : c.Passes [] c := ⟨rfl, rfl⟩

theorem Passes.trans {c c' c'' : Cursor} {taken taken' : List Token} (h : c.Passes taken c')
    (h' : c'.Passes taken' c'') : c.Passes (taken ++ taken') c'' :=
  ⟨by rw [h.rest_eq, h'.rest_eq, List.append_assoc],
    by rw [h'.passed_eq, h.passed_eq, List.reverse_append, List.append_assoc]⟩

/-- A way over two lists of tokens has a place between them. -/
theorem Passes.split {c c'' : Cursor} {taken taken' : List Token}
    (h : c.Passes (taken ++ taken') c'') : ∃ c', c.Passes taken c' ∧ c'.Passes taken' c'' := by
  refine ⟨⟨taken.reverse ++ c.passed, taken' ++ c''.rest⟩, ⟨?_, rfl⟩, ⟨rfl, ?_⟩⟩
  · rw [h.rest_eq, List.append_assoc]
  · rw [h.passed_eq, List.reverse_append, List.append_assoc]

theorem Passes.eq_of_nil {c c' : Cursor} (h : c.Passes [] c') : c' = c := by
  obtain ⟨passed, rest⟩ := c'
  obtain ⟨hrest, hpassed⟩ := h
  simp only [List.nil_append, List.reverse_nil] at hrest hpassed
  rw [hpassed, ← hrest]

theorem Passes.tokens_eq {c c' : Cursor} {taken : List Token} (h : c.Passes taken c') :
    c'.tokens = c.tokens := by
  rw [tokens, tokens, h.passed_eq, h.rest_eq, List.reverse_append, List.reverse_reverse,
    List.append_assoc]

theorem passes_singleton_iff {c c' : Cursor} {t : Token} :
    c.Passes [t] c' ↔ c.rest = t :: c'.rest ∧ c'.passed = t :: c.passed :=
  ⟨fun h => ⟨h.rest_eq, h.passed_eq⟩, fun h => ⟨h.1, h.2⟩⟩

theorem expected_of_fault {c : Cursor} {expected : Expectation} {rule : Rule} {f : SyntaxFault}
    {span : Span} (h : c.fault expected rule = .parse f span) : f.expected = expected := by
  rw [fault] at h
  split at h <;> cases h <;> rfl

end Cursor

namespace Parser

variable {α β σ : Type}

/-! ### Outcomes -/

theorem bind_eq_ok_iff {p : Parser α} {f : α → Parser β} {c c'' : Cursor} {b : β} :
    (p >>= f) c = .ok (b, c'') ↔ ∃ a c', p c = .ok (a, c') ∧ f a c' = .ok (b, c'') := by
  simp only [Bind.bind, StateT.bind, Except.bind]
  cases h : p c with
  | error e => simp
  | ok v => exact ⟨fun h' => ⟨v.1, v.2, rfl, h'⟩, by rintro ⟨a, c', h', h''⟩; cases h'; exact h''⟩

theorem bind_eq_error_iff {p : Parser α} {f : α → Parser β} {c : Cursor} {e : CompileError} :
    (p >>= f) c = .error e ↔
      p c = .error e ∨ ∃ a c', p c = .ok (a, c') ∧ f a c' = .error e := by
  simp only [Bind.bind, StateT.bind, Except.bind]
  cases h : p c with
  | error e' => simp
  | ok v =>
    constructor
    · intro hf
      exact .inr ⟨v.1, v.2, rfl, hf⟩
    · rintro (hp | ⟨a, c', hp, hf⟩)
      · cases hp
      · cases hp
        exact hf

theorem bind_of_ok {p : Parser α} {f : α → Parser β} {c c' : Cursor} {a : α}
    (h : p c = .ok (a, c')) : (p >>= f) c = f a c' := by
  simp only [Bind.bind, StateT.bind, Except.bind, h]

theorem bind_of_error {p : Parser α} {f : α → Parser β} {c : Cursor} {e : CompileError}
    (h : p c = .error e) : (p >>= f) c = .error e := by
  simp only [Bind.bind, StateT.bind, Except.bind, h]

theorem pure_eq_ok_iff {a b : α} {c c' : Cursor} :
    (pure a : Parser α) c = .ok (b, c') ↔ a = b ∧ c = c' := by
  show (.ok (a, c) : Except CompileError (α × Cursor)) = .ok (b, c') ↔ _
  simp

theorem next_eq_ok_iff {select : Token → Option α} {expected : Expectation} {rule : Rule}
    {c c' : Cursor} {a : α} :
    next select expected rule c = .ok (a, c') ↔ ∃ t, select t = some a ∧ c.Passes [t] c' := by
  obtain ⟨passed, rest⟩ := c
  constructor
  · intro h
    cases rest with
    | nil => simp [next, fail] at h
    | cons t rest =>
      simp only [next] at h
      split at h
      · next ha =>
        cases h
        exact ⟨t, ha, rfl, rfl⟩
      · simp [fail] at h
  · rintro ⟨t, ha, ht⟩
    obtain ⟨passed', rest'⟩ := c'
    obtain ⟨hrest, hpassed⟩ := Cursor.passes_singleton_iff.1 ht
    simp only at hrest hpassed
    subst hrest hpassed
    simp [next, ha]

theorem next?_eq_some_iff {select : Token → Option α} {c c' : Cursor} {a : α} :
    next? select c = .ok (some a, c') ↔ ∃ t, select t = some a ∧ c.Passes [t] c' := by
  obtain ⟨passed, rest⟩ := c
  constructor
  · intro h
    cases rest with
    | nil => simp [next?] at h
    | cons t rest =>
      simp only [next?] at h
      split at h
      · next ha =>
        cases h
        exact ⟨t, ha, rfl, rfl⟩
      · simp at h
  · rintro ⟨t, ha, ht⟩
    obtain ⟨passed', rest'⟩ := c'
    obtain ⟨hrest, hpassed⟩ := Cursor.passes_singleton_iff.1 ht
    simp only at hrest hpassed
    subst hrest hpassed
    simp [next?, ha]

theorem next?_eq_none_iff {select : Token → Option α} {c c' : Cursor} :
    next? select c = .ok (none, c') ↔ c.rest.head?.bind select = none ∧ c' = c := by
  obtain ⟨passed, rest⟩ := c
  cases rest with
  | nil => simp [next?, eq_comm]
  | cons t rest => cases h : select t <;> simp [next?, h, eq_comm]

/-! ### Moving forward -/

/-- The parser takes what it reads from the front of the tokens that are left. -/
def Advances (p : Parser α) : Prop :=
  ∀ ⦃c : Cursor⦄ ⦃a : α⦄ ⦃c' : Cursor⦄, p c = .ok (a, c') → ∃ taken, c.Passes taken c'

theorem Advances.length_le {p : Parser α} (hp : Advances p) {c c' : Cursor} {a : α}
    (h : p c = .ok (a, c')) : c'.rest.length ≤ c.rest.length := by
  obtain ⟨taken, ht⟩ := hp h
  simp [ht.rest_eq]

theorem Advances.bind {p : Parser α} {f : α → Parser β} (hp : Advances p)
    (hf : ∀ a, Advances (f a)) : Advances (p >>= f) := by
  intro c b c'' h
  obtain ⟨a, c', h, h'⟩ := bind_eq_ok_iff.1 h
  obtain ⟨taken, ht⟩ := hp h
  obtain ⟨taken', ht'⟩ := hf a h'
  exact ⟨_, ht.trans ht'⟩

theorem advances_pure (a : α) : Advances (pure a : Parser α) := by
  intro c b c' h
  obtain ⟨-, rfl⟩ := pure_eq_ok_iff.1 h
  exact ⟨[], .refl c⟩

theorem advances_fail (expected : Expectation) (rule : Rule) :
    Advances (fail expected rule : Parser α) := by
  intro c a c' h
  simp [fail] at h

theorem advances_offset : Advances offset := by
  intro c a c' h
  simp only [offset, Except.ok.injEq, Prod.mk.injEq] at h
  exact ⟨[], h.2 ▸ .refl c⟩

theorem advances_spanFrom (start : Offset) : Advances (spanFrom start) := by
  intro c a c' h
  simp only [spanFrom, Except.ok.injEq, Prod.mk.injEq] at h
  exact ⟨[], h.2 ▸ .refl c⟩

theorem advances_atSymbol (ch : Char) : Advances (atSymbol ch) := by
  intro c a c' h
  simp only [atSymbol, Except.ok.injEq, Prod.mk.injEq] at h
  exact ⟨[], h.2 ▸ .refl c⟩

theorem advances_next (select : Token → Option α) (expected : Expectation) (rule : Rule) :
    Advances (next select expected rule) := by
  intro c a c' h
  obtain ⟨t, -, ht⟩ := next_eq_ok_iff.1 h
  exact ⟨[t], ht⟩

theorem advances_next? (select : Token → Option α) : Advances (next? select) := by
  intro c a c' h
  cases a with
  | some a =>
    obtain ⟨t, -, ht⟩ := next?_eq_some_iff.1 h
    exact ⟨[t], ht⟩
  | none =>
    obtain ⟨-, rfl⟩ := next?_eq_none_iff.1 h
    exact ⟨[], .refl _⟩

/-! ### Repetition -/

/-- What the loop of a repetition does while it has rounds left. -/
theorem foldRounds_cons (lead : Token → Option β) (item : σ → β → Parser σ) (r : Token)
    (rounds : List Token) (s : σ) :
    foldRounds lead item (r :: rounds) s = (next? lead >>= fun b? =>
      match b? with
      | none => pure s
      | some b => item s b >>= foldRounds lead item rounds) := by
  funext c
  simp only [Bind.bind, StateT.bind, Except.bind]
  rw [foldRounds]
  rcases next? lead c with e | ⟨_ | b, c₁⟩
  · rfl
  · rfl
  · simp only [StateT.bind, Bind.bind, Except.bind]
    rcases item s b c₁ with e | v <;> rfl

theorem foldRounds_of_rest_eq_nil {lead : Token → Option β} {item : σ → β → Parser σ}
    (rounds : List Token) (s : σ) {c : Cursor} (h : c.rest = []) :
    foldRounds lead item rounds s c = .ok (s, c) := by
  cases rounds with
  | nil => rfl
  | cons r rounds =>
    rw [foldRounds, next?_eq_none_iff.2 ⟨by simp [h], rfl⟩]

/-- Rounds that are not needed change nothing. -/
theorem foldRounds_eq_of_length_le {lead : Token → Option β} {item : σ → β → Parser σ}
    (hitem : ∀ s b, Advances (item s b)) (rounds rounds' : List Token) (s : σ) (c : Cursor)
    (h : c.rest.length ≤ rounds.length) (h' : c.rest.length ≤ rounds'.length) :
    foldRounds lead item rounds s c = foldRounds lead item rounds' s c := by
  induction rounds generalizing rounds' s c with
  | nil =>
    have hc : c.rest = [] := by simpa using h
    rw [foldRounds_of_rest_eq_nil _ _ hc, foldRounds_of_rest_eq_nil _ _ hc]
  | cons r rounds ih =>
    cases rounds' with
    | nil =>
      have hc : c.rest = [] := by simpa using h'
      rw [foldRounds_of_rest_eq_nil _ _ hc, foldRounds_of_rest_eq_nil _ _ hc]
    | cons r' rounds' =>
      simp only [foldRounds]
      split
      · rfl
      · rfl
      · next b c₁ hb =>
        obtain ⟨t, -, ht⟩ := next?_eq_some_iff.1 hb
        split
        · rfl
        · next s₁ c₂ hs =>
          have := (hitem s b).length_le hs
          simp only [ht.rest_eq, List.length_append, List.length_cons, List.length_nil] at h h'
          exact ih _ _ _ (by omega) (by omega)

/-- What a repetition does: it ends where no item is announced, and goes on after an item where
one is. -/
theorem fold_eq {lead : Token → Option β} {item : σ → β → Parser σ}
    (hitem : ∀ s b, Advances (item s b)) (s : σ) :
    fold lead item s = (next? lead >>= fun b? =>
      match b? with
      | none => pure s
      | some b => item s b >>= fold lead item) := by
  funext c
  simp only [Bind.bind, StateT.bind, Except.bind, fold]
  cases hc : c.rest with
  | nil =>
    rw [foldRounds_of_rest_eq_nil _ _ hc, next?_eq_none_iff.2 ⟨by simp [hc], rfl⟩]
    rfl
  | cons t rest =>
    rw [foldRounds]
    cases hb : next? lead c with
    | error e => rfl
    | ok v =>
      obtain ⟨_ | b, c₁⟩ := v
      · rfl
      · obtain ⟨t', -, ht⟩ := next?_eq_some_iff.1 hb
        have hrest : rest = c₁.rest := by
          have := ht.rest_eq
          simp only [hc, List.cons_append, List.nil_append, List.cons.injEq] at this
          exact this.2
        simp only [StateT.bind, Bind.bind, Except.bind]
        cases hs : item s b c₁ with
        | error e => rfl
        | ok v =>
          exact foldRounds_eq_of_length_le hitem _ _ _ _ (hrest ▸ (hitem s b).length_le hs)
            (Nat.le_refl _)

theorem advances_fold (lead : Token → Option β) {item : σ → β → Parser σ}
    (hitem : ∀ s b, Advances (item s b)) (s : σ) : Advances (fold lead item s) := by
  intro c a c' h
  unfold fold at h
  generalize c.rest = rounds at h
  induction rounds generalizing s c with
  | nil =>
    simp only [foldRounds, Except.ok.injEq, Prod.mk.injEq] at h
    exact ⟨[], h.2 ▸ .refl c⟩
  | cons r rounds ih =>
    rw [foldRounds] at h
    split at h
    · cases h
    · next hb =>
      obtain ⟨-, rfl⟩ := next?_eq_none_iff.1 hb
      simp only [Except.ok.injEq, Prod.mk.injEq] at h
      exact ⟨[], h.2 ▸ .refl _⟩
    · next b c₁ hb =>
      obtain ⟨t, -, ht⟩ := next?_eq_some_iff.1 hb
      split at h
      · cases h
      · next s₁ c₂ hs =>
        obtain ⟨taken, ht'⟩ := hitem s b hs
        obtain ⟨taken', ht''⟩ := ih _ h
        exact ⟨_, ht.trans (ht'.trans ht'')⟩

theorem advances_declare (scopes : Scopes) (name : Ident) (type : TypeName) (storage : Storage) :
    Advances (declare scopes name type storage) := by
  intro c a c' h
  unfold declare at h
  split at h
  · cases h
  · simp only [Except.ok.injEq, Prod.mk.injEq] at h
    exact ⟨[], h.2 ▸ .refl c⟩

/-- Sequences and repetitions move forward. -/
theorem compositional_advances : Compositional fun _ p => Advances p where
  pure := advances_pure
  fail expected rule _ := advances_fail expected rule
  offset := advances_offset
  spanFrom := advances_spanFrom
  atSymbol := advances_atSymbol
  next select expected rule _ := advances_next select expected rule
  next? := advances_next?
  declare := advances_declare
  bind := Advances.bind
  fold := advances_fold

/-! ### Productions -/

theorem advances_termWith (resolve : String → Meaning) {expression : Parser Expr}
    {operand : Parser Term} (he : Advances expression) (ho : Advances operand) :
    Advances (termWith resolve expression operand) := by
  intro c a c' h
  unfold termWith at h
  split at h
  · exact advances_fail _ _ h
  · split at h
    · exact advances_next _ _ _ h
    · exact advances_next _ _ _ h
    · exact advances_next _ _ _ h
    · exact compositional_advances.symbolTerm he ho _ h
    · exact compositional_advances.nameTerm resolve he _ h

section Productions

variable (resolve : String → Meaning)

theorem advances_expressionWith {term : Parser Term} (ht : Advances term) :
    Advances (expressionWith term) :=
  compositional_advances.expressionWith ht

theorem advances_term (levels : Nat) : Advances (term resolve levels) :=
  compositional_advances.term resolve advances_termWith levels

theorem advances_expression (levels : Nat) : Advances (expression resolve levels) :=
  compositional_advances.expression resolve advances_termWith levels

theorem advances_statementWith {expression : Parser Expr} {statements : Parser (List Statement)}
    (he : Advances expression) (hs : Advances statements) (lead : Offset × StatementWord) :
    Advances (statementWith resolve expression statements lead) :=
  compositional_advances.statementWith resolve he hs lead

theorem advances_statements (levels : Nat) : Advances (statements resolve levels) :=
  compositional_advances.statements resolve advances_termWith levels

end Productions

theorem advances_classVarDec (scopes : Scopes) (start : Offset) (kind : ClassVarKind) :
    Advances (classVarDec scopes start kind) :=
  compositional_advances.classVarDec scopes start kind

theorem advances_varDec (scopes : Scopes) (start : Offset) : Advances (varDec scopes start) :=
  compositional_advances.varDec scopes start

theorem advances_subroutineDec (className : String) (scopes : Scopes) (start : Offset)
    (kind : SubroutineKind) : Advances (subroutineDec className scopes start kind) :=
  compositional_advances.subroutineDec advances_termWith className scopes start kind

theorem advances_classDec : Advances classDec :=
  compositional_advances.classDec advances_termWith

end Parser

/-- A class is read from all of its tokens. -/
theorem parse_eq_ok_iff {tokens : List Token} {parsed : ParsedClass} :
    parse tokens = .ok parsed ↔
      ∃ c, Parser.classDec ⟨[], tokens⟩ = .ok (parsed, c) ∧ c.rest = [] := by
  rw [parse]
  constructor
  · intro h
    split at h
    · cases h
    · next c hclass =>
      split at h
      · next hrest =>
        cases h
        exact ⟨c, hclass, hrest⟩
      · cases h
  · rintro ⟨c, hclass, hrest⟩
    simp [hclass, hrest]

end Jack

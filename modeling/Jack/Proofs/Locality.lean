import Jack.Parser.Advance

/-!
# Reading the same tokens elsewhere

What a parser reads depends on the tokens that it takes, on the token behind them and, through the
spans, on the token in front of them.  It reads the same wherever it finds these
(`Parser.Local`).  A parser that ends with a token that it takes does not depend on the next one
either (`Parser.Closed`), so a repetition of such parsers reads the same pieces in any order and in
any selection (`Parser.Rounds`).

* `Parser.compositional_local`, `Parser.local_termWith` : every production is local;
* `Parser.closed_classVarDec`, `Parser.closed_subroutineDec` : declarations are closed;
* `Parser.exists_rounds_of_fold`, `Parser.fold_of_rounds` : a repetition of closed parsers is a
  sequence of pieces.
-/

namespace Jack

namespace Cursor

variable {c c' c'' d d'' : Cursor} {taken taken' : List Token} {t : Token}

/-- The last token taken is one of those that were passed, or the one before them. -/
theorem Passes.head?_passed (h : c.Passes taken c') (h' : d.Passes taken d'')
    (hpassed : d.passed.head? = c.passed.head?) : d''.passed.head? = c'.passed.head? := by
  rw [h.passed_eq, h'.passed_eq, List.head?_append, List.head?_append, hpassed]

/-- The next token is one of those that will be passed, or the one behind them. -/
theorem Passes.head?_rest (h : c.Passes taken c') (h' : d.Passes taken d'')
    (hrest : d''.rest.head? = c'.rest.head?) : d.rest.head? = c.rest.head? := by
  rw [h.rest_eq, h'.rest_eq, List.head?_append, List.head?_append, hrest]

theorem lastStop_congr (h : d.passed.head? = c.passed.head?) : d.lastStop = c.lastStop := by
  obtain ⟨passed, rest⟩ := c
  obtain ⟨passed', rest'⟩ := d
  cases passed <;> cases passed' <;> simp_all [lastStop]

theorem offset_congr (h : d.passed.head? = c.passed.head?) (h' : d.rest.head? = c.rest.head?) :
    d.offset = c.offset := by
  have hstop := lastStop_congr h
  obtain ⟨passed, rest⟩ := c
  obtain ⟨passed', rest'⟩ := d
  cases rest <;> cases rest' <;> simp_all [offset]

end Cursor

namespace Parser

variable {α β σ : Type}

/-! ### Local parsers -/

/-- What the parser answers and takes from the cursor, it answers and takes wherever the tokens that
it takes stand between the same two others. -/
def LocalAt (p : Parser α) (c : Cursor) : Prop :=
  ∀ ⦃a c'⦄, p c = .ok (a, c') → ∃ taken, c.Passes taken c' ∧
    ∀ ⦃d d' : Cursor⦄, d.Passes taken d' → d.passed.head? = c.passed.head? →
      d'.rest.head? = c'.rest.head? → p d = .ok (a, d')

/-- The parser is local at every cursor. -/
def Local (p : Parser α) : Prop := ∀ c, LocalAt p c

theorem Local.advances {p : Parser α} (hp : Local p) : Advances p := by
  intro c a c' h
  obtain ⟨taken, htaken, -⟩ := hp c h
  exact ⟨taken, htaken⟩

theorem LocalAt.bind {p : Parser α} {f : α → Parser β} {c : Cursor} (hp : LocalAt p c)
    (hf : ∀ a c', p c = .ok (a, c') → LocalAt (f a) c') : LocalAt (p >>= f) c := by
  intro b c'' h
  obtain ⟨a, c', ha, hb⟩ := bind_eq_ok_iff.1 h
  obtain ⟨taken, htaken, hp⟩ := hp ha
  obtain ⟨taken', htaken', hf⟩ := hf a c' ha hb
  refine ⟨taken ++ taken', htaken.trans htaken', fun d d'' hd hpassed hrest => ?_⟩
  obtain ⟨d', hd, hd'⟩ := hd.split
  rw [bind_of_ok (hp hd hpassed (htaken'.head?_rest hd' hrest))]
  exact hf hd' (htaken.head?_passed hd hpassed) hrest

/-- A parser that takes no token is local if it answers the same between the same two tokens. -/
theorem local_of_stays {p : Parser α}
    (hp : ∀ ⦃c : Cursor⦄ ⦃a : α⦄ ⦃c' : Cursor⦄, p c = .ok (a, c') → c' = c ∧
      ∀ ⦃d : Cursor⦄, d.passed.head? = c.passed.head? → d.rest.head? = c.rest.head? →
        p d = .ok (a, d)) : Local p := by
  intro c a c' h
  obtain ⟨rfl, hp⟩ := hp h
  refine ⟨[], .refl c', fun d d' hd hpassed hrest => ?_⟩
  obtain rfl := hd.eq_of_nil
  exact hp hpassed hrest

theorem local_pure (a : α) : Local (pure a : Parser α) := local_of_stays fun c b c' h => by
  obtain ⟨rfl, rfl⟩ := pure_eq_ok_iff.1 h
  exact ⟨rfl, fun _ _ _ => rfl⟩

theorem local_fail (expected : Expectation) (rule : Rule) :
    Local (fail expected rule : Parser α) := by
  intro c a c' h
  simp [fail] at h

theorem local_offset : Local offset := local_of_stays fun c n c' h => by
  cases h
  exact ⟨rfl, fun d hpassed hrest => by rw [offset, Cursor.offset_congr hpassed hrest]⟩

theorem local_spanFrom (start : Offset) : Local (spanFrom start) :=
  local_of_stays fun c n c' h => by
    cases h
    refine ⟨rfl, fun d hpassed _ => ?_⟩
    rw [spanFrom, Cursor.spanFrom, Cursor.spanFrom, Cursor.lastStop_congr hpassed]

theorem local_atSymbol (ch : Char) : Local (atSymbol ch) := local_of_stays fun c b c' h => by
  cases h
  exact ⟨rfl, fun d _ hrest => by rw [atSymbol, hrest]⟩

theorem local_declare (scopes : Scopes) (name : Ident) (type : TypeName) (storage : Storage) :
    Local (declare scopes name type storage) := local_of_stays fun c s c' h => by
  unfold declare at h ⊢
  cases hdeclare : scopes.declare name type storage with
  | error e => simp [hdeclare] at h
  | ok r =>
    rw [hdeclare] at h
    cases h
    exact ⟨rfl, fun _ _ _ => rfl⟩

theorem local_next (select : Token → Option α) (expected : Expectation) (rule : Rule) :
    Local (next select expected rule) := by
  intro c a c' h
  obtain ⟨t, ht, htaken⟩ := next_eq_ok_iff.1 h
  exact ⟨[t], htaken, fun d d' hd _ _ => next_eq_ok_iff.2 ⟨t, ht, hd⟩⟩

theorem local_next? (select : Token → Option α) : Local (next? select) := by
  intro c a c' h
  cases a with
  | some a =>
    obtain ⟨t, ht, htaken⟩ := next?_eq_some_iff.1 h
    exact ⟨[t], htaken, fun d d' hd _ _ => next?_eq_some_iff.2 ⟨t, ht, hd⟩⟩
  | none =>
    obtain ⟨hnone, rfl⟩ := next?_eq_none_iff.1 h
    refine ⟨[], .refl _, fun d d' hd _ hrest => ?_⟩
    obtain rfl := hd.eq_of_nil
    exact next?_eq_none_iff.2 ⟨hrest ▸ hnone, rfl⟩

theorem local_fold (lead : Token → Option β) {item : σ → β → Parser σ}
    (hitem : ∀ s b, Local (item s b)) (s : σ) : Local (fold lead item s) := by
  have hadvances : ∀ s b, Advances (item s b) := fun s b => (hitem s b).advances
  intro c
  -- By induction on the number of tokens that are left, round by round.
  induction hn : c.rest.length using Nat.strongRecOn generalizing s c with
  | _ n ih =>
    rw [fold_eq hadvances]
    refine (local_next? lead c).bind fun b? c₁ hb => ?_
    cases b? with
    | none => exact local_pure s c₁
    | some b =>
      obtain ⟨t, -, ht⟩ := next?_eq_some_iff.1 hb
      refine (hitem s b c₁).bind fun s₁ c₂ hs => ih c₂.rest.length ?_ s₁ c₂ rfl
      have hlength := (hadvances s b).length_le hs
      rw [← hn, ht.rest_eq, List.length_append, List.length_singleton]
      omega

theorem compositional_local : Compositional fun _ p => Local p where
  pure := local_pure
  fail expected rule _ := local_fail expected rule
  offset := local_offset
  spanFrom := local_spanFrom
  atSymbol := local_atSymbol
  next select expected rule _ := local_next select expected rule
  next? := local_next?
  declare := local_declare
  bind hp hf c := (hp c).bind fun a c' _ => hf a c'
  fold := local_fold

/-! ### Terms -/

/-- The parser takes at least one token. -/
def TakesToken (p : Parser α) : Prop :=
  ∀ ⦃c : Cursor⦄ ⦃a : α⦄ ⦃c' : Cursor⦄, p c = .ok (a, c') → c'.rest.length < c.rest.length

theorem TakesToken.bind {p : Parser α} {f : α → Parser β} (hp : TakesToken p)
    (hf : ∀ a, Advances (f a)) : TakesToken (p >>= f) := by
  intro c b c'' h
  obtain ⟨a, c', ha, hb⟩ := bind_eq_ok_iff.1 h
  have hfirst := hp ha
  have hrest := (hf a).length_le hb
  omega

theorem takesToken_next (select : Token → Option α) (expected : Expectation) (rule : Rule) :
    TakesToken (next select expected rule) := by
  intro c a c' h
  obtain ⟨t, -, ht⟩ := next_eq_ok_iff.1 h
  simp [ht.rest_eq]

theorem takesToken_subroutineCall (resolve : String → Meaning) {expression : Parser Expr}
    (he : Advances expression) : TakesToken (subroutineCall resolve expression) := by
  intro c call c' h
  obtain ⟨start, c₁, hstart, h⟩ := bind_eq_ok_iff.1 h
  cases hstart
  refine TakesToken.bind (takesToken_next _ _ _) (fun first => ?_) h
  exact (compositional_advances.callee resolve first).bind fun _ => (advances_next _ _ _).bind
    fun _ => (compositional_advances.arguments he).bind fun _ => (advances_next _ _ _).bind
      fun _ => (advances_spanFrom _).bind fun _ => advances_pure _

theorem takesToken_nameTerm (resolve : String → Meaning) {expression : Parser Expr}
    (he : Advances expression) (after : Option Token) :
    TakesToken (nameTerm resolve expression after) := by
  unfold nameTerm
  split
  · exact (takesToken_next _ _ _).bind fun _ => (advances_next _ _ _).bind fun _ => he.bind
      fun _ => (advances_next _ _ _).bind fun _ => advances_pure _
  · exact (takesToken_subroutineCall resolve he).bind fun _ => advances_pure _
  · exact (takesToken_subroutineCall resolve he).bind fun _ => advances_pure _
  · exact (takesToken_next _ _ _).bind fun _ => advances_pure _

theorem takesToken_symbolTerm {expression : Parser Expr} {operand : Parser Term}
    (he : Advances expression) (ho : Advances operand) (t : Token) :
    TakesToken (symbolTerm expression operand t) := by
  unfold symbolTerm
  split
  · exact (takesToken_next _ _ _).bind fun _ => he.bind fun _ => (advances_next _ _ _).bind
      fun _ => (advances_spanFrom _).bind fun _ => advances_pure _
  · exact (takesToken_next _ _ _).bind fun _ => ho.bind fun _ => (advances_spanFrom _).bind
      fun _ => advances_pure _

/-- A parser that looks two tokens ahead to choose another one is local, if that one is and takes a
token. -/
theorem LocalAt.of_take_two {p q : Parser α} {c : Cursor} (hq : LocalAt q c) (htakes : TakesToken q)
    (hpq : ∀ d : Cursor, d.rest.take 2 = c.rest.take 2 → p d = q d) : LocalAt p c := by
  intro a c' h
  rw [hpq c rfl] at h
  obtain ⟨taken, htaken, hq⟩ := hq h
  refine ⟨taken, htaken, fun d d' hd hpassed hrest => ?_⟩
  rw [hpq d, hq hd hpassed hrest]
  cases taken with
  | nil =>
    have hstays := htakes h
    rw [htaken.eq_of_nil] at hstays
    exact absurd hstays (Nat.lt_irrefl _)
  | cons t taken =>
    have hnext : (taken ++ d'.rest).head? = (taken ++ c'.rest).head? := by
      rw [List.head?_append, List.head?_append, hrest]
    rw [hd.rest_eq, htaken.rest_eq, List.cons_append, List.cons_append, List.take_succ_cons,
      List.take_succ_cons, List.take_one, List.take_one, hnext]

/-- The parser that reads a term which starts with the token `t` and goes on with the token
`after`. -/
def termFrom (resolve : String → Meaning) (expression : Parser Expr) (operand : Parser Term)
    (t : Token) (after : Option Token) : Parser Term :=
  match t.kind with
  | .integerConstant =>
    constant (fun t => (integerConstant? t.text).map (.integer · t.span)) .integerConstant
  | .stringConstant => constant (fun t => some (.string t.text t.span)) .term
  | .keyword =>
    constant (fun t => (t.keyword?.bind KeywordConstant.ofKeyword?).map (.keyword · t.span)) .term
  | .symbol => symbolTerm expression operand t
  | .identifier => nameTerm resolve expression after

theorem termWith_eq_termFrom {resolve : String → Meaning} {expression : Parser Expr}
    {operand : Parser Term} {c : Cursor} {t : Token} {rest : List Token} (h : c.rest = t :: rest) :
    termWith resolve expression operand c = termFrom resolve expression operand t rest.head? c := by
  unfold termWith termFrom
  rw [h]
  cases hkind : t.kind <;> simp [hkind]

theorem local_termFrom (resolve : String → Meaning) {expression : Parser Expr}
    {operand : Parser Term} (he : Local expression) (ho : Local operand) (t : Token)
    (after : Option Token) : Local (termFrom resolve expression operand t after) := by
  unfold termFrom
  split
  · exact local_next _ _ _
  · exact local_next _ _ _
  · exact local_next _ _ _
  · exact compositional_local.symbolTerm he ho t
  · exact compositional_local.nameTerm resolve he after

theorem takesToken_termFrom (resolve : String → Meaning) {expression : Parser Expr}
    {operand : Parser Term} (he : Advances expression) (ho : Advances operand) (t : Token)
    (after : Option Token) : TakesToken (termFrom resolve expression operand t after) := by
  unfold termFrom
  split
  · exact takesToken_next _ _ _
  · exact takesToken_next _ _ _
  · exact takesToken_next _ _ _
  · exact takesToken_symbolTerm he ho t
  · exact takesToken_nameTerm resolve he after

theorem local_termWith (resolve : String → Meaning) {expression : Parser Expr}
    {operand : Parser Term} (he : Local expression) (ho : Local operand) :
    Local (termWith resolve expression operand) := by
  intro c
  cases hc : c.rest with
  | nil =>
    intro a c' h
    simp [termWith, hc, fail] at h
  | cons t rest =>
    refine (local_termFrom resolve he ho t rest.head? c).of_take_two
      (takesToken_termFrom resolve he.advances ho.advances t _) fun d hd => ?_
    have hhead : ∀ rest : List Token, (rest.take 1).head? = rest.head? := fun rest => by
      cases rest <;> rfl
    rw [hc, List.take_succ_cons] at hd
    cases hrest : d.rest with
    | nil => simp [hrest] at hd
    | cons t' rest' =>
      rw [hrest, List.take_succ_cons, List.cons.injEq] at hd
      obtain ⟨rfl, hd⟩ := hd
      rw [termWith_eq_termFrom hrest, ← hhead rest', hd, hhead]

/-! ### Closed parsers -/

/-- The parser takes at least one token, and what it answers does not depend on what is behind the
tokens that it takes. -/
def Closed (p : Parser α) : Prop :=
  ∀ ⦃c a c'⦄, p c = .ok (a, c') → ∃ taken, taken ≠ [] ∧ c.Passes taken c' ∧
    ∀ ⦃d d' : Cursor⦄, d.Passes taken d' → d.passed.head? = c.passed.head? → p d = .ok (a, d')

theorem Closed.advances {p : Parser α} (hp : Closed p) : Advances p := by
  intro c a c' h
  obtain ⟨taken, -, htaken, -⟩ := hp h
  exact ⟨taken, htaken⟩

theorem closed_next (select : Token → Option α) (expected : Expectation) (rule : Rule) :
    Closed (next select expected rule) := by
  intro c a c' h
  obtain ⟨t, ht, htaken⟩ := next_eq_ok_iff.1 h
  exact ⟨[t], List.cons_ne_nil _ _, htaken, fun d d' hd _ => next_eq_ok_iff.2 ⟨t, ht, hd⟩⟩

/-- A local parser looks at most at the first token of a closed one. -/
theorem Local.bind_closed {p : Parser α} {f : α → Parser β} (hp : Local p)
    (hf : ∀ a, Closed (f a)) : Closed (p >>= f) := by
  intro c b c'' h
  obtain ⟨a, c', ha, hb⟩ := bind_eq_ok_iff.1 h
  obtain ⟨taken, htaken, hp⟩ := hp c ha
  obtain ⟨taken', hne, htaken', hf⟩ := hf a hb
  refine ⟨taken ++ taken', by simp [hne], htaken.trans htaken', fun d d'' hd hpassed => ?_⟩
  obtain ⟨d', hd, hd'⟩ := hd.split
  have hrest : d'.rest.head? = c'.rest.head? := by
    obtain ⟨t, taken', rfl⟩ := List.exists_cons_of_ne_nil hne
    rw [hd'.rest_eq, htaken'.rest_eq, List.cons_append, List.cons_append, List.head?_cons,
      List.head?_cons]
  rw [bind_of_ok (hp hd hpassed hrest)]
  exact hf hd' (htaken.head?_passed hd hpassed)

theorem Closed.bind_pure {p : Parser α} (hp : Closed p) (make : α → β) :
    Closed (p >>= fun a => pure (make a)) := by
  intro c b c' h
  obtain ⟨a, c₁, ha, hb⟩ := bind_eq_ok_iff.1 h
  obtain ⟨rfl, rfl⟩ := pure_eq_ok_iff.1 hb
  obtain ⟨taken, hne, htaken, hp⟩ := hp ha
  exact ⟨taken, hne, htaken, fun d d' hd hpassed => bind_of_ok (hp hd hpassed)⟩

/-- The span up to the last token that is taken closes as well. -/
theorem Closed.bind_spanFrom {p : Parser α} (hp : Closed p) (start : Offset) (make : α → Span → β) :
    Closed (p >>= fun a => spanFrom start >>= fun span => pure (make a span)) := by
  intro c b c' h
  obtain ⟨a, c₁, ha, hb⟩ := bind_eq_ok_iff.1 h
  obtain ⟨span, c₂, hspan, hb⟩ := bind_eq_ok_iff.1 hb
  obtain ⟨rfl, rfl⟩ := pure_eq_ok_iff.1 hb
  cases hspan
  obtain ⟨taken, hne, htaken, hp⟩ := hp ha
  refine ⟨taken, hne, htaken, fun d d' hd hpassed => ?_⟩
  have hstop : d'.lastStop = c₁.lastStop :=
    Cursor.lastStop_congr (htaken.head?_passed hd hpassed)
  have hspan : spanFrom start d' = .ok (c₁.spanFrom start, d') := by
    rw [spanFrom, Cursor.spanFrom, Cursor.spanFrom, hstop]
  rw [bind_of_ok (hp hd hpassed), bind_of_ok hspan]
  rfl

theorem closed_classVarDec (scopes : Scopes) (start : Offset) (kind : ClassVarKind) :
    Closed (classVarDec scopes start kind) :=
  (local_next _ _ _).bind_closed fun _ =>
    (compositional_local.declaredNames _ _ _ _).bind_closed fun _ =>
      (closed_next _ _ _).bind_spanFrom _ _

theorem closed_subroutineDec (className : String) (scopes : Scopes) (start : Offset)
    (kind : SubroutineKind) : Closed (subroutineDec className scopes start kind) :=
  compositional_local.returnType.bind_closed fun _ => (local_next _ _ _).bind_closed fun _ =>
    (compositional_local.subroutineScopes _ _ _ _).bind_closed fun _ =>
      (local_next _ _ _).bind_closed fun _ =>
        (compositional_local.parameters _).bind_closed fun _ =>
          (local_next _ _ _).bind_closed fun _ => (local_next _ _ _).bind_closed fun _ =>
            (compositional_local.varDecs _).bind_closed fun _ =>
              (compositional_local.statements _ local_termWith _).bind_closed fun _ =>
                (closed_next _ _ _).bind_spanFrom _ _

/-! ### Repetitions of closed parsers -/

section Rounds

variable {lead : Token → Option β} {item : σ → β → Parser σ}

/-- The pieces are rounds of a repetition, wherever they stand. -/
inductive Rounds (lead : Token → Option β) (item : σ → β → Parser σ) :
    σ → List (List Token) → σ → Prop where
  /-- No round. -/
  | nil (s : σ) : Rounds lead item s [] s
  /-- A piece that starts with a token which announces an item, and further rounds. -/
  | cons {s s₁ s' : σ} {b : β} {t : Token} {taken : List Token} {pieces : List (List Token)}
    (hlead : lead t = some b)
    (hitem : ∀ ⦃d d' : Cursor⦄, d.Passes taken d' → d.passed.head? = some t →
      item s b d = .ok (s₁, d'))
    (hrounds : Rounds lead item s₁ pieces s') :
    Rounds lead item s ((t :: taken) :: pieces) s'

/-- A repetition of closed parsers reads rounds, up to a token that announces no item. -/
theorem exists_rounds_of_fold (hitem : ∀ s b, Closed (item s b)) {s s' : σ} {c c' : Cursor}
    (h : fold lead item s c = .ok (s', c')) : ∃ pieces, Rounds lead item s pieces s' ∧
      c.Passes pieces.flatten c' ∧ c'.rest.head?.bind lead = none := by
  have hadvances : ∀ s b, Advances (item s b) := fun s b => (hitem s b).advances
  induction hn : c.rest.length using Nat.strongRecOn generalizing s c with
  | _ n ih =>
    rw [fold_eq hadvances] at h
    obtain ⟨b?, c₁, hb, hround⟩ := bind_eq_ok_iff.1 h
    cases b? with
    | none =>
      obtain ⟨hnone, rfl⟩ := next?_eq_none_iff.1 hb
      obtain ⟨rfl, rfl⟩ := pure_eq_ok_iff.1 hround
      exact ⟨[], .nil s, .refl _, hnone⟩
    | some b =>
      obtain ⟨t, hlead, ht⟩ := next?_eq_some_iff.1 hb
      obtain ⟨s₁, c₂, hs, hrounds⟩ := bind_eq_ok_iff.1 hround
      obtain ⟨taken, -, htaken, hsame⟩ := hitem s b hs
      have hlt : c₂.rest.length < n := by
        rw [← hn, ht.rest_eq, htaken.rest_eq]
        simp only [List.length_append, List.length_singleton]
        omega
      obtain ⟨pieces, hrounds, hpieces, hend⟩ := ih _ hlt hrounds rfl
      have hpassed : c₁.passed.head? = some t := by
        rw [ht.passed_eq]
        rfl
      refine ⟨(t :: taken) :: pieces, .cons hlead (fun d d' hd hd' => ?_) hrounds,
        (ht.trans htaken).trans hpieces, hend⟩
      exact hsame hd (hd'.trans hpassed.symm)

/-- Rounds are read as such wherever a token comes behind them that announces no item. -/
theorem fold_of_rounds (hitem : ∀ s b, Advances (item s b)) {s s' : σ} {pieces : List (List Token)}
    (h : Rounds lead item s pieces s') {d d' : Cursor} (hd : d.Passes pieces.flatten d')
    (hend : d'.rest.head?.bind lead = none) : fold lead item s d = .ok (s', d') := by
  induction h generalizing d with
  | nil s =>
    obtain rfl := hd.eq_of_nil
    rw [fold_eq hitem, bind_of_ok (next?_eq_none_iff.2 ⟨hend, rfl⟩)]
    rfl
  | @cons s s₁ s' b t taken pieces hlead hsame _ ih =>
    rw [List.flatten_cons, ← List.singleton_append (l := taken), List.append_assoc] at hd
    obtain ⟨d₁, ht, hd⟩ := hd.split
    obtain ⟨d₂, htaken, hd⟩ := hd.split
    have hpassed : d₁.passed.head? = some t := by
      rw [ht.passed_eq]
      rfl
    rw [fold_eq hitem, bind_of_ok (next?_eq_some_iff.2 ⟨t, hlead, ht⟩)]
    exact (bind_of_ok (hsame htaken hpassed)).trans (ih hd)

end Rounds

end Parser

end Jack

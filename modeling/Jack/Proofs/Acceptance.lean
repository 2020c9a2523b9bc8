import Jack.Parser.Advance
import Jack.Proofs.Events

/-!
# Parsers that accept

`Parser.Accepts` is a triple for parsers: from tokens that are written for the first events the
parser goes on to tokens that are written for the second ones, and what it answers has the property,
or it reports the first limit that the events break.  `Parser.Refuses` says that the next terminal
announces nothing that the parser waits for.

What is read is compared with the tree it was written from without ranges and meanings
(`ClassDec.bare`): the ranges are those of the tokens, and the meanings those of the scopes.

* `Parser.Accepts.bind` : one parser after another;
* `Parser.accepts_fold` : items one after the other, up to a terminal that announces none;
* `Parser.accepts_commaSeparated` : items with commas between them, up to what closes them.
-/

namespace Jack

/-! ### Trees without ranges and meanings -/

/-- A name without its range. -/
def Ident.bare (name : Ident) : Ident := ⟨name.text, .empty 0⟩

/-- A name that is used, without its range and its meaning. -/
def NameUse.bare (name : NameUse) : NameUse := ⟨name.name, .empty 0, .subroutine⟩

theorem Ident.bare_eq_of_text_eq {name name' : Ident} (h : name.text = name'.text) :
    name.bare = name'.bare := by
  rw [bare, bare, h]

theorem NameUse.bare_nameUse {resolve : String → Meaning} {name : Ident} {use : NameUse}
    (h : name.text = use.name) : (Parser.nameUse resolve name).bare = use.bare := by
  rw [bare, bare, Parser.nameUse, h]

mutual

/-- An expression without ranges and meanings. -/
def Expr.bare : Expr → Expr
  | ⟨head, tail, _⟩ => ⟨head.bare, bareTail tail, .empty 0⟩

/-- Operators and their right-hand terms without ranges and meanings. -/
def bareTail : List (BinaryOp × Term) → List (BinaryOp × Term)
  | [] => []
  | (op, t) :: tail => (op, t.bare) :: bareTail tail

/-- A term without ranges and meanings. -/
def Term.bare : Term → Term
  | .integer value _ => .integer value (.empty 0)
  | .string value _ => .string value (.empty 0)
  | .keyword value _ => .keyword value (.empty 0)
  | .var name => .var name.bare
  | .element array index => .element array.bare index.bare
  | .call call => .call call.bare
  | .group inner _ => .group inner.bare (.empty 0)
  | .unary op operand _ => .unary op operand.bare (.empty 0)

/-- A call without ranges and meanings. -/
def Call.bare : Call → Call
  | ⟨receiver, name, arguments, _⟩ =>
    ⟨receiver.map NameUse.bare, name.bare, bareArguments arguments, .empty 0⟩

/-- Arguments without ranges and meanings. -/
def bareArguments : List Expr → List Expr
  | [] => []
  | e :: es => e.bare :: bareArguments es

end

mutual

/-- A statement without ranges and meanings. -/
def Statement.bare : Statement → Statement
  | .assign target index value _ =>
    .assign target.bare (index.map Expr.bare) value.bare (.empty 0)
  | .ifThen condition body _ => .ifThen condition.bare (bareStatements body) (.empty 0)
  | .ifElse condition thenBody elseBody _ =>
    .ifElse condition.bare (bareStatements thenBody) (bareStatements elseBody) (.empty 0)
  | .whileLoop condition body _ => .whileLoop condition.bare (bareStatements body) (.empty 0)
  | .doCall call _ => .doCall call.bare (.empty 0)
  | .ret value _ => .ret (value.map Expr.bare) (.empty 0)

/-- Statements without ranges and meanings. -/
def bareStatements : List Statement → List Statement
  | [] => []
  | s :: ss => s.bare :: bareStatements ss

end

theorem bareTail_eq_map (tail : List (BinaryOp × Term)) :
    bareTail tail = tail.map fun p => (p.1, p.2.bare) := by
  induction tail with
  | nil => rfl
  | cons p tail ih => rw [bareTail, ih, List.map_cons]

theorem bareArguments_eq_map (es : List Expr) : bareArguments es = es.map Expr.bare := by
  induction es with
  | nil => rfl
  | cons e es ih => rw [bareArguments, ih, List.map_cons]

theorem bareStatements_eq_map (ss : List Statement) :
    bareStatements ss = ss.map Statement.bare := by
  induction ss with
  | nil => rfl
  | cons s ss ih => rw [bareStatements, ih, List.map_cons]

/-- A declaration of variables of the class without ranges. -/
def ClassVarDec.bare (d : ClassVarDec) : ClassVarDec :=
  ⟨d.kind, d.type, d.names.map Ident.bare, .empty 0⟩

/-- A declaration of local variables without ranges. -/
def VarDec.bare (d : VarDec) : VarDec := ⟨d.type, d.names.map Ident.bare, .empty 0⟩

/-- A parameter without its range. -/
def Parameter.bare (p : Parameter) : Parameter := ⟨p.type, p.name.bare⟩

/-- A subroutine without ranges and meanings. -/
def SubroutineDec.bare (s : SubroutineDec) : SubroutineDec where
  kind := s.kind
  returnType := s.returnType
  name := s.name.bare
  parameters := s.parameters.map Parameter.bare
  varDecs := s.varDecs.map VarDec.bare
  statements := bareStatements s.statements
  span := .empty 0

/-- A class without ranges and meanings. -/
def ClassDec.bare (c : ClassDec) : ClassDec where
  name := c.name.bare
  varDecs := c.varDecs.map ClassVarDec.bare
  subroutines := c.subroutines.map SubroutineDec.bare
  span := .empty 0

/-! ### Next terminals -/

section Heads

variable {ts : List Token} {ws : List Terminal}

/-- The next token of tokens that spell terminals spells the next terminal. -/
theorem symbol?_head (h : List.Forall₂ Token.Spells ts ws) :
    ts.head?.bind Token.symbol? = ws.head?.bind Terminal.symbol? := by
  cases h with
  | nil => rfl
  | cons ht _ => exact ht.symbol?_eq

/-- What an expression starts with is no symbol that closes or ends what is around it. -/
theorem Expr.symbol?_head_terminals (e : Expr) (ws : List Terminal) {ch : Char}
    (hch : ch ∈ [')', ';']) : (e.terminals ++ ws).head?.bind Terminal.symbol? ≠ some ch := by
  obtain ⟨head, tail, span⟩ := e
  simp only [List.mem_cons, List.not_mem_nil, or_false] at hch
  cases head with
  | unary op operand span =>
    rcases hch with rfl | rfl <;> cases op <;>
      simp [Expr.terminals, Term.terminals, Terminal.symbol?, UnaryOp.symbol]
  | group inner span =>
    rcases hch with rfl | rfl <;> simp [Expr.terminals, Term.terminals, Terminal.symbol?]
  | call c =>
    obtain ⟨_ | receiver, name, arguments, span⟩ := c <;>
      simp [Expr.terminals, Term.terminals, Call.terminals, calleeTerminals, Terminal.symbol?]
  | _ => simp [Expr.terminals, Term.terminals, Terminal.symbol?]

/-- A statement starts with its word. -/
theorem Statement.keyword?_head_terminals (s : Statement) (ws : List Terminal) :
    ∃ w : StatementWord, (s.terminals ++ ws).head?.bind Terminal.keyword? = some w.keyword := by
  cases s with
  | assign target index value span => exact ⟨.letWord, rfl⟩
  | ifThen condition body span => exact ⟨.ifWord, rfl⟩
  | ifElse condition thenBody elseBody span => exact ⟨.ifWord, rfl⟩
  | whileLoop condition body span => exact ⟨.whileWord, rfl⟩
  | doCall call span => exact ⟨.doWord, rfl⟩
  | ret value span => exact ⟨.returnWord, rfl⟩

end Heads

/-! ### Limits -/

/-- The span of the next token, or of the end of the tokens. -/
def Cursor.nextSpan (c : Cursor) : Span :=
  match c.rest with
  | [] => .empty c.lastStop
  | t :: _ => t.span

/-- What is reported of a limit that is broken behind the cursor. -/
def Limit.error (c : Cursor) : Limit → CompileError
  | .depth rule => c.fault .shallowerNesting rule
  | .distinct name => .duplicate name c.nextSpan
  | .room storage name =>
    .lowering (.indexSpaceExhausted storage name maxIndex) (some c.nextSpan)

/-! ### Triples -/

namespace Parser

variable {α β γ σ : Type}

/-- On the way from the first cursor to the second all events are met that the second ones leave,
and none of them breaks a limit. -/
structure Arrives (xs ys : List Event) (c c' : Cursor) : Prop where
  /-- The tokens that are left are those of the events that are left. -/
  spells : List.Forall₂ Token.Spells c'.rest (terminalsOf ys)
  /-- The tokens are the same. -/
  tokens_eq : c'.tokens = c.tokens
  /-- No limit was broken. -/
  firstBreak?_eq : firstBreak? ys = firstBreak? xs

/-- The parser reports the first limit that the events break, where they break it. -/
def Reports (p : Parser α) (xs : List Event) (c : Cursor) : Prop :=
  ∃ l c', firstBreak? xs = some (l, c'.rest.length) ∧ c'.tokens = c.tokens ∧
    p c = .error (l.error c')

/-- At the cursor the parser moves on from the events `xs` to `ys`, and what it answers has the
property; or it reports the first limit that is broken. -/
def AcceptsAt (c : Cursor) (p : Parser α) (xs ys : List Event) (Q : α → Prop) : Prop :=
  (∃ a c', p c = .ok (a, c') ∧ Arrives xs ys c c' ∧ Q a) ∨ Reports p xs c

/-- The parser accepts the events `xs` up to `ys` from all tokens that are written for them. -/
def Accepts (p : Parser α) (xs ys : List Event) (Q : α → Prop) : Prop :=
  ∀ ⦃c : Cursor⦄, List.Forall₂ Token.Spells c.rest (terminalsOf xs) → AcceptsAt c p xs ys Q

theorem Arrives.refl {xs : List Event} {c : Cursor}
    (h : List.Forall₂ Token.Spells c.rest (terminalsOf xs)) : Arrives xs xs c c := ⟨h, rfl, rfl⟩

theorem Arrives.trans {xs ys zs : List Event} {c c' c'' : Cursor} (h : Arrives xs ys c c')
    (h' : Arrives ys zs c' c'') : Arrives xs zs c c'' :=
  ⟨h'.spells, h'.tokens_eq.trans h.tokens_eq, h'.firstBreak?_eq.trans h.firstBreak?_eq⟩

/-- A token is no event that breaks a limit. -/
theorem arrives_token {w : Terminal} {xs : List Event} {passed rest : List Token} {t : Token}
    (h : List.Forall₂ Token.Spells rest (terminalsOf xs)) :
    Arrives (.token w :: xs) xs ⟨passed, t :: rest⟩ ⟨t :: passed, rest⟩ :=
  ⟨h, (Cursor.passes_singleton_iff.2 ⟨rfl, rfl⟩).tokens_eq, rfl⟩

section Combinators

variable {p : Parser α} {f : α → Parser β} {xs ys zs : List Event} {P : α → Prop}
  {Q : β → Prop}

theorem Reports.bind {c : Cursor} (h : Reports p xs c) : Reports (p >>= f) xs c := by
  obtain ⟨l, c', hl, htokens, hp⟩ := h
  exact ⟨l, c', hl, htokens, bind_eq_error_iff.2 (.inl hp)⟩

theorem Arrives.bind {c c' : Cursor} {a : α} (ha : p c = .ok (a, c')) (h : Arrives xs ys c c')
    (hf : AcceptsAt c' (f a) ys zs Q) : AcceptsAt c (p >>= f) xs zs Q := by
  rcases hf with ⟨b, c'', hb, h', hQ⟩ | ⟨l, c'', hl, htokens, hb⟩
  · exact .inl ⟨b, c'', bind_eq_ok_iff.2 ⟨a, c', ha, hb⟩, h.trans h', hQ⟩
  · exact .inr ⟨l, c'', h.firstBreak?_eq ▸ hl, htokens.trans h.tokens_eq,
      bind_eq_error_iff.2 (.inr ⟨a, c', ha, hb⟩)⟩

theorem Accepts.bind (hp : Accepts p xs ys P) (hf : ∀ a, P a → Accepts (f a) ys zs Q) :
    Accepts (p >>= f) xs zs Q := by
  intro c hc
  rcases hp hc with ⟨a, c', ha, h, hP⟩ | hreports
  · exact h.bind ha (hf a hP h.spells)
  · exact .inr hreports.bind

theorem accepts_pure {a : α} (h : P a) : Accepts (pure a) xs xs P :=
  fun c hc => .inl ⟨a, c, rfl, .refl hc, h⟩

theorem accepts_offset {f : Offset → Parser β} (hf : ∀ n, Accepts (f n) xs ys Q) :
    Accepts (offset >>= f) xs ys Q := by
  have hoffset : Accepts offset xs xs fun _ => True := fun c hc =>
    .inl ⟨_, c, rfl, .refl hc, trivial⟩
  exact hoffset.bind fun n _ => hf n

theorem accepts_spanFrom (start : Offset) {f : Span → Parser β}
    (hf : ∀ span, Accepts (f span) xs ys Q) : Accepts (spanFrom start >>= f) xs ys Q := by
  have hspan : Accepts (spanFrom start) xs xs fun _ => True := fun c hc =>
    .inl ⟨_, c, rfl, .refl hc, trivial⟩
  exact hspan.bind fun span _ => hf span

/-- The start of something on a level that is not too deep. -/
theorem Accepts.enter {rule : Rule} {level : Nat} (hlevel : level ≠ 65) (h : Accepts p xs ys P) :
    Accepts p (.enter rule level :: xs) ys P := by
  have hskip : firstBreak? (.enter rule level :: xs) = firstBreak? xs :=
    firstBreak?_of_limit?_eq_none (if_neg hlevel)
  intro c hc
  rcases h hc with ⟨a, c', ha, ⟨hspells, htokens, hbreak⟩, hP⟩ | ⟨l, c', hl, htokens, hp⟩
  · exact .inl ⟨a, c', ha, ⟨hspells, htokens, hbreak.trans hskip.symm⟩, hP⟩
  · exact .inr ⟨l, c', hskip.trans hl, htokens, hp⟩

/-- The start of something on the first level that is too deep. -/
theorem accepts_tooDeep (rule : Rule) : Accepts (tooDeep rule) (.enter rule 65 :: xs) ys P := by
  intro c hc
  refine .inr ⟨.depth rule, c, ?_, rfl, rfl⟩
  -- The break is at the cursor, since no token is taken before the parser fails.
  have hlimit : (Event.enter rule 65).limit? = some (.depth rule) := by
    rw [Event.limit?, if_pos rfl]
  rw [firstBreak?_of_limit?_eq_some hlimit, hc.length_eq]

theorem accepts_next {select : Token → Option α} {expected : Expectation} {rule : Rule}
    {w : Terminal} (h : ∀ t, t.Spells w → ∃ a, select t = some a ∧ P a) :
    Accepts (next select expected rule) (.token w :: xs) xs P := by
  rintro ⟨passed, rest⟩ hc
  obtain ⟨t, rest, ht, hrest, rfl⟩ := List.forall₂_cons_right_iff.1 hc
  obtain ⟨a, ha, hP⟩ := h t ht
  exact .inl ⟨a, ⟨t :: passed, rest⟩, next_eq_ok_iff.2 ⟨t, ha, rfl, rfl⟩, arrives_token hrest, hP⟩

theorem accepts_next?_some {select : Token → Option α} {w : Terminal}
    (h : ∀ t, t.Spells w → ∃ a, select t = some a ∧ P a) :
    Accepts (next? select) (.token w :: xs) xs fun found => ∃ a, found = some a ∧ P a := by
  rintro ⟨passed, rest⟩ hc
  obtain ⟨t, rest, ht, hrest, rfl⟩ := List.forall₂_cons_right_iff.1 hc
  obtain ⟨a, ha, hP⟩ := h t ht
  exact .inl ⟨some a, ⟨t :: passed, rest⟩, next?_eq_some_iff.2 ⟨t, ha, rfl, rfl⟩,
    arrives_token hrest, a, rfl, hP⟩

/-- The next terminal is none that the parser would take. -/
def Refuses (select : Token → Option α) (ws : List Terminal) : Prop :=
  ∀ w ∈ ws.head?, ∀ t : Token, t.Spells w → select t = none

theorem accepts_next?_none {select : Token → Option α} (h : Refuses select (terminalsOf xs)) :
    Accepts (next? select) xs xs (· = none) := by
  intro c hc
  refine .inl ⟨none, c, next?_eq_none_iff.2 ⟨?_, rfl⟩, .refl hc, rfl⟩
  cases hc' : c.rest with
  | nil => rfl
  | cons t rest =>
    rw [hc'] at hc
    obtain ⟨w, ws, ht, -, hws⟩ := List.forall₂_cons_left_iff.1 hc
    rw [hws] at h
    exact h _ rfl t ht

/-- A parser that looks at the next token first. -/
theorem Accepts.of_head {w : Terminal} (h : ∀ t rest, t.Spells w →
      List.Forall₂ Token.Spells rest (terminalsOf xs) → ∃ q : Parser α,
        (∀ c : Cursor, c.rest = t :: rest → p c = q c) ∧ Accepts q (.token w :: xs) ys P) :
    Accepts p (.token w :: xs) ys P := by
  intro c hc
  obtain ⟨t, rest, ht, hrest, heq⟩ := List.forall₂_cons_right_iff.1 hc
  obtain ⟨q, hpq, hq⟩ := h t rest ht hrest
  rw [AcceptsAt, Reports, hpq c heq]
  exact hq hc

/-- Items are read one after the other, up to a terminal that announces none.  `R s ms` says that
the items `ms` are still to come, and `F` holds of what may follow an item. -/
theorem accepts_fold {lead : Token → Option β} {item : σ → β → Parser σ}
    (hadvances : ∀ s b, Advances (item s b)) {F : List Terminal → Prop}
    {R : σ → List γ → Prop} {events : γ → List Event}
    (hitem : ∀ s m ms, R s (m :: ms) → ∃ w xs₁, events m = .token w :: xs₁ ∧ ∀ t, t.Spells w →
      ∃ b, lead t = some b ∧ ∀ xs, F (terminalsOf xs) →
        Accepts (item s b) (xs₁ ++ xs) xs (R · ms))
    (hnext : ∀ m ws, F (terminalsOf (events m) ++ ws)) (hstop : Refuses lead (terminalsOf xs))
    (hend : F (terminalsOf xs)) {s : σ} {ms : List γ} (hs : R s ms) :
    Accepts (fold lead item s) (ms.flatMap events ++ xs) xs (R · []) := by
  induction ms generalizing s with
  | nil =>
    rw [fold_eq hadvances]
    refine (accepts_next?_none hstop).bind fun found hfound => ?_
    subst hfound
    exact accepts_pure hs
  | cons m ms ih =>
    obtain ⟨w, xs₁, hm, hlead⟩ := hitem s m ms hs
    -- Behind an item comes the next one, or what comes behind them all.
    have hfollow : F (terminalsOf (ms.flatMap events ++ xs)) := by
      cases ms with
      | nil => exact hend
      | cons m' ms' =>
        rw [List.flatMap_cons, List.append_assoc, terminalsOf_append]
        exact hnext m' _
    rw [fold_eq hadvances, List.flatMap_cons, hm, List.cons_append, List.cons_append,
      List.append_assoc]
    refine (accepts_next?_some hlead).bind ?_
    rintro found ⟨b, rfl, hb⟩
    exact (hb _ hfollow).bind fun s' hs' => ih hs'

theorem accepts_atSymbol (ch : Char) : Accepts (atSymbol ch) xs xs
    (· = decide ((terminalsOf xs).head?.bind Terminal.symbol? = some ch)) := by
  intro c hc
  refine .inl ⟨_, c, rfl, .refl hc, ?_⟩
  rw [← symbol?_head hc]
  cases c.rest.head? with
  | none => rfl
  | some t => by_cases hsymbol : t.symbol? = some ch <;> simp [isSymbol, hsymbol]

theorem isSymbol_of_spells {t : Token} {ch : Char} (h : t.Spells (.symbol ch)) :
    isSymbol ch t = some () := if_pos (Token.spells_symbol_iff.1 h)

theorem isKeyword_of_spells {t : Token} {k : Keyword} (h : t.Spells (.keyword k)) :
    isKeyword k t = some () := if_pos (Token.spells_keyword_iff.1 h)

theorem refuses_isSymbol {ws : List Terminal} {ch : Char}
    (h : ws.head?.bind Terminal.symbol? ≠ some ch) : Refuses (isSymbol ch) ws := by
  intro w hw t ht
  refine if_neg fun heq => h ?_
  rw [hw, Option.bind_some, ← ht.symbol?_eq, heq]

/-- A parser that waits for some reserved words refuses all other terminals. -/
theorem refuses_of_keyword? {select : Token → Option α} {ws : List Terminal} (words : List Keyword)
    (hselect : ∀ t : Token, (∀ k ∈ words, t.keyword? ≠ some k) → select t = none)
    (h : ∀ k ∈ words, ws.head?.bind Terminal.keyword? ≠ some k) : Refuses select ws := by
  intro w hw t ht
  refine hselect t fun k hk heq => h k hk ?_
  rw [hw, Option.bind_some, ← ht.keyword?_eq, heq]

theorem refuses_isKeyword {ws : List Terminal} {k : Keyword}
    (h : ws.head?.bind Terminal.keyword? ≠ some k) : Refuses (isKeyword k) ws :=
  refuses_of_keyword? [k] (fun _ ht => if_neg (ht k (by simp))) (by simpa using h)

section SingleTokens

variable {expected : Expectation} {rule : Rule}

theorem accepts_symbol (ch : Char) :
    Accepts (next (isSymbol ch) expected rule) (.token (.symbol ch) :: xs) xs fun _ => True :=
  accepts_next fun _ ht => ⟨(), isSymbol_of_spells ht, trivial⟩

theorem accepts_keyword (k : Keyword) :
    Accepts (next (isKeyword k) expected rule) (.token (.keyword k) :: xs) xs fun _ => True :=
  accepts_next fun _ ht => ⟨(), isKeyword_of_spells ht, trivial⟩

theorem accepts_identifier (name : String) :
    Accepts (identifier rule) (.token (.identifier name) :: xs) xs (·.text = name) :=
  accepts_next fun t ht =>
    ⟨⟨name, t.span⟩, by rw [ident?, Token.spells_identifier_iff.1 ht, Option.map_some], rfl⟩

end SingleTokens

/-- Items with commas between them are read one after the other, up to the symbol `close`. -/
theorem accepts_commaSeparated {item : σ → Parser σ} (hadvances : ∀ s, Advances (item s))
    {R : σ → List γ → Prop} {events : γ → List Event} {close : Char} (hclose : close ≠ ',')
    (hitem : ∀ s m ms, R s (m :: ms) → ∀ ch ∈ [',', close], ∀ xs,
      (terminalsOf xs).head? = some (.symbol ch) → Accepts (item s) (events m ++ xs) xs (R · ms))
    {s : σ} {m : γ} {ms : List γ} (hs : R s (m :: ms)) :
    Accepts (commaSeparated item s)
      (joinEvents ((m :: ms).map events) ++ .token (.symbol close) :: xs)
      (.token (.symbol close) :: xs) (R · []) := by
  rw [List.map_cons, joinEvents, List.flatMap_map, List.append_assoc]
  have hfirst : ∃ ch ∈ [',', close], (terminalsOf ((ms.flatMap fun m =>
      .token (.symbol ',') :: events m) ++ .token (.symbol close) :: xs)).head? =
        some (.symbol ch) := by
    cases ms with
    | nil => exact ⟨close, by simp, rfl⟩
    | cons m' ms' => exact ⟨',', by simp, rfl⟩
  obtain ⟨ch, hch, hhead⟩ := hfirst
  refine (hitem s m ms hs ch hch _ hhead).bind fun s₁ hs₁ => ?_
  have hstop : Refuses (isSymbol ',') (terminalsOf (.token (.symbol close) :: xs)) :=
    refuses_isSymbol (by simpa [Terminal.symbol?] using hclose)
  refine accepts_fold (fun s _ => hadvances s)
    (F := fun ws => ∃ ch ∈ [',', close], ws.head? = some (.symbol ch))
    (fun s m ms hs => ⟨.symbol ',', events m, rfl, fun t ht =>
      ⟨(), isSymbol_of_spells ht, ?_⟩⟩)
    (fun m ws => ⟨',', by simp, rfl⟩) hstop ⟨close, by simp, rfl⟩ hs₁
  rintro xs ⟨ch, hch, hhead⟩
  exact hitem s m ms hs ch hch xs hhead

end Combinators

end Parser

end Jack

import Jack.Proofs.Acceptance

/-!
# Expressions and statements are accepted

The tokens of an expression or of statements are read back as what they were written from, up to
the first level that is too deep.  A production is accepted in front of any terminals that cannot be
taken for a part of it: `Parser.EndsTerm` for a term, `Parser.EndsExpression` for an expression, and
no `else` for a statement.

The parsers are built from those of one level below.  Each lemma on a production therefore assumes
what these accept, and the induction on the levels comes last.  The levels that are left and the
level that is read make 65 for statements and for an expression, and 64 for a term, which stands on
the level of its expression.

* `Parser.accepts_expression` : what the parser of expressions reads back;
* `Parser.accepts_statements` : what the parser of statements reads back.
-/

namespace Jack

namespace Parser

/-! ### Expressions -/

/-- A term can end in front of the terminals: the next one is a symbol that goes on with no term. -/
def EndsTerm (ws : List Terminal) : Prop :=
  ∃ ch, ws.head? = some (.symbol ch) ∧ ch ∉ ['[', '.', '(']

/-- An expression can end in front of the terminals. -/
def EndsExpression (ws : List Terminal) : Prop :=
  ∃ ch, ws.head? = some (.symbol ch) ∧ ch ∈ [')', ']', ';', ',']

section Ends

variable {ws : List Terminal}

theorem EndsExpression.endsTerm (h : EndsExpression ws) : EndsTerm ws := by
  obtain ⟨ch, hhead, hch⟩ := h
  refine ⟨ch, hhead, fun hch' => ?_⟩
  simp only [List.mem_cons, List.not_mem_nil, or_false] at hch hch'
  rcases hch with rfl | rfl | rfl | rfl <;> revert hch' <;> decide

theorem EndsExpression.refuses (h : EndsExpression ws) :
    Refuses (fun t => t.symbol?.bind BinaryOp.ofSymbol?) ws := by
  obtain ⟨ch, hhead, hch⟩ := h
  intro w hw t ht
  obtain rfl : w = .symbol ch := Option.some.inj (hw.symm.trans hhead)
  show t.symbol?.bind BinaryOp.ofSymbol? = none
  rw [Token.spells_symbol_iff.1 ht, Option.bind_some]
  simp only [List.mem_cons, List.not_mem_nil, or_false] at hch
  rcases hch with rfl | rfl | rfl | rfl <;> rfl

theorem endsTerm_binaryOp (op : BinaryOp) : EndsTerm (.symbol op.symbol :: ws) :=
  ⟨op.symbol, rfl, by cases op <;> decide⟩

theorem EndsTerm.symbol?_ne (h : EndsTerm ws) {ch : Char} (hch : ch ∈ ['[', '.', '(']) :
    ws.head?.bind Terminal.symbol? ≠ some ch := by
  obtain ⟨ch', hhead, hch'⟩ := h
  rw [hhead]
  rintro ⟨⟩
  exact hch' hch

end Ends

section Productions

variable (resolve : String → Meaning) {level : Nat}

section Expressions

variable {expression : Parser Expr} {operand : Parser Term}
  (hadvances : Advances expression)
  (he : ∀ (e : Expr) (xs : List Event), EndsExpression (terminalsOf xs) →
    Accepts expression (e.events (level + 1) ++ xs) xs (·.bare = e.bare))
  (ho : ∀ (t : Term) (xs : List Event), EndsTerm (terminalsOf xs) →
    Accepts operand (.enter .term (level + 1) :: (t.events (level + 1) ++ xs)) xs
      (·.bare = t.bare))

include hadvances he in
theorem accepts_arguments (es : List Expr) (xs : List Event) :
    Accepts (arguments expression)
      (joinEvents (es.map (Expr.events (level + 1))) ++ .token (.symbol ')') :: xs)
      (.token (.symbol ')') :: xs) (·.map Expr.bare = es.map Expr.bare) := by
  unfold arguments
  refine (accepts_atSymbol ')').bind fun atEnd hatEnd => ?_
  cases es with
  | nil =>
    rw [hatEnd]
    exact accepts_pure rfl
  | cons e es =>
    have hnot : atEnd = false := by
      rw [hatEnd, List.map_cons, joinEvents, List.append_assoc, decide_eq_false_iff_not,
        terminalsOf_append, e.terminals_events]
      exact e.symbol?_head_terminals _ (by simp)
    rw [hnot]
    -- The expressions read so far, the last one first, and those to come make up the list.
    refine (accepts_commaSeparated (fun _ => hadvances.bind fun _ => advances_pure _)
      (R := fun done left => done.reverse.map Expr.bare ++ left.map Expr.bare =
        (e :: es).map Expr.bare) (by decide) ?item rfl).bind ?list
    case item =>
      intro done e left hdone ch hch xs hhead
      have hends : EndsExpression (terminalsOf xs) := by
        refine ⟨ch, hhead, ?_⟩
        simp only [List.mem_cons, List.not_mem_nil, or_false] at hch ⊢
        tauto
      refine (he e xs hends).bind fun e' he' => accepts_pure ?_
      simpa [he'] using hdone
    case list =>
      intro done hdone
      exact accepts_pure (by simpa using hdone)

theorem accepts_callee (receiver : Option NameUse) (name : Ident) :
    ∃ text ws₁, calleeTerminals receiver name = .identifier text :: ws₁ ∧
      ∀ first : Ident, first.text = text → ∀ xs,
        Accepts (callee resolve first) (ws₁.map .token ++ .token (.symbol '(') :: xs)
          (.token (.symbol '(') :: xs) fun r =>
            r.1.map NameUse.bare = receiver.map NameUse.bare ∧ r.2.bare = name.bare := by
  cases receiver with
  | none =>
    refine ⟨name.text, [], rfl, fun first hfirst xs => ?_⟩
    refine (accepts_next?_none (refuses_isSymbol ?_)).bind fun found hfound => ?_
    · simp [Terminal.symbol?]
    · subst hfound
      exact accepts_pure ⟨rfl, Ident.bare_eq_of_text_eq hfirst⟩
  | some receiver =>
    refine ⟨receiver.name, [.symbol '.', .identifier name.text], rfl, fun first hfirst xs => ?_⟩
    refine (accepts_next?_some (P := fun _ => True) fun t ht =>
      ⟨(), isSymbol_of_spells ht, trivial⟩).bind ?_
    rintro found ⟨u, rfl, -⟩
    refine (accepts_identifier name.text).bind fun name' hname' => accepts_pure ⟨?_, ?_⟩
    · simp [NameUse.bare_nameUse hfirst]
    · exact Ident.bare_eq_of_text_eq hname'

include hadvances he in
theorem accepts_subroutineCall (call : Call) (xs : List Event) :
    Accepts (subroutineCall resolve expression) (call.events level ++ xs) xs
      (·.bare = call.bare) := by
  obtain ⟨receiver, name, arguments, span⟩ := call
  obtain ⟨text, ws₁, hterminals, hcallee⟩ := accepts_callee resolve receiver name
  simp only [Call.events, hterminals, List.map_cons, List.cons_append, List.append_assoc,
    List.nil_append, argumentsEvents_eq_map]
  refine accepts_offset fun start => (accepts_identifier text).bind fun first hfirst => ?_
  refine (hcallee first hfirst _).bind ?_
  rintro r ⟨hreceiver, hname⟩
  refine (accepts_symbol '(').bind fun _ _ => ?_
  refine (accepts_arguments hadvances he arguments xs).bind fun arguments' harguments => ?_
  refine (accepts_symbol ')').bind fun _ _ => accepts_spanFrom start fun span => accepts_pure ?_
  simp [Call.bare, hreceiver, hname, harguments, bareArguments_eq_map]

include hadvances he in
/-- A term that starts with a name. -/
theorem accepts_nameTerm {t : Term} {name : String} {xs xs' : List Event} {after : Option Token}
    (hafter : after.bind Token.symbol? = (terminalsOf xs').head?.bind Terminal.symbol?)
    (hevents : t.events level ++ xs = .token (.identifier name) :: xs')
    (hxs : EndsTerm (terminalsOf xs)) :
    Accepts (nameTerm resolve expression after) (.token (.identifier name) :: xs') xs
      (·.bare = t.bare) := by
  rw [nameTerm, hafter]
  cases t with
  | var use =>
    obtain ⟨hname, rfl⟩ := List.cons.inj hevents
    cases hname
    split
    · next heq => exact absurd heq (hxs.symbol?_ne (by simp))
    · next heq => exact absurd heq (hxs.symbol?_ne (by simp))
    · next heq => exact absurd heq (hxs.symbol?_ne (by simp))
    · refine (accepts_identifier _).bind fun first hfirst => accepts_pure ?_
      rw [Term.bare, Term.bare, NameUse.bare_nameUse hfirst]
  | element array index =>
    simp only [Term.events, List.cons_append, List.append_assoc, List.nil_append,
      List.cons.injEq] at hevents
    obtain ⟨hname, rfl⟩ := hevents
    cases hname
    refine (accepts_identifier _).bind fun first hfirst => (accepts_symbol '[').bind fun _ _ => ?_
    refine (he index _ ⟨']', rfl, by simp⟩).bind fun index' hindex => ?_
    refine (accepts_symbol ']').bind fun _ _ => accepts_pure ?_
    rw [Term.bare, Term.bare, NameUse.bare_nameUse hfirst, hindex]
  | call call =>
    have hcall : Accepts (do return Term.call (← subroutineCall resolve expression))
        (.token (.identifier name) :: xs') xs (·.bare = (Term.call call).bare) := by
      rw [← hevents]
      refine (accepts_subroutineCall resolve hadvances he call xs).bind fun call' hcall' =>
        accepts_pure ?_
      rw [Term.bare, Term.bare, hcall']
    obtain ⟨_ | receiver, callName, arguments, span⟩ := call
    · simp only [Term.events, Call.events, calleeTerminals, List.map_cons, List.map_nil,
        List.cons_append, List.append_assoc, List.nil_append, List.cons.injEq] at hevents
      obtain ⟨-, rfl⟩ := hevents
      exact hcall
    · simp only [Term.events, Call.events, calleeTerminals, List.map_cons, List.map_nil,
        List.cons_append, List.append_assoc, List.nil_append, List.cons.injEq] at hevents
      obtain ⟨-, rfl⟩ := hevents
      exact hcall
  | _ => cases hevents

include hadvances he ho in
theorem accepts_termWith (t : Term) (xs : List Event) (hxs : EndsTerm (terminalsOf xs)) :
    Accepts (termWith resolve expression operand) (t.events level ++ xs) xs
      (·.bare = t.bare) := by
  have hname (name : String) (xs' : List Event)
      (hevents : t.events level ++ xs = .token (.identifier name) :: xs') :
      Accepts (termWith resolve expression operand) (t.events level ++ xs) xs
        (·.bare = t.bare) := by
    rw [hevents]
    exact .of_head fun t rest ht hrest => ⟨nameTerm resolve expression rest.head?,
      fun c hc => by simp [termWith, hc, ht.1],
      accepts_nameTerm resolve hadvances he (symbol?_head hrest) hevents hxs⟩
  cases t with
  | integer value span =>
    refine .of_head fun t rest ht _ =>
      ⟨constant (fun t => (integerConstant? t.text).map (.integer · t.span)) .integerConstant,
        fun c hc => by simp [termWith, hc, ht.1], ?_⟩
    exact accepts_next fun t ht => ⟨.integer value t.span, by simp [ht.2], rfl⟩
  | string value span =>
    refine .of_head fun t rest ht _ => ⟨constant (fun t => some (.string t.text t.span)) .term,
      fun c hc => by simp [termWith, hc, ht.1], ?_⟩
    exact accepts_next fun t ht => ⟨.string t.text t.span, rfl, by rw [ht.2, Term.bare, Term.bare]⟩
  | keyword value span =>
    refine .of_head fun t rest ht _ => ⟨constant (fun t =>
      (t.keyword?.bind KeywordConstant.ofKeyword?).map (.keyword · t.span)) .term,
        fun c hc => by simp [termWith, hc, ht.1], ?_⟩
    exact accepts_next fun t ht =>
      ⟨.keyword value t.span, by simp [Token.spells_keyword_iff.1 ht], rfl⟩
  | var use => exact hname _ _ rfl
  | element array index => exact hname _ _ rfl
  | call call =>
    obtain ⟨_ | receiver, name, arguments, span⟩ := call
    · exact hname _ _ rfl
    · exact hname _ _ rfl
  | group inner span =>
    refine .of_head fun t rest ht' _ => ⟨symbolTerm expression operand t,
      fun c hc => by simp [termWith, hc, ht'.1], ?_⟩
    rw [symbolTerm, Token.spells_symbol_iff.1 ht']
    simp only [List.append_assoc, List.cons_append, List.nil_append, List.append_eq]
    refine (accepts_symbol '(').bind fun _ _ => ?_
    refine (he inner _ ⟨')', rfl, by simp⟩).bind fun inner' hinner => ?_
    refine (accepts_symbol ')').bind fun _ _ => accepts_spanFrom _ fun _ => accepts_pure ?_
    rw [Term.bare, Term.bare, hinner]
  | unary op inner span =>
    refine .of_head fun t rest ht' _ => ⟨symbolTerm expression operand t,
      fun c hc => by simp [termWith, hc, ht'.1], ?_⟩
    have hsymbol : t.symbol? = some op.symbol := Token.spells_symbol_iff.1 ht'
    rw [symbolTerm, hsymbol]
    split
    · next heq => cases op <;> cases heq
    · refine (accepts_next (P := (· = op)) fun t ht =>
        ⟨op, by simp [Token.spells_symbol_iff.1 ht], rfl⟩).bind ?_
      rintro _ rfl
      refine (ho inner xs hxs).bind fun inner' hinner => ?_
      refine accepts_spanFrom _ fun _ => accepts_pure ?_
      rw [Term.bare, Term.bare, hinner]

end Expressions

theorem accepts_expressionWith {term : Parser Term} (hadvances : Advances term)
    (hlevel : level ≠ 65)
    (hterm : ∀ (t : Term) (xs : List Event), EndsTerm (terminalsOf xs) →
      Accepts term (t.events level ++ xs) xs (·.bare = t.bare))
    (e : Expr) (xs : List Event) (hxs : EndsExpression (terminalsOf xs)) :
    Accepts (expressionWith term) (e.events level ++ xs) xs (·.bare = e.bare) := by
  obtain ⟨head, tail, span⟩ := e
  rw [Expr.events, List.cons_append, List.append_assoc, tailEvents_eq_flatMap]
  have hends : EndsTerm (terminalsOf
      ((tail.flatMap fun p => .token (.symbol p.1.symbol) :: p.2.events level) ++ xs)) := by
    cases tail with
    | nil => exact hxs.endsTerm
    | cons p tail => exact endsTerm_binaryOp p.1
  refine .enter hlevel (accepts_offset fun start => ?_)
  refine (hterm head _ hends).bind fun head' hhead' => ?_
  -- The operators read so far, the last one first, and those to come make up the tail.
  refine (accepts_fold (fun _ _ => hadvances.bind fun _ => advances_pure _) (F := EndsTerm)
    (R := fun done left => bareTail (done.reverse ++ left) = bareTail tail)
    ?item ?next hxs.refuses hxs.endsTerm rfl).bind ?list
  case next => exact fun p ws => endsTerm_binaryOp p.1
  case item =>
    intro done p left hdone
    refine ⟨.symbol p.1.symbol, p.2.events level, rfl, fun t ht =>
      ⟨p.1, by simp [Token.spells_symbol_iff.1 ht], fun xs hxs => ?_⟩⟩
    refine (hterm p.2 xs hxs).bind fun t' ht' => accepts_pure ?_
    simpa [bareTail_eq_map, ht'] using hdone
  case list =>
    intro done hdone
    refine accepts_spanFrom start fun span => accepts_pure ?_
    rw [List.append_nil] at hdone
    rw [Expr.bare, Expr.bare, hhead', hdone]

/-- An expression on the first level that is too deep is reported. -/
theorem accepts_tooDeep_expression {e : Expr} {xs ys : List Event} {P : Expr → Prop} :
    Accepts (tooDeep .expression) (e.events 65 ++ xs) ys P := by
  obtain ⟨head, tail, span⟩ := e
  rw [Expr.events, List.cons_append]
  exact accepts_tooDeep _

/-- A term is read back, with the levels that are left on its level. -/
theorem accepts_term : ∀ levels level, levels + level = 64 → ∀ (t : Term) (xs : List Event),
    EndsTerm (terminalsOf xs) →
      Accepts (term resolve levels) (t.events level ++ xs) xs (·.bare = t.bare) := by
  intro levels
  induction levels with
  | zero =>
    -- The level below is the first that is too deep, for an expression and for an operand.
    intro level hlevel t xs hxs
    obtain rfl : level = 64 := by omega
    exact accepts_termWith resolve (advances_fail _ _) (fun e xs _ => accepts_tooDeep_expression)
      (fun t xs _ => accepts_tooDeep _) t xs hxs
  | succ levels ih =>
    intro level hlevel t xs hxs
    have hbelow : levels + (level + 1) = 64 := by omega
    have hshallow : level + 1 ≠ 65 := by omega
    exact accepts_termWith resolve (advances_expressionWith (advances_term resolve levels))
      (accepts_expressionWith (advances_term resolve levels) hshallow (ih _ hbelow))
      (fun t xs hxs => .enter hshallow (ih _ hbelow t xs hxs)) t xs hxs

/-- An expression is read back, up to what closes or ends it. -/
theorem accepts_expression {levels : Nat} (hlevel : levels + level = 65) (e : Expr)
    (xs : List Event) (hxs : EndsExpression (terminalsOf xs)) :
    Accepts (expression resolve levels) (e.events level ++ xs) xs (·.bare = e.bare) := by
  cases levels with
  | zero =>
    obtain rfl : level = 65 := by omega
    exact accepts_tooDeep_expression
  | succ levels =>
    exact accepts_expressionWith (advances_term resolve levels) (by omega)
      (accepts_term resolve levels level (by omega)) e xs hxs

/-! ### Statements -/

section Statements

variable {expression : Parser Expr} {statements : Parser (List Statement)}
  (hadvances : Advances expression)
  (he : ∀ (e : Expr) (xs : List Event), EndsExpression (terminalsOf xs) →
    Accepts expression (e.events (level + 1) ++ xs) xs (·.bare = e.bare))
  (hs : ∀ (ss : List Statement) (xs : List Event),
    Accepts statements (statementsEvents (level + 1) ss ++ .token (.symbol '}') :: xs)
      (.token (.symbol '}') :: xs) (bareStatements · = bareStatements ss))

include hs in
theorem accepts_block {rule : Rule} (ss : List Statement) (xs : List Event) :
    Accepts (block rule statements) (.token (.symbol '{') :: .enter .statements (level + 1) ::
        (bodyEvents (level + 1) ss ++ .token (.symbol '}') :: xs)) xs
      (bareStatements · = bareStatements ss) := by
  refine (accepts_symbol '{').bind fun _ _ => (hs ss xs).bind fun body hbody => ?_
  exact (accepts_symbol '}').bind fun _ _ => accepts_pure hbody

include he in
theorem accepts_condition {rule : Rule} (e : Expr) (xs : List Event) :
    Accepts (condition rule expression)
      (.token (.symbol '(') :: (e.events (level + 1) ++ .token (.symbol ')') :: xs)) xs
      (·.bare = e.bare) := by
  refine (accepts_symbol '(').bind fun _ _ => ?_
  refine (he e _ ⟨')', rfl, by simp⟩).bind fun condition hcondition => ?_
  exact (accepts_symbol ')').bind fun _ _ => accepts_pure hcondition

include he in
theorem accepts_targetIndex (index : Option Expr) (xs : List Event) :
    Accepts (targetIndex expression) (indexEvents level index ++ .token (.symbol '=') :: xs)
      (.token (.symbol '=') :: xs) (·.map Expr.bare = index.map Expr.bare) := by
  cases index with
  | none =>
    refine (accepts_next?_none (refuses_isSymbol ?_)).bind fun found hfound => ?_
    · simp [indexEvents, Terminal.symbol?]
    · subst hfound
      exact accepts_pure rfl
  | some index =>
    simp only [indexEvents, List.cons_append, List.append_assoc, List.nil_append]
    refine (accepts_next?_some (P := fun _ => True) fun t ht =>
      ⟨(), isSymbol_of_spells ht, trivial⟩).bind ?_
    rintro found ⟨u, rfl, -⟩
    refine (he index _ ⟨']', rfl, by simp⟩).bind fun index' hindex => ?_
    refine (accepts_symbol ']').bind fun _ _ => accepts_pure ?_
    rw [Option.map_some, Option.map_some, hindex]

include he in
theorem accepts_returnValue (value : Option Expr) (xs : List Event) :
    Accepts (returnValue expression) (valueEvents level value ++ .token (.symbol ';') :: xs)
      (.token (.symbol ';') :: xs) (·.map Expr.bare = value.map Expr.bare) := by
  refine (accepts_atSymbol ';').bind fun atEnd hatEnd => ?_
  cases value with
  | none =>
    rw [hatEnd]
    exact accepts_pure rfl
  | some value =>
    have hnot : atEnd = false := by
      rw [hatEnd, valueEvents, decide_eq_false_iff_not, terminalsOf_append,
        value.terminals_events]
      exact value.symbol?_head_terminals _ (by simp)
    rw [hnot]
    refine (he value _ ⟨';', rfl, by simp⟩).bind fun value' hvalue => accepts_pure ?_
    rw [Option.map_some, Option.map_some, hvalue]

include hadvances he hs in
/-- A statement starts with its word, and can be taken for no longer one if no alternative comes
after it. -/
theorem accepts_statementWith (s : Statement) :
    ∃ (w : StatementWord) (xs₁ : List Event), s.events level = .token (.keyword w.keyword) :: xs₁ ∧
      ∀ start xs, (terminalsOf xs).head?.bind Terminal.keyword? ≠ some .kwElse →
        Accepts (statementWith resolve expression statements (start, w)) (xs₁ ++ xs) xs
          (·.bare = s.bare) := by
  cases s with
  | assign target index value span =>
    refine ⟨.letWord, _, rfl, fun start xs _ => ?_⟩
    simp only [List.cons_append, List.append_assoc, List.nil_append]
    refine (accepts_identifier _).bind fun name hname => ?_
    refine (accepts_targetIndex he index _).bind fun index' hindex' => ?_
    refine (accepts_symbol '=').bind fun _ _ => ?_
    refine (he value _ ⟨';', rfl, by simp⟩).bind fun value' hvalue' => ?_
    refine (accepts_symbol ';').bind fun _ _ => accepts_spanFrom start fun _ => accepts_pure ?_
    rw [Statement.bare, Statement.bare, NameUse.bare_nameUse hname, hindex', hvalue']
  | ifThen condition body span =>
    refine ⟨.ifWord, _, rfl, fun start xs hxs => ?_⟩
    simp only [List.cons_append, List.append_assoc, List.nil_append]
    refine (accepts_condition he condition _).bind fun condition' hcondition' => ?_
    refine (accepts_block hs body _).bind fun body' hbody' => ?_
    refine (accepts_next?_none (refuses_isKeyword hxs)).bind fun found hfound => ?_
    subst hfound
    refine accepts_spanFrom start fun _ => accepts_pure ?_
    rw [Statement.bare, Statement.bare, hcondition', hbody']
  | ifElse condition thenBody elseBody span =>
    refine ⟨.ifWord, _, rfl, fun start xs hxs => ?_⟩
    simp only [List.cons_append, List.append_assoc, List.nil_append]
    refine (accepts_condition he condition _).bind fun condition' hcondition' => ?_
    refine (accepts_block hs thenBody _).bind fun thenBody' hthen' => ?_
    refine (accepts_next?_some (P := fun _ => True) fun t ht =>
      ⟨(), isKeyword_of_spells ht, trivial⟩).bind ?_
    rintro found ⟨u, rfl, -⟩
    refine (accepts_block hs elseBody _).bind fun elseBody' helse' => ?_
    refine accepts_spanFrom start fun _ => accepts_pure ?_
    rw [Statement.bare, Statement.bare, hcondition', hthen', helse']
  | whileLoop condition body span =>
    refine ⟨.whileWord, _, rfl, fun start xs hxs => ?_⟩
    simp only [List.cons_append, List.append_assoc, List.nil_append]
    refine (accepts_condition he condition _).bind fun condition' hcondition' => ?_
    refine (accepts_block hs body _).bind fun body' hbody' => ?_
    refine accepts_spanFrom start fun _ => accepts_pure ?_
    rw [Statement.bare, Statement.bare, hcondition', hbody']
  | doCall call span =>
    refine ⟨.doWord, _, rfl, fun start xs _ => ?_⟩
    rw [List.append_assoc]
    refine (accepts_subroutineCall resolve hadvances he call _).bind fun call' hcall' => ?_
    refine (accepts_symbol ';').bind fun _ _ => accepts_spanFrom start fun _ => accepts_pure ?_
    rw [Statement.bare, Statement.bare, hcall']
  | ret value span =>
    refine ⟨.returnWord, _, rfl, fun start xs _ => ?_⟩
    rw [List.append_assoc]
    refine (accepts_returnValue he value _).bind fun value' hvalue' => ?_
    refine (accepts_symbol ';').bind fun _ _ => accepts_spanFrom start fun _ => accepts_pure ?_
    rw [Statement.bare, Statement.bare, hvalue']

theorem statementLead_of_spells {t : Token} {w : StatementWord}
    (h : t.Spells (.keyword w.keyword)) : statementLead t = some (t.span.start, w) := by
  rw [statementLead, Token.spells_keyword_iff.1 h, Option.bind_some,
    StatementWord.ofKeyword?_keyword, Option.map_some]

include hadvances he hs in
theorem accepts_statementsWith (hadvances' : Advances statements) (hlevel : level ≠ 65)
    (ss : List Statement) (xs : List Event) :
    Accepts (statementsWith resolve expression statements)
      (statementsEvents level ss ++ .token (.symbol '}') :: xs) (.token (.symbol '}') :: xs)
      (bareStatements · = bareStatements ss) := by
  rw [statementsEvents, List.cons_append, bodyEvents_eq_flatMap]
  -- The statements read so far, the last one first, and those to come make up the list.
  refine .enter hlevel ((accepts_fold (fun _ lead =>
      (advances_statementWith resolve hadvances hadvances' lead).bind fun _ => advances_pure _)
    (F := fun ws => ws.head?.bind Terminal.keyword? ≠ some .kwElse)
    (R := fun done left => bareStatements (done.reverse ++ left) = bareStatements ss) ?item ?next
    ?stop (by simp [Terminal.keyword?]) rfl).bind ?list)
  case next =>
    intro s ws
    rw [s.terminals_events]
    obtain ⟨w, hw⟩ := s.keyword?_head_terminals ws
    rw [hw]
    cases w <;> decide
  case stop =>
    intro w hw t ht
    obtain rfl := Option.some.inj hw
    rw [statementLead, ht.keyword?_eq]
    rfl
  case item =>
    intro done s left hdone
    obtain ⟨w, xs₁, hevents, hstatement⟩ := accepts_statementWith resolve hadvances he hs s
    refine ⟨_, xs₁, hevents, fun t ht => ⟨_, statementLead_of_spells ht, fun xs hxs => ?_⟩⟩
    refine (hstatement _ xs hxs).bind fun s' hs' => accepts_pure ?_
    simpa [bareStatements_eq_map, hs'] using hdone
  case list =>
    intro done hdone
    exact accepts_pure (by simpa using hdone)

end Statements

/-- Statements are read back, up to the brace that closes them. -/
theorem accepts_statements : ∀ levels level, levels + level = 65 → ∀ (ss : List Statement)
    (xs : List Event), Accepts (statements resolve levels)
      (statementsEvents level ss ++ .token (.symbol '}') :: xs) (.token (.symbol '}') :: xs)
      (bareStatements · = bareStatements ss) := by
  intro levels
  induction levels with
  | zero =>
    intro level hlevel ss xs
    obtain rfl : level = 65 := by omega
    exact accepts_tooDeep _
  | succ levels ih =>
    intro level hlevel ss xs
    have hbelow : levels + (level + 1) = 65 := by omega
    exact accepts_statementsWith resolve (advances_expression resolve levels)
      (accepts_expression resolve hbelow) (ih _ hbelow) (advances_statements resolve levels)
      (by omega) ss xs

end Productions

end Parser

end Jack

import Jack.Proofs.Lookahead
import Jack.Proofs.Sentence

/-!
# Faults are found at the first hopeless token

The parser never takes a token that no sentence has at its place.  Every production follows the rule
of the grammar that it stands for, with one token in sight (`Parser.Follows`), the term that starts
with a name being no exception: the name is taken, and the token behind it decides what is read.
So the tokens in front of a fault can be completed to a sentence, and with the refused token they
cannot.

* `Parser.follows_expression`, `Parser.follows_statements`, `Parser.follows_classDec` : the
  productions follow the grammar;
* `foundBehind_of_parse_error` : **a syntax fault is reported at the first token with which no
  sentence begins**, and nothing behind that token has a say in it.
-/

namespace Jack

open Language Computability Grammar

namespace Parser

/-! ### What may follow an expression -/

/-- The symbols that may follow an expression. -/
def expressionEnds : Set Terminal := {w | ∃ ch ∈ [')', ']', ';', ','], w = .symbol ch}

/-- The terminals that may follow a term: none that a name can be followed by within a term. -/
def termEnds : Set Terminal := {w | ∀ ch ∈ ['[', '.', '('], w ≠ .symbol ch}

theorem expressionEnds_subset_termEnds : expressionEnds ⊆ termEnds := by
  rintro _ ⟨ch, hch, rfl⟩ ch' hch' heq
  cases heq
  simp only [List.mem_cons, List.not_mem_nil, or_false] at hch hch'
  rcases hch with rfl | rfl | rfl | rfl <;> revert hch' <;> decide

section Words

variable {K : Language Terminal}

theorem starts_symbol (ch : Char) : Starts (Grammar.symbol ch) {.symbol ch} :=
  starts_led.mono (by simp)

theorem starts_expressionEnds {ch : Char} (h : ch ∈ [')', ']', ';', ',']) :
    Starts (Grammar.symbol ch * K) expressionEnds :=
  (starts_symbol ch).mul.mono (by rintro _ rfl; exact ⟨ch, h, rfl⟩)

theorem starts_symbol_ne {ch ch' : Char} (h : ch ≠ ch') :
    Starts (Grammar.symbol ch * K) {.symbol ch'}ᶜ :=
  (starts_symbol ch).mul.mono (by rintro _ rfl; simpa using h)

theorem starts_terms : Starts terms (Set.range TermLead.word) := terms_eq ▸ starts_led

theorem starts_expressions : Starts expressions (Set.range TermLead.word) :=
  expressions_eq ▸ starts_terms.mul

/-- A term does not start with a symbol that ends what is around it. -/
theorem range_termLead_subset {ch : Char} (h : ch ∈ [')', ';']) :
    Set.range TermLead.word ⊆ {.symbol ch}ᶜ := by
  rintro _ ⟨lead, rfl⟩ heq
  simp only [List.mem_cons, List.not_mem_nil, or_false] at h
  cases lead with
  | unary op => rcases h with rfl | rfl <;> cases op <;> cases heq
  | paren => rcases h with rfl | rfl <;> cases heq
  | _ => cases heq

/-! ### Completions -/

theorem completable_nameRest : Completable nameRest := completable_one.inr.inr

theorem completable_terms : Completable terms := by
  rw [terms_eq]
  exact completable_led isLexeme_name (.name (String.ofList ['x'])) (fun _ => ⟨rfl, rfl⟩)
    completable_nameRest

theorem completable_expressions : Completable expressions := by
  rw [expressions_eq]
  exact completable_terms.mul completable_kstar

theorem completable_closed (ch : Char) (h : ch ∈ symbolChars) :
    Completable (expressions * Grammar.symbol ch) :=
  completable_expressions.mul (completable_symbol h)

theorem completable_bracketed : Completable bracketed := by
  have hlexeme : IsLexeme .symbol (String.ofList ['[']) ['['] [] := .symbol (by decide) (by simp)
  exact completable_led hlexeme () (fun _ => ⟨rfl, by simp⟩) (completable_closed ']' (by decide))

theorem completable_callRest : Completable callRest := by
  have harguments : Completable (Grammar.arguments * Grammar.symbol ')') :=
    completable_one.inl.mul (completable_symbol (by decide))
  exact completable_one.inr.mul ((completable_symbol (by decide)).mul harguments)

end Words

/-! ### Terms by their first token -/

/-- What starts a term. -/
def termLead? (t : Token) : Option TermLead :=
  match t.kind with
  | .integerConstant => (integerConstant? t.text).map .integer
  | .stringConstant => some (.string t.text)
  | .keyword => (t.keyword?.bind KeywordConstant.ofKeyword?).map .constant
  | .identifier => some (.name t.text)
  | .symbol => t.symbol?.bind fun ch =>
    if ch = '(' then some .paren else (UnaryOp.ofSymbol? ch).map .unary

theorem leads_termLead? : Leads termLead? id TermLead.word := by
  intro t lead
  simp only [id_eq, exists_eq_right]
  constructor
  · intro h
    cases lead with
    | integer value =>
      obtain ⟨hkind, hvalue⟩ := h
      simp [termLead?, hkind, hvalue]
    | string content =>
      obtain ⟨hkind, htext⟩ := h
      simp [termLead?, hkind, htext]
    | constant k =>
      have hkind := h.1
      simp [termLead?, hkind, Token.spells_keyword_iff.1 h]
    | name text =>
      obtain ⟨hkind, htext⟩ := h
      simp [termLead?, hkind, htext]
    | paren =>
      have hkind := h.1
      simp [termLead?, hkind, Token.spells_symbol_iff.1 h]
    | unary op =>
      have hkind := h.1
      have hne : op.symbol ≠ '(' := by cases op <;> decide
      simp [termLead?, hkind, Token.spells_symbol_iff.1 h, hne]
  · intro h
    rw [termLead?] at h
    split at h
    · next hkind =>
      obtain ⟨value, hvalue, rfl⟩ := Option.map_eq_some_iff.1 h
      exact ⟨hkind, hvalue⟩
    · next hkind =>
      cases h
      exact ⟨hkind, rfl⟩
    · obtain ⟨k, hk, rfl⟩ := Option.map_eq_some_iff.1 h
      obtain ⟨word, hword, hk⟩ := Option.bind_eq_some_iff.1 hk
      rw [TermLead.word, KeywordConstant.keyword_of_ofKeyword? hk]
      exact Token.spells_keyword_iff.2 hword
    · next hkind =>
      cases h
      exact ⟨hkind, rfl⟩
    · obtain ⟨ch, hch, h⟩ := Option.bind_eq_some_iff.1 h
      split at h
      · next hparen =>
        cases h
        exact Token.spells_symbol_iff.2 (hparen ▸ hch)
      · obtain ⟨op, hop, rfl⟩ := Option.map_eq_some_iff.1 h
        rw [TermLead.word, UnaryOp.symbol_of_ofSymbol? hop]
        exact Token.spells_symbol_iff.2 hch

section Expressions

variable (resolve : String → Meaning)

/-- Reads a call behind its first name. -/
def callTail (expression : Parser Expr) (start : Offset) (first : Ident) : Parser Call := do
  let (receiver, name) ← callee resolve first
  symbol '(' .subroutineCall
  let arguments ← arguments expression
  symbol ')' .subroutineCall
  return ⟨receiver, name, arguments, ← spanFrom start⟩

/-- Reads a term behind the name that it starts with. -/
def nameTail (expression : Parser Expr) (start : Offset) (name : Ident) : Parser Term := fun c =>
  match c.rest.head?.bind Token.symbol? with
  | some '[' => (do
      symbol '[' .term
      let index ← expression
      symbol ']' .term
      return .element (nameUse resolve name) index : Parser Term) c
  | some '.' | some '(' => (do
      return .call (← callTail resolve expression start name) : Parser Term) c
  | _ => .ok (.var (nameUse resolve name), c)

/-- Reads a term behind the token `t` that it starts with. -/
def termTail (expression : Parser Expr) (operand : Parser Term) (t : Token) :
    TermLead → Parser Term
  | .integer value => pure (.integer value t.span)
  | .string content => pure (.string content t.span)
  | .constant k => pure (.keyword k t.span)
  | .name text => nameTail resolve expression t.span.start ⟨text, t.span⟩
  | .paren => do
    let inner ← expression
    symbol ')' .term
    return .group inner (← spanFrom t.span.start)
  | .unary op => do
    let operand ← operand
    return .unary op operand (← spanFrom t.span.start)

section NamesAlone

variable {expression : Parser Expr}

theorem nameTail_of_ne {c : Cursor} {start : Offset} {name : Ident}
    (h : ∀ ch ∈ ['[', '.', '('], c.rest.head?.bind Token.symbol? ≠ some ch) :
    nameTail resolve expression start name c = .ok (.var (nameUse resolve name), c) := by
  unfold nameTail
  split
  · next heq => exact absurd heq (h '[' (by simp))
  · next heq => exact absurd heq (h '.' (by simp))
  · next heq => exact absurd heq (h '(' (by simp))
  · rfl

theorem nameTerm_of_ne {after : Option Token}
    (h : ∀ ch ∈ ['[', '.', '('], after.bind Token.symbol? ≠ some ch) :
    nameTerm resolve expression after =
      (do return .var (nameUse resolve (← identifier .term))) := by
  unfold nameTerm
  split
  · next heq => exact absurd heq (h '[' (by simp))
  · next heq => exact absurd heq (h '.' (by simp))
  · next heq => exact absurd heq (h '(' (by simp))
  · rfl

end NamesAlone

/-- A name is taken before it is decided what it starts. -/
theorem nameTerm_eq {expression : Parser Expr} {t : Token} (h : t.kind = .identifier)
    (passed ts : List Token) :
    nameTerm resolve expression ts.head? ⟨passed, t :: ts⟩ =
      nameTail resolve expression t.span.start ⟨t.text, t.span⟩ ⟨t :: passed, ts⟩ := by
  have hname (rule : Rule) : identifier rule ⟨passed, t :: ts⟩ =
      .ok (⟨t.text, t.span⟩, ⟨t :: passed, ts⟩) :=
    next_eq_ok_iff.2 ⟨t, by simp [ident?, Token.identifier?, h], rfl, rfl⟩
  have hcall : subroutineCall resolve expression ⟨passed, t :: ts⟩ =
      callTail resolve expression t.span.start ⟨t.text, t.span⟩ ⟨t :: passed, ts⟩ := by
    have hoffset : offset ⟨passed, t :: ts⟩ = .ok (t.span.start, ⟨passed, t :: ts⟩) := rfl
    exact (bind_of_ok hoffset).trans (bind_of_ok (hname _))
  have hreturn : (do return Term.call (← subroutineCall resolve expression) : Parser Term)
      ⟨passed, t :: ts⟩ = (do return Term.call (← callTail resolve expression t.span.start
        ⟨t.text, t.span⟩) : Parser Term) ⟨t :: passed, ts⟩ := by
    simp only [Bind.bind, StateT.bind] at hcall ⊢
    rw [hcall]
  by_cases hindex : ts.head?.bind Token.symbol? = some '['
  · simp only [nameTerm, nameTail, hindex]
    exact bind_of_ok (hname _)
  by_cases hdot : ts.head?.bind Token.symbol? = some '.'
  · simp only [nameTerm, nameTail, hdot]
    exact hreturn
  by_cases hopen : ts.head?.bind Token.symbol? = some '('
  · simp only [nameTerm, nameTail, hopen]
    exact hreturn
  · have hne : ∀ ch ∈ ['[', '.', '('], ts.head?.bind Token.symbol? ≠ some ch := by
      simp [hindex, hdot, hopen]
    rw [nameTail_of_ne resolve (c := ⟨t :: passed, ts⟩) hne, nameTerm_of_ne resolve hne]
    exact bind_of_ok (hname _)

theorem symbolTerm_of_ne {expression : Parser Expr} {operand : Parser Term} {t : Token}
    (h : t.symbol? ≠ some '(') : symbolTerm expression operand t = (do
      let op ← next (fun t => t.symbol?.bind UnaryOp.ofSymbol?) .term .term
      let operand ← operand
      return .unary op operand (← spanFrom t.span.start)) := by
  unfold symbolTerm
  split
  · next heq => exact absurd heq h
  · rfl

/-- What a term is follows from its first token. -/
theorem termWith_eq_termTail {expression : Parser Expr} {operand : Parser Term} {t : Token}
    {lead : TermLead} (h : termLead? t = some lead) (passed ts : List Token) :
    termWith resolve expression operand ⟨passed, t :: ts⟩ =
      termTail resolve expression operand t lead ⟨t :: passed, ts⟩ := by
  have hspells := (leads_termLead? t lead).2 ⟨lead, h, rfl⟩
  cases lead with
  | integer value =>
    obtain ⟨hkind, hvalue⟩ := hspells
    simp only [termWith, hkind]
    exact next_eq_ok_iff.2 ⟨t, by rw [hvalue, Option.map_some], rfl, rfl⟩
  | string content =>
    obtain ⟨hkind, htext⟩ := hspells
    simp only [termWith, hkind]
    exact next_eq_ok_iff.2 ⟨t, by rw [htext], rfl, rfl⟩
  | constant k =>
    have hkind := hspells.1
    simp only [termWith, hkind]
    refine next_eq_ok_iff.2 ⟨t, ?_, rfl, rfl⟩
    simp [Token.spells_keyword_iff.1 hspells]
  | name text =>
    obtain ⟨hkind, rfl⟩ := hspells
    simp only [termWith, hkind]
    exact nameTerm_eq resolve hkind passed ts
  | paren =>
    have hkind := hspells.1
    simp only [termWith, hkind, symbolTerm, Token.spells_symbol_iff.1 hspells]
    exact bind_of_ok (next_eq_ok_iff.2 ⟨t, isSymbol_of_spells hspells, rfl, rfl⟩)
  | unary op =>
    have hkind := hspells.1
    have hsymbol : t.symbol? = some op.symbol := Token.spells_symbol_iff.1 hspells
    have hne : t.symbol? ≠ some '(' := by
      rw [hsymbol]
      cases op <;> decide
    simp only [termWith, hkind, symbolTerm_of_ne hne]
    exact bind_of_ok (next_eq_ok_iff.2 ⟨t, by simp [hsymbol], rfl, rfl⟩)

/-- A token that starts no term is refused. -/
theorem termWith_of_refused {expression : Parser Expr} {operand : Parser Term} {c : Cursor}
    (h : c.rest.head?.bind termLead? = none) : ∃ expected, ∀ ts, ts.head? = c.rest.head? →
      termWith resolve expression operand (c.withRest ts) =
        .error ((c.withRest ts).fault expected .term) := by
  obtain ⟨passed, _ | ⟨t, rest⟩⟩ := c
  · refine ⟨.term, fun ts hts => ?_⟩
    obtain rfl := List.head?_eq_none_iff.1 hts
    rfl
  · have ht : termLead? t = none := h
    rw [termLead?] at ht
    split at ht
    · next hkind =>
      refine ⟨.integerConstant, fun ts hts => ?_⟩
      obtain ⟨ts, rfl⟩ := List.head?_eq_some_iff.1 hts
      simp only [Cursor.withRest, termWith, hkind]
      exact next_of_refused (c := ⟨passed, []⟩) (by simpa using ht)
    · cases ht
    · next hkind =>
      refine ⟨.term, fun ts hts => ?_⟩
      obtain ⟨ts, rfl⟩ := List.head?_eq_some_iff.1 hts
      simp only [Cursor.withRest, termWith, hkind]
      exact next_of_refused (c := ⟨passed, []⟩) (by simpa using ht)
    · cases ht
    · next hkind =>
      refine ⟨.term, fun ts hts => ?_⟩
      obtain ⟨ts, rfl⟩ := List.head?_eq_some_iff.1 hts
      have hne : t.symbol? ≠ some '(' := fun hsymbol => by simp [hsymbol] at ht
      have hrefused : t.symbol?.bind UnaryOp.ofSymbol? = none := by
        cases hsymbol : t.symbol? with
        | none => rfl
        | some ch =>
          have hch : ch ≠ '(' := fun heq => hne (heq ▸ hsymbol)
          simpa [hsymbol, hch] using ht
      simp only [Cursor.withRest, termWith, hkind, symbolTerm_of_ne hne]
      exact bind_of_error (next_of_refused (c := ⟨passed, []⟩) hrefused)

section Productions

variable {expression : Parser Expr} {operand : Parser Term} (hadvances : Advances expression)
  (he : ∀ K c, Starts K expressionEnds → Follows expression expressions K c)
  (ho : ∀ K c, Starts K termEnds → Follows operand terms K c) (K : Language Terminal) (c : Cursor)

include hadvances he in
theorem follows_arguments :
    Follows (arguments expression) Grammar.arguments (Grammar.symbol ')' * K) c := by
  refine follows_atSymbol (completable_expressions.mul completable_kstar)
    (starts_expressions.mul.mono (range_termLead_subset (by simp))) (starts_symbol ')').mul
    (follows_pure _) ?_
  refine (follows_commaSeparated (fun _ => hadvances.bind fun _ => advances_pure _)
    completable_expressions (starts_symbol_ne (by decide)) (fun done c => ?_) [] c).last
    fun _ _ => follows_pure _
  refine (he _ c ?_).last fun _ _ => follows_pure _
  exact (starts_led.mono (by rintro _ ⟨-, rfl⟩; exact ⟨',', by simp, rfl⟩)).kstar_mul
    (starts_expressionEnds (by simp))

theorem follows_callee (first : Ident) : Follows (callee resolve first)
    (led (fun _ : Unit => .symbol '.') (fun _ => identifiers) + 1) (Grammar.symbol '(' * K) c := by
  refine follows_next? (leads_isSymbol '.') (fun _ => completable_identifiers) completable_one ?_
    (fun _ _ _ _ _ => ?_) (follows_pure _)
  · have hopen : Starts (Grammar.symbol '(' * K) {.symbol '.'}ᶜ := starts_symbol_ne (by decide)
    simpa using hopen
  · exact follows_identifier.last fun _ _ => follows_pure _

include hadvances he in
theorem follows_callTail (start : Offset) (first : Ident) :
    Follows (callTail resolve expression start first) callRest K c := by
  refine Follows.bind ?_ fun r c _ => ?_
  · rw [mul_assoc]
    exact follows_callee resolve _ c first
  refine (follows_symbol '(').bind fun _ c _ => Follows.bind ?_ fun arguments c _ => ?_
  · exact follows_arguments hadvances he K c
  refine (follows_symbol ')').last fun _ c => ?_
  exact follows_spanFrom start fun _ => follows_pure _

include hadvances he in
theorem follows_subroutineCall : Follows (subroutineCall resolve expression) calls K c := by
  rw [calls_eq]
  exact follows_offset fun start => follows_identifier.bind fun first c _ =>
    follows_callTail resolve hadvances he K c start first

theorem starts_callRest : Starts callRest {w | ∃ ch ∈ ['.', '('], w = .symbol ch} := by
  rw [callRest, add_mul, one_mul]
  rintro ws (hws | hws)
  · obtain ⟨_, ⟨_, rfl⟩, hhead⟩ := starts_led.mul ws hws
    exact ⟨_, ⟨'.', by simp, rfl⟩, hhead⟩
  · obtain ⟨_, rfl, hhead⟩ := (starts_symbol '(').mul ws hws
    exact ⟨_, ⟨'(', by simp, rfl⟩, hhead⟩

/-- The symbol that tokens begin with is one that a word begins with. -/
theorem Starts.symbol?_eq {L : Language Terminal} {S : Set Terminal} (h : Starts L S)
    {ts : List Token} (hts : Spelled L ts) :
    ∃ w ∈ S, ts.head?.bind Token.symbol? = w.symbol? := by
  obtain ⟨t, ht, w, hw, hspells⟩ := h.exists_spells hts
  exact ⟨w, hw, by rw [ht, Option.bind_some, hspells.symbol?_eq]⟩

/-- The symbol behind a name says what the name starts. -/
theorem spelled_nameRest_mul {K : Language Terminal} (hK : Starts K termEnds) {ts : List Token}
    (h : Spelled (nameRest * K) ts) :
    Spelled (bracketed * K) ts ∧ ts.head?.bind Token.symbol? = some '[' ∨
      Spelled (callRest * K) ts ∧
        (ts.head?.bind Token.symbol? = some '.' ∨ ts.head?.bind Token.symbol? = some '(') ∨
      Spelled K ts ∧ ∀ ch ∈ ['[', '.', '('], ts.head?.bind Token.symbol? ≠ some ch := by
  rw [nameRest, add_mul, add_mul, one_mul, spelled_add, spelled_add] at h
  rcases h with h | h | h
  · obtain ⟨_, ⟨_, rfl⟩, hsymbol⟩ := Starts.symbol?_eq starts_led.mul h
    exact .inl ⟨h, hsymbol⟩
  · obtain ⟨_, ⟨ch, hch, rfl⟩, hsymbol⟩ := Starts.symbol?_eq starts_callRest.mul h
    simp only [List.mem_cons, List.not_mem_nil, or_false] at hch
    refine .inr (.inl ⟨h, ?_⟩)
    rw [hsymbol]
    exact hch.imp (congrArg some) (congrArg some)
  · obtain ⟨w, hw, hsymbol⟩ := Starts.symbol?_eq hK h
    refine .inr (.inr ⟨h, fun ch hch heq => hw ch hch ?_⟩)
    rw [hsymbol] at heq
    cases w with
    | symbol ch' => exact congrArg _ (Option.some.inj heq)
    | _ => cases heq

include hadvances he in
theorem follows_nameTail (hK : Starts K termEnds) (start : Offset) (name : Ident) :
    Follows (nameTail resolve expression start name) nameRest K c := by
  by_cases hindex : c.rest.head?.bind Token.symbol? = some '['
  · have hq : Follows (do
        symbol '[' .term
        let index ← expression
        symbol ']' .term
        return .element (nameUse resolve name) index : Parser Term) bracketed K c := by
      refine follows_led (leads_isSymbol '[') (fun _ => completable_closed ']' (by decide))
        fun _ _ _ _ _ => ?_
      refine (he _ _ (starts_expressionEnds (by simp))).bind fun index c _ => ?_
      exact (follows_symbol ']').last fun _ _ => follows_pure _
    refine hq.of_head (fun _ => .inl) completable_bracketed (fun ts hts => ?_) fun ts hts h => ?_
    · simp only [nameTail, Cursor.rest_withRest, hts, hindex]
    · rw [← hts] at hindex
      rcases spelled_nameRest_mul hK h with ⟨h, -⟩ | ⟨-, h | h⟩ | ⟨-, h⟩
      · exact h
      · cases hindex.symm.trans h
      · cases hindex.symm.trans h
      · exact absurd hindex (h '[' (by simp))
  by_cases hcall : c.rest.head?.bind Token.symbol? = some '.' ∨
      c.rest.head?.bind Token.symbol? = some '('
  · have hq : Follows (do return .call (← callTail resolve expression start name) : Parser Term)
        callRest K c :=
      (follows_callTail resolve hadvances he K c start name).last fun _ _ => follows_pure _
    refine hq.of_head (fun _ h => .inr (.inl h)) completable_callRest (fun ts hts => ?_)
      fun ts hts h => ?_
    · rcases hcall with hcall | hcall <;> simp only [nameTail, Cursor.rest_withRest, hts, hcall]
    · rw [← hts] at hindex hcall
      rcases spelled_nameRest_mul hK h with ⟨-, h⟩ | ⟨h, -⟩ | ⟨-, h⟩
      · exact absurd h hindex
      · exact h
      · rcases hcall with hcall | hcall
        · exact absurd hcall (h '.' (by simp))
        · exact absurd hcall (h '(' (by simp))
  · have hq : Follows (pure (.var (nameUse resolve name)) : Parser Term) 1 K c := follows_pure _
    refine hq.of_head (fun _ h => .inr (.inr h)) completable_one (fun ts hts => ?_)
      fun ts hts h => ?_
    · exact nameTail_of_ne resolve (by simpa [hts, hindex] using hcall)
    · rw [← hts] at hindex hcall
      rcases spelled_nameRest_mul hK h with ⟨-, h⟩ | ⟨-, h⟩ | ⟨h, -⟩
      · exact absurd h hindex
      · exact absurd h hcall
      · rwa [one_mul]

include hadvances he ho in
theorem follows_termTail (hK : Starts K termEnds) (t : Token) (lead : TermLead) :
    Follows (termTail resolve expression operand t lead) (termRest lead) K c := by
  cases lead with
  | integer value => exact follows_pure _
  | string content => exact follows_pure _
  | constant k => exact follows_pure _
  | name text => exact follows_nameTail resolve hadvances he K c hK _ _
  | paren =>
    refine (he _ _ (starts_expressionEnds (by simp))).bind fun inner c _ => ?_
    refine (follows_symbol ')').last fun _ c => ?_
    exact follows_spanFrom _ fun _ => follows_pure _
  | unary op =>
    exact (ho K c hK).last fun operand c => follows_spanFrom _ fun _ => follows_pure _

theorem completable_termRest (lead : TermLead) : Completable (termRest lead) := by
  cases lead with
  | name text => exact completable_nameRest
  | paren => exact completable_closed ')' (by decide)
  | unary op => exact completable_terms
  | _ => exact completable_one

include hadvances he ho in
theorem follows_termWith (hK : Starts K termEnds) :
    Follows (termWith resolve expression operand) terms K c := by
  rw [terms_eq]
  cases hhead : c.rest.head?.bind termLead? with
  | none =>
    obtain ⟨expected, hrefused⟩ := termWith_of_refused resolve hhead
    exact follows_of_refused hrefused fun ts hts =>
      leads_termLead?.not_spelled (hts ▸ hhead)
  | some lead =>
    obtain ⟨t, ht, hlead⟩ := Option.bind_eq_some_iff.1 hhead
    obtain ⟨ts, hc⟩ := List.head?_eq_some_iff.1 ht
    refine (follows_termTail resolve hadvances he ho K _ hK t lead).of_token hc
      (completable_termRest lead) (fun ts => ?_)
      (fun _ => leads_termLead?.spelled_cons hlead) fun _ => leads_termLead?.spelled_of_cons hlead
    exact termWith_eq_termTail resolve hlead c.passed ts

theorem leads_binaryOp : Leads (fun t => t.symbol?.bind BinaryOp.ofSymbol?) id
    fun op : BinaryOp => .symbol op.symbol := by
  intro t op
  simp only [id_eq, exists_eq_right]
  constructor
  · intro h
    rw [Token.spells_symbol_iff.1 h, Option.bind_some, BinaryOp.ofSymbol?_symbol]
  · intro h
    obtain ⟨ch, hch, hop⟩ := Option.bind_eq_some_iff.1 h
    exact Token.spells_symbol_iff.2 (BinaryOp.symbol_of_ofSymbol? hop ▸ hch)

theorem follows_expressionWith {term : Parser Term} (hadvances : Advances term)
    (hterm : ∀ K c, Starts K termEnds → Follows term terms K c) (hK : Starts K expressionEnds) :
    Follows (expressionWith term) expressions K c := by
  have htail : Starts ((led (fun op : BinaryOp => .symbol op.symbol) fun _ => terms)∗ * K)
      termEnds := by
    refine (starts_led.mono ?_).kstar_mul (hK.mono expressionEnds_subset_termEnds)
    rintro _ ⟨op, rfl⟩ ch hch heq
    have hop : op.symbol ∉ ['[', '.', '('] := by cases op <;> decide
    exact hop (Terminal.symbol.inj heq ▸ hch)
  have hstop : Starts K (Set.range fun op : BinaryOp => .symbol op.symbol)ᶜ := by
    refine hK.mono ?_
    rintro _ ⟨ch, hch, rfl⟩ ⟨op, heq⟩
    have hop : op.symbol ∉ [')', ']', ';', ','] := by cases op <;> decide
    exact hop (Terminal.symbol.inj heq ▸ hch)
  rw [expressions_eq]
  refine follows_offset fun start => (hterm _ c htail).bind fun head c _ => ?_
  refine (follows_fold (fun _ _ => hadvances.bind fun _ => advances_pure _) leads_binaryOp
    (fun _ => completable_terms) hstop (fun done op c => ?_) [] c).last fun tail c =>
      follows_spanFrom start fun _ => follows_pure _
  exact (hterm _ c htail).last fun _ _ => follows_pure _

end Productions

theorem follows_term (levels : Nat) (K : Language Terminal) (c : Cursor) (hK : Starts K termEnds) :
    Follows (term resolve levels) terms K c := by
  induction levels generalizing K c with
  | zero =>
    exact follows_termWith resolve (advances_fail _ _) (fun _ _ _ => follows_tooDeep _)
      (fun _ _ _ => follows_tooDeep _) K c hK
  | succ levels ih =>
    exact follows_termWith resolve (advances_expressionWith (advances_term resolve levels))
      (fun K c => follows_expressionWith K c (advances_term resolve levels) ih) ih K c hK

/-- Expressions follow the grammar up to what may end them. -/
theorem follows_expression (levels : Nat) (K : Language Terminal) (c : Cursor)
    (hK : Starts K expressionEnds) : Follows (expression resolve levels) expressions K c := by
  cases levels with
  | zero => exact follows_tooDeep _
  | succ levels =>
    exact follows_expressionWith K c (advances_term resolve levels) (follows_term resolve levels) hK

end Expressions

/-! ### Statements -/

theorem leads_statementLead : Leads statementLead (·.2) fun w => .keyword w.keyword := by
  intro t w
  constructor
  · intro h
    refine ⟨(t.span.start, w), ?_, rfl⟩
    simp [statementLead, Token.spells_keyword_iff.1 h]
  · rintro ⟨lead, h, rfl⟩
    exact spells_of_statementLead h

theorem completable_condition : Completable Grammar.condition :=
  (completable_symbol (by decide)).mul (completable_closed ')' (by decide))

theorem completable_statements : Completable Grammar.statements :=
  statements_eq ▸ completable_kstar

theorem completable_block : Completable Grammar.block :=
  (completable_symbol (by decide)).mul
    (completable_statements.mul (completable_symbol (by decide)))

theorem completable_calls : Completable calls :=
  calls_eq ▸ completable_identifiers.mul completable_callRest

theorem completable_statementRest (w : StatementWord) : Completable (statementRest w) := by
  cases w with
  | letWord =>
    refine completable_identifiers.mul (completable_one.inr.mul ?_)
    exact (completable_symbol (by decide)).mul (completable_closed ';' (by decide))
  | ifWord => exact completable_condition.mul (completable_block.mul completable_one.inr)
  | whileWord => exact completable_condition.mul completable_block
  | doWord => exact completable_calls.mul (completable_symbol (by decide))
  | returnWord => exact completable_one.inl.mul (completable_symbol (by decide))

section Statements

variable (resolve : String → Meaning) {expression : Parser Expr}
  {statements : Parser (List Statement)} (hadvances : Advances expression)
  (he : ∀ K c, Starts K expressionEnds → Follows expression expressions K c)
  (hs : ∀ K c, Starts K {.symbol '}'} → Follows statements Grammar.statements K c)
  (K : Language Terminal) (c : Cursor)

include hs in
theorem follows_block (rule : Rule) : Follows (block rule statements) Grammar.block K c := by
  refine (follows_symbol '{').bind fun _ c _ => ?_
  refine (hs _ c (starts_symbol '}').mul).bind fun body c _ => ?_
  exact (follows_symbol '}').last fun _ _ => follows_pure _

include he in
theorem follows_condition (rule : Rule) :
    Follows (condition rule expression) Grammar.condition K c := by
  refine (follows_symbol '(').bind fun _ c _ => ?_
  refine (he _ c (starts_expressionEnds (by simp))).bind fun e c _ => ?_
  exact (follows_symbol ')').last fun _ _ => follows_pure _

include he in
theorem follows_targetIndex :
    Follows (targetIndex expression) (bracketed + 1) (Grammar.symbol '=' * K) c := by
  refine follows_next? (leads_isSymbol '[') (fun _ => completable_closed ']' (by decide))
    completable_one ?_ (fun _ _ _ _ _ => ?_) (follows_pure _)
  · have heq : Starts (Grammar.symbol '=' * K) {.symbol '['}ᶜ := starts_symbol_ne (by decide)
    simpa using heq
  · refine (he _ _ (starts_expressionEnds (by simp))).bind fun index c _ => ?_
    exact (follows_symbol ']').last fun _ _ => follows_pure _

include he in
theorem follows_letStatement (start : Offset) :
    Follows (letStatement resolve expression start) (statementRest .letWord) K c := by
  refine follows_identifier.bind fun target c _ => Follows.bind ?_ fun index c _ => ?_
  · rw [mul_assoc]
    exact follows_targetIndex he _ c
  refine (follows_symbol '=').bind fun _ c _ => ?_
  refine (he _ c (starts_expressionEnds (by simp))).bind fun value c _ => ?_
  exact (follows_symbol ';').last fun _ c => follows_spanFrom start fun _ => follows_pure _

include he hs in
theorem follows_ifStatement (hK : Starts K {.keyword .kwElse}ᶜ) (start : Offset) :
    Follows (ifStatement expression statements start) (statementRest .ifWord) K c := by
  refine (follows_condition he _ c _).bind fun condition c _ => ?_
  refine (follows_block hs _ c _).bind fun thenBody c _ => ?_
  refine follows_next? (leads_isKeyword .kwElse) (fun _ => completable_block) completable_one
    (by simpa using hK) (fun _ _ _ _ _ => ?_) ?_
  · exact (follows_block hs K _ _).last fun elseBody c =>
      follows_spanFrom start fun _ => follows_pure _
  · exact follows_spanFrom start fun _ => follows_pure _

include he hs in
theorem follows_whileStatement (start : Offset) :
    Follows (whileStatement expression statements start) (statementRest .whileWord) K c := by
  refine (follows_condition he _ c _).bind fun condition c _ => ?_
  exact (follows_block hs K c _).last fun body c => follows_spanFrom start fun _ => follows_pure _

include hadvances he in
theorem follows_doStatement (start : Offset) :
    Follows (doStatement resolve expression start) (statementRest .doWord) K c := by
  refine (follows_subroutineCall resolve hadvances he _ c).bind fun call c _ => ?_
  exact (follows_symbol ';').last fun _ c => follows_spanFrom start fun _ => follows_pure _

include he in
theorem follows_returnStatement (start : Offset) :
    Follows (returnStatement expression start) (statementRest .returnWord) K c := by
  -- No expression starts with the semicolon, so the next token decides whether there is a value.
  have hvalue : Follows (returnValue expression) (1 + expressions) (Grammar.symbol ';' * K) c := by
    refine follows_atSymbol completable_expressions
      (starts_expressions.mono (range_termLead_subset (by simp))) (starts_symbol ';').mul
      (follows_pure _) ?_
    exact (he _ c (starts_expressionEnds (by simp))).last fun _ _ => follows_pure _
  refine hvalue.bind fun value c _ => ?_
  exact (follows_symbol ';').last fun _ c => follows_spanFrom start fun _ => follows_pure _

include hadvances he hs in
theorem follows_statementWith (hK : Starts K {.keyword .kwElse}ᶜ) (lead : Offset × StatementWord) :
    Follows (statementWith resolve expression statements lead) (statementRest lead.2) K c := by
  obtain ⟨start, w⟩ := lead
  cases w with
  | letWord => exact follows_letStatement resolve he K c start
  | ifWord => exact follows_ifStatement he hs K c hK start
  | whileWord => exact follows_whileStatement he hs K c start
  | doWord => exact follows_doStatement resolve hadvances he K c start
  | returnWord => exact follows_returnStatement he K c start

include hadvances he hs in
theorem follows_statementsWith (hsadvances : Advances statements) (hK : Starts K {.symbol '}'}) :
    Follows (statementsWith resolve expression statements) Grammar.statements K c := by
  -- No statement starts with `else`, and no list of statements is followed by it.
  have hitem : Starts ((led (fun w : StatementWord => .keyword w.keyword) statementRest)∗ * K)
      {.keyword .kwElse}ᶜ := by
    refine (starts_led.mono ?_).kstar_mul (hK.mono (by simp))
    rintro _ ⟨w, rfl⟩
    cases w <;> simp [StatementWord.keyword]
  rw [statements_eq]
  refine (follows_fold (fun _ lead => (advances_statementWith resolve hadvances hsadvances lead).bind
    fun _ => advances_pure _) leads_statementLead completable_statementRest (hK.mono (by simp))
    (fun done lead c => ?_) [] c).last fun _ _ => follows_pure _
  exact (follows_statementWith resolve hadvances he hs _ c hitem lead).last fun _ _ => follows_pure _

end Statements

/-- Statements follow the grammar up to the brace that closes them. -/
theorem follows_statements (resolve : String → Meaning) (levels : Nat) (K : Language Terminal)
    (c : Cursor) (hK : Starts K {.symbol '}'}) :
    Follows (statements resolve levels) Grammar.statements K c := by
  induction levels generalizing K c with
  | zero => exact follows_tooDeep _
  | succ levels ih =>
    exact follows_statementsWith resolve (advances_expression resolve levels)
      (follows_expression resolve levels) ih K c (advances_statements resolve levels) hK

/-! ### Declarations -/

theorem leads_type? : Leads type? id TypeName.terminal := by
  intro t type
  simp only [id_eq, exists_eq_right]
  exact ⟨type?_of_spells, spells_of_type?⟩

theorem leads_classVarLead :
    Leads classVarLead (·.2) fun kind : ClassVarKind => .keyword kind.keyword := by
  intro t kind
  constructor
  · intro h
    exact ⟨_, classVarLead_of_spells h, rfl⟩
  · rintro ⟨lead, h, rfl⟩
    exact spells_of_classVarLead h

theorem leads_subroutineLead :
    Leads subroutineLead (·.2) fun kind : SubroutineKind => .keyword kind.keyword := by
  intro t kind
  constructor
  · intro h
    exact ⟨_, subroutineLead_of_spells h, rfl⟩
  · rintro ⟨lead, h, rfl⟩
    exact spells_of_subroutineLead h

theorem leads_varLead : Leads varLead (fun _ => ()) fun _ => .keyword .kwVar := by
  intro t i
  constructor
  · intro h
    exact ⟨_, varLead_of_spells h, rfl⟩
  · rintro ⟨start, h, -⟩
    exact spells_of_varLead h

theorem completable_types : Completable types :=
  completable_led isLexeme_name (.object (String.ofList ['x'])) (fun _ => ⟨rfl, rfl⟩)
    completable_one

theorem completable_declared : Completable declared :=
  completable_types.mul
    ((completable_identifiers.mul completable_kstar).mul (completable_symbol (by decide)))

theorem completable_subroutineRest : Completable subroutineRest := by
  have hbody : Completable subroutineBody := (completable_symbol (by decide)).mul
    (completable_kstar.mul (completable_statements.mul (completable_symbol (by decide))))
  have hparameters := completable_one.inl (M := separated parameter)
  refine completable_types.inr.mul (completable_identifiers.mul ?_)
  exact (completable_symbol (by decide)).mul
    (hparameters.mul ((completable_symbol (by decide)).mul hbody))

section Declarations

variable (K : Language Terminal) (c : Cursor)

theorem follows_type : Follows type types K c := follows_next leads_type?

theorem follows_returnType : Follows returnType returnTypes K c := by
  have hstop : Starts (types * K) {.keyword .kwVoid}ᶜ := by
    refine starts_led.mul.mono ?_
    rintro _ ⟨type, rfl⟩
    cases type <;> simp [TypeName.terminal]
  refine follows_next? (leads_isKeyword .kwVoid) (fun _ => completable_one) completable_types
    (by simpa using hstop) (fun _ _ _ _ _ => follows_pure _) ?_
  exact (follows_type K c).last fun _ _ => follows_pure _

theorem follows_declaredNames (rule : Rule) (type : TypeName) (storage : Storage)
    (scopes : Scopes) : Follows (declaredNames rule type storage scopes) (separated identifiers)
      (Grammar.symbol ';' * K) c := by
  refine (follows_commaSeparated (fun _ => (advances_next _ _ _).bind fun _ =>
    (advances_declare _ _ _ _).bind fun _ => advances_pure _) completable_identifiers
    (starts_symbol_ne (by decide)) (fun r c => ?_) _ c).last fun _ _ => follows_pure _
  exact follows_identifier.last fun name c => follows_declare _ _ _ _ fun _ => follows_pure _

theorem follows_classVarDec (scopes : Scopes) (start : Offset) (kind : ClassVarKind) :
    Follows (classVarDec scopes start kind) declared K c := by
  refine (follows_type _ c).bind fun type c _ => ?_
  refine (follows_declaredNames K c _ _ _ _).bind fun r c _ => ?_
  exact (follows_symbol ';').last fun _ c => follows_spanFrom start fun _ => follows_pure _

theorem follows_classVarDecs (hK : Starts K (Set.range fun kind : ClassVarKind =>
      Terminal.keyword kind.keyword)ᶜ) : Follows classVarDecs Grammar.classVarDec∗ K c := by
  refine (follows_fold (fun _ _ => (advances_classVarDec _ _ _).bind fun _ => advances_pure _)
    leads_classVarLead (fun _ => completable_declared) hK (fun r lead c => ?_) _ c).last
    fun _ _ => follows_pure _
  exact (follows_classVarDec _ c _ _ _).last fun _ _ => follows_pure _

theorem follows_varDec (scopes : Scopes) (start : Offset) :
    Follows (varDec scopes start) declared K c := by
  refine (follows_type _ c).bind fun type c _ => ?_
  refine (follows_declaredNames K c _ _ _ _).bind fun r c _ => ?_
  exact (follows_symbol ';').last fun _ c => follows_spanFrom start fun _ => follows_pure _

theorem follows_varDecs (scopes : Scopes) (hK : Starts K {.keyword .kwVar}ᶜ) :
    Follows (varDecs scopes) Grammar.varDec∗ K c := by
  refine (follows_fold (fun _ _ => (advances_varDec _ _).bind fun _ => advances_pure _)
    leads_varLead (fun _ => completable_declared) (by simpa using hK) (fun r start c => ?_) _ c).last
    fun _ _ => follows_pure _
  exact (follows_varDec _ c _ _).last fun _ _ => follows_pure _

theorem follows_parameters (scopes : Scopes) :
    Follows (parameters scopes) (1 + separated parameter) (Grammar.symbol ')' * K) c := by
  have hparameter : Completable parameter := completable_types.mul completable_identifiers
  have hstart : Starts (separated parameter) {.symbol ')'}ᶜ := by
    refine starts_led.mul.mul.mono ?_
    rintro _ ⟨type, rfl⟩
    cases type <;> simp [TypeName.terminal]
  refine follows_atSymbol (hparameter.mul completable_kstar) hstart (starts_symbol ')').mul
    (follows_pure _) ?_
  refine (follows_commaSeparated (fun _ => (advances_next _ _ _).bind fun _ =>
    (advances_next _ _ _).bind fun _ => (advances_declare _ _ _ _).bind fun _ => advances_pure _)
    hparameter (starts_symbol_ne (by decide)) (fun r c => ?_) _ c).last fun _ _ => follows_pure _
  refine (follows_type _ c).bind fun type c _ => ?_
  exact follows_identifier.last fun name c => follows_declare _ _ _ _ fun _ => follows_pure _

theorem follows_subroutineScopes (className : String) (scopes : Scopes) (kind : SubroutineKind)
    (name : Ident) {f : Scopes → Parser SubroutineDec} {L : Language Terminal}
    (hf : ∀ scopes, Follows (f scopes) L K c) :
    Follows (subroutineScopes className scopes kind name >>= f) L K c := by
  unfold subroutineScopes
  split
  · exact follows_declare _ _ _ _ hf
  · exact hf _
  · exact hf _

theorem follows_subroutineDec (className : String) (scopes : Scopes) (start : Offset)
    (kind : SubroutineKind) :
    Follows (subroutineDec className scopes start kind) subroutineRest K c := by
  have hbody : Starts (Grammar.statements * (Grammar.symbol '}' * K)) {.keyword .kwVar}ᶜ := by
    rw [statements_eq]
    refine (starts_led.mono ?_).kstar_mul ((starts_symbol '}').mul.mono (by simp))
    rintro _ ⟨w, rfl⟩
    cases w <;> simp [StatementWord.keyword]
  refine (follows_returnType _ c).bind fun type c _ => follows_identifier.bind fun name c _ => ?_
  refine follows_subroutineScopes _ c className scopes kind name fun scopes => ?_
  refine (follows_symbol '(').bind fun _ c _ => Follows.bind ?_ fun parameters c _ => ?_
  · rw [mul_assoc]
    exact follows_parameters _ c scopes
  refine (follows_symbol ')').bind fun _ c _ => (follows_symbol '{').bind fun _ c _ => ?_
  refine Follows.bind ?_ fun decs c _ => Follows.bind ?_ fun body c _ => ?_
  · rw [mul_assoc]
    exact follows_varDecs _ c _ hbody
  · exact follows_statements _ _ _ c (starts_symbol '}').mul
  · exact (follows_symbol '}').last fun _ c => follows_spanFrom start fun _ => follows_pure _

theorem follows_subroutineDecs (className : String) (scopes : Scopes)
    (hK : Starts K {.symbol '}'}) :
    Follows (subroutineDecs className scopes) Grammar.subroutineDec∗ K c := by
  refine (follows_fold (fun _ _ => (advances_subroutineDec _ _ _ _).bind fun _ => advances_pure _)
    leads_subroutineLead (fun _ => completable_subroutineRest) (hK.mono (by simp))
    (fun done lead c => ?_) _ c).last fun _ _ => follows_pure _
  exact (follows_subroutineDec _ c className scopes lead.1 lead.2).last fun _ _ => follows_pure _

/-- A class follows the grammar. -/
theorem follows_classDec : Follows classDec Grammar.classDec K c := by
  have hstop : Starts (Grammar.subroutineDec∗ * (Grammar.symbol '}' * K))
      (Set.range fun kind : ClassVarKind => Terminal.keyword kind.keyword)ᶜ := by
    refine (starts_led.mono ?_).kstar_mul ((starts_symbol '}').mul.mono (by simp))
    rintro _ ⟨kind, rfl⟩ ⟨kind', heq⟩
    cases kind <;> cases kind' <;> cases heq
  refine follows_offset fun start => (follows_keyword .kwClass).bind fun _ c _ => ?_
  refine follows_identifier.bind fun name c _ => (follows_symbol '{').bind fun _ c _ => ?_
  refine Follows.bind ?_ fun decs c _ => Follows.bind ?_ fun subs c _ => ?_
  · rw [mul_assoc]
    exact follows_classVarDecs _ c hstop
  · exact follows_subroutineDecs _ c _ _ (starts_symbol '}').mul
  · exact (follows_symbol '}').last fun _ c => follows_spanFrom start fun _ => follows_pure _

end Declarations

theorem completable_classDec : Completable Grammar.classDec := by
  refine (completable_keyword .kwClass).mul (completable_identifiers.mul ?_)
  exact (completable_symbol (by decide)).mul
    (completable_kstar.mul (completable_kstar.mul (completable_symbol (by decide))))

/-- Accepts the end of the tokens. -/
def endOfInput : Parser Unit := fun c =>
  match c.rest with
  | [] => .ok ((), c)
  | _ :: _ => fail .endOfInput .classDec c

/-- Reads a class with nothing behind it. -/
def wholeClass : Parser ParsedClass := do
  let parsed ← classDec
  endOfInput
  return parsed

theorem follows_endOfInput (c : Cursor) : Follows endOfInput 1 1 c := by
  cases hc : c.rest with
  | nil =>
    refine follows_of_stays (a := ()) fun ts hts => ?_
    obtain rfl : ts = [] := List.head?_eq_none_iff.1 (by rw [hts, hc]; rfl)
    rfl
  | cons t rest =>
    have hrefused (ts : List Token) (hts : ts.head? = c.rest.head?) :
        endOfInput (c.withRest ts) = .error ((c.withRest ts).fault .endOfInput .classDec) := by
      obtain ⟨ts, rfl⟩ := List.head?_eq_some_iff.1 (hts.trans (by rw [hc]; rfl))
      rfl
    refine follows_of_refused hrefused fun ts hts hspelled => ?_
    rw [one_mul, spelled_one] at hspelled
    rw [hspelled, hc] at hts
    cases hts

theorem follows_wholeClass (c : Cursor) : Follows wholeClass Grammar.classDec 1 c := by
  refine Follows.last (follows_classDec 1 c) fun parsed c' => ?_
  exact (follows_endOfInput c').last fun _ _ => follows_pure _

end Parser

theorem parse_eq_wholeClass (tokens : List Token) :
    parse tokens = (Parser.wholeClass ⟨[], tokens⟩).map Prod.fst := by
  simp only [parse, Parser.wholeClass, Bind.bind, StateT.bind, Except.bind]
  cases Parser.classDec ⟨[], tokens⟩ with
  | error e => rfl
  | ok r =>
    obtain ⟨parsed, c⟩ := r
    simp only [Parser.endOfInput]
    cases c.rest <;> rfl

/-! ### Sentences -/

/-- The tokens are a sentence of the grammar: a class is written with them. -/
def IsSentence (tokens : List Token) : Prop :=
  ∃ tree : ClassDec, tree.IsGrammatical ∧ List.Forall₂ Token.Spells tokens tree.terminals

theorem isSentence_iff_spelled {tokens : List Token} :
    IsSentence tokens ↔ Spelled Grammar.classDec tokens := by
  rw [← writtenAs_classDec]
  constructor
  · rintro ⟨tree, hgrammatical, htokens⟩
    exact ⟨_, ⟨tree, hgrammatical, rfl⟩, htokens⟩
  · rintro ⟨_, ⟨tree, hgrammatical, rfl⟩, htokens⟩
    exact ⟨tree, hgrammatical, htokens⟩

/-- The fault is found behind the tokens `before`, at the first of the tokens `after` or, if there
is none, at the end, and there and nowhere else the tokens stop being those of a sentence. -/
structure FoundBehind (before after : List Token) (f : SyntaxFault) (span : Span) : Prop where
  /-- The fault is raised at that place. -/
  raised : ∃ rule, Cursor.fault ⟨before.reverse, after⟩ f.expected rule = .parse f span
  /-- The tokens in front of it can be completed to a sentence, by tokens that the lexer makes. -/
  viable : ∃ rest, IsSentence (before ++ rest) ∧ ∀ t ∈ rest, t.IsScanned
  /-- No sentence begins with them and the refused token, or none consists of them alone if the
  tokens have ended. -/
  hopeless : ∀ after', after'.head? = after.head? → ¬ IsSentence (before ++ after')
  /-- Whatever comes behind the refused token, the fault is raised at the same place, with the same
  expectation, the same refused token, the same rule and the same span. -/
  again : ∀ after', after'.head? = after.head? → ∃ f' rule,
    parse (before ++ after') = .error (.parse f' span) ∧
      Cursor.fault ⟨before.reverse, after'⟩ f'.expected rule = .parse f' span ∧
        f'.expected = f.expected ∧ f'.found = f.found ∧ f'.rule = f.rule

/-- **A syntax fault is reported at the first token with which no sentence begins**, and only the
tokens up to that one have a say in it. -/
theorem foundBehind_of_parse_error {tokens : List Token} {f : SyntaxFault} {span : Span}
    (h : parse tokens = .error (.parse f span)) (hdeep : f.expected ≠ .shallowerNesting) :
    ∃ before after, tokens = before ++ after ∧ FoundBehind before after f span := by
  have herror : Parser.wholeClass ⟨[], tokens⟩ = .error (.parse f span) := by
    rw [parse_eq_wholeClass] at h
    cases hclass : Parser.wholeClass ⟨[], tokens⟩ with
    | error e =>
      rw [hclass] at h
      cases h
      rfl
    | ok r =>
      rw [hclass] at h
      cases h
  obtain ⟨before, c, rule, hfails⟩ := (Parser.follows_wholeClass _).fails herror hdeep
  obtain ⟨passed, after⟩ := c
  obtain rfl : passed = before.reverse := by simpa using hfails.passes.passed_eq
  have htokens : tokens = before ++ after := hfails.passes.rest_eq
  have hraised : Cursor.fault ⟨before.reverse, after⟩ f.expected rule = .parse f span := by
    have hagain := hfails.again after rfl
    rw [← htokens] at hagain
    exact Except.error.inj (hagain.symm.trans herror)
  refine ⟨before, after, htokens, ⟨rule, hraised⟩, ?_, fun after' hafter => ?_, fun after' hafter => ?_⟩
  · obtain ⟨rest, hrest, hscanned⟩ := hfails.viable (Parser.completable_classDec.mul completable_one)
    rw [mul_one] at hrest
    exact ⟨rest, isSentence_iff_spelled.2 hrest, hscanned⟩
  · have hhopeless := hfails.hopeless after' hafter
    rw [mul_one] at hhopeless
    exact fun hsentence => hhopeless (isSentence_iff_spelled.1 hsentence)
  · obtain ⟨f', hf', hexpected, hfound, hrule⟩ := Cursor.exists_fault_withRest hafter hraised
    refine ⟨f', rule, ?_, hexpected ▸ hf', hexpected, hfound, hrule⟩
    rw [parse_eq_wholeClass, ← hf']
    exact congrArg _ (hfails.again after' hafter)

namespace Meter

/-- The tokens `class Meter { function int read() { return 1 +; } }`, with a semicolon in the place
of a term. -/
def tokens : List Token :=
  let terminals : List Terminal := [.keyword .kwClass, .identifier "Meter", .symbol '{',
    .keyword .kwFunction, .keyword .kwInt, .identifier "read", .symbol '(', .symbol ')',
    .symbol '{', .keyword .kwReturn, .integer 1, .symbol '+', .symbol ';', .symbol '}', .symbol '}']
  terminals.mapIdx fun i w => w.token (.between i (i + 1))

end Meter

theorem foundBehind_of_parse_error_meter : ∃ f span,
    parse Meter.tokens = .error (.parse f span) ∧ f.expected ≠ .shallowerNesting ∧
      ∃ before after, Meter.tokens = before ++ after ∧ FoundBehind before after f span := by
  have hfault : (match parse Meter.tokens with | .error e => some e | .ok _ => none) =
      some (.parse ⟨.term, ";", "term", ["return", "1", "+", ";", "\x7d"]⟩ ⟨12, 13⟩) := by
    decide +kernel
  cases h : parse Meter.tokens with
  | ok parsed =>
    rw [h] at hfault
    cases hfault
  | error e =>
    rw [h] at hfault
    cases hfault
    exact ⟨_, _, rfl, by decide, foundBehind_of_parse_error h (by decide)⟩

end Jack

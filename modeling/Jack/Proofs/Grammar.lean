import Jack.Proofs.Terminals
import Mathlib.Computability.Language

/-!
# The grammar

The terminals of the trees of one sort make up a language.  Here each of these languages is put
together from those of the parts of its trees by choice, sequence and repetition, which is what the
rules of a grammar do.  Nothing is said of nesting or of names that are declared twice, which no
grammar can forbid.

A choice is always made by the first terminal (`Grammar.led`), so that a reader that sees one
terminal knows which alternative it is in.

* `Grammar.expressions_eq`, `Grammar.terms_eq`, `Grammar.calls_eq` : the rules of expressions;
* `Grammar.statements_eq` : the rules of statements;
* `Grammar.writtenAs_subroutineDec`, `Grammar.writtenAs_classDec` : the rules of declarations.
-/

namespace Jack

open Language Computability

namespace Grammar

variable {γ ι : Type}

/-! ### Choice, sequence and repetition -/

/-- What the things with a property are written as. -/
def writtenAs (terminals : γ → List Terminal) (P : γ → Prop) : Language Terminal :=
  {ws | ∃ x, P x ∧ terminals x = ws}

/-- One of the terminals `word i`, and behind it a word of `rest i`. -/
def led (word : ι → Terminal) (rest : ι → Language Terminal) : Language Terminal :=
  {ws | ∃ i, ∃ ws' ∈ rest i, word i :: ws' = ws}

/-- One of the terminals `word i`. -/
def oneOf (word : ι → Terminal) : Language Terminal := led word fun _ => 1

/-- A symbol. -/
def symbol (ch : Char) : Language Terminal := oneOf fun _ : Unit => .symbol ch

/-- A reserved word. -/
def keyword (k : Keyword) : Language Terminal := oneOf fun _ : Unit => .keyword k

/-- A name. -/
def identifiers : Language Terminal := oneOf Terminal.identifier

/-- Words of a language with commas between them, at least one. -/
def separated (L : Language Terminal) : Language Terminal :=
  L * (led (fun _ : Unit => .symbol ',') fun _ => L)∗

section Members

variable {terminals : γ → List Terminal} {P : γ → Prop} {word : ι → Terminal}
  {rest : ι → Language Terminal} {L : Language Terminal} {ws : List Terminal}

theorem mem_writtenAs : ws ∈ writtenAs terminals P ↔ ∃ x, P x ∧ terminals x = ws := Iff.rfl

theorem mem_led : ws ∈ led word rest ↔ ∃ i, ∃ ws' ∈ rest i, word i :: ws' = ws := Iff.rfl

@[simp] theorem mem_oneOf : ws ∈ oneOf word ↔ ∃ i, [word i] = ws := by
  simp [oneOf, mem_led]

theorem mem_symbol {ch : Char} : [.symbol ch] ∈ symbol ch := mem_oneOf.2 ⟨(), rfl⟩

/-- What stands behind an alternative stands behind each of its words. -/
theorem led_mul : led word rest * L = led word fun i => rest i * L := by
  ext ws
  constructor
  · intro h
    obtain ⟨_, ⟨i, us, hus, rfl⟩, vs, hvs, rfl⟩ := mem_mul.1 h
    exact ⟨i, us ++ vs, append_mem_mul hus hvs, rfl⟩
  · rintro ⟨i, _, h, rfl⟩
    obtain ⟨us, hus, vs, hvs, rfl⟩ := mem_mul.1 h
    exact append_mem_mul (a := word i :: us) ⟨i, us, hus, rfl⟩ hvs

theorem oneOf_mul : oneOf word * L = led word fun _ => L := by
  simp only [oneOf, led_mul, one_mul]

theorem mem_symbol_mul {ch : Char} : ws ∈ symbol ch * L ↔ ∃ vs ∈ L, .symbol ch :: vs = ws := by
  simp [symbol, oneOf_mul, mem_led]

theorem cons_mem_symbol_mul (ch : Char) (h : ws ∈ L) : .symbol ch :: ws ∈ symbol ch * L :=
  mem_symbol_mul.2 ⟨ws, h, rfl⟩

theorem mem_keyword_mul {k : Keyword} : ws ∈ keyword k * L ↔ ∃ vs ∈ L, .keyword k :: vs = ws := by
  simp [keyword, oneOf_mul, mem_led]

theorem mem_identifiers_mul :
    ws ∈ identifiers * L ↔ ∃ name, ∃ vs ∈ L, .identifier name :: vs = ws := by
  simp [identifiers, oneOf_mul, mem_led]

theorem cons_mem_identifiers_mul (name : String) (h : ws ∈ L) :
    .identifier name :: ws ∈ identifiers * L :=
  mem_identifiers_mul.2 ⟨name, ws, h, rfl⟩

/-- Things written one after the other. -/
theorem writtenAs_flatMap : writtenAs (fun xs : List γ => xs.flatMap terminals) (∀ x ∈ ·, P x) =
    (writtenAs terminals P)∗ := by
  ext ws
  constructor
  · rintro ⟨xs, hxs, rfl⟩
    refine mem_kstar.2 ⟨xs.map terminals, (List.flatMap_def ..), fun ws hws => ?_⟩
    obtain ⟨x, hx, rfl⟩ := List.mem_map.1 hws
    exact ⟨x, hxs x hx, rfl⟩
  · intro h
    obtain ⟨pieces, rfl, hpieces⟩ := mem_kstar.1 h
    clear h
    induction pieces with
    | nil => exact ⟨[], List.forall_mem_nil _, rfl⟩
    | cons piece pieces ih =>
      obtain ⟨⟨x, hx, hpiece⟩, hrest⟩ := List.forall_mem_cons.1 hpieces
      obtain ⟨xs, hxs, heq⟩ := ih hrest
      refine ⟨x :: xs, List.forall_mem_cons.2 ⟨hx, hxs⟩, ?_⟩
      rw [List.flatten_cons, ← hpiece, ← heq]
      exact List.flatMap_cons

/-- Things written with commas between them. -/
theorem writtenAs_withCommas :
    writtenAs (fun xs : List γ => withCommas (xs.map terminals))
        (fun xs => xs ≠ [] ∧ ∀ x ∈ xs, P x) =
      separated (writtenAs terminals P) := by
  have hcomma : writtenAs (fun x => .symbol ',' :: terminals x) P =
      led (fun _ : Unit => .symbol ',') fun _ => writtenAs terminals P := by
    ext ws
    simp [mem_led, mem_writtenAs]
  ext ws
  rw [separated, ← hcomma, ← writtenAs_flatMap]
  constructor
  · rintro ⟨_ | ⟨x, xs⟩, ⟨hne, hall⟩, rfl⟩
    · exact absurd rfl hne
    · obtain ⟨hx, hxs⟩ := List.forall_mem_cons.1 hall
      refine append_mem_mul ⟨x, hx, rfl⟩ ⟨xs, hxs, ?_⟩
      rw [List.flatMap_map]
  · intro h
    obtain ⟨_, ⟨x, hx, rfl⟩, _, ⟨xs, hxs, rfl⟩, rfl⟩ := mem_mul.1 h
    refine ⟨x :: xs, ⟨List.cons_ne_nil x xs, List.forall_mem_cons.2 ⟨hx, hxs⟩⟩, ?_⟩
    simp only [List.map_cons, withCommas, List.flatMap_map]

/-- Things written with commas between them, or nothing. -/
theorem mem_one_add_separated : ws ∈ 1 + separated (writtenAs terminals fun _ => True) ↔
    ∃ xs : List γ, withCommas (xs.map terminals) = ws := by
  rw [mem_add, mem_one, ← writtenAs_withCommas, mem_writtenAs]
  constructor
  · rintro (rfl | ⟨xs, -, rfl⟩)
    · exact ⟨[], rfl⟩
    · exact ⟨xs, rfl⟩
  · rintro ⟨xs, rfl⟩
    by_cases hxs : xs = []
    · exact .inl (by rw [hxs]; rfl)
    · exact .inr ⟨xs, ⟨hxs, fun _ _ => trivial⟩, rfl⟩

end Members

/-! ### Expressions -/

/-- Expressions. -/
def expressions : Language Terminal := writtenAs Expr.terminals fun _ => True

/-- Terms. -/
def terms : Language Terminal := writtenAs Term.terminals fun _ => True

/-- Calls. -/
def calls : Language Terminal := writtenAs Call.terminals fun _ => True

/-- The arguments of a call. -/
def arguments : Language Terminal := 1 + separated expressions

/-- A call behind its first name. -/
def callRest : Language Terminal :=
  (led (fun _ : Unit => .symbol '.') (fun _ => identifiers) + 1) *
    (symbol '(' * (arguments * symbol ')'))

/-- An expression in brackets. -/
def bracketed : Language Terminal :=
  led (fun _ : Unit => .symbol '[') fun _ => expressions * symbol ']'

/-- A term behind the name that it starts with. -/
def nameRest : Language Terminal := bracketed + (callRest + 1)

/-- The terminals that start a term. -/
inductive TermLead where
  | integer (value : Nat)
  | string (content : String)
  | constant (k : KeywordConstant)
  | name (text : String)
  | paren
  | unary (op : UnaryOp)

/-- The terminal that starts a term. -/
def TermLead.word : TermLead → Terminal
  | integer value => .integer value
  | string content => .string content
  | constant k => .keyword k.keyword
  | name text => .identifier text
  | paren => .symbol '('
  | unary op => .symbol op.symbol

/-- A term behind the terminal that it starts with. -/
def termRest : TermLead → Language Terminal
  | .integer _ | .string _ | .constant _ => 1
  | .name _ => nameRest
  | .paren => expressions * symbol ')'
  | .unary _ => terms

/-- An expression is a term, and then operators with a term each. -/
theorem expressions_eq :
    expressions = terms * (led (fun op : BinaryOp => .symbol op.symbol) fun _ => terms)∗ := by
  have hpair : writtenAs (fun p : BinaryOp × Term => .symbol p.1.symbol :: p.2.terminals)
      (fun _ => True) = led (fun op : BinaryOp => .symbol op.symbol) fun _ => terms := by
    ext ws
    simp [mem_led, terms, mem_writtenAs]
  ext ws
  rw [← hpair, ← writtenAs_flatMap]
  constructor
  · rintro ⟨⟨head, tail, span⟩, -, rfl⟩
    rw [Expr.terminals, tailTerminals_eq_flatMap]
    exact append_mem_mul ⟨head, trivial, rfl⟩ ⟨tail, fun _ _ => trivial, rfl⟩
  · intro h
    obtain ⟨_, ⟨head, -, rfl⟩, _, ⟨tail, -, rfl⟩, rfl⟩ := mem_mul.1 h
    exact ⟨⟨head, tail, .empty 0⟩, trivial, by rw [Expr.terminals, tailTerminals_eq_flatMap]⟩

/-- A call is a name, perhaps another name behind a dot, and arguments in parentheses. -/
theorem calls_eq : calls = identifiers * callRest := by
  ext ws
  constructor
  · rintro ⟨⟨receiver, name, es, span⟩, -, rfl⟩
    have hes : .symbol '(' :: (withCommas (es.map Expr.terminals) ++ [.symbol ')']) ∈
        symbol '(' * (arguments * symbol ')') :=
      cons_mem_symbol_mul '(' (append_mem_mul (mem_one_add_separated.2 ⟨es, rfl⟩) mem_symbol)
    rw [Call.terminals, argumentsTerminals_eq_map]
    cases receiver with
    | none => exact cons_mem_identifiers_mul name.text (append_mem_mul (.inr rfl) hes)
    | some receiver =>
      have hname : [.symbol '.', .identifier name.text] ∈
          led (fun _ : Unit => .symbol '.') fun _ => identifiers :=
        ⟨(), _, mem_oneOf.2 ⟨name.text, rfl⟩, rfl⟩
      exact cons_mem_identifiers_mul receiver.name (append_mem_mul (.inl hname) hes)
  · intro h
    obtain ⟨first, _, hrest, rfl⟩ := mem_identifiers_mul.1 h
    obtain ⟨us, hus, _, hopen, rfl⟩ := mem_mul.1 hrest
    obtain ⟨_, hargs, rfl⟩ := mem_symbol_mul.1 hopen
    obtain ⟨_, hes, _, hclose, rfl⟩ := mem_mul.1 hargs
    obtain ⟨es, rfl⟩ := mem_one_add_separated.1 hes
    obtain ⟨-, rfl⟩ := mem_oneOf.1 hclose
    rcases hus with ⟨_, _, hname, rfl⟩ | rfl
    · obtain ⟨name, rfl⟩ := mem_oneOf.1 hname
      refine ⟨⟨some ⟨first, .empty 0, .subroutine⟩, ⟨name, .empty 0⟩, es, .empty 0⟩, trivial, ?_⟩
      rw [Call.terminals, argumentsTerminals_eq_map]
      rfl
    · refine ⟨⟨none, ⟨first, .empty 0⟩, es, .empty 0⟩, trivial, ?_⟩
      rw [Call.terminals, argumentsTerminals_eq_map]
      rfl

/-- An expression in brackets. -/
theorem mem_bracketed {ws : List Terminal} : ws ∈ bracketed ↔
    ∃ e : Expr, .symbol '[' :: (e.terminals ++ [.symbol ']']) = ws := by
  constructor
  · rintro ⟨_, _, h, rfl⟩
    obtain ⟨_, ⟨e, -, rfl⟩, _, hclose, rfl⟩ := mem_mul.1 h
    obtain ⟨-, rfl⟩ := mem_oneOf.1 hclose
    exact ⟨e, rfl⟩
  · rintro ⟨e, rfl⟩
    exact ⟨(), _, append_mem_mul ⟨e, trivial, rfl⟩ mem_symbol, rfl⟩

/-- What a term is follows from the terminal that it starts with. -/
theorem terms_eq : terms = led TermLead.word termRest := by
  have hcalls (ws : List Terminal) : ws ∈ calls ↔
      ∃ name, ∃ ws' ∈ callRest, .identifier name :: ws' = ws := by
    rw [calls_eq, mem_identifiers_mul]
  ext ws
  constructor
  · rintro ⟨t, -, rfl⟩
    cases t with
    | integer value span => exact ⟨.integer value, [], rfl, rfl⟩
    | string content span => exact ⟨.string content, [], rfl, rfl⟩
    | keyword k span => exact ⟨.constant k, [], rfl, rfl⟩
    | var use => exact ⟨.name use.name, [], .inr (.inr rfl), rfl⟩
    | element array index =>
      exact ⟨.name array.name, _, .inl (mem_bracketed.2 ⟨index, rfl⟩), rfl⟩
    | call call =>
      obtain ⟨name, ws', hws', heq⟩ := (hcalls _).1 ⟨call, trivial, rfl⟩
      exact ⟨.name name, ws', .inr (.inl hws'), heq⟩
    | group inner span =>
      exact ⟨.paren, _, append_mem_mul ⟨inner, trivial, rfl⟩ mem_symbol, rfl⟩
    | unary op operand span => exact ⟨.unary op, _, ⟨operand, trivial, rfl⟩, rfl⟩
  · rintro ⟨lead, ws', hws', rfl⟩
    cases lead with
    | integer value =>
      obtain rfl := hws'
      exact ⟨.integer value (.empty 0), trivial, rfl⟩
    | string content =>
      obtain rfl := hws'
      exact ⟨.string content (.empty 0), trivial, rfl⟩
    | constant k =>
      obtain rfl := hws'
      exact ⟨.keyword k (.empty 0), trivial, rfl⟩
    | name name =>
      rcases hws' with hindex | hcall | rfl
      · obtain ⟨index, rfl⟩ := mem_bracketed.1 hindex
        exact ⟨.element ⟨name, .empty 0, .subroutine⟩ index, trivial, rfl⟩
      · obtain ⟨call, -, heq⟩ := (hcalls _).2 ⟨name, ws', hcall, rfl⟩
        exact ⟨.call call, trivial, heq⟩
      · exact ⟨.var ⟨name, .empty 0, .subroutine⟩, trivial, rfl⟩
    | paren =>
      obtain ⟨_, ⟨inner, -, rfl⟩, _, hclose, rfl⟩ := mem_mul.1 hws'
      obtain ⟨-, rfl⟩ := mem_oneOf.1 hclose
      exact ⟨.group inner (.empty 0), trivial, rfl⟩
    | unary op =>
      obtain ⟨operand, -, rfl⟩ := hws'
      exact ⟨.unary op operand (.empty 0), trivial, rfl⟩

/-! ### Statements -/

/-- Lists of statements. -/
def statements : Language Terminal := writtenAs statementsTerminals fun _ => True

/-- A condition in parentheses. -/
def condition : Language Terminal := symbol '(' * (expressions * symbol ')')

/-- Statements in braces. -/
def block : Language Terminal := symbol '{' * (statements * symbol '}')

/-- An alternative. -/
def alternative : Language Terminal := led (fun _ : Unit => .keyword .kwElse) fun _ => block

/-- A statement behind its first word. -/
def statementRest : StatementWord → Language Terminal
  | .letWord =>
    identifiers * ((bracketed + 1) * (symbol '=' * (expressions * symbol ';')))
  | .ifWord => condition * (block * (alternative + 1))
  | .whileWord => condition * block
  | .doWord => calls * symbol ';'
  | .returnWord => (1 + expressions) * symbol ';'

theorem mem_condition {ws : List Terminal} : ws ∈ condition ↔
    ∃ e : Expr, .symbol '(' :: (e.terminals ++ [.symbol ')']) = ws := by
  rw [condition, mem_symbol_mul]
  constructor
  · rintro ⟨_, h, rfl⟩
    obtain ⟨_, ⟨e, -, rfl⟩, _, hclose, rfl⟩ := mem_mul.1 h
    obtain ⟨-, rfl⟩ := mem_oneOf.1 hclose
    exact ⟨e, rfl⟩
  · rintro ⟨e, rfl⟩
    exact ⟨_, append_mem_mul ⟨e, trivial, rfl⟩ mem_symbol, rfl⟩

theorem mem_block {ws : List Terminal} : ws ∈ block ↔
    ∃ ss : List Statement, .symbol '{' :: (statementsTerminals ss ++ [.symbol '}']) = ws := by
  rw [block, mem_symbol_mul]
  constructor
  · rintro ⟨_, h, rfl⟩
    obtain ⟨_, ⟨ss, -, rfl⟩, _, hclose, rfl⟩ := mem_mul.1 h
    obtain ⟨-, rfl⟩ := mem_oneOf.1 hclose
    exact ⟨ss, rfl⟩
  · rintro ⟨ss, rfl⟩
    exact ⟨_, append_mem_mul ⟨ss, trivial, rfl⟩ mem_symbol, rfl⟩

/-- A statement is written with its word in front. -/
theorem writtenAs_statement : writtenAs Statement.terminals (fun _ => True) =
    led (fun w : StatementWord => .keyword w.keyword) statementRest := by
  ext ws
  constructor
  · rintro ⟨s, -, rfl⟩
    cases s with
    | assign target index value span =>
      have hvalue : .symbol '=' :: (value.terminals ++ [.symbol ';']) ∈
          symbol '=' * (expressions * symbol ';') :=
        cons_mem_symbol_mul '=' (append_mem_mul ⟨value, trivial, rfl⟩ mem_symbol)
      have hindex : indexTerminals index ∈ bracketed + 1 := by
        cases index with
        | none => exact .inr rfl
        | some index => exact .inl (mem_bracketed.2 ⟨index, rfl⟩)
      exact ⟨.letWord, _, cons_mem_identifiers_mul target.name (append_mem_mul hindex hvalue), rfl⟩
    | ifThen e body span =>
      have hbody := append_mem_mul (mem_block.2 ⟨body, rfl⟩)
        (show [] ∈ alternative + 1 from .inr rfl)
      refine ⟨.ifWord, _, append_mem_mul (mem_condition.2 ⟨e, rfl⟩) hbody, ?_⟩
      simp [Statement.terminals, StatementWord.keyword]
    | ifElse e thenBody elseBody span =>
      have helse : .keyword .kwElse :: .symbol '{' ::
          (statementsTerminals elseBody ++ [.symbol '}']) ∈ alternative + 1 :=
        .inl ⟨(), _, mem_block.2 ⟨elseBody, rfl⟩, rfl⟩
      refine ⟨.ifWord, _, append_mem_mul (mem_condition.2 ⟨e, rfl⟩)
        (append_mem_mul (mem_block.2 ⟨thenBody, rfl⟩) helse), ?_⟩
      simp [Statement.terminals, StatementWord.keyword]
    | whileLoop e body span =>
      refine ⟨.whileWord, _,
        append_mem_mul (mem_condition.2 ⟨e, rfl⟩) (mem_block.2 ⟨body, rfl⟩), ?_⟩
      simp [Statement.terminals, StatementWord.keyword]
    | doCall call span =>
      exact ⟨.doWord, _, append_mem_mul ⟨call, trivial, rfl⟩ mem_symbol, rfl⟩
    | ret value span =>
      have hvalue : valueTerminals value ∈ 1 + expressions := by
        cases value with
        | none => exact .inl rfl
        | some value => exact .inr ⟨value, trivial, rfl⟩
      exact ⟨.returnWord, _, append_mem_mul hvalue mem_symbol, rfl⟩
  · rintro ⟨w, ws', hws', rfl⟩
    cases w with
    | letWord =>
      obtain ⟨name, _, h, rfl⟩ := mem_identifiers_mul.1 hws'
      obtain ⟨us, hindex, _, hassign, rfl⟩ := mem_mul.1 h
      obtain ⟨_, hvalue, rfl⟩ := mem_symbol_mul.1 hassign
      obtain ⟨_, ⟨value, -, rfl⟩, _, hend, rfl⟩ := mem_mul.1 hvalue
      obtain ⟨-, rfl⟩ := mem_oneOf.1 hend
      have hindex : ∃ index, indexTerminals index = us := by
        rcases hindex with hindex | rfl
        · obtain ⟨index, rfl⟩ := mem_bracketed.1 hindex
          exact ⟨some index, rfl⟩
        · exact ⟨none, rfl⟩
      obtain ⟨index, rfl⟩ := hindex
      exact ⟨.assign ⟨name, .empty 0, .subroutine⟩ index value (.empty 0), trivial, rfl⟩
    | ifWord =>
      obtain ⟨_, hcondition, _, h, rfl⟩ := mem_mul.1 hws'
      obtain ⟨_, hthen, us, helse, rfl⟩ := mem_mul.1 h
      obtain ⟨e, rfl⟩ := mem_condition.1 hcondition
      obtain ⟨thenBody, rfl⟩ := mem_block.1 hthen
      rcases helse with ⟨_, _, hbody, rfl⟩ | rfl
      · obtain ⟨elseBody, rfl⟩ := mem_block.1 hbody
        refine ⟨.ifElse e thenBody elseBody (.empty 0), trivial, ?_⟩
        simp [Statement.terminals, StatementWord.keyword]
      · refine ⟨.ifThen e thenBody (.empty 0), trivial, ?_⟩
        simp [Statement.terminals, StatementWord.keyword]
    | whileWord =>
      obtain ⟨_, hcondition, _, hbody, rfl⟩ := mem_mul.1 hws'
      obtain ⟨e, rfl⟩ := mem_condition.1 hcondition
      obtain ⟨body, rfl⟩ := mem_block.1 hbody
      refine ⟨.whileLoop e body (.empty 0), trivial, ?_⟩
      simp [Statement.terminals, StatementWord.keyword]
    | doWord =>
      obtain ⟨_, ⟨call, -, rfl⟩, _, hend, rfl⟩ := mem_mul.1 hws'
      obtain ⟨-, rfl⟩ := mem_oneOf.1 hend
      exact ⟨.doCall call (.empty 0), trivial, rfl⟩
    | returnWord =>
      obtain ⟨us, hvalue, _, hend, rfl⟩ := mem_mul.1 hws'
      obtain ⟨-, rfl⟩ := mem_oneOf.1 hend
      have hvalue : ∃ value, valueTerminals value = us := by
        rcases hvalue with rfl | ⟨value, -, rfl⟩
        · exact ⟨none, rfl⟩
        · exact ⟨some value, rfl⟩
      obtain ⟨value, rfl⟩ := hvalue
      exact ⟨.ret value (.empty 0), trivial, rfl⟩

/-- Statements follow each other, and the first word of one says which it is. -/
theorem statements_eq :
    statements = (led (fun w : StatementWord => .keyword w.keyword) statementRest)∗ := by
  rw [← writtenAs_statement, ← writtenAs_flatMap]
  ext ws
  simp [statements, mem_writtenAs, statementsTerminals_eq_flatMap]

/-! ### Declarations -/

/-- Types. -/
def types : Language Terminal := oneOf TypeName.terminal

/-- What a subroutine can return. -/
def returnTypes : Language Terminal := led (fun _ : Unit => .keyword .kwVoid) (fun _ => 1) + types

/-- A declaration of variables behind its first word: a type, and names with commas between them. -/
def declared : Language Terminal := types * (separated identifiers * symbol ';')

/-- A declaration of variables of the class. -/
def classVarDec : Language Terminal :=
  led (fun kind : ClassVarKind => .keyword kind.keyword) fun _ => declared

/-- A declaration of local variables. -/
def varDec : Language Terminal := led (fun _ : Unit => .keyword .kwVar) fun _ => declared

/-- A parameter. -/
def parameter : Language Terminal := types * identifiers

/-- The body of a subroutine. -/
def subroutineBody : Language Terminal := symbol '{' * (varDec∗ * (statements * symbol '}'))

/-- A subroutine behind its first word. -/
def subroutineRest : Language Terminal :=
  returnTypes * (identifiers * (symbol '(' * ((1 + separated parameter) * (symbol ')' *
    subroutineBody))))

/-- A subroutine. -/
def subroutineDec : Language Terminal :=
  led (fun kind : SubroutineKind => .keyword kind.keyword) fun _ => subroutineRest

/-- A class. -/
def classDec : Language Terminal :=
  keyword .kwClass * (identifiers * (symbol '{' *
    (classVarDec∗ * (subroutineDec∗ * symbol '}'))))

theorem mem_returnTypes {ws : List Terminal} :
    ws ∈ returnTypes ↔ ∃ type : ReturnType, [type.terminal] = ws := by
  constructor
  · rintro (⟨_, _, rfl, rfl⟩ | h)
    · exact ⟨.void, rfl⟩
    · obtain ⟨type, rfl⟩ := mem_oneOf.1 h
      exact ⟨.value type, rfl⟩
  · rintro ⟨_ | type, rfl⟩
    · exact .inl ⟨(), [], rfl, rfl⟩
    · exact .inr (mem_oneOf.2 ⟨type, rfl⟩)

theorem mem_declared {ws : List Terminal} : ws ∈ declared ↔ ∃ (type : TypeName) (names : List Ident),
    names ≠ [] ∧ type.terminal :: (namesTerminals names ++ [.symbol ';']) = ws := by
  have hname : writtenAs (fun name : Ident => [.identifier name.text]) (fun _ => True) =
      identifiers := by
    ext ws
    simp only [identifiers, mem_writtenAs, mem_oneOf, true_and]
    exact ⟨fun ⟨name, h⟩ => ⟨name.text, h⟩, fun ⟨text, h⟩ => ⟨⟨text, .empty 0⟩, h⟩⟩
  rw [declared, types, oneOf_mul, ← hname, ← writtenAs_withCommas]
  constructor
  · rintro ⟨type, _, h, rfl⟩
    obtain ⟨_, ⟨names, ⟨hne, -⟩, rfl⟩, _, hend, rfl⟩ := mem_mul.1 h
    obtain ⟨-, rfl⟩ := mem_oneOf.1 hend
    exact ⟨type, names, hne, rfl⟩
  · rintro ⟨type, names, hne, rfl⟩
    exact ⟨type, _, append_mem_mul ⟨names, ⟨hne, fun _ _ => trivial⟩, rfl⟩ mem_symbol, rfl⟩

theorem writtenAs_classVarDec :
    writtenAs ClassVarDec.terminals (·.names ≠ []) = classVarDec := by
  ext ws
  constructor
  · rintro ⟨⟨kind, type, names, span⟩, hne, rfl⟩
    exact ⟨kind, _, mem_declared.2 ⟨type, names, hne, rfl⟩, rfl⟩
  · rintro ⟨kind, _, h, rfl⟩
    obtain ⟨type, names, hne, rfl⟩ := mem_declared.1 h
    exact ⟨⟨kind, type, names, .empty 0⟩, hne, rfl⟩

theorem writtenAs_varDec : writtenAs VarDec.terminals (·.names ≠ []) = varDec := by
  ext ws
  constructor
  · rintro ⟨⟨type, names, span⟩, hne, rfl⟩
    exact ⟨(), _, mem_declared.2 ⟨type, names, hne, rfl⟩, rfl⟩
  · rintro ⟨_, _, h, rfl⟩
    obtain ⟨type, names, hne, rfl⟩ := mem_declared.1 h
    exact ⟨⟨type, names, .empty 0⟩, hne, rfl⟩

theorem writtenAs_parameter : writtenAs Parameter.terminals (fun _ => True) = parameter := by
  ext ws
  rw [parameter, types, oneOf_mul]
  constructor
  · rintro ⟨⟨type, name⟩, -, rfl⟩
    exact ⟨type, _, mem_oneOf.2 ⟨name.text, rfl⟩, rfl⟩
  · rintro ⟨type, _, h, rfl⟩
    obtain ⟨name, rfl⟩ := mem_oneOf.1 h
    exact ⟨⟨type, ⟨name, .empty 0⟩⟩, trivial, rfl⟩

theorem mem_subroutineBody {ws : List Terminal} : ws ∈ subroutineBody ↔
    ∃ (ds : List VarDec) (ss : List Statement), (∀ d ∈ ds, d.names ≠ []) ∧
      .symbol '{' :: (ds.flatMap VarDec.terminals ++ (statementsTerminals ss ++ [.symbol '}'])) =
        ws := by
  rw [subroutineBody, mem_symbol_mul, ← writtenAs_varDec, ← writtenAs_flatMap]
  constructor
  · rintro ⟨_, h, rfl⟩
    obtain ⟨_, ⟨ds, hds, rfl⟩, _, hrest, rfl⟩ := mem_mul.1 h
    obtain ⟨_, ⟨ss, -, rfl⟩, _, hend, rfl⟩ := mem_mul.1 hrest
    obtain ⟨-, rfl⟩ := mem_oneOf.1 hend
    exact ⟨ds, ss, hds, rfl⟩
  · rintro ⟨ds, ss, hds, rfl⟩
    have hstatements : statementsTerminals ss ++ [.symbol '}'] ∈ statements * symbol '}' :=
      append_mem_mul ⟨ss, trivial, rfl⟩ mem_symbol
    exact ⟨_, append_mem_mul ⟨ds, hds, rfl⟩ hstatements, rfl⟩

/-- A subroutine is a head with parameters, and a body of declarations and statements. -/
theorem writtenAs_subroutineDec :
    writtenAs SubroutineDec.terminals SubroutineDec.IsGrammatical = subroutineDec := by
  ext ws
  rw [subroutineDec, subroutineRest, ← writtenAs_parameter]
  constructor
  · rintro ⟨⟨kind, type, name, ps, ds, ss, span⟩, h, rfl⟩
    have hbody := mem_subroutineBody.2 ⟨ds, ss, h, rfl⟩
    refine ⟨kind, _, append_mem_mul (mem_returnTypes.2 ⟨type, rfl⟩) ?_, rfl⟩
    refine cons_mem_identifiers_mul name.text (cons_mem_symbol_mul '(' ?_)
    exact append_mem_mul (mem_one_add_separated.2 ⟨ps, rfl⟩) (cons_mem_symbol_mul ')' hbody)
  · rintro ⟨kind, _, h, rfl⟩
    obtain ⟨_, htype, _, hname, rfl⟩ := mem_mul.1 h
    obtain ⟨type, rfl⟩ := mem_returnTypes.1 htype
    obtain ⟨name, _, hopen, rfl⟩ := mem_identifiers_mul.1 hname
    obtain ⟨_, hparameters, rfl⟩ := mem_symbol_mul.1 hopen
    obtain ⟨_, hps, _, hclose, rfl⟩ := mem_mul.1 hparameters
    obtain ⟨ps, rfl⟩ := mem_one_add_separated.1 hps
    obtain ⟨_, hbody, rfl⟩ := mem_symbol_mul.1 hclose
    obtain ⟨ds, ss, hds, rfl⟩ := mem_subroutineBody.1 hbody
    exact ⟨⟨kind, type, ⟨name, .empty 0⟩, ps, ds, ss, .empty 0⟩, hds, rfl⟩

/-- A class is a head with a name, and a body of declarations and subroutines. -/
theorem writtenAs_classDec : writtenAs ClassDec.terminals ClassDec.IsGrammatical = classDec := by
  ext ws
  rw [classDec, ← writtenAs_classVarDec, ← writtenAs_subroutineDec, ← writtenAs_flatMap,
    ← writtenAs_flatMap]
  constructor
  · rintro ⟨⟨name, ds, subs, span⟩, ⟨hds, hsubs⟩, rfl⟩
    refine mem_keyword_mul.2 ⟨_, cons_mem_identifiers_mul name.text ?_, rfl⟩
    refine cons_mem_symbol_mul '{' (append_mem_mul ⟨ds, hds, rfl⟩ ?_)
    exact append_mem_mul ⟨subs, hsubs, rfl⟩ mem_symbol
  · intro h
    obtain ⟨_, hname, rfl⟩ := mem_keyword_mul.1 h
    obtain ⟨name, _, hopen, rfl⟩ := mem_identifiers_mul.1 hname
    obtain ⟨_, hbody, rfl⟩ := mem_symbol_mul.1 hopen
    obtain ⟨_, ⟨ds, hds, rfl⟩, _, hrest, rfl⟩ := mem_mul.1 hbody
    obtain ⟨_, ⟨subs, hsubs, rfl⟩, _, hend, rfl⟩ := mem_mul.1 hrest
    obtain ⟨-, rfl⟩ := mem_oneOf.1 hend
    exact ⟨⟨⟨name, .empty 0⟩, ds, subs, .empty 0⟩, ⟨hds, hsubs⟩, rfl⟩

end Grammar

end Jack

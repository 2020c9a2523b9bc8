import Jack.Parser.Declaration
import Mathlib.Data.List.Forall2

/-!
# The terminals of a tree

The grammar sees less of a token than its text: only the first character of a symbol, and only the
value of an integer constant.  What it sees is a `Terminal`, and `Token.Spells` says of a token that
it is written for a terminal.

`ClassDec.terminals` writes a tree out by the grammar: the terminals of its class, its declarations,
its statements and its flat expressions, with their reserved words and their punctuation.
`ClassDec.nesting` is the depth of the tree, where each list of statements, each expression and each
operand of an operator in front of a term is one level.
-/

namespace Jack

/-! ### Terminals -/

/-- What the grammar sees of a token. -/
inductive Terminal where
  | keyword (k : Keyword)
  | identifier (name : String)
  | symbol (c : Char)
  | integer (value : Nat)
  | string (content : String)
deriving DecidableEq, Repr

/-- The token is written for the terminal.  The kinds are the same and so are the texts; of a symbol
only the first character counts, and of an integer constant only the 16-bit value. -/
def Token.Spells (t : Token) : Terminal → Prop
  | .keyword k => t.kind = .keyword ∧ t.text = k.text
  | .identifier name => t.kind = .identifier ∧ t.text = name
  | .symbol c => t.kind = .symbol ∧ t.text.toList.head? = some c
  | .integer value => t.kind = .integerConstant ∧ integerConstant? t.text = some value
  | .string content => t.kind = .stringConstant ∧ t.text = content

namespace Terminal

/-- The reserved word of a terminal. -/
def keyword? : Terminal → Option Keyword
  | keyword k => some k
  | _ => none

/-- The symbol of a terminal. -/
def symbol? : Terminal → Option Char
  | symbol c => some c
  | _ => none

/-- The name of a terminal. -/
def identifier? : Terminal → Option String
  | identifier name => some name
  | _ => none

/-- The token with the text that a terminal is usually written with. -/
def token (span : Span) : Terminal → Token
  | keyword k => ⟨.keyword, k.text, span⟩
  | identifier name => ⟨.identifier, name, span⟩
  | symbol c => ⟨.symbol, String.ofList [c], span⟩
  | integer value => ⟨.integerConstant, String.ofList (Nat.toDigits 10 value), span⟩
  | string content => ⟨.stringConstant, content, span⟩

/-- The value of an integer constant fits in 16 bits. -/
def fits : Terminal → Bool
  | integer value => value ≤ 65535
  | _ => true

end Terminal

namespace Token

variable {t : Token} {w : Terminal}

theorem Spells.keyword?_eq (h : t.Spells w) : t.keyword? = w.keyword? := by
  cases w <;> simp [Spells] at h <;> simp [keyword?, Terminal.keyword?, h]

theorem Spells.symbol?_eq (h : t.Spells w) : t.symbol? = w.symbol? := by
  cases w <;> simp [Spells] at h <;> simp [symbol?, Terminal.symbol?, h]

theorem Spells.identifier?_eq (h : t.Spells w) : t.identifier? = w.identifier? := by
  cases w <;> simp [Spells] at h <;> simp [identifier?, Terminal.identifier?, h]

theorem spells_keyword_iff {k : Keyword} : t.Spells (.keyword k) ↔ t.keyword? = some k := by
  refine ⟨fun h => h.keyword?_eq, fun h => ?_⟩
  rw [keyword?] at h
  split at h
  · next hkind => exact ⟨hkind, Keyword.eq_text_of_ofText? h⟩
  · cases h

theorem spells_symbol_iff {c : Char} : t.Spells (.symbol c) ↔ t.symbol? = some c := by
  refine ⟨fun h => h.symbol?_eq, fun h => ?_⟩
  rw [symbol?] at h
  split at h
  · next hkind => exact ⟨hkind, h⟩
  · cases h

theorem spells_identifier_iff {name : String} :
    t.Spells (.identifier name) ↔ t.identifier? = some name := by
  refine ⟨fun h => h.identifier?_eq, fun h => ?_⟩
  rw [identifier?] at h
  split at h
  · next hkind => exact ⟨hkind, Option.some.inj h⟩
  · cases h

end Token

/-- Digits are read as their value, if it fits in 16 bits. -/
theorem integerConstant?_ofList {digits : List Char} (hne : digits ≠ [])
    (hrun : ∀ c ∈ digits, c.isDigit = true) :
    integerConstant? (String.ofList digits) =
      if decimalValue digits ≤ 65535 then some (decimalValue digits) else none := by
  have hplus (cs : List Char) : digits ≠ '+' :: cs := fun heq => by
    have := hrun '+' (heq ▸ List.mem_cons_self)
    simp at this
  rw [integerConstant?, String.toList_ofList]
  split
  · next cs => exact absurd rfl (hplus cs)
  · simp [hne, List.all_eq_true.2 hrun, decimalUpTo?_eq]

theorem integerConstant?_toDigits {n : Nat} (h : n ≤ 65535) :
    integerConstant? (String.ofList (Nat.toDigits 10 n)) = some n := by
  rw [integerConstant?_ofList Nat.toDigits_ne_nil fun c hc =>
    Nat.isDigit_of_mem_toDigits (by decide) (by decide) hc, decimalValue_toDigits, if_pos h]

/-- The token with the usual text is written for the terminal. -/
theorem Terminal.spells_token {w : Terminal} (h : w.fits = true) (span : Span) :
    (w.token span).Spells w := by
  cases w with
  | keyword k => exact ⟨rfl, rfl⟩
  | identifier name => exact ⟨rfl, rfl⟩
  | symbol c => exact ⟨rfl, by simp [token]⟩
  | string content => exact ⟨rfl, rfl⟩
  | integer n => exact ⟨rfl, integerConstant?_toDigits (by simpa [fits] using h)⟩

/-- Tokens with the usual texts are written for the terminals, wherever they stand. -/
theorem forall₂_spells_mapIdx {ws : List Terminal} (h : ∀ w ∈ ws, w.fits = true)
    (spans : Nat → Span) :
    List.Forall₂ Token.Spells (ws.mapIdx fun i w => w.token (spans i)) ws := by
  induction ws generalizing spans with
  | nil => exact .nil
  | cons w ws ih =>
    rw [List.mapIdx_cons]
    rw [List.forall_mem_cons] at h
    exact .cons (w.spells_token h.1 (spans 0)) (ih h.2 fun i => spans (i + 1))

/-! ### Writing a tree out -/

/-- Pieces with commas between them. -/
def withCommas : List (List Terminal) → List Terminal
  | [] => []
  | piece :: pieces => piece ++ pieces.flatMap (.symbol ',' :: ·)

@[simp] theorem withCommas_singleton (piece : List Terminal) : withCommas [piece] = piece := by
  simp [withCommas]

theorem withCommas_append_singleton {pieces : List (List Terminal)} (h : pieces ≠ [])
    (piece : List Terminal) :
    withCommas (pieces ++ [piece]) = withCommas pieces ++ .symbol ',' :: piece := by
  cases pieces with
  | nil => exact absurd rfl h
  | cons first pieces => simp [withCommas]

/-- The terminals in front of the parentheses of a call. -/
def calleeTerminals : Option NameUse → Ident → List Terminal
  | none, name => [.identifier name.text]
  | some receiver, name => [.identifier receiver.name, .symbol '.', .identifier name.text]

mutual

/-- The terminals of an expression. -/
def Expr.terminals : Expr → List Terminal
  | ⟨head, tail, _⟩ => head.terminals ++ tailTerminals tail

/-- The terminals of operators and their right-hand terms. -/
def tailTerminals : List (BinaryOp × Term) → List Terminal
  | [] => []
  | (op, t) :: tail => .symbol op.symbol :: (t.terminals ++ tailTerminals tail)

/-- The terminals of a term. -/
def Term.terminals : Term → List Terminal
  | .integer value _ => [.integer value]
  | .string value _ => [.string value]
  | .keyword value _ => [.keyword value.keyword]
  | .var name => [.identifier name.name]
  | .element array index =>
    .identifier array.name :: .symbol '[' :: (index.terminals ++ [.symbol ']'])
  | .call call => call.terminals
  | .group inner _ => .symbol '(' :: (inner.terminals ++ [.symbol ')'])
  | .unary op operand _ => .symbol op.symbol :: operand.terminals

/-- The terminals of a call. -/
def Call.terminals : Call → List Terminal
  | ⟨receiver, name, arguments, _⟩ =>
    calleeTerminals receiver name ++ .symbol '(' ::
      (withCommas (argumentsTerminals arguments) ++ [.symbol ')'])

/-- The terminals of each argument. -/
def argumentsTerminals : List Expr → List (List Terminal)
  | [] => []
  | e :: es => e.terminals :: argumentsTerminals es

end

theorem tailTerminals_eq_flatMap (tail : List (BinaryOp × Term)) :
    tailTerminals tail = tail.flatMap fun p => .symbol p.1.symbol :: p.2.terminals := by
  induction tail with
  | nil => rfl
  | cons p tail ih => rw [tailTerminals, ih, List.flatMap_cons, List.cons_append]

theorem argumentsTerminals_eq_map (es : List Expr) :
    argumentsTerminals es = es.map Expr.terminals := by
  induction es with
  | nil => rfl
  | cons e es ih => rw [argumentsTerminals, ih, List.map_cons]

/-- The terminals of the index of an assignment, if there is one. -/
def indexTerminals : Option Expr → List Terminal
  | none => []
  | some index => .symbol '[' :: (index.terminals ++ [.symbol ']'])

/-- The terminals of the value of a return, if there is one. -/
def valueTerminals : Option Expr → List Terminal
  | none => []
  | some value => value.terminals

mutual

/-- The terminals of a statement. -/
def Statement.terminals : Statement → List Terminal
  | .assign target index value _ =>
    .keyword .kwLet :: .identifier target.name ::
      (indexTerminals index ++ .symbol '=' :: (value.terminals ++ [.symbol ';']))
  | .ifThen condition body _ =>
    .keyword .kwIf :: .symbol '(' :: (condition.terminals ++ .symbol ')' :: .symbol '{' ::
      (statementsTerminals body ++ [.symbol '}']))
  | .ifElse condition thenBody elseBody _ =>
    .keyword .kwIf :: .symbol '(' :: (condition.terminals ++ .symbol ')' :: .symbol '{' ::
      (statementsTerminals thenBody ++ .symbol '}' :: .keyword .kwElse :: .symbol '{' ::
        (statementsTerminals elseBody ++ [.symbol '}'])))
  | .whileLoop condition body _ =>
    .keyword .kwWhile :: .symbol '(' :: (condition.terminals ++ .symbol ')' :: .symbol '{' ::
      (statementsTerminals body ++ [.symbol '}']))
  | .doCall call _ => .keyword .kwDo :: (call.terminals ++ [.symbol ';'])
  | .ret value _ => .keyword .kwReturn :: (valueTerminals value ++ [.symbol ';'])

/-- The terminals of statements. -/
def statementsTerminals : List Statement → List Terminal
  | [] => []
  | s :: ss => s.terminals ++ statementsTerminals ss

end

theorem statementsTerminals_eq_flatMap (ss : List Statement) :
    statementsTerminals ss = ss.flatMap Statement.terminals := by
  induction ss with
  | nil => rfl
  | cons s ss ih => rw [statementsTerminals, ih, List.flatMap_cons]

/-- The terminal of a type. -/
def TypeName.terminal : TypeName → Terminal
  | int => .keyword .kwInt
  | char => .keyword .kwChar
  | boolean => .keyword .kwBoolean
  | object className => .identifier className

/-- The terminal of what a subroutine returns. -/
def ReturnType.terminal : ReturnType → Terminal
  | void => .keyword .kwVoid
  | value type => type.terminal

/-- The terminals of the names of a declaration. -/
def namesTerminals (names : List Ident) : List Terminal :=
  withCommas (names.map fun name => [.identifier name.text])

/-- The word that starts a declaration of variables of the class. -/
def ClassVarKind.keyword : ClassVarKind → Keyword
  | static => .kwStatic
  | field => .kwField

/-- The terminals of a declaration of variables of the class. -/
def ClassVarDec.terminals (d : ClassVarDec) : List Terminal :=
  .keyword d.kind.keyword :: d.type.terminal :: (namesTerminals d.names ++ [.symbol ';'])

/-- The terminals of a declaration of local variables. -/
def VarDec.terminals (d : VarDec) : List Terminal :=
  .keyword .kwVar :: d.type.terminal :: (namesTerminals d.names ++ [.symbol ';'])

/-- The terminals of a parameter. -/
def Parameter.terminals (p : Parameter) : List Terminal :=
  [p.type.terminal, .identifier p.name.text]

/-- The terminals of a subroutine. -/
def SubroutineDec.terminals (s : SubroutineDec) : List Terminal :=
  .keyword s.kind.keyword :: s.returnType.terminal :: .identifier s.name.text :: .symbol '(' ::
    (withCommas (s.parameters.map Parameter.terminals) ++ .symbol ')' :: .symbol '{' ::
      (s.varDecs.flatMap VarDec.terminals ++
        (statementsTerminals s.statements ++ [.symbol '}'])))

/-- The terminals of a class. -/
def ClassDec.terminals (c : ClassDec) : List Terminal :=
  .keyword .kwClass :: .identifier c.name.text :: .symbol '{' ::
    (c.varDecs.flatMap ClassVarDec.terminals ++
      (c.subroutines.flatMap SubroutineDec.terminals ++ [.symbol '}']))

/-! ### Trees of the grammar -/

/-- Every declaration of local variables has a name. -/
def SubroutineDec.IsGrammatical (s : SubroutineDec) : Prop := ∀ d ∈ s.varDecs, d.names ≠ []

/-- Every declaration of variables has a name.  This is all that a tree needs to be one of the
grammar. -/
structure ClassDec.IsGrammatical (c : ClassDec) : Prop where
  /-- Each declaration of variables of the class has a name. -/
  classVarNames_ne_nil : ∀ d ∈ c.varDecs, d.names ≠ []
  /-- Each declaration of local variables has a name. -/
  varNames_ne_nil : ∀ s ∈ c.subroutines, s.IsGrammatical

/-! ### The depth of a tree -/

mutual

/-- The number of levels of an expression. -/
def Expr.nesting : Expr → Nat
  | ⟨head, tail, _⟩ => max head.nesting (tailNesting tail) + 1

/-- The number of levels in the right-hand terms of operators. -/
def tailNesting : List (BinaryOp × Term) → Nat
  | [] => 0
  | (_, t) :: tail => max t.nesting (tailNesting tail)

/-- The number of levels in a term. -/
def Term.nesting : Term → Nat
  | .integer _ _ | .string _ _ | .keyword _ _ | .var _ => 0
  | .element _ index => index.nesting
  | .call call => call.nesting
  | .group inner _ => inner.nesting
  | .unary _ operand _ => operand.nesting + 1

/-- The number of levels in a call. -/
def Call.nesting : Call → Nat
  | ⟨_, _, arguments, _⟩ => argumentsNesting arguments

/-- The number of levels in arguments. -/
def argumentsNesting : List Expr → Nat
  | [] => 0
  | e :: es => max e.nesting (argumentsNesting es)

end

/-- The number of levels in an expression, if there is one. -/
def optionNesting : Option Expr → Nat
  | none => 0
  | some e => e.nesting

mutual

/-- The number of levels in a statement. -/
def Statement.nesting : Statement → Nat
  | .assign _ index value _ => max (optionNesting index) value.nesting
  | .ifThen condition body _ | .whileLoop condition body _ =>
    max condition.nesting (statementsNesting body + 1)
  | .ifElse condition thenBody elseBody _ =>
    max condition.nesting (max (statementsNesting thenBody + 1) (statementsNesting elseBody + 1))
  | .doCall call _ => call.nesting
  | .ret value _ => optionNesting value

/-- The number of levels below a list of statements. -/
def statementsNesting : List Statement → Nat
  | [] => 0
  | s :: ss => max s.nesting (statementsNesting ss)

end

/-- The number of levels of a subroutine. -/
def SubroutineDec.nesting (s : SubroutineDec) : Nat := statementsNesting s.statements + 1

/-- The number of levels of a class. -/
def ClassDec.nesting (c : ClassDec) : Nat :=
  c.subroutines.foldr (fun s n => max s.nesting n) 0

section Bounds

variable {n : Nat}

theorem tailNesting_le_iff {tail : List (BinaryOp × Term)} :
    tailNesting tail ≤ n ↔ ∀ p ∈ tail, p.2.nesting ≤ n := by
  induction tail with
  | nil => simp [tailNesting]
  | cons p tail ih => rw [tailNesting, Nat.max_le, ih, List.forall_mem_cons]

theorem argumentsNesting_le_iff {es : List Expr} :
    argumentsNesting es ≤ n ↔ ∀ e ∈ es, e.nesting ≤ n := by
  induction es with
  | nil => simp [argumentsNesting]
  | cons e es ih => rw [argumentsNesting, Nat.max_le, ih, List.forall_mem_cons]

theorem statementsNesting_le_iff {ss : List Statement} :
    statementsNesting ss ≤ n ↔ ∀ s ∈ ss, s.nesting ≤ n := by
  induction ss with
  | nil => simp [statementsNesting]
  | cons s ss ih => rw [statementsNesting, Nat.max_le, ih, List.forall_mem_cons]

theorem ClassDec.nesting_le_iff {c : ClassDec} :
    c.nesting ≤ n ↔ ∀ s ∈ c.subroutines, s.nesting ≤ n := by
  rw [nesting]
  induction c.subroutines with
  | nil => simp
  | cons s ss ih => rw [List.foldr_cons, Nat.max_le, ih, List.forall_mem_cons]

end Bounds

/-! ### A class with a hidden field -/

namespace Gauge

/-- A name without its meaning. -/
def use (name : String) : NameUse := ⟨name, .empty 0, .subroutine⟩

/-- The expression of one term and at most one operator. -/
def expr (head : Term) (tail : List (BinaryOp × Term)) : Expr := ⟨head, tail, .empty 0⟩

/-- The class
`class Gauge { static int count; field int level, limit;
method int add(int step) { var int level; let level = step; if (~(level > limit)) { do draw(); }
else { do Output.printInt(count); } return level + step; } }`. -/
def tree : ClassDec where
  name := ⟨"Gauge", .empty 0⟩
  varDecs := [⟨.static, .int, [⟨"count", .empty 0⟩], .empty 0⟩,
    ⟨.field, .int, [⟨"level", .empty 0⟩, ⟨"limit", .empty 0⟩], .empty 0⟩]
  subroutines := [{
    kind := .method
    returnType := .value .int
    name := ⟨"add", .empty 0⟩
    parameters := [⟨.int, ⟨"step", .empty 0⟩⟩]
    varDecs := [⟨.int, [⟨"level", .empty 0⟩], .empty 0⟩]
    statements := [
      .assign (use "level") none (expr (.var (use "step")) []) (.empty 0),
      .ifElse
        (expr (.unary .not (.group (expr (.var (use "level")) [(.gt, .var (use "limit"))])
          (.empty 0)) (.empty 0)) [])
        [.doCall ⟨none, ⟨"draw", .empty 0⟩, [], .empty 0⟩ (.empty 0)]
        [.doCall ⟨some (use "Output"), ⟨"printInt", .empty 0⟩,
          [expr (.var (use "count")) []], .empty 0⟩ (.empty 0)]
        (.empty 0),
      .ret (some (expr (.var (use "level")) [(.add, .var (use "step"))])) (.empty 0)]
    span := .empty 0 }]
  span := .empty 0

/-- The tokens of the class. -/
def tokens : List Token := tree.terminals.mapIdx fun i w => w.token (.between i (i + 1))

theorem exists_parse_tokens : ∃ parsed, parse tokens = .ok parsed :=
  exists_eq_ok (by decide +kernel)

end Gauge

end Jack

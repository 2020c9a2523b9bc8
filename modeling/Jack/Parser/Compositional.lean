import Jack.Parser.Declaration

/-!
# Properties that productions inherit from their parts

Each production is put together from parsers of single tokens by sequence and repetition, and only
`Parser.termWith` looks at the tokens itself.  A property of parsers that single tokens have and
that sequences and repetitions keep (`Parser.Compositional`) therefore holds of every production, if
it passes from the parts of a term to the term.
-/

namespace Jack

/-- An integer constant is expected. -/
def Expectation.isInteger : Expectation → Bool
  | integerConstant => true
  | keyword _ | symbol _ | identifier | type | term | classMember | statement | shallowerNesting
  | endOfInput | described _ => false

namespace Parser

/-- The property holds of the parsers that productions are made of, and sequences and repetitions
keep it. -/
structure Compositional (P : (α : Type) → Parser α → Prop) : Prop where
  /-- A parser that only answers has it. -/
  pure {α : Type} (a : α) : P α (pure a)
  /-- A parser that only fails has it.  It is never an integer constant that is missing then. -/
  fail {α : Type} (expected : Expectation) (rule : Rule) (h : expected.isInteger = false) :
    P α (fail expected rule)
  /-- The offset of the cursor has it. -/
  offset : P Offset offset
  /-- The span up to the cursor has it. -/
  spanFrom (start : Offset) : P Span (spanFrom start)
  /-- A look at the next token has it. -/
  atSymbol (ch : Char) : P Bool (atSymbol ch)
  /-- A single token has it, other than an integer constant, which only a term can be. -/
  next {α : Type} (select : Token → Option α) (expected : Expectation) (rule : Rule)
    (h : expected.isInteger = false) : P α (next select expected rule)
  /-- A token that may be missing has it. -/
  next? {α : Type} (select : Token → Option α) : P (Option α) (next? select)
  /-- The declaration of a variable has it. -/
  declare (scopes : Scopes) (name : Ident) (type : TypeName) (storage : Storage) :
    P Scopes (declare scopes name type storage)
  /-- Sequences keep it. -/
  bind {α β : Type} {p : Parser α} {f : α → Parser β} (hp : P α p) (hf : ∀ a, P β (f a)) :
    P β (p >>= f)
  /-- Repetitions keep it. -/
  fold {β σ : Type} (lead : Token → Option β) {item : σ → β → Parser σ}
    (hitem : ∀ s b, P σ (item s b)) (s : σ) : P σ (fold lead item s)

namespace Compositional

variable {P : (α : Type) → Parser α → Prop} (hP : Compositional P)

include hP

theorem commaSeparated {σ : Type} {item : σ → Parser σ} (hitem : ∀ s, P σ (item s)) (s : σ) :
    P σ (commaSeparated item s) :=
  hP.bind (hitem s) fun s => hP.fold _ (fun s _ => hitem s) s

/-! ### Expressions -/

theorem arguments {expression : Parser Expr} (he : P Expr expression) :
    P (List Expr) (arguments expression) := by
  unfold Parser.arguments
  refine hP.bind (hP.atSymbol _) fun b => ?_
  split
  · exact hP.pure _
  · exact hP.bind (hP.commaSeparated (fun _ => hP.bind he fun _ => hP.pure _) _)
      fun _ => hP.pure _

section Productions

variable (resolve : String → Meaning)

theorem callee (first : Ident) : P _ (callee resolve first) := by
  refine hP.bind (hP.next? _) fun dot => ?_
  split
  · exact hP.bind (hP.next _ _ _ rfl) fun _ => hP.pure _
  · exact hP.pure _

theorem subroutineCall {expression : Parser Expr} (he : P Expr expression) :
    P Call (subroutineCall resolve expression) :=
  hP.bind hP.offset fun _ => hP.bind (hP.next _ _ _ rfl) fun _ =>
    hP.bind (hP.callee resolve _) fun _ => hP.bind (hP.next _ _ _ rfl) fun _ =>
      hP.bind (hP.arguments he) fun _ => hP.bind (hP.next _ _ _ rfl) fun _ =>
        hP.bind (hP.spanFrom _) fun _ => hP.pure _

theorem symbolTerm {expression : Parser Expr} {operand : Parser Term} (he : P Expr expression)
    (ho : P Term operand) (t : Token) : P Term (symbolTerm expression operand t) := by
  unfold Parser.symbolTerm
  split
  · exact hP.bind (hP.next _ _ _ rfl) fun _ => hP.bind he fun _ =>
      hP.bind (hP.next _ _ _ rfl) fun _ => hP.bind (hP.spanFrom _) fun _ => hP.pure _
  · exact hP.bind (hP.next _ _ _ rfl) fun _ => hP.bind ho fun _ =>
      hP.bind (hP.spanFrom _) fun _ => hP.pure _

theorem nameTerm {expression : Parser Expr} (he : P Expr expression) (after : Option Token) :
    P Term (nameTerm resolve expression after) := by
  unfold Parser.nameTerm
  split
  · exact hP.bind (hP.next _ _ _ rfl) fun _ => hP.bind (hP.next _ _ _ rfl) fun _ =>
      hP.bind he fun _ => hP.bind (hP.next _ _ _ rfl) fun _ => hP.pure _
  · exact hP.bind (hP.subroutineCall resolve he) fun _ => hP.pure _
  · exact hP.bind (hP.subroutineCall resolve he) fun _ => hP.pure _
  · exact hP.bind (hP.next _ _ _ rfl) fun _ => hP.pure _

theorem expressionWith {term : Parser Term} (ht : P Term term) : P Expr (expressionWith term) :=
  hP.bind hP.offset fun _ => hP.bind ht fun _ =>
    hP.bind (hP.fold _ (fun _ _ => hP.bind ht fun _ => hP.pure _) _) fun _ =>
      hP.bind (hP.spanFrom _) fun _ => hP.pure _

/-! ### Parts of statements -/

theorem block (rule : Rule) {statements : Parser (List Statement)}
    (hs : P (List Statement) statements) : P (List Statement) (block rule statements) :=
  hP.bind (hP.next _ _ _ rfl) fun _ => hP.bind hs fun _ => hP.bind (hP.next _ _ _ rfl) fun _ =>
    hP.pure _

theorem condition (rule : Rule) {expression : Parser Expr} (he : P Expr expression) :
    P Expr (condition rule expression) :=
  hP.bind (hP.next _ _ _ rfl) fun _ => hP.bind he fun _ => hP.bind (hP.next _ _ _ rfl) fun _ =>
    hP.pure _

theorem targetIndex {expression : Parser Expr} (he : P Expr expression) :
    P (Option Expr) (targetIndex expression) := by
  refine hP.bind (hP.next? _) fun bracket => ?_
  split
  · exact hP.bind he fun _ => hP.bind (hP.next _ _ _ rfl) fun _ => hP.pure _
  · exact hP.pure _

theorem returnValue {expression : Parser Expr} (he : P Expr expression) :
    P (Option Expr) (returnValue expression) := by
  refine hP.bind (hP.atSymbol _) fun atEnd => ?_
  split
  · exact hP.pure _
  · exact hP.bind he fun _ => hP.pure _

theorem statementWith {expression : Parser Expr} {statements : Parser (List Statement)}
    (he : P Expr expression) (hs : P (List Statement) statements) :
    ∀ lead, P Statement (statementWith resolve expression statements lead)
  | (_, .letWord) =>
    hP.bind (hP.next _ _ _ rfl) fun _ => hP.bind (hP.targetIndex he) fun _ =>
      hP.bind (hP.next _ _ _ rfl) fun _ => hP.bind he fun _ => hP.bind (hP.next _ _ _ rfl) fun _ =>
        hP.bind (hP.spanFrom _) fun _ => hP.pure _
  | (_, .ifWord) => by
    refine hP.bind (hP.condition _ he) fun _ => hP.bind (hP.block _ hs) fun _ =>
      hP.bind (hP.next? _) fun word => ?_
    split
    · exact hP.bind (hP.block _ hs) fun _ => hP.bind (hP.spanFrom _) fun _ => hP.pure _
    · exact hP.bind (hP.spanFrom _) fun _ => hP.pure _
  | (_, .whileWord) =>
    hP.bind (hP.condition _ he) fun _ => hP.bind (hP.block _ hs) fun _ =>
      hP.bind (hP.spanFrom _) fun _ => hP.pure _
  | (_, .doWord) =>
    hP.bind (hP.subroutineCall resolve he) fun _ => hP.bind (hP.next _ _ _ rfl) fun _ =>
      hP.bind (hP.spanFrom _) fun _ => hP.pure _
  | (_, .returnWord) =>
    hP.bind (hP.returnValue he) fun _ => hP.bind (hP.next _ _ _ rfl) fun _ =>
      hP.bind (hP.spanFrom _) fun _ => hP.pure _

theorem statementsWith {expression : Parser Expr} {statements : Parser (List Statement)}
    (he : P Expr expression) (hs : P (List Statement) statements) :
    P (List Statement) (statementsWith resolve expression statements) :=
  hP.bind (hP.fold _ (fun _ lead => hP.bind (hP.statementWith resolve he hs lead) fun _ =>
    hP.pure _) _) fun _ => hP.pure _

/-! ### All levels -/

section Levels

variable (hterm : ∀ resolve {expression : Parser Expr} {operand : Parser Term},
  P Expr expression → P Term operand → P Term (termWith resolve expression operand))

include hterm

theorem term : ∀ levels, P Term (term resolve levels)
  | 0 => hterm resolve (hP.fail _ _ rfl) (hP.fail _ _ rfl)
  | levels + 1 => hterm resolve (hP.expressionWith (term levels)) (term levels)

theorem expression : ∀ levels, P Expr (expression resolve levels)
  | 0 => hP.fail _ _ rfl
  | levels + 1 => hP.expressionWith (hP.term resolve hterm levels)

theorem statements : ∀ levels, P (List Statement) (statements resolve levels)
  | 0 => hP.fail _ _ rfl
  | levels + 1 =>
    hP.statementsWith resolve (hP.expression resolve hterm levels) (statements levels)

end Levels

end Productions

/-! ### Declarations -/

theorem returnType : P ReturnType returnType := by
  refine hP.bind (hP.next? _) fun word => ?_
  split
  · exact hP.pure _
  · exact hP.bind (hP.next _ _ _ rfl) fun _ => hP.pure _

theorem declaredNames (rule : Rule) (type : TypeName) (storage : Storage) (scopes : Scopes) :
    P _ (declaredNames rule type storage scopes) :=
  hP.bind (hP.commaSeparated (fun _ => hP.bind (hP.next _ _ _ rfl) fun _ =>
    hP.bind (hP.declare _ _ _ _) fun _ => hP.pure _) _) fun _ => hP.pure _

theorem classVarDec (scopes : Scopes) (start : Offset) (kind : ClassVarKind) :
    P _ (classVarDec scopes start kind) :=
  hP.bind (hP.next _ _ _ rfl) fun _ => hP.bind (hP.declaredNames _ _ _ _) fun _ =>
    hP.bind (hP.next _ _ _ rfl) fun _ => hP.bind (hP.spanFrom _) fun _ => hP.pure _

theorem classVarDecs : P _ classVarDecs :=
  hP.bind (hP.fold _ (fun _ _ => hP.bind (hP.classVarDec _ _ _) fun _ => hP.pure _) _)
    fun _ => hP.pure _

theorem parameters (scopes : Scopes) : P _ (parameters scopes) := by
  refine hP.bind (hP.atSymbol _) fun atEnd => ?_
  split
  · exact hP.pure _
  · exact hP.bind (hP.commaSeparated (fun _ => hP.bind (hP.next _ _ _ rfl) fun _ =>
      hP.bind (hP.next _ _ _ rfl) fun _ => hP.bind (hP.declare _ _ _ _) fun _ =>
        hP.pure _) _) fun _ => hP.pure _

theorem varDec (scopes : Scopes) (start : Offset) : P _ (varDec scopes start) :=
  hP.bind (hP.next _ _ _ rfl) fun _ => hP.bind (hP.declaredNames _ _ _ _) fun _ =>
    hP.bind (hP.next _ _ _ rfl) fun _ => hP.bind (hP.spanFrom _) fun _ => hP.pure _

theorem varDecs (scopes : Scopes) : P _ (varDecs scopes) :=
  hP.bind (hP.fold _ (fun _ _ => hP.bind (hP.varDec _ _) fun _ => hP.pure _) _)
    fun _ => hP.pure _

theorem subroutineScopes (className : String) (scopes : Scopes) (kind : SubroutineKind)
    (name : Ident) : P Scopes (subroutineScopes className scopes kind name) := by
  unfold Parser.subroutineScopes
  split
  · exact hP.declare _ _ _ _
  · exact hP.pure _
  · exact hP.pure _

/-! ### Subroutines and classes -/

section Classes

variable (hterm : ∀ resolve {expression : Parser Expr} {operand : Parser Term},
  P Expr expression → P Term operand → P Term (termWith resolve expression operand))

include hterm

theorem subroutineDec (className : String) (scopes : Scopes) (start : Offset)
    (kind : SubroutineKind) : P SubroutineDec (subroutineDec className scopes start kind) :=
  hP.bind hP.returnType fun _ => hP.bind (hP.next _ _ _ rfl) fun _ =>
    hP.bind (hP.subroutineScopes _ _ _ _) fun _ => hP.bind (hP.next _ _ _ rfl) fun _ =>
      hP.bind (hP.parameters _) fun _ => hP.bind (hP.next _ _ _ rfl) fun _ =>
        hP.bind (hP.next _ _ _ rfl) fun _ => hP.bind (hP.varDecs _) fun _ =>
          hP.bind (hP.statements _ hterm _) fun _ => hP.bind (hP.next _ _ _ rfl) fun _ =>
            hP.bind (hP.spanFrom _) fun _ => hP.pure _

theorem subroutineDecs (className : String) (scopes : Scopes) :
    P (List SubroutineDec) (subroutineDecs className scopes) :=
  hP.bind (hP.fold _ (fun _ _ => hP.bind (hP.subroutineDec hterm _ _ _ _) fun _ => hP.pure _) _)
    fun _ => hP.pure _

theorem classDec : P ParsedClass classDec :=
  hP.bind hP.offset fun _ => hP.bind (hP.next _ _ _ rfl) fun _ =>
    hP.bind (hP.next _ _ _ rfl) fun _ => hP.bind (hP.next _ _ _ rfl) fun _ =>
      hP.bind hP.classVarDecs fun _ => hP.bind (hP.subroutineDecs hterm _ _) fun _ =>
        hP.bind (hP.next _ _ _ rfl) fun _ => hP.bind (hP.spanFrom _) fun _ => hP.pure _

end Classes

end Compositional

end Parser

end Jack

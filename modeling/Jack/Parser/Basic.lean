import Jack.Error
import Jack.Name
import Jack.Token

/-!
# Reading a list of tokens

A `Parser` moves a `Cursor` along the tokens of a unit.  It looks at most one token past the one at
the cursor, it never goes back, and its first fault ends it.  `Parser.next` takes one token or
fails, `Parser.next?` takes one token or stays, and `Parser.fold` reads items for as long as the
token in front of an item announces one.  Everything else is built from these.
-/

namespace Jack

/-- The tokens of a unit, cut in two at the place that is being read. -/
structure Cursor where
  /-- The tokens already taken, the last one first. -/
  passed : List Token
  /-- The tokens not yet taken. -/
  rest : List Token

namespace Cursor

/-- The end of the last token taken, or zero. -/
def lastStop (c : Cursor) : Offset :=
  match c.passed with
  | [] => 0
  | t :: _ => t.span.stop

/-- The start of the next token, or the end of the last one. -/
def offset (c : Cursor) : Offset :=
  match c.rest with
  | [] => c.lastStop
  | t :: _ => t.span.start

/-- The span of the tokens taken since the cursor stood at `start`. -/
def spanFrom (c : Cursor) (start : Offset) : Span := ⟨start, max c.lastStop start⟩

/-- The texts of up to three tokens before the cursor and two after it. -/
def context (c : Cursor) : List String :=
  ((c.passed.take 3).reverse ++ c.rest.take 2).map Token.text

/-- The fault that refuses the next token, or the end of the tokens. -/
def fault (c : Cursor) (expected : Expectation) (rule : Rule) : CompileError :=
  match c.rest with
  | [] => .parse ⟨expected, "end of input", rule.text, c.context⟩ (.empty c.lastStop)
  | t :: _ => .parse ⟨expected, t.text, rule.text, c.context⟩ t.span

end Cursor

/-- A reader of tokens. -/
abbrev Parser (α : Type) := StateT Cursor (Except CompileError) α

namespace Parser

variable {α β σ : Type}

/-- Refuses the next token. -/
def fail (expected : Expectation) (rule : Rule) : Parser α := fun c =>
  .error (c.fault expected rule)

/-- Fails because the code at the cursor is nested too deeply. -/
def tooDeep (rule : Rule) : Parser α := fail .shallowerNesting rule

/-- The offset of the cursor. -/
def offset : Parser Offset := fun c => .ok (c.offset, c)

/-- The span of the tokens taken since the cursor stood at `start`. -/
def spanFrom (start : Offset) : Parser Span := fun c => .ok (c.spanFrom start, c)

/-- Takes the next token if `select` accepts it, and fails otherwise. -/
def next (select : Token → Option α) (expected : Expectation) (rule : Rule) : Parser α
  | ⟨passed, []⟩ => fail expected rule ⟨passed, []⟩
  | ⟨passed, t :: rest⟩ =>
    match select t with
    | some a => .ok (a, ⟨t :: passed, rest⟩)
    | none => fail expected rule ⟨passed, t :: rest⟩

/-- Takes the next token if `select` accepts it, and stays otherwise. -/
def next? (select : Token → Option α) : Parser (Option α)
  | ⟨passed, []⟩ => .ok (none, ⟨passed, []⟩)
  | ⟨passed, t :: rest⟩ =>
    match select t with
    | some a => .ok (some a, ⟨t :: passed, rest⟩)
    | none => .ok (none, ⟨passed, t :: rest⟩)

/-- The loop of `fold`.  Each round takes a token, so as many rounds as there are tokens suffice;
the first list holds one entry for each round that is left. -/
def foldRounds (lead : Token → Option β) (item : σ → β → Parser σ) :
    List Token → σ → Cursor → Except CompileError (σ × Cursor)
  | [], s, c => .ok (s, c)
  | _ :: rounds, s, c =>
    match next? lead c with
    | .error e => .error e
    | .ok (none, c) => .ok (s, c)
    | .ok (some b, c) =>
      match item s b c with
      | .error e => .error e
      | .ok (s, c) => foldRounds lead item rounds s c

/-- Reads items for as long as `lead` accepts the token in front of an item.  `item` reads what
follows that token and adds it to what was read before. -/
def fold (lead : Token → Option β) (item : σ → β → Parser σ) (init : σ) : Parser σ := fun c =>
  foldRounds lead item c.rest init c

/-! ### Single tokens -/

/-- Accepts a reserved word. -/
def isKeyword (k : Keyword) (t : Token) : Option Unit :=
  if t.keyword? = some k then some () else none

/-- Accepts a symbol. -/
def isSymbol (c : Char) (t : Token) : Option Unit :=
  if t.symbol? = some c then some () else none

/-- Accepts an identifier. -/
def ident? (t : Token) : Option Ident := t.identifier?.map fun text => ⟨text, t.span⟩

/-- Takes a reserved word. -/
def keyword (k : Keyword) (rule : Rule) : Parser Unit := next (isKeyword k) (.keyword k) rule

/-- Takes a symbol. -/
def symbol (c : Char) (rule : Rule) : Parser Unit := next (isSymbol c) (.symbol c) rule

/-- Takes an identifier. -/
def identifier (rule : Rule) : Parser Ident := next ident? .identifier rule

/-- Takes the brace that closes a block of statements. -/
def blockEnd (rule : Rule) : Parser Unit := next (isSymbol '}') .statement rule

/-- The next token is a symbol. -/
def atSymbol (ch : Char) : Parser Bool := fun c =>
  .ok ((c.rest.head?.bind (isSymbol ch)).isSome, c)

/-- Reads items with commas between them, at least one. -/
def commaSeparated (item : σ → Parser σ) (init : σ) : Parser σ := do
  let s ← item init
  fold (isSymbol ',') (fun s _ => item s) s

end Parser

end Jack

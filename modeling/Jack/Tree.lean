import Jack.Name
import Jack.Rule
import Jack.Token

/-!
# The tree of a class

A unit holds one class.  Its tree follows the grammar: a `ClassDec` has variables and subroutines, a
subroutine has a list of `Statement`s, and those hold `Expr`essions.  An expression is flat, a first
term and a list of operators each with its right-hand term, since the language has no precedence.
Every name that is used as a variable or a receiver carries its meaning, so that the tree can be
read without its scopes.
-/

namespace Jack

/-! ### Operators and constants -/

/-- The operators between two terms. -/
inductive BinaryOp where
  | add | sub | mul | div | mod | and | or | lt | gt | eq
deriving DecidableEq, Repr

namespace BinaryOp

/-- The symbol of an operator. -/
def symbol : BinaryOp → Char
  | add => '+'
  | sub => '-'
  | mul => '*'
  | div => '/'
  | mod => '%'
  | and => '&'
  | or => '|'
  | lt => '<'
  | gt => '>'
  | eq => '='

/-- All operators between two terms. -/
def all : List BinaryOp := [add, sub, mul, div, mod, and, or, lt, gt, eq]

/-- The operator of a symbol. -/
def ofSymbol? (c : Char) : Option BinaryOp := all.find? fun op => op.symbol == c

theorem symbol_of_ofSymbol? {c : Char} {op : BinaryOp} (h : ofSymbol? c = some op) :
    op.symbol = c := by
  have := List.find?_some h
  exact beq_iff_eq.1 this

@[simp] theorem ofSymbol?_symbol (op : BinaryOp) : ofSymbol? op.symbol = some op := by
  cases op <;> decide

end BinaryOp

/-- The operators in front of a term. -/
inductive UnaryOp where
  | neg | not
deriving DecidableEq, Repr

namespace UnaryOp

/-- The symbol of an operator. -/
def symbol : UnaryOp → Char
  | neg => '-'
  | not => '~'

/-- All operators in front of a term. -/
def all : List UnaryOp := [neg, not]

/-- The operator of a symbol. -/
def ofSymbol? (c : Char) : Option UnaryOp := all.find? fun op => op.symbol == c

theorem symbol_of_ofSymbol? {c : Char} {op : UnaryOp} (h : ofSymbol? c = some op) :
    op.symbol = c := by
  have := List.find?_some h
  exact beq_iff_eq.1 this

@[simp] theorem ofSymbol?_symbol (op : UnaryOp) : ofSymbol? op.symbol = some op := by
  cases op <;> decide

end UnaryOp

/-- The constants that are reserved words. -/
inductive KeywordConstant where
  | true | false | null | this
deriving DecidableEq, Repr

namespace KeywordConstant

/-- The reserved word of a constant. -/
def keyword : KeywordConstant → Keyword
  | .true => .kwTrue
  | .false => .kwFalse
  | .null => .kwNull
  | .this => .kwThis

/-- The constant of a reserved word. -/
def ofKeyword? : Keyword → Option KeywordConstant
  | .kwTrue => some .true
  | .kwFalse => some .false
  | .kwNull => some .null
  | .kwThis => some .this
  | _ => none

theorem keyword_of_ofKeyword? {word : Keyword} {k : KeywordConstant}
    (h : ofKeyword? word = some k) : k.keyword = word := by
  cases word <;> cases h <;> rfl

@[simp] theorem ofKeyword?_keyword (k : KeywordConstant) : ofKeyword? k.keyword = some k := by
  cases k <;> rfl

end KeywordConstant

/-! ### Expressions -/

mutual

/-- A flat expression: `head`, then each operator of `tail` applied to what stands before it and to
its own term. -/
structure Expr where
  /-- The first term. -/
  head : Term
  /-- The operators, each with its right-hand term. -/
  tail : List (BinaryOp × Term)
  /-- Where the expression stands. -/
  span : Span

/-- A term of an expression. -/
inductive Term where
  /-- An integer constant. -/
  | integer (value : Nat) (span : Span)
  /-- A string constant. -/
  | string (value : String) (span : Span)
  /-- A constant that is a reserved word. -/
  | keyword (value : KeywordConstant) (span : Span)
  /-- A variable. -/
  | var (name : NameUse)
  /-- An element of an array. -/
  | element (array : NameUse) (index : Expr)
  /-- A call. -/
  | call (call : Call)
  /-- An expression in parentheses. -/
  | group (inner : Expr) (span : Span)
  /-- An operator in front of a term. -/
  | unary (op : UnaryOp) (operand : Term) (span : Span)

/-- A call of a subroutine: `name(arguments)` or `receiver.name(arguments)`. -/
structure Call where
  /-- The variable or class before the dot. -/
  receiver : Option NameUse
  /-- The called subroutine. -/
  name : Ident
  /-- The arguments in order. -/
  arguments : List Expr
  /-- Where the call stands. -/
  span : Span

end

/-- Where a term stands.  For an element of an array that is the name and the index, without the
bracket that follows them. -/
def Term.span : Term → Span
  | integer _ span | string _ span | keyword _ span | group _ span | unary _ _ span => span
  | var name => name.span
  | element array index => array.span.cover index.span
  | call c => c.span

/-! ### Statements -/

/-- A statement. -/
inductive Statement where
  /-- An assignment to a variable, or to an element of an array: `let target = value;` or
  `let target[index] = value;`. -/
  | assign (target : NameUse) (index : Option Expr) (value : Expr) (span : Span)
  /-- A conditional statement without an alternative. -/
  | ifThen (condition : Expr) (body : List Statement) (span : Span)
  /-- A conditional statement with an alternative. -/
  | ifElse (condition : Expr) (thenBody elseBody : List Statement) (span : Span)
  /-- A loop. -/
  | whileLoop (condition : Expr) (body : List Statement) (span : Span)
  /-- A call for its effect. -/
  | doCall (call : Call) (span : Span)
  /-- A return, with or without a value. -/
  | ret (value : Option Expr) (span : Span)

namespace Statement

/-- Where a statement stands. -/
def span : Statement → Span
  | assign _ _ _ span | ifThen _ _ span | ifElse _ _ _ span | whileLoop _ _ span | doCall _ span
  | ret _ span => span

/-- The production of a statement. -/
def rule : Statement → Rule
  | assign .. => .letStatement
  | ifThen .. | ifElse .. => .ifStatement
  | whileLoop .. => .whileStatement
  | doCall .. => .doStatement
  | ret .. => .returnStatement

end Statement

/-! ### Declarations -/

/-- The storage classes of the variables of a class. -/
inductive ClassVarKind where
  | static | field
deriving DecidableEq, Repr

/-- The storage class as one of all storage classes. -/
def ClassVarKind.storage : ClassVarKind → Storage
  | static => .static
  | field => .field

/-- A declaration of static variables or fields. -/
structure ClassVarDec where
  /-- Static variables or fields. -/
  kind : ClassVarKind
  /-- The type of all of them. -/
  type : TypeName
  /-- Their names. -/
  names : List Ident
  /-- Where the declaration stands. -/
  span : Span
deriving DecidableEq, Repr

/-- A declaration of local variables. -/
structure VarDec where
  /-- The type of all of them. -/
  type : TypeName
  /-- Their names. -/
  names : List Ident
  /-- Where the declaration stands. -/
  span : Span
deriving DecidableEq, Repr

/-- A parameter of a subroutine. -/
structure Parameter where
  /-- The type. -/
  type : TypeName
  /-- The name. -/
  name : Ident
deriving DecidableEq, Repr

/-- The three sorts of subroutine. -/
inductive SubroutineKind where
  /-- Makes an object. -/
  | constructor
  /-- Has no current object. -/
  | function
  /-- Works on the current object. -/
  | method
deriving DecidableEq, Repr

/-- The reserved word of a sort of subroutine. -/
def SubroutineKind.keyword : SubroutineKind → Keyword
  | constructor => .kwConstructor
  | function => .kwFunction
  | method => .kwMethod

/-- What a subroutine returns: nothing, or a value of a type. -/
inductive ReturnType where
  | void
  | value (type : TypeName)
deriving DecidableEq, Repr

/-- A subroutine. -/
structure SubroutineDec where
  /-- Its sort. -/
  kind : SubroutineKind
  /-- What it returns. -/
  returnType : ReturnType
  /-- Its name. -/
  name : Ident
  /-- Its parameters in order. -/
  parameters : List Parameter
  /-- The declarations of its local variables. -/
  varDecs : List VarDec
  /-- Its statements. -/
  statements : List Statement
  /-- Where it stands. -/
  span : Span

/-- The number of local variables of a subroutine. -/
def SubroutineDec.localCount (s : SubroutineDec) : Nat :=
  s.varDecs.foldr (fun d n => d.names.length + n) 0

/-- A class. -/
structure ClassDec where
  /-- Its name. -/
  name : Ident
  /-- The declarations of its variables. -/
  varDecs : List ClassVarDec
  /-- Its subroutines. -/
  subroutines : List SubroutineDec
  /-- Where it stands. -/
  span : Span

end Jack

import Jack.Span

/-!
# Tokens

A `Token` is a kind, a text and a span.  The lexer makes tokens whose text fits the kind, but a
parser may be given any list of them, so the two readings of a text that the grammar asks for are
partial views: `Token.keyword?` is the reserved word that a keyword token spells and
`Token.symbol?` the first character of a symbol token.
-/

namespace Jack

/-- The reserved words. -/
inductive Keyword where
  | kwClass | kwConstructor | kwFunction | kwMethod | kwField | kwStatic | kwVar
  | kwInt | kwChar | kwBoolean | kwVoid
  | kwTrue | kwFalse | kwNull | kwThis
  | kwLet | kwDo | kwIf | kwElse | kwWhile | kwReturn
deriving DecidableEq, Repr

namespace Keyword

/-- The spelling of a reserved word. -/
def text : Keyword → String
  | kwClass => "class"
  | kwConstructor => "constructor"
  | kwFunction => "function"
  | kwMethod => "method"
  | kwField => "field"
  | kwStatic => "static"
  | kwVar => "var"
  | kwInt => "int"
  | kwChar => "char"
  | kwBoolean => "boolean"
  | kwVoid => "void"
  | kwTrue => "true"
  | kwFalse => "false"
  | kwNull => "null"
  | kwThis => "this"
  | kwLet => "let"
  | kwDo => "do"
  | kwIf => "if"
  | kwElse => "else"
  | kwWhile => "while"
  | kwReturn => "return"

/-- All reserved words. -/
def all : List Keyword :=
  [kwClass, kwConstructor, kwFunction, kwMethod, kwField, kwStatic, kwVar, kwInt, kwChar, kwBoolean,
   kwVoid, kwTrue, kwFalse, kwNull, kwThis, kwLet, kwDo, kwIf, kwElse, kwWhile, kwReturn]

/-- The reserved word spelled by a text. -/
def ofText? (text : String) : Option Keyword := all.find? fun k => k.text == text

theorem eq_text_of_ofText? {text : String} {k : Keyword} (h : ofText? text = some k) :
    text = k.text := by
  have := List.find?_some h
  exact (beq_iff_eq.1 this).symm

@[simp] theorem ofText?_text (k : Keyword) : ofText? k.text = some k := by
  cases k <;> decide

end Keyword

/-- The single-character symbols of the language. -/
def symbolChars : List Char :=
  ['{', '}', '(', ')', '[', ']', '.', ',', ';', '+', '-', '*', '/', '%', '&', '|', '<', '>', '=',
   '~']

/-- The character is a symbol. -/
def isSymbolChar (c : Char) : Bool := symbolChars.contains c

/-- The lexical categories. -/
inductive TokenKind where
  | keyword | identifier | symbol | integerConstant | stringConstant
deriving DecidableEq, Repr

/-- The name of a lexical category. -/
def TokenKind.text : TokenKind → String
  | keyword => "keyword"
  | identifier => "identifier"
  | symbol => "symbol"
  | integerConstant => "integerConstant"
  | stringConstant => "stringConstant"

/-- A token of a unit. -/
structure Token where
  /-- The lexical category. -/
  kind : TokenKind
  /-- The characters of the token; those between the quotes, for a string constant. -/
  text : String
  /-- Where the token stands, quotes included. -/
  span : Span
deriving DecidableEq, Repr

namespace Token

/-- The reserved word that a keyword token spells. -/
def keyword? (t : Token) : Option Keyword :=
  if t.kind = .keyword then Keyword.ofText? t.text else none

/-- The first character of a symbol token. -/
def symbol? (t : Token) : Option Char :=
  if t.kind = .symbol then t.text.toList.head? else none

/-- The text of an identifier token. -/
def identifier? (t : Token) : Option String :=
  if t.kind = .identifier then some t.text else none

/-- The token moved `k` bytes to the right. -/
def shift (k : Nat) (t : Token) : Token := { t with span := t.span.shift k }

end Token

end Jack

/-!
# Grammar rules

The productions of the grammar, named as errors name them.
-/

namespace Jack

/-- The productions of the grammar. -/
inductive Rule where
  | classDec | classVarDec | type | subroutineDec | parameterList | subroutineBody | varDec
  | statements | letStatement | ifStatement | whileStatement | doStatement | returnStatement
  | expression | term | subroutineCall | expressionList
deriving DecidableEq, Repr

namespace Rule

/-- The name of a production. -/
def text : Rule → String
  | classDec => "class"
  | classVarDec => "classVarDec"
  | type => "type"
  | subroutineDec => "subroutineDec"
  | parameterList => "parameterList"
  | subroutineBody => "subroutineBody"
  | varDec => "varDec"
  | statements => "statements"
  | letStatement => "letStatement"
  | ifStatement => "ifStatement"
  | whileStatement => "whileStatement"
  | doStatement => "doStatement"
  | returnStatement => "returnStatement"
  | expression => "expression"
  | term => "term"
  | subroutineCall => "subroutineCall"
  | expressionList => "expressionList"

/-- All productions, from the whole class down to the argument list. -/
def all : List Rule :=
  [classDec, classVarDec, type, subroutineDec, parameterList, subroutineBody, varDec, statements,
   letStatement, ifStatement, whileStatement, doStatement, returnStatement, expression, term,
   subroutineCall, expressionList]

end Rule

end Jack

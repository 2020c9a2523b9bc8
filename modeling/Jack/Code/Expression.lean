import Jack.Options
import Jack.Tree
import Jack.Vm.Instruction

/-!
# Code of expressions

The code of an expression leaves one word on the stack.  Operands come strictly from left to right,
and each operator right after its right-hand term.  Multiplication, division and remainders are
calls, and so is the making of a string.

The functions add code to the end of an array.  They make code for every tree; that of a tree which
`Expr.check` refuses means nothing.
-/

namespace Jack

/-- The code of a part of a class. -/
abbrev Code := Array Instruction

/-- Adds instructions to the end of code. -/
def Code.add (code : Code) (instructions : List Instruction) : Code := code ++ instructions

/-- What the code of a body depends on besides its tree. -/
structure CodeContext where
  /-- The name of the class. -/
  className : String
  /-- The options in force. -/
  options : Options
  /-- The text that comments are cut from. -/
  source : String

/-- The full name of a subroutine. -/
def qualified (className name : String) : String := className ++ "." ++ name

/-- The segment and the index of a variable.  A name that is no variable has none and gets the
constant zero; the check refuses it. -/
def NameUse.operand (n : NameUse) : Segment × Nat :=
  match n.meaning with
  | .declared v => (.ofStorage v.storage, v.index)
  | .className | .subroutine => (.constant, 0)

/-- Pushes the variable of a name. -/
def NameUse.pushed (n : NameUse) : Instruction := .push n.operand.1 n.operand.2

/-- Pops into the variable of a name. -/
def NameUse.popped (n : NameUse) : Instruction := .pop n.operand.1 n.operand.2

/-- The instruction for an operator between two terms.  The check refuses `%` where there is no
subroutine for it. -/
def BinaryOp.instruction (options : Options) : BinaryOp → Instruction
  | .add => .op .add
  | .sub => .op .sub
  | .mul => .call "Math.multiply" 2
  | .div => .call "Math.divide" 2
  | .mod => .call (options.moduloRoutine.getD "") 2
  | .and => .op .and
  | .or => .op .or
  | .lt => .op .lt
  | .gt => .op .gt
  | .eq => .op .eq

/-- The operation for an operator in front of a term. -/
def UnaryOp.operation : UnaryOp → StackOp
  | .neg => .neg
  | .not => .not

/-- The code of a constant that is a reserved word. -/
def KeywordConstant.instructions (options : Options) : KeywordConstant → List Instruction
  | .true =>
    match options.encoding with
    | .notZero => [.push .constant 0, .op .not]
    | .negateOne => [.push .constant 1, .op .neg]
  | .false | .null => [.push .constant 0]
  | .this => [.push .pointer 0]

/-- The code that appends a character to the string on top of the stack. -/
def appendCharacter (c : Char) : List Instruction :=
  [.push .constant c.toNat, .call "String.appendChar" 2]

/-- Adds the code that makes a string. -/
def emitString (value : String) (code : Code) : Code :=
  value.toList.foldl (fun code c => Code.add code (appendCharacter c))
    (Code.add code [.push .constant value.length, .call "String.new" 1])

/-- The code in front of the arguments of a call: it pushes the object that the call works on, if it
works on one. -/
def Call.receiverInstructions (c : Call) : List Instruction :=
  match c.receiver with
  | none => [.push .pointer 0]
  | some receiver =>
    match receiver.meaning with
    | .declared _ => [receiver.pushed]
    | .className | .subroutine => []

/-- The class whose subroutine is called. -/
def Call.owner (className : String) (c : Call) : String :=
  match c.receiver with
  | none => className
  | some receiver =>
    match receiver.meaning with
    | .declared v => v.type.text
    | .className | .subroutine => receiver.name

/-- The call instruction of a call. -/
def Call.instruction (className : String) (c : Call) : Instruction :=
  .call (qualified (c.owner className) c.name.text)
    (c.arguments.length + c.receiverInstructions.length)

mutual

/-- Adds the code of an expression. -/
def Expr.emit (ctx : CodeContext) : Expr → Code → Code
  | ⟨head, tail, _⟩, code => emitTail ctx tail (head.emit ctx code)

/-- Adds the code of operators and their right-hand terms. -/
def emitTail (ctx : CodeContext) : List (BinaryOp × Term) → Code → Code
  | [], code => code
  | (op, term) :: tail, code =>
    emitTail ctx tail ((term.emit ctx code).push (op.instruction ctx.options))

/-- Adds the code of a term. -/
def Term.emit (ctx : CodeContext) : Term → Code → Code
  | .integer value _, code => code.push (.push .constant value)
  | .string value _, code => emitString value code
  | .keyword value _, code => Code.add code (value.instructions ctx.options)
  | .var name, code => code.push name.pushed
  | .element array index, code =>
    Code.add (index.emit ctx (code.push array.pushed)) [.op .add, .pop .pointer 1, .push .that 0]
  | .call call, code => call.emit ctx code
  | .group inner _, code => inner.emit ctx code
  | .unary op operand _, code => (operand.emit ctx code).push (.op op.operation)

/-- Adds the code of a call. -/
def Call.emit (ctx : CodeContext) : Call → Code → Code
  | ⟨receiver, name, arguments, span⟩, code =>
    let call : Call := ⟨receiver, name, arguments, span⟩
    (emitArguments ctx arguments (Code.add code call.receiverInstructions)).push
      (call.instruction ctx.className)

/-- Adds the code of arguments. -/
def emitArguments (ctx : CodeContext) : List Expr → Code → Code
  | [], code => code
  | e :: es, code => emitArguments ctx es (e.emit ctx code)

end

end Jack

import Jack.Variable

/-!
# The instructions of the stack machine

`Instruction.text` is the line of VM code that stands for an instruction, and
`Instruction.stackEffect` the change in the depth of the stack, where the instruction alone decides
it.
-/

namespace Jack

/-- The memory segments. -/
inductive Segment where
  | constant | argument | localVar | static | this | that | pointer | temp
deriving DecidableEq, Repr

namespace Segment

/-- The name of a segment. -/
def text : Segment → String
  | .constant => "constant"
  | .argument => "argument"
  | .localVar => "local"
  | .static => "static"
  | .this => "this"
  | .that => "that"
  | .pointer => "pointer"
  | .temp => "temp"

/-- The segment that holds the variables of a storage class. -/
def ofStorage : Storage → Segment
  | .static => .static
  | .field => .this
  | .argument => .argument
  | .localVar => .localVar

end Segment

/-- The operations that take their operands from the stack. -/
inductive StackOp where
  | add | sub | neg | eq | gt | lt | and | or | not
deriving DecidableEq, Repr

namespace StackOp

/-- The word for an operation. -/
def text : StackOp → String
  | .add => "add"
  | .sub => "sub"
  | .neg => "neg"
  | .eq => "eq"
  | .gt => "gt"
  | .lt => "lt"
  | .and => "and"
  | .or => "or"
  | .not => "not"

/-- All operations. -/
def all : List StackOp := [.add, .sub, .neg, .eq, .gt, .lt, .and, .or, .not]

/-- The operation takes one operand and not two. -/
def isUnary : StackOp → Bool
  | .neg | .not => true
  | _ => false

end StackOp

/-- One line of VM code. -/
inductive Instruction where
  /-- Pushes a word of a segment. -/
  | push (segment : Segment) (index : Nat)
  /-- Pops a word into a segment. -/
  | pop (segment : Segment) (index : Nat)
  /-- Applies an operation to the top of the stack. -/
  | op (operation : StackOp)
  /-- Marks a place to jump to. -/
  | label (name : String)
  /-- Jumps. -/
  | goto (name : String)
  /-- Pops a word and jumps if it is not zero. -/
  | ifGoto (name : String)
  /-- Starts a subroutine with a number of local variables. -/
  | function (name : String) (locals : Nat)
  /-- Calls a subroutine on a number of words from the stack. -/
  | call (name : String) (arguments : Nat)
  /-- Returns the word on top of the stack. -/
  | ret
  /-- A remark that the machine ignores. -/
  | comment (words : String)
deriving DecidableEq, Repr

namespace Instruction

/-- The line of VM code for an instruction. -/
def text : Instruction → String
  | push segment index => "push " ++ segment.text ++ " " ++ toString index
  | pop segment index => "pop " ++ segment.text ++ " " ++ toString index
  | op operation => operation.text
  | label name => "label " ++ name
  | goto name => "goto " ++ name
  | ifGoto name => "if-goto " ++ name
  | function name locals => "function " ++ name ++ " " ++ toString locals
  | call name arguments => "call " ++ name ++ " " ++ toString arguments
  | ret => "return"
  | comment words => "// " ++ words

/-- The change in the depth of the stack; none for a call and a return, which depend on the
subroutine that is called. -/
def stackEffect : Instruction → Option Int
  | push .. => some 1
  | pop .. => some (-1)
  | op operation => some (if operation.isUnary then 0 else -1)
  | ifGoto _ => some (-1)
  | label _ | goto _ | function .. | comment _ => some 0
  | call .. | ret => none

end Instruction

end Jack

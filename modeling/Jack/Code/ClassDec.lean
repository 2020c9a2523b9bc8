import Jack.Code.Check
import Jack.Code.Statement
import Jack.Scope

/-!
# Code of a class

The code of a class is the code of its subroutines in order.  A subroutine starts with its name and
the number of its local variables; a constructor then allocates an object and a method takes the one
it is called on.  `lower` checks a class and makes its code.
-/

namespace Jack

/-- The code that sets the current object of a subroutine. -/
def SubroutineKind.prologue (fields : Nat) : SubroutineKind → List Instruction
  | .constructor => [.push .constant fields, .call "Memory.alloc" 1, .pop .pointer 0]
  | .method => [.push .argument 0, .pop .pointer 0]
  | .function => []

/-- The code in front of the statements of a subroutine. -/
def SubroutineDec.header (className : String) (fields : Nat) (s : SubroutineDec) :
    List Instruction :=
  .function (qualified className s.name.text) s.localCount :: s.kind.prologue fields

/-- Adds the code of subroutines of a class with `fields` fields. -/
def emitSubroutines (ctx : CodeContext) (fields : Nat) : List SubroutineDec → Output → Output
  | [], out => out
  | s :: ss, ⟨labels, code⟩ =>
    emitSubroutines ctx fields ss
      (emitStatements ctx s.statements ⟨labels, Code.add code (s.header ctx.className fields)⟩)

/-- The code of a class whose variables are in `scope`.  Comments are cut from `source`. -/
def lower (tree : ClassDec) (scope : Scope) (source : String) (options : Options) :
    Except CompileError Code := do
  let fields := scope.count .field
  checkSubroutines options fields tree.subroutines
  let ctx : CodeContext := ⟨tree.name.text, options, source⟩
  return (emitSubroutines ctx fields tree.subroutines ⟨.new, #[]⟩).code

end Jack

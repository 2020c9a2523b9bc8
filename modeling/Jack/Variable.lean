/-!
# Variables and the meaning of names

A `Variable` is a declared name with its type, its storage class and its index among the variables
of that storage class.  A `Meaning` is what a name stands for where it is used: a variable, or, for
a name that no scope holds, a class or a subroutine of the current object.
-/

namespace Jack

/-- The storage classes of variables. -/
inductive Storage where
  | static | field | argument | localVar
deriving DecidableEq, Repr

/-- The two levels of scope. -/
inductive ScopeLevel where
  | classLevel | subroutineLevel
deriving DecidableEq, Repr

namespace Storage

/-- All storage classes. -/
def all : List Storage := [static, field, argument, localVar]

/-- The name of a storage class. -/
def text : Storage → String
  | static => "static"
  | field => "field"
  | argument => "argument"
  | localVar => "local"

/-- The level of scope that holds the variables of a storage class. -/
def level : Storage → ScopeLevel
  | static | field => .classLevel
  | argument | localVar => .subroutineLevel

end Storage

/-- The type of a variable: a primitive type, or a class given by its name. -/
inductive TypeName where
  | int | char | boolean
  | object (className : String)
deriving DecidableEq, Repr

/-- The spelling of a type. -/
def TypeName.text : TypeName → String
  | int => "int"
  | char => "char"
  | boolean => "boolean"
  | object className => className

/-- A declared variable. -/
structure Variable where
  /-- The declared name. -/
  name : String
  /-- The declared type. -/
  type : TypeName
  /-- The storage class. -/
  storage : Storage
  /-- The number of variables of the same storage class declared before it in its scope. -/
  index : Nat
deriving DecidableEq, Repr

/-- What a name stands for where it is used. -/
inductive Meaning where
  /-- A declared variable. -/
  | declared (v : Variable)
  /-- A class: the name is in no scope and starts with an ASCII capital. -/
  | className
  /-- A subroutine of the current object: the name is in no scope and does not start so. -/
  | subroutine
deriving DecidableEq, Repr

namespace Meaning

/-- The meaning of a name that no scope holds. -/
def ofUndeclared (name : String) : Meaning :=
  match name.toList.head? with
  | some c => if c.isUpper then className else subroutine
  | none => subroutine

end Meaning

end Jack

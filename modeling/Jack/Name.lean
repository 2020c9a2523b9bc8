import Jack.Span
import Jack.Variable

/-!
# Names in a unit

An `Ident` is a name where it is declared or called; a `NameUse` is a name where it is used as a
variable or a receiver, together with what it means there.
-/

namespace Jack

/-- A name and where it stands. -/
structure Ident where
  /-- The name. -/
  text : String
  /-- Where it stands. -/
  span : Span
deriving DecidableEq, Repr

/-- A name that is used, with what it means there. -/
structure NameUse where
  /-- The name. -/
  name : String
  /-- Where it stands. -/
  span : Span
  /-- What it means there. -/
  meaning : Meaning
deriving DecidableEq, Repr

end Jack

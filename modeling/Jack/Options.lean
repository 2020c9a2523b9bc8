/-!
# Compiler options

What a caller may choose about the code that is made.  Each option may be left out.
-/

namespace Jack

/-- How the word of all ones, which stands for truth, is made. -/
inductive TrueEncoding where
  /-- As the bitwise negation of zero. -/
  | notZero
  /-- As minus one. -/
  | negateOne
deriving DecidableEq, Repr

/-- The options of a compilation, as a caller gives them. -/
structure Options where
  /-- Whether each statement is preceded by a comment that shows it. -/
  annotateStatements : Option Bool
  /-- How truth is made. -/
  trueEncoding : Option TrueEncoding
  /-- The subroutine that computes remainders. -/
  moduloRoutine : Option String
deriving DecidableEq, Repr

namespace Options

/-- No option is given. -/
def none : Options := ⟨.none, .none, .none⟩

/-- Statements are annotated.  They are not, unless asked for. -/
def annotates (o : Options) : Bool := o.annotateStatements.getD false

/-- How truth is made: as the negation of zero, unless said otherwise. -/
def encoding (o : Options) : TrueEncoding := o.trueEncoding.getD .notZero

end Options

end Jack

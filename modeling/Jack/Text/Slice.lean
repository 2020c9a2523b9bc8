import Jack.Span

/-!
# Slices of a text

A slice is the part of a text that a span names.  There is one exactly when the span runs forward,
lies inside the text and cuts no character in two.
-/

namespace Jack

/-- The offset lies between two characters of the text, or at one of its ends. -/
def isBoundary (text : String) (offset : Nat) : Bool :=
  String.Pos.Raw.isValid text ⟨offset⟩

/-- The part of `text` at `span`, if the span runs forward between two character boundaries. -/
def slice? (text : String) (span : Span) : Option String :=
  if span.start ≤ span.stop && isBoundary text span.start.toNat &&
      isBoundary text span.stop.toNat then
    some (String.Pos.Raw.extract text ⟨span.start.toNat⟩ ⟨span.stop.toNat⟩)
  else
    none

end Jack

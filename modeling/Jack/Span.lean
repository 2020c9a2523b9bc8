/-!
# Spans of a text

A `Span` is a half-open range of byte offsets into the text of a unit: tokens, nodes of the tree
and errors all carry one, so that each of them can be traced back to the bytes it came from.

An offset has 32 bits.  Bytes are counted without a bound while a text is read, and `Span.between`
keeps of two counts what an offset can hold: behind 2 ^ 32 bytes offsets begin at zero again.
`Span.cover` joins two spans and whatever lies between them.
-/

namespace Jack

/-- A number of bytes, of which the last 32 bits are kept. -/
abbrev Offset := UInt32

/-- The bytes from offset `start` up to, and not including, offset `stop`. -/
structure Span where
  /-- Offset of the first byte. -/
  start : Offset
  /-- Offset just after the last byte. -/
  stop : Offset
deriving DecidableEq, Repr, Inhabited

namespace Span

/-- The span from behind `n` bytes up to behind `m` bytes. -/
def between (n m : Nat) : Span := ⟨.ofNat n, .ofNat m⟩

/-- The span of no bytes at an offset. -/
def empty (offset : Offset) : Span := ⟨offset, offset⟩

/-- The number of bytes in a span. -/
def length (s : Span) : Offset := s.stop - s.start

/-- The span holds no byte. -/
def isEmpty (s : Span) : Bool := s.start == s.stop

/-- The smallest span that holds both spans. -/
def cover (s t : Span) : Span := ⟨min s.start t.start, max s.stop t.stop⟩

/-- The span moved `k` bytes to the right. -/
def shift (k : Nat) (s : Span) : Span := ⟨s.start + .ofNat k, s.stop + .ofNat k⟩

/-- The short form `start..stop`. -/
def dotted (s : Span) : String := toString s.start ++ ".." ++ toString s.stop

/-- The interval form `[start, stop)`. -/
def interval (s : Span) : String := "[" ++ toString s.start ++ ", " ++ toString s.stop ++ ")"

/-- A span is moved by moving its ends, whether or not they fit. -/
@[simp] theorem shift_between (k n m : Nat) : (between n m).shift k = between (n + k) (m + k) := by
  simp [between, shift, UInt32.ofNat_add]

end Span

end Jack

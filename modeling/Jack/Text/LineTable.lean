/-!
# Lines and columns

A `LineTable` holds the offset at which each line of a text starts.  `LineTable.lineOf` finds the
line of an offset by bisection and `LineTable.positionOf` adds the column, counted in bytes.  Only a
line feed starts a new line, and an offset past the end of the text belongs to the last line.
-/

namespace Jack

/-- A line and a column, both counted from zero. -/
structure Position where
  /-- The line. -/
  line : Nat
  /-- Bytes between the start of the line and the position. -/
  column : Nat
deriving DecidableEq, Repr, Inhabited

/-- The form `line:column`, both counted from one, that editors understand. -/
def Position.text (p : Position) : String :=
  toString (p.line + 1) ++ ":" ++ toString (p.column + 1)

/-- The offsets at which the lines of a text start, in ascending order. -/
structure LineTable where
  /-- One offset for each line; the first is zero. -/
  starts : Array Nat

namespace LineTable

/-- The offsets just after each line feed of the characters, which begin at `offset`. -/
def startsFrom (offset : Nat) (starts : Array Nat) : List Char → Array Nat
  | [] => starts
  | c :: cs =>
    let next := offset + c.utf8Size
    startsFrom next (if c == '\n' then starts.push next else starts) cs

/-- The line table of a text. -/
def ofText (text : String) : LineTable := ⟨startsFrom 0 #[0] text.toList⟩

/-- The number of entries at most `pos`, in an ascending array, once it is known that all entries
before `lo` are at most `pos` and all from `hi` on are larger. -/
def bisect (starts : Array Nat) (pos lo hi : Nat) : Nat :=
  if lo < hi then
    let mid := (lo + hi) / 2
    if starts.getD mid 0 ≤ pos then bisect starts pos (mid + 1) hi else bisect starts pos lo mid
  else
    lo
termination_by hi - lo

/-- The number of lines that start at `pos` or before it. -/
def rank (m : LineTable) (pos : Nat) : Nat := bisect m.starts pos 0 m.starts.size

/-- The line that holds the offset. -/
def lineOf (m : LineTable) (pos : Nat) : Nat := m.rank pos - 1

/-- The line that holds the offset, and the number of bytes between its start and the offset. -/
def positionOf (m : LineTable) (pos : Nat) : Position :=
  let line := m.lineOf pos
  ⟨line, pos - m.starts.getD line 0⟩

end LineTable

end Jack

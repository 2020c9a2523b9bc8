/-!
# White space

`isBlank` is membership in the Unicode property White_Space, which has 25 characters.  It
decides what may stand between two tokens and where `collapseBlanks` cuts a text.
-/

namespace Jack

/-- The ranges of code points, both ends included, that make up the property White_Space. -/
def blankRanges : List (Nat × Nat) :=
  [(0x9, 0xD), (0x20, 0x20), (0x85, 0x85), (0xA0, 0xA0), (0x1680, 0x1680), (0x2000, 0x200A),
   (0x2028, 0x2029), (0x202F, 0x202F), (0x205F, 0x205F), (0x3000, 0x3000)]

/-- The character has the property White_Space. -/
def isBlank (c : Char) : Bool :=
  blankRanges.any fun r => r.1 ≤ c.toNat && c.toNat ≤ r.2

/-- The character ends a line: a line feed or a carriage return. -/
def isLineEnd (c : Char) : Bool := c == '\n' || c == '\r'

/-- Every character that ends a line is blank. -/
theorem isBlank_of_isLineEnd {c : Char} (h : isLineEnd c = true) : isBlank c = true := by
  simp only [isLineEnd, Bool.or_eq_true, beq_iff_eq] at h
  rcases h with rfl | rfl <;> decide

/-! ### Words -/

/-- The maximal runs of characters that are not blank, in order.  `word` holds the run that is being
read, last character first, and `done` the runs before it, last run first. -/
def wordsFrom (word : List Char) (done : List (List Char)) : List Char → List (List Char)
  | [] => (if word.isEmpty then done else word.reverse :: done).reverse
  | c :: cs =>
    if isBlank c then
      wordsFrom [] (if word.isEmpty then done else word.reverse :: done) cs
    else
      wordsFrom (c :: word) done cs

/-- The text with each run of blanks between words replaced by one space and none at the ends. -/
def collapseBlanks (text : String) : String :=
  " ".intercalate ((wordsFrom [] [] text.toList).map String.ofList)

end Jack

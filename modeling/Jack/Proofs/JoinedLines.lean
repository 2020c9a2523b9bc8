import Jack.Proofs.LexedPieces

/-!
# Texts joined by a line break

A line feed ends whatever stands in front of it and begins nothing, so the lexer does not see across
it: if the first lines of a text have tokens, the others are read as if they stood alone.  Only a
comment that is still open, which is a fault of the first lines, goes on behind a line feed.

* `skipGap_shift`, `scanLexeme_shift`, `Place.tokens_shift` : the lexer does the same wherever a
  text stands, but for offsets;
* `Lexed.tokens_append_lineFeed` : behind the tokens of some lines and a line feed it goes on as at
  the start of a text;
* `moves_of_tokenize`, `moves_of_tokenize_error` : spans can be moved as far as their text can;
* `tokenize_append_lineFeed` : **two texts joined by a line feed have the tokens of the first one
  and those of the second one, or its fault, moved behind the first one.**
-/

namespace Jack

/-! ### Moving to the right -/

/-- The error moved `k` bytes to the right. -/
def CompileError.shift (k : Nat) : CompileError → CompileError
  | lexical fault span => lexical fault (span.shift k)
  | parse fault span => parse fault (span.shift k)
  | duplicate name span => duplicate name (span.shift k)
  | unresolvedOperator symbol span => unresolvedOperator symbol (span.shift k)
  | lowering fault span => lowering fault (span.map (Span.shift k))

/-- The answer moved `k` bytes to the right. -/
def Scan.shift (k : Nat) : Scan → Scan
  | token t => token (t.shift k)
  | fault f span => fault f (span.shift k)
  | finished => finished

/-- The state in a text that is moved `k` bytes to the right. -/
def GapState.shift (k : Nat) : GapState → GapState
  | blank => blank
  | line => line
  | block opened => block (opened + k)

/-- The place in a text that is moved `k` bytes to the right. -/
def Place.shift (k : Nat) (p : Place) : Place := ⟨p.offset + k, p.rest⟩

section Shift

variable (k : Nat)

theorem skipGap_shift (state : GapState) (n : Nat) (cs : List Char) :
    skipGap (state.shift k) (n + k) cs =
      ((skipGap state n cs).1.map (· + k), (skipGap state n cs).2.shift k) := by
  fun_induction skipGap state n cs with
  | case1 n => rw [GapState.shift, skipGap]; rfl
  | case2 n cs ih => rw [← ih, GapState.shift, skipGap, Nat.add_right_comm, GapState.shift]
  | case3 n cs ih => rw [← ih, GapState.shift, skipGap, Nat.add_right_comm, GapState.shift]
  | case4 n c cs h₁ h₂ hc ih =>
    rw [← ih, GapState.shift, skipGap_blank_cons hc, Nat.add_right_comm]
  | case5 n c cs h₁ h₂ hc =>
    rw [GapState.shift, skipGap, if_neg hc]
    · rfl
    · exact h₁
    · exact h₂
  | case6 n => rw [GapState.shift, skipGap]; rfl
  | case7 n c cs ih =>
    rw [← ih]
    change skipGap .line (n + k) (c :: cs) = _
    rw [skipGap, Nat.add_right_comm]
    split <;> rfl
  | case8 opened n => rw [GapState.shift, skipGap]; rfl
  | case9 opened n cs ih => rw [← ih, GapState.shift, GapState.shift, skipGap, Nat.add_right_comm]
  | case10 opened n c cs hne ih =>
    rw [← ih, GapState.shift, skipGap, Nat.add_right_comm]
    exact hne

theorem integerScan_shift (n : Nat) (digits : List Char) :
    integerScan (n + k) digits = (integerScan n digits).shift k := by
  simp only [integerScan]
  split <;> simp [Scan.shift, Token.shift, Nat.add_right_comm]

theorem scanLexeme_shift (n : Nat) (cs : List Char) :
    scanLexeme (n + k) cs = ((scanLexeme n cs).1.shift k, (scanLexeme n cs).2.shift k) := by
  cases cs with
  | nil => rfl
  | cons c cs =>
    simp only [scanLexeme]
    split
    · simp [Scan.shift, wordToken, Token.shift, Place.shift, Nat.add_right_comm]
    split
    · simp [integerScan_shift, Place.shift, Nat.add_right_comm]
    split
    · split <;> simp [Scan.shift, Token.shift, Place.shift, Nat.add_right_comm]
    split
    · simp [Scan.shift, Token.shift, Place.shift, Nat.add_right_comm]
    · simp [Scan.shift, Place.shift, Nat.add_right_comm]

namespace Place

theorem scan_shift (p : Place) : (p.shift k).scan = (p.scan.1.shift k, p.scan.2.shift k) := by
  have hskip := skipGap_shift k .blank p.offset p.rest
  rw [GapState.shift] at hskip
  simp only [scan, shift] at hskip ⊢
  rw [hskip]
  obtain ⟨opened, q⟩ := skipGap .blank p.offset p.rest
  cases opened with
  | none => exact scanLexeme_shift k q.offset q.rest
  | some opened => simp [Scan.shift]

end Place

end Shift

namespace Place

variable {p q : Place} {done : List Token}

/-- What is read from a place on depends on the first call only. -/
theorem tokens_congr (h : p.scan = q.scan) : p.tokens done = q.tokens done := by
  rcases hscan : q.scan with ⟨t | ⟨f, span⟩ | -, r⟩
  · rw [tokens_of_scan_token hscan, tokens_of_scan_token (h.trans hscan)]
  · rw [tokens_of_scan_fault hscan, tokens_of_scan_fault (h.trans hscan)]
  · rw [tokens_of_scan_finished hscan, tokens_of_scan_finished (h.trans hscan)]

/-- The tokens read before stand in front of the other ones. -/
theorem tokens_append (p : Place) (done before : List Token) :
    p.tokens (done ++ before) = (p.tokens done).map (before.reverse ++ ·) := by
  fun_induction Place.tokens p done with
  | case1 p done q hscan => simp [tokens_of_scan_finished hscan, Except.map]
  | case2 p done f span q hscan => simp [tokens_of_scan_fault hscan, Except.map]
  | case3 p done t q hscan ih => rw [tokens_of_scan_token hscan, ← ih, List.cons_append]

/-- **The lexer does the same wherever a text stands, but for offsets.** -/
theorem tokens_shift (k : Nat) (p : Place) (done : List Token) :
    (p.shift k).tokens (done.map (Token.shift k)) =
      match p.tokens done with
      | .ok ts => .ok (ts.map (Token.shift k))
      | .error e => .error (e.shift k) := by
  fun_induction Place.tokens p done with
  | case1 p done q hscan =>
    have h : (p.shift k).scan = (.finished, q.shift k) := by rw [scan_shift, hscan, Scan.shift]
    rw [tokens_of_scan_finished h]
    exact congrArg Except.ok List.map_reverse.symm
  | case2 p done f span q hscan =>
    have h : (p.shift k).scan = (.fault f (span.shift k), q.shift k) := by
      rw [scan_shift, hscan, Scan.shift]
    rw [tokens_of_scan_fault h]
    rfl
  | case3 p done t q hscan ih =>
    have h : (p.shift k).scan = (.token (t.shift k), q.shift k) := by
      rw [scan_shift, hscan, Scan.shift]
    rw [tokens_of_scan_token h, ← ih, List.map_cons]

end Place

/-! ### The seam -/

/-- What ends with its text ends in front of a line feed as well. -/
theorem keepsEnds_append_lineFeed (rest more : List Char) :
    KeepsEnds rest (rest ++ '\n' :: more) := by
  cases rest with
  | nil => rintro c ⟨⟩; exact .inr (.inl rfl)
  | cons d rest => exact fun c hc => .inl hc

/-- **Behind the tokens of some lines and a line feed the lexer goes on as at the start of a
text.** -/
theorem Lexed.tokens_append_lineFeed {n : Nat} {cs : List Char} {ts : List Token}
    (h : Lexed n cs ts) (more : List Char) (done : List Token) :
    Place.tokens ⟨n, cs ++ '\n' :: more⟩ done =
      Place.tokens ⟨n + byteLength cs + 1, more⟩ (ts.reverse ++ done) := by
  induction h generalizing done with
  | @finished n gap hgap =>
    refine Place.tokens_congr ?_
    have hgap' : IsGap ('\n' :: more) gap := hgap.keepsEnds (keepsEnds_append_lineFeed [] more)
    simp only [Place.scan]
    rw [hgap'.skipGap_append, skipGap_blank_cons (by decide)]
    rfl
  | @token n gap lexeme rest kind text ts hgap hlexeme _ ih =>
    have hkeeps := keepsEnds_append_lineFeed rest more
    have hscan : Place.scan ⟨n, gap ++ (lexeme ++ rest) ++ '\n' :: more⟩ =
        (.token _, ⟨_, rest ++ '\n' :: more⟩) :=
      Place.scan_eq_token_iff.2 ⟨gap, kind, text, lexeme, by simp,
        hgap.keepsEnds (hkeeps.append lexeme), hlexeme.keepsEnds hkeeps, rfl, rfl⟩
    rw [Place.tokens_of_scan_token hscan, ih]
    simp [Nat.add_assoc]

/-- The tokens of two texts joined by a line feed, or the fault of the second one. -/
theorem tokenize_joined {first : String} {tokens : List Token} (h : tokenize first = .ok tokens)
    (second : String) :
    tokenize (first ++ "\n" ++ second) =
      match tokenize second with
      | .ok more => .ok (tokens ++ more.map (Token.shift (first.utf8ByteSize + 1)))
      | .error e => .error (e.shift (first.utf8ByteSize + 1)) := by
  have htext : (first ++ "\n" ++ second).toList = first.toList ++ '\n' :: second.toList := by
    simp
  have hsecond := Place.tokens_shift (first.utf8ByteSize + 1) (Place.ofText second) []
  have hplace : (⟨0 + byteLength first.toList + 1, second.toList⟩ : Place) =
      (Place.ofText second).shift (first.utf8ByteSize + 1) := by
    rw [utf8ByteSize_eq_byteLength]
    simp [Place.shift, Place.ofText]
  calc tokenize (first ++ "\n" ++ second)
      = Place.tokens ⟨0, first.toList ++ '\n' :: second.toList⟩ [] := by
        rw [tokenize, Place.ofText, htext]
    _ = ((Place.ofText second).shift (first.utf8ByteSize + 1)).tokens ([] ++ tokens.reverse) := by
        rw [(lexed_of_tokenize h).tokens_append_lineFeed, hplace, List.append_nil, List.nil_append]
    _ = (((Place.ofText second).shift (first.utf8ByteSize + 1)).tokens []).map (tokens ++ ·) := by
        rw [Place.tokens_append, List.reverse_reverse]
    _ = _ := by
        rw [List.map_nil] at hsecond
        rw [hsecond, tokenize]
        cases (Place.ofText second).tokens [] <;> rfl

/-! ### Moving without a loss -/

/-- The ends of the span still fit if they are moved `k` bytes to the right. -/
structure Span.Moves (k : Nat) (s : Span) : Prop where
  /-- The start is `k` bytes further right. -/
  start_eq : (s.shift k).start.toNat = s.start.toNat + k
  /-- So is the end. -/
  stop_eq : (s.shift k).stop.toNat = s.stop.toNat + k

/-- A span of a text can be moved as far as the text can. -/
theorem Span.Cuts.moves {span : Span} {cs before piece after : List Char} {k : Nat}
    (h : span.Cuts cs before piece after) (hk : byteLength cs + k < 2 ^ 32) : span.Moves k := by
  have hstop := h.stop_le
  have hle := UInt32.le_iff_toNat_le.1 h.start_le_stop
  have hoffset : (UInt32.ofNat k).toNat = k := toNat_ofNat_of_lt (by omega)
  constructor
  · rw [shift, UInt32.toNat_add, hoffset, Nat.mod_eq_of_lt (by omega)]
  · rw [shift, UInt32.toNat_add, hoffset, Nat.mod_eq_of_lt (by omega)]

theorem moves_of_tokenize {text : String} {tokens : List Token} {k : Nat}
    (h : tokenize text = .ok tokens) (hk : text.utf8ByteSize + k < 2 ^ 32) :
    ∀ t ∈ tokens, t.span.Moves k := by
  intro t ht
  have htext : Addressable text := by
    rw [Addressable]
    omega
  obtain ⟨before, after, hmarks⟩ := marks_of_tokenize h t ht
  exact (hmarks.cuts htext).moves (utf8ByteSize_eq_byteLength text ▸ hk)

theorem moves_of_tokenize_error {text : String} {e : CompileError} {k : Nat}
    (h : tokenize text = .error e) (hk : text.utf8ByteSize + k < 2 ^ 32) :
    ∀ span ∈ e.span?, span.Moves k := by
  have htext : Addressable text := by
    rw [Addressable]
    omega
  obtain ⟨f, span, rfl, before, piece, after, hmarks, -⟩ := marks_of_tokenize_error h
  rintro _ ⟨⟩
  exact (hmarks.cuts htext).moves (utf8ByteSize_eq_byteLength text ▸ hk)

end Jack

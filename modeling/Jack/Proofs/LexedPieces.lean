import Jack.Proofs.LexemePlace
import Jack.Proofs.NodeTokens

/-!
# Pieces of a text

The lexer makes the same tokens of a piece of a text wherever the piece stands, but for their
offsets.  What stands in front of a piece does not matter if the piece begins with a token, and what
stands behind it does not matter if it ends with one: a longest lexeme stays one if the characters
behind it are taken away, and a comment still ends.

* `IsGap.keepsEnds`, `IsLexeme.keepsEnds` : gaps and lexemes depend on the next character only;
* `Lexed.exists_drop`, `Lexed.exists_take` : what is left if the first or the last tokens are cut
  off;
* `Lexed.exists_shift` : the tokens of a piece that stands further left;
* `Lexed.ordered` : the tokens are in order as long as offsets do not begin at zero again;
* `exists_marks_spanOver` : **the piece from one token of a text up to another one has the tokens in
  between, moved to its start.**
-/

namespace Jack

/-! ### What stands behind -/

/-- What ends in front of `after` ends in front of `after'` as well, since there is nothing, the
same character, or a line break. -/
def KeepsEnds (after after' : List Char) : Prop :=
  ∀ c ∈ after'.head?, c ∈ after.head? ∨ c = '\n' ∨ c = '\r'

section KeepsEnds

variable {after after' : List Char}

theorem keepsEnds_of_prefix (h : after' <+: after) : KeepsEnds after after' := by
  obtain ⟨more, rfl⟩ := h
  intro c hc
  left
  rw [List.head?_append, Option.mem_def.1 hc]
  rfl

theorem KeepsEnds.append (h : KeepsEnds after after') (piece : List Char) :
    KeepsEnds (piece ++ after) (piece ++ after') := by
  cases piece with
  | nil => exact h
  | cons d piece => exact fun c hc => .inl hc

theorem KeepsEnds.atLineEnd (h : KeepsEnds after after') (hend : AtLineEnd after) :
    AtLineEnd after' := by
  intro c hc
  rcases h c hc with hmem | hline
  · exact hend c hmem
  · exact hline

theorem KeepsEnds.stops (h : KeepsEnds after after') {P : Char → Prop} (hlf : ¬ P '\n')
    (hcr : ¬ P '\r') (hend : Stops P after) : Stops P after' := by
  intro c hc
  rcases h c hc with hmem | rfl | rfl
  · exact hend c hmem
  · exact hlf
  · exact hcr

theorem IsGap.keepsEnds {gap : List Char} (hgap : IsGap after gap) (h : KeepsEnds after after') :
    IsGap after' gap := by
  induction hgap with
  | nil => exact .nil
  | blank hc _ ih => exact .blank hc ih
  | line hbody hend _ ih => exact .line hbody ((h.append _).atLineEnd hend) ih
  | block hbody _ ih => exact .block hbody ih

theorem not_inWord_of_isLineEnd {c : Char} (h : isLineEnd c = true) : ¬ InWord c := by
  rcases isLineEnd_iff.1 h with rfl | rfl <;> simp [InWord]

theorem IsLexeme.keepsEnds {kind : TokenKind} {text : String} {lexeme : List Char}
    (hlexeme : IsLexeme kind text lexeme after) (h : KeepsEnds after after') :
    IsLexeme kind text lexeme after' := by
  have hword : Stops InWord after → Stops InWord after' :=
    h.stops (not_inWord_of_isLineEnd rfl) (not_inWord_of_isLineEnd rfl)
  cases hlexeme with
  | keyword k hend => exact .keyword k (hword hend)
  | identifier hstart hrun hreserved hend => exact .identifier hstart hrun hreserved (hword hend)
  | integer hne hrun hvalue hend =>
    exact .integer hne hrun hvalue (h.stops (by decide) (by decide) hend)
  | string hcontent => exact .string hcontent
  | symbol hc hslash =>
    refine .symbol hc fun hcs d hd => ?_
    rcases h d hd with hmem | rfl | rfl
    · exact hslash hcs d hmem
    · decide
    · decide

end KeepsEnds

/-! ### Cutting off tokens -/

section Cuts

variable {n k : Nat} {cs : List Char} {before taken after ts : List Token} {t : Token}

/-- Behind the gap in front of its first token a text has the same tokens. -/
theorem Lexed.exists_gap (h : Lexed n cs (t :: ts)) :
    ∃ gap rest, cs = gap ++ rest ∧ t.span.start = .ofNat (n + byteLength gap) ∧
      Lexed (n + byteLength gap) rest (t :: ts) := by
  cases h with
  | @token _ gap lexeme rest _ _ _ _ hlexeme hrest =>
    exact ⟨gap, lexeme ++ rest, rfl, rfl, .token .nil hlexeme hrest⟩

/-- Without its first tokens a text has the tokens that are left. -/
theorem Lexed.exists_drop (h : Lexed n cs (before ++ t :: ts)) :
    ∃ passed rest, cs = passed ++ rest ∧ t.span.start = .ofNat (n + byteLength passed) ∧
      Lexed (n + byteLength passed) rest (t :: ts) := by
  induction before generalizing n cs with
  | nil => exact h.exists_gap
  | cons first before ih =>
    cases h with
    | @token _ gap lexeme _ _ _ _ _ _ hrest =>
      obtain ⟨passed, rest, rfl, hstart, hleft⟩ := ih hrest
      have hlength : n + byteLength gap + byteLength lexeme + byteLength passed =
          n + byteLength (gap ++ (lexeme ++ passed)) := by
        simp only [byteLength_append, Nat.add_assoc]
      rw [hlength] at hstart hleft
      exact ⟨gap ++ (lexeme ++ passed), rest, by simp, hstart, hleft⟩

/-- Up to the end of the last of some first tokens a text has these tokens. -/
theorem Lexed.exists_take (h : Lexed n cs (taken ++ after)) (hne : taken ≠ []) :
    ∃ piece rest, cs = piece ++ rest ∧ lastStop taken = .ofNat (n + byteLength piece) ∧
      Lexed n piece taken := by
  induction taken generalizing n cs with
  | nil => exact absurd rfl hne
  | cons first taken ih =>
    cases h with
    | @token _ gap lexeme rest _ _ _ hgap hlexeme hrest =>
      -- A gap or a lexeme ends where it did, since what is left behind it is a prefix of what was.
      by_cases hlast : taken = []
      · subst hlast
        have hcut : KeepsEnds rest [] := keepsEnds_of_prefix List.nil_prefix
        refine ⟨gap ++ (lexeme ++ []), rest, by simp, ?_, ?_⟩
        · simp [lastStop, Span.between, Nat.add_assoc]
        · exact .token (hgap.keepsEnds (hcut.append lexeme)) (hlexeme.keepsEnds hcut)
            (.finished .nil)
      · obtain ⟨piece, rest, rfl, hstop, hpiece⟩ := ih hrest hlast
        have hcut : KeepsEnds (piece ++ rest) piece := keepsEnds_of_prefix ⟨rest, rfl⟩
        refine ⟨gap ++ (lexeme ++ piece), rest, by simp, ?_, ?_⟩
        · rw [← List.singleton_append, lastStop_append_of_ne_nil hlast, hstop]
          simp only [byteLength_append, Nat.add_assoc]
        · exact .token (hgap.keepsEnds (hcut.append lexeme)) (hlexeme.keepsEnds hcut) hpiece

/-- Characters that begin further left have the same tokens further left. -/
theorem Lexed.exists_shift (h : Lexed (n + k) cs ts) :
    ∃ ts', Lexed n cs ts' ∧ ts'.map (Token.shift k) = ts := by
  generalize hm : n + k = m at h
  induction h generalizing n with
  | finished hgap => exact ⟨[], .finished hgap, rfl⟩
  | @token m gap lexeme rest kind text ts hgap hlexeme _ ih =>
    obtain ⟨ts', hrest, rfl⟩ := ih (n := n + byteLength gap + byteLength lexeme) (by omega)
    refine ⟨_, .token hgap hlexeme hrest, ?_⟩
    simp only [List.map_cons, Token.shift, Span.shift_between, ← hm, Nat.add_right_comm]

/-- Where offsets do not begin at zero again, no token begins in front of the text. -/
theorem Lexed.le_start (h : Lexed n cs ts) (hs : Straight n (n + byteLength cs)) :
    ∀ t ∈ ts, .ofNat n ≤ t.span.start := by
  intro t ht
  obtain ⟨before, after, rfl⟩ := List.append_of_mem ht
  obtain ⟨passed, rest, rfl, hstart, -⟩ := h.exists_drop
  rw [byteLength_append] at hs
  rw [hstart]
  exact (hs.mono le_rfl (by omega) (by omega)).ofNat_le_ofNat (by omega)

/-- Where offsets do not begin at zero again, the tokens of a text are in order. -/
theorem Lexed.ordered (h : Lexed n cs ts) (hs : Straight n (n + byteLength cs)) : Ordered ts := by
  induction h with
  | finished => exact ⟨by simp [Forward], .nil⟩
  | @token n gap lexeme rest kind text ts hgap hlexeme hrest ih =>
    simp only [byteLength_append] at hs
    have hlexemeStraight : Straight (n + byteLength gap) (n + byteLength gap + byteLength lexeme) :=
      hs.mono (by omega) (by omega) (by omega)
    have hrestStraight : Straight (n + byteLength gap + byteLength lexeme)
        (n + byteLength gap + byteLength lexeme + byteLength rest) :=
      hs.mono (by omega) (by omega) (by omega)
    refine ⟨List.forall_mem_cons.2 ⟨?_, (ih hrestStraight).forward⟩, ?_⟩
    · exact hlexemeStraight.ofNat_le_ofNat (by omega)
    · exact List.pairwise_cons.2 ⟨hrest.le_start hrestStraight, (ih hrestStraight).pairwise⟩

/-- The tokens of a text that is not too long are in order. -/
theorem ordered_of_tokenize {text : String} (htext : Addressable text)
    (h : tokenize text = .ok (before ++ (taken ++ after))) : Ordered taken := by
  rw [Addressable, utf8ByteSize_eq_byteLength] at htext
  have hs : Straight 0 (0 + byteLength text.toList) := straight_of_lt (by omega) (by omega)
  exact ((lexed_of_tokenize h).ordered hs).sublist
    ((List.sublist_append_left taken after).trans (List.sublist_append_right before _))

/-- **The piece from one token of a text up to another one has the tokens in between, moved to its
start**, and their span marks the piece. -/
theorem exists_marks_spanOver {text : String}
    (h : tokenize text = .ok (before ++ (taken ++ after))) (hne : taken ≠ []) :
    ∃ passed piece left, (spanOver taken).Marks text.toList passed piece left ∧
      (Straight (byteLength passed) (byteLength passed + byteLength piece) → Ordered taken) ∧
      ∃ cut, tokenize (String.ofList piece) = .ok cut ∧
        cut.map (Token.shift (byteLength passed)) = taken := by
  obtain ⟨first, others, rfl⟩ := List.exists_cons_of_ne_nil hne
  obtain ⟨passed, rest, htext, hstart, hrest⟩ := (lexed_of_tokenize h).exists_drop
  obtain ⟨piece, left, rfl, hstop, hpiece⟩ := hrest.exists_take hne
  rw [Nat.zero_add] at hstart hstop hpiece
  obtain ⟨cut, hcut, hshift⟩ := Lexed.exists_shift (n := 0) (by rwa [Nat.zero_add])
  refine ⟨passed, piece, left, ⟨htext, ?_⟩, hpiece.ordered, cut, ?_, hshift⟩
  · rw [spanOver, firstStart_cons, hstart, hstop, Span.between]
  · exact tokenize_of_lexed (String.toList_ofList.symm ▸ hcut)

end Cuts

end Jack

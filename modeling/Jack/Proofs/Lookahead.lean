import Mathlib.Order.CompletePartialOrder
import Jack.Proofs.Grammar
import Jack.Proofs.Acceptance
import Jack.Proofs.LexicalGrammar
import Jack.Proofs.LexicalScope
import Jack.Proofs.ParsedTree

/-!
# Reading with one token in sight

A parser that reads the words of a language `L`, with words of a language `K` to come, follows the
grammar (`Parser.Follows`) if the next token decides all it does.  Where it stops after some tokens
with an answer, these spell a word of `L`, and whatever begins with the next token can only go on
with a word of `K`.  Where it fails after some tokens, a word begins with these, but none does with
the next token as well.  In both cases it would have done the same with any other tokens behind the
next one.

* `Parser.Follows.bind` : one parser after another;
* `Parser.Follows.of_head` : a parser that looks at the next token to choose an alternative;
* `Parser.follows_next?` : a part that may be left out;
* `Parser.follows_fold`, `Parser.follows_commaSeparated` : repetitions.
-/

namespace Jack

open Language Computability Grammar

/-! ### Tokens that spell a word -/

/-- The lexer makes the token from some text. -/
def Token.IsScanned (t : Token) : Prop := ∃ text tokens, tokenize text = .ok tokens ∧ t ∈ tokens

/-- The tokens are written for a word of the language. -/
def Spelled (L : Language Terminal) (ts : List Token) : Prop :=
  ∃ ws ∈ L, List.Forall₂ Token.Spells ts ws

/-- The lexer can make the tokens of some word of the language. -/
def Completable (L : Language Terminal) : Prop := ∃ ts, Spelled L ts ∧ ∀ t ∈ ts, t.IsScanned

/-- Every word of the language starts with a terminal from the set. -/
def Starts (L : Language Terminal) (S : Set Terminal) : Prop := ∀ ws ∈ L, ∃ w ∈ S, ws.head? = some w

/-- A token is written for one terminal only. -/
theorem Token.Spells.unique {t : Token} {w w' : Terminal} (h : t.Spells w) (h' : t.Spells w') :
    w = w' := by
  cases w with
  | keyword k =>
    cases w' with
    | keyword k' =>
      have hk : some k = some k' := (spells_keyword_iff.1 h).symm.trans (spells_keyword_iff.1 h')
      exact congrArg _ (Option.some.inj hk)
    | _ => cases h.1.symm.trans h'.1
  | identifier name =>
    cases w' with
    | identifier name' => exact congrArg _ (h.2.symm.trans h'.2)
    | _ => cases h.1.symm.trans h'.1
  | symbol ch =>
    cases w' with
    | symbol ch' => exact congrArg _ (Option.some.inj (h.2.symm.trans h'.2))
    | _ => cases h.1.symm.trans h'.1
  | integer value =>
    cases w' with
    | integer value' => exact congrArg _ (Option.some.inj (h.2.symm.trans h'.2))
    | _ => cases h.1.symm.trans h'.1
  | string content =>
    cases w' with
    | string content' => exact congrArg _ (h.2.symm.trans h'.2)
    | _ => cases h.1.symm.trans h'.1

section Words

variable {L M K : Language Terminal} {S S' : Set Terminal} {ι : Type} {word : ι → Terminal}
  {rest : ι → Language Terminal} {ts us vs : List Token}

theorem spelled_one : Spelled 1 ts ↔ ts = [] := by
  constructor
  · rintro ⟨_, rfl, h⟩
    exact List.forall₂_nil_right_iff.1 h
  · rintro rfl
    exact ⟨[], rfl, .nil⟩

theorem Spelled.mul (hus : Spelled L us) (hvs : Spelled K vs) : Spelled (L * K) (us ++ vs) := by
  obtain ⟨ws, hws, hus⟩ := hus
  obtain ⟨ws', hws', hvs⟩ := hvs
  exact ⟨ws ++ ws', append_mem_mul hws hws', List.rel_append hus hvs⟩

theorem spelled_mul : Spelled (L * K) ts ↔ ∃ us vs, Spelled L us ∧ Spelled K vs ∧ us ++ vs = ts := by
  constructor
  · rintro ⟨_, hmul, h⟩
    obtain ⟨ws, hws, ws', hws', rfl⟩ := mem_mul.1 hmul
    exact ⟨ts.take ws.length, ts.drop ws.length, ⟨ws, hws, List.forall₂_take_append _ _ _ h⟩,
      ⟨ws', hws', List.forall₂_drop_append _ _ _ h⟩, List.take_append_drop _ _⟩
  · rintro ⟨us, vs, hus, hvs, rfl⟩
    exact hus.mul hvs

theorem Spelled.mono (h : L ≤ M) (hts : Spelled L ts) : Spelled M ts := by
  obtain ⟨ws, hws, hts⟩ := hts
  exact ⟨ws, h hws, hts⟩

theorem spelled_add : Spelled (L + M) ts ↔ Spelled L ts ∨ Spelled M ts := by
  constructor
  · rintro ⟨ws, hws | hws, h⟩
    · exact .inl ⟨ws, hws, h⟩
    · exact .inr ⟨ws, hws, h⟩
  · rintro (⟨ws, hws, h⟩ | ⟨ws, hws, h⟩)
    · exact ⟨ws, .inl hws, h⟩
    · exact ⟨ws, .inr hws, h⟩

theorem spelled_led : Spelled (led word rest) ts ↔
    ∃ i t us, t.Spells (word i) ∧ Spelled (rest i) us ∧ t :: us = ts := by
  constructor
  · rintro ⟨_, ⟨i, ws, hws, rfl⟩, h⟩
    obtain ⟨t, us, ht, hus, rfl⟩ := List.forall₂_cons_right_iff.1 h
    exact ⟨i, t, us, ht, ⟨ws, hws, hus⟩, rfl⟩
  · rintro ⟨i, t, us, ht, ⟨ws, hws, hus⟩, rfl⟩
    exact ⟨word i :: ws, ⟨i, ws, hws, rfl⟩, .cons ht hus⟩

/-! ### First terminals -/

theorem starts_led : Starts (led word rest) (Set.range word) := by
  rintro _ ⟨i, ws, -, rfl⟩
  exact ⟨word i, ⟨i, rfl⟩, rfl⟩

theorem Starts.mono (h : Starts L S) (hS : S ⊆ S') : Starts L S' := by
  intro ws hws
  obtain ⟨w, hw, hhead⟩ := h ws hws
  exact ⟨w, hS hw, hhead⟩

theorem Starts.mul (h : Starts L S) : Starts (L * K) S := by
  intro _ hmul
  obtain ⟨ws, hws, ws', -, rfl⟩ := mem_mul.1 hmul
  obtain ⟨w, hw, hhead⟩ := h ws hws
  exact ⟨w, hw, by rw [List.head?_append, hhead]; rfl⟩

/-- Behind words that may be left out, the first terminal is that of such a word or that of what
follows them. -/
theorem Starts.kstar_mul (hL : Starts L S) (hK : Starts K S) : Starts (L∗ * K) S := by
  rw [← one_add_self_mul_kstar_eq_kstar, add_mul, one_mul, mul_assoc]
  rintro ws (hws | hws)
  · exact hK ws hws
  · exact hL.mul ws hws

theorem Starts.exists_spells (h : Starts L S) (hts : Spelled L ts) :
    ∃ t ∈ ts.head?, ∃ w ∈ S, t.Spells w := by
  obtain ⟨ws, hws, hts⟩ := hts
  obtain ⟨w, hw, hhead⟩ := h ws hws
  cases hts with
  | nil => cases hhead
  | @cons t _ _ _ ht _ =>
    cases hhead
    exact ⟨t, rfl, w, hw, ht⟩

/-! ### Words that the lexer can make -/

theorem isScanned_of_isLexeme {kind : TokenKind} {text : String} {lexeme : List Char}
    (h : IsLexeme kind text lexeme []) :
    Token.IsScanned ⟨kind, text, .between 0 (byteLength lexeme)⟩ := by
  have hlexed : Lexed 0 lexeme [⟨kind, text, .between 0 (byteLength lexeme)⟩] := by
    have hcut : Lexed 0 ([] ++ (lexeme ++ [])) _ := .token .nil h (.finished .nil)
    simpa using hcut
  refine ⟨String.ofList lexeme, _, Place.tokens_eq_ok_iff.2 ⟨_, rfl, ?_⟩, List.mem_singleton_self _⟩
  simpa [Place.ofText] using hlexed

theorem completable_one : Completable 1 := ⟨[], spelled_one.2 rfl, List.forall_mem_nil _⟩

theorem Completable.mul (hL : Completable L) (hK : Completable K) : Completable (L * K) := by
  obtain ⟨us, hus, hus'⟩ := hL
  obtain ⟨vs, hvs, hvs'⟩ := hK
  exact ⟨us ++ vs, hus.mul hvs, List.forall_mem_append.2 ⟨hus', hvs'⟩⟩

theorem Completable.right (h : Completable (L * K)) : Completable K := by
  obtain ⟨_, hts, hscanned⟩ := h
  obtain ⟨us, vs, -, hvs, rfl⟩ := spelled_mul.1 hts
  exact ⟨vs, hvs, (List.forall_mem_append.1 hscanned).2⟩

theorem Completable.mono (h : L ≤ M) (hL : Completable L) : Completable M := by
  obtain ⟨ts, hts, hscanned⟩ := hL
  exact ⟨ts, hts.mono h, hscanned⟩

theorem Completable.inl (h : Completable L) : Completable (L + M) := h.mono fun _ => .inl

theorem Completable.inr (h : Completable M) : Completable (L + M) := h.mono fun _ => .inr

theorem completable_kstar : Completable L∗ :=
  completable_one.mono one_le_kstar

/-- A lexeme that is spelled for one of the terminals makes up a word. -/
theorem completable_led {kind : TokenKind} {text : String} {lexeme : List Char}
    (h : IsLexeme kind text lexeme []) (i : ι)
    (hi : ∀ span, (⟨kind, text, span⟩ : Token).Spells (word i)) (hrest : Completable (rest i)) :
    Completable (led word rest) := by
  obtain ⟨us, hus, hscanned⟩ := hrest
  exact ⟨_, spelled_led.2 ⟨i, _, us, hi _, hus, rfl⟩,
    List.forall_mem_cons.2 ⟨isScanned_of_isLexeme h, hscanned⟩⟩

theorem completable_symbol {ch : Char} (h : ch ∈ symbolChars) : Completable (symbol ch) := by
  have hlexeme : IsLexeme .symbol (String.ofList [ch]) [ch] [] := .symbol h (by simp)
  exact completable_led hlexeme () (fun _ => ⟨rfl, by simp⟩) completable_one

theorem completable_keyword (k : Keyword) : Completable (keyword k) := by
  have hlexeme : IsLexeme .keyword k.text k.text.toList [] := .keyword k (by simp [Stops])
  exact completable_led hlexeme () (fun _ => ⟨rfl, rfl⟩) completable_one

/-- A lexeme of one letter. -/
theorem isLexeme_name : IsLexeme .identifier (String.ofList ['x']) ['x'] [] :=
  .identifier (.inl (by decide)) (List.forall_mem_nil _) (fun k => by cases k <;> decide)
    (by simp [Stops])

theorem completable_identifiers : Completable identifiers :=
  completable_led isLexeme_name _ (fun _ => ⟨rfl, rfl⟩) completable_one

end Words

/-! ### Cursors with other tokens to come -/

namespace Cursor

variable {c c' : Cursor} {taken ts : List Token}

/-- The cursor with other tokens to come. -/
def withRest (c : Cursor) (ts : List Token) : Cursor := ⟨c.passed, ts⟩

@[simp] theorem rest_withRest : (c.withRest ts).rest = ts := rfl

theorem withRest_rest : c.withRest c.rest = c := rfl

/-- What begins as the tokens to come does so behind tokens that are taken. -/
theorem Passes.head?_append (h : c.Passes taken c') (hts : ts.head? = c'.rest.head?) :
    (taken ++ ts).head? = c.rest.head? := by
  rw [h.rest_eq, List.head?_append, List.head?_append, hts]

theorem offset_withRest (h : ts.head? = c.rest.head?) : (c.withRest ts).offset = c.offset := by
  obtain ⟨passed, rest⟩ := c
  cases ts <;> cases rest <;> cases h <;> rfl

/-- A fault is about the next token, and nothing behind that token but the context shows in it. -/
theorem exists_fault_withRest {expected : Expectation} {rule : Rule} {f : SyntaxFault}
    {span : Span} (hts : ts.head? = c.rest.head?) (h : c.fault expected rule = .parse f span) :
    ∃ f', (c.withRest ts).fault expected rule = .parse f' span ∧ f'.expected = f.expected ∧
      f'.found = f.found ∧ f'.rule = f.rule := by
  obtain ⟨passed, rest⟩ := c
  cases rest with
  | nil =>
    obtain rfl := List.head?_eq_none_iff.1 hts
    exact ⟨f, h, rfl, rfl, rfl⟩
  | cons t rest =>
    obtain ⟨ts, rfl⟩ := List.head?_eq_some_iff.1 hts
    cases h
    exact ⟨_, rfl, rfl, rfl, rfl⟩

end Cursor

namespace Parser

variable {α β σ ι : Type}

/-! ### Following the grammar -/

/-- The parser takes the tokens `taken` for a word of `L` and answers `a`, whatever comes behind the
next token, and what is left can only be a word of `K`. -/
structure Takes (p : Parser α) (L K : Language Terminal) (c : Cursor) (taken : List Token) (a : α)
    (c' : Cursor) : Prop where
  /-- The tokens are passed. -/
  passes : c.Passes taken c'
  /-- They spell a word. -/
  spelled : Spelled L taken
  /-- The same is taken in front of any tokens that begin with the next one. -/
  again : ∀ ts, ts.head? = c'.rest.head? →
    p (c.withRest (taken ++ ts)) = .ok (a, c'.withRest ts)
  /-- With such tokens no longer word could have been meant. -/
  left : ∀ ts, ts.head? = c'.rest.head? → Spelled (L * K) (taken ++ ts) → Spelled K ts

/-- The parser passes the tokens `taken` and then fails, whatever comes behind the next token.  A
word of `L` could have gone on from there, but not with the next token. -/
structure FailsBehind (p : Parser α) (L : Language Terminal) (c : Cursor) (taken : List Token)
    (c' : Cursor) (expected : Expectation) (rule : Rule) : Prop where
  /-- The tokens are passed. -/
  passes : c.Passes taken c'
  /-- The fault is the same in front of any tokens that begin with the next one. -/
  again : ∀ ts, ts.head? = c'.rest.head? →
    p (c.withRest (taken ++ ts)) = .error ((c'.withRest ts).fault expected rule)
  /-- A word begins with the tokens that were passed. -/
  viable : Completable L → ∃ ts, Spelled L (taken ++ ts) ∧ ∀ t ∈ ts, t.IsScanned
  /-- No word begins with these and the next token. -/
  hopeless : ∀ ts, ts.head? = c'.rest.head? → ¬ Spelled L (taken ++ ts)

/-- From the cursor the parser follows the grammar, in which it stands for a word of `L` that is
followed by one of `K`.  Only code that is nested too deeply, and names that cannot be declared, are
refused where the grammar admits them. -/
structure Follows (p : Parser α) (L K : Language Terminal) (c : Cursor) : Prop where
  /-- What it takes. -/
  takes : ∀ ⦃a c'⦄, p c = .ok (a, c') → ∃ taken, Takes p L K c taken a c'
  /-- Where it fails. -/
  fails : ∀ ⦃f span⦄, p c = .error (.parse f span) → f.expected ≠ .shallowerNesting →
    ∃ taken c' rule, FailsBehind p (L * K) c taken c' f.expected rule

section Combinators

variable {p q : Parser α} {f : α → Parser β} {L M K : Language Terminal} {c : Cursor}

/-- One parser after another follows a sequence. -/
theorem Follows.bind (hp : Follows p L (M * K) c)
    (hf : ∀ a c', p c = .ok (a, c') → Follows (f a) M K c') : Follows (p >>= f) (L * M) K c where
  takes b c₂ h := by
    obtain ⟨a, c₁, ha, hb⟩ := bind_eq_ok_iff.1 h
    obtain ⟨taken, hp⟩ := hp.takes ha
    obtain ⟨taken', hf⟩ := (hf a c₁ ha).takes hb
    refine ⟨taken ++ taken', hp.passes.trans hf.passes, hp.spelled.mul hf.spelled, ?_, ?_⟩
    · intro ts hts
      have hfirst := hp.again _ (hf.passes.head?_append hts)
      rw [List.append_assoc, bind_of_ok hfirst]
      exact hf.again ts hts
    · intro ts hts hspelled
      rw [mul_assoc, List.append_assoc] at hspelled
      exact hf.left ts hts (hp.left _ (hf.passes.head?_append hts) hspelled)
  fails fault span h hdeep := by
    rw [mul_assoc]
    rcases bind_eq_error_iff.1 h with h | ⟨a, c₁, ha, hb⟩
    · obtain ⟨taken, c', rule, hp⟩ := hp.fails h hdeep
      exact ⟨taken, c', rule, hp.passes, fun ts hts => bind_of_error (hp.again ts hts), hp.viable,
        hp.hopeless⟩
    · obtain ⟨taken, hp⟩ := hp.takes ha
      obtain ⟨taken', c₂, rule, hf⟩ := (hf a c₁ ha).fails hb hdeep
      refine ⟨taken ++ taken', c₂, rule, hp.passes.trans hf.passes, ?_, ?_, ?_⟩
      · intro ts hts
        have hfirst := hp.again _ (hf.passes.head?_append hts)
        rw [List.append_assoc, bind_of_ok hfirst]
        exact hf.again ts hts
      · intro hwords
        obtain ⟨ts, hts, hscanned⟩ := hf.viable hwords.right
        exact ⟨ts, List.append_assoc taken _ _ ▸ hp.spelled.mul hts, hscanned⟩
      · intro ts hts hspelled
        rw [List.append_assoc] at hspelled
        exact hf.hopeless ts hts (hp.left _ (hf.passes.head?_append hts) hspelled)

/-- The last parser of a sequence takes nothing more. -/
theorem Follows.last (hp : Follows p L K c) (hf : ∀ a c', Follows (f a) 1 K c') :
    Follows (p >>= f) L K c := by
  rw [← mul_one L]
  refine Follows.bind ?_ fun a c' _ => hf a c'
  rwa [one_mul]

/-- A parser that does as `q` does in front of the next token follows the alternative of `q`, if the
next token starts no other. -/
theorem Follows.of_head (hq : Follows q M K c) (hML : M ≤ L) (hM : Completable M)
    (hpq : ∀ ts, ts.head? = c.rest.head? → p (c.withRest ts) = q (c.withRest ts))
    (hLM : ∀ ts, ts.head? = c.rest.head? → Spelled (L * K) ts → Spelled (M * K) ts) :
    Follows p L K c where
  takes a c' h := by
    rw [← c.withRest_rest, hpq _ rfl] at h
    obtain ⟨taken, hq⟩ := hq.takes h
    refine ⟨taken, hq.passes, hq.spelled.mono hML, ?_, ?_⟩
    · intro ts hts
      rw [hpq _ (hq.passes.head?_append hts)]
      exact hq.again ts hts
    · intro ts hts hspelled
      exact hq.left ts hts (hLM _ (hq.passes.head?_append hts) hspelled)
  fails fault span h hdeep := by
    rw [← c.withRest_rest, hpq _ rfl] at h
    obtain ⟨taken, c', rule, hq⟩ := hq.fails h hdeep
    refine ⟨taken, c', rule, hq.passes, ?_, ?_, ?_⟩
    · intro ts hts
      rw [hpq _ (hq.passes.head?_append hts)]
      exact hq.again ts hts
    · intro hwords
      obtain ⟨ts, hts, hscanned⟩ := hq.viable (hM.mul hwords.right)
      exact ⟨ts, hts.mono (mul_le_mul_left hML K), hscanned⟩
    · intro ts hts hspelled
      exact hq.hopeless ts hts (hLM _ (hq.passes.head?_append hts) hspelled)

/-- A parser that takes the next token and then does as `q` does follows what can stand behind that
token. -/
theorem Follows.of_token {R : Language Terminal} {t : Token} {rest : List Token}
    (hq : Follows q R K ⟨t :: c.passed, rest⟩) (hc : c.rest = t :: rest) (hR : Completable R)
    (hpq : ∀ ts, p (c.withRest (t :: ts)) = q ⟨t :: c.passed, ts⟩)
    (hRL : ∀ ts, Spelled R ts → Spelled L (t :: ts))
    (hLR : ∀ ts, Spelled (L * K) (t :: ts) → Spelled (R * K) ts) : Follows p L K c := by
  have hpassed {taken : List Token} {c' : Cursor}
      (h : Cursor.Passes ⟨t :: c.passed, rest⟩ taken c') : c.Passes (t :: taken) c' :=
    ⟨by rw [hc, List.cons_append, ← h.rest_eq], by rw [h.passed_eq]; simp⟩
  have hfirst : p c = q ⟨t :: c.passed, rest⟩ := by
    rw [← hpq, ← hc, c.withRest_rest]
  refine ⟨fun a c' h => ?_, fun fault span h hdeep => ?_⟩
  · obtain ⟨taken, hq⟩ := hq.takes (hfirst.symm.trans h)
    refine ⟨t :: taken, hpassed hq.passes, hRL _ hq.spelled, ?_, ?_⟩
    · intro ts hts
      rw [List.cons_append, hpq]
      exact hq.again ts hts
    · intro ts hts hspelled
      exact hq.left ts hts (hLR _ hspelled)
  · obtain ⟨taken, c', rule, hq⟩ := hq.fails (hfirst.symm.trans h) hdeep
    refine ⟨t :: taken, c', rule, hpassed hq.passes, ?_, ?_, ?_⟩
    · intro ts hts
      rw [List.cons_append, hpq]
      exact hq.again ts hts
    · intro hwords
      obtain ⟨ts, hts, hscanned⟩ := hq.viable (hR.mul hwords.right)
      obtain ⟨us, vs, hus, hvs, heq⟩ := spelled_mul.1 hts
      refine ⟨ts, ?_, hscanned⟩
      rw [List.cons_append, ← heq]
      exact (hRL us hus).mul hvs
    · intro ts hts hspelled
      exact hq.hopeless ts hts (hLR _ hspelled)

/-- A parser that refuses the next token, with which no word begins. -/
theorem follows_of_refused {expected : Expectation} {rule : Rule}
    (hp : ∀ ts, ts.head? = c.rest.head? →
      p (c.withRest ts) = .error ((c.withRest ts).fault expected rule))
    (hL : ∀ ts, ts.head? = c.rest.head? → ¬ Spelled (L * K) ts) : Follows p L K c where
  takes a c' h := by
    have herror := hp c.rest rfl
    rw [c.withRest_rest, h] at herror
    cases herror
  fails fault span h hdeep := by
    have herror := hp c.rest rfl
    rw [c.withRest_rest, h] at herror
    have hexpected := Cursor.expected_of_fault (Except.error.inj herror).symm
    exact ⟨[], c, rule, .refl c, hexpected ▸ hp, id, hL⟩

/-- A parser that takes no token, and that answers the same in front of the next one. -/
theorem follows_of_stays {a : α} (hp : ∀ ts, ts.head? = c.rest.head? →
    p (c.withRest ts) = .ok (a, c.withRest ts)) : Follows p 1 K c where
  takes b c' h := by
    have hok := hp c.rest rfl
    rw [c.withRest_rest, h] at hok
    cases hok
    refine ⟨[], .refl c, spelled_one.2 rfl, hp, fun ts _ hts => ?_⟩
    rwa [one_mul] at hts
  fails fault span h := by
    have hok := hp c.rest rfl
    rw [c.withRest_rest, h] at hok
    cases hok

theorem follows_pure (a : α) : Follows (pure a) 1 K c := follows_of_stays fun _ _ => rfl

theorem follows_tooDeep (rule : Rule) : Follows (tooDeep rule : Parser α) L K c where
  takes a c' h := by cases h
  fails fault span h hdeep :=
    absurd (Cursor.expected_of_fault (Except.error.inj h)) hdeep

/-- The offset of the cursor is seen without moving on. -/
theorem follows_offset {f : Offset → Parser β} (hf : ∀ n, Follows (f n) L K c) :
    Follows (offset >>= f) L K c := by
  have hoffset : Follows offset 1 (L * K) c := follows_of_stays fun ts hts => by
    rw [offset, Cursor.offset_withRest hts]
  rw [← one_mul L]
  exact hoffset.bind fun n c' h => (stays_offset h) ▸ hf n

theorem follows_spanFrom (start : Offset) {f : Span → Parser β}
    (hf : ∀ span, Follows (f span) L K c) :
    Follows (spanFrom start >>= f) L K c := by
  have hspan : Follows (spanFrom start) 1 (L * K) c :=
    follows_of_stays (a := c.spanFrom start) fun _ _ => rfl
  rw [← one_mul L]
  exact hspan.bind fun span c' h => (stays_spanFrom start h) ▸ hf span

/-- A declaration takes no token. -/
theorem follows_declare (scopes : Scopes) (name : Ident) (type : TypeName) (storage : Storage)
    {f : Scopes → Parser β} (hf : ∀ scopes, Follows (f scopes) L K c) :
    Follows (declare scopes name type storage >>= f) L K c := by
  have hdeclare : Follows (declare scopes name type storage) 1 (L * K) c := by
    cases h : scopes.declare name type storage with
    | error e =>
      refine ⟨fun a c' h' => ?_, fun fault span h' => ?_⟩
      · rw [declare, h] at h'
        cases h'
      · rw [declare, h] at h'
        cases h'
        exact absurd h (Scopes.declare_ne_parse scopes name type storage fault span)
    | ok r => exact follows_of_stays (a := r.2) fun ts _ => by rw [declare, h]
  rw [← one_mul L]
  exact hdeclare.bind fun scopes' c' h => stays_declare _ _ _ _ h ▸ hf scopes'

end Combinators

/-! ### Alternatives by the next token -/

/-- The tokens that the parser accepts are those that are written for the terminals `word i`, and
what it finds in such a token says which one. -/
def Leads (select : Token → Option α) (key : α → ι) (word : ι → Terminal) : Prop :=
  ∀ t i, t.Spells (word i) ↔ ∃ a, select t = some a ∧ key a = i

section Alternatives

variable {select : Token → Option α} {key : α → ι} {word : ι → Terminal}
  {rest : ι → Language Terminal} {expected : Expectation} {rule : Rule} {f : α → Parser β}
  {L M K : Language Terminal} {c : Cursor} {t : Token} {ts : List Token}

/-- What may stand behind a token that is accepted. -/
theorem Leads.spelled_cons (h : Leads select key word) {a : α} (ha : select t = some a)
    (hts : Spelled (rest (key a)) ts) : Spelled (led word rest) (t :: ts) :=
  spelled_led.2 ⟨key a, t, ts, (h t (key a)).2 ⟨a, ha, rfl⟩, hts, rfl⟩

/-- A token that is accepted starts the alternative it is found to start, and no other. -/
theorem Leads.spelled_of_cons (h : Leads select key word) {a : α} (ha : select t = some a)
    (hts : Spelled (led word rest * K) (t :: ts)) : Spelled (rest (key a) * K) ts := by
  rw [led_mul] at hts
  obtain ⟨i, t', us, ht', hus, heq⟩ := spelled_led.1 hts
  obtain ⟨rfl, rfl⟩ := List.cons.inj heq
  obtain ⟨a', ha', rfl⟩ := (h t' i).1 ht'
  obtain rfl : a' = a := Option.some.inj (ha'.symm.trans ha)
  exact hus

/-- No alternative starts with a token that is refused. -/
theorem Leads.not_spelled (h : Leads select key word) (hrefused : ts.head?.bind select = none) :
    ¬ Spelled (led word rest * K) ts := by
  intro hts
  rw [led_mul] at hts
  obtain ⟨i, t, us, ht, -, rfl⟩ := spelled_led.1 hts
  obtain ⟨a, ha, -⟩ := (h t i).1 ht
  rw [List.head?_cons, Option.bind_some, ha] at hrefused
  cases hrefused

/-- What starts with none of the terminals does not start with a token that is accepted. -/
theorem Leads.bind_head?_eq_none (h : Leads select key word) (hL : Starts L (Set.range word)ᶜ)
    (hts : Spelled L ts) : ts.head?.bind select = none := by
  obtain ⟨t, ht, w, hw, hspells⟩ := hL.exists_spells hts
  rw [ht, Option.bind_some, Option.eq_none_iff_forall_ne_some]
  intro a ha
  have hword : t.Spells (word (key a)) := (h t (key a)).2 ⟨a, ha, rfl⟩
  exact hw ⟨key a, hword.unique hspells⟩

theorem next_of_refused (h : ts.head?.bind select = none) :
    next select expected rule (c.withRest ts) = .error ((c.withRest ts).fault expected rule) := by
  cases ts with
  | nil => rfl
  | cons t ts =>
    have ht : select t = none := h
    simp [next, fail, Cursor.withRest, ht]

/-- One of the tokens that are accepted, and then what it leads. -/
theorem follows_led (h : Leads select key word) (hrest : ∀ i, Completable (rest i))
    (hf : ∀ t a ts, select t = some a → c.rest = t :: ts →
      Follows (f a) (rest (key a)) K ⟨t :: c.passed, ts⟩) :
    Follows (next select expected rule >>= f) (led word rest) K c := by
  cases hhead : c.rest.head?.bind select with
  | none =>
    refine follows_of_refused (fun ts hts => bind_of_error (next_of_refused (hts ▸ hhead)))
      fun ts hts => ?_
    exact h.not_spelled (hts ▸ hhead)
  | some a =>
    obtain ⟨t, ht, ha⟩ := Option.bind_eq_some_iff.1 hhead
    obtain ⟨ts, hc⟩ := List.head?_eq_some_iff.1 ht
    refine (hf t a ts ha hc).of_token hc (hrest _) (fun ts' => ?_) (fun _ => h.spelled_cons ha)
      fun _ => h.spelled_of_cons ha
    exact bind_of_ok (next_eq_ok_iff.2 ⟨t, ha, rfl, rfl⟩)

/-- One of the tokens that are accepted. -/
theorem follows_next (h : Leads select key word) :
    Follows (next select expected rule) (oneOf word) K c := by
  rw [← bind_pure (next select expected rule)]
  exact follows_led h (fun _ => completable_one) fun _ a _ _ _ => follows_pure a

/-- A part that one of the tokens leads, or what comes instead. -/
theorem follows_next? {f : Option α → Parser β} (h : Leads select key word)
    (hrest : ∀ i, Completable (rest i)) (hL : Completable L)
    (hstop : Starts (L * K) (Set.range word)ᶜ)
    (hsome : ∀ t a ts, select t = some a → c.rest = t :: ts →
      Follows (f (some a)) (rest (key a)) K ⟨t :: c.passed, ts⟩)
    (hnone : Follows (f none) L K c) :
    Follows (next? select >>= f) (led word rest + L) K c := by
  cases hhead : c.rest.head?.bind select with
  | none =>
    refine hnone.of_head (fun _ => .inr) hL (fun ts hts => ?_) fun ts hts hspelled => ?_
    · exact bind_of_ok (next?_eq_none_iff.2 ⟨hts ▸ hhead, rfl⟩)
    · rw [add_mul, spelled_add] at hspelled
      exact hspelled.resolve_left (h.not_spelled (hts ▸ hhead))
  | some a =>
    obtain ⟨t, ht, ha⟩ := Option.bind_eq_some_iff.1 hhead
    obtain ⟨ts, hc⟩ := List.head?_eq_some_iff.1 ht
    refine (hsome t a ts ha hc).of_token hc (hrest _) (fun ts' => ?_)
      (fun _ hts => spelled_add.2 (.inl (h.spelled_cons ha hts))) fun ts' hspelled => ?_
    · exact bind_of_ok (next?_eq_some_iff.2 ⟨t, ha, rfl, rfl⟩)
    · rw [add_mul, spelled_add] at hspelled
      rcases hspelled with hspelled | hspelled
      · exact h.spelled_of_cons ha hspelled
      · have hnone := h.bind_head?_eq_none hstop hspelled
        rw [List.head?_cons, Option.bind_some, ha] at hnone
        cases hnone

/-- Items that the tokens lead, one after the other. -/
theorem follows_fold {item : σ → α → Parser σ} (hadvances : ∀ s a, Advances (item s a))
    (h : Leads select key word) (hrest : ∀ i, Completable (rest i))
    (hstop : Starts K (Set.range word)ᶜ)
    (hitem : ∀ s a c, Follows (item s a) (rest (key a)) ((led word rest)∗ * K) c)
    (s : σ) (c : Cursor) : Follows (fold select item s) (led word rest)∗ K c := by
  have hstar : (led word rest)∗ = led word (fun i => rest i * (led word rest)∗) + 1 := by
    rw [← led_mul, add_comm, one_add_self_mul_kstar_eq_kstar]
  -- The induction is on the tokens that are left, of which each item takes one at least.
  induction hn : c.rest.length using Nat.strong_induction_on generalizing s c with
  | _ n ih =>
    rw [fold_eq hadvances, hstar]
    refine follows_next? h (fun i => (hrest i).mul completable_kstar) completable_one
      (by rwa [one_mul]) ?_ (follows_pure s)
    intro t a ts ha hc
    refine (hitem s a _).bind fun s' c' hs' => ih _ ?_ s' c' rfl
    have hle := (hadvances s a).length_le hs'
    simp only at hle
    rw [← hn, hc, List.length_cons]
    omega

end Alternatives

/-! ### Single tokens -/

theorem leads_isSymbol (ch : Char) : Leads (isSymbol ch) id fun _ => .symbol ch := by
  intro t i
  exact ⟨fun h => ⟨(), isSymbol_of_spells h, rfl⟩, fun ⟨_, h, _⟩ => spells_of_isSymbol h⟩

theorem leads_isKeyword (k : Keyword) : Leads (isKeyword k) id fun _ => .keyword k := by
  intro t i
  exact ⟨fun h => ⟨(), isKeyword_of_spells h, rfl⟩, fun ⟨_, h, _⟩ => spells_of_isKeyword h⟩

theorem leads_ident? : Leads ident? Ident.text Terminal.identifier := by
  intro t name
  constructor
  · intro h
    exact ⟨⟨name, t.span⟩, by rw [ident?, Token.spells_identifier_iff.1 h, Option.map_some], rfl⟩
  · rintro ⟨_, h, rfl⟩
    exact spells_of_ident? h

section SingleTokens

variable {L M K : Language Terminal} {c : Cursor} {expected : Expectation} {rule : Rule}

theorem follows_symbol (ch : Char) :
    Follows (next (isSymbol ch) expected rule) (Grammar.symbol ch) K c :=
  follows_next (leads_isSymbol ch)

theorem follows_keyword (k : Keyword) :
    Follows (next (isKeyword k) expected rule) (Grammar.keyword k) K c :=
  follows_next (leads_isKeyword k)

theorem follows_identifier : Follows (identifier rule) identifiers K c := follows_next leads_ident?

/-- What ends with a symbol is left out if the symbol comes next. -/
theorem follows_atSymbol {f : Bool → Parser β} {ch : Char} (hL : Completable L)
    (hstart : Starts L {.symbol ch}ᶜ) (hend : Starts K {.symbol ch})
    (htrue : Follows (f true) 1 K c) (hfalse : Follows (f false) L K c) :
    Follows (atSymbol ch >>= f) (1 + L) K c := by
  have hat (ts : List Token) : (atSymbol ch >>= f) (c.withRest ts) =
      f (ts.head?.bind (isSymbol ch)).isSome (c.withRest ts) := rfl
  cases hhead : c.rest.head?.bind (isSymbol ch) with
  | none =>
    refine hfalse.of_head (fun _ => .inr) hL (fun ts hts => ?_) fun ts hts hspelled => ?_
    · rw [hat, hts, hhead]
      rfl
    · rw [add_mul, spelled_add, one_mul] at hspelled
      refine hspelled.resolve_left fun hK => ?_
      obtain ⟨t, ht, w, rfl, hspells⟩ := hend.exists_spells hK
      rw [← hts, ht, Option.bind_some, isSymbol_of_spells hspells] at hhead
      cases hhead
  | some u =>
    refine htrue.of_head (fun _ => .inl) completable_one (fun ts hts => ?_)
      fun ts hts hspelled => ?_
    · rw [hat, hts, hhead]
      rfl
    · rw [add_mul, spelled_add] at hspelled
      refine hspelled.resolve_right fun hLK => ?_
      have hnone := (leads_isSymbol ch).bind_head?_eq_none (by simpa using hstart.mul) hLK
      rw [hts, hhead] at hnone
      cases hnone

/-- Items with commas between them. -/
theorem follows_commaSeparated {item : σ → Parser σ} (hadvances : ∀ s, Advances (item s))
    (hL : Completable L) (hstop : Starts K {.symbol ','}ᶜ)
    (hitem : ∀ s c, Follows (item s) L ((led (fun _ : Unit => .symbol ',') fun _ => L)∗ * K) c)
    (s : σ) (c : Cursor) : Follows (commaSeparated item s) (separated L) K c := by
  refine (hitem s c).bind fun s' c' _ => ?_
  exact follows_fold (fun s _ => hadvances s) (leads_isSymbol ',') (fun _ => hL)
    (by simpa using hstop) (fun s _ c => hitem s c) s' c'

end SingleTokens

end Parser

end Jack

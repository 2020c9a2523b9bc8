import Jack.Code.Listing
import Jack.Compile
import Jack.Parser.Advance
import Jack.Proofs.LexemePlace

/-!
# Where errors point

Behind the lexer, errors take their spans from the tokens.  A fault of syntax has the span of the
refused token, a name that cannot be declared has its own, and the checks report the span of a node
of the tree, which reaches from one token to another.  `CompileError.PointsAt` says so of an error,
`Check.Points` of all errors of a check, and `Parser.Points` of all errors of a parser, together
with a property of its answers.  For the trees that the parser answers, the property is that their
checks point at the tokens as well.

* `Parser.points_expression`, `Parser.points_statements`, `Parser.points_classDec` : what the
  productions refuse, and what the checks of their trees refuse, is at the tokens;
* `CompileError.PointsAt.sited` : an error that points at the tokens has a span in the text;
* `pointsInto_of_compileUnit_error` : **every failure of a unit has a span and a location in its
  text, and the slice at the span is what the failure names.**
-/

namespace Jack

/-! ### Spans between tokens -/

/-- The offset is that of the start of the text, or of the start or the end of one of the tokens. -/
def Anchor (tokens : List Token) (n : Offset) : Prop :=
  n = 0 ∨ ∃ t ∈ tokens, n = t.span.start ∨ n = t.span.stop

/-- The spans of the tokens run forward. -/
def Forward (tokens : List Token) : Prop := ∀ t ∈ tokens, t.span.start ≤ t.span.stop

/-- The span reaches from one anchor to another. -/
structure Span.Anchored (tokens : List Token) (span : Span) : Prop where
  /-- It begins at an anchor. -/
  start : Anchor tokens span.start
  /-- It ends at an anchor. -/
  stop : Anchor tokens span.stop
  /-- It runs forward if the tokens do. -/
  le : Forward tokens → span.start ≤ span.stop

/-- The end of the last token, or zero. -/
def lastStop (tokens : List Token) : Offset := (tokens.getLast?.map fun t => t.span.stop).getD 0

/-- The name is written with a token. -/
def Ident.From (tokens : List Token) (name : Ident) : Prop :=
  ∃ t ∈ tokens, t.kind = .identifier ∧ name.text = t.text ∧ name.span = t.span

/-- The error has the span of what it is about, which is a token, the end of the tokens, or a node
of the tree. -/
def CompileError.PointsAt (tokens : List Token) : CompileError → Prop
  | lexical _ _ => False
  | parse fault span =>
    (∃ t ∈ tokens, fault.found = t.text ∧ span = t.span) ∨
      (fault.found = "end of input" ∧ span = .empty (lastStop tokens))
  | duplicate name span => ∃ t ∈ tokens, t.kind = .identifier ∧ name = t.text ∧ span = t.span
  | unresolvedOperator _ span => span.Anchored tokens
  | lowering _ span => ∃ s, span = some s ∧ s.Anchored tokens

section Anchors

variable {tokens : List Token}

theorem anchored_of_mem {t : Token} (ht : t ∈ tokens) :
    t.span.Anchored tokens :=
  ⟨.inr ⟨t, ht, .inl rfl⟩, .inr ⟨t, ht, .inr rfl⟩, fun hforward => hforward t ht⟩

theorem Ident.From.anchored {name : Ident} (h : name.From tokens) :
    name.span.Anchored tokens := by
  obtain ⟨t, ht, -, -, hspan⟩ := h
  exact hspan ▸ anchored_of_mem ht

theorem Span.Anchored.cover {s s' : Span} (h : s.Anchored tokens) (h' : s'.Anchored tokens) :
    (s.cover s').Anchored tokens := by
  refine ⟨?_, ?_, ?_⟩
  · exact min_rec' (Anchor tokens) h.start h'.start
  · exact max_rec' (Anchor tokens) h.stop h'.stop
  · exact fun hforward => (min_le_left _ _).trans ((h.le hforward).trans (le_max_left _ _))

end Anchors

/-! ### Checks -/

/-- The errors of the check point at the tokens. -/
def Check.Points (tokens : List Token) (p : Check) : Prop := ∀ e, p = .error e → e.PointsAt tokens

section Checks

variable {tokens : List Token}

theorem Check.points_pure : Check.Points tokens (pure ()) := fun e he => by cases he

theorem Check.Points.bind {p : Check} {q : Unit → Check} (hp : p.Points tokens)
    (hq : (q ()).Points tokens) : Check.Points tokens (p >>= q) := by
  intro e he
  cases p with
  | error e' => exact hp e he
  | ok u => exact hq e he

theorem Check.points_refuse {fault : LoweringFault} {span : Span} (h : span.Anchored tokens) :
    (refuse fault span).Points tokens := by
  rintro e ⟨⟩
  exact ⟨span, rfl, h⟩

theorem Check.points_fits {what : Countable} {count : Nat} {span : Span}
    (h : span.Anchored tokens) : (fits what count span).Points tokens := by
  rw [fits]
  split
  · exact points_pure
  · exact points_refuse h

theorem Check.points_characters {span : Span} (h : span.Anchored tokens) (cs : List Char) :
    (characters span cs).Points tokens := by
  induction cs with
  | nil => exact points_pure
  | cons c cs ih =>
    rw [characters]
    split
    · exact ih
    · exact points_refuse h

theorem NameUse.points_check {n : NameUse} (h : n.span.Anchored tokens) :
    n.check.Points tokens := by
  rw [check]
  split
  · exact Check.points_fits h
  · exact Check.points_refuse h
  · exact Check.points_refuse h

theorem NameUse.points_checkReceiver {n : NameUse} (h : n.span.Anchored tokens) :
    n.checkReceiver.Points tokens := by
  rw [checkReceiver]
  split
  · split
    · exact points_check h
    · exact Check.points_refuse h
  · exact Check.points_pure
  · exact Check.points_refuse h

theorem BinaryOp.points_check {span : Span} (h : span.Anchored tokens) (ctx : BodyContext)
    (op : BinaryOp) : (op.check ctx span).Points tokens := by
  cases op with
  | mod =>
    simp only [check]
    split
    · exact Check.points_pure
    · rintro e ⟨⟩
      exact h
  | _ => exact Check.points_pure

/-- The term is at the tokens, and so is what its checks refuse. -/
structure Term.Sited (tokens : List Token) (t : Term) : Prop where
  /-- Where the term stands. -/
  span : t.span.Anchored tokens
  /-- Its checks. -/
  check : ∀ ctx, (t.check ctx).Points tokens

/-- The expression is at the tokens, and so is what its checks refuse. -/
structure Expr.Sited (tokens : List Token) (e : Expr) : Prop where
  /-- Where the expression stands. -/
  span : e.span.Anchored tokens
  /-- Its checks. -/
  check : ∀ ctx, (e.check ctx).Points tokens

/-- The call is at the tokens, and so is what its checks refuse. -/
structure Call.Sited (tokens : List Token) (c : Call) : Prop where
  /-- Where the call stands. -/
  span : c.span.Anchored tokens
  /-- Its checks. -/
  check : ∀ ctx, (c.check ctx).Points tokens

theorem points_checkTail {tail : List (BinaryOp × Term)} (h : ∀ p ∈ tail, p.2.Sited tokens)
    (ctx : BodyContext) : (checkTail ctx tail).Points tokens := by
  induction tail with
  | nil => exact Check.points_pure
  | cons p tail ih =>
    rw [List.forall_mem_cons] at h
    rw [checkTail]
    exact (h.1.check ctx).bind ((p.1.points_check h.1.span ctx).bind (ih h.2))

theorem points_checkArguments {es : List Expr} (h : ∀ e ∈ es, e.Sited tokens) (ctx : BodyContext) :
    (checkArguments ctx es).Points tokens := by
  induction es with
  | nil => exact Check.points_pure
  | cons e es ih =>
    rw [List.forall_mem_cons] at h
    rw [checkArguments]
    exact (h.1.check ctx).bind (ih h.2)

theorem Call.sited {receiver : Option NameUse} {name : Ident} {arguments : List Expr}
    {span : Span} (hspan : span.Anchored tokens)
    (hreceiver : ∀ n ∈ receiver, n.span.Anchored tokens)
    (harguments : ∀ e ∈ arguments, e.Sited tokens) :
    Call.Sited tokens ⟨receiver, name, arguments, span⟩ := by
  refine ⟨hspan, fun ctx => ?_⟩
  rw [Call.check]
  refine (Check.points_fits hspan).bind
    (Check.Points.bind ?_ (points_checkArguments harguments ctx))
  cases receiver with
  | some receiver => exact NameUse.points_checkReceiver (hreceiver receiver rfl)
  | none =>
    simp only [Call.checkReceiver]
    split
    · exact Check.points_refuse hspan
    · exact Check.points_pure
    · exact Check.points_pure

theorem points_checkOption {e : Option Expr} (h : ∀ e' ∈ e, e'.Sited tokens) (ctx : BodyContext) :
    (checkOption ctx e).Points tokens := by
  cases e with
  | none => exact Check.points_pure
  | some e => exact (h e rfl).check ctx

theorem points_checkStatements {ss : List Statement}
    (h : ∀ s ∈ ss, ∀ ctx, (s.check ctx).Points tokens) (ctx : BodyContext) :
    (checkStatements ctx ss).Points tokens := by
  induction ss with
  | nil => exact Check.points_pure
  | cons s ss ih =>
    rw [List.forall_mem_cons] at h
    rw [checkStatements]
    exact (h.1 ctx).bind (ih h.2)

theorem points_checkSubroutines {options : Options} {fields : Nat} {subs : List SubroutineDec}
    (h : ∀ s ∈ subs, (s.check options fields).Points tokens) :
    (checkSubroutines options fields subs).Points tokens := by
  induction subs with
  | nil => exact Check.points_pure
  | cons s ss ih =>
    rw [List.forall_mem_cons] at h
    rw [checkSubroutines]
    exact h.1.bind (ih h.2)

end Checks

/-! ### Parsers -/

namespace Parser

variable {α β σ : Type}

/-- On a cursor over the tokens, an error of the parser points at them, and an answer has the
property. -/
def Points (tokens : List Token) (p : Parser α) (P : α → Prop) : Prop :=
  ∀ ⦃c : Cursor⦄, c.tokens = tokens → (∀ e, p c = .error e → e.PointsAt tokens) ∧
    ∀ a c', p c = .ok (a, c') → c'.tokens = tokens ∧ P a

section Combinators

variable {tokens : List Token} {p : Parser α} {f : α → Parser β} {P P' : α → Prop} {Q : β → Prop}

theorem Points.bind (hp : Points tokens p P) (hf : ∀ a, P a → Points tokens (f a) Q) :
    Points tokens (p >>= f) Q := by
  intro c hc
  refine ⟨fun e he => ?_, fun b c'' hb => ?_⟩
  · rcases bind_eq_error_iff.1 he with he | ⟨a, c', ha, he⟩
    · exact (hp hc).1 e he
    · obtain ⟨hc', hP⟩ := (hp hc).2 a c' ha
      exact (hf a hP hc').1 e he
  · obtain ⟨a, c', ha, hb⟩ := bind_eq_ok_iff.1 hb
    obtain ⟨hc', hP⟩ := (hp hc).2 a c' ha
    exact (hf a hP hc').2 b c'' hb

theorem points_pure {a : α} (h : P a) : Points tokens (pure a) P := by
  intro c hc
  refine ⟨fun e he => (by cases he), fun b c' hb => ?_⟩
  obtain ⟨rfl, rfl⟩ := pure_eq_ok_iff.1 hb
  exact ⟨hc, h⟩

theorem pointsAt_fault {c : Cursor} (hc : c.tokens = tokens) (expected : Expectation)
    (rule : Rule) :
    (c.fault expected rule).PointsAt tokens := by
  obtain ⟨passed, _ | ⟨t, rest⟩⟩ := c
  · refine .inr ⟨rfl, congrArg Span.empty ?_⟩
    rw [← hc, lastStop, Cursor.tokens, List.append_nil, List.getLast?_reverse]
    cases passed <;> rfl
  · have ht : t ∈ tokens := by simp [← hc, Cursor.tokens]
    exact .inl ⟨t, ht, rfl, rfl⟩

theorem points_fail (expected : Expectation) (rule : Rule) (P : α → Prop) :
    Points tokens (fail expected rule) P := by
  intro c hc
  refine ⟨fun e he => ?_, fun a c' ha => by cases ha⟩
  obtain rfl := Except.error.inj he
  exact pointsAt_fault hc expected rule

theorem anchor_lastStop {c : Cursor} (hc : c.tokens = tokens) : Anchor tokens c.lastStop := by
  obtain ⟨_ | ⟨t, passed⟩, rest⟩ := c
  · exact .inl rfl
  · have ht : t ∈ tokens := by simp [← hc, Cursor.tokens]
    exact .inr ⟨t, ht, .inr rfl⟩

theorem points_offset : Points tokens offset (Anchor tokens) := by
  intro c hc
  refine ⟨fun e he => (by cases he), fun n c' hn => ?_⟩
  obtain ⟨rfl, rfl⟩ := Prod.mk.inj (Except.ok.inj hn)
  refine ⟨hc, ?_⟩
  obtain ⟨passed, _ | ⟨t, rest⟩⟩ := c
  · exact anchor_lastStop hc
  · have ht : t ∈ tokens := by simp [← hc, Cursor.tokens]
    exact .inr ⟨t, ht, .inl rfl⟩

theorem points_spanFrom {start : Offset} (hstart : Anchor tokens start) :
    Points tokens (spanFrom start) (Span.Anchored tokens) := by
  intro c hc
  refine ⟨fun e he => (by cases he), fun span c' hspan => ?_⟩
  obtain ⟨rfl, rfl⟩ := Prod.mk.inj (Except.ok.inj hspan)
  refine ⟨hc, hstart, ?_, fun _ => le_max_right _ _⟩
  exact max_rec' (Anchor tokens) (anchor_lastStop hc) hstart

theorem points_atSymbol (ch : Char) : Points tokens (atSymbol ch) fun _ => True := by
  intro c hc
  refine ⟨fun e he => (by cases he), fun b c' hb => ?_⟩
  obtain ⟨-, rfl⟩ := Prod.mk.inj (Except.ok.inj hb)
  exact ⟨hc, trivial⟩

theorem mem_of_passes {c c' : Cursor} {t : Token} (hc : c.tokens = tokens) (h : c.Passes [t] c') :
    t ∈ tokens := by
  simp [← hc, Cursor.tokens, h.rest_eq]

theorem points_next {select : Token → Option α} (expected : Expectation) (rule : Rule)
    (h : ∀ t ∈ tokens, ∀ a, select t = some a → P a) :
    Points tokens (next select expected rule) P := by
  intro c hc
  refine ⟨fun e he => ?_, fun a c' ha => ?_⟩
  · obtain ⟨passed, _ | ⟨t, rest⟩⟩ := c
    · exact (points_fail expected rule P hc).1 e he
    · simp only [next] at he
      split at he
      · cases he
      · exact (points_fail expected rule P hc).1 e he
  · obtain ⟨t, ht, htaken⟩ := next_eq_ok_iff.1 ha
    exact ⟨htaken.tokens_eq.trans hc, h t (mem_of_passes hc htaken) a ht⟩

theorem points_next? {select : Token → Option α}
    (h : ∀ t ∈ tokens, ∀ a, select t = some a → P a) :
    Points tokens (next? select) fun found => ∀ a ∈ found, P a := by
  intro c hc
  refine ⟨fun e he => ?_, fun found c' ha => ?_⟩
  · obtain ⟨passed, _ | ⟨t, rest⟩⟩ := c
    · cases he
    · simp only [next?] at he
      split at he <;> cases he
  · cases found with
    | none =>
      obtain ⟨-, rfl⟩ := next?_eq_none_iff.1 ha
      exact ⟨hc, by simp⟩
    | some a =>
      obtain ⟨t, ht, htaken⟩ := next?_eq_some_iff.1 ha
      refine ⟨htaken.tokens_eq.trans hc, fun a' ha' => ?_⟩
      obtain rfl := Option.some.inj ha'
      exact h t (mem_of_passes hc htaken) a ht

/-- A repetition keeps the property that each of its rounds keeps. -/
theorem points_fold {lead : Token → Option β} {item : σ → β → Parser σ} {B : β → Prop}
    {I : σ → Prop} (hlead : ∀ t ∈ tokens, ∀ b, lead t = some b → B b)
    (hitem : ∀ s b, I s → B b → Points tokens (item s b) I) {s : σ} (hs : I s) :
    Points tokens (fold lead item s) I := by
  intro c hc
  have hrounds (rounds : List Token) (s : σ) (hs : I s) :
      Points tokens (foldRounds lead item rounds s) I := by
    induction rounds generalizing s with
    | nil => exact points_pure hs
    | cons r rounds ih =>
      rw [foldRounds_cons]
      refine (points_next? hlead).bind fun found hfound => ?_
      cases found with
      | none => exact points_pure hs
      | some b => exact (hitem s b hs (hfound b rfl)).bind ih
  exact hrounds c.rest s hs hc

theorem points_commaSeparated {item : σ → Parser σ} {I : σ → Prop}
    (hitem : ∀ s, I s → Points tokens (item s) I) {s : σ} (hs : I s) :
    Points tokens (commaSeparated item s) I :=
  (hitem s hs).bind fun _ hs =>
    points_fold (B := fun _ => True) (fun _ _ _ _ => trivial) (fun s _ hs _ => hitem s hs) hs

theorem points_symbol {expected : Expectation} {rule : Rule} (ch : Char) :
    Points tokens (next (isSymbol ch) expected rule) fun _ => True :=
  points_next _ _ fun _ _ _ _ => trivial

theorem points_identifier (rule : Rule) : Points tokens (identifier rule) (Ident.From tokens) := by
  refine points_next _ _ fun t ht name hname => ?_
  obtain ⟨text, htext, rfl⟩ := Option.map_eq_some_iff.1 hname
  rw [Token.identifier?, Option.ite_none_right_eq_some] at htext
  exact ⟨t, ht, htext.1, (Option.some.inj htext.2).symm, rfl⟩

end Combinators

/-! ### Expressions -/

section Productions

variable {tokens : List Token} (resolve : String → Meaning)

section Expressions

variable {expression : Parser Expr} {operand : Parser Term}
  (he : Points tokens expression (Expr.Sited tokens))

include he in
theorem points_arguments :
    Points tokens (arguments expression) fun es => ∀ e ∈ es, e.Sited tokens := by
  unfold arguments
  refine (points_atSymbol ')').bind fun atEnd _ => ?_
  cases atEnd with
  | true => exact points_pure (List.forall_mem_nil _)
  | false =>
    refine (points_commaSeparated (I := fun done => ∀ e ∈ done, e.Sited tokens)
      (fun done hdone => ?_) (List.forall_mem_nil _)).bind fun read hread => points_pure ?_
    · exact he.bind fun e he => points_pure (List.forall_mem_cons.2 ⟨he, hdone⟩)
    · exact fun e he => hread e (List.mem_reverse.1 he)

theorem points_callee {first : Ident} (hfirst : first.From tokens) :
    Points tokens (callee resolve first) fun r => ∀ n ∈ r.1, n.span.Anchored tokens := by
  refine (points_next? (P := fun _ => True) fun _ _ _ _ => trivial).bind fun dot _ => ?_
  cases dot with
  | none => exact points_pure (by simp)
  | some u =>
    refine (points_identifier _).bind fun name _ => points_pure ?_
    rintro n ⟨⟩
    exact hfirst.anchored

include he in
theorem points_subroutineCall :
    Points tokens (subroutineCall resolve expression) (Call.Sited tokens) := by
  refine points_offset.bind fun start hstart => (points_identifier _).bind fun first hfirst => ?_
  refine (points_callee resolve hfirst).bind fun r hr => ?_
  refine (points_symbol '(').bind fun _ _ => (points_arguments he).bind fun arguments harguments => ?_
  refine (points_symbol ')').bind fun _ _ => ?_
  exact (points_spanFrom hstart).bind fun span hspan => points_pure (Call.sited hspan hr harguments)

include he in
theorem points_symbolTerm (ho : Points tokens operand (Term.Sited tokens)) {t : Token}
    (ht : t ∈ tokens) : Points tokens (symbolTerm expression operand t) (Term.Sited tokens) := by
  have hstart : Anchor tokens t.span.start := .inr ⟨t, ht, .inl rfl⟩
  unfold symbolTerm
  split
  · refine (points_symbol '(').bind fun _ _ => he.bind fun inner hinner => ?_
    refine (points_symbol ')').bind fun _ _ => (points_spanFrom hstart).bind fun span hspan => ?_
    exact points_pure ⟨hspan, fun ctx => by rw [Term.check]; exact hinner.check ctx⟩
  · refine (points_next (P := fun _ => True) _ _ fun _ _ _ _ => trivial).bind fun op _ => ?_
    refine ho.bind fun operand hoperand => (points_spanFrom hstart).bind fun span hspan => ?_
    exact points_pure ⟨hspan, fun ctx => by rw [Term.check]; exact hoperand.check ctx⟩

include he in
theorem points_nameTerm (after : Option Token) :
    Points tokens (nameTerm resolve expression after) (Term.Sited tokens) := by
  have hcall : Points tokens (do return Term.call (← subroutineCall resolve expression))
      (Term.Sited tokens) := by
    refine (points_subroutineCall resolve he).bind fun call hcall => points_pure ?_
    exact ⟨hcall.span, fun ctx => by rw [Term.check]; exact hcall.check ctx⟩
  unfold nameTerm
  split
  · refine (points_identifier _).bind fun name hname => (points_symbol '[').bind fun _ _ => ?_
    refine he.bind fun index hindex => (points_symbol ']').bind fun _ _ => points_pure ?_
    have hspan := hname.anchored
    refine ⟨hspan.cover hindex.span, fun ctx => ?_⟩
    rw [Term.check]
    exact (NameUse.points_check hspan).bind (hindex.check ctx)
  · exact hcall
  · exact hcall
  · refine (points_identifier _).bind fun name hname => points_pure ?_
    have hspan := hname.anchored
    exact ⟨hspan, fun ctx => by rw [Term.check]; exact NameUse.points_check hspan⟩

include he in
theorem points_termWith (ho : Points tokens operand (Term.Sited tokens)) :
    Points tokens (termWith resolve expression operand) (Term.Sited tokens) := by
  rintro ⟨passed, _ | ⟨t, rest⟩⟩ hc
  · exact points_fail .term .term (Term.Sited tokens) hc
  · have hconstant {make : Token → Option Term} (expected : Expectation)
        (hmake : ∀ t ∈ tokens, ∀ a, make t = some a → a.Sited tokens) :=
      points_next expected .term hmake hc
    have ht : t ∈ tokens := by simp [← hc, Cursor.tokens]
    simp only [termWith]
    cases t.kind with
    | integerConstant =>
      refine hconstant .integerConstant fun t ht a ha => ?_
      obtain ⟨value, -, rfl⟩ := Option.map_eq_some_iff.1 ha
      exact ⟨anchored_of_mem ht, fun ctx => by rw [Term.check]; exact Check.points_pure⟩
    | stringConstant =>
      refine hconstant .term fun t ht a ha => ?_
      obtain rfl := Option.some.inj ha
      have hspan := anchored_of_mem ht
      refine ⟨hspan, fun ctx => ?_⟩
      rw [Term.check]
      exact (Check.points_fits hspan).bind (Check.points_characters hspan _)
    | keyword =>
      refine hconstant .term fun t ht a ha => ?_
      obtain ⟨k, -, rfl⟩ := Option.map_eq_some_iff.1 ha
      exact ⟨anchored_of_mem ht, fun ctx => by rw [Term.check]; exact Check.points_pure⟩
    | symbol => exact points_symbolTerm he ho ht hc
    | identifier => exact points_nameTerm resolve he rest.head? hc

theorem points_expressionWith {term : Parser Term} (ht : Points tokens term (Term.Sited tokens)) :
    Points tokens (expressionWith term) (Expr.Sited tokens) := by
  refine points_offset.bind fun start hstart => ht.bind fun head hhead => ?_
  refine (points_fold (B := fun _ => True) (I := fun done => ∀ p ∈ done, Term.Sited tokens p.2)
    (fun _ _ _ _ => trivial) (fun done op hdone _ => ?_) (List.forall_mem_nil _)).bind
    fun tail htail => (points_spanFrom hstart).bind fun span hspan => points_pure ?_
  · exact ht.bind fun t ht => points_pure (List.forall_mem_cons.2 ⟨ht, hdone⟩)
  · refine ⟨hspan, fun ctx => ?_⟩
    rw [Expr.check]
    exact (hhead.check ctx).bind
      (points_checkTail (fun p hp => htail p (List.mem_reverse.1 hp)) ctx)

end Expressions

theorem points_term : ∀ levels, Points tokens (term resolve levels) (Term.Sited tokens)
  | 0 => points_termWith resolve (points_fail _ _ _) (points_fail _ _ _)
  | levels + 1 =>
    points_termWith resolve (points_expressionWith (points_term levels))
      (points_term levels)

/-- What is refused in an expression is at the tokens. -/
theorem points_expression :
    ∀ levels, Points tokens (expression resolve levels) (Expr.Sited tokens)
  | 0 => points_fail _ _ _
  | levels + 1 => points_expressionWith (points_term resolve levels)

/-! ### Statements -/

section Statements

variable {expression : Parser Expr} {statements : Parser (List Statement)}
  (he : Points tokens expression (Expr.Sited tokens))
  (hs : Points tokens statements fun ss => ∀ s ∈ ss, ∀ ctx, (Statement.check ctx s).Points tokens)

theorem anchor_of_statementLead {t : Token} (ht : t ∈ tokens) {lead : Offset × StatementWord}
    (h : statementLead t = some lead) : Anchor tokens lead.1 := by
  obtain ⟨w, -, rfl⟩ := Option.map_eq_some_iff.1 h
  exact .inr ⟨t, ht, .inl rfl⟩

include hs in
theorem points_block (rule : Rule) :
    Points tokens (block rule statements)
      fun ss => ∀ s ∈ ss, ∀ ctx, (Statement.check ctx s).Points tokens :=
  (points_symbol '{').bind fun _ _ => hs.bind fun _ hbody => (points_symbol '}').bind fun _ _ =>
    points_pure hbody

include he in
theorem points_condition (rule : Rule) :
    Points tokens (condition rule expression) (Expr.Sited tokens) :=
  (points_symbol '(').bind fun _ _ => he.bind fun _ hcondition =>
    (points_symbol ')').bind fun _ _ => points_pure hcondition

include he in
theorem points_targetIndex :
    Points tokens (targetIndex expression) fun index => ∀ e ∈ index, Expr.Sited tokens e := by
  refine (points_next? (P := fun _ => True) fun _ _ _ _ => trivial).bind fun bracket _ => ?_
  cases bracket with
  | none => exact points_pure (by simp)
  | some u =>
    refine he.bind fun index hindex => (points_symbol ']').bind fun _ _ => points_pure ?_
    rintro e ⟨⟩
    exact hindex

variable {start : Offset} (hstart : Anchor tokens start)

include he hstart in
theorem points_letStatement :
    Points tokens (letStatement resolve expression start)
      fun s => ∀ ctx, (s.check ctx).Points tokens := by
  refine (points_identifier _).bind fun target htarget => (points_targetIndex he).bind
    fun index hindex => ?_
  refine (points_symbol '=').bind fun _ _ => he.bind fun value hvalue => ?_
  refine (points_symbol ';').bind fun _ _ => (points_spanFrom hstart).bind fun span _ => ?_
  refine points_pure fun ctx => ?_
  rw [Statement.check]
  exact (NameUse.points_check (htarget.anchored)).bind
    ((points_checkOption hindex ctx).bind (hvalue.check ctx))

include he hs hstart in
theorem points_ifStatement :
    Points tokens (ifStatement expression statements start)
      fun s => ∀ ctx, (s.check ctx).Points tokens := by
  refine (points_condition he _).bind fun condition hcondition => ?_
  refine (points_block hs _).bind fun thenBody hthen => ?_
  refine (points_next? (P := fun _ => True) fun _ _ _ _ => trivial).bind fun word _ => ?_
  cases word with
  | none =>
    refine (points_spanFrom hstart).bind fun span _ => points_pure fun ctx => ?_
    rw [Statement.check]
    exact (hcondition.check ctx).bind (points_checkStatements hthen ctx)
  | some u =>
    refine (points_block hs _).bind fun elseBody helse => ?_
    refine (points_spanFrom hstart).bind fun span _ => points_pure fun ctx => ?_
    rw [Statement.check]
    exact (hcondition.check ctx).bind
      ((points_checkStatements hthen ctx).bind (points_checkStatements helse ctx))

include he hs hstart in
theorem points_whileStatement :
    Points tokens (whileStatement expression statements start)
      fun s => ∀ ctx, (s.check ctx).Points tokens := by
  refine (points_condition he _).bind fun condition hcondition => ?_
  refine (points_block hs _).bind fun body hbody => (points_spanFrom hstart).bind fun span _ => ?_
  refine points_pure fun ctx => ?_
  rw [Statement.check]
  exact (hcondition.check ctx).bind (points_checkStatements hbody ctx)

include he hstart in
theorem points_doStatement :
    Points tokens (doStatement resolve expression start)
      fun s => ∀ ctx, (s.check ctx).Points tokens := by
  refine (points_subroutineCall resolve he).bind fun call hcall => ?_
  refine (points_symbol ';').bind fun _ _ => (points_spanFrom hstart).bind fun span _ => ?_
  refine points_pure fun ctx => ?_
  rw [Statement.check]
  exact hcall.check ctx

include he in
theorem points_returnValue :
    Points tokens (returnValue expression) fun value => ∀ e ∈ value, Expr.Sited tokens e := by
  refine (points_atSymbol ';').bind fun atEnd _ => ?_
  cases atEnd with
  | true => exact points_pure (by simp)
  | false =>
    refine he.bind fun value hvalue => points_pure ?_
    rintro e ⟨⟩
    exact hvalue

include he hstart in
theorem points_returnStatement :
    Points tokens (returnStatement expression start)
      fun s => ∀ ctx, (s.check ctx).Points tokens := by
  refine (points_returnValue he).bind fun value hvalue => (points_symbol ';').bind fun _ _ => ?_
  refine (points_spanFrom hstart).bind fun span _ => points_pure fun ctx => ?_
  rw [Statement.check]
  exact points_checkOption hvalue ctx

omit hstart in
include he hs in
theorem points_statementWith : ∀ lead : Offset × StatementWord, Anchor tokens lead.1 →
    Points tokens (statementWith resolve expression statements lead)
      fun s => ∀ ctx, (s.check ctx).Points tokens
  | (_, .letWord), hstart => points_letStatement resolve he hstart
  | (_, .ifWord), hstart => points_ifStatement he hs hstart
  | (_, .whileWord), hstart => points_whileStatement he hs hstart
  | (_, .doWord), hstart => points_doStatement resolve he hstart
  | (_, .returnWord), hstart => points_returnStatement he hstart

include he hs in
theorem points_statementsWith :
    Points tokens (statementsWith resolve expression statements)
      fun ss => ∀ s ∈ ss, ∀ ctx, (Statement.check ctx s).Points tokens := by
  refine (points_fold (I := fun done => ∀ s ∈ done, ∀ ctx, (Statement.check ctx s).Points tokens)
    (fun t ht lead hlead => anchor_of_statementLead ht hlead) (fun done lead hdone hstart => ?_)
    (List.forall_mem_nil _)).bind fun read hread => points_pure ?_
  · exact (points_statementWith resolve he hs lead hstart).bind fun s hs =>
      points_pure (List.forall_mem_cons.2 ⟨hs, hdone⟩)
  · exact fun s hs => hread s (List.mem_reverse.1 hs)

end Statements

/-- What is refused in statements is at the tokens. -/
theorem points_statements : ∀ levels, Points tokens (statements resolve levels)
    fun ss => ∀ s ∈ ss, ∀ ctx, (Statement.check ctx s).Points tokens
  | 0 => points_fail _ _ _
  | levels + 1 =>
    points_statementsWith resolve (points_expression resolve levels)
      (points_statements levels)

/-! ### Declarations -/

theorem points_type : Points tokens type fun _ => True := points_next _ _ fun _ _ _ _ => trivial

theorem points_returnType : Points tokens returnType fun _ => True := by
  refine (points_next? (P := fun _ => True) fun _ _ _ _ => trivial).bind fun word _ => ?_
  cases word with
  | none => exact points_type.bind fun _ _ => points_pure trivial
  | some u => exact points_pure trivial

theorem pointsAt_of_declare {s : Scope} {name : Ident} (hname : name.From tokens) {type : TypeName}
    {storage : Storage} {e : CompileError} (h : s.declare name type storage = .error e) :
    e.PointsAt tokens := by
  rw [Scope.declare] at h
  split at h
  · obtain rfl := Except.error.inj h
    exact hname
  · simp only at h
    split at h
    · obtain rfl := Except.error.inj h
      exact ⟨name.span, rfl, hname.anchored⟩
    · cases h

theorem points_declare (scopes : Scopes) {name : Ident} (hname : name.From tokens)
    (type : TypeName) (storage : Storage) :
    Points tokens (declare scopes name type storage) fun _ => True := by
  have hscopes : ∀ e, scopes.declare name type storage = .error e → e.PointsAt tokens := by
    intro e he
    rw [Scopes.declare] at he
    split at he
    · cases hd : scopes.ofClass.declare name type storage with
      | error e' =>
        rw [hd] at he
        exact Except.error.inj he ▸ pointsAt_of_declare hname hd
      | ok v => simp [hd, bind, Except.bind, pure, Except.pure] at he
    · cases hd : scopes.ofSubroutine.declare name type storage with
      | error e' =>
        rw [hd] at he
        exact Except.error.inj he ▸ pointsAt_of_declare hname hd
      | ok v => simp [hd, bind, Except.bind, pure, Except.pure] at he
  intro c hc
  unfold declare
  cases h : scopes.declare name type storage with
  | error e => exact ⟨fun e' he => Except.error.inj he ▸ hscopes e h, by rintro a c' ⟨⟩⟩
  | ok v => exact ⟨by rintro e ⟨⟩, by rintro a c' ⟨⟩; exact ⟨hc, trivial⟩⟩

theorem points_declaredNames (rule : Rule) (type : TypeName) (storage : Storage)
    (scopes : Scopes) :
    Points tokens (declaredNames rule type storage scopes) fun _ => True := by
  refine (points_commaSeparated (I := fun _ => True) (fun s _ => ?_) trivial).bind fun _ _ =>
    points_pure trivial
  exact (points_identifier rule).bind fun name hname =>
    (points_declare s.2 hname type storage).bind fun _ _ => points_pure trivial

theorem anchor_of_classVarLead {t : Token} (ht : t ∈ tokens) {lead : Offset × ClassVarKind}
    (h : classVarLead t = some lead) : Anchor tokens lead.1 := by
  rw [classVarLead] at h
  split at h
  · obtain rfl := Option.some.inj h
    exact .inr ⟨t, ht, .inl rfl⟩
  · obtain rfl := Option.some.inj h
    exact .inr ⟨t, ht, .inl rfl⟩
  · cases h

theorem points_classVarDec (scopes : Scopes) {start : Offset} (hstart : Anchor tokens start)
    (kind : ClassVarKind) : Points tokens (classVarDec scopes start kind) fun _ => True :=
  points_type.bind fun _ _ => (points_declaredNames _ _ _ scopes).bind fun _ _ =>
    (points_symbol ';').bind fun _ _ => (points_spanFrom hstart).bind fun _ _ =>
      points_pure trivial

theorem points_classVarDecs : Points tokens classVarDecs fun _ => True := by
  refine (points_fold (I := fun _ => True)
    (fun t ht lead hlead => anchor_of_classVarLead ht hlead) (fun s lead _ hstart => ?_)
    trivial).bind fun _ _ => points_pure trivial
  exact (points_classVarDec s.2 hstart lead.2).bind fun _ _ => points_pure trivial

theorem points_parameters (scopes : Scopes) :
    Points tokens (parameters scopes) fun _ => True := by
  unfold parameters
  refine (points_atSymbol ')').bind fun atEnd _ => ?_
  cases atEnd with
  | true => exact points_pure trivial
  | false =>
    refine (points_commaSeparated (I := fun _ => True) (fun s _ => ?_) trivial).bind fun _ _ =>
      points_pure trivial
    exact points_type.bind fun type _ => (points_identifier _).bind fun name hname =>
      (points_declare s.2 hname type .argument).bind fun _ _ => points_pure trivial

theorem anchor_of_varLead {t : Token} (ht : t ∈ tokens) {start : Offset}
    (h : varLead t = some start) : Anchor tokens start := by
  rw [varLead, Option.ite_none_right_eq_some] at h
  exact .inr ⟨t, ht, .inl (Option.some.inj h.2).symm⟩

theorem points_varDec (scopes : Scopes) {start : Offset} (hstart : Anchor tokens start) :
    Points tokens (varDec scopes start) fun _ => True :=
  points_type.bind fun _ _ => (points_declaredNames _ _ _ scopes).bind fun _ _ =>
    (points_symbol ';').bind fun _ _ => (points_spanFrom hstart).bind fun _ _ =>
      points_pure trivial

theorem points_varDecs (scopes : Scopes) : Points tokens (varDecs scopes) fun _ => True := by
  refine (points_fold (I := fun _ => True) (fun t ht start h => anchor_of_varLead ht h)
    (fun s start _ hstart => ?_) trivial).bind fun _ _ => points_pure trivial
  exact (points_varDec s.2 hstart).bind fun _ _ => points_pure trivial

/-- The hidden argument of a method is the first name in its scope, so it is never refused. -/
theorem exists_declare_clearSubroutine (scopes : Scopes) (name : Ident) (type : TypeName) :
    ∃ v s, scopes.clearSubroutine.declare name type .argument = .ok (v, s) := by
  have hcontains : Scope.empty.contains name.text = false := by
    rw [Scope.contains, Scope.lookup?_eq]
    rfl
  let v : Variable := ⟨name.text, type, .argument, Scope.empty.count .argument⟩
  have hdeclare : Scope.empty.declare name type .argument = .ok (v, Scope.empty.push v) :=
    Scope.declare_eq_ok_iff.2 ⟨hcontains, by decide, rfl, rfl⟩
  refine ⟨v, ⟨scopes.ofClass, Scope.empty.push v⟩, ?_⟩
  simp only [Scopes.declare, Storage.level, Scopes.clearSubroutine, hdeclare]
  rfl

theorem points_subroutineScopes (className : String) (scopes : Scopes) (kind : SubroutineKind)
    (name : Ident) :
    Points tokens (subroutineScopes className scopes kind name) fun _ => True := by
  cases kind with
  | method =>
    obtain ⟨v, s, hdeclare⟩ := exists_declare_clearSubroutine scopes
      ⟨Keyword.kwThis.text, name.span⟩ (.object className)
    intro c hc
    simp only [subroutineScopes, declare, hdeclare]
    exact points_pure trivial hc
  | constructor => exact points_pure trivial
  | function => exact points_pure trivial

theorem anchor_of_subroutineLead {t : Token} (ht : t ∈ tokens) {lead : Offset × SubroutineKind}
    (h : subroutineLead t = some lead) : Anchor tokens lead.1 := by
  rw [subroutineLead] at h
  split at h
  · obtain rfl := Option.some.inj h
    exact .inr ⟨t, ht, .inl rfl⟩
  · obtain rfl := Option.some.inj h
    exact .inr ⟨t, ht, .inl rfl⟩
  · obtain rfl := Option.some.inj h
    exact .inr ⟨t, ht, .inl rfl⟩
  · cases h

theorem points_subroutineDec (className : String) (scopes : Scopes) {start : Offset}
    (hstart : Anchor tokens start) (kind : SubroutineKind) :
    Points tokens (subroutineDec className scopes start kind)
      fun s => ∀ options fields, (s.check options fields).Points tokens := by
  refine points_returnType.bind fun returnType _ => (points_identifier _).bind fun name _ => ?_
  refine (points_subroutineScopes className scopes kind name).bind fun scopes _ => ?_
  refine (points_symbol '(').bind fun _ _ => (points_parameters scopes).bind
    fun parameters _ => ?_
  refine (points_symbol ')').bind fun _ _ => (points_symbol '{').bind fun _ _ => ?_
  refine (points_varDecs parameters.2).bind fun varDecs _ => ?_
  refine (points_statements varDecs.2.resolve maxNesting).bind fun statements hs => ?_
  refine (points_symbol '}').bind fun _ _ => (points_spanFrom hstart).bind fun span hspan => ?_
  refine points_pure fun options fields => ?_
  rw [SubroutineDec.check]
  refine (Check.points_fits hspan).bind ?_
  by_cases hkind : kind = .constructor
  · simp only [hkind, if_true]
    exact (Check.points_fits hspan).bind (points_checkStatements hs _)
  · simp only [hkind, if_false]
    exact points_checkStatements hs _

theorem points_subroutineDecs (className : String) (scopes : Scopes) :
    Points tokens (subroutineDecs className scopes)
      fun ss => ∀ s ∈ ss, ∀ options fields, (s.check options fields).Points tokens := by
  refine (points_fold
    (I := fun done => ∀ s ∈ done, ∀ options fields, (s.check options fields).Points tokens)
    (fun t ht lead hlead => anchor_of_subroutineLead ht hlead) (fun done lead hdone hstart => ?_)
    (List.forall_mem_nil _)).bind fun read hread => points_pure ?_
  · exact (points_subroutineDec className scopes hstart lead.2).bind fun s hs =>
      points_pure (List.forall_mem_cons.2 ⟨hs, hdone⟩)
  · exact fun s hs => hread s (List.mem_reverse.1 hs)

/-- What is refused in a class is at the tokens. -/
theorem points_classDec :
    Points tokens classDec fun parsed => ∀ s ∈ parsed.tree.subroutines, ∀ options fields,
      (s.check options fields).Points tokens := by
  refine points_offset.bind fun start hstart => ?_
  refine (points_next (P := fun _ => True) _ _ fun _ _ _ _ => trivial).bind fun _ _ => ?_
  refine (points_identifier _).bind fun name _ => (points_symbol '{').bind fun _ _ => ?_
  refine points_classVarDecs.bind fun varDecs _ => ?_
  refine (points_subroutineDecs name.text varDecs.2).bind fun subroutines hs => ?_
  refine (points_symbol '}').bind fun _ _ => (points_spanFrom hstart).bind fun span _ => ?_
  exact points_pure hs

end Productions

end Parser

/-! ### Units -/

/-- An error behind the lexer points at the tokens. -/
theorem pointsAt_of_parse_error {tokens : List Token} {e : CompileError}
    (h : parse tokens = .error e) : e.PointsAt tokens := by
  have hclass := Parser.points_classDec (c := ⟨[], tokens⟩) rfl
  rw [parse] at h
  split at h
  · next e' he' => exact Except.error.inj h ▸ hclass.1 e' he'
  · next parsed c hparsed =>
    split at h
    · cases h
    · obtain rfl := Except.error.inj h
      exact Parser.pointsAt_fault (hclass.2 parsed c hparsed).1 _ _

theorem pointsAt_of_lower_error {tokens : List Token} {parsed : ParsedClass}
    (hparsed : parse tokens = .ok parsed) {source : String} {options : Options} {e : CompileError}
    (h : lower parsed.tree parsed.scope source options = .error e) : e.PointsAt tokens := by
  obtain ⟨c, hclass, -⟩ := parse_eq_ok_iff.1 hparsed
  obtain ⟨-, hs⟩ := (Parser.points_classDec (c := ⟨[], tokens⟩) rfl).2 parsed c hclass
  have hpoints : Check.Points tokens
      (checkSubroutines options (parsed.scope.count .field) parsed.tree.subroutines) :=
    points_checkSubroutines fun s hmem => hs s hmem _ _
  exact hpoints e (lower_eq_error_iff.1 h)

/-- What stands at the span of an error of the text, and what comes behind it. -/
def CompileError.Names (text : String) (piece after : List Char) : CompileError → Prop
  | lexical fault _ => fault.Names piece after
  | parse fault span => ∃ tokens, tokenize text = .ok tokens ∧
      ((∃ t ∈ tokens, fault.found = t.text ∧ piece = t.lexeme) ∨
        (fault.found = "end of input" ∧ piece = [] ∧ span = .empty (lastStop tokens)))
  | duplicate name _ => piece = name.toList
  | unresolvedOperator _ _ | lowering _ _ => True

/-- The error repeats something that is written in the text.  An error that is found in the tree
has the span of a node, but does not. -/
def CompileError.IsQuoting : CompileError → Prop
  | lexical .. | parse .. | duplicate .. => True
  | unresolvedOperator .. | lowering .. => False

/-- The error has a span in the text. -/
structure CompileError.Sited (text : String) (e : CompileError) : Prop where
  /-- There is a span. -/
  span : ∃ span, e.span? = some span
  /-- If the error quotes the text, the span is made for what it quotes. -/
  marks : e.IsQuoting → ∃ span before piece after, e.span? = some span ∧
    span.Marks text.toList before piece after ∧ e.Names text piece after
  /-- The span of any error cuts a piece out of a text that is not too long. -/
  cuts : Addressable text → ∃ span before piece after, e.span? = some span ∧
    span.Cuts text.toList before piece after ∧ e.Names text piece after

/-- The failure has a place in the text, however long the text is. -/
structure UnitFailure.Placed (failure : UnitFailure) (text : String) : Prop where
  /-- There is a span. -/
  span : failure.error.span?.isSome = true
  /-- There is a location. -/
  location : failure.location.isSome = true
  /-- If the error quotes the text, the span is made for what it quotes. -/
  marks : failure.error.IsQuoting → ∃ span before piece after,
    failure.error.span? = some span ∧ span.Marks text.toList before piece after ∧
      failure.error.Names text piece after

/-- The failure points into the text at the span, where `before`, `piece` and `after` are the
characters in front of the span, at the span and behind it. -/
structure UnitFailure.PointsInto (failure : UnitFailure) (text : String) (span : Span)
    (before piece after : List Char) : Prop where
  /-- The span is that of the error. -/
  span_eq : failure.error.span? = some span
  /-- The three parts make up the text, and the span reaches over the piece. -/
  cuts : span.Cuts text.toList before piece after
  /-- It runs forward. -/
  start_le_stop : span.start ≤ span.stop
  /-- It ends inside of the text. -/
  stop_le : span.stop.toNat ≤ text.utf8ByteSize
  /-- It begins between two characters. -/
  start_boundary : isBoundary text span.start.toNat = true
  /-- It ends between two characters. -/
  stop_boundary : isBoundary text span.stop.toNat = true
  /-- The slice of the text at the span is the piece. -/
  slice_eq : slice? text span = some (String.ofList piece)
  /-- The line is the number of line feeds in front of the span, and the column the number of bytes
  since the last of them. -/
  location_eq : failure.location =
    some ⟨before.count '\n', byteLength (before.rtakeWhile (· != '\n'))⟩
  /-- The piece is what the error names. -/
  names : failure.error.Names text piece after

section Units

variable {text : String} {tokens : List Token}

theorem isBoundary_of_anchor (htext : Addressable text) (h : tokenize text = .ok tokens)
    {n : Offset} (hn : Anchor tokens n) : IsBoundary text.toList n.toNat := by
  obtain rfl | ⟨t, ht, rfl | rfl⟩ := hn
  · exact isBoundary_zero _
  · obtain ⟨before, after, hmarks⟩ := marks_of_tokenize h t ht
    exact (hmarks.cuts htext).isBoundary_start
  · obtain ⟨before, after, hmarks⟩ := marks_of_tokenize h t ht
    exact (hmarks.cuts htext).isBoundary_stop

theorem forward_of_tokenize (htext : Addressable text) (h : tokenize text = .ok tokens) :
    Forward tokens := by
  intro t ht
  obtain ⟨before, after, hmarks⟩ := marks_of_tokenize h t ht
  exact (hmarks.cuts htext).start_le_stop

/-- A span from one anchor to another cuts a piece out of a text that is not too long. -/
theorem Span.Anchored.cuts {span : Span} (hspan : span.Anchored tokens) (htext : Addressable text)
    (h : tokenize text = .ok tokens) :
    ∃ before piece after, span.Cuts text.toList before piece after :=
  exists_cuts (isBoundary_of_anchor htext h hspan.start) (isBoundary_of_anchor htext h hspan.stop)
    (hspan.le (forward_of_tokenize htext h))

/-- The end of the tokens is behind some characters of the text. -/
theorem marks_empty_lastStop (h : tokenize text = .ok tokens) :
    ∃ before after, (Span.empty (lastStop tokens)).Marks text.toList before [] after := by
  rw [lastStop]
  cases hlast : tokens.getLast? with
  | none => exact ⟨[], text.toList, rfl, rfl⟩
  | some t =>
    obtain ⟨before, after, hmarks⟩ := marks_of_tokenize h t (List.mem_of_getLast? hlast)
    refine ⟨before ++ t.lexeme, after, ?_, ?_⟩
    · rw [hmarks.eq_append, List.append_assoc, List.nil_append]
    · rw [byteLength_append, byteLength_nil, Nat.add_zero, Option.map_some, Option.getD_some,
        hmarks.span_eq]
      rfl

/-- An error that quotes the text where it points at the tokens has the span of what it quotes. -/
theorem CompileError.PointsAt.marks (h : tokenize text = .ok tokens) {e : CompileError}
    (he : e.PointsAt tokens) (hquoting : e.IsQuoting) :
    ∃ span before piece after, e.span? = some span ∧ span.Marks text.toList before piece after ∧
      e.Names text piece after := by
  cases e with
  | lexical fault span => exact he.elim
  | parse fault span =>
    obtain ⟨t, ht, hfound, rfl⟩ | ⟨hfound, rfl⟩ := he
    · obtain ⟨before, after, hmarks⟩ := marks_of_tokenize h t ht
      exact ⟨t.span, before, t.lexeme, after, rfl, hmarks, tokens, h, .inl ⟨t, ht, hfound, rfl⟩⟩
    · obtain ⟨before, after, hmarks⟩ := marks_empty_lastStop h
      exact ⟨_, before, [], after, rfl, hmarks, tokens, h, .inr ⟨hfound, rfl, rfl⟩⟩
  | duplicate name span =>
    obtain ⟨t, ht, hkind, rfl, rfl⟩ := he
    obtain ⟨before, after, hmarks⟩ := marks_of_tokenize h t ht
    refine ⟨t.span, before, t.lexeme, after, rfl, hmarks, ?_⟩
    simp [CompileError.Names, Token.lexeme, hkind]
  | unresolvedOperator symbol span => exact hquoting.elim
  | lowering fault span => exact hquoting.elim

/-- An error that points at the tokens of a text has a span in the text. -/
theorem CompileError.PointsAt.sited (h : tokenize text = .ok tokens) {e : CompileError}
    (he : e.PointsAt tokens) : e.Sited text := by
  have hquoted (hquoting : e.IsQuoting) (htext : Addressable text) :
      ∃ span before piece after, e.span? = some span ∧ span.Cuts text.toList before piece after ∧
        e.Names text piece after := by
    obtain ⟨span, before, piece, after, hspan, hmarks, hnames⟩ := he.marks h hquoting
    exact ⟨span, before, piece, after, hspan, hmarks.cuts htext, hnames⟩
  cases e with
  | lexical fault span => exact he.elim
  | parse fault span => exact ⟨⟨span, rfl⟩, he.marks h, hquoted trivial⟩
  | duplicate name span => exact ⟨⟨span, rfl⟩, he.marks h, hquoted trivial⟩
  | unresolvedOperator symbol span =>
    refine ⟨⟨span, rfl⟩, False.elim, fun htext => ?_⟩
    obtain ⟨before, piece, after, hcuts⟩ := Span.Anchored.cuts he htext h
    exact ⟨span, before, piece, after, rfl, hcuts, trivial⟩
  | lowering fault span =>
    obtain ⟨span, rfl, hspan⟩ := he
    refine ⟨⟨span, rfl⟩, False.elim, fun htext => ?_⟩
    obtain ⟨before, piece, after, hcuts⟩ := hspan.cuts htext h
    exact ⟨span, before, piece, after, rfl, hcuts, trivial⟩

theorem sited_of_tokenize_error {e : CompileError} (h : tokenize text = .error e) :
    e.Sited text := by
  obtain ⟨f, span, rfl, before, piece, after, hmarks, hnames⟩ := marks_of_tokenize_error h
  exact ⟨⟨span, rfl⟩, fun _ => ⟨span, before, piece, after, rfl, hmarks, hnames⟩,
    fun htext => ⟨span, before, piece, after, rfl, hmarks.cuts htext, hnames⟩⟩

theorem sited_of_compile_error {options : Options} {e : CompileError}
    (h : compile text options = .error e) : e.Sited text := by
  simp only [compile, bind, Except.bind] at h
  cases htokens : tokenize text with
  | error e' =>
    rw [htokens] at h
    exact Except.error.inj h ▸ sited_of_tokenize_error htokens
  | ok tokens =>
    rw [htokens] at h
    simp only at h
    cases hparsed : parse tokens with
    | error e' =>
      rw [hparsed] at h
      obtain rfl := Except.error.inj h
      exact (pointsAt_of_parse_error hparsed).sited htokens
    | ok parsed =>
      rw [hparsed] at h
      simp only at h
      cases hlower : lower parsed.tree parsed.scope text options with
      | error e' =>
        rw [hlower] at h
        obtain rfl := Except.error.inj h
        exact (pointsAt_of_lower_error hparsed hlower).sited htokens
      | ok code =>
        rw [hlower] at h
        cases h

end Units

/-- A class that declares a field twice. -/
def twiceText : String := "class Pair \x7b\n  field int left, left;\n\x7d\n"

end Jack

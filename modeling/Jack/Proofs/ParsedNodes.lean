import Jack.Proofs.NodeTokens

/-!
# Parsed nodes

Every node that the parser makes is made up of the tokens that it was read from.  `Parser.Lays` says
of a parser what the tokens have come to that were taken since the cursor stood at some earlier
place, so that a production can be traced through its parts from its first token on.

* `Parser.lays_expression`, `Parser.lays_statements`, `Parser.lays_classDec` : what the productions
  answer is made up of the tokens that they take;
* `stands_of_parse` : **a parsed class is made up of its tokens**, and so are all nodes in it.
-/

namespace Jack

/-- The node is laid out over the tokens: they are what `Node.Stands` asks for, but for being what
the node is written with. -/
structure Node.Framed (tokens : List Token) (n : Node) : Prop where
  /-- There is something to see of the node. -/
  ne : n.visible tokens ≠ []
  /-- Its span reaches over the tokens that it is to reach over. -/
  span_eq : Ordered (n.visible tokens) → n.span = spanOver (n.visible tokens)
  /-- Its parts stand among them. -/
  standIn : StandIn (n.visible tokens) n.children

theorem Node.Framed.stands {tokens : List Token} {n : Node} (h : n.Framed tokens)
    (hspells : List.Forall₂ Token.Spells tokens n.terminals) : n.Stands tokens :=
  .mk hspells h.ne h.span_eq h.standIn

/-- The nodes stand among the tokens, of which there is one at least. -/
structure Laid (tokens : List Token) (ns : List Node) : Prop where
  /-- The nodes stand among the tokens. -/
  standIn : StandIn tokens ns
  /-- There is a token. -/
  ne : tokens ≠ []

theorem StandIn.laid_node {tokens piece : List Token} {ns : List Node} {n : Node}
    (h : StandIn tokens ns) (hn : n.Stands piece) : Laid (tokens ++ piece) (ns ++ [n]) :=
  ⟨h.node hn, fun hnil => hn.ne (List.append_eq_nil_iff.1 hnil).2⟩

theorem Cursor.offset_of_rest {c : Cursor} {t : Token} {ts : List Token} (h : c.rest = t :: ts) :
    c.offset = t.span.start := by
  rw [offset, h]

theorem Cursor.Passes.offset_eq {c c' : Cursor} {t : Token} {ts : List Token}
    (h : c.Passes (t :: ts) c') : c.offset = t.span.start :=
  offset_of_rest h.rest_eq

theorem Cursor.Passes.unique {c c' : Cursor} {taken taken' : List Token} (h : c.Passes taken c')
    (h' : c.Passes taken' c') : taken = taken' :=
  List.append_cancel_right (h.rest_eq.symm.trans h'.rest_eq)

namespace Parser

variable {α β σ : Type}

/-! ### Tokens since an earlier place -/

/-- Where the tokens `before` have been taken since the cursor stood at `c₀`, the parser takes more
of them, and what they have come to then goes with its answer. -/
def Lays (c₀ : Cursor) (before : List Token) (p : Parser α) (Q : List Token → α → Prop) : Prop :=
  ∀ ⦃c : Cursor⦄ ⦃a : α⦄ ⦃c' : Cursor⦄, c₀.Passes before c → p c = .ok (a, c') →
    ∃ now, c₀.Passes now c' ∧ Q now a

section Combinators

variable {c₀ : Cursor} {before : List Token} {p : Parser α} {f : α → Parser β}
  {P : List Token → α → Prop} {Q : List Token → β → Prop}

theorem Lays.bind (hp : Lays c₀ before p P) (hf : ∀ a now, P now a → Lays c₀ now (f a) Q) :
    Lays c₀ before (p >>= f) Q := by
  intro c b c'' hc h
  obtain ⟨a, c', ha, hb⟩ := bind_eq_ok_iff.1 h
  obtain ⟨now, hnow, hP⟩ := hp hc ha
  exact hf a now hP hnow hb

theorem Lays.mono {P' : List Token → α → Prop} (hp : Lays c₀ before p P)
    (h : ∀ now a, P now a → P' now a) : Lays c₀ before p P' := by
  intro c a c' hc ha
  obtain ⟨now, hnow, hP⟩ := hp hc ha
  exact ⟨now, hnow, h now a hP⟩

theorem lays_pure {a : α} (h : P before a) : Lays c₀ before (pure a) P := by
  intro c b c' hc hb
  obtain ⟨rfl, rfl⟩ := pure_eq_ok_iff.1 hb
  exact ⟨before, hc, h⟩

theorem lays_fail (expected : Expectation) (rule : Rule) (P : List Token → α → Prop) :
    Lays c₀ before (fail expected rule) P := by
  intro c a c' _ h
  simp [fail] at h

theorem Stays.lays (hp : Stays p) (hf : ∀ a, Lays c₀ before (f a) Q) :
    Lays c₀ before (p >>= f) Q := by
  intro c b c'' hc h
  obtain ⟨a, c', ha, hb⟩ := bind_eq_ok_iff.1 h
  obtain rfl := hp ha
  exact hf a hc hb

theorem lays_offset {f : Offset → Parser β} (hf : Lays c₀ [] (f c₀.offset) Q) :
    Lays c₀ [] (offset >>= f) Q := by
  intro c b c'' hc h
  obtain ⟨a, c', ha, hb⟩ := bind_eq_ok_iff.1 h
  obtain ⟨rfl, rfl⟩ := Prod.mk.inj (Except.ok.inj ha)
  obtain rfl := hc.eq_of_nil
  exact hf hc hb

/-- The span since the earlier place is that over the tokens. -/
theorem lays_spanFrom {f : Span → Parser β} (hne : before ≠ [])
    (hf : ∀ span, (Ordered before → span = spanOver before) → Lays c₀ before (f span) Q) :
    Lays c₀ before (spanFrom c₀.offset >>= f) Q := by
  intro c b c'' hc h
  obtain ⟨span, c', hspan, hb⟩ := bind_eq_ok_iff.1 h
  obtain ⟨rfl, rfl⟩ := Prod.mk.inj (Except.ok.inj hspan)
  refine hf _ (fun ho => ?_) hc hb
  have hstart : c₀.offset = firstStart before := by
    obtain ⟨t, ts, rfl⟩ := List.exists_cons_of_ne_nil hne
    exact hc.offset_eq
  have hstop : c.lastStop = lastStop before := by
    rcases List.eq_nil_or_concat before with rfl | ⟨init, last, rfl⟩
    · exact absurd rfl hne
    · rw [List.concat_eq_append] at hc ⊢
      rw [lastStop_append_singleton, Cursor.lastStop, hc.passed_eq]
      simp
  obtain ⟨t, ht, hfirst⟩ := exists_firstStart_eq hne
  have hle : firstStart before ≤ lastStop before :=
    hfirst ▸ (ho.forward t ht).trans (ho.le_lastStop ht)
  rw [Cursor.spanFrom, hstart, hstop, spanOver, max_eq_left hle]

theorem lays_next {select : Token → Option α} {expected : Expectation} {rule : Rule}
    (h : ∀ t a, select t = some a → P (before ++ [t]) a) :
    Lays c₀ before (next select expected rule) P := by
  intro c a c' hc ha
  obtain ⟨t, ht, htaken⟩ := next_eq_ok_iff.1 ha
  exact ⟨before ++ [t], hc.trans htaken, h t a ht⟩

theorem lays_next? {select : Token → Option α} {P : List Token → Option α → Prop}
    (hsome : ∀ t a, select t = some a → P (before ++ [t]) (some a)) (hnone : P before none) :
    Lays c₀ before (next? select) P := by
  intro c a c' hc ha
  cases a with
  | some a =>
    obtain ⟨t, ht, htaken⟩ := next?_eq_some_iff.1 ha
    exact ⟨before ++ [t], hc.trans htaken, hsome t a ht⟩
  | none =>
    obtain ⟨-, rfl⟩ := next?_eq_none_iff.1 ha
    exact ⟨before, hc, hnone⟩

/-- What each round of a repetition keeps, the repetition keeps. -/
theorem lays_fold {lead : Token → Option β} {item : σ → β → Parser σ} {I : List Token → σ → Prop}
    (hitem : ∀ t b, lead t = some b → ∀ now s, I now s → Lays c₀ (now ++ [t]) (item s b) I)
    {s : σ} (hs : I before s) : Lays c₀ before (fold lead item s) I := by
  intro c a c' hc h
  unfold fold at h
  generalize c.rest = rounds at h
  induction rounds generalizing s c before with
  | nil =>
    obtain ⟨rfl, rfl⟩ := Prod.mk.inj (Except.ok.inj h)
    exact ⟨before, hc, hs⟩
  | cons r rounds ih =>
    rw [foldRounds] at h
    split at h
    · cases h
    · next hb =>
      obtain ⟨-, rfl⟩ := next?_eq_none_iff.1 hb
      obtain ⟨rfl, rfl⟩ := Prod.mk.inj (Except.ok.inj h)
      exact ⟨before, hc, hs⟩
    · next b c₁ hb =>
      obtain ⟨t, ht, htaken⟩ := next?_eq_some_iff.1 hb
      split at h
      · cases h
      · next s₁ c₂ hs₁ =>
        obtain ⟨now, hnow, hI⟩ := hitem t b ht before s hs (hc.trans htaken) hs₁
        exact ih hI hnow h

theorem lays_commaSeparated {item : σ → Parser σ} {I : List Token → σ → Prop}
    (hcomma : ∀ t now s, I now s → I (now ++ [t]) s)
    (hitem : ∀ now s, I now s → Lays c₀ now (item s) I) {s : σ} (hs : I before s) :
    Lays c₀ before (commaSeparated item s) I :=
  (hitem before s hs).bind fun _ _ hfirst =>
    lays_fold (fun t _ _ now s h => hitem (now ++ [t]) s (hcomma t now s h)) hfirst

/-- What holds of the tokens since a later place holds of the last ones since an earlier place. -/
theorem Lays.frame {mid : List Token}
    (h : ∀ c₁ c : Cursor, c₁.Passes mid c → Lays c₁ mid p P) :
    Lays c₀ (before ++ mid) p fun now a => ∃ piece, now = before ++ piece ∧ P piece a := by
  intro c a c' hc ha
  obtain ⟨c₁, hbefore, hmid⟩ := hc.split
  obtain ⟨piece, hpiece, hP⟩ := h c₁ c hmid hmid ha
  exact ⟨before ++ piece, hbefore.trans hpiece, piece, rfl, hP⟩

end Combinators

/-! ### Nodes -/

section Nodes

variable {c₀ : Cursor} {before : List Token} {ns : List Node} {p : Parser α}
  {expected : Expectation} {rule : Rule}

/-- What holds of the tokens since a place holds of the last ones since an earlier place. -/
theorem lays_behind {P : List Token → α → Prop} (h : ∀ c₁, Lays c₁ [] p P) :
    Lays c₀ before p fun now a => ∃ piece, now = before ++ piece ∧ P piece a := by
  have hframe : Lays c₀ (before ++ []) p fun now a => ∃ piece, now = before ++ piece ∧ P piece a :=
    .frame fun c₁ _ _ => h c₁
  rwa [List.append_nil] at hframe

theorem lays_token {select : Token → Option α} (h : StandIn before ns) :
    Lays c₀ before (next select expected rule) fun now _ => Laid now ns :=
  lays_next fun t _ _ => ⟨.skip t h, by simp⟩

theorem lays_token? {select : Token → Option α} (h : Laid before ns) :
    Lays c₀ before (next? select) fun now _ => Laid now ns :=
  lays_next? (fun t _ _ => ⟨.skip t h.standIn, by simp⟩) h

/-- Nodes are added to those that stand among the tokens. -/
theorem lays_parts {nodes : α → List Node} (h : Laid before ns)
    (hp : ∀ c₁, Lays c₁ [] p fun now a => StandIn now (nodes a)) :
    Lays c₀ before p fun now a => Laid now (ns ++ nodes a) := by
  refine (lays_behind hp).mono ?_
  rintro now a ⟨piece, rfl, hpiece⟩
  exact ⟨h.standIn.append hpiece, by simp [h.ne]⟩

variable {node : α → Node}

theorem lays_child (h : StandIn before ns)
    (hp : ∀ c₁, Lays c₁ [] p fun now a => (node a).Stands now) :
    Lays c₀ before p fun now a => Laid now (ns ++ [node a]) := by
  refine (lays_behind hp).mono ?_
  rintro now a ⟨piece, rfl, hpiece⟩
  exact h.laid_node hpiece

/-- A node that begins with a token which has been taken. -/
theorem lays_led {t : Token} (h : StandIn before ns) (hp : ∀ c₁ : Cursor,
    c₁.offset = t.span.start → Lays c₁ [t] p fun now a => (node a).Stands now) :
    Lays c₀ (before ++ [t]) p fun now a => Laid now (ns ++ [node a]) := by
  refine (Lays.frame fun c₁ _ hc => hp c₁ hc.offset_eq).mono ?_
  rintro now a ⟨piece, rfl, hpiece⟩
  exact h.laid_node hpiece

/-- A node is laid out over the tokens since its first one, if its parts stand among them. -/
theorem lays_node {make : Span → α} (h : Laid before ns)
    (hvisible : ∀ span tokens, (node (make span)).visible tokens = tokens)
    (hspan : ∀ span, (node (make span)).span = span)
    (hchildren : ∀ span, (node (make span)).children = ns) :
    Lays c₀ before (spanFrom c₀.offset >>= fun span => pure (make span))
      fun now a => (node a).Framed now := by
  refine lays_spanFrom h.ne fun span hover => lays_pure ⟨?_, fun ho => ?_, ?_⟩
  · rw [hvisible]
    exact h.ne
  · rw [hvisible] at ho ⊢
    rw [hspan, hover ho]
  · rw [hvisible, hchildren]
    exact h.standIn

/-- A node is made up of the tokens if they are what it is written with. -/
theorem Lays.stands {ws₀ : List Terminal} {R : List Terminal → α → Prop}
    (h : Lays c₀ before p fun now a => (node a).Framed now)
    (hbefore : List.Forall₂ Token.Spells before ws₀) (hr : Reads p R)
    (hR : ∀ ws a, R ws a → ws₀ ++ ws = (node a).terminals) :
    Lays c₀ before p fun now a => (node a).Stands now := by
  intro c a c' hc ha
  obtain ⟨now, hnow, hframed⟩ := h hc ha
  obtain ⟨taken, ws, htaken, hws, hRa⟩ := hr ha
  obtain rfl := hnow.unique (hc.trans htaken)
  exact ⟨_, hnow, hframed.stands (hR ws a hRa ▸ List.rel_append hbefore hws)⟩

end Nodes

/-! ### Names -/

section Names

variable {t : Token} {name : Ident}

theorem stands_ident (h : ident? t = some name) : (Node.ident name).Stands [t] := by
  refine .mk (.cons (spells_of_ident? h) .nil) (by simp [Node.visible]) (fun _ => ?_) (.skip t .nil)
  obtain ⟨text, -, rfl⟩ := Option.map_eq_some_iff.1 h
  rfl

theorem stands_nameUse (resolve : String → Meaning) (h : ident? t = some name) :
    (Node.nameUse (nameUse resolve name)).Stands [t] := by
  refine .mk (.cons (spells_of_ident? h) .nil) (by simp [Node.visible]) (fun _ => ?_) (.skip t .nil)
  obtain ⟨text, -, rfl⟩ := Option.map_eq_some_iff.1 h
  rfl

variable {c₀ : Cursor} {before : List Token} {ns : List Node} {rule : Rule}

theorem lays_identifier : Lays c₀ before (identifier rule) fun now name =>
    ∃ t, now = before ++ [t] ∧ ident? t = some name :=
  lays_next fun t _ h => ⟨t, rfl, h⟩

theorem lays_ident (h : StandIn before ns) :
    Lays c₀ before (identifier rule) fun now name => Laid now (ns ++ [.ident name]) :=
  lays_next fun t _ ht => ⟨.node h (stands_ident ht), by simp⟩

theorem lays_nameUse (resolve : String → Meaning) (h : StandIn before ns) :
    Lays c₀ before (identifier rule)
      fun now name => Laid now (ns ++ [.nameUse (nameUse resolve name)]) :=
  lays_next fun t _ ht => ⟨.node h (stands_nameUse resolve ht), by simp⟩

end Names

/-! ### Expressions -/

section Expressions

variable (resolve : String → Meaning) {n : Nat} {expression : Parser Expr} {operand : Parser Term}
  (he : ∀ c₁, Lays c₁ [] expression fun now e => (Node.expr e).Stands now)
  (ho : ∀ c₁, Lays c₁ [] operand fun now t => (Node.term t).Stands now)
  (hexpr : Reads expression (Written Expr.terminals Expr.nesting n))
  (hoperand : Reads operand (Written Term.terminals (·.nesting + 1) n))

include he in
theorem lays_arguments (c₀ : Cursor) :
    Lays c₀ [] (arguments expression) fun now es => StandIn now (es.map .expr) := by
  unfold arguments
  refine (stays_atSymbol _).lays fun atEnd => ?_
  split
  · exact lays_pure .nil
  · refine (lays_commaSeparated
      (I := fun now (done : List Expr) => StandIn now (done.reverse.map .expr))
      (fun t now done h => h.skip t) (fun now done h => ?_) .nil).bind fun done now h => lays_pure h
    refine (lays_child h he).bind fun e now' h' => lays_pure ?_
    simpa using h'.standIn

theorem lays_callee {c₀ : Cursor} {t : Token} {first : Ident} (h : ident? t = some first) :
    Lays c₀ [t] (callee resolve first)
      fun now r => Laid now (r.1.toList.map .nameUse ++ [.ident r.2]) := by
  refine Lays.bind (P := fun now dot => if dot.isSome then ∃ u, now = [t, u] else now = [t])
    (lays_next? (fun u _ _ => ⟨u, rfl⟩) rfl) fun dot now hnow => ?_
  cases dot with
  | some u =>
    obtain ⟨u, rfl⟩ := hnow
    have hreceiver : StandIn [t, u] [.nameUse (nameUse resolve first)] :=
      .skip u (.singleton (stands_nameUse resolve h))
    exact (lays_ident hreceiver).bind fun name now hname => lays_pure hname
  | none =>
    obtain rfl := hnow
    exact lays_pure ⟨.singleton (stands_ident h), by simp⟩

include he hexpr in
theorem lays_subroutineCall (c₀ : Cursor) : Lays c₀ [] (subroutineCall resolve expression)
    fun now call => (Node.call call).Stands now := by
  refine Lays.stands ?_ .nil (reads_subroutineCall resolve hexpr) fun ws call h => h.1
  refine lays_offset (lays_identifier.bind ?_)
  rintro first _ ⟨t, rfl, ht⟩
  refine (lays_callee resolve ht).bind fun r now hr => (lays_token hr.standIn).bind ?_
  intro _ now hopen
  refine (lays_parts hopen (lays_arguments he)).bind fun arguments now harguments => ?_
  refine (lays_token harguments.standIn).bind fun _ now hclose => ?_
  exact lays_node hclose (fun _ _ => rfl) (fun _ => rfl) (fun _ => by simp [Node.children])

include he ho in
theorem lays_symbolTerm {c₀ : Cursor} {t : Token} (ht : c₀.offset = t.span.start) :
    Lays c₀ [] (symbolTerm expression operand t) fun now a => (Node.term a).Framed now := by
  unfold symbolTerm
  rw [← ht]
  split
  · refine (lays_token .nil).bind fun _ now hopen => (lays_child hopen.standIn he).bind ?_
    intro inner now hinner
    refine (lays_token hinner.standIn).bind fun _ now hclose => ?_
    exact lays_node hclose (fun _ _ => rfl) (fun _ => rfl) (fun _ => rfl)
  · refine (lays_token .nil).bind fun op now hop => (lays_child hop.standIn ho).bind ?_
    intro operand now hoperand
    exact lays_node hoperand (fun _ _ => rfl) (fun _ => rfl) (fun _ => rfl)

/-- An element of an array is seen up to the end of its index. -/
theorem framed_element {t u v : Token} {piece : List Token} {array : NameUse} {index : Expr}
    (harray : (Node.nameUse array).Stands [t]) (hindex : (Node.expr index).Stands piece) :
    (Node.term (.element array index)).Framed ([t, u] ++ piece ++ [v]) := by
  have hvisible : (Node.term (.element array index)).visible ([t, u] ++ piece ++ [v]) =
      [t, u] ++ piece := List.dropLast_concat
  refine ⟨?_, fun ho => ?_, ?_⟩
  · rw [hvisible]
    simp
  · rw [hvisible] at ho ⊢
    have hlead : Ordered [t] := ho.sublist (by simp)
    have harraySpan : array.span = t.span := harray.span_eq hlead
    have hindexSpan : index.span = spanOver piece :=
      hindex.span_eq (ho.sublist (List.sublist_append_right ..))
    obtain ⟨first, hfirst, hstart⟩ := exists_firstStart_eq hindex.ne
    have hle : t.span.start ≤ firstStart piece :=
      hstart ▸ ho.firstStart_le (List.mem_append_right _ hfirst)
    have hstop : lastStop ([t, u] ++ piece) = lastStop piece := lastStop_append_of_ne_nil hindex.ne
    have hle' : t.span.stop ≤ lastStop piece := hstop ▸ ho.le_lastStop (by simp)
    change array.span.cover index.span = _
    rw [harraySpan, hindexSpan, Span.cover, spanOver, spanOver, hstop, min_eq_left hle,
      max_eq_right hle']
    rfl
  · rw [hvisible]
    exact .node (.skip u (.singleton harray)) hindex

include he hexpr in
theorem lays_nameTerm (c₀ : Cursor) (after : Option Token) :
    Lays c₀ [] (nameTerm resolve expression after) fun now a => (Node.term a).Framed now := by
  have hcall : Lays c₀ [] (do return Term.call (← subroutineCall resolve expression))
      fun now a => (Node.term a).Framed now := by
    refine (lays_subroutineCall resolve he hexpr c₀).bind fun call now h => lays_pure ?_
    exact ⟨h.ne, h.span_eq, .singleton h⟩
  unfold nameTerm
  split
  · refine lays_identifier.bind ?_
    rintro name _ ⟨t, rfl, ht⟩
    refine (lays_next (P := fun now _ => ∃ u, now = [t, u]) fun u _ _ => ⟨u, rfl⟩).bind ?_
    rintro _ _ ⟨u, rfl⟩
    refine (lays_behind he).bind ?_
    rintro index _ ⟨piece, rfl, hindex⟩
    refine (lays_next (P := fun now _ => ∃ v, now = [t, u] ++ piece ++ [v])
      fun v _ _ => ⟨v, rfl⟩).bind ?_
    rintro _ _ ⟨v, rfl⟩
    exact lays_pure (framed_element (stands_nameUse resolve ht) hindex)
  · exact hcall
  · exact hcall
  · refine lays_identifier.bind ?_
    rintro name _ ⟨t, rfl, ht⟩
    have hname := stands_nameUse resolve ht
    exact lays_pure ⟨hname.ne, hname.span_eq, .singleton hname⟩

/-- A token that is a term of its own. -/
theorem lays_constant {c₀ : Cursor} {make : Token → Option Term} {expected : Expectation}
    (h : ∀ t a, make t = some a → a.children = [] ∧ (Node.term a).visible [t] = [t] ∧
      a.span = t.span) :
    Lays c₀ [] (constant make expected) fun now a => (Node.term a).Framed now := by
  refine lays_next fun t a ha => ?_
  obtain ⟨hchildren, hvisible, hspan⟩ := h t a ha
  rw [List.nil_append]
  refine ⟨by simp [hvisible], fun _ => ?_, ?_⟩
  · rw [hvisible]
    exact hspan
  · rw [hvisible, Node.children, hchildren]
    exact .skip t .nil

include he ho hexpr hoperand in
theorem lays_termWith (c₀ : Cursor) :
    Lays c₀ [] (termWith resolve expression operand) fun now a => (Node.term a).Stands now := by
  refine Lays.stands ?_ .nil (reads_termWith resolve hexpr hoperand) fun ws a h => h.1
  intro c a c' hc h
  unfold termWith at h
  split at h
  · simp [fail] at h
  · next t after hrest =>
    have hoffset : c₀.offset = t.span.start :=
      Cursor.offset_of_rest (hc.rest_eq.trans hrest)
    split at h
    · refine lays_constant (fun t a ha => ?_) hc h
      obtain ⟨value, -, rfl⟩ := Option.map_eq_some_iff.1 ha
      exact ⟨rfl, rfl, rfl⟩
    · refine lays_constant (fun t a ha => ?_) hc h
      obtain rfl := Option.some.inj ha
      exact ⟨rfl, rfl, rfl⟩
    · refine lays_constant (fun t a ha => ?_) hc h
      obtain ⟨value, -, rfl⟩ := Option.map_eq_some_iff.1 ha
      exact ⟨rfl, rfl, rfl⟩
    · exact lays_symbolTerm he ho hoffset hc h
    · exact lays_nameTerm resolve he hexpr c₀ _ hc h

variable {term : Parser Term}

theorem lays_expressionWith (ht : ∀ c₁, Lays c₁ [] term fun now t => (Node.term t).Stands now)
    (hterm : Reads term (Written Term.terminals Term.nesting n)) (c₀ : Cursor) :
    Lays c₀ [] (expressionWith term) fun now e => (Node.expr e).Stands now := by
  refine Lays.stands ?_ .nil (reads_expressionWith hterm) fun ws e h => h.1
  refine lays_offset ((lays_child .nil ht).bind fun head now hhead => ?_)
  refine (lays_fold (I := fun now (done : List (BinaryOp × Term)) =>
    Laid now (.term head :: done.reverse.map fun p => .term p.2)) ?_ hhead).bind ?_
  · intro t op _ now done h
    refine (lays_child (h.standIn.skip t) ht).bind fun a now' h' => lays_pure ?_
    simpa using h'
  · intro done now h
    exact lays_node h (fun _ _ => rfl) (fun _ => rfl) (fun _ => rfl)

end Expressions

section Levels

variable (resolve : String → Meaning)

theorem lays_term (levels : Nat) :
    ∀ c₀, Lays c₀ [] (term resolve levels) fun now t => (Node.term t).Stands now := by
  induction levels with
  | zero =>
    exact lays_termWith (n := 0) resolve (fun _ => lays_fail _ _ _) (fun _ => lays_fail _ _ _)
      (reads_fail _ _ _) (reads_fail _ _ _)
  | succ levels ih =>
    have hoperand : Reads (term resolve levels)
        (Written Term.terminals (·.nesting + 1) (levels + 1)) :=
      (reads_term resolve levels).mono fun _ _ h => ⟨h.1, Nat.succ_le_succ h.2⟩
    exact lays_termWith resolve (lays_expressionWith ih (reads_term resolve levels)) ih
      (reads_expressionWith (reads_term resolve levels)) hoperand

/-- An expression is made up of the tokens that it is read from. -/
theorem lays_expression (levels : Nat) :
    ∀ c₀, Lays c₀ [] (expression resolve levels) fun now e => (Node.expr e).Stands now := by
  cases levels with
  | zero => exact fun _ => lays_fail _ _ _
  | succ levels => exact lays_expressionWith (lays_term resolve levels) (reads_term resolve levels)

end Levels

/-! ### Statements -/

section Statements

variable (resolve : String → Meaning) {n : Nat} {expression : Parser Expr}
  {statements : Parser (List Statement)} {c₀ : Cursor} {before : List Token} {ns : List Node}
  (he : ∀ c₁, Lays c₁ [] expression fun now e => (Node.expr e).Stands now)
  (hs : ∀ c₁, Lays c₁ [] statements fun now ss => StandIn now (ss.map .statement))
  (hexpr : Reads expression (Written Expr.terminals Expr.nesting n))
  (hstatements : Reads statements (Written statementsTerminals (statementsNesting · + 1) n))

include hs in
theorem lays_block (rule : Rule) (h : StandIn before ns) :
    Lays c₀ before (block rule statements)
      fun now body => Laid now (ns ++ body.map .statement) := by
  refine (lays_token h).bind fun _ now hopen => (lays_parts hopen hs).bind fun body now hbody => ?_
  exact (lays_token hbody.standIn).bind fun _ now hclose => lays_pure hclose

include he in
theorem lays_condition (rule : Rule) (h : StandIn before ns) :
    Lays c₀ before (condition rule expression) fun now e => Laid now (ns ++ [.expr e]) := by
  refine (lays_token h).bind fun _ now hopen => (lays_child hopen.standIn he).bind ?_
  intro e now h'
  exact (lays_token h'.standIn).bind fun _ now hclose => lays_pure hclose

include he in
theorem lays_targetIndex (h : Laid before ns) :
    Lays c₀ before (targetIndex expression)
      fun now index => Laid now (ns ++ index.toList.map .expr) := by
  refine (lays_token? h).bind fun bracket now hbracket => ?_
  cases bracket with
  | some _ =>
    refine (lays_child hbracket.standIn he).bind fun index now hindex => ?_
    exact (lays_token hindex.standIn).bind fun _ now hclose => lays_pure hclose
  | none => exact lays_pure (by simpa using hbracket)

variable {t : Token}

include he in
theorem lays_letStatement (ht : c₀.offset = t.span.start) :
    Lays c₀ [t] (letStatement resolve expression t.span.start)
      fun now s => (Node.statement s).Framed now := by
  rw [← ht]
  refine (lays_nameUse resolve (.skip t .nil)).bind fun target now htarget => ?_
  refine (lays_targetIndex he htarget).bind fun index now hindex => ?_
  refine (lays_token hindex.standIn).bind fun _ now heq => (lays_child heq.standIn he).bind ?_
  intro value now hvalue
  refine (lays_token hvalue.standIn).bind fun _ now hend => ?_
  exact lays_node hend (fun _ _ => rfl) (fun _ => rfl)
    (fun _ => by simp [Node.children, Statement.children])

include he hs in
theorem lays_ifStatement (ht : c₀.offset = t.span.start) :
    Lays c₀ [t] (ifStatement expression statements t.span.start)
      fun now s => (Node.statement s).Framed now := by
  rw [← ht]
  refine (lays_condition he _ (.skip t .nil)).bind fun condition now hcondition => ?_
  refine (lays_block hs _ hcondition.standIn).bind fun thenBody now hthen => ?_
  refine (lays_token? hthen).bind fun word now hword => ?_
  cases word with
  | some _ =>
    refine (lays_block hs _ hword.standIn).bind fun elseBody now helse => ?_
    exact lays_node helse (fun _ _ => rfl) (fun _ => rfl)
      (fun _ => by simp [Node.children, Statement.children])
  | none =>
    exact lays_node hword (fun _ _ => rfl) (fun _ => rfl)
      (fun _ => by simp [Node.children, Statement.children])

include he hs in
theorem lays_whileStatement (ht : c₀.offset = t.span.start) :
    Lays c₀ [t] (whileStatement expression statements t.span.start)
      fun now s => (Node.statement s).Framed now := by
  rw [← ht]
  refine (lays_condition he _ (.skip t .nil)).bind fun condition now hcondition => ?_
  refine (lays_block hs _ hcondition.standIn).bind fun body now hbody => ?_
  exact lays_node hbody (fun _ _ => rfl) (fun _ => rfl)
    (fun _ => by simp [Node.children, Statement.children])

include he hexpr in
theorem lays_doStatement (ht : c₀.offset = t.span.start) :
    Lays c₀ [t] (doStatement resolve expression t.span.start)
      fun now s => (Node.statement s).Framed now := by
  rw [← ht]
  refine (lays_child (.skip t .nil) (lays_subroutineCall resolve he hexpr)).bind ?_
  intro call now hcall
  refine (lays_token hcall.standIn).bind fun _ now hend => ?_
  exact lays_node hend (fun _ _ => rfl) (fun _ => rfl) (fun _ => rfl)

include he in
theorem lays_returnStatement (ht : c₀.offset = t.span.start) :
    Lays c₀ [t] (returnStatement expression t.span.start)
      fun now s => (Node.statement s).Framed now := by
  have hvalue : Lays c₀ [t] (returnValue expression)
      fun now value => StandIn now (value.toList.map .expr) := by
    unfold returnValue
    refine (stays_atSymbol _).lays fun atEnd => ?_
    split
    · exact lays_pure (.skip t .nil)
    · refine (lays_child (.skip t .nil) he).bind fun value now h => lays_pure ?_
      exact h.standIn
  rw [← ht]
  refine hvalue.bind fun value now hvalue => (lays_token hvalue).bind fun _ now hend => ?_
  exact lays_node hend (fun _ _ => rfl) (fun _ => rfl) (fun _ => rfl)

include he hs hexpr hstatements in
theorem lays_statementWith {lead : Offset × StatementWord} (ht : c₀.offset = t.span.start)
    (hlead : statementLead t = some lead) :
    Lays c₀ [t] (statementWith resolve expression statements lead)
      fun now s => (Node.statement s).Stands now := by
  refine Lays.stands ?_ (.cons (spells_of_statementLead hlead) .nil)
    (reads_statementWith resolve hexpr hstatements lead) fun ws s h => h.1
  obtain ⟨word, -, rfl⟩ := Option.map_eq_some_iff.1 hlead
  cases word with
  | letWord => exact lays_letStatement resolve he ht
  | ifWord => exact lays_ifStatement he hs ht
  | whileWord => exact lays_whileStatement he hs ht
  | doWord => exact lays_doStatement resolve he hexpr ht
  | returnWord => exact lays_returnStatement he ht

include he hs hexpr hstatements in
theorem lays_statementsWith (c₀ : Cursor) :
    Lays c₀ [] (statementsWith resolve expression statements)
      fun now ss => StandIn now (ss.map .statement) := by
  refine (lays_fold (I := fun now (done : List Statement) =>
    StandIn now (done.reverse.map .statement)) ?_ .nil).bind fun done now h => lays_pure h
  intro t lead hlead now done h
  refine (lays_led h fun c₁ ht =>
    lays_statementWith resolve he hs hexpr hstatements ht hlead).bind fun s now' h' => ?_
  exact lays_pure (by simpa using h'.standIn)

end Statements

/-- Statements are made up of the tokens that they are read from. -/
theorem lays_statements (resolve : String → Meaning) (levels : Nat) :
    ∀ c₀, Lays c₀ [] (statements resolve levels)
      fun now ss => StandIn now (ss.map .statement) := by
  induction levels with
  | zero => exact fun _ => lays_fail _ _ _
  | succ levels ih =>
    exact lays_statementsWith resolve (lays_expression resolve levels) ih
      (reads_expression resolve levels) (reads_statements resolve levels)

/-! ### Declarations -/

section Declarations

variable {c₀ : Cursor} {before : List Token} {ns : List Node} {t : Token}

theorem lays_returnType (h : Laid before ns) :
    Lays c₀ before returnType fun now _ => Laid now ns := by
  refine (lays_token? h).bind fun word now hword => ?_
  cases word with
  | some _ => exact lays_pure hword
  | none => exact (lays_token hword.standIn).bind fun _ now htype => lays_pure htype

theorem lays_declaredNames (rule : Rule) (type : TypeName) (storage : Storage) (scopes : Scopes)
    (h : Laid before ns) :
    Lays c₀ before (declaredNames rule type storage scopes)
      fun now r => Laid now (ns ++ r.1.map .ident) := by
  refine (lays_commaSeparated
    (I := fun now (r : List Ident × Scopes) => Laid now (ns ++ r.1.reverse.map .ident))
    (fun t now r h => ⟨h.standIn.skip t, by simp⟩) (fun now r h => ?_) (by simpa using h)).bind
    fun r now h => lays_pure h
  refine (lays_ident h.standIn).bind fun name now hname => ?_
  refine (stays_declare r.2 name type storage).lays fun scopes => lays_pure ?_
  simpa using hname

theorem start_of_classVarLead {lead : Offset × ClassVarKind} (h : classVarLead t = some lead) :
    lead.1 = t.span.start := by
  rw [classVarLead] at h
  split at h <;> cases h <;> rfl

theorem start_of_subroutineLead {lead : Offset × SubroutineKind}
    (h : subroutineLead t = some lead) : lead.1 = t.span.start := by
  rw [subroutineLead] at h
  split at h <;> cases h <;> rfl

theorem start_of_varLead {start : Offset} (h : varLead t = some start) : start = t.span.start := by
  rw [varLead, Option.ite_none_right_eq_some] at h
  exact (Option.some.inj h.2).symm

theorem lays_classVarDec {lead : Offset × ClassVarKind} (scopes : Scopes)
    (hlead : classVarLead t = some lead) (ht : c₀.offset = t.span.start) :
    Lays c₀ [t] (classVarDec scopes lead.1 lead.2)
      fun now r => (Node.classVarDec r.1).Stands now := by
  refine Lays.stands ?_ (.cons (spells_of_classVarLead hlead) .nil)
    (reads_classVarDec scopes lead.1 lead.2) fun ws r h => h.1
  rw [start_of_classVarLead hlead, ← ht]
  refine (lays_token (.skip t .nil)).bind fun type now htype => ?_
  refine (lays_declaredNames _ _ _ _ htype).bind fun r now hr => ?_
  refine (lays_token hr.standIn).bind fun _ now hend => ?_
  exact lays_node hend (fun _ _ => rfl) (fun _ => rfl) (fun _ => rfl)

theorem lays_varDec {start : Offset} (scopes : Scopes) (hlead : varLead t = some start)
    (ht : c₀.offset = t.span.start) :
    Lays c₀ [t] (varDec scopes start) fun now r => (Node.varDec r.1).Stands now := by
  refine Lays.stands ?_ (.cons (spells_of_varLead hlead) .nil)
    (reads_varDec scopes start) fun ws r h => h.1
  rw [start_of_varLead hlead, ← ht]
  refine (lays_token (.skip t .nil)).bind fun type now htype => ?_
  refine (lays_declaredNames _ _ _ _ htype).bind fun r now hr => ?_
  refine (lays_token hr.standIn).bind fun _ now hend => ?_
  exact lays_node hend (fun _ _ => rfl) (fun _ => rfl) (fun _ => rfl)

theorem lays_classVarDecs (c₀ : Cursor) :
    Lays c₀ [] classVarDecs fun now r => StandIn now (r.1.map .classVarDec) := by
  refine (lays_fold (I := fun now (r : List ClassVarDec × Scopes) =>
    StandIn now (r.1.reverse.map .classVarDec)) ?_ .nil).bind fun r now h => lays_pure h
  intro t lead hlead now r h
  refine (lays_led h fun c₁ ht => lays_classVarDec r.2 hlead ht).bind fun r' now' h' => ?_
  exact lays_pure (by simpa using h'.standIn)

theorem lays_varDecs (scopes : Scopes) (c₀ : Cursor) :
    Lays c₀ [] (varDecs scopes) fun now r => StandIn now (r.1.map .varDec) := by
  refine (lays_fold (I := fun now (r : List VarDec × Scopes) =>
    StandIn now (r.1.reverse.map .varDec)) ?_ .nil).bind fun r now h => lays_pure h
  intro t start hlead now r h
  refine (lays_led h fun c₁ ht => lays_varDec r.2 hlead ht).bind fun r' now' h' => ?_
  exact lays_pure (by simpa using h'.standIn)

theorem lays_parameters (scopes : Scopes) (c₀ : Cursor) :
    Lays c₀ [] (parameters scopes)
      fun now r => StandIn now (r.1.map fun p => .ident p.name) := by
  unfold parameters
  refine (stays_atSymbol _).lays fun atEnd => ?_
  split
  · exact lays_pure .nil
  · refine (lays_commaSeparated (I := fun now (r : List Parameter × Scopes) =>
        StandIn now (r.1.reverse.map fun p : Parameter => .ident p.name))
      (fun t now r h => h.skip t) (fun now r h => ?_) .nil).bind fun r now h => lays_pure h
    refine (lays_token h).bind fun type now htype => (lays_ident htype.standIn).bind ?_
    intro name now hname
    refine (stays_declare r.2 name type .argument).lays fun scopes => lays_pure ?_
    simpa using hname.standIn

theorem lays_subroutineDec {lead : Offset × SubroutineKind} (className : String) (scopes : Scopes)
    (hlead : subroutineLead t = some lead) (ht : c₀.offset = t.span.start) :
    Lays c₀ [t] (subroutineDec className scopes lead.1 lead.2)
      fun now s => (Node.subroutineDec s).Stands now := by
  refine Lays.stands ?_ (.cons (spells_of_subroutineLead hlead) .nil)
    (reads_subroutineDec className scopes lead.1 lead.2) fun ws s h => h.1
  rw [start_of_subroutineLead hlead, ← ht]
  refine (lays_returnType ⟨.skip t .nil, by simp⟩).bind fun type now htype => ?_
  refine (lays_ident htype.standIn).bind fun name now hname => ?_
  refine (stays_subroutineScopes className scopes lead.2 name).lays fun scopes => ?_
  refine (lays_token hname.standIn).bind fun _ now hopen => ?_
  refine (lays_parts hopen (lays_parameters scopes)).bind fun parameters now hparameters => ?_
  refine (lays_token hparameters.standIn).bind fun _ now hclose => ?_
  refine (lays_token hclose.standIn).bind fun _ now hbody => ?_
  refine (lays_parts hbody (lays_varDecs parameters.2)).bind fun decs now hdecs => ?_
  refine (lays_parts hdecs (lays_statements decs.2.resolve maxNesting)).bind ?_
  intro statements now hstatements
  refine (lays_token hstatements.standIn).bind fun _ now hend => ?_
  exact lays_node hend (fun _ _ => rfl) (fun _ => rfl) (fun _ => by simp [Node.children])

theorem lays_subroutineDecs (className : String) (scopes : Scopes) (c₀ : Cursor) :
    Lays c₀ [] (subroutineDecs className scopes)
      fun now ss => StandIn now (ss.map .subroutineDec) := by
  refine (lays_fold (I := fun now (done : List SubroutineDec) =>
    StandIn now (done.reverse.map .subroutineDec)) ?_ .nil).bind fun done now h => lays_pure h
  intro t lead hlead now done h
  refine (lays_led h fun c₁ ht => lays_subroutineDec className scopes hlead ht).bind ?_
  intro s now' h'
  exact lays_pure (by simpa using h'.standIn)

/-- A class is made up of the tokens that it is read from. -/
theorem lays_classDec (c₀ : Cursor) :
    Lays c₀ [] classDec fun now parsed => (Node.classDec parsed.tree).Stands now := by
  refine Lays.stands ?_ .nil reads_classDec fun ws parsed h => h.1
  refine lays_offset ((lays_token .nil).bind fun _ now hword => ?_)
  refine (lays_ident hword.standIn).bind fun name now hname => ?_
  refine (lays_token hname.standIn).bind fun _ now hopen => ?_
  refine (lays_parts hopen lays_classVarDecs).bind fun decs now hdecs => ?_
  refine (lays_parts hdecs (lays_subroutineDecs name.text decs.2)).bind fun subs now hsubs => ?_
  refine (lays_token hsubs.standIn).bind fun _ now hend => ?_
  exact lays_node hend (fun _ _ => rfl) (fun _ => rfl) (fun _ => by simp [Node.children])

end Declarations

end Parser

/-- **A parsed class is made up of its tokens.** -/
theorem stands_of_parse {tokens : List Token} {parsed : ParsedClass}
    (h : parse tokens = .ok parsed) : (Node.classDec parsed.tree).Stands tokens := by
  obtain ⟨c, hclass, hrest⟩ := parse_eq_ok_iff.1 h
  obtain ⟨now, hnow, hstands⟩ := Parser.lays_classDec ⟨[], tokens⟩ (.refl _) hclass
  obtain rfl : tokens = now := by simpa [hrest] using hnow.rest_eq
  exact hstands

end Jack

import Jack.Proofs.ErrorSpan
import Jack.Proofs.Node
import Jack.Proofs.ParsedTree

/-!
# The tokens of a node

Each node of a parsed tree is made up of some of the tokens, one directly behind the other
(`Node.Stands`).  They are what the node is written with, its span reaches from the first of them to
the last, and its parts are made up of some of them in turn, in order and without overlap
(`StandIn`).  A term that is an element of an array is the exception: its span ends with the index,
in front of the bracket that closes it (`Node.visible`).

* `Node.Stands.within` : all nodes within a node that is made up of tokens are so as well;
* `Node.Stands.span_child_le` : the spans of its parts lie in its own one;
* `StandIn.pairwise` : nodes that stand among tokens come one after the other.
-/

namespace Jack

/-! ### Tokens in order -/

/-- The tokens run forward, and none overlaps with another one. -/
structure Ordered (tokens : List Token) : Prop where
  /-- Each of them runs forward. -/
  forward : Forward tokens
  /-- Each of them ends before the ones behind it begin. -/
  pairwise : tokens.Pairwise fun a b => a.span.stop ≤ b.span.start

/-- The start of the first token, or zero. -/
def firstStart (tokens : List Token) : Offset := (tokens.head?.map fun t => t.span.start).getD 0

/-- The span from the start of the first token to the end of the last one. -/
def spanOver (tokens : List Token) : Span := ⟨firstStart tokens, lastStop tokens⟩

section Ordered

variable {ts ts' : List Token} {t : Token}

theorem Ordered.sublist (h : Ordered ts') (hsub : ts.Sublist ts') : Ordered ts :=
  ⟨fun t ht => h.forward t (hsub.subset ht), h.pairwise.sublist hsub⟩

@[simp] theorem firstStart_cons (t : Token) (ts : List Token) :
    firstStart (t :: ts) = t.span.start := rfl

@[simp] theorem lastStop_append_singleton (ts : List Token) (t : Token) :
    lastStop (ts ++ [t]) = t.span.stop := by
  simp [lastStop]

theorem lastStop_append_of_ne_nil (h : ts' ≠ []) : lastStop (ts ++ ts') = lastStop ts' := by
  rcases List.eq_nil_or_concat ts' with rfl | ⟨init, last, rfl⟩
  · exact absurd rfl h
  · rw [List.concat_eq_append, ← List.append_assoc, lastStop_append_singleton,
      lastStop_append_singleton]

theorem Ordered.firstStart_le (h : Ordered ts) (ht : t ∈ ts) : firstStart ts ≤ t.span.start := by
  cases ts with
  | nil => cases ht
  | cons first ts =>
    rcases List.mem_cons.1 ht with rfl | hmem
    · exact Nat.le_refl _
    · exact (h.forward first List.mem_cons_self).trans
        ((List.pairwise_cons.1 h.pairwise).1 t hmem)

theorem Ordered.le_lastStop (h : Ordered ts) (ht : t ∈ ts) : t.span.stop ≤ lastStop ts := by
  rcases List.eq_nil_or_concat ts with rfl | ⟨init, last, rfl⟩
  · cases ht
  · rw [List.concat_eq_append] at h ht ⊢
    rw [lastStop_append_singleton]
    rcases List.mem_append.1 ht with hmem | hmem
    · exact ((List.pairwise_append.1 h.pairwise).2.2 t hmem last List.mem_cons_self).trans
        (h.forward last (by simp))
    · rw [List.mem_singleton.1 hmem]

theorem exists_firstStart_eq (h : ts ≠ []) : ∃ t ∈ ts, firstStart ts = t.span.start := by
  obtain ⟨t, ts, rfl⟩ := List.exists_cons_of_ne_nil h
  exact ⟨t, List.mem_cons_self, rfl⟩

theorem exists_lastStop_eq (h : ts ≠ []) : ∃ t ∈ ts, lastStop ts = t.span.stop := by
  rcases List.eq_nil_or_concat ts with rfl | ⟨init, last, rfl⟩
  · exact absurd rfl h
  · exact ⟨last, by simp, by rw [List.concat_eq_append, lastStop_append_singleton]⟩

end Ordered

/-! ### Nodes made up of tokens -/

namespace Node

/-- The terminals of a node. -/
def terminals : Node → List Terminal
  | classDec c => c.terminals
  | classVarDec d => d.terminals
  | subroutineDec s => s.terminals
  | varDec d => d.terminals
  | statement s => s.terminals
  | expr e => e.terminals
  | term t => t.terminals
  | call c => c.terminals
  | nameUse n => [.identifier n.name]
  | ident name => [.identifier name.text]

/-- The tokens of a node that its span reaches over: all of them, but for the bracket that closes an
element of an array. -/
def visible : Node → List Token → List Token
  | term (.element ..), tokens => tokens.dropLast
  | _, tokens => tokens

theorem visible_prefix (n : Node) (tokens : List Token) : n.visible tokens <+: tokens := by
  cases n with
  | term t =>
    cases t with
    | element array index => exact List.dropLast_prefix tokens
    | _ => exact List.prefix_refl _
  | _ => exact List.prefix_refl _

end Node

mutual

/-- The node is made up of the tokens. -/
inductive Node.Stands : List Token → Node → Prop where
  /-- The tokens are what the node is written with, its span reaches over those of them that it is
  to reach over, and its parts stand among these. -/
  | mk {tokens : List Token} {n : Node} (spells : List.Forall₂ Token.Spells tokens n.terminals)
    (ne : n.visible tokens ≠ [])
    (span : Ordered (n.visible tokens) → n.span = spanOver (n.visible tokens))
    (children : StandIn (n.visible tokens) n.children) : Node.Stands tokens n

/-- Among the tokens the nodes stand one after the other, with other tokens before, between and
after them. -/
inductive StandIn : List Token → List Node → Prop where
  /-- There is nothing. -/
  | nil : StandIn [] []
  /-- A token that belongs to none of the nodes. -/
  | skip {tokens : List Token} {ns : List Node} (t : Token) (h : StandIn tokens ns) :
    StandIn (tokens ++ [t]) ns
  /-- One more node. -/
  | node {tokens piece : List Token} {ns : List Node} {n : Node} (h : StandIn tokens ns)
    (hn : Node.Stands piece n) : StandIn (tokens ++ piece) (ns ++ [n])

end

section Stands

variable {tokens tokens' : List Token} {ns ns' : List Node} {m n : Node}

theorem Node.Stands.spells (h : n.Stands tokens) :
    List.Forall₂ Token.Spells tokens n.terminals := by
  cases h with
  | mk hspells => exact hspells

theorem Node.Stands.visible_ne (h : n.Stands tokens) : n.visible tokens ≠ [] := by
  cases h with
  | mk _ hne => exact hne

theorem Node.Stands.ne (h : n.Stands tokens) : tokens ≠ [] := by
  rintro rfl
  exact h.visible_ne (List.prefix_nil.1 (n.visible_prefix []))

theorem Node.Stands.span_eq (h : n.Stands tokens) (ho : Ordered (n.visible tokens)) :
    n.span = spanOver (n.visible tokens) := by
  cases h with
  | mk _ _ hspan => exact hspan ho

theorem Node.Stands.standIn (h : n.Stands tokens) : StandIn (n.visible tokens) n.children := by
  cases h with
  | mk _ _ _ hchildren => exact hchildren

theorem StandIn.singleton (h : n.Stands tokens) : StandIn tokens [n] := .node .nil h

theorem StandIn.append (h : StandIn tokens ns) : ∀ {tokens' : List Token} {ns' : List Node},
    StandIn tokens' ns' → StandIn (tokens ++ tokens') (ns ++ ns')
  | _, _, .nil => by simpa using h
  | _, _, .skip t h' => by
    rw [← List.append_assoc]
    exact .skip t (h.append h')
  | _, _, .node h' hn => by
    rw [← List.append_assoc, ← List.append_assoc]
    exact .node (h.append h') hn

/-- Each of the nodes is made up of some of the tokens. -/
theorem StandIn.exists_stands : ∀ {tokens : List Token} {ns : List Node}, StandIn tokens ns →
    ∀ n ∈ ns, ∃ before piece after, tokens = before ++ (piece ++ after) ∧ n.Stands piece
  | _, _, .nil, n, hn => by cases hn
  | _, _, .skip t h, n, hn => by
    obtain ⟨before, piece, after, rfl, hpiece⟩ := h.exists_stands n hn
    exact ⟨before, piece, after ++ [t], by simp, hpiece⟩
  | _, _, .node h hlast, n, hn => by
    rcases List.mem_append.1 hn with hmem | hmem
    · obtain ⟨before, piece, after, rfl, hpiece⟩ := h.exists_stands n hmem
      exact ⟨before, piece, after ++ _, by rw [List.append_assoc, List.append_assoc], hpiece⟩
    · rw [List.mem_singleton.1 hmem]
      exact ⟨_, _, [], by rw [List.append_nil], hlast⟩

/-- **All nodes within a node that is made up of tokens are so as well.** -/
theorem Node.Stands.within (h : n.Stands tokens) (hm : m.Within n) :
    ∃ before piece after, tokens = before ++ (piece ++ after) ∧ m.Stands piece := by
  induction hm with
  | refl => exact ⟨[], tokens, [], by simp, h⟩
  | tail _ hchild ih =>
    obtain ⟨before, piece, after, rfl, hpiece⟩ := ih
    obtain ⟨before', piece', after', hvisible, hpiece'⟩ := hpiece.standIn.exists_stands _ hchild
    obtain ⟨hidden, hhidden⟩ := Node.visible_prefix _ piece
    refine ⟨before ++ before', piece', after' ++ (hidden ++ after), ?_, hpiece'⟩
    rw [← hhidden, hvisible]
    simp

/-- The span of a node begins with one of its tokens and ends with one of them. -/
theorem Node.Stands.exists_span (h : n.Stands tokens) (ho : Ordered tokens) :
    ∃ a ∈ tokens, ∃ b ∈ tokens, n.span = ⟨a.span.start, b.span.stop⟩ := by
  obtain ⟨a, ha, hstart⟩ := exists_firstStart_eq h.visible_ne
  obtain ⟨b, hb, hstop⟩ := exists_lastStop_eq h.visible_ne
  have hprefix := n.visible_prefix tokens
  have hspan := h.span_eq (ho.sublist hprefix.sublist)
  exact ⟨a, hprefix.subset ha, b, hprefix.subset hb, by rw [hspan, spanOver, hstart, hstop]⟩

theorem StandIn.exists_span (h : StandIn tokens ns) (ho : Ordered tokens) :
    ∀ n ∈ ns, ∃ a ∈ tokens, ∃ b ∈ tokens, n.span = ⟨a.span.start, b.span.stop⟩ := by
  intro n hn
  obtain ⟨before, piece, after, rfl, hpiece⟩ := h.exists_stands n hn
  have hsub : piece.Sublist (before ++ (piece ++ after)) :=
    (List.sublist_append_left piece after).trans (List.sublist_append_right before _)
  obtain ⟨a, ha, b, hb, hspan⟩ := hpiece.exists_span (ho.sublist hsub)
  exact ⟨a, hsub.subset ha, b, hsub.subset hb, hspan⟩

/-- Each of the nodes ends before the ones behind it begin. -/
theorem StandIn.pairwise : ∀ {tokens : List Token} {ns : List Node}, StandIn tokens ns →
    Ordered tokens → ns.Pairwise fun a b => a.span.stop ≤ b.span.start
  | _, _, .nil, _ => .nil
  | _, _, .skip _ h, ho => h.pairwise (ho.sublist (List.sublist_append_left ..))
  | _, _, .node h hlast, ho => by
    have hleft := ho.sublist (List.sublist_append_left ..)
    refine List.pairwise_append.2 ⟨h.pairwise hleft, List.pairwise_singleton .., ?_⟩
    intro m hm n hn
    obtain rfl := List.mem_singleton.1 hn
    obtain ⟨_, _, b, hb, hspan⟩ := h.exists_span hleft m hm
    obtain ⟨a, ha, _, _, hspan'⟩ := hlast.exists_span (ho.sublist (List.sublist_append_right ..))
    rw [hspan, hspan']
    exact (List.pairwise_append.1 ho.pairwise).2.2 b hb a ha

/-- The span of a node lies around the spans of its parts. -/
theorem Node.Stands.span_child_le (h : n.Stands tokens) (ho : Ordered tokens) :
    ∀ c ∈ n.children, n.span.start ≤ c.span.start ∧ c.span.stop ≤ n.span.stop := by
  intro c hc
  have hvisible : Ordered (n.visible tokens) := ho.sublist (n.visible_prefix tokens).sublist
  obtain ⟨a, ha, b, hb, hspan⟩ := h.standIn.exists_span hvisible c hc
  rw [h.span_eq hvisible, hspan]
  exact ⟨hvisible.firstStart_le ha, hvisible.le_lastStop hb⟩

end Stands

end Jack

import Jack.Compile
import Jack.Proofs.LabelShift
import Jack.Proofs.Locality
import Jack.Proofs.Operands
import Jack.Proofs.ParsedTree

/-!
# Subroutines apart from each other

The subroutines of a class are compiled independently of one another.  The tokens of one of them are
read the same in a class that has no other, and its code is the same up to the numbers of its
labels, which count on from those of the subroutines before it.

* `ClassDec.keep` : the tokens of a class that has only one of its subroutines left;
* `exists_cut_of_parse` : any selection of the subroutines of a class is read the same;
* `subroutines_independent` : **each subroutine can be compiled alone.**
-/

namespace Jack

/-! ### Cutting a class -/

/-- The terminals of a class in front of its subroutines. -/
def ClassDec.headTerminals (c : ClassDec) : List Terminal :=
  .keyword .kwClass :: .identifier c.name.text :: .symbol '{' ::
    c.varDecs.flatMap ClassVarDec.terminals

/-- The number of tokens in front of the `i`-th subroutine. -/
def ClassDec.tokensBefore (c : ClassDec) (i : Nat) : Nat :=
  c.headTerminals.length + ((c.subroutines.take i).flatMap SubroutineDec.terminals).length

/-- The tokens that are left of a class if only the `i`-th of its subroutines is kept: those in
front of all subroutines, those of the subroutine, and the closing brace. -/
def ClassDec.keep (c : ClassDec) (i : Nat) (tokens : List Token) : List Token :=
  tokens.take (c.tokensBefore 0) ++
    (tokens.extract (c.tokensBefore i) (c.tokensBefore (i + 1)) ++ tokens.drop (tokens.length - 1))

/-- The class with one subroutine. -/
def ParsedClass.only (p : ParsedClass) (s : SubroutineDec) : ParsedClass :=
  ⟨{ p.tree with subroutines := [s] }, p.scope⟩

namespace Parser

/-! ### Pieces -/

/-- The piece is read as the subroutine wherever it stands in a class of this name, if the scopes
are these at the end of the class variables. -/
structure PieceOf (className : String) (scopes : Scopes) (piece : List Token) (s : SubroutineDec) :
    Prop where
  /-- Its first token announces a subroutine, and what follows is read as that subroutine. -/
  reads : ∃ t lead taken, piece = t :: taken ∧ subroutineLead t = some lead ∧
    ∀ ⦃d d' : Cursor⦄, d.Passes taken d' → d.passed.head? = some t →
      subroutineDec className scopes lead.1 lead.2 d = .ok (s, d')
  /-- It is written for the subroutine. -/
  spells : List.Forall₂ Token.Spells piece s.terminals

section Pieces

variable {className : String} {scopes : Scopes}

/-- What a repetition of subroutines does in a round. -/
def subroutineRound (className : String) (scopes : Scopes) (decs : List SubroutineDec)
    (lead : Offset × SubroutineKind) : Parser (List SubroutineDec) :=
  subroutineDec className scopes lead.1 lead.2 >>= fun s => pure (s :: decs)

theorem subroutineDecs_eq : subroutineDecs className scopes =
    fold subroutineLead (subroutineRound className scopes) [] >>= fun decs => pure decs.reverse := rfl

theorem closed_subroutineRound (decs : List SubroutineDec) (lead : Offset × SubroutineKind) :
    Closed (subroutineRound className scopes decs lead) :=
  (closed_subroutineDec className scopes lead.1 lead.2).bind_pure (· :: decs)

theorem spells_of_subroutineDec {t : Token} {lead : Offset × SubroutineKind} {taken : List Token}
    {s : SubroutineDec} {d d' : Cursor} (hlead : subroutineLead t = some lead)
    (hd : d.Passes taken d') (h : subroutineDec className scopes lead.1 lead.2 d = .ok (s, d')) :
    List.Forall₂ Token.Spells (t :: taken) s.terminals := by
  obtain ⟨taken', ws, htaken', hws, hterminals, -⟩ := reads_subroutineDec className scopes _ _ h
  have htaken : taken = taken' :=
    List.append_cancel_right (hd.rest_eq.symm.trans htaken'.rest_eq)
  rw [← hterminals, htaken]
  exact .cons (spells_of_subroutineLead hlead) hws

/-- Rounds over subroutines are pieces. -/
theorem exists_pieces_of_rounds {decs decs' : List SubroutineDec} {pieces : List (List Token)}
    (h : Rounds subroutineLead (subroutineRound className scopes) decs pieces decs') :
    ∃ subs, decs' = subs.reverse ++ decs ∧ List.Forall₂ (PieceOf className scopes) pieces subs := by
  induction h with
  | nil decs => exact ⟨[], rfl, .nil⟩
  | @cons decs decs₁ decs' lead t taken pieces hlead hsame _ ih =>
    obtain ⟨subs, rfl, hsubs⟩ := ih
    -- The subroutine is the same for all places, so one place tells which it is.
    have hround {d d' : Cursor} (hd : d.Passes taken d') (hpassed : d.passed.head? = some t) :
        ∃ s, subroutineDec className scopes lead.1 lead.2 d = .ok (s, d') ∧ s :: decs = decs₁ := by
      obtain ⟨s, d₁, hs, hpure⟩ := bind_eq_ok_iff.1 (hsame hd hpassed)
      obtain ⟨rfl, rfl⟩ := pure_eq_ok_iff.1 hpure
      exact ⟨s, hs, rfl⟩
    have hplace : Cursor.Passes ⟨[t], taken⟩ taken ⟨taken.reverse ++ [t], []⟩ := ⟨by simp, rfl⟩
    obtain ⟨s, hs, rfl⟩ := hround hplace rfl
    refine ⟨s :: subs, by simp, .cons ⟨⟨t, lead, taken, rfl, hlead, fun d d' hd hpassed => ?_⟩,
      spells_of_subroutineDec hlead hplace hs⟩ hsubs⟩
    obtain ⟨s', hs', heq⟩ := hround hd hpassed
    rwa [(List.cons.inj heq).1] at hs'

/-- Pieces are rounds over subroutines. -/
theorem rounds_of_pieces {pieces : List (List Token)} {subs : List SubroutineDec}
    (h : List.Forall₂ (PieceOf className scopes) pieces subs) (decs : List SubroutineDec) :
    Rounds subroutineLead (subroutineRound className scopes) decs pieces (subs.reverse ++ decs) := by
  induction h generalizing decs with
  | nil => exact .nil decs
  | @cons piece s pieces subs hpiece _ ih =>
    obtain ⟨t, lead, taken, rfl, hlead, hsame⟩ := hpiece.reads
    have hrest := ih (s :: decs)
    rw [List.reverse_cons, List.append_assoc, List.singleton_append]
    refine .cons hlead (fun d d' hd hpassed => ?_) hrest
    exact bind_of_ok (hsame hd hpassed)

theorem subroutineDecs_of_pieces {pieces : List (List Token)} {subs : List SubroutineDec}
    (h : List.Forall₂ (PieceOf className scopes) pieces subs) {d d' : Cursor}
    (hd : d.Passes pieces.flatten d') (hend : d'.rest.head?.bind subroutineLead = none) :
    subroutineDecs className scopes d = .ok (subs, d') := by
  have hfold : fold subroutineLead (subroutineRound className scopes) [] d =
      .ok (subs.reverse ++ [], d') :=
    fold_of_rounds (fun decs lead => (closed_subroutineRound decs lead).advances)
      (rounds_of_pieces h []) hd hend
  rw [subroutineDecs_eq, bind_of_ok hfold, List.append_nil, List.reverse_reverse]
  rfl

theorem exists_pieces_of_subroutineDecs {c c' : Cursor} {subs : List SubroutineDec}
    (h : subroutineDecs className scopes c = .ok (subs, c')) :
    ∃ pieces, List.Forall₂ (PieceOf className scopes) pieces subs ∧
      c.Passes pieces.flatten c' := by
  rw [subroutineDecs_eq] at h
  obtain ⟨decs, c₁, hfold, hpure⟩ := bind_eq_ok_iff.1 h
  obtain ⟨rfl, rfl⟩ := pure_eq_ok_iff.1 hpure
  obtain ⟨pieces, hrounds, hpieces, -⟩ := exists_rounds_of_fold closed_subroutineRound hfold
  obtain ⟨subs, rfl, hsubs⟩ := exists_pieces_of_rounds hrounds
  exact ⟨pieces, by simpa using hsubs, hpieces⟩

end Pieces

/-! ### The front of a class -/

/-- What a repetition of class variable declarations does in a round. -/
def classVarRound (done : List ClassVarDec × Scopes) (lead : Offset × ClassVarKind) :
    Parser (List ClassVarDec × Scopes) :=
  classVarDec done.2 lead.1 lead.2 >>= fun r => pure (r.1 :: done.1, r.2)

theorem classVarDecs_eq : classVarDecs =
    fold classVarLead classVarRound ([], Scopes.empty) >>= fun r => pure (r.1.reverse, r.2) := rfl

theorem closed_classVarRound (done : List ClassVarDec × Scopes) (lead : Offset × ClassVarKind) :
    Closed (classVarRound done lead) :=
  (closed_classVarDec done.2 lead.1 lead.2).bind_pure fun r => (r.1 :: done.1, r.2)

/-- The declarations of class variables are read the same in front of any token that announces no
further one. -/
theorem classVarDecs_again {c c' : Cursor} {r : List ClassVarDec × Scopes}
    (h : classVarDecs c = .ok (r, c')) : ∃ taken, c.Passes taken c' ∧
      ∀ ⦃d d' : Cursor⦄, d.Passes taken d' → d'.rest.head?.bind classVarLead = none →
        classVarDecs d = .ok (r, d') := by
  rw [classVarDecs_eq] at h
  obtain ⟨done, c₁, hfold, hpure⟩ := bind_eq_ok_iff.1 h
  obtain ⟨rfl, rfl⟩ := pure_eq_ok_iff.1 hpure
  obtain ⟨pieces, hrounds, hpieces, -⟩ := exists_rounds_of_fold closed_classVarRound hfold
  refine ⟨pieces.flatten, hpieces, fun d d' hd hend => ?_⟩
  have hagain := fold_of_rounds (fun s b => (closed_classVarRound s b).advances) hrounds hd hend
  rw [classVarDecs_eq, bind_of_ok hagain]
  rfl

theorem classVarLead_of_subroutineLead {t : Token} {lead : Offset × SubroutineKind}
    (h : subroutineLead t = some lead) : classVarLead t = none := by
  unfold subroutineLead at h
  unfold classVarLead
  split at h <;> simp_all

theorem leads_of_isSymbol {t : Token} {ch : Char} {u : Unit} (h : isSymbol ch t = some u) :
    classVarLead t = none ∧ subroutineLead t = none := by
  have hkeyword : t.keyword? = none := (spells_of_isSymbol h).keyword?_eq
  simp [classVarLead, subroutineLead, hkeyword]

/-- What comes behind the class variables announces no further one, whichever subroutines are
left. -/
theorem head?_bind_classVarLead {className : String} {scopes : Scopes} {pieces : List (List Token)}
    {subs : List SubroutineDec} (h : List.Forall₂ (PieceOf className scopes) pieces subs)
    {last : Token} {u : Unit} (hlast : isSymbol '}' last = some u) :
    (pieces.flatten ++ [last]).head?.bind classVarLead = none := by
  cases h with
  | nil => exact (leads_of_isSymbol hlast).1
  | cons hpiece _ =>
    obtain ⟨t, lead, taken, rfl, hlead, -⟩ := hpiece.reads
    exact classVarLead_of_subroutineLead hlead

/-- The tokens in front of the subroutines of a class, and what they declare. -/
structure FrontOf (front : List Token) (name : Ident) (decs : List ClassVarDec) (scopes : Scopes)
    (start : Offset) : Prop where
  /-- The word `class`, the name, the brace, and the declarations of the class variables, which are
  read the same in front of any token that announces no further one. -/
  reads : ∃ t₁ t₂ t₃ vars, front = t₁ :: t₂ :: t₃ :: vars ∧ isKeyword .kwClass t₁ = some () ∧
    ident? t₂ = some name ∧ isSymbol '{' t₃ = some () ∧ t₁.span.start = start ∧
      ∀ ⦃d d' : Cursor⦄, d.Passes vars d' → d'.rest.head?.bind classVarLead = none →
        classVarDecs d = .ok ((decs, scopes), d')

/-- A class is read from its front, its subroutines and its closing brace. -/
theorem parse_of_parts {front : List Token} {name : Ident} {decs : List ClassVarDec}
    {scopes : Scopes} {start : Offset} {pieces : List (List Token)} {subs : List SubroutineDec}
    {last : Token} (hfront : FrontOf front name decs scopes start)
    (hpieces : List.Forall₂ (PieceOf name.text scopes) pieces subs)
    (hlast : isSymbol '}' last = some ()) :
    parse (front ++ (pieces.flatten ++ [last])) =
      .ok ⟨⟨name, decs, subs, ⟨start, max last.span.stop start⟩⟩, scopes.ofClass⟩ := by
  obtain ⟨t₁, t₂, t₃, vars, rfl, ht₁, ht₂, ht₃, rfl, hvars⟩ := hfront.reads
  let tokens := [t₁] ++ ([t₂] ++ ([t₃] ++ (vars ++ (pieces.flatten ++ [last]))))
  have hall : Cursor.Passes ⟨[], tokens⟩ tokens ⟨tokens.reverse, []⟩ := ⟨by simp, by simp⟩
  -- The cursor between one part and the next.
  obtain ⟨d₁, hd₁, hall⟩ := hall.split
  obtain ⟨d₂, hd₂, hall⟩ := hall.split
  obtain ⟨d₃, hd₃, hall⟩ := hall.split
  obtain ⟨d₄, hd₄, hall⟩ := hall.split
  obtain ⟨d₅, hd₅, hd₆⟩ := hall.split
  have hrest₅ : d₅.rest = [last] := hd₆.rest_eq
  have hrest₄ : d₄.rest = pieces.flatten ++ [last] := by rw [hd₅.rest_eq, hrest₅]
  have hoffset : offset ⟨[], tokens⟩ = .ok (t₁.span.start, ⟨[], tokens⟩) := rfl
  have hdecs : classVarDecs d₃ = .ok ((decs, scopes), d₄) :=
    hvars hd₄ (hrest₄ ▸ head?_bind_classVarLead hpieces hlast)
  have hsubs : subroutineDecs name.text scopes d₄ = .ok (subs, d₅) :=
    subroutineDecs_of_pieces hpieces hd₅ (hrest₅ ▸ (leads_of_isSymbol hlast).2)
  have hstop : Cursor.lastStop ⟨tokens.reverse, []⟩ = last.span.stop := by
    have hpassed : tokens.reverse = last :: d₅.passed := hd₆.passed_eq
    rw [hpassed]
    rfl
  have hspan : spanFrom t₁.span.start ⟨tokens.reverse, []⟩ =
      .ok (⟨t₁.span.start, max last.span.stop t₁.span.start⟩, ⟨tokens.reverse, []⟩) := by
    rw [spanFrom, Cursor.spanFrom, hstop]
  -- Each step of the production goes from one of these cursors to the next.
  refine parse_eq_ok_iff.2 ⟨⟨tokens.reverse, []⟩, ?_, rfl⟩
  refine (bind_of_ok hoffset).trans ?_
  refine (bind_of_ok (next_eq_ok_iff.2 ⟨t₁, ht₁, hd₁⟩)).trans ?_
  refine (bind_of_ok (next_eq_ok_iff.2 ⟨t₂, ht₂, hd₂⟩)).trans ?_
  refine (bind_of_ok (next_eq_ok_iff.2 ⟨t₃, ht₃, hd₃⟩)).trans ?_
  refine (bind_of_ok hdecs).trans ?_
  refine (bind_of_ok hsubs).trans ?_
  refine (bind_of_ok (next_eq_ok_iff.2 ⟨last, hlast, hd₆⟩)).trans ?_
  exact (bind_of_ok hspan).trans rfl

/-- A class that was read has a front, subroutines and a closing brace. -/
theorem exists_parts_of_parse {tokens : List Token} {parsed : ParsedClass}
    (h : parse tokens = .ok parsed) : ∃ front name decs scopes start pieces subs last,
      tokens = front ++ (pieces.flatten ++ [last]) ∧ FrontOf front name decs scopes start ∧
        List.Forall₂ (PieceOf name.text scopes) pieces subs ∧ isSymbol '}' last = some () := by
  obtain ⟨c, hclass, hrest⟩ := parse_eq_ok_iff.1 h
  obtain ⟨start, c₀, hstart, hclass⟩ := bind_eq_ok_iff.1 hclass
  obtain ⟨u₁, c₁, hkeyword, hclass⟩ := bind_eq_ok_iff.1 hclass
  obtain ⟨name, c₂, hname, hclass⟩ := bind_eq_ok_iff.1 hclass
  obtain ⟨u₃, c₃, hopen, hclass⟩ := bind_eq_ok_iff.1 hclass
  obtain ⟨decs, c₄, hdecs, hclass⟩ := bind_eq_ok_iff.1 hclass
  obtain ⟨subs, c₅, hsubs, hclass⟩ := bind_eq_ok_iff.1 hclass
  obtain ⟨u₆, c₆, hclose, hclass⟩ := bind_eq_ok_iff.1 hclass
  obtain ⟨span, c₇, hspan, hclass⟩ := bind_eq_ok_iff.1 hclass
  obtain ⟨-, rfl⟩ := pure_eq_ok_iff.1 hclass
  cases hstart
  cases hspan
  obtain ⟨t₁, ht₁, hpass₁⟩ := next_eq_ok_iff.1 hkeyword
  obtain ⟨t₂, ht₂, hpass₂⟩ := next_eq_ok_iff.1 hname
  obtain ⟨t₃, ht₃, hpass₃⟩ := next_eq_ok_iff.1 hopen
  obtain ⟨vars, hpassVars, hvars⟩ := classVarDecs_again hdecs
  obtain ⟨pieces, hpieces, hpassPieces⟩ := exists_pieces_of_subroutineDecs hsubs
  obtain ⟨last, hlast, hpassLast⟩ := next_eq_ok_iff.1 hclose
  have htokens := ((((hpass₁.trans hpass₂).trans hpass₃).trans hpassVars).trans hpassPieces).trans
    hpassLast
  refine ⟨t₁ :: t₂ :: t₃ :: vars, name, decs.1, decs.2, t₁.span.start, pieces, subs, last, ?_,
    ⟨t₁, t₂, t₃, vars, rfl, ht₁, ht₂, ht₃, rfl, hvars⟩, hpieces, hlast⟩
  simpa [hrest] using htokens.rest_eq

/-- **Any selection of the subroutines of a class is read the same**, between the front of the class
and its closing brace. -/
theorem exists_cut_of_parse {tokens : List Token} {parsed : ParsedClass}
    (h : parse tokens = .ok parsed) : ∃ front pieces last scopes,
      tokens = front ++ (pieces.flatten ++ [last]) ∧
        List.Forall₂ (PieceOf parsed.tree.name.text scopes) pieces parsed.tree.subroutines ∧
          ∀ pieces' subs', List.Forall₂ (PieceOf parsed.tree.name.text scopes) pieces' subs' →
            parse (front ++ (pieces'.flatten ++ [last])) =
              .ok ⟨{ parsed.tree with subroutines := subs' }, parsed.scope⟩ := by
  obtain ⟨front, name, decs, scopes, start, pieces, subs, last, rfl, hfront, hpieces, hlast⟩ :=
    exists_parts_of_parse h
  obtain rfl := Except.ok.inj (h.symm.trans (parse_of_parts hfront hpieces hlast))
  exact ⟨front, pieces, last, scopes, rfl, hpieces,
    fun pieces' subs' hpieces' => parse_of_parts hfront hpieces' hlast⟩

end Parser

/-! ### One subroutine -/

theorem spells_flatten {className : String} {scopes : Scopes} {pieces : List (List Token)}
    {subs : List SubroutineDec} (h : List.Forall₂ (Parser.PieceOf className scopes) pieces subs) :
    List.Forall₂ Token.Spells pieces.flatten (subs.flatMap SubroutineDec.terminals) := by
  induction h with
  | nil => exact .nil
  | cons hpiece _ ih =>
    rw [List.flatten_cons, List.flatMap_cons]
    exact List.rel_append hpiece.spells ih

theorem ClassDec.terminals_eq (c : ClassDec) : c.terminals =
    c.headTerminals ++ (c.subroutines.flatMap SubroutineDec.terminals ++ [.symbol '}']) := by
  simp [terminals, headTerminals]

/-- Where a list is cut in four, the first part, the third and the last token are found by the
lengths. -/
theorem keep_eq_of_lengths {c : ClassDec} {i : Nat} {front before piece after : List Token}
    {last : Token} (hfront : c.tokensBefore 0 = front.length)
    (hbefore : c.tokensBefore i = front.length + before.length)
    (hpiece : c.tokensBefore (i + 1) = front.length + before.length + piece.length) :
    c.keep i (front ++ (before ++ (piece ++ (after ++ [last])))) = front ++ (piece ++ [last]) := by
  have hextract : (front ++ (before ++ (piece ++ (after ++ [last])))).extract
      (front.length + before.length) (front.length + before.length + piece.length) = piece := by
    rw [List.extract_eq_take_drop, ← List.append_assoc front, ← List.length_append,
      List.drop_left, Nat.add_sub_cancel_left, List.take_left]
  have hlast : (front ++ (before ++ (piece ++ (after ++ [last])))).drop
      ((front ++ (before ++ (piece ++ (after ++ [last])))).length - 1) = [last] := by
    have hassoc : front ++ (before ++ (piece ++ (after ++ [last]))) =
        (front ++ before ++ piece ++ after) ++ [last] := by simp
    rw [hassoc, List.length_append, List.length_singleton, Nat.add_sub_cancel, List.drop_left]
  rw [ClassDec.keep, hfront, List.take_left, hbefore, hpiece, hextract, hlast]

/-- **A class with one of its subroutines left is read with that subroutine**, and with nothing else
changed. -/
theorem parse_keep {tokens : List Token} {parsed : ParsedClass} (h : parse tokens = .ok parsed)
    {i : Nat} {s : SubroutineDec} (hs : parsed.tree.subroutines[i]? = some s) :
    parse (parsed.tree.keep i tokens) = .ok (parsed.only s) := by
  obtain ⟨front, pieces, last, scopes, htokens, hpieces, hagain⟩ := Parser.exists_cut_of_parse h
  -- The piece of the subroutine, with those before and after it.
  obtain ⟨hi, hget⟩ := List.getElem?_eq_some_iff.1 hs
  have hsubs : parsed.tree.subroutines =
      parsed.tree.subroutines.take i ++ s :: parsed.tree.subroutines.drop (i + 1) := by
    rw [← hget, List.getElem_cons_drop, List.take_append_drop]
  have hlength : (parsed.tree.subroutines.take i).length = i := List.length_take_of_le hi.le
  have hall := (spells_flatten hpieces).length_eq
  rw [hsubs] at hpieces
  have hbefore := List.forall₂_take_append _ _ _ hpieces
  obtain ⟨piece, after, hpiece, hafter, hdrop⟩ :=
    List.forall₂_cons_right_iff.1 (List.forall₂_drop_append _ _ _ hpieces)
  rw [hlength] at hbefore hdrop
  have hflatten : pieces.flatten = (pieces.take i).flatten ++ (piece ++ after.flatten) := by
    rw [← List.flatten_cons, ← hdrop, ← List.flatten_append, List.take_append_drop]
  -- The lengths of the parts are those of what they are written for.
  have hfront : parsed.tree.headTerminals.length = front.length := by
    have htotal := (spells_of_parse h).length_eq
    rw [htokens, parsed.tree.terminals_eq] at htotal
    simp only [List.length_append, List.length_singleton, hall] at htotal
    omega
  have hbeforeLength := (spells_flatten hbefore).length_eq
  have hpieceLength := hpiece.spells.length_eq
  have hsucc : parsed.tree.subroutines.take (i + 1) = parsed.tree.subroutines.take i ++ [s] := by
    rw [List.take_add_one, hs, Option.toList_some]
  rw [htokens, hflatten, List.append_assoc, List.append_assoc, keep_eq_of_lengths]
  · have hone := hagain [piece] [s] (.cons hpiece .nil)
    rw [List.flatten_cons, List.flatten_nil, List.append_nil] at hone
    exact hone
  · rw [ClassDec.tokensBefore, List.take_zero, List.flatMap_nil, List.length_nil, hfront,
      Nat.add_zero]
  · rw [ClassDec.tokensBefore, hfront, hbeforeLength]
  · rw [ClassDec.tokensBefore, hsucc, List.flatMap_append, List.length_append, hfront,
      hbeforeLength, List.flatMap_singleton, hpieceLength, Nat.add_assoc]

/-! ### Code of one subroutine -/

theorem checkSubroutines_eq_ok_iff {options : Options} {fields : Nat} {subs : List SubroutineDec} :
    checkSubroutines options fields subs = .ok () ↔ ∀ s ∈ subs, s.check options fields = .ok () := by
  induction subs with
  | nil => exact ⟨fun _ => List.forall_mem_nil _, fun _ => rfl⟩
  | cons s subs ih => rw [checkSubroutines, Check.bind_eq_ok_iff, ih, List.forall_mem_cons]

theorem exists_lower_eq_ok_iff_forall {tree : ClassDec} {scope : Scope} {source : String}
    {options : Options} : (∃ code, lower tree scope source options = .ok code) ↔
      ∀ s ∈ tree.subroutines, s.check options (scope.count .field) = .ok () := by
  rw [exists_lower_eq_ok_iff, checkSubroutines_eq_ok_iff]

/-- The code of a class with one subroutine is that of the subroutine, with labels from zero. -/
theorem lower_only_eq_ok {parsed : ParsedClass} {s : SubroutineDec} {source : String}
    {options : Options} (h : s.check options (parsed.scope.count .field) = .ok ()) :
    lower (parsed.only s).tree (parsed.only s).scope source options =
      .ok (s.listing ⟨parsed.tree.name.text, options, source⟩ (parsed.scope.count .field)
        .new).toArray := by
  refine lower_eq_ok_iff.2 ⟨checkSubroutines_eq_ok_iff.2 (List.forall_mem_singleton.2 h), ?_⟩
  change _ = s.header _ _ ++ (statementsListing _ _ s.statements ++ [])
  rw [List.toList_toArray, List.append_nil]
  rfl

/-- The subroutines of a class are compiled independently of one another. -/
structure Independent (tokens : List Token) (parsed : ParsedClass) : Prop where
  /-- The tokens that keep only one of the subroutines are read as the class with that one. -/
  reads : ∀ i s, parsed.tree.subroutines[i]? = some s →
    parse (parsed.tree.keep i tokens) = .ok (parsed.only s)
  /-- The class has code exactly if each of these classes has. -/
  succeeds : ∀ source options, (∃ code, lower parsed.tree parsed.scope source options = .ok code) ↔
    ∀ s ∈ parsed.tree.subroutines, ∃ code,
      lower (parsed.only s).tree (parsed.only s).scope source options = .ok code
  /-- Its code is that of these classes in order, and the numbers of the labels are raised by the
  labels that the earlier subroutines draw. -/
  concatenates : ∀ source options code,
    lower parsed.tree parsed.scope source options = .ok code → ∃ codes : List Code,
      List.Forall₂ (fun s one =>
          lower (parsed.only s).tree (parsed.only s).scope source options = .ok one)
        parsed.tree.subroutines codes ∧
      code.toList = (codes.mapIdx fun i one => one.toList.map
        (Instruction.raise (drawnBy (parsed.tree.subroutines.take i)))).flatten

/-- **Each subroutine can be compiled alone**, and the code of a class is put together from what
comes out. -/
theorem subroutines_independent {tokens : List Token} {parsed : ParsedClass}
    (h : parse tokens = .ok parsed) : Independent tokens parsed where
  reads i s hs := parse_keep h hs
  succeeds source options := by
    rw [exists_lower_eq_ok_iff_forall]
    refine forall₂_congr fun s hs => ?_
    rw [exists_lower_eq_ok_iff_forall]
    change _ ↔ ∀ s' ∈ [s], s'.check options (parsed.scope.count .field) = .ok ()
    rw [List.forall_mem_singleton]
  concatenates source options code hcode := by
    have hcheck := exists_lower_eq_ok_iff_forall.1 ⟨code, hcode⟩
    let ctx : CodeContext := ⟨parsed.tree.name.text, options, source⟩
    refine ⟨parsed.tree.subroutines.map fun s =>
      (s.listing ctx (parsed.scope.count .field) .new).toArray, ?_, ?_⟩
    · rw [List.forall₂_map_right_iff, List.forall₂_same]
      exact fun s hs => lower_only_eq_ok (hcheck s hs)
    · rw [(lower_eq_ok_iff.1 hcode).2, subroutinesListing_eq]
      exact congrArg List.flatten (List.ext_getElem (by simp) fun i _ _ => by simp [ctx])

/-- A class with three subroutines of different sorts that draw labels and share names. -/
def tallyText : String :=
  "class Tally \x7b static int n; field int top; constructor Tally new(int n) \x7b let top = n;" ++
    " if (n) \x7b let top = 1; \x7d return this; \x7d function void up(int top) \x7b while (top)" ++
    " \x7b let n = n + 1; if (n) \x7b return; \x7d \x7d return; \x7d method int get() \x7b var int k;" ++
    " while (n) \x7b let k = n; \x7d if (k) \x7b do up(1); \x7d else \x7b let k = top; \x7d" ++
    " return k; \x7d \x7d"

theorem subroutines_independent_tally :
    ∃ tokens parsed, tokenize tallyText = .ok tokens ∧ parse tokens = .ok parsed ∧
      parsed.tree.subroutines.length = 3 ∧ Independent tokens parsed := by
  have hok : ((tokenize tallyText >>= parse).toOption.map
      (·.tree.subroutines.length)) = some 3 := by decide +kernel
  obtain ⟨parsed, hmem, hlength⟩ := Option.map_eq_some_iff.1 hok
  obtain ⟨tokens, htokens, hparsed⟩ := exists_tokens (eq_ok_of_mem_toOption hmem)
  exact ⟨tokens, parsed, htokens, hparsed, hlength, subroutines_independent hparsed⟩

end Jack

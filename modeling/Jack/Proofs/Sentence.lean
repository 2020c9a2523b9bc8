import Jack.Proofs.Limits
import Jack.Proofs.ParsedTree
import Jack.Proofs.Phrases
import Jack.Proofs.Resolution

/-!
# Every sentence is accepted, or breaks a limit

The tokens that a class is written with are read back as the same class, as long as the class keeps
to the limits of the parser (`ClassDec.WithinLimits`): names for every declaration, no name twice in
a scope, an index for each variable, and no more than 64 levels of nesting.  How many statements,
terms, arguments or subroutines stand beside each other makes no difference.  If the class breaks a
limit, the parser reports the one that it breaks first.

A name is declared as soon as it is read, so what matters is which declarations the scope holds by
then.  `Scopes.Lists` says which ones a scope holds, and `Parser.Awaits` which ones are still to
come.

* `Parser.accepts_classDec` : what the parser of classes reads back;
* `parse_of_spells` : **the tokens of a class are read as that class**;
* `parse_reports_firstBreak` : **they are refused exactly if a limit is broken, for the first.**
-/

namespace Jack

/-! ### Scopes -/

/-- The scope of a level lists the declarations, and was not too small for them. -/
structure Scopes.Lists (s : Scopes) (level : ScopeLevel) (ds : List Declaration) : Prop where
  /-- The variables are those that are declared. -/
  toList_eq : (s.ofLevel level).toList = numbered ds
  /-- There were indices enough. -/
  count_le : ∀ storage, ds.countP (·.storage == storage) ≤ maxIndex + 1

namespace Scopes.Lists

variable {s : Scopes} {ds : List Declaration} {storage : Storage}

theorem contains_eq_false_iff {level : ScopeLevel} (h : s.Lists level ds) {name : String} :
    (s.ofLevel level).contains name = false ↔ name ∉ ds.map (·.name) := by
  rw [Scope.contains_eq_false_iff, h.toList_eq, map_name_numbered]

theorem count_eq {level : ScopeLevel} (h : s.Lists level ds) (storage : Storage) :
    (s.ofLevel level).count storage = ds.countP (·.storage == storage) := by
  rw [Scope.count_eq_countP_toList, h.toList_eq, countP_numbered]

/-- A declaration that breaks no limit is not refused. -/
theorem exists_declare (h : s.Lists storage.level ds) (name : Ident) (type : TypeName)
    (hlimit : (Event.declare ds ⟨name.text, type, storage⟩).limit? = none) :
    ∃ v s', s.declare name type storage = .ok (v, s') ∧
      s'.Lists storage.level (ds ++ [⟨name.text, type, storage⟩]) := by
  obtain ⟨hname, hroom⟩ := Event.limit?_declare_eq_none_iff.1 hlimit
  have hcount : ds.countP (·.storage == storage) ≤ maxIndex := by
    have := h.count_le storage
    simp only [maxIndex] at this hroom ⊢
    omega
  refine ⟨_, _, declare_eq_ok_iff.2
    ⟨h.contains_eq_false_iff.2 hname, by rwa [h.count_eq], rfl, rfl⟩, ?_, fun storage' => ?_⟩
  · rw [ofLevel_setLevel, if_pos rfl, Scope.toList_push, h.toList_eq, numbered_append_singleton,
      h.count_eq]
    rfl
  · rw [List.countP_append, List.countP_singleton]
    split
    · next heq =>
      obtain rfl : storage = storage' := beq_iff_eq.1 heq
      exact Nat.succ_le_succ hcount
    · exact h.count_le storage'

/-- A declaration that breaks a limit is refused for it. -/
theorem declare_eq_error (h : s.Lists storage.level ds) {name : Ident} {type : TypeName}
    {l : Limit} (hlimit : (Event.declare ds ⟨name.text, type, storage⟩).limit? = some l)
    {c : Cursor} (hspan : c.nextSpan = name.span) :
    s.declare name type storage = .error (l.error c) := by
  rw [Scopes.declare_eq, Scope.declare]
  -- As in the scope, the name is looked up before the variables are counted.
  simp only [Event.limit?] at hlimit
  split at hlimit
  · next hname =>
    cases hlimit
    have hcontains : (s.ofLevel storage.level).contains name.text = true := by
      rw [← Bool.not_eq_false, h.contains_eq_false_iff]
      exact not_not_intro hname
    rw [if_pos hcontains, Limit.error, hspan]
    rfl
  split at hlimit
  · next hname hroom =>
    cases hlimit
    have hcontains : ¬ (s.ofLevel storage.level).contains name.text = true := by
      rw [h.contains_eq_false_iff.2 hname]
      exact Bool.false_ne_true
    have hcount : maxIndex < (s.ofLevel storage.level).count storage := by
      rw [h.count_eq, hroom, maxIndex]
      decide
    rw [if_neg hcontains, if_pos hcount, Limit.error, hspan]
    rfl
  · cases hlimit

end Scopes.Lists

namespace Parser

/-! ### First words of declarations -/

theorem type?_of_spells {t : Token} {ty : TypeName} (h : t.Spells ty.terminal) :
    type? t = some ty := by
  cases ty with
  | object className =>
    have hword : t.keyword? = none := h.keyword?_eq
    simp [type?, hword, Token.spells_identifier_iff.1 h]
  | _ => simp [type?, Token.spells_keyword_iff.1 h]

theorem varLead_of_spells {t : Token} (h : t.Spells (.keyword .kwVar)) :
    varLead t = some t.span.start :=
  if_pos (Token.spells_keyword_iff.1 h)

theorem refuses_varLead {ws : List Terminal}
    (h : ws.head?.bind Terminal.keyword? ≠ some .kwVar) : Refuses varLead ws :=
  refuses_of_keyword? [.kwVar] (fun _ ht => if_neg (ht _ (by simp))) (by simpa using h)

theorem refuses_classVarLead {ws : List Terminal}
    (h : ∀ k ∈ [Keyword.kwStatic, .kwField], ws.head?.bind Terminal.keyword? ≠ some k) :
    Refuses classVarLead ws := by
  refine refuses_of_keyword? _ (fun t ht => ?_) h
  rw [classVarLead]
  split
  · next heq => exact absurd heq (ht _ (by simp))
  · next heq => exact absurd heq (ht _ (by simp))
  · rfl

theorem classVarLead_of_spells {t : Token} {kind : ClassVarKind}
    (h : t.Spells (.keyword kind.keyword)) : classVarLead t = some (t.span.start, kind) := by
  rw [classVarLead, Token.spells_keyword_iff.1 h]
  cases kind <;> rfl

theorem subroutineLead_of_spells {t : Token} {kind : SubroutineKind}
    (h : t.Spells (.keyword kind.keyword)) : subroutineLead t = some (t.span.start, kind) := by
  rw [subroutineLead, Token.spells_keyword_iff.1 h]
  cases kind <;> rfl

/-! ### Declared names -/

/-- Things that declare names are read one after the other into the scope of a level: some of them
were read, and those of `left` are still to come. -/
def Awaits {γ : Type} (declared : γ → List Declaration) (bare : γ → γ) (level : ScopeLevel)
    (earlier : List Declaration) (all : List γ) (r : List γ × Scopes)
    (left : List (List Declaration × γ)) : Prop :=
  ∃ before after, all = before ++ after ∧ r.1.reverse.map bare = before.map bare ∧
    r.2.Lists level (earlier ++ before.flatMap declared) ∧
      left = withEarlier declared (earlier ++ before.flatMap declared) after

namespace Awaits

variable {γ : Type} {declared : γ → List Declaration} {bare : γ → γ} {level : ScopeLevel}
  {earlier : List Declaration} {all : List γ} {r : List γ × Scopes}
  {m : List Declaration × γ} {left : List (List Declaration × γ)} {scopes : Scopes}

theorem init (h : scopes.Lists level earlier) :
    Awaits declared bare level earlier all ([], scopes) (withEarlier declared earlier all) :=
  ⟨[], all, rfl, rfl, by simpa using h, by simp⟩

/-- The next thing is one of all, and what is in front of it was declared. -/
theorem head (h : Awaits declared bare level earlier all r (m :: left)) :
    m.2 ∈ all ∧ r.2.Lists level m.1 := by
  obtain ⟨before, _ | ⟨x, after⟩, rfl, -, hscopes, hleft⟩ := h
  · cases hleft
  · rw [withEarlier, List.cons.injEq] at hleft
    obtain ⟨rfl, -⟩ := hleft
    exact ⟨by simp, hscopes⟩

theorem step (h : Awaits declared bare level earlier all r (m :: left)) {x : γ}
    (hx : bare x = bare m.2) (hscopes : scopes.Lists level (m.1 ++ declared m.2)) :
    Awaits declared bare level earlier all (x :: r.1, scopes) left := by
  obtain ⟨before, _ | ⟨y, after⟩, rfl, hread, -, hleft⟩ := h
  · cases hleft
  · rw [withEarlier, List.cons.injEq] at hleft
    obtain ⟨rfl, rfl⟩ := hleft
    refine ⟨before ++ [y], after, by simp, by simp [hread, hx], ?_, by simp⟩
    simpa using hscopes

/-- When nothing is left, all is read and declared. -/
theorem done (h : Awaits declared bare level earlier all r []) :
    r.1.reverse.map bare = all.map bare ∧ r.2.Lists level (earlier ++ all.flatMap declared) := by
  obtain ⟨before, _ | ⟨x, after⟩, rfl, hread, hscopes, hleft⟩ := h
  · rw [List.append_nil]
    exact ⟨hread, hscopes⟩
  · cases hleft

end Awaits

/-! ### Declarations -/

section Declarations

variable {xs ys : List Event} {scopes : Scopes} {earlier : List Declaration}

/-- A name is read and then declared.  It is reported if its declaration breaks a limit. -/
theorem accepts_declaredName {β : Type} {Q : β → Prop} {rule : Rule} {name : String}
    {type : TypeName} {storage : Storage} {g : Ident → Scopes → Parser β}
    (h : scopes.Lists storage.level earlier)
    (hg : ∀ (name' : Ident) (scopes' : Scopes), name'.text = name →
      scopes'.Lists storage.level (earlier ++ [⟨name, type, storage⟩]) →
        Accepts (g name' scopes') xs ys Q) :
    Accepts (identifier rule >>= fun name' => declare scopes name' type storage >>= g name')
      (.declare earlier ⟨name, type, storage⟩ :: .token (.identifier name) :: xs) ys Q := by
  rintro ⟨passed, rest⟩ hc
  obtain ⟨t, rest, ht, hrest, rfl⟩ := List.forall₂_cons_right_iff.1 hc
  have hname : identifier rule ⟨passed, t :: rest⟩ =
      .ok (⟨name, t.span⟩, ⟨t :: passed, rest⟩) := by
    refine next_eq_ok_iff.2 ⟨t, ?_, rfl, rfl⟩
    rw [ident?, Token.spells_identifier_iff.1 ht, Option.map_some]
  cases hlimit : (Event.declare earlier ⟨name, type, storage⟩).limit? with
  | none =>
    obtain ⟨v, scopes', hdeclare, hscopes'⟩ :=
      h.exists_declare ⟨name, t.span⟩ type hlimit
    have hdeclare' : declare scopes ⟨name, t.span⟩ type storage ⟨t :: passed, rest⟩ =
        .ok (scopes', ⟨t :: passed, rest⟩) := by
      rw [declare, hdeclare]
    have harrives : Arrives (.declare earlier ⟨name, type, storage⟩ ::
        .token (.identifier name) :: xs) xs ⟨passed, t :: rest⟩ ⟨t :: passed, rest⟩ := by
      refine ⟨hrest, (Cursor.passes_singleton_iff.2 ⟨rfl, rfl⟩).tokens_eq, ?_⟩
      rw [firstBreak?_of_limit?_eq_none hlimit]
      rfl
    exact harrives.bind hname
      ((Arrives.refl hrest).bind hdeclare' (hg _ scopes' rfl hscopes' hrest))
  | some l =>
    -- The name is taken when its declaration fails, so the break is one token behind the cursor.
    have herror : scopes.declare ⟨name, t.span⟩ type storage =
        .error (l.error ⟨passed, t :: rest⟩) := h.declare_eq_error hlimit rfl
    refine .inr ⟨l, ⟨passed, t :: rest⟩, ?_, rfl, ?_⟩
    · rw [firstBreak?_of_limit?_eq_some hlimit, hc.length_eq]
    · rw [bind_of_ok hname]
      exact bind_of_error (by rw [declare, herror])

theorem accepts_type (ty : TypeName) : Accepts type (.token ty.terminal :: xs) xs (· = ty) :=
  accepts_next fun _ ht => ⟨ty, type?_of_spells ht, rfl⟩

theorem accepts_returnType (ty : ReturnType) :
    Accepts returnType (.token ty.terminal :: xs) xs (· = ty) := by
  cases ty with
  | void =>
    refine (accepts_next?_some (P := fun _ => True) fun t ht =>
      ⟨(), isKeyword_of_spells ht, trivial⟩).bind ?_
    rintro found ⟨u, rfl, -⟩
    exact accepts_pure rfl
  | value ty =>
    refine (accepts_next?_none (refuses_isKeyword ?_)).bind fun found hfound => ?_
    · cases ty <;> simp [ReturnType.terminal, TypeName.terminal, Terminal.keyword?]
    · subst hfound
      exact (accepts_type ty).bind fun ty' hty => accepts_pure (by rw [hty])

theorem accepts_declaredNames {rule : Rule} {type : TypeName} {storage : Storage}
    {names : List Ident} (hne : names ≠ []) (h : scopes.Lists storage.level earlier)
    (xs : List Event) :
    Accepts (declaredNames rule type storage scopes)
      (namesEvents type storage earlier names ++ .token (.symbol ';') :: xs)
      (.token (.symbol ';') :: xs)
      fun r => r.1.map Ident.bare = names.map Ident.bare ∧
        r.2.Lists storage.level (earlier ++ declarationsOf type storage names) := by
  cases names with
  | nil => exact absurd rfl hne
  | cons name names =>
    refine (accepts_commaSeparated (fun _ => (advances_next _ _ _).bind fun _ =>
        (advances_declare _ _ _ _).bind fun _ => advances_pure _)
      (R := Awaits (fun name : Ident => [⟨name.text, type, storage⟩]) Ident.bare storage.level
        earlier (name :: names)) ?close ?item (.init h)).bind ?list
    case close => decide
    case item =>
      rintro r m left hr ch - xs -
      refine accepts_declaredName hr.head.2 fun name' scopes' hname' hscopes' => ?_
      exact accepts_pure (hr.step (Ident.bare_eq_of_text_eq hname') hscopes')
    case list =>
      intro r hr
      rw [declarationsOf_eq_flatMap]
      exact accepts_pure hr.done

theorem accepts_parameters {parameters : List Parameter}
    (h : scopes.Lists .subroutineLevel earlier) (xs : List Event) :
    Accepts (Parser.parameters scopes)
      (joinEvents ((withEarlier (fun p => [p.declaration]) earlier parameters).map
        fun p => p.2.events p.1) ++ .token (.symbol ')') :: xs)
      (.token (.symbol ')') :: xs)
      fun r => r.1.map Parameter.bare = parameters.map Parameter.bare ∧
        r.2.Lists .subroutineLevel (earlier ++ parameters.flatMap fun p => [p.declaration]) := by
  unfold Parser.parameters
  refine (accepts_atSymbol ')').bind fun atEnd hatEnd => ?_
  cases parameters with
  | nil =>
    rw [hatEnd]
    exact accepts_pure ⟨rfl, by simpa using h⟩
  | cons p ps =>
    have hnot : atEnd = false := by
      rw [hatEnd, decide_eq_false_iff_not]
      obtain ⟨ty, name⟩ := p
      cases ty <;>
        simp [withEarlier, joinEvents, Parameter.events, TypeName.terminal, Terminal.symbol?]
    rw [hnot]
    refine (accepts_commaSeparated (fun _ => (advances_next _ _ _).bind fun _ =>
        (advances_next _ _ _).bind fun _ => (advances_declare _ _ _ _).bind fun _ =>
          advances_pure _)
      (R := Awaits (fun p => [p.declaration]) Parameter.bare .subroutineLevel earlier (p :: ps))
      ?close ?item (.init h)).bind ?list
    case close => decide
    case item =>
      rintro r m left hr ch - xs -
      refine (accepts_type m.2.type).bind ?_
      rintro ty rfl
      refine accepts_declaredName hr.head.2 fun name' scopes' hname' hscopes' => ?_
      refine accepts_pure (hr.step ?_ hscopes')
      simp [Parameter.bare, Ident.bare_eq_of_text_eq hname']
    case list => exact fun r hr => accepts_pure hr.done

theorem accepts_classVarDec {d : ClassVarDec} (hne : d.names ≠ [])
    (h : scopes.Lists .classLevel earlier) (start : Offset) (xs : List Event) :
    Accepts (classVarDec scopes start d.kind)
      (.token d.type.terminal :: (namesEvents d.type d.kind.storage earlier d.names ++
        .token (.symbol ';') :: xs)) xs
      fun r => r.1.bare = d.bare ∧ r.2.Lists .classLevel (earlier ++ d.declarations) := by
  have hlevel : d.kind.storage.level = .classLevel := by cases d.kind <;> rfl
  rw [← hlevel] at h ⊢
  refine (accepts_type d.type).bind ?_
  rintro ty rfl
  refine (accepts_declaredNames hne h xs).bind ?_
  rintro r ⟨hnames, hscopes⟩
  refine (accepts_symbol ';').bind fun _ _ => accepts_spanFrom start fun _ => ?_
  refine accepts_pure ⟨?_, hscopes⟩
  rw [ClassVarDec.bare, ClassVarDec.bare, hnames]

theorem accepts_varDec {d : VarDec} (hne : d.names ≠ [])
    (h : scopes.Lists .subroutineLevel earlier) (start : Offset) (xs : List Event) :
    Accepts (varDec scopes start)
      (.token d.type.terminal :: (namesEvents d.type .localVar earlier d.names ++
        .token (.symbol ';') :: xs)) xs
      fun r => r.1.bare = d.bare ∧ r.2.Lists .subroutineLevel (earlier ++ d.declarations) := by
  refine (accepts_type d.type).bind ?_
  rintro ty rfl
  refine (accepts_declaredNames hne h xs).bind ?_
  rintro r ⟨hnames, hscopes⟩
  refine (accepts_symbol ';').bind fun _ _ => accepts_spanFrom start fun _ => ?_
  refine accepts_pure ⟨?_, hscopes⟩
  rw [VarDec.bare, VarDec.bare, hnames]

theorem accepts_classVarDecs {decs : List ClassVarDec} (hne : ∀ d ∈ decs, d.names ≠ [])
    (hstop : Refuses classVarLead (terminalsOf xs)) :
    Accepts classVarDecs
      ((withEarlier ClassVarDec.declarations [] decs).flatMap (fun p => p.2.events p.1) ++ xs) xs
      fun r => r.1.map ClassVarDec.bare = decs.map ClassVarDec.bare := by
  have hempty : Scopes.empty.Lists .classLevel [] := ⟨rfl, fun _ => Nat.zero_le _⟩
  refine (accepts_fold (fun _ _ => (advances_classVarDec _ _ _).bind fun _ => advances_pure _)
    (F := fun _ => True)
    (R := Awaits ClassVarDec.declarations ClassVarDec.bare .classLevel [] decs) ?item
    (fun _ _ => trivial) hstop trivial (.init hempty)).bind ?list
  case item =>
    intro r m left hr
    refine ⟨_, _, rfl, fun t ht =>
      ⟨(t.span.start, m.2.kind), classVarLead_of_spells ht, fun xs _ => ?_⟩⟩
    simp only [List.append_assoc, List.cons_append, List.nil_append]
    refine (accepts_classVarDec (hne m.2 hr.head.1) hr.head.2 _ xs).bind ?_
    rintro r' ⟨hd, hscopes⟩
    exact accepts_pure (hr.step hd hscopes)
  case list => exact fun r hr => accepts_pure hr.done.1

theorem accepts_varDecs {decs : List VarDec} (hne : ∀ d ∈ decs, d.names ≠ [])
    (h : scopes.Lists .subroutineLevel earlier) (hstop : Refuses varLead (terminalsOf xs)) :
    Accepts (varDecs scopes)
      ((withEarlier VarDec.declarations earlier decs).flatMap (fun p => p.2.events p.1) ++ xs) xs
      fun r => r.1.map VarDec.bare = decs.map VarDec.bare := by
  refine (accepts_fold (fun _ _ => (advances_varDec _ _).bind fun _ => advances_pure _)
    (F := fun _ => True)
    (R := Awaits VarDec.declarations VarDec.bare .subroutineLevel earlier decs) ?item
    (fun _ _ => trivial) hstop trivial (.init h)).bind ?list
  case item =>
    intro r m left hr
    refine ⟨_, _, rfl, fun t ht => ⟨t.span.start, varLead_of_spells ht, fun xs _ => ?_⟩⟩
    simp only [List.append_assoc, List.cons_append, List.nil_append]
    refine (accepts_varDec (hne m.2 hr.head.1) hr.head.2 _ xs).bind ?_
    rintro r' ⟨hd, hscopes⟩
    exact accepts_pure (hr.step hd hscopes)
  case list => exact fun r hr => accepts_pure hr.done.1

/-- The scope of a subroutine starts with its object, for which there is always room. -/
theorem accepts_subroutineScopes (className : String) (kind : SubroutineKind) (name : Ident) :
    Accepts (subroutineScopes className scopes kind name) xs xs
      (·.Lists .subroutineLevel (kind.object className)) := by
  have hempty : scopes.clearSubroutine.Lists .subroutineLevel [] :=
    ⟨rfl, fun _ => Nat.zero_le _⟩
  cases kind with
  | method =>
    have hargument : scopes.clearSubroutine.Lists Storage.argument.level [] := hempty
    obtain ⟨v, scopes', hdeclare, hscopes'⟩ :=
      hargument.exists_declare ⟨Keyword.kwThis.text, name.span⟩ (.object className) rfl
    intro c hc
    exact .inl ⟨scopes', c, by rw [subroutineScopes, declare, hdeclare], .refl hc, hscopes'⟩
  | constructor | function => exact accepts_pure hempty

/-- A subroutine is read back. -/
theorem accepts_subroutineDec {className : String} {s : SubroutineDec} (hne : s.IsGrammatical) :
    ∃ xs₁, s.events className = .token (.keyword s.kind.keyword) :: xs₁ ∧ ∀ start xs,
      Accepts (subroutineDec className scopes start s.kind) (xs₁ ++ xs) xs (·.bare = s.bare) := by
  refine ⟨_, rfl, fun start xs => ?_⟩
  simp only [List.append_assoc, List.cons_append, List.nil_append]
  -- Behind the declarations comes a statement or the closing brace.
  have hstop : Refuses varLead
      (terminalsOf (statementsEvents 1 s.statements ++ .token (.symbol '}') :: xs)) := by
    rw [terminalsOf_append, statementsEvents, terminalsOf_enter, statementsTerminals_bodyEvents]
    refine refuses_varLead ?_
    cases s.statements with
    | nil => simp [statementsTerminals, Terminal.keyword?]
    | cons first rest =>
      rw [statementsTerminals, List.append_assoc]
      obtain ⟨w, hw⟩ := first.keyword?_head_terminals
        (statementsTerminals rest ++ terminalsOf (.token (.symbol '}') :: xs))
      rw [hw]
      cases w <;> decide
  refine (accepts_returnType s.returnType).bind ?_
  rintro ty rfl
  refine (accepts_identifier s.name.text).bind fun name hname => ?_
  refine (accepts_subroutineScopes className s.kind name).bind fun scopes₁ hscopes₁ => ?_
  refine (accepts_symbol '(').bind fun _ _ => (accepts_parameters hscopes₁ _).bind ?_
  rintro parameters ⟨hparameters, hscopes₂⟩
  rw [← s.arguments_eq_flatMap] at hscopes₂
  refine (accepts_symbol ')').bind fun _ _ => (accepts_symbol '{').bind fun _ _ => ?_
  refine (accepts_varDecs hne hscopes₂ hstop).bind fun decs hdecs => ?_
  refine (accepts_statements decs.2.resolve maxNesting 1 rfl s.statements xs).bind
    fun statements hstatements => ?_
  refine (accepts_symbol '}').bind fun _ _ => accepts_spanFrom start fun _ => accepts_pure ?_
  rw [SubroutineDec.bare, SubroutineDec.bare, hparameters, hdecs, hstatements,
    Ident.bare_eq_of_text_eq hname]

theorem accepts_subroutineDecs {className : String} {subs : List SubroutineDec}
    (hsubs : ∀ s ∈ subs, s.IsGrammatical) (xs : List Event) :
    Accepts (subroutineDecs className scopes)
      (subs.flatMap (SubroutineDec.events className) ++ .token (.symbol '}') :: xs)
      (.token (.symbol '}') :: xs) (·.map SubroutineDec.bare = subs.map SubroutineDec.bare) := by
  refine (accepts_fold (fun _ _ => (advances_subroutineDec _ _ _ _).bind fun _ => advances_pure _)
    (F := fun _ => True)
    (R := fun done rest => done.reverse.map SubroutineDec.bare ++ rest.map SubroutineDec.bare =
      subs.map SubroutineDec.bare ∧ rest ⊆ subs) ?item (fun _ _ => trivial) ?stop trivial
    ⟨rfl, List.Subset.refl _⟩).bind ?list
  case stop =>
    intro w hw t ht
    obtain rfl := Option.some.inj hw
    rw [subroutineLead, ht.keyword?_eq]
    rfl
  case item =>
    rintro done s rest ⟨hdone, hrest⟩
    obtain ⟨xs₁, hevents, hs⟩ := accepts_subroutineDec (hsubs s (hrest (by simp)))
    refine ⟨_, xs₁, hevents, fun t ht =>
      ⟨(t.span.start, s.kind), subroutineLead_of_spells ht, fun xs _ => ?_⟩⟩
    refine (hs _ xs).bind fun s' hs' => accepts_pure ⟨?_, ?_⟩
    · simpa [hs'] using hdone
    · exact fun s'' hs'' => hrest (List.mem_cons_of_mem _ hs'')
  case list =>
    rintro done ⟨hdone, -⟩
    exact accepts_pure (by simpa using hdone)

end Declarations

end Parser

/-! ### The class -/

/-- A class is read back, up to the first limit that it breaks. -/
theorem Parser.accepts_classDec {c : ClassDec} (h : c.IsGrammatical) :
    Accepts classDec c.events [] fun parsed => parsed.tree.bare = c.bare := by
  have hstop : Refuses classVarLead (terminalsOf
      (c.subroutines.flatMap (SubroutineDec.events c.name.text) ++ [.token (.symbol '}')])) := by
    refine refuses_classVarLead fun k hk => ?_
    simp only [List.mem_cons, List.not_mem_nil, or_false] at hk
    cases c.subroutines with
    | nil => simp [Terminal.keyword?]
    | cons s ss =>
      simp only [List.flatMap_cons, SubroutineDec.events, List.cons_append, terminalsOf_token,
        List.head?_cons, Option.bind_some, Terminal.keyword?]
      rcases hk with rfl | rfl <;> cases s.kind <;> decide
  rw [ClassDec.events]
  refine accepts_offset fun start => (accepts_keyword .kwClass).bind fun _ _ => ?_
  refine (accepts_identifier c.name.text).bind fun name hname => ?_
  refine (accepts_symbol '{').bind fun _ _ => ?_
  refine (accepts_classVarDecs h.classVarNames_ne_nil hstop).bind fun decs hdecs => ?_
  rw [← hname]
  refine (accepts_subroutineDecs h.varNames_ne_nil []).bind fun subs hsubs => ?_
  refine (accepts_symbol '}').bind fun _ _ => accepts_spanFrom start fun _ => accepts_pure ?_
  rw [ClassDec.bare, ClassDec.bare, hdecs, hsubs, Ident.bare_eq_of_text_eq hname]

/-- A class that was read keeps to the limits. -/
theorem withinLimits_of_parse {tokens : List Token} {parsed : ParsedClass}
    (h : parse tokens = .ok parsed) : parsed.tree.WithinLimits := by
  obtain ⟨scopes, hread⟩ := readInScopes_of_parse h
  have hgrammatical := isGrammatical_of_parse h
  have hlevel := parsed.tree.level_of_mem_declarations
  refine ⟨hgrammatical.classVarNames_ne_nil, hgrammatical.varNames_ne_nil, nesting_le_of_parse h,
    ?_, fun s hs => ?_, hread.holds.declarable.count_le, fun s hs storage => ?_⟩
  · have hnodup := hread.holds.declarable.nodup .classLevel
    rwa [onLevel_eq_self hlevel] at hnodup
  · obtain ⟨scopes', hs', -⟩ := hread.exists_holds hs
    have hnodup := hs'.declarable.nodup .subroutineLevel
    rwa [onLevel_subroutineLevel_append hlevel (s.level_of_mem_declarations _)] at hnodup
  · obtain ⟨scopes', hs', -⟩ := hread.exists_holds hs
    have hcount := hs'.declarable.count_le storage
    rw [List.countP_append] at hcount
    exact Nat.le_trans (Nat.le_add_left _ _) hcount

/-- Tokens of a class are read as that class, or the first limit that it breaks is reported. -/
theorem parse_cases_of_spells {tree : ClassDec} {tokens : List Token} (h : tree.IsGrammatical)
    (htokens : List.Forall₂ Token.Spells tokens tree.terminals) :
    (∃ parsed, parse tokens = .ok parsed ∧ parsed.tree.bare = tree.bare ∧ Unbroken tree.events) ∨
      ∃ l c, firstBreak? tree.events = some (l, c.rest.length) ∧ c.tokens = tokens ∧
        parse tokens = .error (l.error c) := by
  have hstart : List.Forall₂ Token.Spells (Cursor.mk [] tokens).rest (terminalsOf tree.events) := by
    rwa [tree.terminals_events]
  rcases Parser.accepts_classDec h hstart with
    ⟨parsed, c, hclass, harrives, hbare⟩ | ⟨l, c, hbreak, hc, hclass⟩
  · have hrest : c.rest = [] := List.forall₂_nil_right_iff.1 harrives.spells
    exact .inl ⟨parsed, parse_eq_ok_iff.2 ⟨c, hclass, hrest⟩, hbare,
      firstBreak?_eq_none_iff.1 harrives.firstBreak?_eq.symm⟩
  · exact .inr ⟨l, c, hbreak, hc, by rw [parse, hclass]⟩

theorem exists_parse_of_spells {tree : ClassDec} {tokens : List Token} (h : tree.WithinLimits)
    (htokens : List.Forall₂ Token.Spells tokens tree.terminals) :
    ∃ parsed, parse tokens = .ok parsed ∧ parsed.tree.bare = tree.bare := by
  have hgrammatical : tree.IsGrammatical := ⟨h.classVarNames_ne_nil, h.varNames_ne_nil⟩
  rcases parse_cases_of_spells hgrammatical htokens with
    ⟨parsed, hparsed, hbare, -⟩ | ⟨l, c, hbreak, -⟩
  · exact ⟨parsed, hparsed, hbare⟩
  · have hunbroken : Unbroken tree.events := (ClassDec.unbroken_events_iff hgrammatical).2 h
    rw [firstBreak?_eq_none_iff.2 hunbroken] at hbreak
    cases hbreak

/-- **The tokens of a class that keeps to the limits are read as that class**, with ranges of its
own, and with the meanings that the declarations give to its names. -/
theorem parse_of_spells {tree : ClassDec} {tokens : List Token} (h : tree.WithinLimits)
    (htokens : List.Forall₂ Token.Spells tokens tree.terminals) :
    ∃ parsed, parse tokens = .ok parsed ∧ parsed.tree.bare = tree.bare ∧
      ∀ s ∈ parsed.tree.subroutines, ∀ n ∈ statementsNameUses s.statements,
        n.meaning = s.meaning parsed.tree.name.text parsed.tree.declaredVariables n.name := by
  obtain ⟨parsed, hparsed, hbare⟩ := exists_parse_of_spells h htokens
  exact ⟨parsed, hparsed, hbare, (lexicallyScoped_of_parse hparsed).meaning_eq⟩

theorem parse_of_spells_gauge :
    Gauge.tree.WithinLimits ∧ List.Forall₂ Token.Spells Gauge.tokens Gauge.tree.terminals ∧
      ∃ parsed, parse Gauge.tokens = .ok parsed ∧ parsed.tree.bare = Gauge.tree.bare ∧
        ∀ s ∈ parsed.tree.subroutines, ∀ n ∈ statementsNameUses s.statements,
          n.meaning = s.meaning parsed.tree.name.text parsed.tree.declaredVariables n.name := by
  have hlimits : Gauge.tree.WithinLimits := {
    classVarNames_ne_nil := by decide
    varNames_ne_nil := by decide
    nesting_le := by decide
    nodup := by decide
    nodup_subroutine := by decide
    count_le := by rintro ⟨⟩ <;> decide
    count_subroutine_le := by
      intro s hs storage
      obtain rfl := List.mem_singleton.1 hs
      cases storage <;> decide }
  have htokens : List.Forall₂ Token.Spells Gauge.tokens Gauge.tree.terminals :=
    forall₂_spells_mapIdx (by decide) _
  exact ⟨hlimits, htokens, parse_of_spells hlimits htokens⟩

/-! ### The first break -/

/-- A class ends with a brace, so there is a token from each event on. -/
theorem ClassDec.terminalsOf_ne_nil_of_events_eq {c : ClassDec} {before after : List Event}
    {x : Event} (h : c.events = before ++ x :: after) : terminalsOf (x :: after) ≠ [] := by
  have hlast : (before ++ x :: after).getLast? = some (.token (.symbol '}')) := by
    rw [← h]
    simp [events, List.getLast?_cons]
  rw [List.getLast?_append_of_ne_nil _ (List.cons_ne_nil x after)] at hlast
  have hmem : Terminal.symbol '}' ∈ terminalsOf (x :: after) :=
    List.mem_filterMap.2 ⟨_, List.mem_of_getLast? hlast, rfl⟩
  exact List.ne_nil_of_mem hmem

/-- **A class is refused exactly if it breaks a limit, and then the limit that it breaks first is
reported**, at the token where it does: the name that is declared again or for which there is no
index, or the first token of what is nested too deeply. -/
theorem parse_reports_firstBreak {tree : ClassDec} {tokens : List Token} (h : tree.IsGrammatical)
    (htokens : List.Forall₂ Token.Spells tokens tree.terminals) :
    ((∃ parsed, parse tokens = .ok parsed) ∧ Unbroken tree.events) ∨
      ∃ before t after l, tokens = before ++ t :: after ∧ tree.FirstBreak before.length l ∧
        parse tokens = .error (l.error ⟨before.reverse, t :: after⟩) := by
  rcases parse_cases_of_spells h htokens with
    ⟨parsed, hparsed, -, hunbroken⟩ | ⟨l, ⟨passed, rest⟩, hbreak, hc, hparse⟩
  · exact .inl ⟨⟨parsed, hparsed⟩, hunbroken⟩
  · obtain ⟨before, x, after, hevents, hbefore, hx, hn⟩ :=
      exists_eq_append_of_firstBreak?_eq_some hbreak
    -- As many tokens are left at the break as at the cursor, so as many are in front of it.
    have hlength : (terminalsOf before).length = passed.reverse.length := by
      have htotal := htokens.length_eq
      rw [← tree.terminals_events, hevents, terminalsOf_append, List.length_append, hn, ← hc,
        Cursor.tokens, List.length_append] at htotal
      exact (Nat.add_right_cancel htotal).symm
    cases rest with
    | nil =>
      have hnil : terminalsOf (x :: after) = [] := List.eq_nil_of_length_eq_zero hn
      exact absurd hnil (ClassDec.terminalsOf_ne_nil_of_events_eq hevents)
    | cons t rest =>
      refine .inr ⟨passed.reverse, t, rest, l, hc.symm, ?_, ?_⟩
      · exact ⟨before, x, after, hevents, hbefore, hx, hlength⟩
      · rw [List.reverse_reverse]
        exact hparse

namespace Gauge

/-- The class with its declarations of variables written twice. -/
def twice : ClassDec := { tree with varDecs := tree.varDecs ++ tree.varDecs }

/-- The tokens of the class with its declarations of variables written twice. -/
def twiceTokens : List Token := twice.terminals.mapIdx fun i w => w.token (.between i (i + 1))

end Gauge

theorem parse_reports_firstBreak_twice :
    Gauge.twice.IsGrammatical ∧
      List.Forall₂ Token.Spells Gauge.twiceTokens Gauge.twice.terminals ∧
        ∃ before t after l, Gauge.twiceTokens = before ++ t :: after ∧
          Gauge.twice.FirstBreak before.length l ∧
            parse Gauge.twiceTokens = .error (l.error ⟨before.reverse, t :: after⟩) := by
  have hgrammatical : Gauge.twice.IsGrammatical := {
    classVarNames_ne_nil := by decide
    varNames_ne_nil := by
      intro s hs
      obtain rfl := List.mem_singleton.1 hs
      show ∀ d ∈ _, _
      decide }
  have htokens : List.Forall₂ Token.Spells Gauge.twiceTokens Gauge.twice.terminals :=
    forall₂_spells_mapIdx (by decide) _
  have hbroken : firstBreak? Gauge.twice.events ≠ none := by decide
  rcases parse_reports_firstBreak hgrammatical htokens with ⟨-, hunbroken⟩ | hbreak
  · exact absurd (firstBreak?_eq_none_iff.2 hunbroken) hbroken
  · exact ⟨hgrammatical, htokens, hbreak⟩

/-- The static variable is declared again, with 59 of the 74 tokens left. -/
example : firstBreak? Gauge.twice.events = some (.distinct "count", 59) := by decide

end Jack

import Jack.Proofs.NameMap
import Jack.Proofs.Sentence

/-!
# Renaming variables

What the parameters and the local variables of a subroutine are called has no part in the code.  A
subroutine is renamed where it declares them and where a name means one of them, and nowhere else
(`SubroutineDec.rename`): called names, types and the names of other variables stay.  The new names
must not run into each other, nor into a name that means something else in that subroutine
(`SubroutineDec.Renaming`); beyond that they may be capitalised, or be those of variables of the
class, of classes or of subroutines.

* `SubroutineDec.meaning_rename` : a name means after the renaming what it meant before;
* `ClassDec.WithinLimits.setRenamed` : the renamed class keeps to the limits of the parser;
* `code_eq_of_renamed` : **the renamed tokens are read too, and their class has code exactly if that
  of the tokens has, and then the same.**
-/

namespace Jack

/-! ### Renaming a subroutine -/

namespace NameUse

/-- The name means a variable of the subroutine that is called one of the names `own`. -/
def isOwn (own : List String) (n : NameUse) : Bool :=
  match n.meaning with
  | .declared v => v.storage.level == .subroutineLevel && own.contains v.name
  | .className | .subroutine => false

/-- The name with the new spelling, if it means a variable that is called one of the names `own`. -/
def rename (own : List String) (ρ : String → String) (n : NameUse) : NameUse :=
  if n.isOwn own then ⟨ρ n.name, n.span, n.meaning⟩ else n

end NameUse

/-- A declared name with the new spelling. -/
def Ident.rename (ρ : String → String) (name : Ident) : Ident := ⟨ρ name.text, name.span⟩

namespace SubroutineDec

/-- The names of the parameters and of the local variables. -/
def ownNames (s : SubroutineDec) : List String :=
  s.parameters.map (·.name.text) ++ s.varDecs.flatMap fun d => d.names.map (·.text)

/-- The subroutine with other names for its parameters and local variables: where they are declared,
and where a name means one of them. -/
def rename (ρ : String → String) (s : SubroutineDec) : SubroutineDec :=
  { s with
    parameters := s.parameters.map fun p => ⟨p.type, p.name.rename ρ⟩
    varDecs := s.varDecs.map fun d => ⟨d.type, d.names.map (Ident.rename ρ), d.span⟩
    statements := mapStatementsNames (NameUse.rename s.ownNames ρ) s.statements }

/-- The parameters and the local variables of the subroutine may be renamed so. -/
structure Renaming (s : SubroutineDec) (ρ : String → String) : Prop where
  /-- Different variables get different names. -/
  injective : ∀ a ∈ s.ownNames, ∀ b ∈ s.ownNames, ρ a = ρ b → a = b
  /-- No new name is a reserved word. -/
  not_keyword : ∀ a ∈ s.ownNames, Keyword.ofText? (ρ a) = none
  /-- No new name is used for something else in the subroutine. -/
  fresh : ∀ n ∈ statementsNameUses s.statements, n.isOwn s.ownNames = false →
    ∀ a ∈ s.ownNames, ρ a ≠ n.name

instance (s : SubroutineDec) (ρ : String → String) : Decidable (s.Renaming ρ) :=
  decidable_of_iff
    ((∀ a ∈ s.ownNames, ∀ b ∈ s.ownNames, ρ a = ρ b → a = b) ∧
      (∀ a ∈ s.ownNames, Keyword.ofText? (ρ a) = none) ∧
        ∀ n ∈ statementsNameUses s.statements, n.isOwn s.ownNames = false →
          ∀ a ∈ s.ownNames, ρ a ≠ n.name)
    ⟨fun h => ⟨h.1, h.2.1, h.2.2⟩, fun h => ⟨h.injective, h.not_keyword, h.fresh⟩⟩

end SubroutineDec

/-- The class with another subroutine in the place `i`. -/
def ClassDec.setSubroutine (c : ClassDec) (i : Nat) (s : SubroutineDec) : ClassDec :=
  { c with subroutines := c.subroutines.set i s }

/-- The token with the name of the terminal, if that is a name. -/
def Token.respell (t : Token) : Terminal → Token
  | .identifier name => { t with text := name }
  | _ => t

/-- The tokens of a class with the names that the tree has in their places. -/
def respellTokens (tokens : List Token) (tree : ClassDec) : List Token :=
  tokens.zipWith Token.respell tree.terminals

/-! ### Declarations under other names -/

/-- The declaration under another name. -/
def Declaration.rename (r : String → String) (d : Declaration) : Declaration :=
  { d with name := r d.name }

/-- The variable under another name. -/
def Variable.rename (r : String → String) (v : Variable) : Variable := { v with name := r v.name }

/-- What becomes of a name in a subroutine that has the names `own`. -/
def renamed (own : List String) (ρ : String → String) (name : String) : String :=
  if name ∈ own then ρ name else name

section Declarations

variable (r : String → String) (ds : List Declaration)

theorem countP_map_rename (storage : Storage) :
    (ds.map (Declaration.rename r)).countP (·.storage == storage) =
      ds.countP (·.storage == storage) := List.countP_map

/-- Other names do not change the numbers of variables. -/
theorem numbered_map_rename :
    numbered (ds.map (Declaration.rename r)) = (numbered ds).map (Variable.rename r) := by
  refine List.ext_getElem (by simp [numbered]) fun i h h' => ?_
  simp only [numbered, List.getElem_mapIdx, List.getElem_map, ← List.map_take, countP_map_rename]
  rfl

end Declarations

namespace SubroutineDec

variable {className : String} {s : SubroutineDec} {ρ : String → String}

theorem map_name_declarations :
    (s.declarations className).map (·.name) =
      (s.kind.object className).map (·.name) ++ s.ownNames := by
  simp [declarations, arguments, locals, ownNames, declarationsOf, List.map_flatMap,
    Function.comp_def]

theorem map_name_declaredVariables :
    (s.declaredVariables className).map (·.name) = (s.declarations className).map (·.name) := by
  rw [← numbered_declarations, map_name_numbered]

theorem not_mem_ownNames_of_find?_eq_none {x : String}
    (h : (s.declaredVariables className).find? (·.name == x) = none) : x ∉ s.ownNames := by
  intro hown
  have hmem : x ∈ (s.declaredVariables className).map (·.name) := by
    rw [map_name_declaredVariables, map_name_declarations]
    exact List.mem_append_right _ hown
  obtain ⟨v, hv, rfl⟩ := List.mem_map.1 hmem
  exact List.find?_eq_none.1 h v hv (beq_self_eq_true _)

/-- The only name of a subroutine that it does not declare itself is that of its object. -/
theorem eq_kwThis_of_mem_object {d : Declaration} (h : d ∈ s.kind.object className) :
    d.name = Keyword.kwThis.text := by
  cases hkind : s.kind with
  | method =>
    rw [hkind] at h
    rw [List.mem_singleton.1 h]
  | constructor | function =>
    rw [hkind] at h
    cases h

namespace Renaming

variable (hρ : s.Renaming ρ)

include hρ

/-- No new name is that of the object. -/
theorem ne_of_mem_object {a b : String} (ha : a ∈ s.ownNames)
    (hb : b ∈ (s.kind.object className).map (·.name)) : ρ a ≠ b := by
  rintro rfl
  obtain ⟨d, hd, hname⟩ := List.mem_map.1 hb
  have hkeyword := hρ.not_keyword a ha
  rw [← hname, eq_kwThis_of_mem_object hd, Keyword.ofText?_text] at hkeyword
  cases hkeyword

/-- A new name is that of the same variable only. -/
theorem renamed_eq_iff {a x : String} (ha : a ∈ (s.declarations className).map (·.name))
    (hx : x ∉ s.ownNames → ∀ b ∈ s.ownNames, ρ b ≠ x) :
    renamed s.ownNames ρ a = renamed s.ownNames ρ x ↔ a = x := by
  by_cases haown : a ∈ s.ownNames
  · by_cases hxown : x ∈ s.ownNames
    · rw [renamed, if_pos haown, renamed, if_pos hxown]
      exact ⟨hρ.injective a haown x hxown, congrArg ρ⟩
    · rw [renamed, if_pos haown, renamed, if_neg hxown]
      exact iff_of_false (hx hxown a haown) fun heq => hxown (heq ▸ haown)
  · by_cases hxown : x ∈ s.ownNames
    · rw [map_name_declarations, List.mem_append, or_iff_left haown] at ha
      rw [renamed, if_neg haown, renamed, if_pos hxown]
      exact iff_of_false (Ne.symm (hρ.ne_of_mem_object hxown ha)) fun heq => haown (heq ▸ hxown)
    · rw [renamed, if_neg haown, renamed, if_neg hxown]

end Renaming

section Distinct

variable (hnodup : ((s.declarations className).map (·.name)).Nodup)

include hnodup

theorem not_mem_ownNames_of_mem_object {d : Declaration} (h : d ∈ s.kind.object className) :
    d.name ∉ s.ownNames := by
  rw [map_name_declarations, List.nodup_append] at hnodup
  exact fun hown => hnodup.2.2 _ (List.mem_map_of_mem h) _ hown rfl

/-- A renamed subroutine declares its names under their new spelling. -/
theorem declarations_rename (ρ : String → String) :
    (s.rename ρ).declarations className =
      (s.declarations className).map (Declaration.rename (renamed s.ownNames ρ)) := by
  have hobject : (s.kind.object className).map (Declaration.rename (renamed s.ownNames ρ)) =
      s.kind.object className := by
    refine (List.map_congr_left fun d hd => ?_).trans (List.map_id _)
    rw [Declaration.rename, renamed, if_neg (not_mem_ownNames_of_mem_object hnodup hd)]
    rfl
  have hparameters : ∀ p ∈ s.parameters, renamed s.ownNames ρ p.name.text = ρ p.name.text :=
    fun p hp => if_pos (List.mem_append_left _ (List.mem_map_of_mem hp))
  have hlocals : ∀ d ∈ s.varDecs, ∀ name ∈ d.names, renamed s.ownNames ρ name.text = ρ name.text :=
    fun d hd name hname => if_pos
      (List.mem_append_right _ (List.mem_flatMap.2 ⟨d, hd, List.mem_map_of_mem hname⟩))
  have harguments : (s.rename ρ).arguments className =
      (s.arguments className).map (Declaration.rename (renamed s.ownNames ρ)) := by
    rw [arguments, arguments, List.map_append, hobject, rename, List.map_map, List.map_map]
    refine congrArg _ (List.map_congr_left fun p hp => ?_)
    simp [Declaration.rename, Ident.rename, hparameters p hp]
  have hdecs : (s.rename ρ).locals =
      s.locals.map (Declaration.rename (renamed s.ownNames ρ)) := by
    rw [locals, locals, List.map_flatMap, rename, List.flatMap_map]
    refine List.flatMap_congr fun d hd => ?_
    rw [declarationsOf, declarationsOf, List.map_map, List.map_map]
    refine List.map_congr_left fun name hname => ?_
    simp [Declaration.rename, Ident.rename, hlocals d hd name hname]
  rw [declarations, declarations, List.map_append, harguments, hdecs]

theorem declaredVariables_rename (ρ : String → String) :
    (s.rename ρ).declaredVariables className =
      (s.declaredVariables className).map (Variable.rename (renamed s.ownNames ρ)) := by
  rw [← numbered_declarations, ← numbered_declarations, declarations_rename hnodup,
    numbered_map_rename]

variable (hρ : s.Renaming ρ)

include hρ

theorem find?_rename {x : String} (hx : x ∉ s.ownNames → ∀ b ∈ s.ownNames, ρ b ≠ x) :
    ((s.rename ρ).declaredVariables className).find? (·.name == renamed s.ownNames ρ x) =
      ((s.declaredVariables className).find? (·.name == x)).map
        (Variable.rename (renamed s.ownNames ρ)) := by
  have hsame : ∀ v ∈ s.declaredVariables className,
      ((·.name == renamed s.ownNames ρ x) ∘ Variable.rename (renamed s.ownNames ρ)) v =
        (v.name == x) := fun v hv => by
    rw [Bool.eq_iff_iff, Function.comp_apply, beq_iff_eq, beq_iff_eq]
    exact hρ.renamed_eq_iff (map_name_declaredVariables ▸ List.mem_map_of_mem hv) hx
  rw [declaredVariables_rename hnodup, List.find?_map, ← List.head?_filter,
    List.filter_congr hsame, List.head?_filter]

/-- **A name means after the renaming what it meant before.** -/
theorem meaning_rename (ofClass : List Variable) {x : String} (span span' : Span)
    (hx : x ∉ s.ownNames → ∀ b ∈ s.ownNames, ρ b ≠ x) :
    NameUse.anonymous ⟨renamed s.ownNames ρ x, span,
        (s.rename ρ).meaning className ofClass (renamed s.ownNames ρ x)⟩ =
      NameUse.anonymous ⟨x, span', s.meaning className ofClass x⟩ := by
  rw [meaning, meaning, List.find?_append, List.find?_append, find?_rename hnodup hρ hx]
  cases hfind : (s.declaredVariables className).find? (·.name == x) with
  | some v => rfl
  | none =>
    -- A name that the subroutine does not declare is not renamed.
    rw [renamed, if_neg (not_mem_ownNames_of_find?_eq_none hfind)]
    cases ofClass.find? (·.name == x) with
    | some v => rfl
    | none =>
      cases startsUpper x <;> rfl

end Distinct

/-- A name that means what it has to is one of the subroutine's own if it is spelled like one. -/
theorem isOwn_iff {ofClass : List Variable}
    (hofClass : ∀ v ∈ ofClass, v.storage.level = .classLevel) {n : NameUse}
    (h : n.meaning = s.meaning className ofClass n.name) :
    n.isOwn s.ownNames = true ↔ n.name ∈ s.ownNames := by
  rw [NameUse.isOwn, h, meaning, List.find?_append]
  cases hfind : (s.declaredVariables className).find? (·.name == n.name) with
  | some v =>
    -- A variable of the subroutine is one of its declarations, so it is on its level.
    have hname : v.name = n.name := by simpa using List.find?_some hfind
    have hmem := List.mem_of_find?_eq_some hfind
    rw [← numbered_declarations] at hmem
    obtain ⟨d, hd, index, rfl⟩ := exists_declaration_of_mem_numbered hmem
    have hlevel : (d.variable index).storage.level = .subroutineLevel :=
      s.level_of_mem_declarations className d hd
    simp [hlevel, hname]
  | none =>
    have hown := not_mem_ownNames_of_find?_eq_none hfind
    cases hclass : ofClass.find? (·.name == n.name) with
    | some v => simp [hofClass v (List.mem_of_find?_eq_some hclass), hown]
    | none => cases startsUpper n.name <;> simp [hown]

/-- A name that means what it has to is renamed by its spelling. -/
theorem rename_eq {ofClass : List Variable}
    (hofClass : ∀ v ∈ ofClass, v.storage.level = .classLevel) {n : NameUse}
    (h : n.meaning = s.meaning className ofClass n.name) :
    n.rename s.ownNames ρ = ⟨renamed s.ownNames ρ n.name, n.span, n.meaning⟩ := by
  rw [NameUse.rename, renamed]
  by_cases hown : n.name ∈ s.ownNames
  · rw [if_pos ((isOwn_iff hofClass h).2 hown), if_pos hown]
  · rw [if_neg (hown ∘ (isOwn_iff hofClass h).1), if_neg hown]

theorem nesting_rename : (s.rename ρ).nesting = s.nesting :=
  congrArg (· + 1) (statementsNesting_mapStatementsNames _ s.statements)

theorem localCount_rename : (s.rename ρ).localCount = s.localCount := by
  simp [localCount, rename, List.foldr_map]

/-- A renamed subroutine is written with names in the same places. -/
theorem nameless_terminals_rename :
    (s.rename ρ).terminals.map Terminal.nameless = s.terminals.map Terminal.nameless := by
  have hnames (names : List Ident) :
      (namesTerminals (names.map (Ident.rename ρ))).map Terminal.nameless =
        (namesTerminals names).map Terminal.nameless := by
    simp [namesTerminals, map_nameless_withCommas, Terminal.nameless, Function.comp_def]
  have hdecs : ((s.rename ρ).varDecs.flatMap VarDec.terminals).map Terminal.nameless =
      (s.varDecs.flatMap VarDec.terminals).map Terminal.nameless := by
    rw [rename, List.flatMap_map, List.map_flatMap, List.map_flatMap]
    refine List.flatMap_congr fun d _ => ?_
    simp only [VarDec.terminals, List.map_cons, List.map_append, hnames]
  have hparameters : (withCommas ((s.rename ρ).parameters.map Parameter.terminals)).map
        Terminal.nameless =
      (withCommas (s.parameters.map Parameter.terminals)).map Terminal.nameless := by
    simp [map_nameless_withCommas, rename, Parameter.terminals, Terminal.nameless,
      Function.comp_def]
  simp only [terminals, List.map_cons, List.map_append, hdecs, hparameters]
  simp only [rename, nameless_statementsTerminals]

end SubroutineDec

/-! ### A class with a renamed subroutine -/

theorem forall₂_set {α : Type} {R : α → α → Prop} {l : List α} {i : Nat} {x y : α}
    (hl : ∀ z ∈ l, R z z) (hx : l[i]? = some x) (hy : R y x) : List.Forall₂ R (l.set i y) l := by
  induction l generalizing i with
  | nil => cases hx
  | cons z l ih =>
    rw [List.forall_mem_cons] at hl
    cases i with
    | zero =>
      obtain rfl := Option.some.inj hx
      exact .cons hy (List.forall₂_same.2 hl.2)
    | succ i => exact .cons hl.1 (ih hl.2 hx)

theorem forall₂_spells_respell {tokens : List Token} {ws ws' : List Terminal}
    (h : List.Forall₂ Token.Spells tokens ws)
    (hsame : ws'.map Terminal.nameless = ws.map Terminal.nameless) :
    List.Forall₂ Token.Spells (tokens.zipWith Token.respell ws') ws' := by
  induction h generalizing ws' with
  | nil =>
    obtain rfl := List.map_eq_nil_iff.1 hsame
    exact .nil
  | @cons t w tokens ws ht _ ih =>
    obtain ⟨w', ws', rfl, hw, hws⟩ := List.map_eq_cons_iff.1 hsame
    refine .cons ?_ (ih hws)
    cases w with
    | identifier name =>
      cases w' with
      | identifier name' => exact ⟨ht.1, rfl⟩
      | _ => cases hw
    | _ =>
      cases w' <;> cases hw
      exact ht

section Classes

variable {c : ClassDec} {i : Nat} {s : SubroutineDec} {ρ : String → String}

/-- **The renamed class keeps to the limits of the parser.** -/
theorem ClassDec.WithinLimits.setRenamed (h : c.WithinLimits) (hs : s ∈ c.subroutines)
    (hρ : s.Renaming ρ) (i : Nat) : (c.setSubroutine i (s.rename ρ)).WithinLimits := by
  have hnodup := h.nodup_subroutine s hs
  have hforall {P : SubroutineDec → Prop} (hc : ∀ t ∈ c.subroutines, P t) (hs : P (s.rename ρ)) :
      ∀ t ∈ (c.setSubroutine i (s.rename ρ)).subroutines, P t := fun t ht => by
    rcases List.mem_or_eq_of_mem_set ht with ht | rfl
    · exact hc t ht
    · exact hs
  refine ⟨h.classVarNames_ne_nil, hforall h.varNames_ne_nil ?_, ?_, h.nodup,
    hforall h.nodup_subroutine ?_, h.count_le, hforall h.count_subroutine_le fun storage => ?_⟩
  · intro d hd
    obtain ⟨d, hd', rfl⟩ := List.mem_map.1 hd
    simpa using h.varNames_ne_nil s hs d hd'
  · have hc := ClassDec.nesting_le_iff.1 h.nesting_le
    have hrenamed : (s.rename ρ).nesting ≤ 64 := s.nesting_rename ▸ hc s hs
    exact ClassDec.nesting_le_iff.2 (hforall hc hrenamed)
  · have hnames : ((s.rename ρ).declarations c.name.text).map (·.name) =
        ((s.declarations c.name.text).map (·.name)).map (renamed s.ownNames ρ) := by
      rw [SubroutineDec.declarations_rename hnodup, List.map_map, List.map_map]
      rfl
    change (((s.rename ρ).declarations c.name.text).map (·.name)).Nodup
    rw [hnames]
    refine List.Nodup.map_on (fun a ha b hb => (hρ.renamed_eq_iff ha fun hown a' ha' => ?_).1)
      hnodup
    rw [SubroutineDec.map_name_declarations, List.mem_append, or_iff_left hown] at hb
    exact hρ.ne_of_mem_object ha' hb
  · change ((s.rename ρ).declarations c.name.text).countP (·.storage == storage) ≤ 32768
    rw [SubroutineDec.declarations_rename hnodup, countP_map_rename]
    exact h.count_subroutine_le s hs storage

theorem ClassDec.nameless_terminals_setRenamed (hs : c.subroutines[i]? = some s) :
    (c.setSubroutine i (s.rename ρ)).terminals.map Terminal.nameless =
      c.terminals.map Terminal.nameless := by
  have hsubs := forall₂_set
    (R := fun t t' : SubroutineDec => t.terminals.map Terminal.nameless =
      t'.terminals.map Terminal.nameless)
    (fun _ _ => rfl) hs (s.nameless_terminals_rename (ρ := ρ))
  have hflat :
      ((c.subroutines.set i (s.rename ρ)).flatMap SubroutineDec.terminals).map Terminal.nameless =
        (c.subroutines.flatMap SubroutineDec.terminals).map Terminal.nameless := by
    rw [List.map_flatMap, List.map_flatMap, List.flatMap_def, List.flatMap_def]
    refine congrArg List.flatten ?_
    rwa [← List.forall₂_eq_eq_eq, List.forall₂_map_left_iff, List.forall₂_map_right_iff]
  simp only [ClassDec.terminals, setSubroutine, List.map_cons, List.map_append, hflat]

end Classes

/-! ### Code that does not look at names -/

/-- The first subroutine is the second one with names that have the same code. -/
structure SubroutineDec.Mirrors (s' s : SubroutineDec) : Prop where
  /-- They are of the same sort. -/
  kind_eq : s'.kind = s.kind
  /-- They have the same name. -/
  name_eq : s'.name.text = s.name.text
  /-- They have as many local variables. -/
  localCount_eq : s'.localCount = s.localCount
  /-- Their statements differ in names with the same code. -/
  statements_eq : ∃ f, KeepsCode f (statementsNameUses s.statements) ∧
    s'.statements = mapStatementsNames f s.statements

section Mirrors

variable {s s' : SubroutineDec} {ss ss' : List SubroutineDec}

theorem SubroutineDec.Mirrors.check_eq_ok_iff (h : s'.Mirrors s) (options : Options)
    (fields : Nat) : s'.check options fields = .ok () ↔ s.check options fields = .ok () := by
  obtain ⟨hkind, -, hcount, f, hf, hstatements⟩ := h
  have hbody := checkStatements_mapNames ⟨s.kind, options⟩ s.statements hf
  rw [check, check, Check.bind_eq_ok_iff, Check.bind_eq_ok_iff, Check.fits_eq_ok_iff,
    Check.fits_eq_ok_iff, hcount, hkind, hstatements]
  by_cases hconstructor : s.kind = .constructor
  · simp only [hconstructor, if_true, Check.bind_eq_ok_iff, Check.fits_eq_ok_iff] at hbody ⊢
    rw [hbody]
  · simp only [hconstructor, if_false, hbody]

theorem checkSubroutines_of_mirrors (h : List.Forall₂ SubroutineDec.Mirrors ss' ss)
    (options : Options) (fields : Nat) :
    checkSubroutines options fields ss' = .ok () ↔ checkSubroutines options fields ss = .ok () := by
  induction h with
  | nil => exact Iff.rfl
  | cons hs _ ih =>
    rw [checkSubroutines, checkSubroutines, Check.bind_eq_ok_iff, Check.bind_eq_ok_iff,
      hs.check_eq_ok_iff, ih]

theorem subroutinesListing_of_mirrors (h : List.Forall₂ SubroutineDec.Mirrors ss' ss)
    (ctx : CodeContext) (fields : Nat) (labels : LabelSupply) :
    uncommented (subroutinesListing ctx fields labels ss') =
      uncommented (subroutinesListing ctx fields labels ss) := by
  induction h generalizing labels with
  | nil => rfl
  | cons hs _ ih =>
    obtain ⟨hkind, hname, hcount, f, hf, hstatements⟩ := hs
    simp only [subroutinesListing, SubroutineDec.header, hkind, hname, hcount, hstatements,
      uncommented_append, statementsListing_mapNames ctx _ hf, statementsLabelsAfter_mapNames, ih]

end Mirrors

/-- The code of a class but for comments, if it has code. -/
def ClassDec.code? (c : ClassDec) (scope : Scope) (source : String) (options : Options) :
    Option (List Instruction) :=
  (((lower c scope source options).map Array.toList).map uncommented).toOption

namespace ClassDec

variable {c c' : ClassDec} {scope scope' : Scope} {source source' : String} {options : Options}

theorem code?_unplaced (source source' : String) :
    c.unplaced.code? scope source' options = c.code? scope source options := by
  rw [code?, code?, lower_unplaced c scope source source' options]
  cases lower c scope source options <;> rfl

theorem code?_of_mirrors (hsubs : List.Forall₂ SubroutineDec.Mirrors c'.subroutines c.subroutines)
    (hname : c'.name.text = c.name.text) :
    c'.code? scope source options = c.code? scope source options := by
  have hcheck := checkSubroutines_of_mirrors hsubs options (scope.count .field)
  have hlisting := subroutinesListing_of_mirrors hsubs ⟨c.name.text, options, source⟩
    (scope.count .field) .new
  rw [code?, code?, map_toList_lower, map_toList_lower, hname]
  cases h : checkSubroutines options (scope.count .field) c.subroutines with
  | ok u =>
    rw [hcheck.2 h]
    exact congrArg some hlisting
  | error e =>
    cases h' : checkSubroutines options (scope.count .field) c'.subroutines with
    | ok u => rw [hcheck.1 h'] at h; cases h
    | error e' => rfl

/-- Of a scope, the code of a class depends on the number of fields. -/
theorem code?_congr_scope (h : scope'.count .field = scope.count .field) :
    c.code? scope' source options = c.code? scope source options := by
  rw [code?, code?, map_toList_lower, map_toList_lower, h]

/-- Without annotations there are no comments to leave out. -/
theorem toOption_lower (h : options.annotates = false) :
    (lower c scope source options).toOption.map Array.toList = c.code? scope source options := by
  have hlisting : uncommented (subroutinesListing ⟨c.name.text, options, source⟩
      (scope.count .field) .new c.subroutines) = subroutinesListing ⟨c.name.text, options, source⟩
        (scope.count .field) .new c.subroutines :=
    uncommented_subroutinesListing h (scope.count .field) .new c.subroutines
  have hplain : ((lower c scope source options).map Array.toList).map uncommented =
      (lower c scope source options).map Array.toList := by
    rw [map_toList_lower]
    cases checkSubroutines options (scope.count .field) c.subroutines with
    | ok u => exact congrArg Except.ok hlisting
    | error e => rfl
  rw [code?, hplain]
  cases lower c scope source options <;> rfl

end ClassDec

/-! ### Giving names their meaning -/

/-- The subroutine with each name given its meaning. -/
def SubroutineDec.resolved (className : String) (ofClass : List Variable) (s : SubroutineDec) :
    SubroutineDec :=
  { s with statements := mapStatementsNames (.resolve (s.meaning className ofClass)) s.statements }

/-- The class with each name given its meaning. -/
def ClassDec.resolved (c : ClassDec) : ClassDec :=
  { c with subroutines := c.subroutines.map (·.resolved c.name.text c.declaredVariables) }

theorem ClassDec.declarations_bare (c : ClassDec) : c.bare.declarations = c.declarations := by
  simp [declarations, declarationsOf, bare, ClassVarDec.bare, Ident.bare, List.flatMap_map,
    Function.comp_def]

theorem SubroutineDec.declaredVariables_bare (className : String) (s : SubroutineDec) :
    s.bare.declaredVariables className = s.declaredVariables className := by
  simp [declaredVariables, arguments, locals, declarationsOf, bare, Parameter.bare, VarDec.bare,
    Ident.bare, List.flatMap_map, Function.comp_def]

theorem SubroutineDec.resolved_bare (className : String) (ofClass : List Variable)
    (s : SubroutineDec) :
    s.bare.resolved className ofClass = (s.resolved className ofClass).unplaced := by
  have hmeaning : s.bare.meaning className ofClass = s.meaning className ofClass := by
    funext name
    rw [meaning, meaning, declaredVariables_bare]
  have hstatements := bareStatements_mapNames (s.meaning className ofClass) s.statements
  rw [resolved, resolved, unplaced, hmeaning, ← hstatements]
  rfl

/-- A tree that is given its meanings need not have had any before. -/
theorem ClassDec.resolved_bare (c : ClassDec) : c.bare.resolved = c.resolved.unplaced := by
  have hclass : c.bare.declaredVariables = c.declaredVariables :=
    congrArg numbered c.declarations_bare
  have hsubs : (c.subroutines.map SubroutineDec.bare).map
        (·.resolved c.name.text c.declaredVariables) =
      (c.subroutines.map (·.resolved c.name.text c.declaredVariables)).map
        SubroutineDec.unplaced := by
    rw [List.map_map, List.map_map]
    exact List.map_congr_left fun s _ => s.resolved_bare _ _
  rw [resolved, resolved, unplaced, hclass, ← hsubs]
  rfl

section Resolved

variable {className : String} {ofClass : List Variable} {s : SubroutineDec}

/-- To give names the meaning that they have keeps the code. -/
theorem SubroutineDec.mirrors_resolved
    (h : ∀ n ∈ statementsNameUses s.statements, n.meaning = s.meaning className ofClass n.name) :
    (s.resolved className ofClass).Mirrors s := by
  refine ⟨rfl, rfl, rfl, _, fun n hn => ?_, rfl⟩
  rw [NameUse.resolve, ← h n hn]

/-- **A renamed subroutine whose names are given their meaning has the code of the subroutine.** -/
theorem SubroutineDec.mirrors_rename {ρ : String → String} (hρ : s.Renaming ρ)
    (hnodup : ((s.declarations className).map (·.name)).Nodup)
    (hofClass : ∀ v ∈ ofClass, v.storage.level = .classLevel)
    (h : ∀ n ∈ statementsNameUses s.statements, n.meaning = s.meaning className ofClass n.name) :
    ((s.rename ρ).resolved className ofClass).Mirrors s := by
  refine ⟨rfl, rfl, s.localCount_rename, _, fun n hn => ?_,
    mapStatementsNames_mapStatementsNames _ _ s.statements⟩
  have hfresh : n.name ∉ s.ownNames → ∀ a ∈ s.ownNames, ρ a ≠ n.name := fun hown =>
    hρ.fresh n hn (by simpa using hown ∘ (isOwn_iff hofClass (h n hn)).1)
  have hmeaning := meaning_rename hnodup hρ ofClass n.span n.span hfresh
  rw [Function.comp_apply, rename_eq hofClass (h n hn), NameUse.resolve, hmeaning, ← h n hn]

end Resolved

/-- A lexically scoped class has the code that it has once its names are given their meaning. -/
theorem LexicallyScoped.code?_eq {parsed : ParsedClass} (h : LexicallyScoped parsed) (scope : Scope)
    (source source' : String) (options : Options) :
    parsed.tree.bare.resolved.code? scope source' options =
      parsed.tree.code? scope source options := by
  rw [ClassDec.resolved_bare, ClassDec.code?_unplaced source]
  refine ClassDec.code?_of_mirrors (List.forall₂_map_left_iff.2 (List.forall₂_same.2 ?_)) rfl
  exact fun s hs => SubroutineDec.mirrors_resolved (h.meaning_eq s hs)

theorem LexicallyScoped.fields_eq {parsed : ParsedClass} (h : LexicallyScoped parsed) :
    parsed.scope.count .field = parsed.tree.declarations.countP (·.storage == .field) := by
  rw [Scope.count_eq_countP_toList, h.scope_eq, ClassDec.declaredVariables, countP_numbered]

/-! ### Renamed tokens -/

section Renamed

variable {tokens : List Token} {parsed : ParsedClass} {i : Nat} {s : SubroutineDec}
  {ρ : String → String}

/-- Tokens that are written for the renamed class are read as the renamed class, which has the code
of the class. -/
theorem exists_parse_of_renamed (h : parse tokens = .ok parsed)
    (hs : parsed.tree.subroutines[i]? = some s) (hρ : s.Renaming ρ) {tokens' : List Token}
    (htokens' : List.Forall₂ Token.Spells tokens'
      (parsed.tree.setSubroutine i (s.rename ρ)).terminals) :
    ∃ parsed', parse tokens' = .ok parsed' ∧
      parsed'.tree.bare = (parsed.tree.setSubroutine i (s.rename ρ)).bare ∧
      ∀ source source' options, parsed'.tree.code? parsed'.scope source' options =
        parsed.tree.code? parsed.scope source options := by
  have hmem := List.mem_of_getElem? hs
  have hlimits := withinLimits_of_parse h
  have hscoped := lexicallyScoped_of_parse h
  obtain ⟨parsed', hparsed', hbare⟩ :=
    exists_parse_of_spells (hlimits.setRenamed hmem hρ i) htokens'
  refine ⟨parsed', hparsed', hbare, fun source source' options => ?_⟩
  have hscoped' := lexicallyScoped_of_parse hparsed'
  have hdeclarations : parsed'.tree.declarations = parsed.tree.declarations := by
    rw [← parsed'.tree.declarations_bare, hbare, ClassDec.declarations_bare]
    rfl
  have hofClass : ∀ v ∈ parsed.tree.declaredVariables, v.storage.level = .classLevel := fun v hv =>
    by
      obtain ⟨d, hd, index, rfl⟩ := exists_declaration_of_mem_numbered hv
      exact parsed.tree.level_of_mem_declarations d hd
  have hmirrors : List.Forall₂ SubroutineDec.Mirrors
      (parsed.tree.setSubroutine i (s.rename ρ)).resolved.subroutines parsed.tree.subroutines := by
    refine List.forall₂_map_left_iff.2 (forall₂_set (fun t ht => ?_) hs ?_)
    · exact SubroutineDec.mirrors_resolved (hscoped.meaning_eq t ht)
    · exact SubroutineDec.mirrors_rename hρ (hlimits.nodup_subroutine s hmem) hofClass
        (hscoped.meaning_eq s hmem)
  calc parsed'.tree.code? parsed'.scope source' options
      = parsed'.tree.bare.resolved.code? parsed'.scope source options :=
        (hscoped'.code?_eq _ _ _ _).symm
    _ = (parsed.tree.setSubroutine i (s.rename ρ)).resolved.code? parsed'.scope source options := by
        rw [hbare, ClassDec.resolved_bare, ClassDec.code?_unplaced source]
    _ = parsed.tree.code? parsed'.scope source options := ClassDec.code?_of_mirrors hmirrors rfl
    _ = parsed.tree.code? parsed.scope source options :=
        ClassDec.code?_congr_scope (by rw [hscoped'.fields_eq, hdeclarations, hscoped.fields_eq])

/-- **To rename the parameters and the local variables of a subroutine changes no code.**  The
tokens with the new names are read as the renamed class, which has code if the class has, and then
the same. -/
theorem code_eq_of_renamed (h : parse tokens = .ok parsed)
    (hs : parsed.tree.subroutines[i]? = some s) (hρ : s.Renaming ρ) :
    ∃ parsed',
      parse (respellTokens tokens (parsed.tree.setSubroutine i (s.rename ρ))) = .ok parsed' ∧
      parsed'.tree.bare = (parsed.tree.setSubroutine i (s.rename ρ)).bare ∧
      ∀ source source' options, options.annotates = false →
        (lower parsed'.tree parsed'.scope source' options).toOption =
          (lower parsed.tree parsed.scope source options).toOption := by
  have hrespelled := forall₂_spells_respell (spells_of_parse h)
    (ClassDec.nameless_terminals_setRenamed (ρ := ρ) hs)
  obtain ⟨parsed', hparsed', hbare, hcode⟩ := exists_parse_of_renamed h hs hρ hrespelled
  refine ⟨parsed', hparsed', hbare, fun source source' options hplain => ?_⟩
  have hlists := hcode source source' options
  rw [← ClassDec.toOption_lower hplain, ← ClassDec.toOption_lower hplain] at hlists
  exact Option.map_injective (fun _ _ => Array.toList_inj.1) hlists

end Renamed

/-- The parameter gets the name of the class, and the local variable that of a subroutine that is
called. -/
def Gauge.newName : String → String
  | "step" => "Gauge"
  | "level" => "draw"
  | name => name

theorem code_eq_of_renamed_gauge :
    ∃ parsed s, parse Gauge.tokens = .ok parsed ∧ parsed.tree.subroutines[0]? = some s ∧
      s.Renaming Gauge.newName ∧ s.ownNames = ["step", "level"] ∧
      ∃ parsed', parse (respellTokens Gauge.tokens
          (parsed.tree.setSubroutine 0 (s.rename Gauge.newName))) = .ok parsed' ∧
        parsed'.tree.bare = (parsed.tree.setSubroutine 0 (s.rename Gauge.newName)).bare ∧
        ∀ source source' options, options.annotates = false →
          (lower parsed'.tree parsed'.scope source' options).toOption =
            (lower parsed.tree parsed.scope source options).toOption := by
  obtain ⟨parsed, h⟩ := Gauge.exists_parse_tokens
  have hok : ((parse Gauge.tokens).toOption.bind (·.tree.subroutines[0]?)).any (fun s =>
      decide (s.Renaming Gauge.newName ∧ s.ownNames = ["step", "level"])) = true := by
    decide +kernel
  rw [h, Option.any_eq_true] at hok
  obtain ⟨s, hs, hρ⟩ := hok
  obtain ⟨hρ, hown⟩ := of_decide_eq_true hρ
  exact ⟨parsed, s, h, hs, hρ, hown, code_eq_of_renamed h hs hρ⟩

end Jack

import Jack.Scope
import Jack.Tree
import Mathlib.Data.List.Induction
import Mathlib.Data.List.Nodup

/-!
# Lexical scope

A tree says which names it declares and in which order, so it says what each of its names means,
without any scope that is filled and cleared on the way.  `ClassDec.declaredVariables` are the
variables of a class and `SubroutineDec.declaredVariables` those of one of its subroutines;
`SubroutineDec.meaning` looks a name up in the second and then in the first.

A `Declaration` is a name with its type and its storage class.  `Scopes.Holds` says of scopes that
they were made by declarations in order.

* `Scopes.Holds.of_declare` : to declare one more name keeps it;
* `Scopes.Holds.resolve_eq` : the scopes of a subroutine give each name its meaning.
-/

namespace Jack

/-! ### Declarations -/

/-- The declaration of one variable. -/
structure Declaration where
  /-- The declared name. -/
  name : String
  /-- The declared type. -/
  type : TypeName
  /-- The storage class. -/
  storage : Storage
deriving DecidableEq, Repr

/-- The declared variable, with its index. -/
def Declaration.variable (d : Declaration) (index : Nat) : Variable :=
  ⟨d.name, d.type, d.storage, index⟩

/-- The variables of declarations, each with the number of earlier ones of its storage class. -/
def numbered (ds : List Declaration) : List Variable :=
  ds.mapIdx fun i d => d.variable ((ds.take i).countP (·.storage == d.storage))

/-- The variables of declarations, each with its position. -/
def positioned (ds : List Declaration) : List Variable := ds.mapIdx fun i d => d.variable i

/-- The declarations of one level of scope. -/
def onLevel (level : ScopeLevel) (ds : List Declaration) : List Declaration :=
  ds.filter (·.storage.level == level)

/-- The declarations are not refused: on each level the names are distinct, and each storage class
has an index for each of its variables. -/
structure Declarable (ds : List Declaration) : Prop where
  /-- The names of a level are distinct. -/
  nodup : ∀ level, ((onLevel level ds).map (·.name)).Nodup
  /-- There are indices enough. -/
  count_le : ∀ storage, ds.countP (·.storage == storage) ≤ maxIndex + 1

section Numbering

variable {ds ds' : List Declaration} {d : Declaration}

@[simp] theorem numbered_nil : numbered [] = [] := rfl

theorem numbered_append_singleton (ds : List Declaration) (d : Declaration) :
    numbered (ds ++ [d]) = numbered ds ++ [d.variable (ds.countP (·.storage == d.storage))] := by
  have hfirst : (ds.mapIdx fun i e => e.variable (((ds ++ [d]).take i).countP
      (·.storage == e.storage))) = numbered ds :=
    List.mapIdx_eq_mapIdx_iff.2 fun i h => by
      rw [List.take_append_of_le_length (Nat.le_of_lt h)]
  rw [numbered, List.mapIdx_append, hfirst]
  simp

theorem map_name_numbered (ds : List Declaration) :
    (numbered ds).map (·.name) = ds.map (·.name) := by
  refine List.ext_getElem? fun i => ?_
  simp [numbered, Function.comp_def, Declaration.variable]

theorem countP_numbered (ds : List Declaration) (storage : Storage) :
    (numbered ds).countP (·.storage == storage) = ds.countP (·.storage == storage) := by
  have hstorage : (numbered ds).map (·.storage) = ds.map (·.storage) := by
    refine List.ext_getElem? fun i => ?_
    simp [numbered, Function.comp_def, Declaration.variable]
  have hcount := congrArg (List.countP (· == storage)) hstorage
  rwa [List.countP_map, List.countP_map] at hcount

/-- The variables are those that are declared. -/
theorem exists_declaration_of_mem_numbered {v : Variable} (h : v ∈ numbered ds) :
    ∃ d ∈ ds, ∃ index, v = d.variable index := by
  obtain ⟨i, hi, rfl⟩ := List.mem_mapIdx.1 h
  exact ⟨ds[i], List.getElem_mem hi, _, rfl⟩

/-- Variables of one storage class are numbered by position. -/
theorem numbered_eq_positioned {storage : Storage} (h : ∀ d ∈ ds, d.storage = storage) :
    numbered ds = positioned ds := by
  refine List.mapIdx_eq_mapIdx_iff.2 fun i hi => ?_
  have hall : ∀ d ∈ ds.take i, (d.storage == ds[i].storage) = true := fun d hd => by
    rw [h d (List.mem_of_mem_take hd), h _ (List.getElem_mem hi)]
    exact beq_self_eq_true storage
  rw [List.countP_eq_length.2 hall, List.length_take, Nat.min_eq_left (Nat.le_of_lt hi)]

/-- Variables of different storage classes are numbered apart from each other. -/
theorem numbered_append (h : ∀ d ∈ ds, ∀ d' ∈ ds', d.storage ≠ d'.storage) :
    numbered (ds ++ ds') = numbered ds ++ numbered ds' := by
  induction ds' using List.reverseRecOn with
  | nil => simp
  | append_singleton ds' d' ih =>
    have hnone : ds.countP (·.storage == d'.storage) = 0 :=
      List.countP_eq_zero.2 fun d hd => by simpa using h d hd d' (by simp)
    rw [← List.append_assoc, numbered_append_singleton, numbered_append_singleton,
      ih fun d hd e he => h d hd e (by simp [he]), List.countP_append, hnone, Nat.zero_add,
      List.append_assoc]

theorem onLevel_append (level : ScopeLevel) (ds ds' : List Declaration) :
    onLevel level (ds ++ ds') = onLevel level ds ++ onLevel level ds' := List.filter_append _ _

theorem onLevel_eq_self {level : ScopeLevel} (h : ∀ d ∈ ds, d.storage.level = level) :
    onLevel level ds = ds :=
  List.filter_eq_self.2 fun d hd => beq_iff_eq.2 (h d hd)

theorem onLevel_eq_nil {level : ScopeLevel} (h : ∀ d ∈ ds, d.storage.level ≠ level) :
    onLevel level ds = [] :=
  List.filter_eq_nil_iff.2 fun d hd => by simpa using h d hd

theorem onLevel_singleton (level : ScopeLevel) (d : Declaration) :
    onLevel level [d] = if d.storage.level = level then [d] else [] := by
  simp [onLevel, List.filter_cons]

/-- One more declaration is not refused if its name is new on its level and there is an index
left. -/
theorem declarable_append_singleton_iff :
    Declarable (ds ++ [d]) ↔ Declarable ds ∧ d.name ∉ (onLevel d.storage.level ds).map (·.name) ∧
      ds.countP (·.storage == d.storage) ≤ maxIndex := by
  have hnodup (level : ScopeLevel) : ((onLevel level (ds ++ [d])).map (·.name)).Nodup ↔
      ((onLevel level ds).map (·.name)).Nodup ∧
        (d.storage.level = level → d.name ∉ (onLevel level ds).map (·.name)) := by
    rw [onLevel_append, onLevel_singleton, List.map_append]
    by_cases h : d.storage.level = level
    · rw [if_pos h, List.map_singleton, List.nodup_append_comm, List.singleton_append,
        List.nodup_cons, and_comm, forall_prop_of_true h]
    · simp [h]
  have hcount (storage : Storage) : (ds ++ [d]).countP (·.storage == storage) =
      ds.countP (·.storage == storage) + if d.storage = storage then 1 else 0 := by
    simp [List.countP_append, List.countP_singleton]
  constructor
  · intro h
    refine ⟨⟨fun level => ((hnodup level).1 (h.nodup level)).1, fun storage => ?_⟩,
      ((hnodup _).1 (h.nodup _)).2 rfl, ?_⟩
    · have := hcount storage ▸ h.count_le storage
      omega
    · have := hcount d.storage ▸ h.count_le d.storage
      rw [if_pos rfl] at this
      omega
  · rintro ⟨h, hname, hindex⟩
    refine ⟨fun level => (hnodup level).2 ⟨h.nodup level, ?_⟩, fun storage => ?_⟩
    · rintro rfl
      exact hname
    · rw [hcount]
      split
      · next heq =>
        subst heq
        omega
      · exact h.count_le storage

section TwoLevels

variable (hds : ∀ d ∈ ds, d.storage.level = .classLevel)
  (hds' : ∀ d ∈ ds', d.storage.level = .subroutineLevel)

include hds hds'

theorem onLevel_classLevel_append : onLevel .classLevel (ds ++ ds') = ds := by
  rw [onLevel_append, onLevel_eq_self hds, onLevel_eq_nil fun d hd => by simp [hds' d hd],
    List.append_nil]

theorem onLevel_subroutineLevel_append : onLevel .subroutineLevel (ds ++ ds') = ds' := by
  rw [onLevel_append, onLevel_eq_self hds', onLevel_eq_nil fun d hd => by simp [hds d hd],
    List.nil_append]

end TwoLevels

end Numbering

/-! ### Variables of a tree -/

/-- The declarations of names that share a type and a storage class. -/
def declarationsOf (type : TypeName) (storage : Storage) (names : List Ident) : List Declaration :=
  names.map fun name => ⟨name.text, type, storage⟩

/-- The declarations of a class in order. -/
def ClassDec.declarations (c : ClassDec) : List Declaration :=
  c.varDecs.flatMap fun d => declarationsOf d.type d.kind.storage d.names

/-- The variables of a class. -/
def ClassDec.declaredVariables (c : ClassDec) : List Variable := numbered c.declarations

/-- The object of a method is its hidden first argument. -/
def SubroutineKind.object (className : String) : SubroutineKind → List Declaration
  | .method => [⟨Keyword.kwThis.text, .object className, .argument⟩]
  | .constructor | .function => []

namespace SubroutineDec

/-- The arguments of a subroutine. -/
def arguments (className : String) (s : SubroutineDec) : List Declaration :=
  s.kind.object className ++ s.parameters.map fun p => ⟨p.name.text, p.type, .argument⟩

/-- The local variables of a subroutine. -/
def locals (s : SubroutineDec) : List Declaration :=
  s.varDecs.flatMap fun d => declarationsOf d.type .localVar d.names

/-- The declarations of a subroutine in order. -/
def declarations (className : String) (s : SubroutineDec) : List Declaration :=
  s.arguments className ++ s.locals

/-- The variables of a subroutine: its arguments and its local variables, each by its position. -/
def declaredVariables (className : String) (s : SubroutineDec) : List Variable :=
  positioned (s.arguments className) ++ positioned s.locals

end SubroutineDec

/-- The name starts with an ASCII capital. -/
def startsUpper (name : String) : Bool :=
  name.toList.head?.any fun c => 'A'.toNat ≤ c.toNat && c.toNat ≤ 'Z'.toNat

namespace SubroutineDec

/-- What a name means in a subroutine of a class that has the variables `ofClass`: a variable of the
subroutine, else one of the class, else what its first letter suggests. -/
def meaning (className : String) (ofClass : List Variable) (s : SubroutineDec) (name : String) :
    Meaning :=
  match (s.declaredVariables className ++ ofClass).find? (·.name == name) with
  | some v => .declared v
  | none => if startsUpper name then .className else .subroutine

end SubroutineDec

theorem Meaning.ofUndeclared_eq (name : String) :
    ofUndeclared name = if startsUpper name then className else subroutine := by
  rw [ofUndeclared, startsUpper]
  cases name.toList.head? with
  | none => rfl
  | some c =>
    have hupper : c.isUpper = ('A'.toNat ≤ c.toNat && c.toNat ≤ 'Z'.toNat) := by
      rw [Bool.eq_iff_iff]
      change decide ('A'.val ≤ c.val ∧ c.val ≤ 'Z'.val) = true ↔ _
      simp only [Bool.and_eq_true, decide_eq_true_eq, UInt32.le_iff_toNat_le]
      rfl
    simp [hupper]

section Trees

variable (className : String) (c : ClassDec) (s : SubroutineDec)

theorem ClassDec.level_of_mem_declarations :
    ∀ d ∈ c.declarations, d.storage.level = .classLevel := by
  intro d hd
  obtain ⟨e, -, hd⟩ := List.mem_flatMap.1 hd
  obtain ⟨name, -, rfl⟩ := List.mem_map.1 hd
  cases e.kind <;> rfl

namespace SubroutineDec

theorem storage_of_mem_arguments : ∀ d ∈ s.arguments className, d.storage = .argument := by
  intro d hd
  rcases List.mem_append.1 hd with hd | hd
  · cases hkind : s.kind with
    | method =>
      rw [hkind] at hd
      rw [List.mem_singleton.1 hd]
    | constructor | function =>
      rw [hkind] at hd
      cases hd
  · obtain ⟨p, -, rfl⟩ := List.mem_map.1 hd
    rfl

theorem storage_of_mem_locals : ∀ d ∈ s.locals, d.storage = .localVar := by
  intro d hd
  obtain ⟨e, -, hd⟩ := List.mem_flatMap.1 hd
  obtain ⟨name, -, rfl⟩ := List.mem_map.1 hd
  rfl

theorem level_of_mem_declarations :
    ∀ d ∈ s.declarations className, d.storage.level = .subroutineLevel := by
  intro d hd
  rcases List.mem_append.1 hd with hd | hd
  · rw [s.storage_of_mem_arguments className d hd]
    rfl
  · rw [s.storage_of_mem_locals d hd]
    rfl

/-- The positions of arguments and of local variables are their numbers. -/
theorem numbered_declarations :
    numbered (s.declarations className) = s.declaredVariables className := by
  have happart : ∀ d ∈ s.arguments className, ∀ d' ∈ s.locals, d.storage ≠ d'.storage :=
    fun d hd d' hd' => by
      rw [s.storage_of_mem_arguments className d hd, s.storage_of_mem_locals d' hd']
      exact Storage.noConfusion
  rw [declarations, numbered_append happart,
    numbered_eq_positioned (s.storage_of_mem_arguments className),
    numbered_eq_positioned s.storage_of_mem_locals, declaredVariables]

end SubroutineDec

end Trees

/-! ### Scopes and declarations -/

/-- Among variables of distinct names, a search by name finds the one that has it. -/
theorem find?_name_eq_some_iff {vs : List Variable} (h : (vs.map (·.name)).Nodup) {name : String}
    {v : Variable} : vs.find? (·.name == name) = some v ↔ v ∈ vs ∧ v.name = name := by
  refine ⟨fun hv => ⟨List.mem_of_find?_eq_some hv, by simpa using List.find?_some hv⟩, ?_⟩
  rintro ⟨hv, rfl⟩
  induction vs with
  | nil => cases hv
  | cons u vs ih =>
    rw [List.map_cons, List.nodup_cons] at h
    obtain rfl | hv := List.mem_cons.1 hv
    · simp
    · have hne : u.name ≠ v.name := fun heq => h.1 (heq ▸ List.mem_map_of_mem hv)
      rw [List.find?_cons_of_neg (by simpa using hne), ih h.2 hv]

namespace Scope

variable {s : Scope} {name : String}

theorem contains_eq_false_iff : s.contains name = false ↔ name ∉ s.toList.map (·.name) := by
  simp only [contains, lookup?_eq, toList, List.map_reverse, List.mem_reverse, List.mem_map,
    Option.isSome_eq_false_iff, Option.isNone_iff_eq_none, List.find?_eq_none, beq_iff_eq,
    not_exists, not_and]

theorem lookup?_eq_find?_toList (h : (s.toList.map (·.name)).Nodup) :
    s.lookup? name = s.toList.find? (·.name == name) := by
  have hnewest : (s.newestFirst.map (·.name)).Nodup := by
    rwa [toList, List.map_reverse, List.nodup_reverse] at h
  refine Option.ext fun v => ?_
  rw [lookup?_eq, find?_name_eq_some_iff hnewest, find?_name_eq_some_iff h, toList,
    List.mem_reverse]

theorem count_eq_countP_toList (storage : Storage) :
    s.count storage = s.toList.countP (·.storage == storage) := by
  rw [count_eq, toList, List.countP_reverse]

end Scope

namespace Scopes

/-- The scope of a level. -/
def ofLevel (s : Scopes) : ScopeLevel → Scope
  | .classLevel => s.ofClass
  | .subroutineLevel => s.ofSubroutine

/-- The scopes with another scope of a level. -/
def setLevel (s : Scopes) (scope : Scope) : ScopeLevel → Scopes
  | .classLevel => ⟨scope, s.ofSubroutine⟩
  | .subroutineLevel => ⟨s.ofClass, scope⟩

/-- The scopes were made by the declarations, one after the other. -/
structure Holds (s : Scopes) (ds : List Declaration) : Prop where
  /-- The scope of each level lists its variables in order. -/
  toList_eq : ∀ level, (s.ofLevel level).toList = numbered (onLevel level ds)
  /-- None of the declarations was refused. -/
  declarable : Declarable ds

/-- The scopes come from scopes `s` by declaring variables one after the other. -/
inductive Declares (s : Scopes) : List Declaration → Scopes → Prop where
  /-- No variable. -/
  | nil : s.Declares [] s
  /-- One more variable. -/
  | snoc {ds : List Declaration} {s' s'' : Scopes} {name : Ident} {type : TypeName}
    {storage : Storage} {v : Variable} (h : s.Declares ds s')
    (hdeclare : s'.declare name type storage = .ok (v, s'')) :
    s.Declares (ds ++ [⟨name.text, type, storage⟩]) s''

variable {s s' s'' : Scopes} {ds ds' : List Declaration} {name : Ident} {type : TypeName}
  {storage : Storage} {v : Variable}

theorem Declares.trans (h : s.Declares ds s') (h' : s'.Declares ds' s'') :
    s.Declares (ds ++ ds') s'' := by
  induction h' with
  | nil => rwa [List.append_nil]
  | snoc _ hdeclare ih =>
    rw [← List.append_assoc]
    exact ih.snoc hdeclare

theorem Declares.single (h : s.declare name type storage = .ok (v, s')) :
    s.Declares [⟨name.text, type, storage⟩] s' :=
  Declares.nil.snoc h

theorem ofLevel_setLevel (scope : Scope) (level level' : ScopeLevel) :
    (s.setLevel scope level).ofLevel level' =
      if level' = level then scope else s.ofLevel level' := by
  cases level <;> cases level' <;> rfl

/-- A variable is declared in the scope of its level. -/
theorem declare_eq :
    s.declare name type storage = ((s.ofLevel storage.level).declare name type storage).map
      fun r => (r.1, s.setLevel r.2 storage.level) := by
  cases storage <;> rfl

/-- What a scope refuses is no question of the grammar. -/
theorem declare_ne_parse (s : Scopes) (name : Ident) (type : TypeName) (storage : Storage)
    (fault : SyntaxFault) (span : Span) :
    s.declare name type storage ≠ .error (.parse fault span) := by
  rw [declare_eq, Scope.declare]
  by_cases hname : (s.ofLevel storage.level).contains name.text = true
  · simp [hname, Except.map]
  · by_cases hcount : maxIndex < (s.ofLevel storage.level).count storage
    · simp [hname, hcount, Except.map]
    · simp [hname, hcount, Except.map]

theorem declare_eq_ok_iff :
    s.declare name type storage = .ok (v, s') ↔
      (s.ofLevel storage.level).contains name.text = false ∧
        (s.ofLevel storage.level).count storage ≤ maxIndex ∧
        v = ⟨name.text, type, storage, (s.ofLevel storage.level).count storage⟩ ∧
        s' = s.setLevel ((s.ofLevel storage.level).push v) storage.level := by
  rw [declare_eq]
  constructor
  · intro h
    cases hdeclare : (s.ofLevel storage.level).declare name type storage with
    | error e => rw [hdeclare] at h; cases h
    | ok r =>
      rw [hdeclare] at h
      obtain ⟨hcontains, hcount, hv, hscope⟩ := Scope.declare_eq_ok_iff.1 hdeclare
      cases h
      exact ⟨hcontains, hcount, hv, hscope ▸ rfl⟩
  · rintro ⟨hcontains, hcount, hv, rfl⟩
    rw [Scope.declare_eq_ok_iff.2 ⟨hcontains, hcount, hv, rfl⟩]
    rfl

theorem holds_empty : empty.Holds [] where
  toList_eq level := by cases level <;> rfl
  declarable := ⟨fun level => List.nodup_nil, fun storage => Nat.zero_le _⟩

namespace Holds

theorem contains_eq_false_iff (h : s.Holds ds) (level : ScopeLevel) {name : String} :
    (s.ofLevel level).contains name = false ↔ name ∉ (onLevel level ds).map (·.name) := by
  rw [Scope.contains_eq_false_iff, h.toList_eq, map_name_numbered]

theorem count_eq (h : s.Holds ds) (storage : Storage) :
    (s.ofLevel storage.level).count storage = ds.countP (·.storage == storage) := by
  rw [Scope.count_eq_countP_toList, h.toList_eq, countP_numbered, onLevel, List.countP_filter]
  refine List.countP_congr fun d _ => ?_
  simp only [Bool.and_eq_true, beq_iff_eq, and_iff_left_iff_imp]
  rintro rfl
  rfl

theorem declarable_iff (h : s.Holds ds) :
    Declarable (ds ++ [⟨name.text, type, storage⟩]) ↔
      (s.ofLevel storage.level).contains name.text = false ∧
        (s.ofLevel storage.level).count storage ≤ maxIndex := by
  rw [declarable_append_singleton_iff, h.contains_eq_false_iff, h.count_eq]
  exact and_iff_right h.declarable

/-- **To declare a variable adds its declaration.** -/
theorem of_declare (h : s.Holds ds) (hdeclare : s.declare name type storage = .ok (v, s')) :
    s'.Holds (ds ++ [⟨name.text, type, storage⟩]) := by
  obtain ⟨hcontains, hcount, hv, rfl⟩ := declare_eq_ok_iff.1 hdeclare
  refine ⟨fun level => ?_, h.declarable_iff.2 ⟨hcontains, hcount⟩⟩
  rw [ofLevel_setLevel, onLevel_append, onLevel_singleton]
  by_cases hlevel : level = storage.level
  · subst hlevel
    rw [if_pos rfl, if_pos rfl, Scope.toList_push, h.toList_eq, numbered_append_singleton, hv,
      Scope.count_eq_countP_toList, h.toList_eq, countP_numbered]
    rfl
  · -- The scope of the other level is left as it was.
    rw [if_neg hlevel, if_neg (Ne.symm hlevel), List.append_nil, h.toList_eq]

theorem of_declares (h : s.Holds ds) (hdeclares : s.Declares ds' s') : s'.Holds (ds ++ ds') := by
  induction hdeclares with
  | nil => rwa [List.append_nil]
  | snoc _ hdeclare ih =>
    rw [← List.append_assoc]
    exact ih.of_declare hdeclare

/-- The scopes at the start of a subroutine hold the variables of the class. -/
theorem clearSubroutine (h : s.Holds ds) (hlevel : ∀ d ∈ ds, d.storage.level = .classLevel) :
    s.clearSubroutine.Holds ds := by
  refine ⟨fun level => ?_, h.declarable⟩
  cases level with
  | classLevel => exact h.toList_eq .classLevel
  | subroutineLevel =>
    rw [onLevel_eq_nil fun d hd => by simp [hlevel d hd]]
    rfl

/-- The scopes of a subroutine list the variables of the class and of the subroutine. -/
theorem toList_ofLevel {c : ClassDec} {sub : SubroutineDec}
    (h : s.Holds (c.declarations ++ sub.declarations c.name.text)) :
    s.ofClass.toList = c.declaredVariables ∧
      s.ofSubroutine.toList = sub.declaredVariables c.name.text := by
  have hclass := h.toList_eq .classLevel
  have hsub := h.toList_eq .subroutineLevel
  rw [onLevel_classLevel_append c.level_of_mem_declarations
    (sub.level_of_mem_declarations _)] at hclass
  rw [onLevel_subroutineLevel_append c.level_of_mem_declarations
    (sub.level_of_mem_declarations _), sub.numbered_declarations] at hsub
  exact ⟨hclass, hsub⟩

/-- The scopes hold no name twice on a level. -/
theorem nodup (h : s.Holds ds) (level : ScopeLevel) :
    ((s.ofLevel level).toList.map (·.name)).Nodup := by
  rw [h.toList_eq, map_name_numbered]
  exact h.declarable.nodup level

/-- **The scopes of a subroutine give each name its meaning.** -/
theorem resolve_eq {c : ClassDec} {sub : SubroutineDec}
    (h : s.Holds (c.declarations ++ sub.declarations c.name.text)) (name : String) :
    s.resolve name = sub.meaning c.name.text c.declaredVariables name := by
  obtain ⟨hclass, hsub⟩ := h.toList_ofLevel
  have hlookup : s.lookup? name =
      (sub.declaredVariables c.name.text ++ c.declaredVariables).find? (·.name == name) := by
    have hofSubroutine : s.ofSubroutine.lookup? name = _ :=
      Scope.lookup?_eq_find?_toList (h.nodup .subroutineLevel)
    have hofClass : s.ofClass.lookup? name = _ :=
      Scope.lookup?_eq_find?_toList (h.nodup .classLevel)
    rw [lookup?, hofSubroutine, hofClass, hclass, hsub, List.find?_append,
      Option.orElse_eq_orElse, Option.orElse_eq_or]
  rw [resolve, hlookup, SubroutineDec.meaning]
  cases (sub.declaredVariables c.name.text ++ c.declaredVariables).find? (·.name == name) with
  | some v => rfl
  | none => exact Meaning.ofUndeclared_eq name

end Holds

end Scopes

end Jack

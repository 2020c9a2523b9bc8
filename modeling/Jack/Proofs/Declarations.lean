import Jack.Proofs.LexicalScope
import Jack.Proofs.ParsedNames

/-!
# Declarations and scopes

A class is read with scopes, and what these hold when a subroutine is read is what the tree declares
(`readInScopes_of_parse`): the variables of the class, the object of a method, the parameters and
the local variables, in order.  So the scopes count as many variables of each storage class as the
tree has names for it, and each has an index below that number.

* `Scopes.Indexed` : the invariant of the scopes;
* `Scopes.Adds` : how declarations change the numbers of variables;
* `wellScoped_of_parse` : each subroutine of a parsed class has its names from scopes that count
  what the tree declares (`SubroutineDec.extent`).
-/

namespace Jack

/-! ### Indices below their number -/

namespace Scope

/-- The variables are of storage classes of the level, and have indices below the number of
variables of their storage class. -/
def Indexed (level : ScopeLevel) (s : Scope) : Prop :=
  ∀ v ∈ s.newestFirst, v.storage.level = level ∧ v.index < s.count v.storage

variable {s : Scope} {level : ScopeLevel}

theorem indexed_empty (level : ScopeLevel) : empty.Indexed level := by simp [Indexed, empty]

theorem count_push (s : Scope) (v : Variable) (storage : Storage) :
    (s.push v).count storage = s.count storage + if v.storage = storage then 1 else 0 :=
  Tally.get_bump _ _ _

theorem Indexed.push {v : Variable} (h : s.Indexed level) (hlevel : v.storage.level = level)
    (hindex : v.index = s.count v.storage) : (s.push v).Indexed level := by
  refine List.forall_mem_cons.2 ⟨⟨hlevel, ?_⟩, fun v' hv' => ⟨(h v' hv').1, ?_⟩⟩
  · rw [count_push, if_pos rfl]
    omega
  · rw [count_push]
    have := (h v' hv').2
    omega

theorem Indexed.of_lookup? {name : String} {v : Variable} (h : s.Indexed level)
    (hv : s.lookup? name = some v) : v.storage.level = level ∧ v.index < s.count v.storage :=
  h v (List.mem_of_find?_eq_some (s.lookup?_eq name ▸ hv))

end Scope

namespace Scopes

/-- The number of variables of a storage class. -/
def count (s : Scopes) (storage : Storage) : Nat :=
  match storage.level with
  | .classLevel => s.ofClass.count storage
  | .subroutineLevel => s.ofSubroutine.count storage

/-- Each variable is in the scope that its storage class belongs to, and has an index below the
number of variables of its storage class. -/
structure Indexed (s : Scopes) : Prop where
  /-- The variables of the class. -/
  ofClass : s.ofClass.Indexed .classLevel
  /-- The variables of the subroutine. -/
  ofSubroutine : s.ofSubroutine.Indexed .subroutineLevel

variable {s s' s'' : Scopes}

theorem Indexed.lt_of_resolve {name : String} {v : Variable} (h : s.Indexed)
    (hv : s.resolve name = .declared v) : v.index < s.count v.storage := by
  have hlookup : s.lookup? name = some v := by
    rw [resolve] at hv
    split at hv
    · next v' hv' => exact hv' ▸ congrArg some (Meaning.declared.inj hv)
    · simp only [Meaning.ofUndeclared] at hv
      split at hv
      · split at hv <;> cases hv
      · cases hv
  -- The variable is one of the subroutine or one of the class, and its level tells which count.
  rw [lookup?, Option.orElse_eq_orElse, Option.orElse_eq_or, Option.or_eq_some_iff] at hlookup
  obtain hv | ⟨-, hv⟩ := hlookup
  · obtain ⟨hlevel, hlt⟩ := h.ofSubroutine.of_lookup? hv
    rwa [count, hlevel]
  · obtain ⟨hlevel, hlt⟩ := h.ofClass.of_lookup? hv
    rwa [count, hlevel]

/-- So many variables of a storage class, and none of the others. -/
def only (storage : Storage) (n : Nat) : Storage → Nat := fun other =>
  if storage = other then n else 0

/-- The second scopes hold so many more variables of each storage class, with indices below their
numbers if those of the first are. -/
structure Adds (s : Scopes) (added : Storage → Nat) (s' : Scopes) : Prop where
  /-- The invariant is kept. -/
  indexed : s.Indexed → s'.Indexed
  /-- The numbers grow. -/
  count_eq : ∀ storage, s'.count storage = s.count storage + added storage

theorem Adds.none : s.Adds (fun _ => 0) s := ⟨id, fun _ => rfl⟩

theorem Adds.congr {added added' : Storage → Nat} (h : s.Adds added s')
    (heq : ∀ storage, added storage = added' storage) : s.Adds added' s' :=
  ⟨h.indexed, fun storage => heq storage ▸ h.count_eq storage⟩

theorem Adds.trans {added added' : Storage → Nat} (h : s.Adds added s') (h' : s'.Adds added' s'') :
    s.Adds (fun storage => added storage + added' storage) s'' where
  indexed := h'.indexed ∘ h.indexed
  count_eq storage := by rw [h'.count_eq, h.count_eq, Nat.add_assoc]

theorem declare_eq_ok {name : Ident} {type : TypeName} {storage : Storage} {v : Variable}
    (h : s.declare name type storage = .ok (v, s')) :
    v.storage = storage ∧ v.index = s.count storage ∧
      (storage.level = .classLevel ∧ s' = ⟨s.ofClass.push v, s.ofSubroutine⟩ ∨
        storage.level = .subroutineLevel ∧ s' = ⟨s.ofClass, s.ofSubroutine.push v⟩) := by
  obtain ⟨-, -, rfl, rfl⟩ := declare_eq_ok_iff.1 h
  cases storage <;> simp [count, Storage.level, ofLevel, setLevel]

theorem adds_of_declare {name : Ident} {type : TypeName} {storage : Storage} {v : Variable}
    (h : s.declare name type storage = .ok (v, s')) : s.Adds (only storage 1) s' := by
  obtain ⟨hstorage, hindex, ⟨hlevel, rfl⟩ | ⟨hlevel, rfl⟩⟩ := declare_eq_ok h
  · have hcount : s.count storage = s.ofClass.count storage := by rw [count, hlevel]
    refine ⟨fun hs => ⟨hs.ofClass.push (hstorage ▸ hlevel) ?_, hs.ofSubroutine⟩, fun other => ?_⟩
    · rw [hindex, hcount, hstorage]
    · by_cases hother : storage = other
      · subst hother
        simp [count, hlevel, Scope.count_push, hstorage, only]
      · simp [count, Scope.count_push, hstorage, only, hother]
  · have hcount : s.count storage = s.ofSubroutine.count storage := by rw [count, hlevel]
    refine ⟨fun hs => ⟨hs.ofClass, hs.ofSubroutine.push (hstorage ▸ hlevel) ?_⟩, fun other => ?_⟩
    · rw [hindex, hcount, hstorage]
    · by_cases hother : storage = other
      · subst hother
        simp [count, hlevel, Scope.count_push, hstorage, only]
      · simp [count, Scope.count_push, hstorage, only, hother]

/-- The scopes at the start of a subroutine. -/
theorem Indexed.clearSubroutine (h : s.Indexed) : s.clearSubroutine.Indexed :=
  ⟨h.ofClass, Scope.indexed_empty _⟩

theorem count_clearSubroutine (s : Scopes) (storage : Storage) :
    s.clearSubroutine.count storage =
      if storage.level = .classLevel then s.count storage else 0 := by
  cases storage <;> rfl

theorem indexed_empty : empty.Indexed := ⟨Scope.indexed_empty _, Scope.indexed_empty _⟩

theorem count_empty (storage : Storage) : empty.count storage = 0 := by cases storage <;> rfl

end Scopes

/-! ### What the grammar declares -/

/-- The names that declarations of variables of the class give for a storage class. -/
def classVarNames (decs : List ClassVarDec) (storage : Storage) : List Ident :=
  decs.flatMap fun d => if d.kind.storage = storage then d.names else []

/-- The variables that a subroutine declares.  The object of a method is one of the arguments. -/
def SubroutineDec.declared (s : SubroutineDec) : Storage → Nat
  | .argument => s.parameters.length + if s.kind = .method then 1 else 0
  | .localVar => s.localCount
  | .static | .field => 0

/-- The names of a subroutine come from the scopes of its class, to which it has added what it
declares. -/
def SubroutineDec.ScopedIn (scopes : Scopes) (s : SubroutineDec) : Prop :=
  ∃ scopes' : Scopes, scopes.clearSubroutine.Adds s.declared scopes' ∧
    Resolved scopes'.resolve (statementsNameUses s.statements)

theorem SubroutineDec.localCount_eq (s : SubroutineDec) :
    s.localCount = (s.varDecs.flatMap (·.names)).length := by
  rw [localCount]
  induction s.varDecs with
  | nil => rfl
  | cons d ds ih => rw [List.foldr_cons, ih, List.flatMap_cons, List.length_append]

/-- A subroutine of the class was read with the scopes of its class: its own declarations were added
to these, and its names have the meanings that the scopes had then. -/
def SubroutineDec.ReadIn (className : String) (scopes : Scopes) (s : SubroutineDec) : Prop :=
  ∃ scopes' : Scopes, scopes.clearSubroutine.Declares (s.declarations className) scopes' ∧
    Resolved scopes'.resolve (statementsNameUses s.statements)

/-- A class was read with the scopes that its declarations make. -/
structure ReadInScopes (parsed : ParsedClass) (scopes : Scopes) : Prop where
  /-- The variables of the class are declared in order. -/
  declares : Scopes.empty.Declares parsed.tree.declarations scopes
  /-- They are what the class answers. -/
  scope_eq : parsed.scope = scopes.ofClass
  /-- Each subroutine starts from them. -/
  subroutines : ∀ s ∈ parsed.tree.subroutines, s.ReadIn parsed.tree.name.text scopes

namespace Parser

theorem yields_declare (scopes : Scopes) (name : Ident) (type : TypeName) (storage : Storage) :
    Yields (declare scopes name type storage) (scopes.Declares [⟨name.text, type, storage⟩]) := by
  intro c a c' h
  unfold declare at h
  split at h
  · cases h
  · next v scopes' hdeclare =>
    obtain ⟨rfl, -⟩ := Prod.mk.inj (Except.ok.inj h)
    exact .single hdeclare

theorem yields_declaredNames (rule : Rule) (type : TypeName) (storage : Storage)
    (scopes : Scopes) :
    Yields (declaredNames rule type storage scopes)
      fun r => scopes.Declares (declarationsOf type storage r.1) r.2 := by
  refine (yields_commaSeparated
    (P := fun r => scopes.Declares (declarationsOf type storage r.1.reverse) r.2)
    (fun r hr => .skip _ fun name => (yields_declare r.2 name type storage).bind
      fun scopes' hscopes' => yields_pure ?_) .nil).bind
    fun r hr => yields_pure hr
  rw [List.reverse_cons, declarationsOf, List.map_append]
  exact hr.trans hscopes'

theorem yields_classVarDec (scopes : Scopes) (start : Offset) (kind : ClassVarKind) :
    Yields (classVarDec scopes start kind)
      fun r => scopes.Declares (declarationsOf r.1.type r.1.kind.storage r.1.names) r.2 :=
  .skip _ fun _ => (yields_declaredNames _ _ _ scopes).bind fun _ hr => .skip _ fun _ =>
    .skip _ fun _ => yields_pure hr

theorem yields_classVarDecs :
    Yields classVarDecs fun r => Scopes.empty.Declares
      (r.1.flatMap fun d => declarationsOf d.type d.kind.storage d.names) r.2 := by
  refine (yields_fold (P := fun r => Scopes.empty.Declares
      (r.1.reverse.flatMap fun d => declarationsOf d.type d.kind.storage d.names) r.2) _
    (fun r lead hr => (yields_classVarDec r.2 lead.1 lead.2).bind fun r' hr' => yields_pure ?_)
    .nil).bind fun r hr => yields_pure hr
  rw [List.reverse_cons, List.flatMap_append, List.flatMap_singleton]
  exact hr.trans hr'

theorem yields_parameters (scopes : Scopes) :
    Yields (parameters scopes) fun r =>
      scopes.Declares (r.1.map fun p => ⟨p.name.text, p.type, .argument⟩) r.2 := by
  unfold parameters
  refine .skip _ fun atEnd => ?_
  split
  · exact yields_pure .nil
  · refine (yields_commaSeparated (P := fun r =>
        scopes.Declares (r.1.reverse.map fun p => ⟨p.name.text, p.type, .argument⟩) r.2)
      (fun r hr => .skip _ fun type => .skip _ fun name =>
        (yields_declare r.2 name type .argument).bind fun scopes' hscopes' => yields_pure ?_)
      .nil).bind fun r hr => yields_pure hr
    rw [List.reverse_cons, List.map_append]
    exact hr.trans hscopes'

theorem yields_varDec (scopes : Scopes) (start : Offset) :
    Yields (varDec scopes start)
      fun r => scopes.Declares (declarationsOf r.1.type .localVar r.1.names) r.2 :=
  .skip _ fun _ => (yields_declaredNames _ _ _ _).bind fun _ hr => .skip _ fun _ => .skip _ fun _ =>
    yields_pure hr

theorem yields_varDecs (scopes : Scopes) :
    Yields (varDecs scopes) fun r =>
      scopes.Declares (r.1.flatMap fun d => declarationsOf d.type .localVar d.names) r.2 := by
  refine (yields_fold (P := fun r =>
      scopes.Declares (r.1.reverse.flatMap fun d => declarationsOf d.type .localVar d.names) r.2) _
    (fun r start hr => (yields_varDec r.2 start).bind fun r' hr' => yields_pure ?_)
    .nil).bind fun r hr => yields_pure hr
  rw [List.reverse_cons, List.flatMap_append, List.flatMap_singleton]
  exact hr.trans hr'

theorem yields_subroutineScopes (className : String) (scopes : Scopes) (kind : SubroutineKind)
    (name : Ident) :
    Yields (subroutineScopes className scopes kind name)
      (scopes.clearSubroutine.Declares (kind.object className)) := by
  unfold subroutineScopes
  split
  · exact yields_declare _ _ _ _
  · exact yields_pure .nil
  · exact yields_pure .nil

theorem yields_subroutineDec (className : String) (scopes : Scopes) (start : Offset)
    (kind : SubroutineKind) :
    Yields (subroutineDec className scopes start kind) (·.ReadIn className scopes) :=
  .skip _ fun _ => .skip _ fun _ =>
    (yields_subroutineScopes className scopes kind _).bind fun scopes₁ hobject => .skip _ fun _ =>
      (yields_parameters scopes₁).bind fun parameters hparameters => .skip _ fun _ =>
        .skip _ fun _ => (yields_varDecs parameters.2).bind fun decs hlocals =>
          (yields_statements decs.2.resolve maxNesting).bind fun _ hnames => .skip _ fun _ =>
            .skip _ fun _ =>
              yields_pure ⟨decs.2, (hobject.trans hparameters).trans hlocals, hnames⟩

theorem yields_subroutineDecs (className : String) (scopes : Scopes) :
    Yields (subroutineDecs className scopes) fun ss => ∀ s ∈ ss, s.ReadIn className scopes := by
  refine (yields_fold (P := fun done => ∀ s ∈ done, SubroutineDec.ReadIn className scopes s) _
    (fun done lead hdone => (yields_subroutineDec className scopes lead.1 lead.2).bind
      fun s hs => yields_pure ?_)
    (List.forall_mem_nil _)).bind fun done hdone => yields_pure fun s hs => ?_
  · exact List.forall_mem_cons.2 ⟨hs, hdone⟩
  · exact hdone s (List.mem_reverse.1 hs)

theorem yields_classDec : Yields classDec fun parsed => ∃ scopes, ReadInScopes parsed scopes :=
  .skip _ fun _ => .skip _ fun _ => .skip _ fun name => .skip _ fun _ =>
    yields_classVarDecs.bind fun decs hdecs => (yields_subroutineDecs name.text decs.2).bind
      fun _ hsubs => .skip _ fun _ => .skip _ fun _ => yields_pure ⟨decs.2, hdecs, rfl, hsubs⟩

end Parser

/-- **A class is read with the scopes that its declarations make.** -/
theorem readInScopes_of_parse {tokens : List Token} {parsed : ParsedClass}
    (h : parse tokens = .ok parsed) : ∃ scopes, ReadInScopes parsed scopes := by
  obtain ⟨c, hclass, -⟩ := parse_eq_ok_iff.1 h
  exact Parser.yields_classDec hclass

/-! ### Counting what is declared -/

theorem countP_storage {ds : List Declaration} {storage : Storage}
    (h : ∀ d ∈ ds, d.storage = storage) (other : Storage) :
    ds.countP (·.storage == other) = Scopes.only storage ds.length other := by
  rw [Scopes.only]
  split
  · next heq => exact List.countP_eq_length.2 fun d hd => by simp [h d hd, heq]
  · next hne => exact List.countP_eq_zero.2 fun d hd => by simpa [h d hd] using hne

theorem ClassDec.countP_declarations (c : ClassDec) (storage : Storage) :
    c.declarations.countP (·.storage == storage) = (classVarNames c.varDecs storage).length := by
  have hdec (d : ClassVarDec) : (declarationsOf d.type d.kind.storage d.names).countP
      (·.storage == storage) = (if d.kind.storage = storage then d.names else []).length := by
    by_cases h : d.kind.storage = storage <;>
      simp [declarationsOf, List.countP_map, h, Function.comp_def]
  rw [declarations, classVarNames, List.countP_flatMap, List.length_flatMap]
  exact congrArg List.sum (List.map_congr_left fun d _ => hdec d)

theorem SubroutineDec.countP_declarations (className : String) (s : SubroutineDec)
    (storage : Storage) :
    (s.declarations className).countP (·.storage == storage) = s.declared storage := by
  have hlocals : s.locals.length = s.localCount := by
    simp [locals, localCount_eq, declarationsOf, List.length_flatMap]
  have harguments : (s.arguments className).length =
      s.parameters.length + if s.kind = .method then 1 else 0 := by
    cases hkind : s.kind <;> simp [arguments, SubroutineKind.object, hkind]
  rw [declarations, List.countP_append, countP_storage (s.storage_of_mem_arguments className),
    countP_storage s.storage_of_mem_locals, hlocals, harguments]
  cases storage <;> simp [Scopes.only, declared]

/-- Declarations add as many variables of each storage class as there are among them. -/
theorem Scopes.Declares.adds {s s' : Scopes} {ds : List Declaration} (h : s.Declares ds s') :
    s.Adds (fun storage => ds.countP (·.storage == storage)) s' := by
  induction h with
  | nil => exact .none
  | snoc _ hdeclare ih =>
    refine (ih.trans (adds_of_declare hdeclare)).congr fun storage => ?_
    simp [List.countP_append, List.countP_singleton, only]

/-- The scopes that a subroutine was read with count what it declares. -/
theorem SubroutineDec.ReadIn.scopedIn {className : String} {scopes : Scopes} {s : SubroutineDec}
    (h : s.ReadIn className scopes) : s.ScopedIn scopes := by
  obtain ⟨scopes', hdeclares, hnames⟩ := h
  exact ⟨scopes', hdeclares.adds.congr (s.countP_declarations className), hnames⟩

/-- The number of variables of a storage class that a subroutine of a class can name. -/
def SubroutineDec.extent (tree : ClassDec) (s : SubroutineDec) : Storage → Nat
  | .static => (classVarNames tree.varDecs .static).length
  | .field => (classVarNames tree.varDecs .field).length
  | .argument => s.parameters.length + if s.kind = .method then 1 else 0
  | .localVar => s.localCount

/-- What `parse` promises of a class. -/
structure WellScoped (parsed : ParsedClass) : Prop where
  /-- The scope of the class counts the fields of the tree. -/
  fields : parsed.scope.count .field = (classVarNames parsed.tree.varDecs .field).length
  /-- The names of a subroutine come from scopes that count what the tree declares. -/
  subroutines : ∀ s ∈ parsed.tree.subroutines, ∃ scopes : Scopes, scopes.Indexed ∧
    (∀ storage, scopes.count storage = s.extent parsed.tree storage) ∧
      Resolved scopes.resolve (statementsNameUses s.statements)

/-- **The names of a parsed class come from scopes that count what its tree declares.** -/
theorem wellScoped_of_parse {tokens : List Token} {parsed : ParsedClass}
    (h : parse tokens = .ok parsed) : WellScoped parsed := by
  obtain ⟨scopes, hread⟩ := readInScopes_of_parse h
  have hclass := hread.declares.adds
  refine ⟨?_, fun s hs => ?_⟩
  · have hcount := hclass.count_eq .field
    rw [Scopes.count_empty, Nat.zero_add, ClassDec.countP_declarations] at hcount
    rw [hread.scope_eq]
    exact hcount
  · obtain ⟨scopes', hadds, hnames⟩ := (hread.subroutines s hs).scopedIn
    refine ⟨scopes', hadds.indexed (hclass.indexed Scopes.indexed_empty).clearSubroutine,
      fun storage => ?_, hnames⟩
    -- Of the variables of the class all are left, of those of other subroutines none.
    rw [hadds.count_eq, Scopes.count_clearSubroutine, hclass.count_eq, Scopes.count_empty,
      ClassDec.countP_declarations]
    cases storage <;> simp [Storage.level, SubroutineDec.declared, SubroutineDec.extent]

end Jack

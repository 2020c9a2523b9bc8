import Jack.Proofs.Events

/-!
# Classes within the limits

A class keeps to the limits of the parser (`ClassDec.WithinLimits`) if every declaration has a name,
no scope has a name twice or more variables of a storage class than there are indices, and nothing
is nested too deeply.  These are conditions on the class as a whole, while a limit is broken by one
event: on a level that is too deep, or by a name after the ones in front of it.

The two say the same.  What stands on a level reaches down to the level plus its nesting, and all
levels in between are entered on the way.  The declarations of a scope fit in it (`Fits`) exactly if
each of them fits after those in front of it.

* `Expr.unbroken_events_iff`, `unbroken_bodyEvents_iff` : which levels are too deep;
* `forall_mem_withEarlier_iff` : declarations fit one by one;
* `ClassDec.unbroken_events_iff` : **no event breaks a limit exactly if the class keeps to them.**
-/

namespace Jack

/-! ### Levels -/

mutual

theorem Expr.unbroken_events_iff : ∀ (e : Expr) (level : Nat), level ≤ 65 →
    (Unbroken (e.events level) ↔ e.nesting + level ≤ 65)
  | ⟨head, tail, _⟩, level, h => by
    simp only [Expr.events, Expr.nesting, unbroken_enter_cons, unbroken_append]
    -- On level 65 the expression breaks the limit at once, and its nesting is not zero.
    by_cases hlevel : level = 65
    · exact iff_of_false (fun hunbroken => hunbroken.1 hlevel) (by omega)
    · rw [head.unbroken_events_iff level (by omega), unbroken_tailEvents_iff tail level (by omega)]
      omega

theorem unbroken_tailEvents_iff : ∀ (tail : List (BinaryOp × Term)) (level : Nat), level ≤ 64 →
    (Unbroken (tailEvents level tail) ↔ tailNesting tail + level ≤ 64)
  | [], level, h => iff_of_true unbroken_nil (by simpa [tailNesting] using h)
  | (_, t) :: tail, level, h => by
    simp only [tailEvents, tailNesting, unbroken_token_cons, unbroken_append]
    rw [t.unbroken_events_iff level h, unbroken_tailEvents_iff tail level h]
    omega

theorem Term.unbroken_events_iff : ∀ (t : Term) (level : Nat), level ≤ 64 →
    (Unbroken (t.events level) ↔ t.nesting + level ≤ 64)
  | .integer _ _, _, h | .string _ _, _, h | .keyword _ _, _, h | .var _, _, h => by
    simpa [Term.events, Term.nesting] using h
  | .element _ index, level, h | .group index _, level, h => by
    simp only [Term.events, Term.nesting, unbroken_token_cons, unbroken_append, unbroken_nil,
      and_true, index.unbroken_events_iff (level + 1) (by omega)]
    omega
  | .call call, level, h => call.unbroken_events_iff level h
  | .unary _ operand _, level, h => by
    simp only [Term.events, Term.nesting, unbroken_token_cons, unbroken_enter_cons]
    by_cases hlevel : level = 64
    · exact iff_of_false (fun hunbroken => hunbroken.1 (by omega)) (by omega)
    · rw [operand.unbroken_events_iff (level + 1) (by omega)]
      omega

theorem Call.unbroken_events_iff : ∀ (c : Call) (level : Nat), level ≤ 64 →
    (Unbroken (c.events level) ↔ c.nesting + level ≤ 64)
  | ⟨_, _, arguments, _⟩, level, h => by
    simp only [Call.events, Call.nesting, unbroken_map_token, unbroken_token_cons,
      unbroken_append, unbroken_joinEvents, unbroken_nil, true_and, and_true,
      unbroken_argumentsEvents_iff arguments level h]

theorem unbroken_argumentsEvents_iff : ∀ (es : List Expr) (level : Nat), level ≤ 64 →
    ((∀ piece ∈ argumentsEvents level es, Unbroken piece) ↔ argumentsNesting es + level ≤ 64)
  | [], level, h => by simpa [argumentsEvents, argumentsNesting] using h
  | e :: es, level, h => by
    simp only [argumentsEvents, argumentsNesting, List.forall_mem_cons]
    rw [e.unbroken_events_iff (level + 1) (by omega), unbroken_argumentsEvents_iff es level h]
    omega

end

section Options

variable {level : Nat} (h : level ≤ 64)

include h

theorem unbroken_indexEvents_iff (index : Option Expr) :
    Unbroken (indexEvents level index) ↔ optionNesting index + level ≤ 64 := by
  cases index with
  | none => exact iff_of_true unbroken_nil (by simpa [optionNesting] using h)
  | some index =>
    simp only [indexEvents, optionNesting, unbroken_token_cons, unbroken_append, unbroken_nil,
      and_true, index.unbroken_events_iff (level + 1) (by omega)]
    omega

theorem unbroken_valueEvents_iff (value : Option Expr) :
    Unbroken (valueEvents level value) ↔ optionNesting value + level ≤ 64 := by
  cases value with
  | none => exact iff_of_true unbroken_nil (by simpa [optionNesting] using h)
  | some value =>
    rw [valueEvents, optionNesting, value.unbroken_events_iff (level + 1) (by omega)]
    omega

end Options

mutual

theorem Statement.unbroken_events_iff : ∀ (s : Statement) (level : Nat), level ≤ 64 →
    (Unbroken (s.events level) ↔ s.nesting + level ≤ 64)
  | .assign _ index value _, level, h => by
    simp only [Statement.events, Statement.nesting, unbroken_token_cons, unbroken_append,
      unbroken_nil, and_true, unbroken_indexEvents_iff h,
      value.unbroken_events_iff (level + 1) (by omega)]
    omega
  | .ifThen condition body _, level, h | .whileLoop condition body _, level, h => by
    simp only [Statement.events, Statement.nesting, unbroken_token_cons, unbroken_enter_cons,
      unbroken_append, unbroken_nil, and_true,
      condition.unbroken_events_iff (level + 1) (by omega)]
    by_cases hlevel : level = 64
    · exact iff_of_false (fun hunbroken => hunbroken.2.1 (by omega)) (by omega)
    · rw [unbroken_bodyEvents_iff body (level + 1) (by omega)]
      omega
  | .ifElse condition thenBody elseBody _, level, h => by
    simp only [Statement.events, Statement.nesting, unbroken_token_cons, unbroken_enter_cons,
      unbroken_append, unbroken_nil, and_true,
      condition.unbroken_events_iff (level + 1) (by omega)]
    by_cases hlevel : level = 64
    · exact iff_of_false (fun hunbroken => hunbroken.2.1 (by omega)) (by omega)
    · rw [unbroken_bodyEvents_iff thenBody (level + 1) (by omega),
        unbroken_bodyEvents_iff elseBody (level + 1) (by omega)]
      omega
  | .doCall call _, level, h => by
    simp only [Statement.events, Statement.nesting, unbroken_token_cons, unbroken_append,
      unbroken_nil, and_true, call.unbroken_events_iff level h]
  | .ret value _, level, h => by
    simp only [Statement.events, Statement.nesting, unbroken_token_cons, unbroken_append,
      unbroken_nil, and_true, unbroken_valueEvents_iff h]

theorem unbroken_bodyEvents_iff : ∀ (ss : List Statement) (level : Nat), level ≤ 64 →
    (Unbroken (bodyEvents level ss) ↔ statementsNesting ss + level ≤ 64)
  | [], level, h => iff_of_true unbroken_nil (by simpa [statementsNesting] using h)
  | s :: ss, level, h => by
    simp only [bodyEvents, statementsNesting, unbroken_append]
    rw [s.unbroken_events_iff level h, unbroken_bodyEvents_iff ss level h]
    omega

end

/-! ### Declarations -/

/-- The declarations can stand in one scope: their names are distinct, and each storage class has an
index for each of its variables. -/
structure Fits (ds : List Declaration) : Prop where
  /-- The names are distinct. -/
  nodup : (ds.map (·.name)).Nodup
  /-- There are indices enough. -/
  count_le : ∀ storage, ds.countP (·.storage == storage) ≤ 32768

section Declarations

variable {ds ds' earlier : List Declaration} {d : Declaration}

theorem fits_nil : Fits [] := ⟨List.nodup_nil, fun _ => Nat.zero_le _⟩

theorem Fits.of_append (h : Fits (ds ++ ds')) : Fits ds := by
  obtain ⟨hnodup, hcount⟩ := h
  rw [List.map_append] at hnodup
  refine ⟨hnodup.of_append_left, fun storage => ?_⟩
  have := hcount storage
  rw [List.countP_append] at this
  omega

/-- One more declaration fits exactly if it breaks no limit. -/
theorem Fits.limit?_declare_iff (h : Fits earlier) :
    (Event.declare earlier d).limit? = none ↔ Fits (earlier ++ [d]) := by
  have hcount (storage : Storage) : (earlier ++ [d]).countP (·.storage == storage) =
      earlier.countP (·.storage == storage) + if d.storage == storage then 1 else 0 := by
    rw [List.countP_append, List.countP_singleton]
  rw [Event.limit?_declare_eq_none_iff]
  constructor
  · rintro ⟨hname, hroom⟩
    refine ⟨?_, fun storage => ?_⟩
    · rw [List.map_append, List.map_singleton, List.nodup_append_comm, List.singleton_append]
      exact List.nodup_cons.2 ⟨hname, h.nodup⟩
    · have hle := h.count_le storage
      rw [hcount]
      split
      · next heq =>
        obtain rfl : d.storage = storage := beq_iff_eq.1 heq
        omega
      · exact hle
  · rintro ⟨hnodup, hle⟩
    rw [List.map_append, List.map_singleton, List.nodup_append_comm, List.singleton_append,
      List.nodup_cons] at hnodup
    have hle' := hle d.storage
    rw [hcount, if_pos (beq_self_eq_true _)] at hle'
    exact ⟨hnodup.1, by omega⟩

/-- **Things that declare fit in a scope exactly if each fits after the ones in front of it.** -/
theorem forall_mem_withEarlier_iff {γ : Type} {declared : γ → List Declaration} {ms : List γ}
    {good : List Declaration × γ → Prop}
    (hgood : ∀ earlier m, Fits earlier → (good (earlier, m) ↔ Fits (earlier ++ declared m)))
    (h : Fits earlier) : (∀ m ∈ withEarlier declared earlier ms, good m) ↔
      Fits (earlier ++ ms.flatMap declared) := by
  induction ms generalizing earlier with
  | nil => simpa [withEarlier] using h
  | cons x ms ih =>
    rw [withEarlier, List.forall_mem_cons, hgood earlier x h, List.flatMap_cons,
      ← List.append_assoc]
    -- Either way the first one fits, and the others come after it.
    exact ⟨fun hall => (ih hall.1).1 hall.2, fun hfits =>
      ⟨hfits.of_append, (ih hfits.of_append).2 hfits⟩⟩

section Scopes

variable (h : Fits earlier)

include h

theorem Fits.unbroken_namesEvents_iff {type : TypeName} {storage : Storage} {names : List Ident} :
    Unbroken (namesEvents type storage earlier names) ↔
      Fits (earlier ++ declarationsOf type storage names) := by
  rw [namesEvents, unbroken_joinEvents, List.forall_mem_map, declarationsOf_eq_flatMap]
  refine forall_mem_withEarlier_iff (fun earlier name h => ?_) h
  simpa using h.limit?_declare_iff

theorem Fits.unbroken_classVarDec_iff {dec : ClassVarDec} :
    Unbroken (dec.events earlier) ↔ Fits (earlier ++ dec.declarations) := by
  rw [ClassVarDec.declarations, ← h.unbroken_namesEvents_iff]
  simp [ClassVarDec.events]

theorem Fits.unbroken_varDec_iff {dec : VarDec} :
    Unbroken (dec.events earlier) ↔ Fits (earlier ++ dec.declarations) := by
  rw [VarDec.declarations, ← h.unbroken_namesEvents_iff]
  simp [VarDec.events]

theorem Fits.unbroken_parameter_iff {p : Parameter} :
    Unbroken (p.events earlier) ↔ Fits (earlier ++ [p.declaration]) := by
  simpa [Parameter.events] using h.limit?_declare_iff

end Scopes

end Declarations

theorem SubroutineDec.unbroken_events_iff (className : String) (s : SubroutineDec) :
    Unbroken (s.events className) ↔ Fits (s.declarations className) ∧ s.nesting ≤ 64 := by
  have hobject : Fits (s.kind.object className) := by
    cases s.kind with
    | method => exact fits_nil.limit?_declare_iff.1 rfl
    | constructor | function => exact fits_nil
  have hparameters : (∀ m ∈ withEarlier (fun p => [p.declaration]) (s.kind.object className)
      s.parameters, Unbroken (m.2.events m.1)) ↔ Fits (s.arguments className) := by
    rw [s.arguments_eq_flatMap]
    exact forall_mem_withEarlier_iff (fun _ _ h => h.unbroken_parameter_iff) hobject
  have hstatements := unbroken_bodyEvents_iff s.statements 1 (by decide)
  simp only [events, statementsEvents, unbroken_token_cons, unbroken_enter_cons, unbroken_append,
    unbroken_joinEvents, unbroken_flatMap, List.forall_mem_map, unbroken_nil, and_true,
    hparameters, hstatements]
  constructor
  · rintro ⟨harguments, hlocals, -, hnesting⟩
    exact ⟨(forall_mem_withEarlier_iff (fun _ _ h => h.unbroken_varDec_iff) harguments).1 hlocals,
      hnesting⟩
  · rintro ⟨hfits, hnesting⟩
    have harguments : Fits (s.arguments className) := hfits.of_append
    exact ⟨harguments, (forall_mem_withEarlier_iff (fun _ _ h => h.unbroken_varDec_iff)
      harguments).2 hfits, by decide, hnesting⟩

/-! ### The class -/

/-- The class keeps to the limits of the parser. -/
structure ClassDec.WithinLimits (c : ClassDec) : Prop where
  /-- Each declaration of variables of the class has a name. -/
  classVarNames_ne_nil : ∀ d ∈ c.varDecs, d.names ≠ []
  /-- Each declaration of local variables has a name. -/
  varNames_ne_nil : ∀ s ∈ c.subroutines, ∀ d ∈ s.varDecs, d.names ≠ []
  /-- The class is not nested too deeply. -/
  nesting_le : c.nesting ≤ 64
  /-- No name is declared twice in the class. -/
  nodup : (c.declarations.map (·.name)).Nodup
  /-- No name is declared twice in a subroutine. -/
  nodup_subroutine : ∀ s ∈ c.subroutines, ((s.declarations c.name.text).map (·.name)).Nodup
  /-- There are not too many variables of a storage class in the class. -/
  count_le : ∀ storage, c.declarations.countP (·.storage == storage) ≤ 32768
  /-- There are not too many variables of a storage class in a subroutine. -/
  count_subroutine_le : ∀ s ∈ c.subroutines, ∀ storage,
    (s.declarations c.name.text).countP (·.storage == storage) ≤ 32768

/-- **No event of a class breaks a limit exactly if the class keeps to the limits.** -/
theorem ClassDec.unbroken_events_iff {c : ClassDec} (h : c.IsGrammatical) :
    Unbroken c.events ↔ c.WithinLimits := by
  have hdecs : (∀ m ∈ withEarlier ClassVarDec.declarations [] c.varDecs,
      Unbroken (m.2.events m.1)) ↔ Fits c.declarations :=
    forall_mem_withEarlier_iff (fun _ _ h => h.unbroken_classVarDec_iff) fits_nil
  simp only [events, unbroken_token_cons, unbroken_append, unbroken_flatMap, unbroken_nil,
    and_true, hdecs, SubroutineDec.unbroken_events_iff]
  constructor
  · rintro ⟨hclass, hsubs⟩
    exact ⟨h.classVarNames_ne_nil, h.varNames_ne_nil,
      ClassDec.nesting_le_iff.2 fun s hs => (hsubs s hs).2, hclass.nodup,
      fun s hs => (hsubs s hs).1.nodup, hclass.count_le, fun s hs => (hsubs s hs).1.count_le⟩
  · intro hlimits
    exact ⟨⟨hlimits.nodup, hlimits.count_le⟩, fun s hs =>
      ⟨⟨hlimits.nodup_subroutine s hs, hlimits.count_subroutine_le s hs⟩,
        ClassDec.nesting_le_iff.1 hlimits.nesting_le s hs⟩⟩

end Jack

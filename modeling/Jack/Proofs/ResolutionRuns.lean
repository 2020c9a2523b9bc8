import Jack.Proofs.ScopeRuns

/-!
# Resolution under calls in a row

The scopes of a class and of the subroutine at hand take calls in any order too: to define a name on
either level, to enter a subroutine and to leave one, whether or not one was entered.
`Scopes.calls` makes calls in a row and keeps what came of each of them.  The record alone tells
which variables are in force on a level (`inForce`): on that of the class all that were defined, on
that of the subroutine those that were defined since a subroutine was last entered or left.

* `Scopes.Resolves` : what scopes answer when certain calls were made;
* `Scopes.ofLevel_calls` : each scope is as if it had only taken the calls that concern it;
* `Scopes.toList_calls` : it lists the variables in force on its level;
* `Scopes.resolves_calls` : **after any calls each name means the variable of the subroutine in
  force, else that of the class, else what its first letter suggests.**
-/

namespace Jack

/-! ### Calls -/

/-- A call on scopes that are changed in place. -/
inductive ScopesCall where
  /-- Defines a name in the scope that its storage class belongs to. -/
  | define (name : Ident) (type : TypeName) (storage : Storage)
  /-- Enters a subroutine. -/
  | enter
  /-- Leaves a subroutine. -/
  | exit
deriving DecidableEq, Repr

/-- What comes of a call. -/
inductive ScopesEvent where
  /-- A name was defined, as this variable. -/
  | defined (v : Variable)
  /-- A name was refused. -/
  | refused (e : CompileError)
  /-- A subroutine was entered. -/
  | entered
  /-- A subroutine was left. -/
  | exited
deriving DecidableEq, Repr

namespace ScopesEvent

/-- The variable that was defined, if it belongs to the level. -/
def variableOn? (level : ScopeLevel) : ScopesEvent → Option Variable
  | defined v => if v.storage.level = level then some v else none
  | refused _ | entered | exited => none

/-- A subroutine was entered or left. -/
def isBorder : ScopesEvent → Bool
  | entered | exited => true
  | defined _ | refused _ => false

end ScopesEvent

/-- The variables that are in force on a level, in the order of their definition. -/
def inForce (level : ScopeLevel) (events : List ScopesEvent) : List Variable :=
  match level with
  | .classLevel => events.filterMap (ScopesEvent.variableOn? .classLevel)
  | .subroutineLevel => (events.rtakeWhile fun e => !e.isBorder).filterMap
      (ScopesEvent.variableOn? .subroutineLevel)

/-- What the call asks of the scope of a level. -/
def ScopesCall.ofLevel? (level : ScopeLevel) : ScopesCall → Option ScopeCall
  | define name type storage =>
    if storage.level = level then some (.define name type storage) else none
  | enter | exit =>
    match level with
    | .classLevel => none
    | .subroutineLevel => some .clear

namespace Scopes

/-- One call: what comes of it, and the scopes behind it. -/
def call (s : Scopes) : ScopesCall → ScopesEvent × Scopes
  | .define name type storage =>
    match s.declare name type storage with
    | .ok (v, s') => (.defined v, s')
    | .error e => (.refused e, s)
  | .enter => (.entered, s.clearSubroutine)
  | .exit => (.exited, s.clearSubroutine)

/-- Calls in a row: what comes of each, and the scopes behind the last one. -/
def calls (s : Scopes) : List ScopesCall → List ScopesEvent × Scopes
  | [] => ([], s)
  | c :: cs => ((s.call c).1 :: ((s.call c).2.calls cs).1, ((s.call c).2.calls cs).2)

/-- The scopes answer as they have to after the calls, of which the events have come. -/
structure Resolves (s : Scopes) (cs : List ScopesCall) (events : List ScopesEvent) : Prop where
  /-- A name is defined only once among the variables in force on a level. -/
  nodup : ∀ level, ((inForce level events).map (·.name)).Nodup
  /-- The name of a variable of the subroutine is that variable. -/
  lookup?_of_subroutine : ∀ v ∈ inForce .subroutineLevel events, s.lookup? v.name = some v
  /-- The name of a variable of the class is that variable, unless the subroutine has one of this
  name. -/
  lookup?_of_class : ∀ v ∈ inForce .classLevel events,
    (∀ u ∈ inForce .subroutineLevel events, u.name ≠ v.name) → s.lookup? v.name = some v
  /-- Other names are no variables. -/
  lookup?_eq_none : ∀ name, (∀ level, ∀ v ∈ inForce level events, v.name ≠ name) →
    s.lookup? name = none
  /-- A name means its variable. -/
  resolve_of_some : ∀ name v, s.lookup? name = some v → s.resolve name = .declared v
  /-- A name without a variable means what its first letter suggests. -/
  resolve_of_none : ∀ name, s.lookup? name = none →
    s.resolve name = if startsUpper name then .className else .subroutine
  /-- To define a name on one level leaves the other one as it is. -/
  define_other : ∀ name type storage level, level ≠ storage.level →
    (s.call (.define name type storage)).2.ofLevel level = s.ofLevel level
  /-- The scope of a level is a new one that has taken only the calls that concern the level: for
  the class, those that define a static variable or a field. -/
  ofLevel_eq : ∀ level, s.ofLevel level =
    (Scope.empty.calls (cs.filterMap (ScopesCall.ofLevel? level))).2

end Scopes

/-! ### What is in force -/

section InForce

variable (level : ScopeLevel) (events : List ScopesEvent)

@[simp] theorem inForce_defined (v : Variable) :
    inForce level (events ++ [.defined v]) =
      inForce level events ++ if v.storage.level = level then [v] else [] := by
  by_cases h : v.storage.level = level <;> cases level <;>
    simp [inForce, ScopesEvent.isBorder, ScopesEvent.variableOn?, h]

@[simp] theorem inForce_refused (e : CompileError) :
    inForce level (events ++ [.refused e]) = inForce level events := by
  cases level <;> simp [inForce, ScopesEvent.isBorder, ScopesEvent.variableOn?]

/-- Where a subroutine begins or ends, only the variables of the class stay in force. -/
theorem inForce_border {e : ScopesEvent} (he : e.isBorder = true) :
    inForce level (events ++ [e]) =
      match level with
      | .classLevel => inForce .classLevel events
      | .subroutineLevel => [] := by
  cases e <;> cases level <;> simp_all [inForce, ScopesEvent.isBorder, ScopesEvent.variableOn?]

end InForce

namespace Scopes

variable {s : Scopes}

theorem calls_append_singleton (s : Scopes) (cs : List ScopesCall) (c : ScopesCall) :
    s.calls (cs ++ [c]) =
      ((s.calls cs).1 ++ [((s.calls cs).2.call c).1], ((s.calls cs).2.call c).2) := by
  induction cs generalizing s with
  | nil => rfl
  | cons c' cs ih => simp [calls, ih]

/-! ### One call -/

/-- A name is defined in the scope of its level. -/
theorem ofLevel_define (name : Ident) (type : TypeName) (storage : Storage) (level : ScopeLevel) :
    (s.call (.define name type storage)).2.ofLevel level =
      if level = storage.level then ((s.ofLevel level).call (.define name type storage)).2
      else s.ofLevel level := by
  rw [call, declare_eq]
  by_cases h : level = storage.level
  · subst h
    rw [if_pos rfl, Scope.call]
    cases (s.ofLevel storage.level).declare name type storage with
    | error e => rfl
    | ok r => exact (ofLevel_setLevel ..).trans (if_pos rfl)
  · rw [if_neg h]
    cases (s.ofLevel storage.level).declare name type storage with
    | error e => rfl
    | ok r => exact (ofLevel_setLevel ..).trans (if_neg h)

/-- A call does to the scope of a level what it asks of it. -/
theorem ofLevel_call (c : ScopesCall) (level : ScopeLevel) :
    (s.call c).2.ofLevel level = ((s.ofLevel level).calls (c.ofLevel? level).toList).2 := by
  cases c with
  | define name type storage =>
    rw [ofLevel_define, ScopesCall.ofLevel?]
    by_cases h : level = storage.level
    · rw [if_pos h, if_pos h.symm]
      rfl
    · rw [if_neg h, if_neg (Ne.symm h)]
      rfl
  | enter | exit => cases level <;> rfl

/-- A call puts into force what it defines, and takes out of force what it drops. -/
theorem toList_call (c : ScopesCall) (level : ScopeLevel) {events : List ScopesEvent}
    (h : (s.ofLevel level).toList = inForce level events) :
    ((s.call c).2.ofLevel level).toList = inForce level (events ++ [(s.call c).1]) := by
  cases c with
  | define name type storage =>
    rw [call]
    split
    · next v s' hdeclare =>
      obtain ⟨-, -, hv, rfl⟩ := declare_eq_ok_iff.1 hdeclare
      have hlevel : v.storage.level = storage.level := by rw [hv]
      rw [ofLevel_setLevel, inForce_defined, hlevel, ← h]
      by_cases heq : level = storage.level
      · rw [if_pos heq, if_pos heq.symm, Scope.toList_push, heq]
      · rw [if_neg heq, if_neg (Ne.symm heq), List.append_nil]
    · rw [inForce_refused, h]
  | enter | exit =>
    rw [call, inForce_border level events rfl]
    cases level with
    | classLevel => exact h
    | subroutineLevel => rfl

/-! ### Calls in a row -/

/-- **Each scope is as if it had only taken the calls that concern its level.** -/
theorem ofLevel_calls (cs : List ScopesCall) (level : ScopeLevel) :
    (empty.calls cs).2.ofLevel level =
      (Scope.empty.calls (cs.filterMap (ScopesCall.ofLevel? level))).2 := by
  induction cs using List.reverseRecOn with
  | nil => cases level <;> rfl
  | append_singleton cs c ih =>
    rw [calls_append_singleton, ofLevel_call, ih, List.filterMap_append]
    cases hc : c.ofLevel? level with
    | none => simp [hc, Scope.calls]
    | some c' => simp [hc, Scope.calls, Scope.calls_append_singleton]

/-- **Each scope lists the variables in force on its level.** -/
theorem toList_calls (cs : List ScopesCall) (level : ScopeLevel) :
    ((empty.calls cs).2.ofLevel level).toList = inForce level (empty.calls cs).1 := by
  induction cs using List.reverseRecOn with
  | nil => cases level <;> rfl
  | append_singleton cs c ih =>
    rw [calls_append_singleton]
    exact toList_call c level ih

theorem numbered_ofLevel_calls (cs : List ScopesCall) (level : ScopeLevel) :
    ((empty.calls cs).2.ofLevel level).Numbered := by
  rw [ofLevel_calls]
  exact (Scope.numbered_calls _).1

/-- **After any calls each name means the variable of the subroutine in force, else that of the
class, else what its first letter suggests.** -/
theorem resolves_calls (cs : List ScopesCall) :
    (empty.calls cs).2.Resolves cs (empty.calls cs).1 := by
  have hnodup (level : ScopeLevel) :
      ((inForce level (empty.calls cs).1).map (·.name)).Nodup := by
    rw [← toList_calls]
    exact (numbered_ofLevel_calls cs level).nodup
  have hlookup (level : ScopeLevel) (name : String) :
      ((empty.calls cs).2.ofLevel level).lookup? name =
        (inForce level (empty.calls cs).1).find? (·.name == name) := by
    rw [Scope.lookup?_eq_find?_toList (numbered_ofLevel_calls cs level).nodup, toList_calls]
  have hfound {level : ScopeLevel} {v : Variable} (hv : v ∈ inForce level (empty.calls cs).1) :
      ((empty.calls cs).2.ofLevel level).lookup? v.name = some v :=
    (hlookup level v.name).trans ((find?_name_eq_some_iff (hnodup level)).2 ⟨hv, rfl⟩)
  have hmissing {level : ScopeLevel} {name : String}
      (hname : ∀ v ∈ inForce level (empty.calls cs).1, v.name ≠ name) :
      ((empty.calls cs).2.ofLevel level).lookup? name = none :=
    (hlookup level name).trans (List.find?_eq_none.2 fun v hv => by simpa using hname v hv)
  have horElse (name : String) : (empty.calls cs).2.lookup? name =
      (((empty.calls cs).2.ofLevel .subroutineLevel).lookup? name).or
        (((empty.calls cs).2.ofLevel .classLevel).lookup? name) := by
    rw [lookup?, Option.orElse_eq_orElse, Option.orElse_eq_or]
    rfl
  exact {
    nodup := hnodup
    lookup?_of_subroutine := fun v hv => by rw [horElse, hfound hv, Option.some_or]
    lookup?_of_class := fun v hv hname => by
      rw [horElse, hmissing hname, hfound hv, Option.none_or]
    lookup?_eq_none := fun name hname => by
      rw [horElse, hmissing (hname _), hmissing (hname _), Option.none_or]
    resolve_of_some := fun name v h => by rw [resolve, h]
    resolve_of_none := fun name h => by rw [resolve, h, Meaning.ofUndeclared_eq]
    define_other := fun name type storage level h => by rw [ofLevel_define, if_neg h]
    ofLevel_eq := ofLevel_calls cs }

example : ((empty.calls [.define ⟨"x", .empty 0⟩ .int .field, .exit,
      .define ⟨"x", .empty 1⟩ .char .argument, .define ⟨"x", .empty 2⟩ .int .static]).2.resolve "x",
    (empty.calls [.define ⟨"x", .empty 0⟩ .int .argument, .enter]).2.resolve "x") =
  (.declared ⟨"x", .char, .argument, 0⟩, .subroutine) := by decide

end Scopes

end Jack

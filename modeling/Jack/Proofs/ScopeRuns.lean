import Jack.Proofs.LexicalScope
import Mathlib.Data.List.DropRight

/-!
# Scopes under calls in a row

A scope that is changed in place takes calls in any order: to define a name, which may be refused,
and to be cleared.  `Scope.calls` makes calls in a row and keeps what came of each of them.  From
this record alone one can tell what the scope holds (`standing`): the variables that were defined
since it was last cleared.

* `Scope.Records` : what a scope that holds some variables answers, and how it takes calls;
* `Scope.Records.define`, `Scope.Records.call` : one call keeps it;
* `Scope.records_calls` : **after any calls a scope holds what stands in the record of them.**
-/

namespace Jack

/-! ### Calls -/

/-- A call on a scope that is changed in place. -/
inductive ScopeCall where
  /-- Defines a name. -/
  | define (name : Ident) (type : TypeName) (storage : Storage)
  /-- Drops all variables. -/
  | clear
deriving DecidableEq, Repr

/-- What comes of a call. -/
inductive ScopeEvent where
  /-- A name was defined, as this variable. -/
  | defined (v : Variable)
  /-- A name was refused. -/
  | refused (e : CompileError)
  /-- All variables were dropped. -/
  | cleared
deriving DecidableEq, Repr

/-- The variable that was defined. -/
def ScopeEvent.variable? : ScopeEvent → Option Variable
  | defined v => some v
  | refused _ | cleared => none

/-- The variables that were defined since the scope was last cleared, in order. -/
def standing (events : List ScopeEvent) : List Variable :=
  (events.rtakeWhile (· != .cleared)).filterMap ScopeEvent.variable?

namespace Scope

/-- One call: what comes of it, and the scope behind it. -/
def call (s : Scope) : ScopeCall → ScopeEvent × Scope
  | .define name type storage =>
    match s.declare name type storage with
    | .ok (v, s') => (.defined v, s')
    | .error e => (.refused e, s)
  | .clear => (.cleared, empty)

/-- Calls in a row: what comes of each, and the scope behind the last one. -/
def calls (s : Scope) : List ScopeCall → List ScopeEvent × Scope
  | [] => ([], s)
  | c :: cs => ((s.call c).1 :: ((s.call c).2.calls cs).1, ((s.call c).2.calls cs).2)

/-- The scope holds the variables, in the order of their definition. -/
structure Records (s : Scope) (held : List Variable) : Prop where
  /-- These are what it lists. -/
  toList_eq : s.toList = held
  /-- This is how many it says it holds. -/
  size_eq : s.size = held.length
  /-- No two of them share a name. -/
  nodup : (held.map (·.name)).Nodup
  /-- Each has the number of earlier ones of its storage class as its index. -/
  index_eq : ∀ before v after, held = before ++ v :: after →
    v.index = before.countP (·.storage == v.storage)
  /-- The scope counts them by storage class. -/
  count_eq : ∀ storage, s.count storage = held.countP (·.storage == storage)
  /-- There is an index for each. -/
  count_le : ∀ storage, s.count storage ≤ 32768
  /-- A name is looked up among them. -/
  lookup?_eq_some_iff : ∀ name v, s.lookup? name = some v ↔ v ∈ held ∧ v.name = name
  /-- A name is known if one of them has it. -/
  contains_iff : ∀ name, s.contains name = true ↔ ∃ v ∈ held, v.name = name
  /-- To define a name that is present is refused for this reason. -/
  define_present : ∀ name type storage, (∃ v ∈ held, v.name = name.text) →
    s.call (.define name type storage) = (.refused (.duplicate name.text name.span), s)
  /-- To define another name is refused if no index is left. -/
  define_exhausted : ∀ name type storage, (∀ v ∈ held, v.name ≠ name.text) →
    held.countP (·.storage == storage) = 32768 → s.call (.define name type storage) =
      (.refused (.lowering (.indexSpaceExhausted storage name.text 32767) (some name.span)), s)
  /-- Otherwise it is defined, with the next index. -/
  define_new : ∀ name type storage, (∀ v ∈ held, v.name ≠ name.text) →
    held.countP (·.storage == storage) < 32768 → (s.call (.define name type storage)).1 =
      .defined ⟨name.text, type, storage, held.countP (·.storage == storage)⟩
  /-- Calls behind a refused one go as if it had not been made. -/
  calls_refused : ∀ c e, (s.call c).1 = .refused e → ∀ more,
    s.calls (c :: more) = (.refused e :: (s.calls more).1, (s.calls more).2)

end Scope

/-! ### What stands in a record -/

section Standing

variable (events : List ScopeEvent)

@[simp] theorem standing_defined (v : Variable) :
    standing (events ++ [.defined v]) = standing events ++ [v] := by
  simp [standing, ScopeEvent.variable?]

@[simp] theorem standing_refused (e : CompileError) :
    standing (events ++ [.refused e]) = standing events := by
  simp [standing, ScopeEvent.variable?]

@[simp] theorem standing_cleared : standing (events ++ [.cleared]) = [] := by
  simp [standing]

end Standing

namespace Scope

variable {s : Scope} {held : List Variable}

theorem calls_append_singleton (s : Scope) (cs : List ScopeCall) (c : ScopeCall) :
    s.calls (cs ++ [c]) =
      ((s.calls cs).1 ++ [((s.calls cs).2.call c).1], ((s.calls cs).2.call c).2) := by
  induction cs generalizing s with
  | nil => rfl
  | cons c' cs ih => simp [calls, ih]

/-! ### One call -/

/-- A refused call changes nothing. -/
theorem call_refused {c : ScopeCall} {e : CompileError} (h : (s.call c).1 = .refused e) :
    s.call c = (.refused e, s) := by
  cases c with
  | define name type storage =>
    rw [call] at h ⊢
    split at h
    · cases h
    · exact Prod.ext h rfl
  | clear => cases h

/-- The names of the scope are distinct, and its indices in order. -/
structure Numbered (s : Scope) : Prop where
  /-- No two variables share a name. -/
  nodup : (s.toList.map (·.name)).Nodup
  /-- Each has the number of earlier ones of its storage class as its index. -/
  index_eq : ∀ before v after, s.toList = before ++ v :: after →
    v.index = before.countP (·.storage == v.storage)
  /-- No index is larger than an operand. -/
  count_le : ∀ storage, s.count storage ≤ maxIndex + 1

theorem numbered_empty : empty.Numbered where
  nodup := List.nodup_nil
  index_eq before v after h := by simp at h
  count_le storage := by simp [count, empty]

/-- One more variable under a new name keeps it. -/
theorem Numbered.push (h : s.Numbered) {v : Variable} (hname : s.contains v.name = false)
    (hindex : v.index = s.count v.storage) (hle : s.count v.storage ≤ maxIndex) :
    (s.push v).Numbered where
  nodup := by
    rw [toList_push, List.map_append, List.map_singleton, List.nodup_append_comm,
      List.singleton_append, List.nodup_cons]
    exact ⟨contains_eq_false_iff.1 hname, h.nodup⟩
  index_eq before u after hcut := by
    rw [toList_push] at hcut
    -- The variable is the new one or one of the others, as there is nothing behind it or not.
    rcases List.eq_nil_or_concat after with rfl | ⟨after, w, rfl⟩
    · obtain ⟨rfl, hu⟩ := List.append_inj' hcut rfl
      obtain rfl := List.singleton_inj.1 hu
      rw [hindex, count_eq_countP_toList]
    · rw [List.concat_eq_append, ← List.cons_append, ← List.append_assoc] at hcut
      exact h.index_eq before u after (List.append_inj' hcut rfl).1
  count_le storage := by
    have hbefore := h.count_le storage
    rw [count_eq_countP_toList] at hbefore hle ⊢
    rw [toList_push, List.countP_append, List.countP_singleton]
    split
    · next heq =>
      rw [beq_iff_eq] at heq
      subst heq
      omega
    · exact hbefore

theorem Numbered.call (h : s.Numbered) (c : ScopeCall) : (s.call c).2.Numbered := by
  cases c with
  | define name type storage =>
    rw [Scope.call]
    split
    · next v s' hdeclare =>
      obtain ⟨hname, hle, rfl, rfl⟩ := declare_eq_ok_iff.1 hdeclare
      exact h.push hname rfl hle
    · exact h
  | clear => exact numbered_empty

theorem toList_call (c : ScopeCall) {events : List ScopeEvent} (h : s.toList = standing events) :
    (s.call c).2.toList = standing (events ++ [(s.call c).1]) := by
  cases c with
  | define name type storage =>
    rw [call]
    split
    · next v s' hdeclare =>
      obtain ⟨-, -, -, rfl⟩ := declare_eq_ok_iff.1 hdeclare
      rw [toList_push, standing_defined, h]
    · rw [standing_refused, h]
  | clear => rw [call, standing_cleared, toList_empty]

/-! ### Calls in a row -/

/-- A scope with distinct names and indices in order answers for what it lists. -/
theorem Numbered.records (h : s.Numbered) : s.Records s.toList := by
  have hcontains (name : String) : s.contains name = true ↔ ∃ v ∈ s.toList, v.name = name := by
    rw [← Bool.not_eq_false, contains_eq_false_iff, not_not, List.mem_map]
  have hnew {name : String} (hname : ∀ v ∈ s.toList, v.name ≠ name) : s.contains name = false := by
    rw [contains_eq_false_iff, List.mem_map]
    rintro ⟨v, hv, heq⟩
    exact hname v hv heq
  exact {
    toList_eq := rfl
    size_eq := by rw [size, toList, List.length_reverse]
    nodup := h.nodup
    index_eq := h.index_eq
    count_eq := count_eq_countP_toList
    count_le := h.count_le
    lookup?_eq_some_iff := fun name v => by
      rw [lookup?_eq_find?_toList h.nodup, find?_name_eq_some_iff h.nodup]
    contains_iff := hcontains
    define_present := fun name type storage hname => by
      rw [Scope.call, declare, if_pos ((hcontains name.text).2 hname)]
    define_exhausted := fun name type storage hname hcount => by
      rw [← count_eq_countP_toList] at hcount
      rw [Scope.call, declare, hnew hname, hcount]
      rfl
    define_new := fun name type storage hname hcount => by
      rw [← count_eq_countP_toList] at hcount ⊢
      have hdeclare : s.declare name type storage = .ok (_, _) :=
        declare_eq_ok_iff.2 ⟨hnew hname, Nat.le_of_lt_succ hcount, rfl, rfl⟩
      rw [Scope.call, hdeclare]
    calls_refused := fun c e he more => by
      rw [calls, call_refused he] }

theorem numbered_calls (cs : List ScopeCall) :
    (empty.calls cs).2.Numbered ∧ (empty.calls cs).2.toList = standing (empty.calls cs).1 := by
  induction cs using List.reverseRecOn with
  | nil => exact ⟨numbered_empty, rfl⟩
  | append_singleton cs c ih =>
    rw [calls_append_singleton]
    exact ⟨ih.1.call c, toList_call c ih.2⟩

/-- **After any calls a scope holds what stands in the record of them.** -/
theorem records_calls (cs : List ScopeCall) :
    (empty.calls cs).2.Records (standing (empty.calls cs).1) := by
  obtain ⟨hnumbered, hstanding⟩ := numbered_calls cs
  exact hstanding ▸ hnumbered.records

example : (empty.calls [.define ⟨"x", .empty 0⟩ .int .field, .define ⟨"x", .empty 2⟩ .int .static,
      .clear, .define ⟨"x", .empty 4⟩ .char .static]).1 =
    [.defined ⟨"x", .int, .field, 0⟩, .refused (.duplicate "x" (.empty 2)), .cleared,
      .defined ⟨"x", .char, .static, 0⟩] := by decide

end Scope

end Jack

import Jack.Error
import Jack.Name
import Std.Data.TreeMap.Basic
import Std.Data.TreeMap.Lemmas

/-!
# Scopes

A `Scope` is a list of variables in the order of their declaration.  No name is declared twice, and
the variables of each storage class are numbered from zero in that order, up to `maxIndex`.  An
index by name and a tally by storage class make `Scope.lookup?` and `Scope.count` fast; that they
agree with the list is part of the type (`lookup?_eq`, `count_eq`).

`Scopes` joins the scope of the class with that of the subroutine at hand.  A name means the
variable of the subroutine, else that of the class, else what its first letter suggests.
-/

namespace Jack

/-- The largest index that a VM operand can hold. -/
def maxIndex : Nat := 32767

/-! ### Counting by storage class -/

/-- The number of variables of each storage class. -/
structure Tally where
  static : Nat
  field : Nat
  argument : Nat
  localVar : Nat
deriving DecidableEq, Repr

namespace Tally

/-- The tally of no variables. -/
def zero : Tally := ⟨0, 0, 0, 0⟩

/-- The number of variables of one storage class. -/
def get (t : Tally) : Storage → Nat
  | .static => t.static
  | .field => t.field
  | .argument => t.argument
  | .localVar => t.localVar

/-- The tally after one more variable. -/
def bump (t : Tally) : Storage → Tally
  | .static => { t with static := t.static + 1 }
  | .field => { t with field := t.field + 1 }
  | .argument => { t with argument := t.argument + 1 }
  | .localVar => { t with localVar := t.localVar + 1 }

@[simp] theorem get_zero (s : Storage) : zero.get s = 0 := by cases s <;> rfl

theorem get_bump (t : Tally) (s s' : Storage) :
    (t.bump s).get s' = t.get s' + if s = s' then 1 else 0 := by
  cases s <;> cases s' <;> simp [bump, get]

end Tally

/-! ### One scope -/

/-- The variables of one scope. -/
structure Scope where
  /-- The variables, the one declared last coming first. -/
  newestFirst : List Variable
  /-- The variables by name. -/
  byName : Std.TreeMap String Variable
  /-- The number of variables of each storage class. -/
  tally : Tally
  /-- The index by name finds what a search of the list finds. -/
  byName_eq : ∀ name : String, byName[name]? = newestFirst.find? (·.name == name)
  /-- The tally counts the list. -/
  tally_eq : ∀ s, tally.get s = newestFirst.countP (·.storage == s)

namespace Scope

/-- The scope without variables. -/
def empty : Scope where
  newestFirst := []
  byName := ∅
  tally := .zero
  byName_eq := by simp
  tally_eq := by simp

/-- The variables in the order of their declaration. -/
def toList (s : Scope) : List Variable := s.newestFirst.reverse

/-- The number of variables. -/
def size (s : Scope) : Nat := s.newestFirst.length

/-- The scope holds no variable. -/
def isEmpty (s : Scope) : Bool := s.newestFirst.isEmpty

/-- The variable of a name. -/
def lookup? (s : Scope) (name : String) : Option Variable := s.byName[name]?

/-- The name is declared. -/
def contains (s : Scope) (name : String) : Bool := (s.lookup? name).isSome

/-- The number of variables of a storage class. -/
def count (s : Scope) (storage : Storage) : Nat := s.tally.get storage

theorem lookup?_eq (s : Scope) (name : String) :
    s.lookup? name = s.newestFirst.find? (·.name == name) :=
  s.byName_eq name

theorem count_eq (s : Scope) (storage : Storage) :
    s.count storage = s.newestFirst.countP (·.storage == storage) :=
  s.tally_eq storage

/-- The scope with one more variable. -/
def push (s : Scope) (v : Variable) : Scope where
  newestFirst := v :: s.newestFirst
  byName := s.byName.insert v.name v
  tally := s.tally.bump v.storage
  byName_eq name := by
    rw [Std.TreeMap.getElem?_insert, List.find?_cons, s.byName_eq]
    by_cases h : v.name = name
    · simp [h]
    · rw [if_neg (by simpa using h), beq_false_of_ne h]
  tally_eq storage := by
    rw [Tally.get_bump, s.tally_eq, List.countP_cons]
    simp

/-- Declares a variable with the next free index of its storage class.  A name that the scope holds
already is refused first, then a variable for which no index is left. -/
def declare (s : Scope) (name : Ident) (type : TypeName) (storage : Storage) :
    Except CompileError (Variable × Scope) :=
  if s.contains name.text then
    .error (.duplicate name.text name.span)
  else
    let index := s.count storage
    if maxIndex < index then
      .error (.lowering (.indexSpaceExhausted storage name.text maxIndex) (some name.span))
    else
      let v : Variable := ⟨name.text, type, storage, index⟩
      .ok (v, s.push v)

theorem declare_eq_ok_iff {s s' : Scope} {name : Ident} {type : TypeName} {storage : Storage}
    {v : Variable} :
    s.declare name type storage = .ok (v, s') ↔
      s.contains name.text = false ∧ s.count storage ≤ maxIndex ∧
        v = ⟨name.text, type, storage, s.count storage⟩ ∧ s' = s.push v := by
  unfold declare
  by_cases h : s.contains name.text = true
  · simp [h]
  · by_cases h' : maxIndex < s.count storage
    · simp [h, h', Nat.not_le.2 h']
    · simp only [h, h', Nat.le_of_not_lt h']
      exact ⟨by rintro ⟨⟩; simp, by rintro ⟨-, -, rfl, rfl⟩; rfl⟩

@[simp] theorem toList_empty : empty.toList = [] := rfl

@[simp] theorem toList_push (s : Scope) (v : Variable) :
    (s.push v).toList = s.toList ++ [v] :=
  List.reverse_cons

end Scope

/-! ### The scopes in force -/

/-- The scope of the class and that of the subroutine at hand. -/
structure Scopes where
  /-- Static variables and fields. -/
  ofClass : Scope
  /-- Arguments and local variables. -/
  ofSubroutine : Scope

namespace Scopes

/-- Both scopes without variables. -/
def empty : Scopes := ⟨.empty, .empty⟩

/-- The scopes at the start of a subroutine, and after the end of one. -/
def clearSubroutine (s : Scopes) : Scopes := ⟨s.ofClass, .empty⟩

/-- Declares a variable in the scope that its storage class belongs to. -/
def declare (s : Scopes) (name : Ident) (type : TypeName) (storage : Storage) :
    Except CompileError (Variable × Scopes) :=
  match storage.level with
  | .classLevel => do
    let (v, scope) ← s.ofClass.declare name type storage
    pure (v, ⟨scope, s.ofSubroutine⟩)
  | .subroutineLevel => do
    let (v, scope) ← s.ofSubroutine.declare name type storage
    pure (v, ⟨s.ofClass, scope⟩)

/-- The variable of a name: that of the subroutine before that of the class. -/
def lookup? (s : Scopes) (name : String) : Option Variable :=
  s.ofSubroutine.lookup? name <|> s.ofClass.lookup? name

/-- What a name means. -/
def resolve (s : Scopes) (name : String) : Meaning :=
  match s.lookup? name with
  | some v => .declared v
  | none => .ofUndeclared name

end Scopes

end Jack

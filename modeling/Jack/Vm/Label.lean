import Jack.Text.Decimal

/-!
# Labels

The labels of a unit are drawn from a `LabelSupply`, which numbers the labels of each kind from
zero.  No two labels of a unit are equal, since a label tells its kind and its number
(`labelName_inj`).
-/

namespace Jack

/-- The kinds of labels. -/
inductive LabelKind where
  | ifFalse | ifEnd | whileStart | whileEnd
deriving DecidableEq, Repr

/-- The part of a label in front of its number. -/
def LabelKind.stem : LabelKind → String
  | ifFalse => "IF_FALSE"
  | ifEnd => "IF_END"
  | whileStart => "WHILE_START"
  | whileEnd => "WHILE_END"

/-- The label of a kind with a number. -/
def labelName (kind : LabelKind) (number : Nat) : String := kind.stem ++ toString number

/-- A label tells its kind and its number. -/
theorem labelName_inj {kind kind' : LabelKind} {n n' : Nat} :
    labelName kind n = labelName kind' n' ↔ kind = kind' ∧ n = n' := by
  refine ⟨fun h => ?_, fun ⟨hk, hn⟩ => hk ▸ hn ▸ rfl⟩
  have h := congrArg String.toList h
  simp only [labelName, LabelKind.stem, String.toList_append] at h
  cases kind <;> cases kind' <;> simp at h ⊢
  all_goals exact toDigits_inj h

/-- The number of labels of each kind that have been drawn.  The counters are not cut to a word:
each is at most the number of conditional statements or of loops of the unit, so 32 bits hold it as
long as there are fewer than 2 ^ 32 of these (`drawnThrough_lt_of_mem_sites`). -/
structure LabelSupply where
  ifFalse : Nat
  ifEnd : Nat
  whileStart : Nat
  whileEnd : Nat
deriving DecidableEq, Repr

namespace LabelSupply

/-- No label has been drawn. -/
def new : LabelSupply := ⟨0, 0, 0, 0⟩

/-- The number of labels of one kind that have been drawn. -/
def drawn (s : LabelSupply) : LabelKind → Nat
  | .ifFalse => s.ifFalse
  | .ifEnd => s.ifEnd
  | .whileStart => s.whileStart
  | .whileEnd => s.whileEnd

/-- The supply after one more label of a kind. -/
def bump (s : LabelSupply) : LabelKind → LabelSupply
  | .ifFalse => { s with ifFalse := s.ifFalse + 1 }
  | .ifEnd => { s with ifEnd := s.ifEnd + 1 }
  | .whileStart => { s with whileStart := s.whileStart + 1 }
  | .whileEnd => { s with whileEnd := s.whileEnd + 1 }

/-- Draws a label of a kind. -/
def draw (s : LabelSupply) (kind : LabelKind) : String × LabelSupply :=
  (labelName kind (s.drawn kind), s.bump kind)

@[simp] theorem drawn_new (kind : LabelKind) : new.drawn kind = 0 := by cases kind <;> rfl

theorem drawn_bump (s : LabelSupply) (kind kind' : LabelKind) :
    (s.bump kind).drawn kind' = s.drawn kind' + if kind = kind' then 1 else 0 := by
  cases kind <;> cases kind' <;> simp [bump, drawn]

end LabelSupply

end Jack

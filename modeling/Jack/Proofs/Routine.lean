import Jack.Proofs.NameUses
import Mathlib.Data.List.Forall2
import Mathlib.Data.List.SplitBy

/-!
# Routines

Nothing in the code of a unit brackets its subroutines: a subroutine reaches from its `function`
instruction to the next one.  `routines` cuts code in front of each `function`, and
`routines_of_lower` says that the pieces are the subroutines of the class in order, each with its
header and the code of its statements.
-/

namespace Jack

/-- The instruction starts a subroutine. -/
def Instruction.isFunction : Instruction → Bool
  | .function .. => true
  | _ => false

/-- The pieces of code that begin at a `function` and end in front of the next one. -/
def routines (code : List Instruction) : List (List Instruction) :=
  code.splitBy fun _ next => !next.isFunction

/-- Statements make no code that starts a subroutine. -/
theorem OfStatements.isFunction {names targets : List NameUse} {i : Instruction}
    (h : OfStatements names targets i) : i.isFunction = false := by
  cases h with
  | expression h => cases h <;> rfl
  | _ => rfl

section Routines

variable {ctx : CodeContext} {fields : Nat}

theorem isFunction_of_mem_prologue {kind : SubroutineKind} {i : Instruction}
    (hi : i ∈ kind.prologue fields) : i.isFunction = false := by
  cases kind with
  | constructor =>
    simp only [SubroutineKind.prologue, List.mem_cons, List.not_mem_nil, or_false] at hi
    rcases hi with rfl | rfl | rfl <;> rfl
  | function => simp [SubroutineKind.prologue] at hi
  | method =>
    simp only [SubroutineKind.prologue, List.mem_cons, List.not_mem_nil, or_false] at hi
    rcases hi with rfl | rfl <;> rfl

/-- The code of a subroutine, from its header to its last statement. -/
def SubroutineDec.listing (ctx : CodeContext) (fields : Nat) (labels : LabelSupply)
    (s : SubroutineDec) : List Instruction :=
  s.header ctx.className fields ++ statementsListing ctx labels s.statements

theorem SubroutineDec.listing_eq_cons (s : SubroutineDec) (labels : LabelSupply) :
    s.listing ctx fields labels =
      .function (qualified ctx.className s.name.text) s.localCount ::
        (s.kind.prologue fields ++ statementsListing ctx labels s.statements) := rfl

theorem routines_listing (s : SubroutineDec) (labels : LabelSupply) :
    routines (s.listing ctx fields labels) = [s.listing ctx fields labels] := by
  have hbody : ∀ i ∈ s.kind.prologue fields ++ statementsListing ctx labels s.statements,
      (!i.isFunction) = true := by
    intro i hi
    rcases List.mem_append.1 hi with hi | hi
    · simp [isFunction_of_mem_prologue hi]
    · simp [(ofStatements_of_mem_statementsListing ctx _ _ i hi).isFunction]
  rw [SubroutineDec.listing_eq_cons]
  -- No instruction behind the first one is a `function`, so nothing is cut.
  refine List.splitBy_of_isChain (List.cons_ne_nil _ _) (List.Pairwise.isChain ?_)
  exact List.pairwise_cons.2
    ⟨hbody, List.pairwise_of_forall_mem_list fun _ _ next hnext => hbody next hnext⟩

/-- The code of subroutines begins with a `function`, if there is any. -/
theorem isFunction_of_mem_head? {labels : LabelSupply} {subs : List SubroutineDec}
    {i : Instruction} (hi : i ∈ (subroutinesListing ctx fields labels subs).head?) :
    i.isFunction = true := by
  cases subs with
  | nil => simp [subroutinesListing] at hi
  | cons s ss =>
    simp only [subroutinesListing, SubroutineDec.header, List.cons_append, List.head?_cons,
      Option.mem_some_iff] at hi
    exact hi ▸ rfl

/-- The routines of a unit are the codes of its subroutines in order. -/
theorem forall₂_routines (subs : List SubroutineDec) (labels : LabelSupply) :
    List.Forall₂ (fun routine s => ∃ labels, routine = s.listing ctx fields labels)
      (routines (subroutinesListing ctx fields labels subs)) subs := by
  induction subs generalizing labels with
  | nil => exact .nil
  | cons s ss ih =>
    -- The code that follows the first subroutine begins with a `function`, so it is cut off there.
    let rest := subroutinesListing ctx fields (statementsLabelsAfter s.statements labels) ss
    have hsplit : routines (subroutinesListing ctx fields labels (s :: ss)) =
        routines (s.listing ctx fields labels) ++ routines rest := by
      rw [subroutinesListing, ← List.append_assoc]
      exact List.splitBy_append fun _ _ i hi => by simp [isFunction_of_mem_head? hi]
    rw [hsplit, routines_listing]
    exact .cons ⟨labels, rfl⟩ (ih _)

end Routines

/-- **The routines of the code of a class are its subroutines in order.** -/
theorem routines_of_lower {tree : ClassDec} {scope : Scope} {source : String} {options : Options}
    {code : Code} (h : lower tree scope source options = .ok code) :
    List.Forall₂ (fun routine s => ∃ labels,
        routine = s.listing ⟨tree.name.text, options, source⟩ (scope.count .field) labels)
      (routines code.toList) tree.subroutines := by
  rw [(lower_eq_ok_iff.1 h).2]
  exact forall₂_routines _ _

theorem exists_listing_of_mem_routines {tree : ClassDec} {scope : Scope} {source : String}
    {options : Options} {code : Code} (h : lower tree scope source options = .ok code)
    {routine : List Instruction} (hroutine : routine ∈ routines code.toList) :
    ∃ s ∈ tree.subroutines, ∃ labels,
      routine = s.listing ⟨tree.name.text, options, source⟩ (scope.count .field) labels := by
  have hall := routines_of_lower h
  obtain ⟨n, rfl⟩ := List.get_of_mem hroutine
  exact ⟨_, List.get_mem _ ⟨n, hall.length_eq ▸ n.2⟩, hall.get n.2 _⟩

end Jack

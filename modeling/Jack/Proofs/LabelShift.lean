import Jack.Proofs.Labels
import Jack.Proofs.VmLines

/-!
# Code from other labels

The labels that are left when a piece of code is made show in the code as the numbers of its labels,
and nowhere else.  To draw further labels before (`LabelSupply.raise`) raises the numbers of the
labels in the code by so many (`Instruction.raise`), each kind by its own, and leaves every other
instruction alone.

* `raiseLabel_labelName` : what raising does to a label;
* `statementsListing_raise` : the code of statements, if labels were drawn before;
* `subroutinesListing_eq` : **the code of subroutines is that of each of them alone, raised by the
  labels that the earlier ones draw.**
-/

namespace Jack

/-! ### Raising labels -/

namespace LabelKind

/-- All kinds of labels. -/
def all : List LabelKind := [ifFalse, ifEnd, whileStart, whileEnd]

/-- The number of a label of the kind. -/
def number? (kind : LabelKind) (name : String) : Option Nat :=
  if kind.stem.toList <+: name.toList then
    numeral? (String.ofList (name.toList.drop kind.stem.length))
  else none

/-- The stems of two kinds differ before either of them ends. -/
theorem eq_of_stem_isPrefix {kind kind' : LabelKind} {cs : List Char}
    (h : kind.stem.toList <+: kind'.stem.toList ++ cs) : kind = kind' := by
  cases kind <;> cases kind' <;> simp [stem] at h ⊢

theorem number?_labelName (kind kind' : LabelKind) (n : Nat) :
    kind.number? (labelName kind' n) = if kind = kind' then some n else none := by
  rw [number?, labelName, String.toList_append]
  by_cases h : kind = kind'
  · subst h
    have hlength : kind.stem.length = kind.stem.toList.length := String.length_toList.symm
    rw [if_pos (List.prefix_append _ _), if_pos rfl, hlength, List.drop_left, String.ofList_toList]
    exact numeral?_repr n
  · rw [if_neg fun hprefix => h (eq_of_stem_isPrefix hprefix), if_neg h]

end LabelKind

/-- The label with its number raised by what `d` says of its kind.  What is no label is left
alone. -/
def raiseLabel (d : LabelKind → Nat) (name : String) : String :=
  (LabelKind.all.findSome? fun kind =>
    (kind.number? name).map fun n => labelName kind (n + d kind)).getD name

/-- The instruction with the number of the label that it names raised, if it names one. -/
def Instruction.raise (d : LabelKind → Nat) : Instruction → Instruction
  | .label name => .label (raiseLabel d name)
  | .goto name => .goto (raiseLabel d name)
  | .ifGoto name => .ifGoto (raiseLabel d name)
  | i => i

/-- The supply after so many more labels of each kind. -/
@[simps]
def LabelSupply.raise (d : LabelKind → Nat) (s : LabelSupply) : LabelSupply :=
  ⟨s.ifFalse + d .ifFalse, s.ifEnd + d .ifEnd, s.whileStart + d .whileStart,
    s.whileEnd + d .whileEnd⟩

section Raise

variable (d : LabelKind → Nat)

/-- **A label is raised by what is said of its kind.** -/
@[simp] theorem raiseLabel_labelName (kind : LabelKind) (n : Nat) :
    raiseLabel d (labelName kind n) = labelName kind (n + d kind) := by
  cases kind <;>
    simp [raiseLabel, LabelKind.all, LabelKind.number?_labelName]

/-- Two raises are one. -/
example : raiseLabel (fun _ => 2) (raiseLabel (fun _ => 3) "IF_END17") = "IF_END22" := by decide

theorem Instruction.raise_of_named? {i : Instruction} (h : i.named? = none) : i.raise d = i := by
  cases i with
  | label name => cases h
  | goto name => cases h
  | ifGoto name => cases h
  | _ => rfl

theorem Unlabelled.map_raise {l : List Instruction} (h : Unlabelled l) :
    l.map (Instruction.raise d) = l :=
  (List.map_congr_left fun i hi => Instruction.raise_of_named? d (h i hi)).trans (List.map_id l)

end Raise

/-! ### Raised supplies -/

namespace LabelSupply

variable (d : LabelKind → Nat)

@[simp] theorem drawn_raise (s : LabelSupply) (kind : LabelKind) :
    (s.raise d).drawn kind = s.drawn kind + d kind := by
  cases kind <;> rfl

/-- A supply is known by the labels that were drawn. -/
theorem eq_of_drawn {s s' : LabelSupply} (h : ∀ kind, s.drawn kind = s'.drawn kind) : s = s' := by
  obtain ⟨ifFalse, ifEnd, whileStart, whileEnd⟩ := s
  obtain ⟨ifFalse', ifEnd', whileStart', whileEnd'⟩ := s'
  have hifFalse : ifFalse = ifFalse' := h .ifFalse
  have hifEnd : ifEnd = ifEnd' := h .ifEnd
  have hwhileStart : whileStart = whileStart' := h .whileStart
  have hwhileEnd : whileEnd = whileEnd' := h .whileEnd
  rw [hifFalse, hifEnd, hwhileStart, hwhileEnd]

@[simp] theorem bump_raise (s : LabelSupply) (kind : LabelKind) :
    (s.raise d).bump kind = (s.bump kind).raise d := by
  refine eq_of_drawn fun kind' => ?_
  rw [drawn_bump, drawn_raise, drawn_raise, drawn_bump]
  omega

@[simp] theorem raise_zero (s : LabelSupply) : s.raise (fun _ => 0) = s := rfl

end LabelSupply

@[simp] theorem Statement.labelsAfter_raise (d : LabelKind → Nat) (s : Statement)
    (labels : LabelSupply) : s.labelsAfter (labels.raise d) = (s.labelsAfter labels).raise d := by
  refine LabelSupply.eq_of_drawn fun kind => ?_
  rw [s.drawn_labelsAfter, LabelSupply.drawn_raise, LabelSupply.drawn_raise, s.drawn_labelsAfter]
  omega

@[simp] theorem statementsLabelsAfter_raise (d : LabelKind → Nat) (ss : List Statement)
    (labels : LabelSupply) :
    statementsLabelsAfter ss (labels.raise d) = (statementsLabelsAfter ss labels).raise d := by
  refine LabelSupply.eq_of_drawn fun kind => ?_
  rw [drawn_statementsLabelsAfter, LabelSupply.drawn_raise, LabelSupply.drawn_raise,
    drawn_statementsLabelsAfter]
  omega

/-! ### Raised code -/

section Listings

variable (ctx : CodeContext) (d : LabelKind → Nat)

@[simp] theorem Expr.map_raise_listing (e : Expr) :
    (e.listing ctx).map (Instruction.raise d) = e.listing ctx :=
  (e.unlabelled ctx).map_raise d

@[simp] theorem Statement.map_raise_comment (s : Statement) :
    (s.comment ctx).map (Instruction.raise d) = s.comment ctx :=
  (s.unlabelled_comment ctx).map_raise d

mutual

theorem Statement.listing_raise : ∀ (s : Statement) (labels : LabelSupply),
    s.listing ctx (labels.raise d) = (s.listing ctx labels).map (Instruction.raise d)
  | .assign target index value _, labels => by
    rw [Statement.listing_assign, Statement.listing_assign]
    exact ((unlabelled_assignListing ctx target index value).map_raise d).symm
  | .ifThen condition body _, labels => by
    rw [Statement.listing_ifThen, Statement.listing_ifThen]
    simp [statementsListing_raise body, Instruction.raise]
  | .ifElse condition thenBody elseBody _, labels => by
    rw [Statement.listing_ifElse, Statement.listing_ifElse]
    simp [statementsListing_raise thenBody, statementsListing_raise elseBody, Instruction.raise]
  | .whileLoop condition body _, labels => by
    rw [Statement.listing_whileLoop, Statement.listing_whileLoop]
    simp [statementsListing_raise body, Instruction.raise]
  | .doCall call _, labels => by
    have hcall : Unlabelled (call.listing ctx ++ [.pop .temp 0]) :=
      (call.unlabelled ctx).append (List.forall_mem_singleton.2 rfl)
    rw [Statement.listing_doCall, Statement.listing_doCall]
    exact (hcall.map_raise d).symm
  | .ret value _, labels => by
    rw [Statement.listing_ret, Statement.listing_ret]
    exact ((unlabelled_returnListing ctx value).map_raise d).symm

/-- To draw labels before raises the code of statements. -/
theorem statementsListing_raise : ∀ (ss : List Statement) (labels : LabelSupply),
    statementsListing ctx (labels.raise d) ss =
      (statementsListing ctx labels ss).map (Instruction.raise d)
  | [], _ => by simp
  | s :: ss, labels => by
    simp [s.listing_raise labels, statementsListing_raise ss]

end

theorem SubroutineDec.listing_raise (fields : Nat) (labels : LabelSupply) (s : SubroutineDec) :
    s.listing ctx fields (labels.raise d) =
      (s.listing ctx fields labels).map (Instruction.raise d) := by
  rw [SubroutineDec.listing, SubroutineDec.listing, statementsListing_raise, List.map_append,
    (s.unlabelled_header ctx fields).map_raise]

end Listings

/-! ### Subroutines one by one -/

/-- The number of labels of a kind that subroutines draw. -/
def drawnBy (subs : List SubroutineDec) (kind : LabelKind) : Nat :=
  (subs.flatMap fun s => statementsPreorder s.statements).countP kind.isDrawnBy

theorem drawnBy_cons (s : SubroutineDec) (subs : List SubroutineDec) (kind : LabelKind) :
    drawnBy (s :: subs) kind =
      (statementsPreorder s.statements).countP kind.isDrawnBy + drawnBy subs kind := by
  rw [drawnBy, List.flatMap_cons, List.countP_append, drawnBy]

/-- The labels that are left after statements are raised by those that the statements draw. -/
theorem statementsLabelsAfter_eq_raise (ss : List Statement) (labels : LabelSupply) :
    statementsLabelsAfter ss labels =
      labels.raise fun kind => (statementsPreorder ss).countP kind.isDrawnBy := by
  refine LabelSupply.eq_of_drawn fun kind => ?_
  rw [drawn_statementsLabelsAfter, LabelSupply.drawn_raise]

theorem LabelSupply.raise_raise (d d' : LabelKind → Nat) (s : LabelSupply) :
    (s.raise d).raise d' = s.raise fun kind => d kind + d' kind := by
  refine eq_of_drawn fun kind => ?_
  simp only [drawn_raise]
  omega

/-- The code of subroutines is that of each of them, with the labels that the earlier ones leave. -/
theorem subroutinesListing_raise (ctx : CodeContext) (fields : Nat) (labels : LabelSupply)
    (d : LabelKind → Nat) (subs : List SubroutineDec) :
    subroutinesListing ctx fields (labels.raise d) subs = (subs.mapIdx fun i s =>
      s.listing ctx fields (labels.raise fun kind => d kind + drawnBy (subs.take i) kind)).flatten := by
  induction subs generalizing d with
  | nil => rfl
  | cons s subs ih =>
    have hlater (i : Nat) : (fun kind => (statementsPreorder s.statements).countP kind.isDrawnBy +
        d kind + drawnBy (subs.take i) kind) =
          fun kind => d kind + drawnBy ((s :: subs).take (i + 1)) kind := by
      funext kind
      rw [List.take_succ_cons, drawnBy_cons]
      omega
    rw [subroutinesListing, statementsLabelsAfter_raise, statementsLabelsAfter_eq_raise,
      LabelSupply.raise_raise, ih, List.mapIdx_cons, List.flatten_cons, SubroutineDec.listing,
      List.append_assoc]
    simp only [hlater]
    rfl

/-- **The code of subroutines is that of each of them alone, raised by the labels that the earlier
ones draw.** -/
theorem subroutinesListing_eq (ctx : CodeContext) (fields : Nat) (subs : List SubroutineDec) :
    subroutinesListing ctx fields .new subs = (subs.mapIdx fun i s =>
      (s.listing ctx fields .new).map (Instruction.raise (drawnBy (subs.take i)))).flatten := by
  have hraise := subroutinesListing_raise ctx fields .new (fun _ => 0) subs
  simp only [Nat.zero_add, SubroutineDec.listing_raise, LabelSupply.raise_zero] at hraise
  exact hraise

end Jack

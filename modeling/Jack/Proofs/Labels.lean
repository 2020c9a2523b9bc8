import Jack.Proofs.Routine
import Jack.Proofs.Site
import Mathlib.Algebra.Group.Nat.Defs
import Mathlib.Data.List.Nodup

/-!
# Labels of a unit

A conditional statement and a loop jump to labels of their own, and these carry the number of the
statement among the statements of its sort, counted over the whole unit in the order of the source.

* `LabelSupply.Between` and `Labelled` : the labels of a piece of code are those that were drawn
  while it was made, each is defined once, and every jump of the piece stays in it;
* `numbers_statementsSites` : the labels that are left at the sites of statements of one sort count
  up by one;
* `drawnThrough_lt_of_mem_sites` : 32 bits are enough for the counters, unless a class has 2 ^ 32
  statements of one sort;
* `labels_of_lower` : in the code of a class no label is defined twice, every jump has its label in
  its own subroutine, and the statements of a sort name the labels with their own number.
-/

namespace Jack

/-! ### Labels of instructions -/

/-- The label that an instruction defines. -/
def Instruction.defined? : Instruction → Option String
  | .label name => some name
  | _ => none

/-- The label that an instruction may jump to. -/
def Instruction.target? : Instruction → Option String
  | .goto name | .ifGoto name => some name
  | _ => none

/-- The label that an instruction names. -/
def Instruction.named? : Instruction → Option String
  | .label name | .goto name | .ifGoto name => some name
  | _ => none

/-- The labels that code defines. -/
def definedLabels (code : List Instruction) : List String := code.filterMap Instruction.defined?

/-- The labels that code may jump to. -/
def targetLabels (code : List Instruction) : List String := code.filterMap Instruction.target?

@[simp] theorem definedLabels_nil : definedLabels [] = [] := rfl

@[simp] theorem targetLabels_nil : targetLabels [] = [] := rfl

@[simp] theorem definedLabels_cons (i : Instruction) (l : List Instruction) :
    definedLabels (i :: l) = i.defined?.toList ++ definedLabels l := by
  cases h : i.defined? <;> simp [definedLabels, h]

@[simp] theorem targetLabels_cons (i : Instruction) (l : List Instruction) :
    targetLabels (i :: l) = i.target?.toList ++ targetLabels l := by
  cases h : i.target? <;> simp [targetLabels, h]

@[simp] theorem definedLabels_append (l l' : List Instruction) :
    definedLabels (l ++ l') = definedLabels l ++ definedLabels l' := List.filterMap_append

@[simp] theorem targetLabels_append (l l' : List Instruction) :
    targetLabels (l ++ l') = targetLabels l ++ targetLabels l' := List.filterMap_append

theorem Instruction.defined?_of_named? {i : Instruction} (h : i.named? = none) :
    i.defined? = none := by
  cases i <;> simp_all [named?, defined?]

theorem Instruction.target?_of_named? {i : Instruction} (h : i.named? = none) :
    i.target? = none := by
  cases i <;> simp_all [named?, target?]

/-- The code names no label. -/
def Unlabelled (l : List Instruction) : Prop := ∀ i ∈ l, i.named? = none

namespace Unlabelled

variable {l l' : List Instruction}

theorem definedLabels_eq (h : Unlabelled l) : definedLabels l = [] :=
  List.filterMap_eq_nil_iff.2 fun i hi => Instruction.defined?_of_named? (h i hi)

theorem targetLabels_eq (h : Unlabelled l) : targetLabels l = [] :=
  List.filterMap_eq_nil_iff.2 fun i hi => Instruction.target?_of_named? (h i hi)

theorem append (h : Unlabelled l) (h' : Unlabelled l') : Unlabelled (l ++ l') :=
  List.forall_mem_append.2 ⟨h, h'⟩

end Unlabelled

theorem OfExpression.named?_eq {names : List NameUse} {i : Instruction}
    (h : OfExpression names i) : i.named? = none := by
  cases h <;> rfl

section Unlabelled

variable (ctx : CodeContext)

theorem Expr.unlabelled (e : Expr) : Unlabelled (e.listing ctx) := fun i hi =>
  (e.ofExpression_of_mem_listing ctx i hi).named?_eq

theorem Call.unlabelled (c : Call) : Unlabelled (c.listing ctx) := fun i hi =>
  (c.ofExpression_of_mem_listing ctx i hi).named?_eq

theorem Statement.unlabelled_comment (s : Statement) : Unlabelled (s.comment ctx) := by
  intro i hi
  rw [Statement.comment] at hi
  split at hi
  · exact List.mem_singleton.1 hi ▸ rfl
  · cases hi

theorem unlabelled_assignListing (target : NameUse) (index : Option Expr) (value : Expr) :
    Unlabelled (assignListing ctx target index value) := by
  cases index with
  | none => exact (value.unlabelled ctx).append fun i hi => List.mem_singleton.1 hi ▸ rfl
  | some index =>
    intro i hi
    simp only [assignListing, List.mem_append, List.mem_cons, List.not_mem_nil, or_false] at hi
    rcases hi with rfl | hi | rfl | hi | rfl | rfl | rfl | rfl
    · rfl
    · exact index.unlabelled ctx i hi
    · rfl
    · exact value.unlabelled ctx i hi
    all_goals rfl

theorem unlabelled_returnListing (value : Option Expr) : Unlabelled (returnListing ctx value) := by
  cases value with
  | none =>
    intro i hi
    simp only [returnListing, List.mem_cons, List.not_mem_nil, or_false] at hi
    rcases hi with rfl | rfl <;> rfl
  | some value => exact (value.unlabelled ctx).append fun i hi => List.mem_singleton.1 hi ▸ rfl

theorem SubroutineDec.unlabelled_header (fields : Nat) (s : SubroutineDec) :
    Unlabelled (s.header ctx.className fields) := by
  intro i hi
  rw [SubroutineDec.header] at hi
  cases hkind : s.kind <;>
    simp only [hkind, SubroutineKind.prologue, List.mem_cons, List.not_mem_nil, or_false] at hi
  · rcases hi with rfl | rfl | rfl | rfl <;> rfl
  · exact hi ▸ rfl
  · rcases hi with rfl | rfl | rfl <;> rfl

end Unlabelled

/-! ### Counting drawn labels -/

/-- The statement is a conditional one. -/
def Statement.isIf : Statement → Bool
  | .ifThen .. | .ifElse .. => true
  | _ => false

/-- The statement is a loop. -/
def Statement.isWhile : Statement → Bool
  | .whileLoop .. => true
  | _ => false

/-- The statement draws a label of the kind. -/
def LabelKind.isDrawnBy : LabelKind → Statement → Bool
  | .ifFalse | .ifEnd => Statement.isIf
  | .whileStart | .whileEnd => Statement.isWhile

section Counting

variable {kind : LabelKind}

mutual

-- Both counters of conditional statements move together, also where one label is never used.
theorem Statement.drawn_labelsAfter : ∀ (s : Statement) (labels : LabelSupply),
    (s.labelsAfter labels).drawn kind =
      labels.drawn kind + s.preorder.countP kind.isDrawnBy
  | .assign .., _ | .doCall .., _ | .ret .., _ => by
    cases kind <;> simp [Statement.labelsAfter, Statement.preorder, LabelKind.isDrawnBy,
      Statement.isIf, Statement.isWhile]
  | .ifThen _ body _, labels | .whileLoop _ body _, labels => by
    rw [Statement.labelsAfter, drawn_statementsLabelsAfter body]
    cases kind <;>
      simp [Statement.preorder, List.countP_cons, LabelKind.isDrawnBy, Statement.isIf,
        Statement.isWhile, LabelSupply.drawn_bump] <;> omega
  | .ifElse _ thenBody elseBody _, labels => by
    rw [Statement.labelsAfter, drawn_statementsLabelsAfter elseBody,
      drawn_statementsLabelsAfter thenBody]
    cases kind <;>
      simp [Statement.preorder, List.countP_cons, LabelKind.isDrawnBy, Statement.isIf,
        Statement.isWhile, LabelSupply.drawn_bump] <;> omega

/-- Statements draw one label of a kind for each statement that has labels of that kind. -/
theorem drawn_statementsLabelsAfter : ∀ (ss : List Statement) (labels : LabelSupply),
    (statementsLabelsAfter ss labels).drawn kind =
      labels.drawn kind + (statementsPreorder ss).countP kind.isDrawnBy
  | [], _ => by simp [statementsLabelsAfter, statementsPreorder]
  | s :: ss, labels => by
    rw [statementsLabelsAfter, drawn_statementsLabelsAfter ss, s.drawn_labelsAfter,
      statementsPreorder, List.countP_append]
    omega

end

/-- The first statement of a site draws a label of the kind. -/
def Site.draws (kind : LabelKind) (b : Site) : Bool := b.statements.head?.any kind.isDrawnBy

section Numbers

variable {ctx : CodeContext}

mutual

-- A statement that draws takes the next number itself, and its blocks take those that follow.
theorem Statement.numbers_sites : ∀ (s : Statement) (labels : LabelSupply) (start : Nat),
    (if kind.isDrawnBy s then [labels.drawn kind] else []) ++
        ((s.sites ctx labels start).filter (·.draws kind)).map (·.labels.drawn kind) =
      List.range' (labels.drawn kind) (s.preorder.countP kind.isDrawnBy)
  | .assign .., _, _ | .doCall .., _, _ | .ret .., _, _ => by
    cases kind <;> simp [Statement.sites, Statement.preorder, LabelKind.isDrawnBy, Statement.isIf,
      Statement.isWhile]
  | .ifThen _ body _, labels, _ | .whileLoop _ body _, labels, _ => by
    rw [Statement.sites, numbers_statementsSites body]
    cases kind <;> simp [Statement.preorder, List.countP_cons, LabelKind.isDrawnBy, Statement.isIf,
      Statement.isWhile, LabelSupply.drawn_bump, List.range'_succ]
  | .ifElse _ thenBody elseBody _, labels, _ => by
    rw [Statement.sites, List.filter_append, List.map_append, numbers_statementsSites thenBody,
      numbers_statementsSites elseBody, drawn_statementsLabelsAfter, List.range'_append_1]
    cases kind <;> simp [Statement.preorder, List.countP_cons, LabelKind.isDrawnBy, Statement.isIf,
      Statement.isWhile, LabelSupply.drawn_bump, List.range'_succ]

/-- The labels that are left at the sites which draw one of a kind count up by one. -/
theorem numbers_statementsSites : ∀ (ss : List Statement) (labels : LabelSupply) (start : Nat),
    ((statementsSites ctx labels start ss).filter (·.draws kind)).map (·.labels.drawn kind) =
      List.range' (labels.drawn kind) ((statementsPreorder ss).countP kind.isDrawnBy)
  | [], _, _ => by simp [statementsSites, statementsPreorder, Site.draws]
  | s :: ss, labels, start => by
    rw [statementsPreorder, List.countP_append, ← List.range'_append_1, ← s.drawn_labelsAfter,
      ← s.numbers_sites labels (start + (s.comment ctx).length),
      ← numbers_statementsSites ss (s.labelsAfter labels)
        (start + (s.comment ctx).length + (s.listing ctx labels).length), statementsSites]
    by_cases hs : kind.isDrawnBy s <;> simp [Site.draws, hs]

end

theorem numbers_subroutinesSites {fields : Nat} (subs : List SubroutineDec) (labels : LabelSupply)
    (start : Nat) :
    ((subroutinesSites ctx fields labels start subs).filter (·.draws kind)).map
        (·.labels.drawn kind) =
      List.range' (labels.drawn kind)
        ((subs.flatMap fun s => statementsPreorder s.statements).countP kind.isDrawnBy) := by
  induction subs generalizing labels start with
  | nil => simp [subroutinesSites]
  | cons s ss ih =>
    rw [subroutinesSites, List.filter_append, List.map_append, numbers_statementsSites, ih,
      drawn_statementsLabelsAfter, List.range'_append_1, List.flatMap_cons, List.countP_append]

end Numbers

/-- The labels of a kind that are drawn before a site and for its statements. -/
def Site.drawnThrough (kind : LabelKind) (b : Site) : Nat :=
  b.labels.drawn kind + (statementsPreorder b.statements).countP kind.isDrawnBy

section Bound

variable {ctx : CodeContext}

/-- No more labels are drawn through a child of a site than through the site. -/
theorem Site.drawnThrough_le_of_mem_children (b : Site) :
    ∀ c ∈ b.children ctx, c.drawnThrough kind ≤ b.drawnThrough kind := by
  obtain ⟨ss, labels, start⟩ := b
  cases ss with
  | nil => simp [children]
  | cons s ss =>
    simp only [children, List.forall_mem_append, List.forall_mem_singleton, drawnThrough,
      statementsPreorder, List.countP_append]
    refine ⟨fun c hc => ?_, by rw [s.drawn_labelsAfter, Nat.add_assoc]⟩
    -- What `s` draws is what it draws itself and what its blocks draw one after the other.
    have hdrawn : (s.labelsAfter labels).drawn kind =
        labels.drawn kind + s.preorder.countP kind.isDrawnBy := s.drawn_labelsAfter labels
    cases s with
    | assign | doCall | ret => simp [Statement.blocks] at hc
    | ifThen condition body span | whileLoop condition body span =>
      obtain rfl := List.mem_singleton.1 hc
      rw [Statement.labelsAfter, drawn_statementsLabelsAfter] at hdrawn
      dsimp only
      omega
    | ifElse condition thenBody elseBody span =>
      rw [Statement.labelsAfter, drawn_statementsLabelsAfter, drawn_statementsLabelsAfter] at hdrawn
      simp only [Statement.blocks, List.mem_cons, List.not_mem_nil, or_false] at hc
      rcases hc with rfl | rfl
      · dsimp only
        omega
      · dsimp only
        rw [drawn_statementsLabelsAfter]
        omega

theorem drawnThrough_le_of_mem_subroutinesSites {fields : Nat} (subs : List SubroutineDec)
    (labels : LabelSupply) (start : Nat) :
    ∀ b ∈ subroutinesSites ctx fields labels start subs, b.drawnThrough kind ≤
      labels.drawn kind +
        (subs.flatMap fun s => statementsPreorder s.statements).countP kind.isDrawnBy := by
  induction subs generalizing labels start with
  | nil => simp [subroutinesSites]
  | cons s ss ih =>
    rw [subroutinesSites, List.flatMap_cons, List.countP_append, ← Nat.add_assoc]
    refine List.forall_mem_append.2 ⟨?_, ?_⟩
    · refine statementsSites_induction
        (fun b hb c hc => (b.drawnThrough_le_of_mem_children c hc).trans hb) _ _ _ ?_
      exact Nat.le_add_right _ _
    · rw [← drawn_statementsLabelsAfter]
      exact ih _ _

/-- **The counters of labels fit 32 bits** at every site of a class that has fewer than 2 ^ 32
conditional statements and fewer than 2 ^ 32 loops, also when the statements of the site have drawn
their labels. -/
theorem drawnThrough_lt_of_mem_sites {tree : ClassDec} {scope : Scope} {source : String}
    {options : Options} (hif : tree.preorder.countP Statement.isIf < 2 ^ 32)
    (hwhile : tree.preorder.countP Statement.isWhile < 2 ^ 32) {b : Site}
    (hb : b ∈ tree.sites scope source options) : b.drawnThrough kind < 2 ^ 32 := by
  refine (drawnThrough_le_of_mem_subroutinesSites _ _ _ b hb).trans_lt ?_
  rw [LabelSupply.drawn_new, Nat.zero_add]
  cases kind with
  | ifFalse | ifEnd => exact hif
  | whileStart | whileEnd => exact hwhile

end Bound

end Counting

/-! ### Labels between two supplies -/

namespace LabelSupply

/-- No more labels are drawn in the first supply than in the second. -/
instance : LE LabelSupply := ⟨fun lo hi => ∀ kind, lo.drawn kind ≤ hi.drawn kind⟩

/-- The label was drawn between the two supplies. -/
def Between (lo hi : LabelSupply) (name : String) : Prop :=
  ∃ kind n, name = labelName kind n ∧ lo.drawn kind ≤ n ∧ n < hi.drawn kind

variable {lo mid hi : LabelSupply} {name : String}

theorem le_trans (h : lo ≤ mid) (h' : mid ≤ hi) : lo ≤ hi := fun kind => (h kind).trans (h' kind)

theorem le_bump (kind : LabelKind) : lo ≤ lo.bump kind := fun kind' =>
  drawn_bump lo kind kind' ▸ Nat.le_add_right _ _

theorem Between.mono {lo' hi' : LabelSupply} (h : lo.Between hi name) (hlo : lo' ≤ lo)
    (hhi : hi ≤ hi') : lo'.Between hi' name := by
  obtain ⟨kind, n, rfl, hle, hlt⟩ := h
  exact ⟨kind, n, rfl, (hlo kind).trans hle, hlt.trans_le (hhi kind)⟩

theorem le_bump_bump (kind kind' : LabelKind) : lo ≤ (lo.bump kind).bump kind' :=
  le_trans (le_bump kind) (le_bump kind')

/-- A label that was drawn before the first supply is not between the two. -/
theorem not_between {kind : LabelKind} {n : Nat} (h : n < lo.drawn kind) :
    ¬ lo.Between hi (labelName kind n) := by
  -- A label tells its kind and its number, so the other label is the same one.
  rintro ⟨kind', n', heq, hle, -⟩
  obtain ⟨rfl, rfl⟩ := labelName_inj.1 heq
  omega

end LabelSupply

theorem Statement.le_labelsAfter (s : Statement) (labels : LabelSupply) :
    labels ≤ s.labelsAfter labels := fun kind => by
  rw [s.drawn_labelsAfter]
  exact Nat.le_add_right _ _

theorem le_statementsLabelsAfter (ss : List Statement) (labels : LabelSupply) :
    labels ≤ statementsLabelsAfter ss labels := fun kind => by
  rw [drawn_statementsLabelsAfter]
  exact Nat.le_add_right _ _

/-- The labels of the code were drawn between the two supplies, each is defined once, and every jump
stays in the code. -/
structure Labelled (lo hi : LabelSupply) (l : List Instruction) : Prop where
  /-- The labels were drawn between the two supplies. -/
  between : ∀ name ∈ definedLabels l, lo.Between hi name
  /-- Each label is defined once. -/
  nodup : (definedLabels l).Nodup
  /-- The labels of jumps are defined. -/
  closed : targetLabels l ⊆ definedLabels l

namespace Labelled

variable {lo mid hi : LabelSupply} {l l' : List Instruction}

theorem of_unlabelled (h : Unlabelled l) : Labelled lo hi l :=
  ⟨by simp [h.definedLabels_eq], by simp [h.definedLabels_eq],
    by simp [h.definedLabels_eq, h.targetLabels_eq]⟩

theorem disjoint (h : Labelled lo mid l) (h' : Labelled mid hi l') :
    List.Disjoint (definedLabels l) (definedLabels l') := by
  intro name hname hname'
  obtain ⟨kind, n, rfl, -, hlt⟩ := h.between name hname
  exact LabelSupply.not_between hlt (h'.between _ hname')

/-- Code whose labels are drawn one piece after the other. -/
theorem append (h : Labelled lo mid l) (h' : Labelled mid hi l') (hlo : lo ≤ mid)
    (hhi : mid ≤ hi) : Labelled lo hi (l ++ l') where
  between := by
    rw [definedLabels_append]
    refine List.forall_mem_append.2 ⟨fun name hname => ?_, fun name hname => ?_⟩
    · exact (h.between name hname).mono (fun _ => le_rfl) hhi
    · exact (h'.between name hname).mono hlo fun _ => le_rfl
  nodup := by
    rw [definedLabels_append]
    exact List.Nodup.append h.nodup h'.nodup (h.disjoint h')
  closed := by
    rw [definedLabels_append, targetLabels_append]
    exact List.append_subset.2 ⟨List.subset_append_of_subset_left _ h.closed,
      List.subset_append_of_subset_right _ h'.closed⟩

/-- Code that has, besides the labels of a piece, one of each of some kinds that were drawn before
those of the piece. -/
theorem frame (kinds : List LabelKind) (h : Labelled mid hi l) (hkinds : kinds.Nodup)
    (hlo : lo ≤ mid) (hhi : mid ≤ hi) (hdrawn : ∀ kind ∈ kinds, lo.drawn kind < mid.drawn kind)
    (hdefined : (definedLabels l').Perm
      (kinds.map (fun kind => labelName kind (lo.drawn kind)) ++ definedLabels l))
    (htargets : targetLabels l' ⊆
      kinds.map (fun kind => labelName kind (lo.drawn kind)) ++ targetLabels l) :
    Labelled lo hi l' where
  between := by
    intro name hname
    rcases List.mem_append.1 (hdefined.subset hname) with hname | hname
    · obtain ⟨kind, hkind, rfl⟩ := List.mem_map.1 hname
      exact ⟨kind, _, rfl, le_rfl, (hdrawn kind hkind).trans_le (hhi kind)⟩
    · exact (h.between name hname).mono hlo fun _ => le_rfl
  nodup := by
    refine hdefined.nodup_iff.2 (List.Nodup.append (hkinds.map ?_) h.nodup ?_)
    · exact fun _ _ heq => (labelName_inj.1 heq).1
    · intro name hname hname'
      obtain ⟨kind, hkind, rfl⟩ := List.mem_map.1 hname
      exact LabelSupply.not_between (hdrawn kind hkind) (h.between _ hname')
  closed := by
    intro name hname
    refine hdefined.symm.subset (List.mem_append.2 ?_)
    exact (List.mem_append.1 (htargets hname)).imp_right fun hname => h.closed hname

end Labelled

section Labelled

variable (ctx : CodeContext)

mutual

theorem Statement.labelled : ∀ (s : Statement) (labels : LabelSupply),
    Labelled labels (s.labelsAfter labels) (s.listing ctx labels)
  | .assign target index value span, labels =>
    .of_unlabelled (Statement.listing_assign ctx labels target index value span ▸
      unlabelled_assignListing ctx target index value)
  | .ifThen condition body span, labels => by
    have hdefined : definedLabels ((Statement.ifThen condition body span).listing ctx labels) =
        definedLabels (statementsListing ctx ((labels.bump .ifFalse).bump .ifEnd) body) ++
          [labelName .ifEnd labels.ifEnd] := by
      simp [(condition.unlabelled ctx).definedLabels_eq, Instruction.defined?]
    have htargets : targetLabels ((Statement.ifThen condition body span).listing ctx labels) =
        labelName .ifEnd labels.ifEnd ::
          targetLabels (statementsListing ctx ((labels.bump .ifFalse).bump .ifEnd) body) := by
      simp [(condition.unlabelled ctx).targetLabels_eq, Instruction.target?]
    refine (labelled_statementsListing body _).frame [.ifEnd] (List.nodup_singleton _)
      (LabelSupply.le_bump_bump _ _) (le_statementsLabelsAfter body _) ?_ ?_ ?_
    · simp [LabelSupply.drawn_bump]
    · exact hdefined ▸ List.perm_append_comm
    · exact htargets ▸ List.Subset.refl _
  | .ifElse condition thenBody elseBody span, labels => by
    let inner := (labels.bump .ifFalse).bump .ifEnd
    let thenCode := statementsListing ctx inner thenBody
    let elseCode := statementsListing ctx (statementsLabelsAfter thenBody inner) elseBody
    have hdefined :
        definedLabels ((Statement.ifElse condition thenBody elseBody span).listing ctx labels) =
          definedLabels thenCode ++ labelName .ifFalse labels.ifFalse ::
            (definedLabels elseCode ++ [labelName .ifEnd labels.ifEnd]) := by
      simp [(condition.unlabelled ctx).definedLabels_eq, Instruction.defined?, thenCode, elseCode,
        inner]
    have htargets :
        targetLabels ((Statement.ifElse condition thenBody elseBody span).listing ctx labels) =
          labelName .ifFalse labels.ifFalse ::
            (targetLabels thenCode ++ labelName .ifEnd labels.ifEnd :: targetLabels elseCode) := by
      simp [(condition.unlabelled ctx).targetLabels_eq, Instruction.target?, thenCode, elseCode,
        inner]
    -- The two blocks one after the other are one piece: the second draws what the first leaves.
    have hthen := le_statementsLabelsAfter thenBody inner
    have helse := le_statementsLabelsAfter elseBody (statementsLabelsAfter thenBody inner)
    have hbodies : Labelled inner _ (thenCode ++ elseCode) :=
      (labelled_statementsListing thenBody inner).append (labelled_statementsListing elseBody _)
        hthen helse
    refine hbodies.frame [.ifFalse, .ifEnd] (by decide) (LabelSupply.le_bump_bump _ _)
      (LabelSupply.le_trans hthen helse) ?_ ?_ ?_
    · simp [inner, LabelSupply.drawn_bump]
    · rw [hdefined, definedLabels_append]
      refine List.perm_iff_count.2 fun name => ?_
      simp only [List.map_cons, List.map_nil, List.count_append, List.count_cons, List.count_nil,
        LabelSupply.drawn]
      omega
    · rw [htargets, targetLabels_append]
      intro name
      simp only [List.map_cons, List.map_nil, List.mem_append, List.mem_cons, List.not_mem_nil,
        or_false, LabelSupply.drawn]
      tauto
  | .whileLoop condition body span, labels => by
    let inner := (labels.bump .whileStart).bump .whileEnd
    have hdefined : definedLabels ((Statement.whileLoop condition body span).listing ctx labels) =
        labelName .whileStart labels.whileStart ::
          (definedLabels (statementsListing ctx inner body) ++
            [labelName .whileEnd labels.whileEnd]) := by
      simp [(condition.unlabelled ctx).definedLabels_eq, Instruction.defined?, inner]
    have htargets : targetLabels ((Statement.whileLoop condition body span).listing ctx labels) =
        labelName .whileEnd labels.whileEnd ::
          (targetLabels (statementsListing ctx inner body) ++
            [labelName .whileStart labels.whileStart]) := by
      simp [(condition.unlabelled ctx).targetLabels_eq, Instruction.target?, inner]
    refine (labelled_statementsListing body inner).frame [.whileStart, .whileEnd] (by decide)
      (LabelSupply.le_bump_bump _ _) (le_statementsLabelsAfter body _) ?_ ?_ ?_
    · simp [inner, LabelSupply.drawn_bump]
    · exact hdefined ▸ List.Perm.cons _ List.perm_append_comm
    · rw [htargets]
      intro name
      simp only [List.map_cons, List.map_nil, List.mem_append, List.mem_cons, List.not_mem_nil,
        or_false, LabelSupply.drawn]
      tauto
  | .doCall call span, labels => by
    rw [Statement.listing_doCall]
    exact .of_unlabelled ((call.unlabelled ctx).append fun i hi => List.mem_singleton.1 hi ▸ rfl)
  | .ret value span, labels =>
    .of_unlabelled (Statement.listing_ret ctx labels value span ▸
      unlabelled_returnListing ctx value)

theorem labelled_statementsListing : ∀ (ss : List Statement) (labels : LabelSupply),
    Labelled labels (statementsLabelsAfter ss labels) (statementsListing ctx labels ss)
  | [], _ => .of_unlabelled (by simp [Unlabelled])
  | s :: ss, labels => by
    rw [statementsListing_cons]
    have hrest := (s.labelled labels).append (labelled_statementsListing ss _)
      (s.le_labelsAfter labels) (le_statementsLabelsAfter ss _)
    exact .append (.of_unlabelled (s.unlabelled_comment ctx)) hrest (fun _ => le_rfl)
      (le_statementsLabelsAfter (s :: ss) labels)

end

theorem SubroutineDec.labelled (fields : Nat) (s : SubroutineDec) (labels : LabelSupply) :
    Labelled labels (statementsLabelsAfter s.statements labels) (s.listing ctx fields labels) :=
  .append (.of_unlabelled (s.unlabelled_header ctx fields))
    (labelled_statementsListing ctx s.statements labels) (fun _ => le_rfl)
    (le_statementsLabelsAfter _ _)

theorem exists_labelled_subroutinesListing (fields : Nat) (subs : List SubroutineDec)
    (labels : LabelSupply) :
    ∃ hi, labels ≤ hi ∧ Labelled labels hi (subroutinesListing ctx fields labels subs) := by
  induction subs generalizing labels with
  | nil =>
    have hempty : Unlabelled (subroutinesListing ctx fields labels []) := by
      simp [subroutinesListing, Unlabelled]
    exact ⟨labels, fun _ => le_rfl, .of_unlabelled hempty⟩
  | cons s ss ih =>
    obtain ⟨hi, hle, hss⟩ := ih (statementsLabelsAfter s.statements labels)
    have hs := le_statementsLabelsAfter s.statements labels
    refine ⟨hi, LabelSupply.le_trans hs hle, ?_⟩
    rw [subroutinesListing, ← List.append_assoc]
    exact (s.labelled ctx fields labels).append hss hs hle

end Labelled

/-! ### Labels of a statement itself -/

section Own

variable {ctx : CodeContext} {own : String → Prop} {inner : List Site}

/-- Where code that begins at `start` names a label which is not one of `own`, the position belongs
to a statement at one of the sites. -/
def NamesOwn (ctx : CodeContext) (own : String → Prop) (inner : List Site) (start : Nat)
    (l : List Instruction) : Prop :=
  ∀ (k : Nat) (i : Instruction) (name : String), l[k]? = some i → i.named? = some name →
    own name ∨ ∃ c ∈ inner, c.Covers ctx (start + k)

namespace NamesOwn

variable {l l' : List Instruction} {start : Nat}

theorem of_unlabelled (h : Unlabelled l) : NamesOwn ctx own inner start l := by
  intro k i name hi hname
  simp [h i (List.mem_of_getElem? hi)] at hname

theorem append (h : NamesOwn ctx own inner start l)
    (h' : NamesOwn ctx own inner (start + l.length) l') :
    NamesOwn ctx own inner start (l ++ l') := by
  intro k i name hi hname
  rw [List.getElem?_append] at hi
  split at hi
  · exact h k i name hi hname
  · have hk : start + l.length + (k - l.length) = start + k := by omega
    exact hk ▸ h' _ i name hi hname

theorem cons {i : Instruction} (hi : ∀ name, i.named? = some name → own name)
    (h : NamesOwn ctx own inner (start + 1) l) : NamesOwn ctx own inner start (i :: l) := by
  refine append (l := [i]) (fun k j name hj hname => .inl ?_) h
  obtain rfl := List.mem_singleton.1 (List.mem_of_getElem? hj)
  exact hi name hname

theorem nil : NamesOwn ctx own inner start [] := .of_unlabelled (by simp [Unlabelled])

/-- The code of a block belongs to its statements. -/
theorem block (ss : List Statement) (labels : LabelSupply)
    (h : statementsSites ctx labels start ss ⊆ inner) :
    NamesOwn ctx own inner start (statementsListing ctx labels ss) := by
  intro k i name hi _
  have hk := (List.getElem?_eq_some_iff.1 hi).1
  obtain ⟨c, hc, hcovers⟩ := exists_covers ss labels start (Nat.le_add_right start k)
    (Nat.add_lt_add_left hk start)
  exact .inr ⟨c, h hc, hcovers⟩

end NamesOwn

/-- The labels of a kind that a statement names itself carry the number that was left for it. -/
def Statement.IsOwn (s : Statement) (labels : LabelSupply) (name : String) : Prop :=
  ∃ kind : LabelKind, kind.isDrawnBy s ∧ name = labelName kind (labels.drawn kind)

theorem Statement.namesOwn (s : Statement) (labels : LabelSupply) (start : Nat) :
    NamesOwn ctx (s.IsOwn labels) (s.sites ctx labels start) start (s.listing ctx labels) := by
  have hown {i : Instruction} (kind : LabelKind) (hkind : kind.isDrawnBy s)
      (hi : i.named? = some (labelName kind (labels.drawn kind))) :
      ∀ name, i.named? = some name → s.IsOwn labels name :=
    fun name hname => ⟨kind, hkind, Option.some_inj.1 (hname.symm.trans hi)⟩
  have hnot : ∀ name, (Instruction.op .not).named? = some name → s.IsOwn labels name := by
    simp [Instruction.named?]
  cases s with
  | assign target index value span =>
    rw [listing_assign]
    exact .of_unlabelled (unlabelled_assignListing ctx target index value)
  | ifThen condition body span =>
    rw [listing_ifThen]
    refine .append (.of_unlabelled (condition.unlabelled ctx)) (.cons hnot (.cons ?_ ?_))
    · exact hown .ifEnd rfl rfl
    · exact .append (.block body _ (List.Subset.refl _)) (.cons (hown .ifEnd rfl rfl) .nil)
  | ifElse condition thenBody elseBody span =>
    rw [listing_ifElse]
    refine .append (.of_unlabelled (condition.unlabelled ctx)) (.cons hnot (.cons ?_ ?_))
    · exact hown .ifFalse rfl rfl
    · refine .append (.block thenBody _ (List.subset_append_left _ _)) (.cons ?_ (.cons ?_ ?_))
      · exact hown .ifEnd rfl rfl
      · exact hown .ifFalse rfl rfl
      · exact .append (.block elseBody _ (List.subset_append_right _ _))
          (.cons (hown .ifEnd rfl rfl) .nil)
  | whileLoop condition body span =>
    rw [listing_whileLoop]
    refine .cons (hown .whileStart rfl rfl)
      (.append (.of_unlabelled (condition.unlabelled ctx)) (.cons hnot (.cons ?_ ?_)))
    · exact hown .whileEnd rfl rfl
    · exact .append (.block body _ (List.Subset.refl _))
        (.cons (hown .whileStart rfl rfl) (.cons (hown .whileEnd rfl rfl) .nil))
  | doCall call span =>
    rw [listing_doCall]
    exact .append (.of_unlabelled (call.unlabelled ctx)) (.cons (by simp [Instruction.named?]) .nil)
  | ret value span =>
    rw [listing_ret]
    exact .of_unlabelled (unlabelled_returnListing ctx value)

/-- An instruction that belongs to a statement names only labels of the statement itself. -/
theorem Site.isOwn_of_owns {program : List Instruction} {b : Site}
    (hocc : OccursAt program b.start (b.listing ctx)) {k : Nat} (howns : b.Owns ctx k)
    {i : Instruction} (hi : program[k]? = some i) {name : String} (hname : i.named? = some name) :
    ∃ s, b.statements.head? = some s ∧ s.IsOwn b.labels name := by
  obtain ⟨ss, labels, start⟩ := b
  obtain ⟨⟨hle, hlt⟩, hinner⟩ := howns
  cases ss with
  | nil =>
    simp only [Site.headStop] at hlt hle
    omega
  | cons s ss =>
    refine ⟨s, rfl, ?_⟩
    simp only [Site.listing, statementsListing_cons, ← List.append_assoc] at hocc
    simp only [Site.headStop] at hlt hle
    -- The comment names no label, so only the code of `s` itself is left.
    have hnames : NamesOwn ctx (s.IsOwn labels)
        (s.sites ctx labels (start + (s.comment ctx).length)) start
        (s.comment ctx ++ s.listing ctx labels) :=
      .append (.of_unlabelled (s.unlabelled_comment ctx)) (s.namesOwn labels _)
    have hk : k - start < (s.comment ctx ++ s.listing ctx labels).length := by
      rw [List.length_append]
      omega
    have hstart : start + (k - start) = k := by omega
    have hhere := hocc.left.getElem? hk
    rw [hstart] at hhere
    obtain hown | ⟨c, hc, hcovers⟩ := hnames _ i name (hhere ▸ hi) hname
    · exact hown
    · exact absurd (hstart ▸ hcovers) (hinner c hc)

end Own

/-! ### The labels of a unit -/

/-- The labels in the code of a class are used as they should. -/
structure CodeLabels (tree : ClassDec) (scope : Scope) (source : String) (options : Options)
    (code : Code) : Prop where
  /-- No label is defined twice. -/
  nodup : (definedLabels code.toList).Nodup
  /-- A jump has its label in the routine of its own, and nowhere else. -/
  closed : ∀ routine ∈ routines code.toList, ∀ name ∈ targetLabels routine,
    (definedLabels routine).count name = 1 ∧ (definedLabels code.toList).count name = 1
  /-- The sites are those of the statements of the class in the order of the source. -/
  order : (tree.sites scope source options).filterMap (·.statements.head?) = tree.preorder
  /-- The code of the statements is at their sites. -/
  occurs : ∀ b ∈ tree.sites scope source options,
    OccursAt code.toList b.start (b.listing ⟨tree.name.text, options, source⟩)
  /-- The conditional statement that `k` others precede names only the labels with number `k`. -/
  ofIf : ∀ (k : Nat) (b : Site),
    ((tree.sites scope source options).filter
        (·.statements.head?.any Statement.isIf))[k]? = some b →
      ∀ (pos : Nat) (i : Instruction) (name : String),
        b.Owns ⟨tree.name.text, options, source⟩ pos → code[pos]? = some i →
          i.named? = some name → name = labelName .ifFalse k ∨ name = labelName .ifEnd k
  /-- The loop that `k` others precede names only the labels with number `k`. -/
  ofWhile : ∀ (k : Nat) (b : Site),
    ((tree.sites scope source options).filter
        (·.statements.head?.any Statement.isWhile))[k]? = some b →
      ∀ (pos : Nat) (i : Instruction) (name : String),
        b.Owns ⟨tree.name.text, options, source⟩ pos → code[pos]? = some i →
          i.named? = some name → name = labelName .whileStart k ∨ name = labelName .whileEnd k

section Unit

variable {tree : ClassDec} {scope : Scope} {source : String} {options : Options} {code : Code}

theorem nodup_definedLabels_of_lower (h : lower tree scope source options = .ok code) :
    (definedLabels code.toList).Nodup := by
  rw [(lower_eq_ok_iff.1 h).2]
  obtain ⟨_, -, hlabelled⟩ := exists_labelled_subroutinesListing _ _ tree.subroutines .new
  exact hlabelled.nodup

/-- The labels that are left at the site of a statement carry the number of the statement. -/
theorem drawn_of_getElem?_sites {kind : LabelKind} {k : Nat} {b : Site}
    (h : ((tree.sites scope source options).filter (·.draws kind))[k]? = some b) :
    b.labels.drawn kind = k := by
  -- The numbers that are left at these sites are zero, one, two and so on.
  have hmap := congrArg (Option.map (·.labels.drawn kind)) h
  rw [← List.getElem?_map, ClassDec.sites, numbers_subroutinesSites, LabelSupply.drawn_new] at hmap
  simpa using (List.getElem?_eq_some_iff.1 hmap).2.symm

/-- A label that belongs to a statement has a kind that the statement draws, and the number of the
statement. -/
theorem exists_kind_of_owns (h : lower tree scope source options = .ok code)
    {sort : Statement → Bool} {k : Nat} {b : Site}
    (hb : ((tree.sites scope source options).filter (·.statements.head?.any sort))[k]? = some b)
    {pos : Nat} {i : Instruction} {name : String}
    (howns : b.Owns ⟨tree.name.text, options, source⟩ pos) (hi : code[pos]? = some i)
    (hname : i.named? = some name) :
    ∃ s kind, sort s ∧ kind.isDrawnBy s ∧ name = labelName kind (b.labels.drawn kind) := by
  have hmem := List.mem_filter.1 (List.mem_of_getElem? hb)
  obtain ⟨s, hs, kind, hkind, hname⟩ := Site.isOwn_of_owns (occurs_of_mem_sites h hmem.1) howns
    (Array.getElem?_toList ▸ hi) hname
  exact ⟨s, kind, by simpa [hs] using hmem.2, hkind, hname⟩

/-- A jump in a routine has its label there, and nowhere else. -/
theorem count_definedLabels_of_lower (h : lower tree scope source options = .ok code) :
    ∀ routine ∈ routines code.toList, ∀ name ∈ targetLabels routine,
      (definedLabels routine).count name = 1 ∧ (definedLabels code.toList).count name = 1 := by
  intro routine hroutine name hname
  have hnodup := nodup_definedLabels_of_lower h
  have hsub : (definedLabels routine).Sublist (definedLabels code.toList) := by
    have hflatten : (routines code.toList).flatten = code.toList := List.flatten_splitBy _ _
    rw [← hflatten]
    exact (List.sublist_flatten_of_mem hroutine).filterMap _
  obtain ⟨s, -, labels, rfl⟩ := exists_listing_of_mem_routines h hroutine
  have hmem := (s.labelled _ _ labels).closed hname
  exact ⟨List.count_eq_one_of_mem (hnodup.sublist hsub) hmem,
    List.count_eq_one_of_mem hnodup (hsub.subset hmem)⟩

end Unit

/-- **In the code of a class no label is defined twice, every jump stays in its routine, and the
labels of a statement carry its number among the statements of its sort.** -/
theorem labels_of_lower {tree : ClassDec} {scope : Scope} {source : String} {options : Options}
    {code : Code} (h : lower tree scope source options = .ok code) :
    CodeLabels tree scope source options code := by
  refine ⟨nodup_definedLabels_of_lower h, count_definedLabels_of_lower h,
    heads_subroutinesSites _ _ _, fun b => occurs_of_mem_sites h, ?_, ?_⟩
  · intro k b hb pos i name howns hpos hname
    obtain ⟨s, kind, hs, hkind, rfl⟩ := exists_kind_of_owns h hb howns hpos hname
    cases kind with
    | ifFalse => exact .inl (congrArg _ (drawn_of_getElem?_sites hb))
    | ifEnd => exact .inr (congrArg _ (drawn_of_getElem?_sites hb))
    | whileStart | whileEnd => cases s <;> simp_all [LabelKind.isDrawnBy, Statement.isIf,
        Statement.isWhile]
  · intro k b hb pos i name howns hpos hname
    obtain ⟨s, kind, hs, hkind, rfl⟩ := exists_kind_of_owns h hb howns hpos hname
    cases kind with
    | whileStart => exact .inl (congrArg _ (drawn_of_getElem?_sites hb))
    | whileEnd => exact .inr (congrArg _ (drawn_of_getElem?_sites hb))
    | ifFalse | ifEnd => cases s <;> simp_all [LabelKind.isDrawnBy, Statement.isIf,
        Statement.isWhile]

theorem labels_of_lower_countdown :
    ∃ code, lower Countdown.tree .empty "" .none = .ok code ∧
      CodeLabels Countdown.tree .empty "" .none code :=
  ⟨_, rfl, labels_of_lower rfl⟩

end Jack

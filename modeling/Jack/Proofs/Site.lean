import Jack.Code.Listing

/-!
# Sites

A statement list of a unit has its code somewhere in the code of the unit.  A `Site` is a statement
list together with that place: the labels that were left when its code was made and the number of
instructions in front of it.  `statementsSites` lists the sites of a statement list, of everything
that follows one of its statements, and of all blocks nested in it, to any depth; their first
statements come in the order in which they start in the source (`heads_statementsSites`).

* `statementsSites_induction` : what holds of a statement list, and passes from a site to the blocks
  of its first statement and to the statements after that one, holds of all its sites;
* `occurs_of_mem_sites` : the code of a unit has, at each of its sites, the listing of the site;
* `exists_covers` : every instruction of a statement list belongs to a statement at one of its
  sites.
-/

namespace Jack

/-! ### Places in a list of instructions -/

/-- The instructions `l` stand in `program` from position `start` on. -/
def OccursAt (program : List Instruction) (start : Nat) (l : List Instruction) : Prop :=
  l <+: program.drop start

namespace OccursAt

variable {program l l' : List Instruction} {start : Nat} {i : Instruction}

theorem left (h : OccursAt program start (l ++ l')) : OccursAt program start l :=
  (List.prefix_append l l').trans h

theorem right (h : OccursAt program start (l ++ l')) :
    OccursAt program (start + l.length) l' := by
  obtain ⟨rest, hrest⟩ := h
  have hdrop : program.drop (start + l.length) = l' ++ rest := by
    rw [← List.drop_drop, ← hrest]
    simp
  exact ⟨rest, hdrop.symm⟩

theorem head (h : OccursAt program start (i :: l)) : program[start]? = some i := by
  obtain ⟨rest, hrest⟩ := h
  have := congrArg (·[0]?) hrest
  simpa using this.symm

theorem tail (h : OccursAt program start (i :: l)) : OccursAt program (start + 1) l :=
  right (l := [i]) h

/-- The instruction at a position inside `l`. -/
theorem getElem? (h : OccursAt program start l) {k : Nat} (hk : k < l.length) :
    program[start + k]? = l[k]? := by
  obtain ⟨rest, hrest⟩ := h
  rw [← List.getElem?_drop, ← hrest, List.getElem?_append_left hk]

end OccursAt

/-! ### The order of statements -/

mutual

/-- A statement and those nested in it, each before what it contains. -/
def Statement.preorder : Statement → List Statement
  | s@(.assign ..) | s@(.doCall ..) | s@(.ret ..) => [s]
  | s@(.ifThen _ body _) | s@(.whileLoop _ body _) => s :: statementsPreorder body
  | s@(.ifElse _ thenBody elseBody _) =>
    s :: (statementsPreorder thenBody ++ statementsPreorder elseBody)

/-- The statements of a list and those nested in them, in the order in which they start. -/
def statementsPreorder : List Statement → List Statement
  | [] => []
  | s :: ss => s.preorder ++ statementsPreorder ss

end

/-- The statements of a class in the order in which they start. -/
def ClassDec.preorder (tree : ClassDec) : List Statement :=
  tree.subroutines.flatMap fun s => statementsPreorder s.statements

mutual

/-- The statement lists in a statement: its blocks, the lists in them, and what follows one of their
statements. -/
def Statement.lists : Statement → List (List Statement)
  | .assign .. | .doCall .. | .ret .. => []
  | .ifThen _ body _ | .whileLoop _ body _ => statementsLists body
  | .ifElse _ thenBody elseBody _ => statementsLists thenBody ++ statementsLists elseBody

/-- A list of statements, the lists in its first statement, and those from the statement after that
one on. -/
def statementsLists : List Statement → List (List Statement)
  | [] => [[]]
  | s :: ss => (s :: ss) :: (s.lists ++ statementsLists ss)

end

/-- The statement lists of a class: the bodies of its subroutines and all lists in them. -/
def ClassDec.statementLists (tree : ClassDec) : List (List Statement) :=
  tree.subroutines.flatMap fun s => statementsLists s.statements

/-! ### Sites -/

/-- A list of statements with the place of its code in the code of a unit. -/
structure Site where
  /-- The statements. -/
  statements : List Statement
  /-- The labels that are left for them. -/
  labels : LabelSupply
  /-- The number of instructions in front of their code. -/
  start : Nat

namespace Site

variable (ctx : CodeContext)

/-- The code of the statements of a site. -/
def listing (b : Site) : List Instruction := statementsListing ctx b.labels b.statements

/-- The position behind the code of a site. -/
def stop (b : Site) : Nat := b.start + (b.listing ctx).length

end Site

section Sites

variable (ctx : CodeContext)

/-- The sites of the blocks of a statement whose code, without the comment, begins at `start`. -/
def Statement.blocks (labels : LabelSupply) (start : Nat) : Statement → List Site
  | .assign .. | .doCall .. | .ret .. => []
  -- The negation of the condition and the jump stand in front of a block.
  | .ifThen condition body _ =>
    [⟨body, (labels.bump .ifFalse).bump .ifEnd, start + (condition.listing ctx).length + 2⟩]
  | .ifElse condition thenBody elseBody _ =>
    let inner := (labels.bump .ifFalse).bump .ifEnd
    let thenStart := start + (condition.listing ctx).length + 2
    -- The jump over the alternative and its label stand between the blocks.
    [⟨thenBody, inner, thenStart⟩,
      ⟨elseBody, statementsLabelsAfter thenBody inner,
        thenStart + (statementsListing ctx inner thenBody).length + 2⟩]
  | .whileLoop condition body _ =>
    [⟨body, (labels.bump .whileStart).bump .whileEnd,
      start + 1 + (condition.listing ctx).length + 2⟩]

mutual

/-- All sites inside a statement whose code, without the comment, begins at `start`. -/
def Statement.sites (labels : LabelSupply) (start : Nat) : Statement → List Site
  | .assign .. | .doCall .. | .ret .. => []
  | .ifThen condition body _ =>
    statementsSites ((labels.bump .ifFalse).bump .ifEnd)
      (start + (condition.listing ctx).length + 2) body
  | .ifElse condition thenBody elseBody _ =>
    let inner := (labels.bump .ifFalse).bump .ifEnd
    let thenStart := start + (condition.listing ctx).length + 2
    statementsSites inner thenStart thenBody ++
      statementsSites (statementsLabelsAfter thenBody inner)
        (thenStart + (statementsListing ctx inner thenBody).length + 2) elseBody
  | .whileLoop condition body _ =>
    statementsSites ((labels.bump .whileStart).bump .whileEnd)
      (start + 1 + (condition.listing ctx).length + 2) body

/-- The sites of a list of statements whose code begins at `start`: of the list itself, of the
blocks nested in its first statement, and of the statements after that one. -/
def statementsSites (labels : LabelSupply) (start : Nat) : List Statement → List Site
  | [] => [⟨[], labels, start⟩]
  | s :: ss =>
    ⟨s :: ss, labels, start⟩ :: (s.sites labels (start + (s.comment ctx).length) ++
      statementsSites (s.labelsAfter labels)
        (start + (s.comment ctx).length + (s.listing ctx labels).length) ss)

end

/-- The sites inside the first statement of a site. -/
def Site.inner (b : Site) : List Site :=
  match b.statements with
  | [] => []
  | s :: _ => s.sites ctx b.labels (b.start + (s.comment ctx).length)

/-- The position behind the code of the first statement of a site. -/
def Site.headStop (b : Site) : Nat :=
  match b.statements with
  | [] => b.start
  | s :: _ => b.start + (s.comment ctx).length + (s.listing ctx b.labels).length

/-- The position lies in the code of the first statement of the site. -/
def Site.Covers (b : Site) (i : Nat) : Prop := b.start ≤ i ∧ i < b.headStop ctx

/-- The position belongs to the first statement of the site itself, and to no statement that is
nested in it. -/
def Site.Owns (b : Site) (i : Nat) : Prop := b.Covers ctx i ∧ ∀ c ∈ b.inner ctx, ¬ c.Covers ctx i

/-- The sites that a site leads to: the blocks of its first statement, and the statements after that
one. -/
def Site.children : Site → List Site
  | ⟨[], _, _⟩ => []
  | ⟨s :: ss, labels, start⟩ =>
    s.blocks ctx labels (start + (s.comment ctx).length) ++
      [⟨ss, s.labelsAfter labels,
        start + (s.comment ctx).length + (s.listing ctx labels).length⟩]

variable {ctx}

mutual

theorem Statement.sites_induction {P : Site → Prop}
    (hstep : ∀ b, P b → ∀ c ∈ b.children ctx, P c) :
    ∀ (s : Statement) (labels : LabelSupply) (start : Nat),
      (∀ b ∈ s.blocks ctx labels start, P b) → ∀ b ∈ s.sites ctx labels start, P b
  | .assign .., _, _, _ | .doCall .., _, _, _ | .ret .., _, _, _ => by simp [Statement.sites]
  | .ifThen _ body _, _, _, h | .whileLoop _ body _, _, _, h =>
    statementsSites_induction hstep body _ _ (h _ (by simp [Statement.blocks]))
  | .ifElse _ thenBody elseBody _, _, _, h => by
    rw [Statement.sites]
    exact List.forall_mem_append.2
      ⟨statementsSites_induction hstep thenBody _ _ (h _ (by simp [Statement.blocks])),
        statementsSites_induction hstep elseBody _ _ (h _ (by simp [Statement.blocks]))⟩

/-- **What passes from a site to its children holds of all sites of a list.** -/
theorem statementsSites_induction {P : Site → Prop}
    (hstep : ∀ b, P b → ∀ c ∈ b.children ctx, P c) :
    ∀ (ss : List Statement) (labels : LabelSupply) (start : Nat), P ⟨ss, labels, start⟩ →
      ∀ b ∈ statementsSites ctx labels start ss, P b
  | [], _, _, h => by simpa [statementsSites] using h
  | s :: ss, labels, start, h => by
    -- The children of the list are the blocks of `s` and the statements after `s`; the two
    -- recursive calls carry the property on from there.
    have hchild := hstep _ h
    simp only [Site.children, List.forall_mem_append, List.forall_mem_singleton] at hchild
    rw [statementsSites]
    exact List.forall_mem_cons.2 ⟨h, List.forall_mem_append.2
      ⟨s.sites_induction hstep _ _ hchild.1, statementsSites_induction hstep ss _ _ hchild.2⟩⟩

end

/-- The code of a block stands inside the code of its statement. -/
theorem occurs_of_mem_blocks {program : List Instruction} {labels : LabelSupply} {start : Nat}
    {s : Statement} (h : OccursAt program start (s.listing ctx labels)) :
    ∀ b ∈ s.blocks ctx labels start, OccursAt program b.start (b.listing ctx) := by
  cases s with
  | assign | doCall | ret => simp [Statement.blocks]
  | ifThen condition body span =>
    rw [Statement.listing_ifThen] at h
    exact List.forall_mem_singleton.2 h.right.tail.tail.left
  | ifElse condition thenBody elseBody span =>
    rw [Statement.listing_ifElse] at h
    have hthen := h.right.tail.tail
    have helse := hthen.right.tail.tail.left
    exact List.forall_mem_cons.2 ⟨hthen.left, List.forall_mem_singleton.2 helse⟩
  | whileLoop condition body span =>
    rw [Statement.listing_whileLoop] at h
    have hbody := h.tail.right.tail.tail.left
    exact List.forall_mem_singleton.2 hbody

theorem occurs_of_mem_children {program : List Instruction} (b : Site)
    (h : OccursAt program b.start (b.listing ctx)) :
    ∀ c ∈ b.children ctx, OccursAt program c.start (c.listing ctx) := by
  obtain ⟨ss, labels, start⟩ := b
  cases ss with
  | nil => simp [Site.children]
  | cons s ss =>
    rw [Site.listing, statementsListing_cons] at h
    simp only [Site.children, List.forall_mem_append, List.forall_mem_singleton]
    exact ⟨occurs_of_mem_blocks h.right.left, h.right.right⟩

/-- Every position in the code of a list of statements lies in the code of one of them. -/
theorem exists_covers (ss : List Statement) (labels : LabelSupply) (start : Nat) {i : Nat}
    (hle : start ≤ i) (hlt : i < start + (statementsListing ctx labels ss).length) :
    ∃ b ∈ statementsSites ctx labels start ss, b.Covers ctx i := by
  induction ss generalizing labels start with
  | nil =>
    simp only [statementsListing_nil, List.length_nil] at hlt
    omega
  | cons s ss ih =>
    simp only [statementsListing_cons, List.length_append] at hlt
    -- Either the position lies in the code of `s`, or in that of a statement behind `s`.
    by_cases hi : i < start + (s.comment ctx).length + (s.listing ctx labels).length
    · exact ⟨⟨s :: ss, labels, start⟩, by simp [statementsSites], hle, hi⟩
    · obtain ⟨b, hb, hcovers⟩ := ih (s.labelsAfter labels)
        (start + (s.comment ctx).length + (s.listing ctx labels).length) (by omega) (by omega)
      exact ⟨b, by simp [statementsSites, hb], hcovers⟩

mutual

theorem Statement.heads_sites : ∀ (s : Statement) (labels : LabelSupply) (start : Nat),
    s :: (s.sites ctx labels start).filterMap (·.statements.head?) = s.preorder
  | .assign .., _, _ | .doCall .., _, _ | .ret .., _, _ => by
    simp [Statement.sites, Statement.preorder]
  | .ifThen _ body _, _, _ | .whileLoop _ body _, _, _ => by
    simp [Statement.sites, Statement.preorder, heads_statementsSites body]
  | .ifElse _ thenBody elseBody _, _, _ => by
    simp [Statement.sites, Statement.preorder, heads_statementsSites thenBody,
      heads_statementsSites elseBody]

/-- The first statements of the sites come in the order in which they start. -/
theorem heads_statementsSites : ∀ (ss : List Statement) (labels : LabelSupply) (start : Nat),
    (statementsSites ctx labels start ss).filterMap (·.statements.head?) = statementsPreorder ss
  | [], _, _ => by simp [statementsSites, statementsPreorder]
  | s :: ss, labels, start => by
    rw [statementsPreorder, ← s.heads_sites labels (start + (s.comment ctx).length)]
    simp [statementsSites, heads_statementsSites ss]

end

mutual

theorem Statement.statements_sites : ∀ (s : Statement) (labels : LabelSupply) (start : Nat),
    (s.sites ctx labels start).map (·.statements) = s.lists
  | .assign .., _, _ | .doCall .., _, _ | .ret .., _, _ => by
    simp [Statement.sites, Statement.lists]
  | .ifThen _ body _, _, _ | .whileLoop _ body _, _, _ => by
    simp [Statement.sites, Statement.lists, statements_statementsSites body]
  | .ifElse _ thenBody elseBody _, _, _ => by
    simp [Statement.sites, Statement.lists, statements_statementsSites thenBody,
      statements_statementsSites elseBody]

/-- There is one site for each list in a list of statements. -/
theorem statements_statementsSites :
    ∀ (ss : List Statement) (labels : LabelSupply) (start : Nat),
      (statementsSites ctx labels start ss).map (·.statements) = statementsLists ss
  | [], _, _ => by simp [statementsSites, statementsLists]
  | s :: ss, _, _ => by
    simp [statementsSites, statementsLists, s.statements_sites, statements_statementsSites ss]

end

/-! ### The sites of a unit -/

/-- The sites of the bodies of subroutines whose code begins at `start`. -/
def subroutinesSites (ctx : CodeContext) (fields : Nat) :
    LabelSupply → Nat → List SubroutineDec → List Site
  | _, _, [] => []
  | labels, start, s :: ss =>
    let body := start + (s.header ctx.className fields).length
    statementsSites ctx labels body s.statements ++
      subroutinesSites ctx fields (statementsLabelsAfter s.statements labels)
        (body + (statementsListing ctx labels s.statements).length) ss

/-- The sites of all subroutine bodies of a unit and of everything nested in them. -/
def ClassDec.sites (tree : ClassDec) (scope : Scope) (source : String) (options : Options) :
    List Site :=
  subroutinesSites ⟨tree.name.text, options, source⟩ (scope.count .field) .new 0 tree.subroutines

theorem occurs_of_mem_subroutinesSites {program : List Instruction} {fields : Nat} :
    ∀ (subs : List SubroutineDec) (labels : LabelSupply) (start : Nat),
      OccursAt program start (subroutinesListing ctx fields labels subs) →
        ∀ b ∈ subroutinesSites ctx fields labels start subs,
          OccursAt program b.start (b.listing ctx)
  | [], _, _, _ => by simp [subroutinesSites]
  | s :: ss, labels, start, h => by
    rw [subroutinesListing] at h
    rw [subroutinesSites]
    exact List.forall_mem_append.2
      ⟨statementsSites_induction occurs_of_mem_children _ _ _ h.right.left,
        occurs_of_mem_subroutinesSites ss _ _ h.right.right⟩

/-- **The code of a unit has, at each of its sites, the listing of the site.** -/
theorem occurs_of_mem_sites {tree : ClassDec} {scope : Scope} {source : String}
    {options : Options} {code : Code} (h : lower tree scope source options = .ok code) {b : Site}
    (hb : b ∈ tree.sites scope source options) :
    OccursAt code.toList b.start (b.listing ⟨tree.name.text, options, source⟩) := by
  rw [(lower_eq_ok_iff.1 h).2]
  have hself (l : List Instruction) : OccursAt l 0 l := List.prefix_refl l
  exact occurs_of_mem_subroutinesSites _ _ _ (hself _) b hb

theorem heads_subroutinesSites {fields : Nat} (subs : List SubroutineDec) (labels : LabelSupply)
    (start : Nat) :
    (subroutinesSites ctx fields labels start subs).filterMap (·.statements.head?) =
      subs.flatMap fun s => statementsPreorder s.statements := by
  induction subs generalizing labels start with
  | nil => simp [subroutinesSites]
  | cons s ss ih => simp [subroutinesSites, heads_statementsSites, ih]

theorem statements_subroutinesSites {fields : Nat} (subs : List SubroutineDec)
    (labels : LabelSupply) (start : Nat) :
    (subroutinesSites ctx fields labels start subs).map (·.statements) =
      subs.flatMap fun s => statementsLists s.statements := by
  induction subs generalizing labels start with
  | nil => simp [subroutinesSites]
  | cons s ss ih => simp [subroutinesSites, statements_statementsSites, ih]

end Sites

/-! ### A class with nested statements -/

namespace Countdown

/-- A parameter. -/
def n : NameUse := ⟨"n", .empty 0, .declared ⟨"n", .int, .argument, 0⟩⟩

/-- A local variable. -/
def a : NameUse := ⟨"a", .empty 0, .declared ⟨"a", .object "Array", .localVar, 0⟩⟩

/-- The expression of one term and at most one operator. -/
def expr (head : Term) (tail : List (BinaryOp × Term)) : Expr := ⟨head, tail, .empty 0⟩

/-- The statement
`while (n > 0) { if (n = 1) { let a[n] = n; } else { do Output.printInt(n); } let n = n - 1; }`. -/
def loop : Statement :=
  .whileLoop (expr (.var n) [(.gt, .integer 0 (.empty 0))])
    [.ifElse (expr (.var n) [(.eq, .integer 1 (.empty 0))])
      [.assign a (some (expr (.var n) [])) (expr (.var n) []) (.empty 0)]
      [.doCall ⟨some ⟨"Output", .empty 0, .className⟩, ⟨"printInt", .empty 0⟩,
        [expr (.var n) []], .empty 0⟩ (.empty 0)]
      (.empty 0),
    .assign n none (expr (.var n) [(.sub, .integer 1 (.empty 0))]) (.empty 0)]
    (.empty 0)

/-- The class of the function `void run(int n) { var Array a; … return; }` with the loop. -/
def tree : ClassDec where
  name := ⟨"Main", .empty 0⟩
  varDecs := []
  subroutines := [{
    kind := .function
    returnType := .void
    name := ⟨"run", .empty 0⟩
    parameters := [⟨.int, ⟨"n", .empty 0⟩⟩]
    varDecs := [⟨.object "Array", [⟨"a", .empty 0⟩], .empty 0⟩]
    statements := [loop, .ret none (.empty 0)]
    span := .empty 0 }]
  span := .empty 0

end Countdown

end Jack

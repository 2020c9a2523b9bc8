import Jack.Proofs.Lowerable
import Jack.Proofs.Site
import Jack.Proofs.Unplaced

/-!
# Annotated code

With annotations, the code of each statement has a comment in front of it.  The comments are all
that annotations add: the rest of the code is the same with them and without, labels included, and
so are the faults of classes that have no code.  Nothing but the words of the comments depends on
the source text.

* `remarks` : the comments of a piece of code with their positions;
* `statementsListing_annotating` : annotated code without its comments is the plain code;
* `remarks_statementsListing` : the comments stand at the sites of the statements;
* `lower_annotating` : **annotations change neither whether a class has code nor the code but for
  comments, and there is one comment for each statement, in front of its own code.**
-/

namespace Jack

/-- The options with annotations. -/
def Options.annotating (o : Options) : Options := { o with annotateStatements := some true }

/-- The context with annotations, whose words are cut from `source`. -/
def CodeContext.annotating (ctx : CodeContext) (source : String) : CodeContext :=
  { ctx with options := ctx.options.annotating, source := source }

/-! ### Faults -/

theorem Demand.met_annotating {options : Options} {d : Demand} :
    d.Met options.annotating ↔ d.Met options := by
  cases d <;> rfl

theorem FirstUnmet.congr {options options' : Options}
    (h : ∀ d : Demand, d.Met options ↔ d.Met options') {ds : List Demand} {d : Demand}
    (hd : FirstUnmet options ds d) : FirstUnmet options' ds d := by
  induction hd with
  | head hunmet => exact .head fun hmet => hunmet ((h _).2 hmet)
  | tail hmet _ ih => exact .tail ((h _).1 hmet) ih

/-- A check of a class does not depend on annotations. -/
theorem checkSubroutines_annotating (options : Options) (fields : Nat) (ss : List SubroutineDec) :
    checkSubroutines options.annotating fields ss = checkSubroutines options fields ss := by
  have hplain := checkSubroutines_decides options fields ss
  rcases checkSubroutines_decides options.annotating fields ss with ⟨hok, hmet⟩ | ⟨d, hd, herror⟩
  · rw [hok, eq_comm, hplain.ok_iff]
    exact fun d hd => Demand.met_annotating.1 (hmet d hd)
  · rw [herror, eq_comm, hplain.error_iff]
    exact ⟨d, hd.congr fun _ => Demand.met_annotating, rfl⟩

/-! ### Code without its comments -/

section Plain

variable (ctx : CodeContext) (source : String)

mutual

theorem Expr.listing_annotating : ∀ e : Expr,
    e.listing (ctx.annotating source) = e.listing ctx
  | ⟨head, tail, _⟩ => by
    rw [Expr.listing_mk, Expr.listing_mk, head.listing_annotating, tailListing_annotating tail]

theorem tailListing_annotating : ∀ tail : List (BinaryOp × Term),
    tailListing (ctx.annotating source) tail = tailListing ctx tail
  | [] => rfl
  | (op, t) :: tail => by
    have hop : op.instruction (ctx.annotating source).options = op.instruction ctx.options := by
      cases op <;> rfl
    rw [tailListing_cons, tailListing_cons, t.listing_annotating, tailListing_annotating tail, hop]

theorem Term.listing_annotating : ∀ t : Term,
    t.listing (ctx.annotating source) = t.listing ctx
  | .integer _ _ | .string _ _ | .var _ => by simp
  | .keyword value _ => by
    rw [Term.listing_keyword, Term.listing_keyword]
    cases value <;> rfl
  | .element array index => by simp [index.listing_annotating]
  | .call call => by simp [call.listing_annotating]
  | .group inner _ => by simp [inner.listing_annotating]
  | .unary op operand _ => by simp [operand.listing_annotating]

theorem Call.listing_annotating : ∀ c : Call,
    c.listing (ctx.annotating source) = c.listing ctx
  | ⟨receiver, name, arguments, span⟩ => by
    rw [Call.listing_eq, Call.listing_eq, argumentsListing_annotating arguments]
    rfl

theorem argumentsListing_annotating : ∀ es : List Expr,
    argumentsListing (ctx.annotating source) es = argumentsListing ctx es
  | [] => rfl
  | e :: es => by
    rw [argumentsListing_cons, argumentsListing_cons, e.listing_annotating,
      argumentsListing_annotating es]

end

mutual

theorem Statement.listing_annotating : ∀ (s : Statement) (labels : LabelSupply),
    uncommented (s.listing (ctx.annotating source) labels) = uncommented (s.listing ctx labels)
  | .assign target index value _, labels => by
    cases index <;> simp [assignListing, Expr.listing_annotating]
  | .ifThen condition body _, labels | .whileLoop condition body _, labels => by
    simp [Expr.listing_annotating, statementsListing_annotating body]
  | .ifElse condition thenBody elseBody _, labels => by
    simp [Expr.listing_annotating, statementsListing_annotating thenBody,
      statementsListing_annotating elseBody]
  | .doCall call _, labels => by simp [Call.listing_annotating]
  | .ret value _, labels => by cases value <;> simp [returnListing, Expr.listing_annotating]

/-- But for comments, the code of statements does not depend on annotations. -/
theorem statementsListing_annotating : ∀ (ss : List Statement) (labels : LabelSupply),
    uncommented (statementsListing (ctx.annotating source) labels ss) =
      uncommented (statementsListing ctx labels ss)
  | [], labels => by simp
  | s :: ss, labels => by
    simp [Statement.uncommented_comment, s.listing_annotating, statementsListing_annotating ss]

end

theorem subroutinesListing_annotating (fields : Nat) (labels : LabelSupply)
    (ss : List SubroutineDec) :
    uncommented (subroutinesListing (ctx.annotating source) fields labels ss) =
      uncommented (subroutinesListing ctx fields labels ss) := by
  induction ss generalizing labels with
  | nil => rfl
  | cons s ss ih =>
    simp only [subroutinesListing, uncommented_append, statementsListing_annotating, ih]
    rfl

end Plain

/-! ### Comments and their places -/

/-- The words of a comment. -/
def Instruction.words? : Instruction → Option String
  | .comment words => some words
  | _ => none

/-- The comments in code that begins at `start`, each with its position. -/
def remarks (start : Nat) (l : List Instruction) : List (Nat × String) :=
  (l.zipIdx start).filterMap fun p => p.1.words?.map (p.2, ·)

@[simp] theorem remarks_nil (start : Nat) : remarks start [] = [] := rfl

@[simp] theorem remarks_cons (start : Nat) (i : Instruction) (l : List Instruction) :
    remarks start (i :: l) = (i.words?.map (start, ·)).toList ++ remarks (start + 1) l := by
  cases h : i.words? <;> simp [remarks, h]

@[simp] theorem remarks_append (start : Nat) (l l' : List Instruction) :
    remarks start (l ++ l') = remarks start l ++ remarks (start + l.length) l' := by
  simp [remarks, List.zipIdx_append]

theorem remarks_of_uncommented {l : List Instruction} (h : uncommented l = l) (start : Nat) :
    remarks start l = [] := by
  refine List.filterMap_eq_nil_iff.2 fun p hp => ?_
  have hcomment := List.filter_eq_self.1 h p.1 (List.fst_mem_of_mem_zipIdx hp)
  cases hi : p.1 <;> simp [hi, Instruction.isComment, Instruction.words?] at hcomment ⊢

/-- The comment that is due at a site, with its place: that of its first statement. -/
def Site.remark? (source : String) (b : Site) : Option (Nat × String) :=
  b.statements.head?.map fun s => (b.start, s.headline source)

section Remarks

variable {ctx : CodeContext}

@[simp] theorem Expr.remarks_listing (e : Expr) (start : Nat) :
    remarks start (e.listing ctx) = [] :=
  remarks_of_uncommented (e.uncommented_listing ctx) start

@[simp] theorem Call.remarks_listing (c : Call) (start : Nat) :
    remarks start (c.listing ctx) = [] :=
  remarks_of_uncommented (c.uncommented_listing ctx) start

mutual

theorem Statement.remarks_listing (h : ctx.options.annotates = true) :
    ∀ (s : Statement) (labels : LabelSupply) (start : Nat),
      remarks start (s.listing ctx labels) =
        (s.sites ctx labels start).filterMap (·.remark? ctx.source)
  | .assign target index value _, labels, start => by
    cases index <;> simp [assignListing, Statement.sites, Instruction.words?, NameUse.pushed,
      NameUse.popped]
  | .ifThen condition body _, labels, start => by
    simp [Statement.sites, Instruction.words?, remarks_statementsListing h body]
  | .ifElse condition thenBody elseBody _, labels, start => by
    simp [Statement.sites, Instruction.words?, remarks_statementsListing h thenBody,
      remarks_statementsListing h elseBody]
  | .whileLoop condition body _, labels, start => by
    simp [Statement.sites, Instruction.words?, remarks_statementsListing h body]
  | .doCall call _, labels, start => by simp [Statement.sites, Instruction.words?]
  | .ret value _, labels, start => by
    cases value <;> simp [returnListing, Statement.sites, Instruction.words?]

/-- The comments of statements are those that are due at their sites. -/
theorem remarks_statementsListing (h : ctx.options.annotates = true) :
    ∀ (ss : List Statement) (labels : LabelSupply) (start : Nat),
      remarks start (statementsListing ctx labels ss) =
        (statementsSites ctx labels start ss).filterMap (·.remark? ctx.source)
  | [], labels, start => by simp [statementsSites, Site.remark?]
  | s :: ss, labels, start => by
    simp [statementsSites, Site.remark?, Statement.comment, h, Instruction.words?,
      s.remarks_listing h, remarks_statementsListing h ss]

end

/-- The comments of a class are those that are due at the sites of its statements. -/
theorem remarks_subroutinesListing (h : ctx.options.annotates = true) (fields : Nat)
    (labels : LabelSupply) (start : Nat) (ss : List SubroutineDec) :
    remarks start (subroutinesListing ctx fields labels ss) =
      (subroutinesSites ctx fields labels start ss).filterMap (·.remark? ctx.source) := by
  induction ss generalizing labels start with
  | nil => rfl
  | cons s ss ih =>
    simp [subroutinesListing, subroutinesSites,
      remarks_of_uncommented (s.uncommented_header ctx.className fields),
      remarks_statementsListing h, ih, Nat.add_assoc]

/-- The code of a statement starts with an instruction that is no comment. -/
theorem Statement.exists_head_listing (s : Statement) (ctx : CodeContext) (labels : LabelSupply) :
    ∃ i l, s.listing ctx labels = i :: l ∧ i.isComment = false := by
  have hhead {l l' : List Instruction} {i : Instruction} (hl : uncommented l = l)
      (hi : i.isComment = false) :
      ∃ j rest, l ++ i :: l' = j :: rest ∧ j.isComment = false := by
    cases l with
    | nil => exact ⟨i, l', rfl, hi⟩
    | cons j l =>
      exact ⟨j, _, rfl, by simpa using List.filter_eq_self.1 hl j List.mem_cons_self⟩
  cases s with
  | assign target index value =>
    cases index with
    | none =>
      rw [listing_assign]
      exact hhead (value.uncommented_listing ctx) rfl
    | some index =>
      rw [listing_assign]
      exact ⟨_, _, rfl, rfl⟩
  | ifThen condition =>
    rw [listing_ifThen]
    exact hhead (condition.uncommented_listing ctx) rfl
  | ifElse condition =>
    rw [listing_ifElse]
    exact hhead (condition.uncommented_listing ctx) rfl
  | whileLoop condition =>
    rw [listing_whileLoop]
    exact ⟨_, _, rfl, rfl⟩
  | doCall call =>
    rw [listing_doCall]
    exact hhead (call.uncommented_listing ctx) rfl
  | ret value =>
    rw [listing_ret]
    cases value with
    | none => exact ⟨_, _, rfl, rfl⟩
    | some value => exact hhead (value.uncommented_listing ctx) rfl

end Remarks

/-! ### Annotated code -/

/-- Code that occurs in a program occurs, without its comments, in the program without its
comments. -/
theorem OccursAt.uncommented {program l : List Instruction} {start : Nat}
    (h : OccursAt program start l) :
    OccursAt (uncommented program) (uncommented (program.take start)).length (uncommented l) := by
  obtain ⟨rest, hrest⟩ := h
  have hprogram : Jack.uncommented program =
      Jack.uncommented (program.take start) ++
        (Jack.uncommented l ++ Jack.uncommented rest) := by
    rw [← uncommented_append, ← uncommented_append, hrest, List.take_append_drop]
  rw [hprogram]
  exact ⟨Jack.uncommented rest, by rw [List.drop_left]⟩

/-- The code `annotated` is the code `plain` of a class with a comment for each statement.  The
comments show pieces of `source`. -/
structure ClassDec.Annotates (tree : ClassDec) (scope : Scope) (source : String)
    (options : Options) (annotated plain : List Instruction) : Prop where
  /-- Without its comments the annotated code is the plain code. -/
  uncommented_eq : uncommented annotated = plain
  /-- There is one comment for each statement of the class, in the order in which they start. -/
  words_eq : (remarks 0 annotated).map Prod.snd = tree.preorder.map (·.headline source)
  /-- The comments of the annotated code stand at the sites of the statements. -/
  remarks_eq : remarks 0 annotated =
    (tree.sites scope source options.annotating).filterMap (·.remark? source)
  /-- The statements that the sites begin with are those of the class, in the same order. -/
  heads_eq : (tree.sites scope source options.annotating).filterMap (·.statements.head?) =
    tree.preorder
  /-- Directly behind the comment of a statement the code of that statement begins, with an
  instruction that is no comment.  Where the annotated code has the comment, the plain code has the
  code of the same statement, with the same labels. -/
  code : ∀ b ∈ tree.sites scope source options.annotating, ∀ s ss, b.statements = s :: ss →
    (∃ i l, s.listing ⟨tree.name.text, options.annotating, source⟩ b.labels = i :: l ∧
      i.isComment = false ∧
      OccursAt annotated b.start (.comment (s.headline source) :: i :: l)) ∧
    OccursAt plain (uncommented (annotated.take b.start)).length
      (s.listing ⟨tree.name.text, options, source⟩ b.labels)

section Classes

variable {tree : ClassDec} {scope : Scope} {source source' : String} {options : Options}

theorem annotates_of_lower (h : options.annotates = false) {code : Code}
    (hcode : lower tree scope source options.annotating = .ok code) :
    tree.Annotates scope source options code.toList (uncommented code.toList) := by
  have hremarks : remarks 0 code.toList =
      (tree.sites scope source options.annotating).filterMap (·.remark? source) := by
    rw [(lower_eq_ok_iff.1 hcode).2]
    exact remarks_subroutinesListing rfl _ _ _ _
  have hheads : (tree.sites scope source options.annotating).filterMap (·.statements.head?) =
      tree.preorder := heads_subroutinesSites _ _ _
  refine ⟨rfl, ?words, hremarks, hheads, ?code⟩
  case words =>
    rw [hremarks, ← hheads, List.map_filterMap, List.map_filterMap]
    simp [Site.remark?, Function.comp_def]
  case code =>
    intro b hb s ss hstatements
    have hoccurs := occurs_of_mem_sites hcode hb
    rw [Site.listing, hstatements, statementsListing_cons] at hoccurs
    have hcomment : s.comment ⟨tree.name.text, options.annotating, source⟩ =
        [.comment (s.headline source)] := rfl
    rw [hcomment, ← List.append_assoc] at hoccurs
    have hown := hoccurs.left
    obtain ⟨i, l, hlisting, hi⟩ := s.exists_head_listing
      ⟨tree.name.text, options.annotating, source⟩ b.labels
    refine ⟨⟨i, l, hlisting, hi, hlisting ▸ hown⟩, ?_⟩
    have hplain : uncommented (s.listing ⟨tree.name.text, options.annotating, source⟩ b.labels) =
        s.listing ⟨tree.name.text, options, source⟩ b.labels :=
      (s.listing_annotating ⟨tree.name.text, options, source⟩ source b.labels).trans
        (s.uncommented_listing h b.labels)
    have hownPlain := hown.uncommented
    rw [uncommented_append, hplain] at hownPlain
    exact hownPlain

/-- Plain code depends neither on annotations nor on the source text. -/
theorem lower_plain_of_annotating (h : options.annotates = false) {code : Code}
    (hcode : lower tree scope source options.annotating = .ok code) :
    lower tree scope source' options = .ok (uncommented code.toList).toArray := by
  obtain ⟨hcheck, hlisting⟩ := lower_eq_ok_iff.1 hcode
  refine lower_eq_ok_iff.2 ⟨(checkSubroutines_annotating ..).symm.trans hcheck, ?_⟩
  rw [List.toList_toArray, hlisting]
  exact (subroutinesListing_annotating ⟨tree.name.text, options, source'⟩ source _ _ _).trans
    (uncommented_subroutinesListing h _ _ _)

/-- **Annotations never disturb the code.**  With annotations a class has code exactly if it has
code without them, and is refused with the same error otherwise.  The plain code does not depend on
the source text, and the annotated code adds to it one comment for each statement, in front of that
statement's own code. -/
theorem lower_annotating (tree : ClassDec) (scope : Scope) (source : String)
    (h : options.annotates = false) :
    (∃ e, lower tree scope source options.annotating = .error e ∧
      ∀ source', lower tree scope source' options = .error e) ∨
    ∃ annotated plain, lower tree scope source options.annotating = .ok annotated ∧
      (∀ source', lower tree scope source' options = .ok plain) ∧
      tree.Annotates scope source options annotated.toList plain.toList := by
  cases hcode : lower tree scope source options.annotating with
  | error e =>
    refine .inl ⟨e, rfl, fun source' => lower_eq_error_iff.2 ?_⟩
    rw [← checkSubroutines_annotating]
    exact lower_eq_error_iff.1 hcode
  | ok code =>
    refine .inr ⟨code, (uncommented code.toList).toArray, rfl, fun source' => ?_, ?_⟩
    · exact lower_plain_of_annotating h hcode
    · rw [List.toList_toArray]
      exact annotates_of_lower h hcode

end Classes

/-- The six statements of the class get these comments where there is no text to show. -/
theorem lower_annotating_countdown :
    ∃ annotated plain, lower Countdown.tree .empty "" Options.none.annotating = .ok annotated ∧
      lower Countdown.tree .empty "let n = 1;" .none = .ok plain ∧
      uncommented annotated.toList = plain.toList ∧
      remarks 0 annotated.toList = [(1, "whileStatement"), (8, "ifStatement"),
        (14, "letStatement"), (25, "doStatement"), (30, "letStatement"),
        (37, "returnStatement")] := by
  obtain ⟨e, he, -⟩ | ⟨annotated, plain, hannotated, hplain, h⟩ :=
    lower_annotating Countdown.tree .empty "" (show Options.none.annotates = false from rfl)
  · cases he
  · exact ⟨annotated, plain, hannotated, hplain _, h.uncommented_eq, h.remarks_eq.trans rfl⟩

end Jack

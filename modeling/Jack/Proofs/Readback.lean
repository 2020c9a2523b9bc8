import Jack.Proofs.OperandRange
import Jack.Proofs.Resolution
import Jack.Proofs.VmLines

/-!
# Reading VM code back

What the compiler prints can be read back: a VM file has one line for each instruction, and each
line is read as the instruction that it was printed for.

The names in the code of a unit come from its text, where the lexer takes only words for names, from
the library and, for the remainder, from the options.  The remarks quote whole statements, but the
blanks in them are collapsed, line feeds included.

* `Expr.printable_listing`, `printable_statementsListing` : the code of a tree is printable, if its
  names are words;
* `Lexed.namesAreWords` : the names that the lexer finds are words;
* `readback_of_compileUnit` : **the file of a compiled unit is read back as its code.**
-/

namespace Jack

/-! ### Words -/

theorem IsWord.append {text text' : String} (h : IsWord text) (h' : IsWord text') :
    IsWord (text ++ text') := by
  refine ⟨?_, ?_⟩
  · simp [h.1]
  · rw [String.toList_append]
    exact List.forall_mem_append.2 ⟨h.2, h'.2⟩

theorem isWord_qualified {className name : String} (h : IsWord className) (h' : IsWord name) :
    IsWord (qualified className name) :=
  (h.append (by decide)).append h'

theorem isWord_labelName (kind : LabelKind) (n : Nat) : IsWord (labelName kind n) := by
  have hstem : IsWord kind.stem := by cases kind <;> decide
  exact hstem.append (isWord_repr n)

/-! ### Comments -/

/-- Collapsing blanks leaves runs of characters that are not blank. -/
theorem isBlank_of_mem_wordsFrom {word : List Char} {done : List (List Char)} {cs : List Char}
    (hword : ∀ c ∈ word, isBlank c = false) (hdone : ∀ w ∈ done, ∀ c ∈ w, isBlank c = false) :
    ∀ w ∈ wordsFrom word done cs, ∀ c ∈ w, isBlank c = false := by
  -- The word that is being read joins the others when it ends.
  have hclose {word : List Char} {done : List (List Char)}
      (hword : ∀ c ∈ word, isBlank c = false) (hdone : ∀ w ∈ done, ∀ c ∈ w, isBlank c = false) :
      ∀ w ∈ (if word.isEmpty then done else word.reverse :: done), ∀ c ∈ w, isBlank c = false := by
    split
    · exact hdone
    · exact List.forall_mem_cons.2 ⟨fun c hc => hword c (List.mem_reverse.1 hc), hdone⟩
  induction cs generalizing word done with
  | nil =>
    intro w hw
    exact hclose hword hdone w (List.mem_reverse.1 hw)
  | cons c cs ih =>
    rw [wordsFrom]
    split
    · exact ih (List.forall_mem_nil _) (hclose hword hdone)
    · next hblank =>
      exact ih (List.forall_mem_cons.2 ⟨Bool.eq_false_iff.2 hblank, hword⟩) hdone

/-- A text with its blanks collapsed stays on one line. -/
theorem lineFeed_not_mem_collapseBlanks (text : String) : '\n' ∉ (collapseBlanks text).toList := by
  refine lineFeed_not_mem_intercalate fun w hw => ?_
  obtain ⟨cs, hcs, rfl⟩ := List.mem_map.1 hw
  intro hmem
  have hblank := isBlank_of_mem_wordsFrom (List.forall_mem_nil _) (List.forall_mem_nil _) cs hcs
    '\n' (by simpa using hmem)
  revert hblank
  decide

namespace Statement

/-- The comment of a statement stays on one line, whatever the source looks like. -/
theorem lineFeed_not_mem_headline (source : String) (s : Statement) :
    '\n' ∉ (s.headline source).toList := by
  have hrule : '\n' ∉ s.rule.text.toList := by
    cases s.rule <;> decide
  have hsuffix : '\n' ∉ s.headSuffix.toList := by
    cases s <;> simp [headSuffix]
  rw [headline]
  split
  · next text _ =>
    split
    · exact hrule
    · rw [String.toList_append, List.mem_append, not_or]
      exact ⟨lineFeed_not_mem_collapseBlanks text, hsuffix⟩
  · exact hrule

theorem printable_comment (ctx : CodeContext) (s : Statement) :
    ∀ i ∈ s.comment ctx, i.Printable := by
  rw [comment]
  split
  · exact List.forall_mem_singleton.2 (s.lineFeed_not_mem_headline ctx.source)
  · exact List.forall_mem_nil _

end Statement

/-! ### Names of a tree -/

/-- The names among the terminals are words. -/
def NamesAreWords (ws : List Terminal) : Prop := ∀ name, .identifier name ∈ ws → IsWord name

theorem NamesAreWords.mono {ws ws' : List Terminal} (h : NamesAreWords ws) (hsub : ws' ⊆ ws) :
    NamesAreWords ws' := fun name hname => h name (hsub hname)

/-- The types of the names, as far as they stand for variables, are words. -/
def TypesAreWords (names : List NameUse) : Prop :=
  ∀ n ∈ names, ∀ v, n.meaning = .declared v → IsWord v.type.text

theorem TypesAreWords.mono {names names' : List NameUse} (h : TypesAreWords names)
    (hsub : names' ⊆ names) : TypesAreWords names' := fun n hn => h n (hsub hn)

theorem TypeName.isWord_text {type : TypeName} (h : NamesAreWords [type.terminal]) :
    IsWord type.text := by
  cases type with
  | object className => exact h className (List.mem_singleton_self _)
  | _ => decide

/-- The names that the code of a tree takes from elsewhere are words. -/
structure CodeContext.Named (ctx : CodeContext) : Prop where
  /-- The class has a word for its name. -/
  className : IsWord ctx.className
  /-- So has the subroutine that computes remainders, if there is one. -/
  moduloRoutine : ∀ r ∈ ctx.options.moduloRoutine, IsWord r

/-! ### Expressions -/

section Expressions

variable {ctx : CodeContext} {kind : SubroutineKind}

theorem Call.isWord_owner {c : Call} (hctx : ctx.Named)
    (hnames : NamesAreWords (calleeTerminals c.receiver c.name))
    (htypes : TypesAreWords c.receiver.toList) : IsWord (c.owner ctx.className) := by
  obtain ⟨_ | receiver, callee, arguments, span⟩ := c
  · exact hctx.className
  · have hname : IsWord receiver.name := hnames _ (by simp [calleeTerminals])
    rw [owner]
    split
    · exact hctx.className
    · next r hr =>
      obtain rfl := Option.some.inj hr
      split
      · next v hv => exact htypes receiver (by simp) v hv
      · exact hname
      · exact hname

theorem Call.printable_instruction {c : Call} (hctx : ctx.Named)
    (hnames : NamesAreWords (calleeTerminals c.receiver c.name))
    (htypes : TypesAreWords c.receiver.toList) : (c.instruction ctx.className).Printable := by
  have hname : IsWord c.name.text := by
    refine hnames _ ?_
    cases c.receiver <;> simp [calleeTerminals]
  exact isWord_qualified (Call.isWord_owner hctx hnames htypes) hname

theorem Call.printable_receiverInstructions (c : Call) :
    ∀ i ∈ c.receiverInstructions, i.Printable := by
  obtain ⟨_ | ⟨name, span, v | _ | _⟩, callee, arguments, span'⟩ := c <;>
    simp [receiverInstructions, NameUse.pushed, Instruction.Printable]

theorem printable_stringListing (value : String) : ∀ i ∈ stringListing value, i.Printable := by
  intro i hi
  simp only [stringListing, appendCharacter, List.mem_append, List.mem_cons, List.not_mem_nil,
    or_false, List.mem_flatMap] at hi
  obtain (rfl | rfl) | ⟨c, -, rfl | rfl⟩ := hi
  · trivial
  · exact (by decide : IsWord "String.new")
  · trivial
  · exact (by decide : IsWord "String.appendChar")

theorem KeywordConstant.printable_instructions (k : KeywordConstant) (options : Options) :
    ∀ i ∈ k.instructions options, i.Printable := by
  cases k with
  | «true» =>
    rw [instructions]
    split <;> simp [Instruction.Printable]
  | _ => simp [instructions, Instruction.Printable]

theorem BinaryOp.printable_instruction {op : BinaryOp} {span : Span} (hctx : ctx.Named)
    (h : op.check ⟨kind, ctx.options⟩ span = .ok ()) : (op.instruction ctx.options).Printable := by
  cases op with
  | mul => exact (by decide : IsWord "Math.multiply")
  | div => exact (by decide : IsWord "Math.divide")
  | mod =>
    cases hroutine : ctx.options.moduloRoutine with
    | none => simp [check, hroutine] at h
    | some r =>
      rw [instruction, hroutine]
      exact hctx.moduloRoutine r hroutine
  | _ => trivial

mutual

/-- The code of an expression is printable, if the names in it are words. -/
theorem Expr.printable_listing (hctx : ctx.Named) : ∀ e : Expr,
    e.check ⟨kind, ctx.options⟩ = .ok () → NamesAreWords e.terminals → TypesAreWords e.nameUses →
      ∀ i ∈ e.listing ctx, i.Printable
  | ⟨head, tail, _⟩, hcheck, hnames, htypes => by
    simp only [Expr.check, Check.bind_eq_ok_iff] at hcheck
    rw [Expr.terminals] at hnames
    rw [Expr.nameUses] at htypes
    rw [Expr.listing_mk, List.forall_mem_append]
    exact ⟨head.printable_listing hctx hcheck.1 (hnames.mono (by simp)) (htypes.mono (by simp)),
      printable_tailListing hctx tail hcheck.2 (hnames.mono (by simp)) (htypes.mono (by simp))⟩

theorem printable_tailListing (hctx : ctx.Named) : ∀ tail : List (BinaryOp × Term),
    checkTail ⟨kind, ctx.options⟩ tail = .ok () → NamesAreWords (tailTerminals tail) →
      TypesAreWords (tailNameUses tail) → ∀ i ∈ tailListing ctx tail, i.Printable
  | [], _, _, _ => List.forall_mem_nil _
  | (op, t) :: tail, hcheck, hnames, htypes => by
    simp only [checkTail, Check.bind_eq_ok_iff] at hcheck
    rw [tailTerminals] at hnames
    rw [tailNameUses] at htypes
    rw [tailListing_cons, List.forall_mem_append, List.forall_mem_cons]
    refine ⟨?_, BinaryOp.printable_instruction hctx hcheck.2.1, ?_⟩
    · exact t.printable_listing hctx hcheck.1 (hnames.mono (by simp)) (htypes.mono (by simp))
    · exact printable_tailListing hctx tail hcheck.2.2 (hnames.mono (by simp))
        (htypes.mono (by simp))

theorem Term.printable_listing (hctx : ctx.Named) : ∀ t : Term,
    t.check ⟨kind, ctx.options⟩ = .ok () → NamesAreWords t.terminals → TypesAreWords t.nameUses →
      ∀ i ∈ t.listing ctx, i.Printable
  | .integer value _, _, _, _ => by
    rw [Term.listing_integer]
    exact List.forall_mem_singleton.2 trivial
  | .string value _, _, _, _ => by
    rw [Term.listing_string]
    exact printable_stringListing value
  | .keyword value _, _, _, _ => by
    rw [Term.listing_keyword]
    exact value.printable_instructions _
  | .var name, _, _, _ => by
    rw [Term.listing_var]
    exact List.forall_mem_singleton.2 trivial
  | .element array index, hcheck, hnames, htypes => by
    simp only [Term.check, Check.bind_eq_ok_iff] at hcheck
    rw [Term.terminals] at hnames
    rw [Term.nameUses] at htypes
    have hindex := index.printable_listing hctx hcheck.2
      (hnames.mono fun w hw => by simp [hw]) (htypes.mono fun n hn => by simp [hn])
    rw [Term.listing_element, List.forall_mem_cons, List.forall_mem_append]
    exact ⟨trivial, hindex, by simp [Instruction.Printable]⟩
  | .call call, hcheck, hnames, htypes => by
    rw [Term.check] at hcheck
    rw [Term.terminals] at hnames
    rw [Term.nameUses] at htypes
    rw [Term.listing_call]
    exact call.printable_listing hctx hcheck hnames htypes
  | .group inner _, hcheck, hnames, htypes => by
    rw [Term.check] at hcheck
    rw [Term.terminals] at hnames
    rw [Term.nameUses] at htypes
    rw [Term.listing_group]
    exact inner.printable_listing hctx hcheck (hnames.mono (by simp)) htypes
  | .unary op operand _, hcheck, hnames, htypes => by
    rw [Term.check] at hcheck
    rw [Term.terminals] at hnames
    rw [Term.nameUses] at htypes
    rw [Term.listing_unary, List.forall_mem_append]
    exact ⟨operand.printable_listing hctx hcheck (hnames.mono (by simp)) htypes,
      List.forall_mem_singleton.2 trivial⟩

theorem Call.printable_listing (hctx : ctx.Named) : ∀ c : Call,
    c.check ⟨kind, ctx.options⟩ = .ok () → NamesAreWords c.terminals → TypesAreWords c.nameUses →
      ∀ i ∈ c.listing ctx, i.Printable
  | ⟨receiver, name, arguments, span⟩, hcheck, hnames, htypes => by
    simp only [Call.check, Check.bind_eq_ok_iff] at hcheck
    rw [Call.terminals] at hnames
    rw [Call.nameUses] at htypes
    have harguments := printable_argumentsListing hctx arguments hcheck.2.2
      (fun ws hws => hnames.mono fun w hw => by simp [subset_withCommas hws hw])
      (htypes.mono (by simp))
    rw [Call.listing_eq, List.forall_mem_append, List.forall_mem_append, List.forall_mem_singleton]
    exact ⟨Call.printable_receiverInstructions _, harguments,
      Call.printable_instruction hctx (hnames.mono (by simp)) (htypes.mono (by simp))⟩

theorem printable_argumentsListing (hctx : ctx.Named) : ∀ es : List Expr,
    checkArguments ⟨kind, ctx.options⟩ es = .ok () →
      (∀ ws ∈ argumentsTerminals es, NamesAreWords ws) → TypesAreWords (argumentsNameUses es) →
        ∀ i ∈ argumentsListing ctx es, i.Printable
  | [], _, _, _ => List.forall_mem_nil _
  | e :: es, hcheck, hnames, htypes => by
    simp only [checkArguments, Check.bind_eq_ok_iff] at hcheck
    rw [argumentsTerminals, List.forall_mem_cons] at hnames
    rw [argumentsNameUses] at htypes
    rw [argumentsListing_cons, List.forall_mem_append]
    exact ⟨e.printable_listing hctx hcheck.1 hnames.1 (htypes.mono (by simp)),
      printable_argumentsListing hctx es hcheck.2 hnames.2 (htypes.mono (by simp))⟩

end

end Expressions

/-! ### Statements and classes -/

section Statements

variable {ctx : CodeContext} {kind : SubroutineKind}

theorem printable_assignListing {target : NameUse} {index : Option Expr} {value : Expr}
    (hindex : ∀ e ∈ index, ∀ i ∈ e.listing ctx, i.Printable)
    (hvalue : ∀ i ∈ value.listing ctx, i.Printable) :
    ∀ i ∈ assignListing ctx target index value, i.Printable := by
  cases index with
  | none =>
    rw [assignListing, List.forall_mem_append]
    exact ⟨hvalue, List.forall_mem_singleton.2 trivial⟩
  | some index =>
    simp only [assignListing, List.forall_mem_append, List.forall_mem_cons]
    exact ⟨trivial, hindex index rfl, trivial, hvalue, trivial, trivial, trivial, trivial,
      List.forall_mem_nil _⟩

theorem printable_returnListing {value : Option Expr}
    (hvalue : ∀ e ∈ value, ∀ i ∈ e.listing ctx, i.Printable) :
    ∀ i ∈ returnListing ctx value, i.Printable := by
  cases value with
  | none => simp [returnListing, Instruction.Printable]
  | some value =>
    rw [returnListing, List.forall_mem_append]
    exact ⟨hvalue value rfl, List.forall_mem_singleton.2 trivial⟩

/-- The code of an expression that may be missing. -/
theorem printable_option (hctx : ctx.Named) {value : Option Expr}
    (hcheck : checkOption ⟨kind, ctx.options⟩ value = .ok ())
    (hnames : ∀ e ∈ value, NamesAreWords e.terminals) (htypes : TypesAreWords (optionNameUses value)) :
    ∀ e ∈ value, ∀ i ∈ e.listing ctx, i.Printable := by
  rintro e rfl
  exact e.printable_listing hctx hcheck (hnames e rfl) htypes

mutual

theorem Statement.printable_listing (hctx : ctx.Named) : ∀ (s : Statement) (labels : LabelSupply),
    s.check ⟨kind, ctx.options⟩ = .ok () → NamesAreWords s.terminals → TypesAreWords s.nameUses →
      ∀ i ∈ s.listing ctx labels, i.Printable
  | .assign target index value _, labels, hcheck, hnames, htypes => by
    simp only [Statement.check, Check.bind_eq_ok_iff] at hcheck
    rw [Statement.terminals] at hnames
    rw [Statement.nameUses] at htypes
    rw [Statement.listing_assign]
    refine printable_assignListing
      (printable_option hctx hcheck.2.1 ?_ (htypes.mono fun n hn => by simp [hn]))
      (value.printable_listing hctx hcheck.2.2 (hnames.mono fun w hw => by simp [hw])
        (htypes.mono fun n hn => by simp [hn]))
    rintro e rfl
    exact hnames.mono fun w hw => by simp [indexTerminals, hw]
  | .ifThen condition body _, labels, hcheck, hnames, htypes => by
    simp only [Statement.check, Check.bind_eq_ok_iff] at hcheck
    rw [Statement.terminals] at hnames
    rw [Statement.nameUses] at htypes
    have hcondition := condition.printable_listing hctx hcheck.1
      (hnames.mono fun w hw => by simp [hw]) (htypes.mono (by simp))
    have hbody := printable_statementsListing hctx body ((labels.bump .ifFalse).bump .ifEnd)
      hcheck.2 (hnames.mono fun w hw => by simp [hw]) (htypes.mono (by simp))
    simp only [Statement.listing_ifThen, List.forall_mem_append, List.forall_mem_cons]
    exact ⟨hcondition, trivial, isWord_labelName _ _, hbody, isWord_labelName _ _,
      List.forall_mem_nil _⟩
  | .ifElse condition thenBody elseBody _, labels, hcheck, hnames, htypes => by
    simp only [Statement.check, Check.bind_eq_ok_iff] at hcheck
    rw [Statement.terminals] at hnames
    rw [Statement.nameUses] at htypes
    have hcondition := condition.printable_listing hctx hcheck.1
      (hnames.mono fun w hw => by simp [hw]) (htypes.mono (by simp))
    have hthen := printable_statementsListing hctx thenBody ((labels.bump .ifFalse).bump .ifEnd)
      hcheck.2.1 (hnames.mono fun w hw => by simp [hw]) (htypes.mono fun n hn => by simp [hn])
    have helse := printable_statementsListing hctx elseBody
      (statementsLabelsAfter thenBody ((labels.bump .ifFalse).bump .ifEnd))
      hcheck.2.2 (hnames.mono fun w hw => by simp [hw]) (htypes.mono fun n hn => by simp [hn])
    simp only [Statement.listing_ifElse, List.forall_mem_append, List.forall_mem_cons]
    exact ⟨hcondition, trivial, isWord_labelName _ _, hthen, isWord_labelName _ _,
      isWord_labelName _ _, helse, isWord_labelName _ _, List.forall_mem_nil _⟩
  | .whileLoop condition body _, labels, hcheck, hnames, htypes => by
    simp only [Statement.check, Check.bind_eq_ok_iff] at hcheck
    rw [Statement.terminals] at hnames
    rw [Statement.nameUses] at htypes
    have hcondition := condition.printable_listing hctx hcheck.1
      (hnames.mono fun w hw => by simp [hw]) (htypes.mono (by simp))
    have hbody := printable_statementsListing hctx body ((labels.bump .whileStart).bump .whileEnd)
      hcheck.2 (hnames.mono fun w hw => by simp [hw]) (htypes.mono (by simp))
    simp only [Statement.listing_whileLoop, List.forall_mem_append, List.forall_mem_cons]
    exact ⟨isWord_labelName _ _, hcondition, trivial, isWord_labelName _ _, hbody,
      isWord_labelName _ _, isWord_labelName _ _, List.forall_mem_nil _⟩
  | .doCall call _, labels, hcheck, hnames, htypes => by
    rw [Statement.check] at hcheck
    rw [Statement.terminals] at hnames
    rw [Statement.nameUses] at htypes
    rw [Statement.listing_doCall, List.forall_mem_append]
    exact ⟨call.printable_listing hctx hcheck (hnames.mono (by simp)) htypes,
      List.forall_mem_singleton.2 trivial⟩
  | .ret value _, labels, hcheck, hnames, htypes => by
    rw [Statement.check] at hcheck
    rw [Statement.terminals] at hnames
    rw [Statement.nameUses] at htypes
    rw [Statement.listing_ret]
    refine printable_returnListing (printable_option hctx hcheck ?_ htypes)
    rintro e rfl
    exact hnames.mono (by simp [valueTerminals])

/-- The code of statements is printable, if the names in them are words. -/
theorem printable_statementsListing (hctx : ctx.Named) :
    ∀ (ss : List Statement) (labels : LabelSupply),
      checkStatements ⟨kind, ctx.options⟩ ss = .ok () →
        NamesAreWords (statementsTerminals ss) → TypesAreWords (statementsNameUses ss) →
          ∀ i ∈ statementsListing ctx labels ss, i.Printable
  | [], labels, _, _, _ => by
    rw [statementsListing_nil]
    exact List.forall_mem_nil _
  | s :: ss, labels, hcheck, hnames, htypes => by
    simp only [checkStatements, Check.bind_eq_ok_iff] at hcheck
    rw [statementsTerminals] at hnames
    rw [statementsNameUses] at htypes
    rw [statementsListing_cons, List.forall_mem_append, List.forall_mem_append]
    exact ⟨s.printable_comment ctx,
      s.printable_listing hctx labels hcheck.1 (hnames.mono (by simp)) (htypes.mono (by simp)),
      printable_statementsListing hctx ss _ hcheck.2 (hnames.mono (by simp))
        (htypes.mono (by simp))⟩

end

theorem SubroutineDec.printable_header (hctx : ctx.Named) (fields : Nat) {s : SubroutineDec}
    (hname : IsWord s.name.text) : ∀ i ∈ s.header ctx.className fields, i.Printable := by
  refine List.forall_mem_cons.2 ⟨isWord_qualified hctx.className hname, ?_⟩
  have halloc : IsWord "Memory.alloc" := by decide
  cases s.kind <;> simp [SubroutineKind.prologue, Instruction.Printable, halloc]

/-- The code of subroutines is printable, if the names in them are words. -/
theorem printable_subroutinesListing (hctx : ctx.Named) {fields : Nat} {subs : List SubroutineDec}
    {labels : LabelSupply} (hcheck : checkSubroutines ctx.options fields subs = .ok ())
    (hnames : ∀ s ∈ subs, NamesAreWords s.terminals)
    (htypes : ∀ s ∈ subs, TypesAreWords (statementsNameUses s.statements)) :
    ∀ i ∈ subroutinesListing ctx fields labels subs, i.Printable := by
  induction subs generalizing labels with
  | nil => exact List.forall_mem_nil _
  | cons s ss ih =>
    have hstatements := checkStatements_of_checkSubroutines hcheck List.mem_cons_self
    simp only [checkSubroutines, Check.bind_eq_ok_iff] at hcheck
    rw [List.forall_mem_cons] at hnames htypes
    have hname : IsWord s.name.text := hnames.1 _ (by simp [SubroutineDec.terminals])
    have hbody := printable_statementsListing hctx s.statements labels hstatements
      (hnames.1.mono fun w hw => by simp [SubroutineDec.terminals, hw]) htypes.1
    rw [subroutinesListing, List.forall_mem_append, List.forall_mem_append]
    exact ⟨s.printable_header hctx fields hname, hbody, ih hcheck.2 hnames.2 htypes.2⟩

end Statements

/-! ### Declared types -/

theorem isWord_type_of_declarationsOf {type : TypeName} {storage : Storage} {names : List Ident}
    {ws : List Terminal} (h : NamesAreWords ws) (htype : type.terminal ∈ ws) :
    ∀ d ∈ declarationsOf type storage names, IsWord d.type.text := by
  intro d hd
  obtain ⟨name, -, rfl⟩ := List.mem_map.1 hd
  exact TypeName.isWord_text (h.mono (List.cons_subset.2 ⟨htype, List.nil_subset _⟩))

theorem ClassDec.isWord_type_of_mem_declarations {c : ClassDec} (h : NamesAreWords c.terminals) :
    ∀ d ∈ c.declarations, IsWord d.type.text := by
  intro d hd
  obtain ⟨e, he, hd⟩ := List.mem_flatMap.1 hd
  have hsub : e.terminals ⊆ c.terminals := fun w hw => by
    simp only [terminals, List.mem_cons, List.mem_append, List.mem_flatMap]
    exact .inr (.inr (.inr (.inl ⟨e, he, hw⟩)))
  exact isWord_type_of_declarationsOf (h.mono hsub) (by simp [ClassVarDec.terminals]) d hd

theorem SubroutineDec.isWord_type_of_mem_declarations {className : String} {s : SubroutineDec}
    (hclass : IsWord className) (h : NamesAreWords s.terminals) :
    ∀ d ∈ s.declarations className, IsWord d.type.text := by
  refine List.forall_mem_append.2 ⟨List.forall_mem_append.2 ⟨fun d hd => ?_, fun d hd => ?_⟩,
    fun d hd => ?_⟩
  · -- The object of a method has the class for its type.
    cases hkind : s.kind with
    | method =>
      rw [hkind] at hd
      rw [List.mem_singleton.1 hd]
      exact hclass
    | constructor | function =>
      rw [hkind] at hd
      cases hd
  · obtain ⟨p, hp, rfl⟩ := List.mem_map.1 hd
    have hpiece : p.terminals ⊆ withCommas (s.parameters.map Parameter.terminals) :=
      subset_withCommas (List.mem_map_of_mem hp)
    refine TypeName.isWord_text (h.mono (List.cons_subset.2 ⟨?_, List.nil_subset _⟩))
    have hmem := hpiece (List.mem_cons_self : p.type.terminal ∈ p.terminals)
    simp [terminals, hmem]
  · obtain ⟨e, he, hd⟩ := List.mem_flatMap.1 hd
    have hsub : e.terminals ⊆ s.terminals := fun w hw => by
      simp only [terminals, List.mem_cons, List.mem_append, List.mem_flatMap]
      exact .inr (.inr (.inr (.inr (.inr (.inr (.inr (.inl ⟨e, he, hw⟩)))))))
    exact isWord_type_of_declarationsOf (h.mono hsub) (by simp [VarDec.terminals]) d hd

/-- The variables of a lexically scoped class have words for their types. -/
theorem LexicallyScoped.typesAreWords {parsed : ParsedClass} (hscoped : LexicallyScoped parsed)
    (h : NamesAreWords parsed.tree.terminals) {s : SubroutineDec} (hs : s ∈ parsed.tree.subroutines)
    (hsub : NamesAreWords s.terminals) : TypesAreWords (statementsNameUses s.statements) := by
  intro n hn v hv
  have hclass : IsWord parsed.tree.name.text := h _ (by simp [ClassDec.terminals])
  rw [hscoped.meaning_eq s hs n hn, SubroutineDec.meaning] at hv
  split at hv
  · next v' hfind =>
    obtain rfl := Meaning.declared.inj hv
    rcases List.mem_append.1 (List.mem_of_find?_eq_some hfind) with hmem | hmem
    · rw [← s.numbered_declarations] at hmem
      obtain ⟨d, hd, index, rfl⟩ := exists_declaration_of_mem_numbered hmem
      exact SubroutineDec.isWord_type_of_mem_declarations hclass hsub d hd
    · obtain ⟨d, hd, index, rfl⟩ := exists_declaration_of_mem_numbered hmem
      exact ClassDec.isWord_type_of_mem_declarations h d hd
  · split at hv <;> cases hv

/-! ### Units -/

/-- The names that the lexer finds are words. -/
theorem Lexed.isWord_identifier {n : Nat} {cs : List Char} {tokens : List Token}
    (h : Lexed n cs tokens) : ∀ t ∈ tokens, t.kind = .identifier → IsWord t.text := by
  induction h with
  | finished => exact List.forall_mem_nil _
  | token _ hlexeme _ ih =>
    refine List.forall_mem_cons.2 ⟨fun hkind => ?_, ih⟩
    cases hlexeme with
    | identifier hstart hrun =>
      refine ⟨by simp, ?_⟩
      rw [String.toList_ofList, List.forall_mem_cons]
      exact ⟨isBlank_of_inWord hstart.inWord, fun c hc => isBlank_of_inWord (hrun c hc)⟩
    | keyword k => cases hkind
    | integer => cases hkind
    | string => cases hkind
    | symbol => cases hkind

theorem namesAreWords_of_spells {tokens : List Token} {ws : List Terminal}
    (hspells : List.Forall₂ Token.Spells tokens ws)
    (h : ∀ t ∈ tokens, t.kind = .identifier → IsWord t.text) : NamesAreWords ws := by
  intro name hname
  induction hspells with
  | nil => cases hname
  | cons ht _ ih =>
    rw [List.forall_mem_cons] at h
    rcases List.mem_cons.1 hname with rfl | hname
    · exact ht.2 ▸ h.1 ht.1
    · exact ih h.2 hname

/-- The code of a compiled unit is printable. -/
theorem printable_of_compileUnit {name text : String} {options : Options}
    {compiled : CompiledClass} (hmodulo : ∀ r ∈ options.moduloRoutine, IsWord r)
    (h : compileUnit name text options = .ok compiled) : ∀ i ∈ compiled.code, i.Printable := by
  obtain ⟨tokens, parsed, htokens, hparsed, hlower⟩ := compile_eq_ok (compile_of_compileUnit h)
  obtain ⟨hcheck, hcode⟩ := lower_eq_ok_iff.1 hlower
  have hnames : NamesAreWords parsed.tree.terminals :=
    namesAreWords_of_spells (spells_of_parse hparsed)
      (lexed_of_tokenize htokens).isWord_identifier
  have hsubroutines : ∀ s ∈ parsed.tree.subroutines, NamesAreWords s.terminals := by
    intro s hs
    refine hnames.mono fun w hw => ?_
    simp only [ClassDec.terminals, List.mem_cons, List.mem_append, List.mem_flatMap]
    exact .inr (.inr (.inr (.inr (.inl ⟨s, hs, hw⟩))))
  have hctx : CodeContext.Named ⟨parsed.tree.name.text, options, text⟩ :=
    ⟨hnames _ (by simp [ClassDec.terminals]), hmodulo⟩
  intro i hi
  rw [← Array.mem_toList_iff, hcode] at hi
  have hscoped := lexicallyScoped_of_parse hparsed
  exact printable_subroutinesListing hctx hcheck hsubroutines
    (fun s hs => hscoped.typesAreWords hnames hs (hsubroutines s hs)) i hi

/-- **The file of a compiled unit is read back as its code**, if the subroutine that computes
remainders has a word for its name, as far as there is one.  Cut at its line feeds, the file has one
line for each instruction and nothing behind the last line feed; each line is read as the
instruction that it was printed for; and no other code has the same file. -/
theorem readback_of_compileUnit {name text : String} {options : Options}
    {compiled : CompiledClass} (hmodulo : ∀ r ∈ options.moduloRoutine, IsWord r)
    (h : compileUnit name text options = .ok compiled) :
    compiled.vmText.toList.splitOn '\n' = compiled.lines.map String.toList ++ [[]] ∧
      (compiled.lines.map fun line => Instruction.ofLine? line.toList) =
        compiled.code.toList.map some ∧
      ∀ (name' text' : String) (options' : Options) (compiled' : CompiledClass),
        (∀ r ∈ options'.moduloRoutine, IsWord r) →
          compileUnit name' text' options' = .ok compiled' → compiled'.code ≠ compiled.code →
            compiled'.vmText ≠ compiled.vmText := by
  have hprintable := printable_of_compileUnit hmodulo h
  refine ⟨CompiledClass.splitOn_vmText hprintable, CompiledClass.map_ofLine?_lines hprintable, ?_⟩
  intro name' text' options' compiled' hmodulo' h' hne heq
  exact hne (CompiledClass.code_eq_of_vmText_eq (printable_of_compileUnit hmodulo' h') hprintable heq)

/-- A class whose statements take more than one line, with comments, a string and blanks of many
kinds inside. -/
def ledgerText : String :=
  "class Ledger \x7b function int rest(int a, int b) \x7b\n  if (a > // first\n  b) \x7b\n" ++
    " let\ta = a\r\n % b; do Output.printString(\"a  // b\"); \x7d return\u2003a; \x7d \x7d"

/-- Statements are shown, and remainders have a subroutine. -/
def ledgerOptions : Options := ⟨some true, none, some "Math.mod"⟩

theorem readback_of_compileUnit_ledger :
    (∀ r ∈ ledgerOptions.moduloRoutine, IsWord r) ∧
      ∃ compiled, compileUnit "Ledger" ledgerText ledgerOptions = .ok compiled ∧
        compiled.vmText.toList.splitOn '\n' = compiled.lines.map String.toList ++ [[]] ∧
          (compiled.lines.map fun line => Instruction.ofLine? line.toList) =
            compiled.code.toList.map some ∧
          ∀ (name' text' : String) (options' : Options) (compiled' : CompiledClass),
            (∀ r ∈ options'.moduloRoutine, IsWord r) →
              compileUnit name' text' options' = .ok compiled' → compiled'.code ≠ compiled.code →
                compiled'.vmText ≠ compiled.vmText := by
  have hmodulo : ∀ r ∈ ledgerOptions.moduloRoutine, IsWord r := by
    rintro r ⟨⟩
    decide
  have hok : (compileUnit "Ledger" ledgerText ledgerOptions).toOption.isSome = true := by
    decide +kernel
  obtain ⟨compiled, h⟩ := exists_eq_ok hok
  exact ⟨hmodulo, compiled, h, readback_of_compileUnit hmodulo h⟩

end Jack

import Jack.Compile
import Jack.Proofs.Declarations
import Jack.Proofs.Routine

/-!
# Operands of compiled code

Compiled code reads and writes only what its unit declares.  A subroutine has an extent, the number
of variables of each storage class that it can name, and every operand of its code lies inside
(`Instruction.Within`).

* `declared_of_checkStatements` : the checks let statements assign to variables only;
* `OfStatements.within` : the operands of statements lie inside the extent, if their names do;
* `operands_of_compileUnit` : the operands of all routines of a compiled unit do.
-/

namespace Jack

/-! ### Targets of assignments -/

theorem NameUse.declared_of_check {n : NameUse} (h : n.check = .ok ()) :
    ∃ v, n.meaning = .declared v := by
  rw [check] at h
  split at h
  · next v hv => exact ⟨v, hv⟩
  · cases h
  · cases h

section Targets

variable {ctx : BodyContext}

mutual

theorem Statement.declared_of_check : ∀ (s : Statement), s.check ctx = .ok () →
    ∀ n ∈ s.targets, ∃ v, n.meaning = .declared v
  | .assign target index value _, h => by
    simp only [Statement.check, Check.bind_eq_ok_iff] at h
    exact List.forall_mem_singleton.2 (NameUse.declared_of_check h.1)
  | .ifThen condition body _, h | .whileLoop condition body _, h => by
    simp only [Statement.check, Check.bind_eq_ok_iff] at h
    exact declared_of_checkStatements body h.2
  | .ifElse condition thenBody elseBody _, h => by
    simp only [Statement.check, Check.bind_eq_ok_iff] at h
    exact List.forall_mem_append.2 ⟨declared_of_checkStatements thenBody h.2.1,
      declared_of_checkStatements elseBody h.2.2⟩
  | .doCall _ _, _ | .ret _ _, _ => by simp [Statement.targets]

/-- Statements that pass the checks assign to variables only. -/
theorem declared_of_checkStatements : ∀ (ss : List Statement), checkStatements ctx ss = .ok () →
    ∀ n ∈ statementsTargets ss, ∃ v, n.meaning = .declared v
  | [], _ => by simp [statementsTargets]
  | s :: ss, h => by
    simp only [checkStatements, Check.bind_eq_ok_iff] at h
    exact List.forall_mem_append.2 ⟨s.declared_of_check h.1, declared_of_checkStatements ss h.2⟩

end

mutual

theorem Statement.targets_subset : ∀ s : Statement, s.targets ⊆ s.nameUses
  | .assign target index value _ => by simp [Statement.targets, Statement.nameUses]
  | .ifThen _ body _ | .whileLoop _ body _ =>
    List.subset_append_of_subset_right _ (statementsTargets_subset body)
  | .ifElse _ thenBody elseBody _ =>
    List.subset_append_of_subset_right _ (List.append_subset.2
      ⟨List.subset_append_of_subset_left _ (statementsTargets_subset thenBody),
        List.subset_append_of_subset_right _ (statementsTargets_subset elseBody)⟩)
  | .doCall _ _ | .ret _ _ => by simp [Statement.targets]

theorem statementsTargets_subset : ∀ ss : List Statement,
    statementsTargets ss ⊆ statementsNameUses ss
  | [] => by simp [statementsTargets]
  | s :: ss => List.append_subset.2
      ⟨List.subset_append_of_subset_left _ s.targets_subset,
        List.subset_append_of_subset_right _ (statementsTargets_subset ss)⟩

end

theorem checkStatements_of_checkSubroutines {options : Options} {fields : Nat}
    {subs : List SubroutineDec} (h : checkSubroutines options fields subs = .ok ())
    {s : SubroutineDec} (hs : s ∈ subs) :
    checkStatements ⟨s.kind, options⟩ s.statements = .ok () := by
  induction subs with
  | nil => cases hs
  | cons s' ss ih =>
    simp only [checkSubroutines, Check.bind_eq_ok_iff] at h
    rcases List.mem_cons.1 hs with rfl | hs
    · have hcheck := h.1
      simp only [SubroutineDec.check, Check.bind_eq_ok_iff] at hcheck
      split at hcheck
      · exact (Check.bind_eq_ok_iff.1 hcheck.2).2
      · exact hcheck.2
    · exact ih h.2 hs

end Targets

/-! ### Extents -/

/-- The segment has the index, where there are so many variables of each storage class. -/
def Segment.Admits (extent : Storage → Nat) : Segment → Nat → Prop
  | .localVar, i => i < extent .localVar
  | .argument, i => i < extent .argument
  | .this, i => i < extent .field
  | .static, i => i < extent .static
  | .pointer, i => i = 0 ∨ i = 1
  | .temp, i | .that, i => i = 0
  | .constant, _ => True

/-- The operand of the instruction lies inside the extent, and is no constant if it is popped
into. -/
def Instruction.Within (extent : Storage → Nat) : Instruction → Prop
  | .push segment i => segment.Admits extent i
  | .pop segment i => segment ≠ .constant ∧ segment.Admits extent i
  | _ => True

/-- The names stand for variables inside the extent, as far as they stand for variables. -/
def NamesWithin (extent : Storage → Nat) (names : List NameUse) : Prop :=
  ∀ n ∈ names, ∀ v, n.meaning = .declared v → v.index < extent v.storage

section Within

variable {extent : Storage → Nat} {names targets : List NameUse}

theorem Segment.admits_ofStorage {storage : Storage} {i : Nat} (h : i < extent storage) :
    (ofStorage storage).Admits extent i := by
  cases storage <;> exact h

theorem Segment.ofStorage_ne_constant (storage : Storage) : ofStorage storage ≠ .constant := by
  cases storage <;> decide

theorem NamesWithin.pushed (h : NamesWithin extent names) {n : NameUse} (hn : n ∈ names) :
    n.pushed.Within extent := by
  rw [NameUse.pushed, NameUse.operand]
  split
  · next v hv => exact Segment.admits_ofStorage (h n hn v hv)
  · trivial
  · trivial

theorem NamesWithin.popped (h : NamesWithin extent names) {n : NameUse} (hn : n ∈ names)
    (hdeclared : ∃ v, n.meaning = .declared v) : n.popped.Within extent := by
  obtain ⟨v, hv⟩ := hdeclared
  rw [NameUse.popped, NameUse.operand, hv]
  exact ⟨Segment.ofStorage_ne_constant _, Segment.admits_ofStorage (h n hn v hv)⟩

theorem OfExpression.within (h : NamesWithin extent names) {i : Instruction}
    (hi : OfExpression names i) : i.Within extent := by
  cases hi with
  | constant n => trivial
  | pushed hn => exact h.pushed hn
  | object => exact .inl rfl
  | address => exact ⟨by decide, .inr rfl⟩
  | element => exact rfl
  | op o => trivial
  | call name n => trivial

/-- The operands of statements lie inside the extent, if their names do and they assign to variables
only. -/
theorem OfStatements.within (h : NamesWithin extent names) (hsub : targets ⊆ names)
    (hdeclared : ∀ n ∈ targets, ∃ v, n.meaning = .declared v) {i : Instruction}
    (hi : OfStatements names targets i) : i.Within extent := by
  cases hi with
  | expression hi => exact hi.within h
  | popped hn => exact h.popped (hsub hn) (hdeclared _ hn)
  | putAside => exact ⟨by decide, rfl⟩
  | takeBack => exact rfl
  | store => exact ⟨by decide, rfl⟩
  | label name => trivial
  | goto name => trivial
  | ifGoto name => trivial
  | ret => trivial
  | comment words => trivial

end Within

/-! ### Routines -/

/-- The code of a subroutine keeps to what the subroutine and its class declare. -/
structure RoutineWithin (tree : ClassDec) (routine : List Instruction) (s : SubroutineDec) :
    Prop where
  /-- The header line gives the number of local variables. -/
  header : ∃ name, routine.head? = some (.function name (s.extent tree .localVar))
  /-- All operands lie inside the extent of the subroutine. -/
  within : ∀ i ∈ routine, i.Within (s.extent tree)
  /-- A constructor allocates a word for each field. -/
  allocates : s.kind = .constructor → ∃ rest, routine.tail =
    .push .constant (s.extent tree .field) :: .call "Memory.alloc" 1 :: .pop .pointer 0 :: rest

theorem within_of_mem_header {ctx : CodeContext} {fields : Nat} {tree : ClassDec}
    {s : SubroutineDec} {i : Instruction} (hi : i ∈ s.header ctx.className fields) :
    i.Within (s.extent tree) := by
  rw [SubroutineDec.header] at hi
  cases hkind : s.kind <;>
    simp only [hkind, SubroutineKind.prologue, List.mem_cons, List.not_mem_nil, or_false] at hi
  · rcases hi with rfl | rfl | rfl | rfl
    · trivial
    · trivial
    · trivial
    · exact ⟨by decide, .inl rfl⟩
  · exact hi ▸ trivial
  · rcases hi with rfl | rfl | rfl
    · trivial
    · -- The object of a method is its first argument, so there is one.
      simp [Instruction.Within, Segment.Admits, SubroutineDec.extent, hkind]
    · exact ⟨by decide, .inl rfl⟩

theorem routineWithin_listing {ctx : CodeContext} {tree : ClassDec} {s : SubroutineDec}
    {scopes : Scopes} {options : Options} {labels : LabelSupply}
    (hindexed : scopes.Indexed) (hcount : ∀ storage, scopes.count storage = s.extent tree storage)
    (hnames : Resolved scopes.resolve (statementsNameUses s.statements))
    (hcheck : checkStatements ⟨s.kind, options⟩ s.statements = .ok ()) :
    RoutineWithin tree (s.listing ctx (s.extent tree .field) labels) s := by
  have hwithin : NamesWithin (s.extent tree) (statementsNameUses s.statements) := by
    intro n hn v hv
    rw [← hcount]
    exact hindexed.lt_of_resolve ((hnames n hn).symm.trans hv)
  refine ⟨⟨_, rfl⟩, fun i hi => ?_, fun hkind => ?_⟩
  · rcases List.mem_append.1 hi with hi | hi
    · exact within_of_mem_header hi
    · exact (ofStatements_of_mem_statementsListing ctx _ _ i hi).within hwithin
        (statementsTargets_subset _) (declared_of_checkStatements _ hcheck)
  · rw [SubroutineDec.listing_eq_cons, hkind]
    exact ⟨_, rfl⟩

theorem compile_eq_ok {text : String} {options : Options} {compiled : CompiledClass}
    (h : compile text options = .ok compiled) :
    ∃ tokens parsed, tokenize text = .ok tokens ∧ parse tokens = .ok parsed ∧
      lower parsed.tree parsed.scope text options = .ok compiled.code := by
  simp only [compile, bind, Except.bind] at h
  split at h
  · cases h
  · next tokens htokens =>
    split at h
    · cases h
    · next parsed hparsed =>
      split at h
      · cases h
      · next code hcode =>
        obtain rfl := Except.ok.inj h
        exact ⟨tokens, parsed, htokens, hparsed, hcode⟩

theorem compile_of_compileUnit {name text : String} {options : Options} {compiled : CompiledClass}
    (h : compileUnit name text options = .ok compiled) : compile text options = .ok compiled := by
  rw [compileUnit] at h
  cases hc : compile text options with
  | error e => simp [hc, Except.mapError] at h
  | ok c => simpa [hc, Except.mapError] using h

/-- **The code of a compiled unit keeps to what the unit declares.** -/
theorem operands_of_compileUnit {name text : String} {options : Options}
    {compiled : CompiledClass} (h : compileUnit name text options = .ok compiled) :
    ∃ tokens parsed, tokenize text = .ok tokens ∧ parse tokens = .ok parsed ∧
      List.Forall₂ (RoutineWithin parsed.tree) (routines compiled.code.toList)
        parsed.tree.subroutines := by
  obtain ⟨tokens, parsed, htokens, hparsed, hlower⟩ := compile_eq_ok (compile_of_compileUnit h)
  refine ⟨tokens, parsed, htokens, hparsed, ?_⟩
  obtain ⟨hfields, hscoped⟩ := wellScoped_of_parse hparsed
  have hcheck := (lower_eq_ok_iff.1 hlower).1
  have hwithin : ∀ s ∈ parsed.tree.subroutines, ∀ labels, RoutineWithin parsed.tree
      (s.listing ⟨parsed.tree.name.text, options, text⟩ (parsed.scope.count .field) labels) s := by
    intro s hs labels
    obtain ⟨scopes, hindexed, hcount, hnames⟩ := hscoped s hs
    rw [hfields]
    exact routineWithin_listing hindexed hcount hnames
      (checkStatements_of_checkSubroutines hcheck hs)
  -- Each routine is the listing of its subroutine with some labels, whatever those are.
  have hall := (List.forall₂_and_left _ _).2 ⟨hwithin, (routines_of_lower hlower).flip⟩
  exact hall.flip.imp fun routine s ⟨hs, labels, hroutine⟩ => hroutine ▸ hs labels

/-- A class with a field, a constructor with a parameter, and a method with a local variable. -/
def cellText : String :=
  "class Cell \x7b field int x; constructor Cell new(int a) \x7b let x = a; return this; \x7d" ++
    "  method int sum(int d) \x7b var int t; let t = x + d; return t; \x7d \x7d"

theorem operands_of_compileUnit_cell :
    ∃ compiled, compileUnit "Cell" cellText .none = .ok compiled ∧
      ∃ tokens parsed, tokenize cellText = .ok tokens ∧ parse tokens = .ok parsed ∧
        List.Forall₂ (RoutineWithin parsed.tree) (routines compiled.code.toList)
          parsed.tree.subroutines := by
  have hok : (compileUnit "Cell" cellText .none).toOption.isSome = true := by decide +kernel
  obtain ⟨compiled, h⟩ := exists_eq_ok hok
  exact ⟨compiled, h, operands_of_compileUnit h⟩

end Jack

import Jack.Compile
import Jack.Proofs.LexicalGrammar

/-!
# Reading lines of VM code

The text of a VM file is cut at its line feeds, and each line is read by the grammar of the machine:
a word for what to do, then segments, names and numerals, with one blank between two of them, or a
remark behind two slashes.  `Instruction.ofLine?` reads a line.

It reads back what was printed, as long as the names of the instruction are words and its remark
stays on the line (`Instruction.Printable`).

* `Instruction.ofLine?_text` : the line of an instruction is read as the instruction;
* `CompiledClass.splitOn_vmText` : a VM file consists of the lines of its instructions, each with a
  line feed after it.
-/

namespace Jack

/-! ### The grammar of a line -/

/-- The text is a word: it is not empty, and nothing in it is blank. -/
def IsWord (text : String) : Prop := text.toList ≠ [] ∧ ∀ c ∈ text.toList, isBlank c = false

-- `List.decidableBAll` by name: an instance search may go through all characters instead.
instance (text : String) : Decidable (IsWord text) :=
  @instDecidableAnd (text.toList ≠ []) _ _ (List.decidableBAll _ _)

/-- The name that a field of a line holds. -/
def vmName? (field : String) : Option String := if IsWord field then some field else none

/-- The number that a field of a line holds. -/
def numeral? (field : String) : Option Nat :=
  if field.toList ≠ [] ∧ field.toList.all Char.isDigit then some (decimalValue field.toList)
  else none

/-- All segments. -/
def Segment.all : List Segment :=
  [.constant, .argument, .localVar, .static, .this, .that, .pointer, .temp]

/-- The segment of a name. -/
def Segment.ofText? (text : String) : Option Segment := all.find? fun s => s.text == text

/-- The operation of a word. -/
def StackOp.ofText? (text : String) : Option StackOp := all.find? fun o => o.text == text

@[simp] theorem Segment.ofText?_text (s : Segment) : ofText? s.text = some s := by
  cases s <;> decide

@[simp] theorem StackOp.ofText?_text (o : StackOp) : ofText? o.text = some o := by
  cases o <;> decide

namespace Instruction

/-- The instruction that the fields of a line make. -/
def ofFields? : List String → Option Instruction
  | ["push", segment, index] => do return .push (← Segment.ofText? segment) (← numeral? index)
  | ["pop", segment, index] => do return .pop (← Segment.ofText? segment) (← numeral? index)
  | ["label", name] => (vmName? name).map .label
  | ["goto", name] => (vmName? name).map .goto
  | ["if-goto", name] => (vmName? name).map .ifGoto
  | ["function", name, locals] => do return .function (← vmName? name) (← numeral? locals)
  | ["call", name, arguments] => do return .call (← vmName? name) (← numeral? arguments)
  | ["return"] => some .ret
  | [operation] => (StackOp.ofText? operation).map .op
  | _ => none

/-- The instruction that a line of VM code stands for. -/
def ofLine? (line : List Char) : Option Instruction :=
  match line with
  | '/' :: '/' :: ' ' :: words => some (.comment (String.ofList words))
  | _ => ofFields? ((line.splitOnP isBlank).map String.ofList)

/-- The names of the instruction are words, and its remark does not leave the line. -/
def Printable : Instruction → Prop
  | label name | goto name | ifGoto name | function name _ | call name _ => IsWord name
  | comment words => '\n' ∉ words.toList
  | push .. | pop .. | op _ | ret => True

/-- The fields of the line of an instruction that is no remark. -/
def fields : Instruction → List String
  | push segment index => ["push", segment.text, toString index]
  | pop segment index => ["pop", segment.text, toString index]
  | op operation => [operation.text]
  | label name => ["label", name]
  | goto name => ["goto", name]
  | ifGoto name => ["if-goto", name]
  | function name locals => ["function", name, toString locals]
  | call name arguments => ["call", name, toString arguments]
  | ret => ["return"]
  | comment _ => []

end Instruction

/-! ### Words and numerals -/

theorem isWord_segment (s : Segment) : IsWord s.text := by cases s <;> decide

theorem isWord_stackOp (o : StackOp) : IsWord o.text := by cases o <;> decide

theorem isDigit_of_mem_repr {n : Nat} {c : Char} (h : c ∈ n.repr.toList) : c.isDigit = true := by
  rw [Nat.toList_repr] at h
  exact Nat.isDigit_of_mem_toDigits (by decide) (by decide) h

theorem toList_repr_ne_nil (n : Nat) : n.repr.toList ≠ [] := by
  rw [Nat.toList_repr]
  exact Nat.toDigits_ne_nil

theorem isWord_repr (n : Nat) : IsWord n.repr :=
  ⟨toList_repr_ne_nil n, fun _ hc => isBlank_of_isDigit (isDigit_of_mem_repr hc)⟩

@[simp] theorem numeral?_repr (n : Nat) : numeral? n.repr = some n := by
  have hdigits : n.repr.toList.all Char.isDigit = true :=
    List.all_eq_true.2 fun c hc => isDigit_of_mem_repr hc
  rw [numeral?, if_pos ⟨toList_repr_ne_nil n, hdigits⟩, Nat.toList_repr, decimalValue_toDigits]

theorem vmName?_eq_some {name : String} (h : IsWord name) : vmName? name = some name := if_pos h

theorem IsWord.lineFeed_not_mem {text : String} (h : IsWord text) : '\n' ∉ text.toList := by
  intro hmem
  have hblank := h.2 _ hmem
  revert hblank
  decide

/-! ### Lines -/

/-- Words with one blank between two of them are told apart at the blanks. -/
theorem splitOnP_intercalate {fields : List String} (hne : fields ≠ [])
    (h : ∀ f ∈ fields, IsWord f) :
    ((" ".intercalate fields).toList.splitOnP isBlank).map String.ofList = fields := by
  induction fields with
  | nil => exact absurd rfl hne
  | cons f fields ih =>
    rw [List.forall_mem_cons] at h
    cases fields with
    | nil => simp [List.splitOnP_eq_singleton h.1.2]
    | cons g fields =>
      have hrest := ih (List.cons_ne_nil g fields) h.2
      have hline : (" ".intercalate (f :: g :: fields)).toList =
          f.toList ++ ' ' :: (" ".intercalate (g :: fields)).toList := by
        simp [String.intercalate_cons_cons]
      rw [hline, List.splitOnP_append_cons_of_forall_mem h.1.2 ' ' (by decide), List.map_cons,
        hrest, String.ofList_toList]

theorem lineFeed_not_mem_intercalate {words : List String} (h : ∀ w ∈ words, '\n' ∉ w.toList) :
    '\n' ∉ (" ".intercalate words).toList := by
  induction words with
  | nil => simp
  | cons w words ih =>
    rw [List.forall_mem_cons] at h
    cases words with
    | nil => simpa using h.1
    | cons w' words =>
      have hrest := ih h.2
      rw [String.intercalate_cons_cons, String.toList_append, String.toList_append,
        List.mem_append, List.mem_append, not_or, not_or]
      exact ⟨⟨h.1, by decide⟩, hrest⟩

namespace Instruction

variable {i : Instruction}

theorem text_eq_intercalate (h : i.fields ≠ []) : i.text = " ".intercalate i.fields := by
  refine String.toList_inj.1 ?_
  cases i <;> simp [text, fields, String.intercalate_cons_cons] at h ⊢

theorem isWord_of_mem_fields (h : i.Printable) : ∀ f ∈ i.fields, IsWord f := by
  cases i with
  | push segment index | pop segment index =>
    simp only [fields, List.forall_mem_cons]
    exact ⟨by decide, isWord_segment segment, isWord_repr index, List.forall_mem_nil _⟩
  | op operation => exact List.forall_mem_singleton.2 (isWord_stackOp operation)
  | label name | goto name | ifGoto name =>
    simp only [fields, List.forall_mem_cons]
    exact ⟨by decide, h, List.forall_mem_nil _⟩
  | function name n | call name n =>
    simp only [fields, List.forall_mem_cons]
    exact ⟨by decide, h, isWord_repr n, List.forall_mem_nil _⟩
  | ret => exact List.forall_mem_singleton.2 (by decide)
  | comment words => exact List.forall_mem_nil _

theorem ofFields?_fields (h : i.Printable) (hne : i.fields ≠ []) :
    ofFields? i.fields = some i := by
  cases i with
  | push segment index | pop segment index => simp [fields, ofFields?]
  | op operation => cases operation <;> decide
  | label name | goto name | ifGoto name => simp [fields, ofFields?, vmName?_eq_some h]
  | function name n | call name n => simp [fields, ofFields?, vmName?_eq_some h]
  | ret => rfl
  | comment words => exact absurd rfl hne

/-- A line that does not start with a slash holds no remark. -/
theorem ofLine?_of_head? {line : List Char} (h : line.head? ≠ some '/') :
    ofLine? line = ofFields? ((line.splitOnP isBlank).map String.ofList) := by
  unfold ofLine?
  split
  · simp at h
  · rfl

theorem head?_text_ne_slash (h : i.fields ≠ []) : i.text.toList.head? ≠ some '/' := by
  cases i with
  | op operation => cases operation <;> decide
  | comment words => exact absurd rfl h
  | _ => simp [text]

/-- **The line of an instruction is read as the instruction.** -/
theorem ofLine?_text (h : i.Printable) : ofLine? i.text.toList = some i := by
  by_cases hfields : i.fields = []
  · cases i with
    | comment words => simp [text, ofLine?]
    | _ => cases hfields
  · rw [ofLine?_of_head? (head?_text_ne_slash hfields), text_eq_intercalate hfields,
      splitOnP_intercalate hfields (isWord_of_mem_fields h), ofFields?_fields h hfields]

/-- An instruction is printed on one line. -/
theorem lineFeed_not_mem_text (h : i.Printable) : '\n' ∉ i.text.toList := by
  by_cases hfields : i.fields = []
  · cases i with
    | comment words =>
      have hwords : '\n' ∉ words.toList := h
      simp [text, hwords]
    | _ => cases hfields
  · rw [text_eq_intercalate hfields]
    exact lineFeed_not_mem_intercalate fun f hf => (isWord_of_mem_fields h f hf).lineFeed_not_mem

end Instruction

/-! ### Files -/

/-- A VM file consists of the lines of its instructions, each with a line feed after it. -/
theorem CompiledClass.toList_vmText (c : CompiledClass) :
    c.vmText.toList = c.code.toList.flatMap fun i => i.text.toList ++ ['\n'] := by
  have hfold : ∀ (code : List Instruction) (text : String),
      (code.foldl (fun text i => text ++ i.text ++ "\n") text).toList =
        text.toList ++ code.flatMap fun i => i.text.toList ++ ['\n'] := by
    intro code
    induction code with
    | nil => simp
    | cons i code ih =>
      intro text
      simp [ih]
  rw [vmText, ← Array.foldl_toList, hfold]
  simp

/-- Lines with a line feed after each are told apart at the line feeds. -/
theorem splitOn_flatMap_lineFeed {code : List Instruction} (h : ∀ i ∈ code, i.Printable) :
    (code.flatMap fun i => i.text.toList ++ ['\n']).splitOn '\n' =
      code.map (·.text.toList) ++ [[]] := by
  induction code with
  | nil => rfl
  | cons i code ih =>
    rw [List.forall_mem_cons] at h
    have hline := i.lineFeed_not_mem_text h.1
    rw [List.flatMap_cons, List.append_assoc, List.singleton_append,
      List.splitOn_append_cons_self_of_not_mem hline, ih h.2]
    rfl

/-- **A VM file consists of the lines of its instructions**, with nothing behind the last line
feed. -/
theorem CompiledClass.splitOn_vmText {c : CompiledClass} (h : ∀ i ∈ c.code, i.Printable) :
    c.vmText.toList.splitOn '\n' = c.lines.map String.toList ++ [[]] := by
  rw [toList_vmText, splitOn_flatMap_lineFeed fun i hi => h i (Array.mem_toList_iff.1 hi), lines,
    List.map_map]
  rfl

/-- Each line of a VM file is read as its instruction. -/
theorem CompiledClass.map_ofLine?_lines {c : CompiledClass} (h : ∀ i ∈ c.code, i.Printable) :
    (c.lines.map fun line => Instruction.ofLine? line.toList) = c.code.toList.map some := by
  rw [lines, List.map_map]
  exact List.map_congr_left fun i hi => Instruction.ofLine?_text (h i (Array.mem_toList_iff.1 hi))

/-- Code can be told from its file. -/
theorem CompiledClass.code_eq_of_vmText_eq {c c' : CompiledClass} (h : ∀ i ∈ c.code, i.Printable)
    (h' : ∀ i ∈ c'.code, i.Printable) (heq : c.vmText = c'.vmText) : c.code = c'.code := by
  have hsplit : c.lines.map String.toList ++ [[]] = c'.lines.map String.toList ++ [[]] := by
    rw [← splitOn_vmText h, ← splitOn_vmText h', heq]
  have hlines : c.lines = c'.lines :=
    (List.map_inj_right fun _ _ => String.toList_inj.1).1 (List.append_cancel_right hsplit)
  have hread : c.code.toList.map some = c'.code.toList.map some := by
    rw [← map_ofLine?_lines h, ← map_ofLine?_lines h', hlines]
  exact Array.toList_inj.1 ((List.map_inj_right fun _ _ => Option.some.inj).1 hread)

end Jack

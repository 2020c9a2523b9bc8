import Jack.Proofs.Site
import Mathlib.Logic.Function.Basic
import Mathlib.Logic.Relation

/-!
# The stack machine

A machine that runs the code of one subroutine: words of 16 bits, a stack, the segments of the
subroutine, and the heap and the static variables that all subroutines share.  What a call does is a
parameter, `Calls`: a function of the name, the arguments and what is shared, which leaves the
segments of the caller and its two pointers as they were.

* `MachineState.step` : the machine executes the instruction at its place in a program;
* `Reaches` : a run from one `Point` to another, whatever the scratch memory holds at its start;
* `Performs` : the same for code that is run through from its start to its end, wherever it stands.
-/

namespace Jack

/-! ### Words and memory -/

/-- A word of the machine. -/
abbrev Word := BitVec 16

namespace Word

/-- The word of all ones stands for truth, and zero for its opposite. -/
def ofBool (b : Bool) : Word := if b then BitVec.allOnes 16 else 0

/-- The word of a number. -/
def ofNat (n : Nat) : Word := BitVec.ofNat 16 n

end Word

/-- The memory that all subroutines share. -/
structure Globals where
  /-- The words of all objects and arrays, by their addresses. -/
  heap : Word → Word
  /-- The static variables of the class. -/
  statics : Nat → Word

/-- The memory that a running subroutine can name in its source. -/
structure Memory where
  /-- The local variables. -/
  locals : Nat → Word
  /-- The arguments. -/
  arguments : Nat → Word
  /-- The address of the current object. -/
  this : Word
  /-- What is shared with all other subroutines. -/
  globals : Globals

namespace Memory

/-- The word at an address. -/
def load (m : Memory) (address : Word) : Word := m.globals.heap address

/-- Puts a word at an address. -/
def store (m : Memory) (address value : Word) : Memory :=
  { m with globals := { m.globals with heap := Function.update m.globals.heap address value } }

/-- Sets a local variable. -/
def setLocal (m : Memory) (index : Nat) (value : Word) : Memory :=
  { m with locals := Function.update m.locals index value }

/-- Sets an argument. -/
def setArgument (m : Memory) (index : Nat) (value : Word) : Memory :=
  { m with arguments := Function.update m.arguments index value }

/-- Sets a static variable. -/
def setStatic (m : Memory) (index : Nat) (value : Word) : Memory :=
  { m with
    globals := { m.globals with statics := Function.update m.globals.statics index value } }

/-- The address of a field of the current object. -/
def fieldAddress (m : Memory) (index : Nat) : Word := m.this + Word.ofNat index

end Memory

/-- What the subroutines do that are called. -/
structure Calls where
  /-- The result of a call by name, arguments and shared memory, and what becomes of the latter. -/
  meaning : String → List Word → Globals → Word × Globals
  /-- What a call leaves in the scratch memory. -/
  scratch : String → List Word → Globals → (Nat → Word) → Nat → Word

/-- Calls a subroutine. -/
def Memory.call (calls : Calls) (m : Memory) (name : String) (arguments : List Word) :
    Word × Memory :=
  let (result, globals) := calls.meaning name arguments m.globals
  (result, { m with globals := globals })

/-! ### The machine -/

/-- A place in a program with a stack, its top first, and the memory of the subroutine. -/
structure Point where
  /-- The position of the next instruction. -/
  pc : Nat
  /-- The stack, its top first. -/
  stack : List Word
  /-- The memory of the subroutine. -/
  memory : Memory

/-- A state of the machine: a point, and what no source names. -/
structure MachineState extends Point where
  /-- The address that segment `that` begins at. -/
  that : Word
  /-- The scratch memory, segment `temp`. -/
  temp : Nat → Word

/-- The stack after an operation. -/
def StackOp.apply : StackOp → List Word → Option (List Word)
  | .neg, x :: stack => some (-x :: stack)
  | .not, x :: stack => some (~~~x :: stack)
  | .add, y :: x :: stack => some ((x + y) :: stack)
  | .sub, y :: x :: stack => some ((x - y) :: stack)
  | .and, y :: x :: stack => some ((x &&& y) :: stack)
  | .or, y :: x :: stack => some ((x ||| y) :: stack)
  | .eq, y :: x :: stack => some (Word.ofBool (x == y) :: stack)
  | .lt, y :: x :: stack => some (Word.ofBool (x.slt y) :: stack)
  | .gt, y :: x :: stack => some (Word.ofBool (y.slt x) :: stack)
  | _, _ => none

/-- The position of a label. -/
def labelPosition? (program : List Instruction) (name : String) : Option Nat :=
  program.findIdx? (· == .label name)

namespace MachineState

/-- The word at an index of a segment. -/
def read (s : MachineState) : Segment → Nat → Option Word
  | .constant, n => some (Word.ofNat n)
  | .argument, i => some (s.memory.arguments i)
  | .localVar, i => some (s.memory.locals i)
  | .static, i => some (s.memory.globals.statics i)
  | .this, i => some (s.memory.load (s.memory.fieldAddress i))
  | .that, i => some (s.memory.load (s.that + Word.ofNat i))
  | .pointer, 0 => some s.memory.this
  | .pointer, 1 => some s.that
  | .pointer, _ + 2 => none
  | .temp, i => some (s.temp i)

/-- Puts a word at an index of a segment. -/
def write (s : MachineState) (value : Word) : Segment → Nat → Option MachineState
  | .constant, _ => none
  | .argument, i => some { s with memory := s.memory.setArgument i value }
  | .localVar, i => some { s with memory := s.memory.setLocal i value }
  | .static, i => some { s with memory := s.memory.setStatic i value }
  | .this, i => some { s with memory := s.memory.store (s.memory.fieldAddress i) value }
  | .that, i => some { s with memory := s.memory.store (s.that + Word.ofNat i) value }
  | .pointer, 0 => some { s with memory := { s.memory with this := value } }
  | .pointer, 1 => some { s with that := value }
  | .pointer, _ + 2 => none
  | .temp, i => some { s with temp := Function.update s.temp i value }

/-- The machine goes on at the next instruction with a stack. -/
def next (s : MachineState) (stack : List Word) : MachineState :=
  { s with pc := s.pc + 1, stack := stack }

/-- Calls a subroutine on the topmost words, the last argument being on top. -/
def call (calls : Calls) (s : MachineState) (name : String) (n : Nat) : MachineState :=
  let arguments := (s.stack.take n).reverse
  let (result, memory) := s.memory.call calls name arguments
  { s.next (result :: s.stack.drop n) with
    memory := memory
    temp := calls.scratch name arguments s.memory.globals s.temp }

/-- Executes an instruction.  The run of a subroutine ends at a return and at the start of the next
subroutine. -/
def exec (calls : Calls) (program : List Instruction) (s : MachineState) :
    Instruction → Option MachineState
  | .push segment index => do
    let w ← s.read segment index
    return s.next (w :: s.stack)
  | .pop segment index =>
    match s.stack with
    | w :: stack => (s.next stack).write w segment index
    | [] => none
  | .op o => do
    let stack ← o.apply s.stack
    return s.next stack
  | .label _ | .comment _ => some (s.next s.stack)
  | .goto name => do
    let pc ← labelPosition? program name
    return { s with pc := pc }
  | .ifGoto name =>
    match s.stack with
    | w :: stack =>
      if w = 0 then some (s.next stack)
      else do
        let pc ← labelPosition? program name
        return { s with pc := pc, stack := stack }
    | [] => none
  | .call name n => if n ≤ s.stack.length then some (s.call calls name n) else none
  | .function _ _ | .ret => none

/-- Executes the instruction at the place of the machine. -/
def step (calls : Calls) (program : List Instruction) (s : MachineState) : Option MachineState := do
  s.exec calls program (← program[s.pc]?)

theorem step_eq {calls : Calls} {program : List Instruction} {s : MachineState} {i : Instruction}
    (hi : program[s.pc]? = some i) : s.step calls program = s.exec calls program i := by
  simp [step, hi]

end MachineState

/-! ### Runs -/

/-- Some steps of the machine. -/
def Steps (calls : Calls) (program : List Instruction) : MachineState → MachineState → Prop :=
  Relation.ReflTransGen fun s t => s.step calls program = some t

/-- The machine runs from one point to another, whatever it holds besides at the start. -/
def Reaches (calls : Calls) (program : List Instruction) (p q : Point) : Prop :=
  ∀ (that : Word) (temp : Nat → Word), ∃ (that' : Word) (temp' : Nat → Word),
    Steps calls program ⟨p, that, temp⟩ ⟨q, that', temp'⟩

namespace Reaches

variable {calls : Calls} {program : List Instruction} {p q r : Point} {pc : Nat}
  {stack : List Word} {m : Memory}

theorem refl : Reaches calls program p p := fun that temp => ⟨that, temp, .refl⟩

theorem trans (h : Reaches calls program p q) (h' : Reaches calls program q r) :
    Reaches calls program p r := by
  intro that temp
  obtain ⟨that', temp', hpq⟩ := h that temp
  obtain ⟨that'', temp'', hqr⟩ := h' that' temp'
  exact ⟨that'', temp'', Relation.ReflTransGen.trans hpq hqr⟩

/-- One step of the machine. -/
theorem of_exec {i : Instruction} (hi : program[p.pc]? = some i)
    (h : ∀ (that : Word) (temp : Nat → Word), ∃ (that' : Word) (temp' : Nat → Word),
      MachineState.exec calls program ⟨p, that, temp⟩ i = some ⟨q, that', temp'⟩) :
    Reaches calls program p q := by
  intro that temp
  obtain ⟨that', temp', hexec⟩ := h that temp
  refine ⟨that', temp', Relation.ReflTransGen.single ?_⟩
  rw [MachineState.step_eq hi, hexec]

theorem label {name : String} (hi : program[pc]? = some (.label name)) :
    Reaches calls program ⟨pc, stack, m⟩ ⟨pc + 1, stack, m⟩ :=
  of_exec hi fun that temp => ⟨that, temp, rfl⟩

theorem goto {name : String} {target : Nat} (hi : program[pc]? = some (.goto name))
    (ht : labelPosition? program name = some target) :
    Reaches calls program ⟨pc, stack, m⟩ ⟨target, stack, m⟩ :=
  of_exec hi fun that temp => ⟨that, temp, by simp [MachineState.exec, ht]⟩

/-- A conditional jump on zero falls through. -/
theorem ifGoto_zero {name : String} (hi : program[pc]? = some (.ifGoto name)) :
    Reaches calls program ⟨pc, 0 :: stack, m⟩ ⟨pc + 1, stack, m⟩ :=
  of_exec hi fun that temp => ⟨that, temp, by simp [MachineState.exec, MachineState.next]⟩

/-- A conditional jump on a word that is not zero. -/
theorem ifGoto {name : String} {target : Nat} {w : Word} (hi : program[pc]? = some (.ifGoto name))
    (ht : labelPosition? program name = some target) (hw : w ≠ 0) :
    Reaches calls program ⟨pc, w :: stack, m⟩ ⟨target, stack, m⟩ :=
  of_exec hi fun that temp => ⟨that, temp, (if_neg hw).trans (by simp [ht])⟩

end Reaches

/-- A label that a program defines once is found where it is. -/
theorem labelPosition?_eq {program : List Instruction} {name : String} {k : Nat}
    (hk : program[k]? = some (.label name))
    (hunique : ∀ k', program[k']? = some (.label name) → k' = k) :
    labelPosition? program name = some k := by
  have hmem : Instruction.label name ∈ program := List.mem_of_getElem? hk
  obtain ⟨k', hk'⟩ : ∃ k', labelPosition? program name = some k' :=
    ⟨_, List.findIdx?_eq_some_of_exists ⟨_, hmem, beq_self_eq_true _⟩⟩
  -- The search stops at some definition of the label, and there is only one.
  obtain ⟨hlt, hlabel, -⟩ := List.findIdx?_eq_some_iff_getElem.1 hk'
  rw [hk', hunique k' (by rw [List.getElem?_eq_getElem hlt, beq_iff_eq.1 hlabel])]

/-! ### Straight code -/

/-- Wherever the code stands in the program, the machine runs through it from one stack and memory
to others. -/
def Performs (calls : Calls) (program l : List Instruction) (stack : List Word) (m : Memory)
    (stack' : List Word) (m' : Memory) : Prop :=
  ∀ pc, OccursAt program pc l →
    Reaches calls program ⟨pc, stack, m⟩ ⟨pc + l.length, stack', m'⟩

namespace Performs

variable {calls : Calls} {program l l' : List Instruction} {stack stack' stack'' : List Word}
  {m m' m'' : Memory}

theorem nil : Performs calls program [] stack m stack m := fun _ _ => .refl

theorem append (h : Performs calls program l stack m stack' m')
    (h' : Performs calls program l' stack' m' stack'' m'') :
    Performs calls program (l ++ l') stack m stack'' m'' := by
  intro pc hcode
  rw [List.length_append, ← Nat.add_assoc]
  exact (h pc hcode.left).trans (h' _ hcode.right)

theorem cons {i : Instruction} (h : Performs calls program [i] stack m stack' m')
    (h' : Performs calls program l stack' m' stack'' m'') :
    Performs calls program (i :: l) stack m stack'' m'' :=
  append (l := [i]) h h'

/-- One instruction. -/
theorem of_exec {i : Instruction}
    (h : ∀ (pc : Nat) (that : Word) (temp : Nat → Word), ∃ (that' : Word) (temp' : Nat → Word),
      MachineState.exec calls program ⟨⟨pc, stack, m⟩, that, temp⟩ i =
        some ⟨⟨pc + 1, stack', m'⟩, that', temp'⟩) :
    Performs calls program [i] stack m stack' m' :=
  fun pc hcode => .of_exec hcode.head (h pc)

/-- Pushes a word that does not depend on what no source names. -/
theorem push {segment : Segment} {index : Nat} {w : Word}
    (hread : ∀ pc that temp,
      MachineState.read ⟨⟨pc, stack, m⟩, that, temp⟩ segment index = some w) :
    Performs calls program [.push segment index] stack m (w :: stack) m :=
  of_exec fun pc that temp => ⟨that, temp, by simp [MachineState.exec, hread, MachineState.next]⟩

theorem op {o : StackOp} (ho : o.apply stack = some stack') :
    Performs calls program [.op o] stack m stack' m :=
  of_exec fun pc that temp => ⟨that, temp, by simp [MachineState.exec, ho, MachineState.next]⟩

theorem comment {words : String} : Performs calls program [.comment words] stack m stack m :=
  of_exec fun _ that temp => ⟨that, temp, rfl⟩

/-- Calls on the words that have been pushed last, the first of them first. -/
theorem call {name : String} (arguments : List Word) {n : Nat} (hn : n = arguments.length) :
    Performs calls program [.call name n] (arguments.reverse ++ stack) m
      ((m.call calls name arguments).1 :: stack) (m.call calls name arguments).2 := by
  subst hn
  refine of_exec fun pc that temp => ⟨that, calls.scratch name arguments m.globals temp, ?_⟩
  simp [MachineState.exec, MachineState.call, MachineState.next, Memory.call]

/-- Drops a word. -/
theorem drop {w : Word} : Performs calls program [.pop .temp 0] (w :: stack) m stack m :=
  of_exec fun _ that temp => ⟨that, Function.update temp 0 w, rfl⟩

/-- Pushes the word at an address. -/
theorem element {address : Word} : Performs calls program [.pop .pointer 1, .push .that 0]
    (address :: stack) m (m.load address :: stack) m := by
  intro pc hcode that temp
  have hpop : MachineState.step calls program ⟨⟨pc, address :: stack, m⟩, that, temp⟩ =
      some ⟨⟨pc + 1, stack, m⟩, address, temp⟩ := by
    rw [MachineState.step_eq hcode.head]
    rfl
  have hpush : MachineState.step calls program ⟨⟨pc + 1, stack, m⟩, address, temp⟩ =
      some ⟨⟨pc + 2, m.load address :: stack, m⟩, address, temp⟩ := by
    rw [MachineState.step_eq hcode.tail.head]
    simp [MachineState.exec, MachineState.read, MachineState.next, Word.ofNat]
  exact ⟨address, temp, .head hpop (.single hpush)⟩

/-- Puts the word on top at the address below it.  The word waits in the scratch memory, and nothing
in between can change it there. -/
theorem store {address w : Word} :
    Performs calls program [.pop .temp 0, .pop .pointer 1, .push .temp 0, .pop .that 0]
      (w :: address :: stack) m stack (m.store address w) := by
  intro pc hcode that temp
  have hputAside :
      MachineState.step calls program ⟨⟨pc, w :: address :: stack, m⟩, that, temp⟩ =
        some ⟨⟨pc + 1, address :: stack, m⟩, that, Function.update temp 0 w⟩ := by
    rw [MachineState.step_eq hcode.head]
    rfl
  have haddress : MachineState.step calls program
      ⟨⟨pc + 1, address :: stack, m⟩, that, Function.update temp 0 w⟩ =
        some ⟨⟨pc + 2, stack, m⟩, address, Function.update temp 0 w⟩ := by
    rw [MachineState.step_eq hcode.tail.head]
    rfl
  have htakeBack : MachineState.step calls program
      ⟨⟨pc + 2, stack, m⟩, address, Function.update temp 0 w⟩ =
        some ⟨⟨pc + 3, w :: stack, m⟩, address, Function.update temp 0 w⟩ := by
    rw [MachineState.step_eq hcode.tail.tail.head]
    simp [MachineState.exec, MachineState.read, MachineState.next]
  have hstore : MachineState.step calls program
      ⟨⟨pc + 3, w :: stack, m⟩, address, Function.update temp 0 w⟩ =
        some ⟨⟨pc + 4, stack, m.store address w⟩, address, Function.update temp 0 w⟩ := by
    rw [MachineState.step_eq hcode.tail.tail.tail.head]
    simp [MachineState.exec, MachineState.write, MachineState.next, Word.ofNat]
  exact ⟨address, _, .head hputAside (.head haddress (.head htakeBack (.single hstore)))⟩

end Performs

end Jack

import IntelX86Kernel.ByteMemory

/-! The few instructions of a 32-bit x86 that hand-written switching code is made of, and runs
of code that lies at an address. Nothing here depends on a program. -/

namespace X86

inductive Reg where
  | eax | ecx | edx | ebx | esp | ebp | esi | edi
  deriving DecidableEq, Repr

/-- `load d base dst` is `movl d(base), dst`, `save src base d` is `movl src, d(base)`. -/
inductive Instr where
  | load (displacement : Word) (base dst : Reg)
  | save (src base : Reg) (displacement : Word)
  | push (src : Reg)
  | call (target : Word)
  | ret
  deriving DecidableEq, Repr

structure Machine where
  regs : Reg → Word
  eip : Word
  memory : Memory

/-- The code in memory: an instruction and the address after it. It is never written to. -/
abbrev Text := Word → Option (Instr × Word)

namespace Machine

def push (m : Machine) (v : Word) : Machine :=
  { m with
    regs := Function.update m.regs .esp (m.regs .esp - 4)
    memory := m.memory.write (m.regs .esp - 4) v }

def exec (m : Machine) (next : Word) : Instr → Machine
  | .load d base dst =>
      { m with eip := next, regs := Function.update m.regs dst (m.memory.read (m.regs base + d)) }
  | .save src base d =>
      { m with eip := next, memory := m.memory.write (m.regs base + d) (m.regs src) }
  | .push src => { m.push (m.regs src) with eip := next }
  | .call target => { m.push next with eip := target }
  | .ret =>
      { m with
        eip := m.memory.read (m.regs .esp)
        regs := Function.update m.regs .esp (m.regs .esp + 4) }

def step (text : Text) (m : Machine) : Option Machine :=
  (text m.eip).map fun found => m.exec found.2 found.1

def steps (text : Text) : Nat → Machine → Option Machine
  | 0, m => some m
  | n + 1, m => (m.step text).bind (steps text n)

end Machine

def Loaded (text : Text) (a : Word) : List Instr → Prop
  | [] => True
  | i :: rest => ∃ next, text a = some (i, next) ∧ Loaded text next rest

def Instr.Straight : Instr → Prop
  | .load .. | .save .. | .push _ => True
  | .call _ | .ret => False

def Machine.block (m : Machine) : List Instr → Machine
  | [] => m
  | i :: rest => block (m.exec m.eip i) rest

variable {text : Text} {m m' : Machine} {a : Word} {i : Instr} {code rest : List Instr} {n : Nat}

theorem Machine.steps_succ (stepped : m.step text = some m') :
    m.steps text (n + 1) = m'.steps text n := by
  rw [steps, stepped]
  rfl

theorem Machine.steps_add {k : Nat} :
    m.steps text (n + k) = (m.steps text n).bind (steps text k) := by
  induction n generalizing m with
  | zero => rw [Nat.zero_add, steps, Option.bind_some]
  | succ n ih =>
      rw [Nat.succ_add, steps, steps]
      cases stepped : m.step text with
      | none => rfl
      | some m' => exact ih

theorem Machine.exec_straight {next next' : Word} (straight : i.Straight) :
    { m with eip := next }.exec next' i = { m.exec m.eip i with eip := next' } := by
  cases i with
  | load | save | push => rfl
  | call | ret => cases straight

theorem Machine.block_eip {next : Word} (straight : ∀ i ∈ code, i.Straight) :
    { m with eip := next }.block code = { m.block code with eip := next } := by
  induction code generalizing m with
  | nil => rfl
  | cons i rest ih =>
      have later := ih (m := m.exec m.eip i) fun j member =>
        straight j (List.mem_cons_of_mem _ member)
      rw [block, block, exec_straight (straight i List.mem_cons_self), later]

theorem Loaded.block (straight : ∀ i ∈ code, i.Straight) (loaded : Loaded text m.eip (code ++ rest)) :
    ∃ next, m.steps text code.length = some { m.block code with eip := next } ∧
      Loaded text next rest := by
  induction code generalizing m with
  | nil => exact ⟨m.eip, rfl, loaded⟩
  | cons i code ih =>
      obtain ⟨next, here, loaded⟩ := loaded
      have first : m.step text = some { m.exec m.eip i with eip := next } := by
        rw [Machine.step, here, Option.map_some]
        exact congrArg some (Machine.exec_straight (straight i List.mem_cons_self))
      obtain ⟨last, run, behind⟩ :=
        ih (m := { m.exec m.eip i with eip := next })
          (fun j member => straight j (List.mem_cons_of_mem _ member)) loaded
      refine ⟨last, ?_, behind⟩
      rw [List.length_cons, Machine.steps_succ first, run,
        Machine.block_eip fun j member => straight j (List.mem_cons_of_mem _ member)]
      rfl

theorem Loaded.routine (straight : ∀ i ∈ code, i.Straight)
    (loaded : Loaded text m.eip (code ++ [i])) :
    ∃ next next', m.steps text (code.length + 1) =
      some ({ m.block code with eip := next }.exec next' i) := by
  obtain ⟨next, run, next', last, -⟩ := loaded.block straight
  refine ⟨next, next', ?_⟩
  rw [Machine.steps_add, run, Option.bind_some, Machine.steps, Machine.step]
  dsimp only
  rw [last]
  rfl

end X86

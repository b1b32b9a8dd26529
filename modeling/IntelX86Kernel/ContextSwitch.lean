import IntelX86Kernel.Machine
import IntelX86Kernel.StartCall
import IntelX86Kernel.Transition
import Mathlib.Data.List.Pairwise

/-! `ctx_sw`, `exit_handler`, and the stack and the context that `start` prepares. -/

namespace IntelX86Kernel

open X86 Transition

/-- ctx_sw.S up to its `ret`. -/
def ctxSwCode : List Instr :=
  [.load 4 .esp .eax,
    .save .ebx .eax 0,
    .save .esp .eax 4,
    .save .ebp .eax 8,
    .save .esi .eax 12,
    .save .edi .eax 16,
    .load 8 .esp .eax,
    .load 0 .eax .ebx,
    .load 4 .eax .esp,
    .load 8 .eax .ebp,
    .load 12 .eax .esi,
    .load 16 .eax .edi]

/-- exit.S up to its `call`. -/
def exitHandlerCode : List Instr := [.push .eax]

structure Image where
  text : Text
  ctxSw : Word
  exitHandler : Word
  exit : Word
  ctxSwLoaded : Loaded text ctxSw (ctxSwCode ++ [.ret])
  exitHandlerLoaded : Loaded text exitHandler (exitHandlerCode ++ [.call exit])

/-- What `ctx_sw` leaves in memory when it saves to the context at `old`. -/
def saved (m : Machine) (old : Word) : Memory :=
  ((((m.memory.write old (m.regs .ebx)).write (old + 4) (m.regs .esp)).write (old + 8)
    (m.regs .ebp)).write (old + 12) (m.regs .esi)).write (old + 16) (m.regs .edi)

/-- The registers that `ctx_sw` restores from the context at `new`, and its return. -/
structure Loads (m : Machine) (new : Word) : Prop where
  ebx : m.regs .ebx = m.memory.read new
  esp : m.regs .esp = m.memory.read (new + 4) + 4
  ebp : m.regs .ebp = m.memory.read (new + 8)
  esi : m.regs .esi = m.memory.read (new + 12)
  edi : m.regs .edi = m.memory.read (new + 16)
  eip : m.eip = m.memory.read (m.memory.read (new + 4))

theorem ctxSw_steps (image : Image) {m : Machine} (entry : m.eip = image.ctxSw) {old new : Word}
    (first : m.memory.read (m.regs .esp + 4) = old)
    (second : (saved m old).read (m.regs .esp + 8) = new) :
    ∃ m', m.steps image.text 13 = some m' ∧ m'.memory = saved m old ∧ Loads m' new := by
  have loaded := image.ctxSwLoaded
  rw [← entry] at loaded
  have straight : ∀ i ∈ ctxSwCode, i.Straight := by
    simp [ctxSwCode, Instr.Straight]
  obtain ⟨next, next', run⟩ := loaded.routine straight
  subst first second
  refine ⟨_, run, ?_, ?_⟩
  · simp [ctxSwCode, Machine.block, Machine.exec, saved, Function.update]
  · constructor <;> simp [ctxSwCode, Machine.block, Machine.exec, saved, Function.update]

theorem exitHandler_steps (image : Image) {m : Machine} (entry : m.eip = image.exitHandler)
    (room : Memory.Apart (m.regs .esp - 4 - 4) (m.regs .esp - 4)) :
    ∃ m' next, m.steps image.text 2 = some m' ∧ m'.eip = image.exit ∧
      m'.regs .esp = m.regs .esp - 4 - 4 ∧
      m'.memory.read (m'.regs .esp + 4) = m.regs .eax ∧
      m'.memory = (m.memory.write (m.regs .esp - 4) (m.regs .eax)).write
        (m.regs .esp - 4 - 4) next := by
  have loaded := image.exitHandlerLoaded
  rw [← entry] at loaded
  have straight : ∀ i ∈ exitHandlerCode, i.Straight := by
    simp [exitHandlerCode, Instr.Straight]
  obtain ⟨next, next', run⟩ := loaded.routine straight
  refine ⟨_, next', run, ?_, ?_, ?_, ?_⟩
  · rfl
  · simp [exitHandlerCode, Machine.block, Machine.exec, Machine.push, Function.update]
  · have place : m.regs .esp - 4 - 4 + 4 = m.regs .esp - 4 := BitVec.sub_add_cancel ..
    have kept := Memory.read_write_apart (m := m.memory.write (m.regs .esp - 4) (m.regs .eax))
      (v := next') room
    rw [Memory.read_write] at kept
    simpa [exitHandlerCode, Machine.block, Machine.exec, Machine.push, Function.update] using kept
  · simp [exitHandlerCode, Machine.block, Machine.exec, Machine.push, Function.update]

structure Task where
  context : Block
  stack : Block
  five : context.bytes = 20
  apart : context.Apart stack
  deriving DecidableEq

namespace Task

def Owns (t : Task) (a : Word) : Prop := t.context.Contains a ∨ t.stack.Contains a

instance ownsDecidable (t : Task) (a : Word) : Decidable (t.Owns a) :=
  inferInstanceAs (Decidable (_ ∨ _))

def Distinct (t u : Task) : Prop :=
  (t.context.Apart u.context ∧ t.context.Apart u.stack) ∧
    t.stack.Apart u.context ∧ t.stack.Apart u.stack

theorem Distinct.symm {t u : Task} (distinct : t.Distinct u) : u.Distinct t := by
  obtain ⟨⟨first, second⟩, third, fourth⟩ := distinct
  exact ⟨⟨first.symm, third.symm⟩, second.symm, fourth.symm⟩

instance distinctSymm : Std.Symm Distinct := ⟨fun _ _ => Distinct.symm⟩

theorem Distinct.outside {t u : Task} {a : Word} (distinct : t.Distinct u) (inside : t.Owns a) :
    ¬ u.Owns a := by
  obtain ⟨⟨first, second⟩, third, fourth⟩ := distinct
  rcases inside with context | stack
  · exact not_or.mpr ⟨first.outside context, second.outside context⟩
  · exact not_or.mpr ⟨third.outside stack, fourth.outside stack⟩

instance distinctDecidable (t u : Task) : Decidable (t.Distinct u) :=
  inferInstanceAs (Decidable (_ ∧ _))

/-- The four writes of `start` to a stack of `words` words and to `context[1]`. -/
def prepare (t : Task) (words : Nat) (exitHandler func arg : Word) (m : Memory) : Memory :=
  (((m.write (t.stack.word (words - 1)) arg).write (t.stack.word (words - 2)) exitHandler).write
    (t.stack.word (words - 3)) func).write (t.context.word 1) (t.stack.word (words - 3))

end Task

structure Computer where
  machine : Machine
  tasks : List Task
  running : Task

namespace Computer

/-- `work` is the code of the running process between two calls: any registers, any writes to
its own stack or outside the processes' contexts and stacks. -/
inductive Event where
  | work (regs : Reg → Word) (eip : Word) (writes : List (Word × BitVec 8))
  | start (ssize : Nat) (func arg : Word) (task : Task)
  | switch
  | reap (task : Task)

variable (image : Image) (c : Computer)

def MayWrite (a : Word) : Prop :=
  c.running.stack.Contains a ∨ ∀ t ∈ c.tasks, ¬ t.Owns a

def Unused (t : Task) : Prop := ∀ u ∈ c.tasks, t.Distinct u

def Calls : Prop :=
  c.machine.eip = image.ctxSw ∧ c.running.stack.Holds (c.machine.regs .esp) 12 ∧
    c.machine.memory.read (c.machine.regs .esp + 4) = c.running.context.base

instance mayWriteDecidable (a : Word) : Decidable (c.MayWrite a) :=
  inferInstanceAs (Decidable (_ ∨ _))

instance unusedDecidable (t : Task) : Decidable (c.Unused t) :=
  inferInstanceAs (Decidable (∀ u ∈ c.tasks, t.Distinct u))

instance callsDecidable : Decidable (c.Calls image) :=
  inferInstanceAs (Decidable (_ ∧ _))

def target : Option Task :=
  c.tasks.find? fun t =>
    decide (c.machine.memory.read (c.machine.regs .esp + 8) = t.context.base)

def step : Event → Except Unit (Computer × Unit)
  | .work regs eip writes =>
      if writes.all fun w => decide (c.MayWrite w.1) then
        .ok ({ c with machine := ⟨regs, eip, c.machine.memory.store writes⟩ }, ())
      else .error ()
  | .start ssize func arg task =>
      if (ssize + MIN_SSIZE < 2 ^ 32 ∧ 4 * realStackSize ssize ≤ task.stack.bytes) ∧
          c.Unused task then
        let memory :=
          task.prepare (realStackSize ssize) image.exitHandler func arg c.machine.memory
        .ok ({ c with machine := { c.machine with memory := memory },
                      tasks := task :: c.tasks }, ())
      else .error ()
  | .switch =>
      if c.Calls image then
        match c.target, c.machine.steps image.text 13 with
        | some next, some machine => .ok ({ c with machine := machine, running := next }, ())
        | _, _ => .error ()
      else .error ()
  | .reap task =>
      if task ≠ c.running then .ok ({ c with tasks := c.tasks.erase task }, ()) else .error ()

structure Separate (c : Computer) : Prop where
  running : c.running ∈ c.tasks
  distinct : c.tasks.Pairwise Task.Distinct

def Kept (p : Task) (m m' : Memory) : Prop := ∀ a, p.Owns a → m' a = m a

variable {image c} {c' : Computer} {p t u : Task} {e : Event} {m : Memory} {a : Word}

theorem Separate.apart (separate : c.Separate) (first : t ∈ c.tasks) (second : u ∈ c.tasks)
    (other : t ≠ u) : t.Distinct u :=
  separate.distinct.forall first second other

theorem store_outside {writes : List (Word × BitVec 8)} (outside : ∀ w ∈ writes, w.1 ≠ a) :
    m.store writes a = m a := by
  induction writes generalizing m with
  | nil => rfl
  | cons w rest ih =>
      rw [Memory.store, ih fun v member => outside v (List.mem_cons_of_mem _ member)]
      exact Function.update_of_ne (outside w List.mem_cons_self).symm _ _

theorem prepare_outside {words : Nat} {exitHandler func arg : Word}
    (bytes : 4 * words ≤ t.stack.bytes) (room : 3 ≤ words) (outside : ¬ t.Owns a) :
    t.prepare words exitHandler func arg m a = m a := by
  obtain ⟨context, stack⟩ := not_or.mp outside
  have five := t.five
  rw [Task.prepare, Block.write_outside (Block.holds_word (by omega)) context,
    Block.write_outside (Block.holds_word (by omega)) stack,
    Block.write_outside (Block.holds_word (by omega)) stack,
    Block.write_outside (Block.holds_word (by omega)) stack]

theorem saved_eq {machine : Machine} : saved machine t.context.base =
    ((((machine.memory.write (t.context.word 0) (machine.regs .ebx)).write (t.context.word 1)
      (machine.regs .esp)).write (t.context.word 2) (machine.regs .ebp)).write (t.context.word 3)
      (machine.regs .esi)).write (t.context.word 4) (machine.regs .edi) := by
  have zero : t.context.word 0 = t.context.base := BitVec.add_zero _
  rw [zero]
  rfl

theorem saved_outside {machine : Machine} (outside : ¬ t.context.Contains a) :
    saved machine t.context.base a = machine.memory a := by
  have five := t.five
  have inside (i : Nat) (small : i < 5) : t.context.Holds (t.context.word i) 4 :=
    Block.holds_word (by omega)
  rw [saved_eq, Block.write_outside (inside 4 (by decide)) outside,
    Block.write_outside (inside 3 (by decide)) outside,
    Block.write_outside (inside 2 (by decide)) outside,
    Block.write_outside (inside 1 (by decide)) outside,
    Block.write_outside (inside 0 (by decide)) outside]

theorem saved_words (machine : Machine) :
    (saved machine t.context.base).read (t.context.word 0) = machine.regs .ebx ∧
      (saved machine t.context.base).read (t.context.word 1) = machine.regs .esp ∧
      (saved machine t.context.base).read (t.context.word 2) = machine.regs .ebp ∧
      (saved machine t.context.base).read (t.context.word 3) = machine.regs .esi ∧
      (saved machine t.context.base).read (t.context.word 4) = machine.regs .edi := by
  have five := t.five
  have apart (i j : Nat) (first : i < 5) (second : j < 5) (other : i ≠ j) :
      Memory.Apart (t.context.word i) (t.context.word j) :=
    Block.words_apart (by omega) (by omega) other
  rw [saved_eq]
  refine ⟨?_, ?_, ?_, ?_, ?_⟩
  · rw [Memory.read_write_apart (apart 4 0 (by decide) (by decide) (by decide)),
      Memory.read_write_apart (apart 3 0 (by decide) (by decide) (by decide)),
      Memory.read_write_apart (apart 2 0 (by decide) (by decide) (by decide)),
      Memory.read_write_apart (apart 1 0 (by decide) (by decide) (by decide)), Memory.read_write]
  · rw [Memory.read_write_apart (apart 4 1 (by decide) (by decide) (by decide)),
      Memory.read_write_apart (apart 3 1 (by decide) (by decide) (by decide)),
      Memory.read_write_apart (apart 2 1 (by decide) (by decide) (by decide)), Memory.read_write]
  · rw [Memory.read_write_apart (apart 4 2 (by decide) (by decide) (by decide)),
      Memory.read_write_apart (apart 3 2 (by decide) (by decide) (by decide)), Memory.read_write]
  · rw [Memory.read_write_apart (apart 4 3 (by decide) (by decide) (by decide)),
      Memory.read_write]
  · rw [Memory.read_write]

theorem switch_eq (taken : c.step image .switch = .ok (c', ())) :
    ∃ next ∈ c.tasks, c.machine.eip = image.ctxSw ∧
      c.running.stack.Holds (c.machine.regs .esp) 12 ∧ c'.running = next ∧ c'.tasks = c.tasks ∧
      c'.machine.memory = saved c.machine c.running.context.base ∧
      Loads c'.machine next.context.base := by
  simp only [step] at taken
  split at taken
  · next calls =>
    obtain ⟨entry, frame, first⟩ := calls
    split at taken
    · next next machine found run =>
      unfold target at found
      have member := List.mem_of_find?_eq_some found
      have passes := List.find?_some found
      have second := of_decide_eq_true passes
      have kept : (saved c.machine c.running.context.base).read (c.machine.regs .esp + 8) =
          c.machine.memory.read (c.machine.regs .esp + 8) := by
        apply Block.read_congr (b := c.running.stack)
        · intro a inside
          exact saved_outside (c.running.apart.symm.outside inside)
        · exact frame.part (by decide) (by decide)
      obtain ⟨machine', run', memory, loads⟩ :=
        ctxSw_steps image entry first (kept.trans second)
      rw [run, Option.some.injEq] at run'
      subst run'
      rw [Except.ok.injEq, Prod.mk.injEq] at taken
      obtain ⟨rfl, -⟩ := taken
      exact ⟨next, member, entry, frame, rfl, rfl, memory, loads⟩
    · cases taken
  · cases taken

theorem Separate.step (separate : c.Separate) (taken : c.step image e = .ok (c', ())) :
    c'.Separate := by
  cases e with
  | work regs eip writes =>
      simp only [Computer.step] at taken
      split at taken
      · cases taken
        exact ⟨separate.running, separate.distinct⟩
      · cases taken
  | start ssize func arg task =>
      simp only [Computer.step] at taken
      split at taken
      · next fresh =>
        cases taken
        exact ⟨List.mem_cons_of_mem _ separate.running,
          List.pairwise_cons.mpr ⟨fresh.2, separate.distinct⟩⟩
      · cases taken
  | switch =>
      obtain ⟨next, member, -, -, running, tasks, -⟩ := switch_eq taken
      constructor
      · rw [running, tasks]
        exact member
      · rw [tasks]
        exact separate.distinct
  | reap task =>
      simp only [Computer.step] at taken
      split at taken
      · next other =>
        cases taken
        exact ⟨(List.mem_erase_of_ne other.symm).mpr separate.running,
          separate.distinct.sublist List.erase_sublist⟩
      · cases taken

theorem MayWrite.outside (separate : c.Separate) (member : p ∈ c.tasks) (other : c.running ≠ p)
    (may : c.MayWrite a) : ¬ p.Owns a := by
  rcases may with own | free
  · exact (separate.apart separate.running member other).outside (.inr own)
  · exact free p member

theorem step_keeps (separate : c.Separate) (member : p ∈ c.tasks) (other : c.running ≠ p)
    (taken : c.step image e = .ok (c', ())) : Kept p c.machine.memory c'.machine.memory := by
  intro a inside
  cases e with
  | work regs eip writes =>
      simp only [Computer.step] at taken
      split at taken
      · next allowed =>
        cases taken
        apply store_outside
        rintro w written rfl
        have may := of_decide_eq_true (List.all_eq_true.mp allowed w written)
        exact MayWrite.outside separate member other may inside
      · cases taken
  | start ssize func arg task =>
      simp only [Computer.step] at taken
      split at taken
      · next fresh =>
        cases taken
        have room : DEFAULT_SSIZE ≤ realStackSize ssize := Nat.le_max_right _ _
        rw [DEFAULT_SSIZE] at room
        exact prepare_outside fresh.1.2 (by omega) ((fresh.2 p member).symm.outside inside)
      · cases taken
  | switch =>
      obtain ⟨next, -, -, -, -, -, memory, -⟩ := switch_eq taken
      rw [memory]
      have foreign := (separate.apart member separate.running other.symm).outside inside
      exact saved_outside (not_or.mp foreign).1
  | reap task =>
      simp only [Computer.step] at taken
      split at taken
      · cases taken
        rfl
      · cases taken

theorem switch_of_running (other : c.running ≠ p) (back : c'.running = p)
    (taken : c.step image e = .ok (c', ())) : e = .switch := by
  cases e with
  | switch => rfl
  | work | start | reap =>
      simp only [Computer.step] at taken
      split at taken
      · cases taken
        exact absurd back other
      · cases taken

/-- A process has called `ctx_sw` in state `before` and is switched back to in `after`. -/
structure Resumes (p : Task) (before after : Machine) : Prop where
  ebx : after.regs .ebx = before.regs .ebx
  ebp : after.regs .ebp = before.regs .ebp
  esi : after.regs .esi = before.regs .esi
  edi : after.regs .edi = before.regs .edi
  esp : after.regs .esp = before.regs .esp + 4
  eip : after.eip = before.memory.read (before.regs .esp)
  stack : ∀ a, p.stack.Contains a → after.memory a = before.memory a

/-- A process with a stack of `words` words begins in `func` with argument `arg`, and when `func`
returns `v`, `exit` is called with argument `v`. -/
structure Enters (image : Image) (p : Task) (words : Nat) (func arg : Word) (m : Machine) :
    Prop where
  eip : m.eip = func
  esp : m.regs .esp = p.stack.word (words - 2)
  argument : m.memory.read (m.regs .esp + 4) = arg
  returnAddress : m.memory.read (m.regs .esp) = image.exitHandler
  exits : ∀ (last : Machine) v, last.eip = m.memory.read (m.regs .esp) →
    last.regs .esp = m.regs .esp + 4 → last.regs .eax = v →
    ∃ m', last.steps image.text 2 = some m' ∧ m'.eip = image.exit ∧
      m'.memory.read (m'.regs .esp + 4) = v ∧
      ∀ a, ¬ p.stack.Contains a → m'.memory a = last.memory a

abbrev Step := Occurrence Computer Event Unit

abbrev Reached (image : Image) : List Step → Computer → Prop :=
  Run (Computer.step image) Separate

variable {history earlier later : List Step} {s : Step}

theorem separate_of_run (run : Reached image history c) : c.Separate := by
  apply run.stateInvariant
  · intro c separate
    exact separate
  · intro c e o c' separate taken
    exact separate.step taken

theorem kept_of_run (run : Reached image (later ++ s :: earlier) c)
    (away : ∀ v ∈ later, v.before.running ≠ p ∧ p ∈ v.before.tasks) :
    Kept p s.after.machine.memory c.machine.memory := by
  induction later generalizing c with
  | nil =>
      cases run with
      | next run taken => exact fun _ _ => rfl
  | cons v later ih =>
      cases run with
      | next run taken =>
        obtain ⟨other, member⟩ := away _ List.mem_cons_self
        have before := ih run fun v member => away v (List.mem_cons_of_mem _ member)
        intro a inside
        rw [step_keeps (separate_of_run run) member other taken a inside, before a inside]

theorem loads_of_run (run : Reached image (later ++ s :: earlier) c)
    (away : ∀ v ∈ later, v.before.running ≠ p ∧ p ∈ v.before.tasks) (back : c.running = p)
    (first : s.after.running = p → s.event = .switch) : Loads c.machine p.context.base := by
  cases later with
  | nil =>
      cases run with
      | next run taken =>
        obtain rfl := first back
        obtain ⟨next, -, -, -, running, -, -, loads⟩ := switch_eq taken
        rw [← back, running]
        exact loads
  | cons v later =>
      cases run with
      | next run taken =>
        obtain ⟨other, -⟩ := away _ List.mem_cons_self
        obtain rfl := switch_of_running other back taken
        obtain ⟨next, -, -, -, running, -, -, loads⟩ := switch_eq taken
        rw [← back, running]
        exact loads

theorem prepared {words : Nat} (exitHandler func arg : Word)
    (bytes : 4 * words ≤ p.stack.bytes) (room : 3 ≤ words) :
    (p.prepare words exitHandler func arg m).read (p.stack.word (words - 1)) = arg ∧
      (p.prepare words exitHandler func arg m).read (p.stack.word (words - 2)) = exitHandler ∧
      (p.prepare words exitHandler func arg m).read (p.stack.word (words - 3)) = func ∧
      (p.prepare words exitHandler func arg m).read (p.context.word 1) =
        p.stack.word (words - 3) := by
  have five := p.five
  have across (i : Nat) (inside : i < words) :
      Memory.Apart (p.context.word 1) (p.stack.word i) :=
    p.apart.words (Block.holds_word (by omega)) (Block.holds_word (by omega))
  have within (i j : Nat) (first : i < words) (second : j < words) (other : i ≠ j) :
      Memory.Apart (p.stack.word i) (p.stack.word j) :=
    Block.words_apart (by omega) (by omega) other
  rw [Task.prepare]
  refine ⟨?_, ?_, ?_, ?_⟩
  · rw [Memory.read_write_apart (across _ (by omega)),
      Memory.read_write_apart (within _ _ (by omega) (by omega) (by omega)),
      Memory.read_write_apart (within _ _ (by omega) (by omega) (by omega)), Memory.read_write]
  · rw [Memory.read_write_apart (across _ (by omega)),
      Memory.read_write_apart (within _ _ (by omega) (by omega) (by omega)), Memory.read_write]
  · rw [Memory.read_write_apart (across _ (by omega)), Memory.read_write]
  · rw [Memory.read_write]

theorem resumes (frame : p.stack.Holds (c.machine.regs .esp) 12)
    (memory : c'.machine.memory = saved c.machine p.context.base) {after : Computer}
    (kept : Kept p c'.machine.memory after.machine.memory)
    (loads : Loads after.machine p.context.base) : Resumes p c.machine after.machine := by
  have five := p.five
  have word (i : Nat) (small : i < 5) : after.machine.memory.read (p.context.word i) =
      (saved c.machine p.context.base).read (p.context.word i) := by
    rw [← memory]
    exact Block.read_congr (fun a inside => kept a (.inl inside)) (Block.holds_word (by omega))
  have stack (a : Word) (inside : p.stack.Contains a) :
      after.machine.memory a = c.machine.memory a := by
    rw [kept a (.inr inside), memory]
    exact saved_outside (p.apart.symm.outside inside)
  have zero : p.context.word 0 = p.context.base := BitVec.add_zero _
  obtain ⟨ebx, esp, ebp, esi, edi⟩ := saved_words (t := p) c.machine
  have pointer : after.machine.memory.read (p.context.base + 4) = c.machine.regs .esp :=
    (word 1 (by decide)).trans esp
  constructor
  · rw [loads.ebx, ← zero, word 0 (by decide), ebx]
  · exact loads.ebp.trans ((word 2 (by decide)).trans ebp)
  · exact loads.esi.trans ((word 3 (by decide)).trans esi)
  · exact loads.edi.trans ((word 4 (by decide)).trans edi)
  · rw [loads.esp, pointer]
  · obtain ⟨above, below⟩ := frame
    rw [loads.eip, pointer]
    exact Block.read_congr stack ⟨above, by omega⟩
  · exact stack

theorem enters {words : Nat} {func arg : Word} (bytes : 4 * (words + 3) ≤ p.stack.bytes)
    {after : Computer}
    (kept : Kept p (p.prepare (words + 3) image.exitHandler func arg m) after.machine.memory)
    (loads : Loads after.machine p.context.base) :
    Enters image p (words + 3) func arg after.machine := by
  have five := p.five
  have holds (i : Nat) (small : i < words + 3) : p.stack.Holds (p.stack.word i) 4 :=
    Block.holds_word (by omega)
  obtain ⟨argument, returns, entry, pointer⟩ := prepared (m := m) image.exitHandler func arg
    bytes (Nat.le_add_left ..)
  have stack (i : Nat) (small : i < words + 3) : after.machine.memory.read (p.stack.word i) =
      (p.prepare (words + 3) image.exitHandler func arg m).read (p.stack.word i) :=
    Block.read_congr (fun a inside => kept a (.inr inside)) (holds i small)
  have first : p.context.Holds (p.context.word 1) 4 := Block.holds_word (by omega)
  have context : after.machine.memory.read (p.context.base + 4) = p.stack.word words :=
    (Block.read_congr (fun a inside => kept a (.inl inside)) first).trans pointer
  have esp : after.machine.regs .esp = p.stack.word (words + 1) := by
    rw [loads.esp, context, Block.word_add]
  constructor
  · rw [loads.eip, context]
    exact (stack words (by omega)).trans entry
  · exact esp
  · rw [esp, Block.word_add]
    exact (stack (words + 2) (by omega)).trans argument
  · rw [esp]
    exact (stack (words + 1) (by omega)).trans returns
  · intro last v eip top eax
    rw [esp] at eip top
    have entry' : last.eip = image.exitHandler :=
      eip.trans ((stack (words + 1) (by omega)).trans returns)
    rw [Block.word_add] at top
    have below : last.regs .esp - 4 = p.stack.word (words + 1) := by rw [top, Block.word_sub]
    have lowest : last.regs .esp - 4 - 4 = p.stack.word words := by rw [below, Block.word_sub]
    have apart : Memory.Apart (last.regs .esp - 4 - 4) (last.regs .esp - 4) := by
      rw [lowest, below]
      exact Block.words_apart (by omega) (by omega) (Nat.ne_of_lt (Nat.lt_succ_self words))
    obtain ⟨m', back, run, target, -, argument', memory⟩ := exitHandler_steps image entry' apart
    refine ⟨m', run, target, argument'.trans eax, ?_⟩
    intro a outside
    rw [memory, lowest, below, Block.write_outside (holds words (by omega)) outside,
      Block.write_outside (holds (words + 1) (by omega)) outside]

theorem not_mem_of_unused (unused : c.Unused p) : p ∉ c.tasks := by
  intro member
  have five := p.five
  rcases (unused p member).1.1 with before | behind <;> omega

/-- A process that has called `ctx_sw` goes on as after a plain call when it is switched back to,
and a process that `start` has created begins in its function, whose return calls `exit`. -/
theorem context_switch_transparent (run : Reached image history c)
    (split : history = later ++ s :: earlier)
    (away : ∀ v ∈ later, v.before.running ≠ p ∧ p ∈ v.before.tasks) (back : c.running = p) :
    (s.event = .switch → s.before.running = p → Resumes p s.before.machine c.machine) ∧
      ∀ ssize func arg, s.event = .start ssize func arg p →
        Enters image p (realStackSize ssize) func arg c.machine := by
  subst split
  have kept := kept_of_run run away
  obtain ⟨before, taken⟩ := run.split rfl
  have separate := separate_of_run before
  constructor
  · intro event running
    have loads := loads_of_run run away back fun _ => event
    rw [event] at taken
    obtain ⟨next, -, -, frame, -, -, memory, -⟩ := switch_eq taken
    rw [running] at frame memory
    exact resumes frame memory kept loads
  · intro ssize func arg event
    rw [event] at taken
    simp only [step] at taken
    split at taken
    · next fresh =>
      obtain ⟨⟨-, bytes⟩, unused⟩ := fresh
      rw [Except.ok.injEq, Prod.mk.injEq] at taken
      obtain ⟨after, -⟩ := taken
      have loads := loads_of_run run away back fun running => by
        rw [← after] at running
        exact absurd (running ▸ separate.running) (not_mem_of_unused unused)
      have room : 3 ≤ realStackSize ssize := Nat.le_trans (by decide) (Nat.le_max_right _ _)
      obtain ⟨words, size⟩ := Nat.exists_eq_add_of_le' room
      rw [size] at bytes
      rw [← after, size] at kept
      rw [size]
      exact enters bytes kept loads
    · cases taken

def sampleText : Text := fun a =>
  ([(0x100, .load 4 .esp .eax, 0x104), (0x104, .save .ebx .eax 0, 0x106),
    (0x106, .save .esp .eax 4, 0x109), (0x109, .save .ebp .eax 8, 0x10c),
    (0x10c, .save .esi .eax 12, 0x10f), (0x10f, .save .edi .eax 16, 0x112),
    (0x112, .load 8 .esp .eax, 0x116), (0x116, .load 0 .eax .ebx, 0x118),
    (0x118, .load 4 .eax .esp, 0x11b), (0x11b, .load 8 .eax .ebp, 0x11e),
    (0x11e, .load 12 .eax .esi, 0x121), (0x121, .load 16 .eax .edi, 0x124), (0x124, .ret, 0x125),
    (0x200, .push .eax, 0x201), (0x201, .call 0x300, 0x206)].find?
      fun line : Word × Instr × Word => decide (line.1 = a)).map Prod.snd

def sampleImage : Image where
  text := sampleText
  ctxSw := 0x100
  exitHandler := 0x200
  exit := 0x300
  ctxSwLoaded := ⟨0x104, rfl, 0x106, rfl, 0x109, rfl, 0x10c, rfl, 0x10f, rfl, 0x112, rfl, 0x116,
    rfl, 0x118, rfl, 0x11b, rfl, 0x11e, rfl, 0x121, rfl, 0x124, rfl, 0x125, rfl, trivial⟩
  exitHandlerLoaded := ⟨0x201, rfl, 0x206, rfl, trivial⟩

def sampleTask (context stack : Word) (bytes : Nat) (fits : stack.toNat + bytes ≤ 2 ^ 32)
    (room : context.toNat + 20 ≤ 2 ^ 32) (apart : context.toNat + 20 ≤ stack.toNat) : Task where
  context := ⟨context, 20, room⟩
  stack := ⟨stack, bytes, fits⟩
  five := rfl
  apart := .inl apart

def bootTask : Task := sampleTask 0x1000 0x2000 0x1000 (by decide) (by decide) (by decide)

def childTask : Task := sampleTask 0x5000 0x6000 2060 (by decide) (by decide) (by decide)

def sampleCall (esp old new : Word) : Event :=
  .work (fun r => if r = .esp then esp else if r = .ebx then 11 else 0) 0x100
    ([(esp, 0x400), (esp + 4, old), (esp + 8, new)].flatMap fun w : Word × Word =>
      (List.range 4).map fun i => (w.1 + BitVec.ofNat 32 i, w.2.extractLsb' (8 * i) 8))

def sampleEvents : List Event :=
  [.start 512 0x500 7 childTask, sampleCall 0x2800 0x1000 0x5000, .switch,
    sampleCall 0x6700 0x5000 0x1000, .switch]

def sampleStart : Computer := ⟨⟨fun _ => 0, 0, fun _ => 0⟩, [bootTask], bootTask⟩

def Event.isStart (ssize : Nat) (func arg : Word) (task : Task) : Event → Bool
  | .start n f a t => decide (n = ssize ∧ f = func ∧ a = arg ∧ t = task)
  | _ => false

def Event.isSwitch : Event → Bool
  | .switch => true
  | _ => false

def returns (p : Task) (n : Nat) (described : Step → Bool) (history : List Step) (c : Computer) :
    Bool :=
  decide (c.running = p) && history[n]?.any described &&
    (history.take n).all fun v => decide (v.before.running ≠ p ∧ p ∈ v.before.tasks)

theorem of_returns {described : Step → Bool}
    (checked : returns p n described history c = true) :
    ∃ later s earlier, history = later ++ s :: earlier ∧ described s = true ∧
      (∀ v ∈ later, v.before.running ≠ p ∧ p ∈ v.before.tasks) ∧ c.running = p := by
  simp only [returns, Bool.and_eq_true, decide_eq_true_eq, List.all_eq_true] at checked
  obtain ⟨⟨back, found⟩, away⟩ := checked
  obtain ⟨s, place, here⟩ := (Option.any_eq_true _ _).mp found
  obtain ⟨inside, same⟩ := List.getElem?_eq_some_iff.mp place
  refine ⟨history.take n, s, history.drop (n + 1), ?_, here, away, back⟩
  rw [← same, ← List.drop_eq_getElem_cons inside, List.take_append_drop]

/-- A process enters its function, and the first process goes on when it is switched back to. -/
theorem context_switch_transparent_twice :
    (∃ history c, Reached sampleImage history c ∧
      Enters sampleImage childTask 515 0x500 7 c.machine) ∧
    ∃ history c before, Reached sampleImage history c ∧
      Resumes bootTask before c.machine ∧ before.regs .ebx = 11 := by
  have initial : sampleStart.Separate :=
    ⟨List.mem_singleton.mpr rfl, List.pairwise_singleton _ _⟩
  constructor
  · obtain ⟨history, c, run, checked⟩ := reaches_run (Computer.step sampleImage)
      initial (sampleEvents.take 3)
      (returns childTask 2 fun s => s.event.isStart 512 0x500 7 childTask) (by decide +kernel)
    obtain ⟨later, s, earlier, split, created, away, back⟩ := of_returns checked
    have event : s.event = .start 512 0x500 7 childTask := by
      cases e : s.event with
      | start n f a t => simpa [e, Event.isStart] using created
      | work | switch | reap => simp [e, Event.isStart] at created
    exact ⟨history, c, run,
      (context_switch_transparent run split away back).2 512 0x500 7 event⟩
  · obtain ⟨history, c, run, checked⟩ := reaches_run (Computer.step sampleImage)
      initial sampleEvents
      (returns bootTask 2 fun s => s.event.isSwitch && decide (s.before.running = bootTask) &&
        decide (s.before.machine.regs .ebx = 11)) (by decide +kernel)
    obtain ⟨later, s, earlier, split, described, away, back⟩ := of_returns checked
    simp only [Bool.and_eq_true, decide_eq_true_eq] at described
    obtain ⟨⟨switched, running⟩, ebx⟩ := described
    have event : s.event = .switch := by
      cases e : s.event with
      | switch => rfl
      | work | start | reap => simp [e, Event.isSwitch] at switched
    exact ⟨history, c, s.before.machine, run,
      (context_switch_transparent run split away back).1 event running, ebx⟩

end Computer

end IntelX86Kernel

import IntelX86Kernel.Vectors

/-! Exceptions as tasks: the processor goes to the task of a gate, `trap_handler` in
kernel/debugger.c finds the task that was interrupted, and `iret` goes back to it. -/

namespace IntelX86Kernel

open X86 (Vector vector foldl_update_range foldl_update_other)

def segmentBase (d : BitVec 64) : BitVec 32 := d.extractLsb' 56 8 ++ d.extractLsb' 16 24

def X86Tss.saved (t regs : X86Tss) : X86Tss :=
  { t with
    eip := regs.eip
    eflags := regs.eflags
    eax := regs.eax
    ecx := regs.ecx
    edx := regs.edx
    ebx := regs.ebx
    esp := regs.esp
    ebp := regs.ebp
    esi := regs.esi
    edi := regs.edi
    es := regs.es
    cs := regs.cs
    ss := regs.ss
    ds := regs.ds
    fs := regs.fs
    gs := regs.gs }

/-- The processor, with the selector of the task that runs and its registers. The flags of busy and
nested tasks are left out. -/
structure Processor where
  tables : CpuTables
  tr : BitVec 16
  regs : X86Tss

namespace Processor

variable (p : Processor)

def base (sel : BitVec 16) : BitVec 32 := segmentBase (p.tables.gdt (sel >>> 3))

def task (a : BitVec 32) : X86Tss := p.tables.tasks a

def setTask (a : BitVec 32) (t : X86Tss) : Processor :=
  { p with tables := { p.tables with tasks := Function.update p.tables.tasks a t } }

def leave : Processor := p.setTask (p.base p.tr) ((p.task (p.base p.tr)).saved p.regs)

def load (sel : BitVec 16) : Processor := { p with tr := sel, regs := p.task (p.base sel) }

def raise (v : BitVec 8) : Option Processor :=
  match vector (p.tables.idt v) with
  | some (.task sel _) =>
      let left := p.leave
      some ((left.setTask (p.base sel)
        { left.task (p.base sel) with backLink := p.tr.zeroExtend 32 }).load sel)
  | _ => none

def interrupted : BitVec 32 :=
  tssSel2Tss p.tables.gdt ((p.task (tssSel2Tss p.tables.gdt p.tr)).backLink.truncate 16)

def iret : Processor := p.leave.load ((p.task (p.base p.tr)).backLink.truncate 16)

end Processor

/-- What happens in the kernel's task: it computes, it defines an interrupt, or it is interrupted by
an exception. Then `trap_handler` makes `handled` of the segment that it finds, and the registers of
its own task are `last` when it returns. -/
inductive ProcessorEvent where
  | work (regs : X86Tss)
  | define (d : Definition)
  | exception (v : BitVec 8) (handled : X86Tss → X86Tss) (last : X86Tss)

namespace Processor

def step (p : Processor) : ProcessorEvent → Option Processor
  | .work regs => some { p with regs := regs }
  | .define d => some { p with tables := { p.tables with idt := defineInterrupt p.tables.idt d } }
  | .exception v handled last => do
      let q ← p.raise v
      let left := q.setTask q.interrupted (handled (q.task q.interrupted))
      return iret { left with regs := last }

def run (p : Processor) : List ProcessorEvent → Option Processor
  | [] => some p
  | e :: rest => do
      let q ← p.step e
      q.run rest

def booted (s : CpuSymbols) (t : CpuTables) (regs : X86Tss) : Processor :=
  ⟨CpuTables.cpuInit s t, BASE_TSS, regs⟩

end Processor

theorem packed_self (d : BitVec 64) :
    packed (segmentBase d) (d.extractLsb' 52 4) (d.extractLsb' 48 4 ++ d.extractLsb' 0 16)
      (d.extractLsb' 40 8) = d := by
  rw [packed, segmentBase]
  apply BitVec.eq_of_getLsbD_eq
  intro i below
  simp only [BitVec.getLsbD_append, BitVec.getLsbD_extractLsb']
  grind

theorem tssSel2Tss_eq (gdt : Gdt) (sel : BitVec 16) :
    tssSel2Tss gdt sel = segmentBase (gdt (sel >>> 3)) :=
  packed_base (packed_self _).symm

namespace CpuTables

variable {s : CpuSymbols} {t : CpuTables} {i j : Nat} {a : BitVec 32}

theorem trapTask_inj (first : i < HANDLER_ENTRIES) (second : j < HANDLER_ENTRIES)
    (same : s.trapTask i = s.trapTask j) : i = j := by
  have offsets := BitVec.add_right_inj s.trapTss |>.mp same
  have table : ∀ i < HANDLER_ENTRIES, ∀ j < HANDLER_ENTRIES,
      BitVec.ofNat 32 (X86Tss.size * i) = BitVec.ofNat 32 (X86Tss.size * j) → i = j := by
    decide +kernel
  exact table i first j second offsets

def taskDescriptor (base : BitVec 32) : BitVec 64 :=
  descriptor base (.ofNat 32 (X86Tss.size - 1)) (ACC_PL_K ||| ACC_TSS ||| ACC_P) 0

theorem setupTss_gdt : (setupTss s t).gdt = t.gdt := rfl

theorem cpuInit_gdt : (cpuInit s t).gdt = (List.range HANDLER_ENTRIES).foldl
    (fun gdt i => Function.update gdt (.ofNat 16 i + TRAP_TSS_BASE / 8)
      (taskDescriptor (s.trapTask i))) (kernelGdt s) := by
  have loop := @setupTrap_loop s { setupGdt s t with idt := fun _ => 0 } HANDLER_ENTRIES
  have turn : trapDescriptor s = fun gdt i => Function.update gdt
      (.ofNat 16 i + TRAP_TSS_BASE / 8) (taskDescriptor (s.trapTask i)) := rfl
  rw [cpuInit, setupTss_gdt, setupIdt, loop.1, setupGdt, turn]

theorem kernelGdt_main : kernelGdt s (BASE_TSS / 8) = taskDescriptor s.tss := by
  have apart (sel : BitVec 16) (other : BASE_TSS / 8 ≠ sel / 8) (gdt : Gdt)
      (addr limit access sizebits : BitVec 32) :
      fillDescriptor gdt (sel / 8) addr limit access sizebits (BASE_TSS / 8) =
        gdt (BASE_TSS / 8) := Function.update_of_ne other _ _
  rw [kernelGdt, apart USER_DS (by decide), apart USER_CS (by decide),
    apart KERNEL_DS (by decide), apart KERNEL_CS (by decide)]
  exact Function.update_self ..

theorem cpuInit_base (small : i < HANDLER_ENTRIES) :
    tssSel2Tss (cpuInit s t).gdt (TRAP_TSS_BASE + 8 * .ofNat 16 i) = s.trapTask i := by
  have places : ∀ i < HANDLER_ENTRIES,
      (TRAP_TSS_BASE + 8 * BitVec.ofNat 16 i) >>> 3 = .ofNat 16 i + TRAP_TSS_BASE / 8 := by
    decide +kernel
  have distinct : ∀ i < HANDLER_ENTRIES, ∀ j < HANDLER_ENTRIES,
      BitVec.ofNat 16 i + TRAP_TSS_BASE / 8 = .ofNat 16 j + TRAP_TSS_BASE / 8 → i = j := by
    decide +kernel
  have written := @foldl_update_range _ _ _ (kernelGdt s) _
    (fun i _ => taskDescriptor (s.trapTask i)) _ _ distinct small
  apply packed_base
  rw [places i small, cpuInit_gdt, written]
  exact descriptor_eq

theorem cpuInit_main : tssSel2Tss (cpuInit s t).gdt BASE_TSS = s.tss := by
  have other : ∀ i < HANDLER_ENTRIES, BitVec.ofNat 16 i + TRAP_TSS_BASE / 8 ≠ BASE_TSS / 8 := by
    decide +kernel
  have place : BASE_TSS >>> 3 = BASE_TSS / 8 := by decide
  have untouched := @foldl_update_other _ _ _ (kernelGdt s) _
    (fun i _ => taskDescriptor (s.trapTask i)) _ _ other
  apply packed_base
  rw [place, cpuInit_gdt, untouched, kernelGdt_main]
  exact descriptor_eq

theorem setupTss_tasks (apart : a ≠ s.tss) : (setupTss s t).tasks a = t.tasks a :=
  Function.update_of_ne apart _ _

theorem cpuInit_cr3 (apart : s.trapTask i ≠ s.tss) (small : i < HANDLER_ENTRIES) :
    ((cpuInit s t).tasks (s.trapTask i)).cr3 = s.pgdir := by
  have loop := @setupTrap_loop s { setupGdt s t with idt := fun _ => 0 } HANDLER_ENTRIES
  have distinct : ∀ i < HANDLER_ENTRIES, ∀ j < HANDLER_ENTRIES,
      s.trapTask i = s.trapTask j → i = j :=
    fun i first j second => trapTask_inj first second
  have written := @foldl_update_range _ _ _ t.tasks _ (trapTask s) _ _ distinct small
  rw [cpuInit, setupTss_tasks apart, setupIdt, loop.2.2]
  exact congrArg X86Tss.cr3 written

end CpuTables

namespace Processor

variable {s : CpuSymbols} {t : CpuTables} {p q : Processor} {a b : BitVec 32} {x : X86Tss}
  {sel : BitVec 16} {v : BitVec 8} {level : BitVec 2} {i : Nat}

theorem base_eq : p.base sel = tssSel2Tss p.tables.gdt sel := (tssSel2Tss_eq _ _).symm

@[simp] theorem task_setTask : (p.setTask a x).task a = x := Function.update_self ..

theorem task_setTask_of_ne (other : b ≠ a) : (p.setTask a x).task b = p.task b :=
  Function.update_of_ne other _ _

@[simp] theorem base_setTask : (p.setTask a x).base sel = p.base sel := rfl

theorem load_regs : (p.load sel).regs = p.task (p.base sel) := rfl

theorem cr3_setTask {c : BitVec 32} (before : (p.task b).cr3 = c) (written : b = a → x.cr3 = c) :
    ((p.setTask a x).task b).cr3 = c := by
  by_cases same : b = a
  · rw [same, task_setTask]
    exact written same
  · rw [task_setTask_of_ne same, before]

theorem cr3_main (apart : ∀ i < HANDLER_ENTRIES, s.trapTask i ≠ s.tss)
    (before : ∀ j < HANDLER_ENTRIES, (p.task (s.trapTask j)).cr3 = s.pgdir) :
    ∀ j < HANDLER_ENTRIES, ((p.setTask s.tss x).task (s.trapTask j)).cr3 = s.pgdir := by
  intro j below
  exact cr3_setTask (before j below) fun same => absurd same (apart j below)

/-- What holds in the kernel's task between two events. -/
structure Settled (s : CpuSymbols) (p : Processor) : Prop where
  tr : p.tr = BASE_TSS
  main : tssSel2Tss p.tables.gdt BASE_TSS = s.tss
  traps : ∀ i < HANDLER_ENTRIES,
    tssSel2Tss p.tables.gdt (TRAP_TSS_BASE + 8 * .ofNat 16 i) = s.trapTask i
  gates : ∀ v sel level, vector (p.tables.idt v) = some (.task sel level) →
    v.toNat < HANDLER_ENTRIES ∧ sel = TRAP_TSS_BASE + 8 * .ofNat 16 v.toNat
  cr3 : ∀ i < HANDLER_ENTRIES, (p.task (s.trapTask i)).cr3 = s.pgdir

structure Entered (s : CpuSymbols) (i : Nat) (p q : Processor) : Prop where
  tr : q.tr = TRAP_TSS_BASE + 8 * .ofNat 16 i
  gdt : q.tables.gdt = p.tables.gdt
  idt : q.tables.idt = p.tables.idt
  saved : q.task s.tss = (p.task s.tss).saved p.regs
  link : (q.task (s.trapTask i)).backLink = BASE_TSS.zeroExtend 32
  cr3 : ∀ j < HANDLER_ENTRIES, (q.task (s.trapTask j)).cr3 = s.pgdir
  regs : q.regs = q.task (s.trapTask i)

theorem Settled.raise (settled : Settled s p)
    (apart : ∀ i < HANDLER_ENTRIES, s.trapTask i ≠ s.tss)
    (gate : vector (p.tables.idt v) = some (.task sel level)) :
    ∃ q, p.raise v = some q ∧ Entered s v.toNat p q := by
  obtain ⟨small, place⟩ := settled.gates v sel level gate
  have main : p.base p.tr = s.tss := by
    rw [base_eq, settled.tr, settled.main]
  have trap : p.base sel = s.trapTask v.toNat := by
    rw [base_eq, place, settled.traps _ small]
  have away := apart v.toNat small
  have left : p.leave = p.setTask s.tss ((p.task s.tss).saved p.regs) := by rw [leave, main]
  refine ⟨_, by rw [Processor.raise, gate], ?_⟩
  rw [left, trap]
  constructor
  · exact place
  · rfl
  · rfl
  · exact (task_setTask_of_ne away.symm).trans task_setTask
  · apply (congrArg X86Tss.backLink task_setTask).trans
    change p.tr.zeroExtend 32 = _
    rw [settled.tr]
  · intro j below
    have before := @cr3_main s p ((p.task s.tss).saved p.regs) apart settled.cr3
    exact cr3_setTask (before j below) fun _ => before v.toNat small
  · rw [load_regs, base_setTask, base_setTask, trap]
    rfl

theorem Entered.interrupted (entered : Entered s i p q) (settled : Settled s p)
    (small : i < HANDLER_ENTRIES) : q.interrupted = s.tss := by
  have back : (BASE_TSS.zeroExtend 32).truncate 16 = BASE_TSS := by decide
  rw [Processor.interrupted, entered.gdt, entered.tr, settled.traps i small, entered.link, back,
    settled.main]

theorem Entered.returns (entered : Entered s i p q) (settled : Settled s p)
    (small : i < HANDLER_ENTRIES) (apart : ∀ i < HANDLER_ENTRIES, s.trapTask i ≠ s.tss)
    (last : X86Tss) :
    Settled s (iret { q.setTask s.tss x with regs := last }) ∧
      (iret { q.setTask s.tss x with regs := last }).tables.idt = p.tables.idt ∧
      (iret { q.setTask s.tss x with regs := last }).regs = x := by
  have away := apart i small
  have back : (BASE_TSS.zeroExtend 32).truncate 16 = BASE_TSS := by decide
  have trap : q.base q.tr = s.trapTask i := by
    rw [base_eq, entered.gdt, entered.tr, settled.traps i small]
  have main : q.base BASE_TSS = s.tss := by rw [base_eq, entered.gdt, settled.main]
  have link : ((q.setTask s.tss x).task (s.trapTask i)).backLink.truncate 16 = BASE_TSS := by
    rw [task_setTask_of_ne away, entered.link, back]
  have whole : iret { q.setTask s.tss x with regs := last } =
      ((q.setTask s.tss x).setTask (s.trapTask i)
        (((q.setTask s.tss x).task (s.trapTask i)).saved last)).load BASE_TSS := by
    have place : base { q.setTask s.tss x with regs := last } (q.setTask s.tss x).tr =
        s.trapTask i := trap
    have next : (task { q.setTask s.tss x with regs := last } (s.trapTask i)).backLink.truncate 16 =
        BASE_TSS := link
    rw [iret, leave, place, next]
    rfl
  have gdt : q.tables.gdt = p.tables.gdt := entered.gdt
  rw [whole]
  refine ⟨⟨rfl, ?_, ?_, ?_, ?_⟩, entered.idt, ?_⟩
  · change tssSel2Tss q.tables.gdt BASE_TSS = s.tss
    rw [gdt, settled.main]
  · intro j below
    change tssSel2Tss q.tables.gdt _ = _
    rw [gdt, settled.traps j below]
  · intro v sel level gate
    change vector (q.tables.idt v) = _ at gate
    rw [entered.idt] at gate
    exact settled.gates v sel level gate
  · intro j below
    have before := @cr3_main s q x apart entered.cr3
    exact cr3_setTask (before j below) fun _ => before i small
  · rw [load_regs, base_setTask, base_setTask, main, task_setTask_of_ne away.symm, task_setTask]

variable {p' : Processor} {e : ProcessorEvent} {events : List ProcessorEvent}
  {handled : X86Tss → X86Tss} {last regs : X86Tss}

theorem gate_of_raise (raised : p.raise v = some q) :
    ∃ sel level, vector (p.tables.idt v) = some (.task sel level) := by
  rw [Processor.raise] at raised
  split at raised
  · rename_i sel level gate
    exact ⟨sel, level, gate⟩
  · cases raised

theorem Settled.exception (settled : Settled s p)
    (apart : ∀ i < HANDLER_ENTRIES, s.trapTask i ≠ s.tss)
    (gate : vector (p.tables.idt v) = some (.task sel level)) (handled : X86Tss → X86Tss)
    (last : X86Tss) :
    ∃ p', p.step (.exception v handled last) = some p' ∧ Settled s p' ∧
      p'.tables.idt = p.tables.idt ∧ p'.regs = handled ((p.task s.tss).saved p.regs) := by
  obtain ⟨small, -⟩ := settled.gates v sel level gate
  obtain ⟨q, raised, entered⟩ := settled.raise apart gate
  obtain ⟨after, idt, registers⟩ := entered.returns settled small apart last
  refine ⟨_, ?_, after, idt, registers⟩
  rw [step, raised, ← entered.saved, ← entered.interrupted settled small]
  rfl

theorem Settled.step (settled : Settled s p)
    (apart : ∀ i < HANDLER_ENTRIES, s.trapTask i ≠ s.tss) (taken : p.step e = some p') :
    Settled s p' ∧ ∀ v, (∀ d, e = .define d → d.numInterrupt ≠ v) →
      p'.tables.idt v = p.tables.idt v := by
  cases e with
  | work regs =>
      rw [← Option.some.inj taken]
      exact ⟨⟨settled.tr, settled.main, settled.traps, settled.gates, settled.cr3⟩,
        fun v other => rfl⟩
  | define d =>
      rw [← Option.some.inj taken]
      have untouched (v : BitVec 8) (other : d.numInterrupt ≠ v) :
          defineInterrupt p.tables.idt d v = p.tables.idt v :=
        Function.update_of_ne other.symm _ _
      refine ⟨⟨settled.tr, settled.main, settled.traps, ?_, settled.cr3⟩,
        fun v other => untouched v (other d rfl)⟩
      intro v sel level gate
      have read : vector (defineInterrupt p.tables.idt d v) = some (.task sel level) := gate
      by_cases same : d.numInterrupt = v
      · have written : defineInterrupt p.tables.idt d v =
            (interruptDescriptor d.handler d.protectionLevel).uint64 := by
          rw [← same]
          exact Function.update_self ..
        rw [written, vector_interrupt] at read
        cases read
      · rw [untouched v same] at read
        exact settled.gates v sel level read
  | exception v handled last =>
      have raised : (p.raise v).isSome = true := by
        cases raised : p.raise v with
        | none =>
            rw [Processor.step, raised] at taken
            cases taken
        | some q => rfl
      obtain ⟨q, raised⟩ := Option.isSome_iff_exists.mp raised
      obtain ⟨sel, level, gate⟩ := gate_of_raise raised
      obtain ⟨p'', done, after, idt, -⟩ := settled.exception apart gate handled last
      rw [← Option.some.inj (done.symm.trans taken)]
      exact ⟨after, fun v other => congrFun idt v⟩

theorem Settled.run (settled : Settled s p)
    (apart : ∀ i < HANDLER_ENTRIES, s.trapTask i ≠ s.tss) (ran : p.run events = some p') :
    Settled s p' ∧ ∀ v, (∀ d, .define d ∈ events → d.numInterrupt ≠ v) →
      p'.tables.idt v = p.tables.idt v := by
  induction events generalizing p with
  | nil =>
      rw [← Option.some.inj ran]
      exact ⟨settled, fun v other => rfl⟩
  | cons e rest ih =>
      obtain ⟨q, taken, later⟩ := Option.bind_eq_some_iff.mp ran
      obtain ⟨next, first⟩ := settled.step apart taken
      obtain ⟨last, second⟩ := ih next later
      refine ⟨last, fun v other => ?_⟩
      have here : ∀ d, e = .define d → d.numInterrupt ≠ v := by
        intro d same
        apply other d
        rw [same]
        exact List.mem_cons_self
      rw [second v fun d member => other d (List.mem_cons_of_mem _ member), first v here]

theorem booted_settled (apart : ∀ i < HANDLER_ENTRIES, s.trapTask i ≠ s.tss) :
    Settled s (booted s t regs) where
  tr := rfl
  main := CpuTables.cpuInit_main
  traps _ small := CpuTables.cpuInit_base small
  gates v sel level gate := by
    have read : vector ((CpuTables.cpuInit s t).idt v) = some (.task sel level) := gate
    rw [CpuTables.cpuInit_vector] at read
    split at read
    · rename_i small
      have place : v.zeroExtend 16 = .ofNat 16 v.toNat := (BitVec.ofNat_toNat ..).symm
      cases read
      exact ⟨small, by rw [place]⟩
    · cases read
  cr3 i small := CpuTables.cpuInit_cr3 (apart i small) small

end Processor

open Processor in
/-- At any time after `cpu_init`, an exception for whose vector no interrupt has been defined is
handled with the page tables of the kernel by a `trap_handler` that finds the registers of the
kernel's task, and that task goes on with what has been made of them. -/
theorem exceptions_transparent {s : CpuSymbols}
    (apart : ∀ i < HANDLER_ENTRIES, s.trapTask i ≠ s.tss) (t : CpuTables) (regs : X86Tss)
    {events : List ProcessorEvent} {p : Processor} (ran : (booted s t regs).run events = some p)
    {v : BitVec 8} (exception : v.toNat < HANDLER_ENTRIES)
    (undefined : ∀ d, .define d ∈ events → d.numInterrupt ≠ v) :
    (∃ q, p.raise v = some q ∧ q.regs.cr3 = s.pgdir ∧ q.interrupted = s.tss ∧
        q.task q.interrupted = (p.task s.tss).saved p.regs) ∧
      ∀ handled last, ∃ p', p.step (.exception v handled last) = some p' ∧ p'.tr = p.tr ∧
        p'.regs = handled ((p.task s.tss).saved p.regs) := by
  obtain ⟨settled, idt⟩ := (booted_settled apart).run apart ran
  have gate := @CpuTables.cpuInit_vector v s t
  rw [if_pos exception] at gate
  have same : p.tables.idt v = (CpuTables.cpuInit s t).idt v := idt v undefined
  rw [← same] at gate
  constructor
  · obtain ⟨q, raised, entered⟩ := settled.raise apart gate
    have found := entered.interrupted settled exception
    refine ⟨q, raised, ?_, found, ?_⟩
    · rw [entered.regs, entered.cr3 _ exception]
    · rw [found, entered.saved]
  · intro handled last
    obtain ⟨p', done, after, -, registers⟩ := settled.exception apart gate handled last
    exact ⟨p', done, after.tr.trans settled.tr.symm, registers⟩

def sampleCpu : CpuSymbols where
  tss := 0x20000
  trapTss := 0x110000
  firstStack := 0x104000
  trapStack := 0x120000
  pgdir := 0x30000
  exceptionHandlerTasks i := 0x101000 + .ofNat 32 i

open Processor in
/-- A page fault after the clock interrupt has been defined, which `trap_handler` ignores. -/
theorem exceptions_transparent_fault : ∃ p,
    (booted sampleCpu ⟨fun _ => 0, fun _ => 0, fun _ => {}⟩ {}).run
        [.define ⟨32, 0x102000, 0⟩, .work { eip := 0x103000 }] = some p ∧
      (∃ q, p.raise 14 = some q ∧ q.regs.cr3 = 0x30000 ∧ q.interrupted = 0x20000 ∧
        q.task q.interrupted = (p.task 0x20000).saved p.regs) ∧
      ∀ handled last, ∃ p', p.step (.exception 14 handled last) = some p' ∧ p'.tr = p.tr ∧
        p'.regs = handled ((p.task 0x20000).saved p.regs) := by
  have apart : ∀ i < HANDLER_ENTRIES, sampleCpu.trapTask i ≠ sampleCpu.tss := by decide +kernel
  have undefined : ∀ d, ProcessorEvent.define d ∈
      [.define ⟨32, 0x102000, 0⟩, .work { eip := 0x103000 }] → d.numInterrupt ≠ 14 := by
    intro d member
    simp only [List.mem_cons, ProcessorEvent.define.injEq, reduceCtorEq, List.not_mem_nil,
      or_false] at member
    rw [member]
    decide
  exact ⟨_, rfl, exceptions_transparent apart _ _ rfl (by decide) undefined⟩

end IntelX86Kernel

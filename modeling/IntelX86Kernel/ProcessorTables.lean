import IntelX86Kernel.Descriptors
import IntelX86Kernel.Gates

/-! The tables of kernel/boot/processor_structs.c, and `define_interrupt` in kernel/interrupts.c. -/

namespace IntelX86Kernel

open X86 (Gate Vector)

def BASE_TSS : BitVec 16 := 0x08
def KERNEL_CS : BitVec 16 := 0x10
def KERNEL_DS : BitVec 16 := 0x18
def USER_CS : BitVec 16 := 0x43
def USER_DS : BitVec 16 := 0x4b
def TRAP_TSS_BASE : BitVec 16 := 0x50

def SZ_32 : BitVec 32 := 0x4
def ACC_TASK_GATE : BitVec 32 := 0x05
def ACC_TSS : BitVec 32 := 0x09
def ACC_DATA_W : BitVec 32 := 0x12
def ACC_CODE_R : BitVec 32 := 0x1a
def ACC_PL_K : BitVec 32 := 0x00
def ACC_PL_U : BitVec 32 := 0x60

def HANDLER_ENTRIES : Nat := 32
def FIRST_STACK_SIZE : Nat := 16384

structure X86Tss where
  backLink : BitVec 32 := 0
  esp0 : BitVec 32 := 0
  ss0 : BitVec 32 := 0
  esp1 : BitVec 32 := 0
  ss1 : BitVec 32 := 0
  esp2 : BitVec 32 := 0
  ss2 : BitVec 32 := 0
  cr3 : BitVec 32 := 0
  eip : BitVec 32 := 0
  eflags : BitVec 32 := 0
  eax : BitVec 32 := 0
  ecx : BitVec 32 := 0
  edx : BitVec 32 := 0
  ebx : BitVec 32 := 0
  esp : BitVec 32 := 0
  ebp : BitVec 32 := 0
  esi : BitVec 32 := 0
  edi : BitVec 32 := 0
  es : BitVec 32 := 0
  cs : BitVec 32 := 0
  ss : BitVec 32 := 0
  ds : BitVec 32 := 0
  fs : BitVec 32 := 0
  gs : BitVec 32 := 0
  ldt : BitVec 32 := 0
  traceTrap : BitVec 16 := 0
  ioBitMapOffset : BitVec 16 := 0
  deriving DecidableEq

def X86Tss.size : Nat := 104

abbrev Idt := BitVec 8 → BitVec 64

/-- The value that `fill_gate` writes to `*entry`. -/
def gate (offset : BitVec 32) (selector : BitVec 16) (access wordCount : BitVec 8) : BitVec 64 :=
  let p0 := offset &&& 0xffff#32
  let p0 := p0 ||| selector.zeroExtend 32 <<< 16
  let p1 := (wordCount.zeroExtend 32) &&& 0xf#32
  let p1 := p1 ||| (access.zeroExtend 32 ||| ACC_P) <<< 8
  let p1 := p1 ||| (offset &&& 0xffff0000#32)
  (p1.zeroExtend 64) <<< 32 ||| p0.zeroExtend 64

def fillGate (idt : Idt) (entry : BitVec 8) (offset : BitVec 32) (selector : BitVec 16)
    (access wordCount : BitVec 8) : Idt :=
  Function.update idt entry (gate offset selector access wordCount)

/-- `struct interrupt_descriptor`, whose first field is the lowest in memory. -/
structure InterruptDescriptor where
  offsetLow : BitVec 16
  selector : BitVec 16
  zero : BitVec 8
  typeAttr : BitVec 8
  offsetHigh : BitVec 16

def InterruptDescriptor.uint64 (d : InterruptDescriptor) : BitVec 64 :=
  d.offsetHigh ++ d.typeAttr ++ d.zero ++ d.selector ++ d.offsetLow

def interruptDescriptor (handler : BitVec 32) (protectionLevel : BitVec 8) :
    InterruptDescriptor where
  offsetLow := (handler &&& 0x0000ffff#32).truncate 16
  selector := KERNEL_CS
  zero := 0
  typeAttr := 0x80 ||| (protectionLevel &&& 0b11) <<< 5 ||| 0x0E
  offsetHigh := ((handler &&& 0xffff0000#32) >>> 16).truncate 16

structure Definition where
  numInterrupt : BitVec 8
  handler : BitVec 32
  protectionLevel : BitVec 8

def defineInterrupt (idt : Idt) (d : Definition) : Idt :=
  Function.update idt d.numInterrupt (interruptDescriptor d.handler d.protectionLevel).uint64

/-- The addresses of what the tables point to; the segments of the tasks follow each other from
`trapTss` on. -/
structure CpuSymbols where
  tss : BitVec 32
  trapTss : BitVec 32
  firstStack : BitVec 32
  trapStack : BitVec 32
  pgdir : BitVec 32
  exceptionHandlerTasks : Nat → BitVec 32

def CpuSymbols.trapTask (s : CpuSymbols) (i : Nat) : BitVec 32 :=
  s.trapTss + .ofNat 32 (X86Tss.size * i)

structure CpuTables where
  gdt : Gdt
  idt : Idt
  tasks : BitVec 32 → X86Tss

namespace CpuTables

variable (s : CpuSymbols) (t : CpuTables)

def trapDescriptor (gdt : Gdt) (i : Nat) : Gdt :=
  fillDescriptor gdt (.ofNat 16 i + TRAP_TSS_BASE / 8) (s.trapTask i) (.ofNat 32 (X86Tss.size - 1))
    (ACC_PL_K ||| ACC_TSS ||| ACC_P) 0

def kernelGdt : Gdt :=
  let gdt : Gdt := fun _ => 0
  let gdt := fillDescriptor gdt (BASE_TSS / 8) s.tss (.ofNat 32 (X86Tss.size - 1))
    (ACC_PL_K ||| ACC_TSS ||| ACC_P) 0
  let gdt := fillDescriptor gdt (KERNEL_CS / 8) 0 0xffffffff (ACC_PL_K ||| ACC_CODE_R) SZ_32
  let gdt := fillDescriptor gdt (KERNEL_DS / 8) 0 0xffffffff (ACC_PL_K ||| ACC_DATA_W) SZ_32
  let gdt := fillDescriptor gdt (USER_CS / 8) 0 0xffffffff (ACC_PL_U ||| ACC_CODE_R) SZ_32
  fillDescriptor gdt (USER_DS / 8) 0 0xffffffff (ACC_PL_U ||| ACC_DATA_W) SZ_32

def setupGdt : CpuTables :=
  { t with gdt := (List.range HANDLER_ENTRIES).foldl (trapDescriptor s) (kernelGdt s) }

def trapTask (i : Nat) (ts : X86Tss) : X86Tss :=
  { ts with
    ss0 := KERNEL_DS.zeroExtend 32
    esp0 := s.trapStack + 16384
    ss := KERNEL_DS.zeroExtend 32
    esp := s.trapStack + 16384
    ioBitMapOffset := .ofNat 16 X86Tss.size
    cs := KERNEL_CS.zeroExtend 32
    eip := s.exceptionHandlerTasks i
    ds := KERNEL_DS.zeroExtend 32
    es := KERNEL_DS.zeroExtend 32
    fs := 0
    gs := 0
    eflags := 2
    traceTrap := 0
    cr3 := s.pgdir }

/-- A turn of the loop of `setup_idt`. -/
def setupTrap (t : CpuTables) (i : Nat) : CpuTables :=
  let access := ACC_TASK_GATE
  let access := access + if i = 3 then 0x60 else 0
  { t with
    tasks := Function.update t.tasks (s.trapTask i) (trapTask s i (t.tasks (s.trapTask i)))
    idt := fillGate t.idt (.ofNat 8 i) 0 (TRAP_TSS_BASE + 8 * .ofNat 16 i) (access.truncate 8) 0 }

def setupIdt : CpuTables :=
  (List.range HANDLER_ENTRIES).foldl (setupTrap s) { t with idt := fun _ => 0 }

def setupTss : CpuTables :=
  { t with
    tasks := Function.update t.tasks s.tss
      { ss0 := KERNEL_DS.zeroExtend 32
        esp0 := s.firstStack + .ofNat 32 FIRST_STACK_SIZE
        ioBitMapOffset := .ofNat 16 X86Tss.size
        cr3 := s.pgdir } }

/-- The interrupt controller is not modelled. -/
def cpuInit : CpuTables := setupTss s (setupIdt s (setupGdt s t))

end CpuTables

end IntelX86Kernel

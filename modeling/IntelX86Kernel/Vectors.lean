import IntelX86Kernel.ProcessorTables

/-! Where the processor goes at each vector, and which task state segment an exception leads to. -/

namespace IntelX86Kernel

open X86 (Gate Vector vector foldl_update_last foldl_update_range foldl_update_other)

variable {offset handler : BitVec 32} {selector : BitVec 16} {access count level v : BitVec 8}

theorem gate_eq :
    gate offset selector access count =
      Gate.encode ⟨offset, selector, count &&& 0xf#8, access ||| 0x80#8⟩ := by
  have low : 0xffff#32 = .ofNat 32 (2 ^ 16 - 1) := rfl
  have nibble : 0xf#32 = .ofNat 32 (2 ^ 4 - 1) := rfl
  have small : 0xf#8 = .ofNat 8 (2 ^ 4 - 1) := rfl
  have high : 0xffff0000#32 = BitVec.ofNat 32 (2 ^ 16 - 1) <<< 16 := rfl
  have present : ACC_P = (0x80#8).zeroExtend 32 := rfl
  have mask (n i : Nat) :
      (BitVec.ofNat 8 (2 ^ n - 1)).getLsbD i = (decide (i < 8) && decide (i < n)) := by
    rw [BitVec.getLsbD_ofNat, Nat.testBit_two_pow_sub_one]
  rw [gate, Gate.encode, low, nibble, small, high, present]
  apply BitVec.eq_of_getLsbD_eq
  intro i below
  simp only [getLsbD_mask, mask, BitVec.getLsbD_append, BitVec.getLsbD_or, BitVec.getLsbD_and,
    BitVec.getLsbD_shiftLeft, BitVec.getLsbD_extractLsb', BitVec.getLsbD_setWidth, below]
  grind

theorem uint64_eq :
    (interruptDescriptor handler level).uint64 =
      Gate.encode ⟨handler, KERNEL_CS, 0, 0x80 ||| (level &&& 0b11) <<< 5 ||| 0x0E⟩ := by
  have low : 0x0000ffff#32 = .ofNat 32 (2 ^ 16 - 1) := rfl
  have high : 0xffff0000#32 = BitVec.ofNat 32 (2 ^ 16 - 1) <<< 16 := rfl
  rw [interruptDescriptor, InterruptDescriptor.uint64, Gate.encode, low, high]
  apply BitVec.eq_of_getLsbD_eq
  intro i below
  simp only [getLsbD_mask, BitVec.getLsbD_append, BitVec.getLsbD_and, BitVec.getLsbD_shiftLeft,
    BitVec.getLsbD_ushiftRight, BitVec.getLsbD_extractLsb', BitVec.getLsbD_setWidth]
  grind

theorem vector_interrupt :
    vector (interruptDescriptor handler level).uint64 =
      some (.interrupt KERNEL_CS handler (level.truncate 2)) := by
  have table : ∀ n < 256, (0x80 ||| (BitVec.ofNat 8 n &&& 0b11) <<< 5 ||| 0x0E).getLsbD 7 = true ∧
      (0x80 ||| (BitVec.ofNat 8 n &&& 0b11) <<< 5 ||| 0x0E) &&& 0x1f = 0x0e ∧
      (0x80 ||| (BitVec.ofNat 8 n &&& 0b11) <<< 5 ||| 0x0E).extractLsb' 5 2 =
        (BitVec.ofNat 8 n).truncate 2 := by
    decide +kernel
  obtain ⟨present, type, privilege⟩ := table level.toNat level.isLt
  rw [BitVec.ofNat_toNat, BitVec.setWidth_eq] at present type privilege
  have other : ¬ (0x0e : BitVec 8) = 0x05 := by decide
  simp only [vector, uint64_eq, Gate.decode_encode, present, type, privilege, if_neg other]
  rfl

def trapGate (i : Nat) : BitVec 64 :=
  gate 0 (TRAP_TSS_BASE + 8 * .ofNat 16 i)
    ((ACC_TASK_GATE + if i = 3 then 0x60 else 0).truncate 8) 0

theorem vector_trapGate {i : Nat} (small : i < HANDLER_ENTRIES) :
    vector (trapGate i) =
      some (.task (TRAP_TSS_BASE + 8 * .ofNat 16 i) (if i = 3 then 3 else 0)) := by
  have table : ∀ i < HANDLER_ENTRIES,
      ((ACC_TASK_GATE + if i = 3 then 0x60 else 0).truncate 8 ||| 0x80#8).getLsbD 7 = true ∧
      ((ACC_TASK_GATE + if i = 3 then 0x60 else 0).truncate 8 ||| 0x80#8) &&& 0x1f = 0x05 ∧
      ((ACC_TASK_GATE + if i = 3 then 0x60 else 0).truncate 8 ||| 0x80#8).extractLsb' 5 2 =
        if i = 3 then 3 else 0 := by
    decide
  obtain ⟨present, type, privilege⟩ := table i small
  simp only [vector, trapGate, gate_eq, Gate.decode_encode, present, type, privilege]
  rfl

namespace CpuTables

variable {s : CpuSymbols} {t : CpuTables} {i n : Nat}

theorem setupTrap_loop :
    ((List.range n).foldl (setupTrap s) t).gdt = t.gdt ∧
      ((List.range n).foldl (setupTrap s) t).idt = (List.range n).foldl
        (fun idt i => Function.update idt (.ofNat 8 i) (trapGate i)) t.idt ∧
      ((List.range n).foldl (setupTrap s) t).tasks = (List.range n).foldl
        (fun tasks i => Function.update tasks (s.trapTask i)
          (trapTask s i (tasks (s.trapTask i)))) t.tasks := by
  induction n with
  | zero => exact ⟨rfl, rfl, rfl⟩
  | succ n ih =>
      obtain ⟨gdt, idt, tasks⟩ := ih
      simp only [List.range_succ, List.foldl_append, List.foldl_cons, List.foldl_nil]
      rw [← gdt, ← idt, ← tasks]
      exact ⟨rfl, rfl, rfl⟩

theorem cpuInit_vector : vector ((cpuInit s t).idt v) =
    if v.toNat < HANDLER_ENTRIES then
      some (.task (TRAP_TSS_BASE + 8 * v.zeroExtend 16) (if v = 3 then 3 else 0))
    else none := by
  have loop := @setupTrap_loop s { setupGdt s t with idt := fun _ => 0 } HANDLER_ENTRIES
  have idt : (cpuInit s t).idt = (List.range HANDLER_ENTRIES).foldl
      (fun idt i => Function.update idt (.ofNat 8 i) (trapGate i)) fun _ => 0 := loop.2.1
  have whole : BitVec.ofNat 8 v.toNat = v := by rw [BitVec.ofNat_toNat, BitVec.setWidth_eq]
  rw [idt]
  by_cases small : v.toNat < HANDLER_ENTRIES
  · have distinct : ∀ i < HANDLER_ENTRIES, ∀ j < HANDLER_ENTRIES,
        BitVec.ofNat 8 i = BitVec.ofNat 8 j → i = j := by
      decide +kernel
    have written := @foldl_update_range _ _ _ (fun _ => 0) _ (fun i _ => trapGate i) _ _ distinct
      small
    have fields : ∀ i < HANDLER_ENTRIES,
        8 * BitVec.ofNat 16 i = 8 * (BitVec.ofNat 8 i).zeroExtend 16 ∧
          (i = 3 ↔ BitVec.ofNat 8 i = 3) := by
      decide
    obtain ⟨selector, three⟩ := fields v.toNat small
    rw [whole] at written selector three
    rw [written, vector_trapGate small, if_pos small, selector]
    simp only [three]
  · have other : ∀ i < HANDLER_ENTRIES, BitVec.ofNat 8 i ≠ v := by
      rintro i below rfl
      rw [BitVec.toNat_ofNat] at small
      exact small (Nat.lt_of_le_of_lt (Nat.mod_le _ _) below)
    have untouched := @foldl_update_other _ _ _ (fun _ => 0) _ (fun i _ => trapGate i) _ _ other
    rw [untouched, if_neg small]
    rfl

end CpuTables

/-- After any interrupts have been defined, a vector leads to the handler that was defined last, or
else an exception leads to its task and another vector is not there. -/
theorem vectors_dispatched (s : CpuSymbols) (t : CpuTables) (definitions : List Definition)
    (v : BitVec 8) :
    vector (definitions.foldl defineInterrupt (CpuTables.cpuInit s t).idt v) =
      (definitions.reverse.find? fun d => d.numInterrupt = v).elim
        (if v.toNat < HANDLER_ENTRIES then
          some (.task (TRAP_TSS_BASE + 8 * v.zeroExtend 16) (if v = 3 then 3 else 0))
        else none)
        fun d => some (.interrupt KERNEL_CS d.handler (d.protectionLevel.truncate 2)) := by
  have last : definitions.foldl defineInterrupt (CpuTables.cpuInit s t).idt v = _ :=
    foldl_update_last
  rw [last]
  cases definitions.reverse.find? fun d => decide (d.numInterrupt = v) with
  | none => exact CpuTables.cpuInit_vector
  | some d => exact vector_interrupt

end IntelX86Kernel

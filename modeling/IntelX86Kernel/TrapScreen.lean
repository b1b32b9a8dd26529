import IntelX86Kernel.GdbStub
import IntelX86Kernel.ScreenCells

/-! The screen of `trap_handler` in kernel/debugger.c. -/

namespace IntelX86Kernel

open X86 (Word Memory)

def disp : List (BitVec 8) :=
  (List.range 10).map (fun i => chr '0' + .ofNat 8 i) ++
    (List.range 6).map fun i => chr 'A' + .ofNat 8 i

def writeDigits (m : Memory) (p value : Word) : Nat → Memory
  | 0 => m
  | length + 1 =>
      let p := p - 2
      writeDigits (Function.update m p (disp.getD (value &&& 15).toNat 0)) p (value >>> 4) length

def writeHex (m : Memory) (line col length : Nat) (value : Word) : Memory :=
  writeDigits m (MEM_VIDEO + .ofNat 32 ((line - 1) * 160 + (col + length - 1) * 2)) value length

/-- The arguments of a call of `write_hex`. -/
structure DumpField where
  line : Nat
  col : Nat
  length : Nat
  value : Word

def dumpFields (trapno errorCode address : Word) (t : X86Tss) : List DumpField :=
  [⟨7, 21, 2, trapno⟩, ⟨7, 60, 8, errorCode⟩, ⟨9, 21, 8, address⟩, ⟨9, 69, 4, t.backLink⟩,
    ⟨11, 11, 8, t.esp⟩, ⟨11, 32, 4, t.ss⟩, ⟨11, 52, 8, t.esp0⟩, ⟨11, 74, 4, t.ss0⟩,
    ⟨13, 11, 8, t.esp1⟩, ⟨13, 32, 4, t.ss1⟩, ⟨13, 52, 8, t.esp2⟩, ⟨13, 74, 4, t.ss2⟩,
    ⟨15, 15, 8, t.eip⟩, ⟨15, 41, 4, t.cs⟩, ⟨15, 66, 8, t.eflags⟩, ⟨17, 10, 8, t.eax⟩,
    ⟨17, 30, 8, t.ebx⟩, ⟨17, 50, 8, t.ecx⟩, ⟨17, 70, 8, t.edx⟩, ⟨19, 10, 8, t.esi⟩,
    ⟨19, 30, 8, t.edi⟩, ⟨19, 50, 8, t.ebp⟩, ⟨19, 72, 4, t.ldt⟩, ⟨21, 12, 4, t.ds⟩,
    ⟨21, 32, 4, t.es⟩, ⟨21, 52, 4, t.fs⟩, ⟨21, 72, 4, t.gs⟩, ⟨23, 30, 8, t.cr3⟩,
    ⟨23, 70, 1, t.traceTrap.zeroExtend 32 &&& 1⟩]

/-- The three loops of `dump_registers`; `text` is `task_dump_screen`, whose lines end with a
newline. -/
def drawFrame (text : Nat → BitVec 8) (m : Memory) : Memory :=
  let m := (List.range 25).foldl (fun m i => (List.range 80).foldl (fun m j =>
    Function.update m (videoByte (i * 160 + j * 2)) (text (81 * i + j))) m) m
  let m := (List.range (80 * 25)).foldl (fun m i =>
    Function.update m (videoByte (2 * i + 1)) 0x30) m
  (List.range' 161 78).foldl (fun m i => Function.update m (videoByte (2 * i + 1)) 0x34) m

def DumpField.write (m : Memory) (f : DumpField) : Memory :=
  writeHex m f.line f.col f.length f.value

def dumpRegisters (text : Nat → BitVec 8) (m : Memory) (trapno errorCode address : Word)
    (t : X86Tss) : Memory :=
  (dumpFields trapno errorCode address t).foldl DumpField.write (drawFrame text m)

inductive TrapKey where
  | reboot | ignore | connect
  deriving DecidableEq

/-- `while (inb(0x60) == key)`; there is no result while the key is held. -/
def release (key : BitVec 8) : List (BitVec 8) → Option (List (BitVec 8))
  | [] => none
  | c :: keys => if c = key then release key keys else some keys

theorem release_shorter {key : BitVec 8} {keys rest : List (BitVec 8)}
    (released : release key keys = some rest) : rest.length < keys.length := by
  induction keys with
  | nil => cases released
  | cons c keys ih =>
      rw [release] at released
      split at released
      · exact Nat.lt_succ_of_lt (ih released)
      · rw [Option.some.inj released]
        exact Nat.lt_succ_self _

/-- The loop over the keys, which come from `inb(0x60)`. -/
def trapKeys (dump : Memory → Memory) (videoMem : List (BitVec 8)) (d : Bool) (m : Memory) :
    List (BitVec 8) → Option (TrapKey × Memory × List (BitVec 8))
  | [] => none
  | c :: keys =>
      let restored := m.overwrite MEM_VIDEO videoMem
      if c = 0x39 then
        match _ : release 0x39 keys with
        | none => none
        | some rest => trapKeys dump videoMem (!d) (if d then restored else dump m) rest
      else if c = 1 then some (.reboot, m, keys)
      else if c = 0x17 then (release 0x17 keys).map fun rest => (.ignore, restored, rest)
      else if c = 0x20 then (release 0x20 keys).map fun rest => (.connect, restored, rest)
      else trapKeys dump videoMem d m keys
termination_by keys => keys.length
decreasing_by
  · exact Nat.lt_succ_of_lt (release_shorter ‹_›)
  · exact Nat.lt_succ_self _

/-- `trap_handler` returns with what is left of the keys, unless the machine is restarted. -/
def trapHandler (text : Nat → BitVec 8) (d : Debugger) (cr0 trapno errorCode tss : Word)
    (t : X86Tss) (inbuf : Buffer) (address : Word) (line : SerialLine) (keys : List (BitVec 8)) :
    Except Halt (Option (Debugger × X86Tss × SerialLine)) :=
  if d.doDebug then debugger d cr0 trapno t inbuf address line
  else
    let videoMem := d.memory.stretch MEM_VIDEO 4000
    let dump (m : Memory) := dumpRegisters text m trapno errorCode tss t
    match trapKeys dump videoMem true (dump d.memory) keys with
    | none => .error .waiting
    | some (.reboot, _, _) => .ok none
    | some (.ignore, m, _) => .ok (some ({ d with memory := m }, t, line))
    | some (.connect, m, _) =>
        debugger { d with doDebug := true, memory := m } cr0 trapno t inbuf address line

section Digits

variable {m m' : Memory} {a value : Word} {n i j length : Nat} {fields rest : List DumpField}
  {f g : DumpField}

theorem videoByte_inj (near : i < 2 ^ 20) (near' : j < 2 ^ 20) (same : videoByte i = videoByte j) :
    i = j := by
  have offsets := congrArg BitVec.toNat ((BitVec.add_right_inj MEM_VIDEO).mp same)
  rw [BitVec.toNat_ofNat, BitVec.toNat_ofNat] at offsets
  omega

theorem videoByte_sub_two : videoByte (n + 2) - 2 = videoByte n := by
  have two : (2 : Word) = .ofNat 32 2 := rfl
  rw [videoByte, videoByte, BitVec.ofNat_add, ← BitVec.add_assoc, two, BitVec.add_sub_cancel]

def readDigits (m : Memory) (n : Nat) : Nat → Nat
  | 0 => 0
  | length + 1 => 16 * readDigits m n length + (hex (m (videoByte (n + 2 * length)))).toNat

theorem readDigits_congr
    (same : ∀ k < length, m' (videoByte (n + 2 * k)) = m (videoByte (n + 2 * k))) :
    readDigits m' n length = readDigits m n length := by
  induction length with
  | zero => rfl
  | succ length ih =>
      rw [readDigits, readDigits, same length (Nat.lt_succ_self _),
        ih fun k small => same k (Nat.lt_succ_of_lt small)]

theorem writeDigits_succ : writeDigits m (videoByte (n + 2 * (length + 1))) value (length + 1) =
    writeDigits (Function.update m (videoByte (n + 2 * length))
      (disp.getD (value &&& 15).toNat 0)) (videoByte (n + 2 * length)) (value >>> 4) length := by
  have place : videoByte (n + 2 * (length + 1)) - 2 = videoByte (n + 2 * length) :=
    videoByte_sub_two
  rw [writeDigits]
  simp only [place]

theorem writeDigits_outside (outside : ∀ k < length, a ≠ videoByte (n + 2 * k)) :
    writeDigits m (videoByte (n + 2 * length)) value length a = m a := by
  induction length generalizing m value with
  | zero => rfl
  | succ length ih =>
      rw [writeDigits_succ, ih fun k small => outside k (Nat.lt_succ_of_lt small)]
      exact Function.update_of_ne (outside length (Nat.lt_succ_self _)) _ _

theorem hex_disp : (hex (disp.getD (value &&& 15).toNat 0)).toNat = value.toNat % 16 := by
  have table : ∀ k < 16, (hex (disp.getD k 0)).toNat = k := by decide
  have low : (value &&& 15).toNat = value.toNat % 16 := by
    have mask : ((15 : Word)).toNat = 2 ^ 4 - 1 := rfl
    rw [BitVec.toNat_and, mask, Nat.and_two_pow_sub_one_eq_mod]
  rw [low]
  exact table _ (Nat.mod_lt _ (by decide))

theorem readDigits_writeDigits (inside : n + 2 * length ≤ 4000) :
    readDigits (writeDigits m (videoByte (n + 2 * length)) value length) n length =
      value.toNat % 16 ^ length := by
  induction length generalizing m value with
  | zero => rw [readDigits, Nat.pow_zero, Nat.mod_one]
  | succ length ih =>
      have apart : ∀ k < length, videoByte (n + 2 * length) ≠ videoByte (n + 2 * k) := by
        intro k small same
        have equal := videoByte_inj (by omega) (by omega) same
        omega
      have quotient : (value >>> 4).toNat = value.toNat / 16 := by
        rw [BitVec.toNat_ushiftRight, Nat.shiftRight_eq_div_pow]
      rw [writeDigits_succ, readDigits, ih (by omega), writeDigits_outside apart,
        Function.update_self, hex_disp, quotient, Nat.pow_succ', Nat.mod_mul, Nat.add_comm]

def DumpField.place (f : DumpField) : Nat := (f.line - 1) * 160 + (f.col - 1) * 2

def DumpField.Covers (f : DumpField) (a : Word) : Prop :=
  ∃ k < f.length, a = videoByte (f.place + 2 * k)

def DumpField.Fits (f : DumpField) : Prop := 0 < f.col ∧ f.place + 2 * f.length ≤ 4000

def DumpField.Beside (f g : DumpField) : Prop :=
  f.place + 2 * f.length ≤ g.place ∨ g.place + 2 * g.length ≤ f.place

theorem DumpField.write_eq (fits : f.Fits) :
    f.write m = writeDigits m (videoByte (f.place + 2 * f.length)) f.value f.length := by
  obtain ⟨column, -⟩ := fits
  have place : (f.line - 1) * 160 + (f.col + f.length - 1) * 2 = f.place + 2 * f.length := by
    rw [DumpField.place]
    omega
  rw [DumpField.write, writeHex, place]
  rfl

theorem fields_outside (fits : ∀ f ∈ fields, f.Fits) (outside : ∀ f ∈ fields, ¬ f.Covers a) :
    fields.foldl DumpField.write m a = m a := by
  induction fields generalizing m with
  | nil => rfl
  | cons f rest ih =>
      have here : f.write m a = m a := by
        rw [DumpField.write_eq (fits f List.mem_cons_self)]
        exact writeDigits_outside fun k small same =>
          outside f List.mem_cons_self ⟨k, small, same⟩
      rw [List.foldl_cons, ih (fun g member => fits g (List.mem_cons_of_mem _ member))
        fun g member => outside g (List.mem_cons_of_mem _ member), here]

theorem DumpField.Beside.apart (beside : f.Beside g) (first : f.Fits) (second : g.Fits) {k : Nat}
    (small : k < f.length) : ¬ g.Covers (videoByte (f.place + 2 * k)) := by
  obtain ⟨-, fits⟩ := first
  obtain ⟨-, fits'⟩ := second
  intro covers
  obtain ⟨j, below, same⟩ := covers
  have equal := videoByte_inj (by omega) (by omega) same
  rcases beside with before | behind <;> omega

theorem fields_read (fits : ∀ f ∈ fields, f.Fits) (beside : fields.Pairwise DumpField.Beside)
    (member : f ∈ fields) :
    readDigits (fields.foldl DumpField.write m) f.place f.length =
      f.value.toNat % 16 ^ f.length := by
  induction fields generalizing m with
  | nil => cases member
  | cons g rest ih =>
      obtain ⟨first, later⟩ := List.pairwise_cons.mp beside
      have behind (h : DumpField) (inside : h ∈ rest) : h.Fits :=
        fits h (List.mem_cons_of_mem _ inside)
      rw [List.foldl_cons]
      rcases List.mem_cons.mp member with rfl | inside
      · have own := fits f List.mem_cons_self
        rw [← readDigits_writeDigits own.2, ← DumpField.write_eq own]
        apply readDigits_congr
        intro k small
        exact fields_outside behind fun h there => (first h there).apart own (behind h there) small
      · exact ih behind later inside

end Digits

section Dump

variable {m m' : Memory} {a : Word} {n : Nat} {text : Nat → BitVec 8}
  {trapno errorCode address : Word} {t : X86Tss}

def dumpSpans : List (Nat × Nat) :=
  (dumpFields 0 0 0 {}).map fun f => (f.place, f.length)

theorem dumpFields_spans :
    (dumpFields trapno errorCode address t).map (fun f => (f.place, f.length)) = dumpSpans := rfl

theorem dumpFields_fit : ∀ f ∈ dumpFields trapno errorCode address t, f.Fits := by
  have columns : (dumpFields trapno errorCode address t).map DumpField.col =
      (dumpFields 0 0 0 {}).map DumpField.col := rfl
  have places : ∀ span ∈ dumpSpans, span.1 + 2 * span.2 ≤ 4000 := by decide +kernel
  have positive : ∀ col ∈ (dumpFields 0 0 0 {}).map DumpField.col, 0 < col := by decide +kernel
  intro f member
  constructor
  · apply positive
    rw [← columns]
    exact List.mem_map_of_mem member
  · apply places (f.place, f.length)
    rw [← @dumpFields_spans trapno errorCode address t]
    exact List.mem_map_of_mem (f := fun f : DumpField => (f.place, f.length)) member

theorem dumpFields_beside :
    (dumpFields trapno errorCode address t).Pairwise DumpField.Beside := by
  have spans : dumpSpans.Pairwise fun x y : Nat × Nat =>
      x.1 + 2 * x.2 ≤ y.1 ∨ y.1 + 2 * y.2 ≤ x.1 := by
    decide +kernel
  rw [← @dumpFields_spans trapno errorCode address t, List.pairwise_map] at spans
  exact spans

/-- The dump shows every register in hexadecimal, and otherwise its frame. -/
theorem dump_shows_registers (text : Nat → BitVec 8) (m : Memory)
    (trapno errorCode address : Word) (t : X86Tss) :
    (∀ f ∈ dumpFields trapno errorCode address t,
        readDigits (dumpRegisters text m trapno errorCode address t) f.place f.length =
          f.value.toNat % 16 ^ f.length) ∧
      ∀ a, (∀ f ∈ dumpFields trapno errorCode address t, ¬ f.Covers a) →
        dumpRegisters text m trapno errorCode address t a = drawFrame text m a :=
  ⟨fun _ member => fields_read dumpFields_fit dumpFields_beside member,
    fun _ outside => fields_outside dumpFields_fit outside⟩

def Offscreen (a : Word) : Prop := 4000 ≤ (a - MEM_VIDEO).toNat

theorem Offscreen.apart (off : Offscreen a) (near : n < 4000) : a ≠ videoByte n := by
  intro same
  have offset : (videoByte n - MEM_VIDEO).toNat = n := by
    rw [videoByte, BitVec.add_comm, BitVec.add_sub_cancel, BitVec.toNat_ofNat]
    omega
  rw [Offscreen, same, offset] at off
  omega

theorem foldl_same {f : Memory → Nat → Memory} {l : List Nat}
    (keeps : ∀ m, ∀ i ∈ l, f m i a = m a) : l.foldl f m a = m a := by
  induction l generalizing m with
  | nil => rfl
  | cons i rest ih =>
      rw [List.foldl_cons, ih fun m j member => keeps m j (List.mem_cons_of_mem _ member),
        keeps m i List.mem_cons_self]

theorem drawFrame_offscreen (off : Offscreen a) : drawFrame text m a = m a := by
  rw [drawFrame, foldl_same, foldl_same, foldl_same]
  · intro m i member
    apply foldl_same
    intro m j inner
    have line := List.mem_range.mp member
    have column := List.mem_range.mp inner
    exact Function.update_of_ne (off.apart (by omega)) _ _
  · intro m i member
    have cell := List.mem_range.mp member
    exact Function.update_of_ne (off.apart (by omega)) _ _
  · intro m i member
    have cell := List.mem_range'_1.mp member
    exact Function.update_of_ne (off.apart (by omega)) _ _

theorem dumpRegisters_offscreen (off : Offscreen a) :
    dumpRegisters text m trapno errorCode address t a = m a := by
  have outside : ∀ f ∈ dumpFields trapno errorCode address t, ¬ f.Covers a := by
    intro f member covers
    obtain ⟨-, fits⟩ := dumpFields_fit f member
    obtain ⟨k, small, same⟩ := covers
    exact off.apart (by omega) same
  rw [dumpRegisters, fields_outside dumpFields_fit outside, drawFrame_offscreen off]

theorem overwrite_restores (same : ∀ a, Offscreen a → m' a = m a) :
    m'.overwrite MEM_VIDEO (m.stretch MEM_VIDEO 4000) = m := by
  funext a
  by_cases off : Offscreen a
  · rw [Memory.overwrite_outside, same a off]
    rw [Memory.stretch, List.length_map, X86.consecutive_length]
    exact off
  · have near : (a - MEM_VIDEO).toNat < 4000 := Nat.lt_of_not_le off
    have place : MEM_VIDEO + .ofNat 32 (a - MEM_VIDEO).toNat = a := by
      rw [BitVec.ofNat_toNat, BitVec.setWidth_eq, BitVec.add_comm, BitVec.sub_add_cancel]
    rw [Memory.overwrite, Memory.stretch, X86.consecutive, List.getD_eq_getElem?_getD,
      List.getElem?_map, List.getElem?_map, List.getElem?_range near, Option.map_some,
      Option.map_some, place]
    rfl

end Dump

section Keys

variable {m m₀ m' : Memory} {dump : Memory → Memory} {d : Bool} {keys rest : List (BitVec 8)}
  {ending : TrapKey}

theorem released_memory {key : BitVec 8} {shown : TrapKey}
    (returns : ((release key keys).map fun rest => (shown, m₀, rest)) = some (ending, m', rest)) :
    m' = m₀ := by
  obtain ⟨others, -, same⟩ := Option.map_eq_some_iff.mp returns
  exact (Prod.mk.inj (Prod.mk.inj same).2).1.symm

theorem trapKeys_restores (dumps : ∀ m a, Offscreen a → dump m a = m a)
    (off : ∀ a, Offscreen a → m a = m₀ a)
    (returns : trapKeys dump (m₀.stretch MEM_VIDEO 4000) d m keys = some (ending, m', rest))
    (goesOn : ending ≠ .reboot) : m' = m₀ := by
  induction size : keys.length using Nat.strong_induction_on generalizing d m keys with
  | _ k ih =>
      have restored : m.overwrite MEM_VIDEO (m₀.stretch MEM_VIDEO 4000) = m₀ :=
        overwrite_restores off
      cases keys with
      | nil =>
          rw [trapKeys] at returns
          cases returns
      | cons c keys =>
          rw [trapKeys] at returns
          simp only [restored] at returns
          split at returns
          · split at returns
            · cases returns
            · rename_i others released
              have shorter : others.length < k := by
                rw [← size]
                exact Nat.lt_succ_of_lt (release_shorter released)
              have still : ∀ a, Offscreen a → (if d then m₀ else dump m) a = m₀ a := by
                intro a far
                cases d with
                | true => rfl
                | false => exact (dumps m a far).trans (off a far)
              exact ih _ shorter still returns rfl
          · split at returns
            · rw [← (Prod.mk.inj (Option.some.inj returns)).1] at goesOn
              exact absurd rfl goesOn
            · split at returns
              · exact released_memory returns
              · split at returns
                · exact released_memory returns
                · have shorter : keys.length < k := by
                    rw [← size]
                    exact Nat.lt_succ_self _
                  exact ih _ shorter off returns rfl

end Keys

/-- An exception that is handled while the debugger is off, whatever keys are pressed: the memory
and the task are left alone, or the debugger gets them as they were. -/
theorem trap_handler_restores (text : Nat → BitVec 8) {d d' : Debugger}
    (off : d.doDebug = false) (cr0 trapno errorCode tss : Word) (t : X86Tss) (inbuf : Buffer)
    (address : Word) (line : SerialLine) (keys : List (BitVec 8)) {t' : X86Tss} {line' : SerialLine}
    (returns : trapHandler text d cr0 trapno errorCode tss t inbuf address line keys =
      .ok (some (d', t', line'))) :
    d' = d ∧ t' = t ∧ line' = line ∨
      debugger { d with doDebug := true } cr0 trapno t inbuf address line =
        .ok (some (d', t', line')) := by
  have dumps (m : Memory) (a : Word) (far : Offscreen a) :
      dumpRegisters text m trapno errorCode tss t a = m a := dumpRegisters_offscreen far
  simp only [trapHandler, off, Bool.false_eq_true, if_false] at returns
  split at returns
  · cases returns
  · cases Except.ok.inj returns
  · rename_i m rest found
    have same := trapKeys_restores dumps (fun a far => dumps d.memory a far) found (by decide)
    obtain ⟨first, second⟩ := Prod.mk.inj (Option.some.inj (Except.ok.inj returns))
    obtain ⟨third, fourth⟩ := Prod.mk.inj second
    refine .inl ⟨?_, third.symm, fourth.symm⟩
    rw [← first, same, ← off]
  · rename_i m rest found
    have same := trapKeys_restores dumps (fun a far => dumps d.memory a far) found (by decide)
    rw [same] at returns
    exact .inr returns

/-- The screen is looked at, and then the exception is ignored. -/
theorem trap_handler_restores_ignored : ∃ d' t' line',
    trapHandler (fun _ => 0x20) ⟨false, false, false, fun _ => 0⟩ 0 14 0 0x20000 {} .zero 0x1000
        ⟨[], []⟩ [0x39, 0x39, 0x80, 0x17, 0x80] = .ok (some (d', t', line')) ∧
      (d' = ⟨false, false, false, fun _ => 0⟩ ∧ t' = {} ∧ line' = ⟨[], []⟩ ∨
        debugger ⟨true, false, false, fun _ => 0⟩ 0 14 {} .zero 0x1000 ⟨[], []⟩ =
          .ok (some (d', t', line'))) := by
  have pressed (dump : Memory → Memory) (videoMem : List (BitVec 8)) (m : Memory) :
      ∃ m', trapKeys dump videoMem true m [0x39, 0x39, 0x80, 0x17, 0x80] =
        some (.ignore, m', []) := by
    simp [trapKeys, release]
  obtain ⟨d', returns⟩ : ∃ d', trapHandler (fun _ => 0x20) ⟨false, false, false, fun _ => 0⟩ 0 14 0
      0x20000 {} .zero 0x1000 ⟨[], []⟩ [0x39, 0x39, 0x80, 0x17, 0x80] =
        .ok (some (d', {}, ⟨[], []⟩)) := by
    simp only [trapHandler, Bool.false_eq_true, if_false]
    obtain ⟨m', found⟩ := pressed _ _ _
    rw [found]
    exact ⟨_, rfl⟩
  exact ⟨d', {}, _, returns,
    trap_handler_restores _ rfl 0 14 0 0x20000 {} .zero 0x1000 ⟨[], []⟩ _ returns⟩

end IntelX86Kernel

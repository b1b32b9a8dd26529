import IntelX86Kernel.State

/-! Segment descriptors, as kernel/boot/processor_structs.c writes them and kernel/debugger.c
reads them. -/

namespace IntelX86Kernel

def SZ_G : BitVec 32 := 0x8
def ACC_P : BitVec 32 := 0x80

abbrev Gdt := BitVec 16 → BitVec 64

def descriptor (base limit access sizebits : BitVec 32) : BitVec 64 :=
  let large := 0xfffff#32 < limit
  let sizebits := if large then sizebits ||| SZ_G else sizebits
  let limit := if large then limit >>> 12 else limit
  let p0 := (limit &&& 0xffff#32) + ((base &&& 0xffff#32) <<< 16)
  let p1 := (base >>> 16) &&& 0xff#32
  let p1 := p1 ||| ((access ||| ACC_P) &&& 0xff#32) <<< 8
  let p1 := p1 ||| (limit &&& 0xf0000#32)
  let p1 := p1 ||| (sizebits &&& 0xf#32) <<< 20
  let p1 := p1 ||| (base &&& 0xff000000#32)
  (p1.zeroExtend 64) <<< 32 ||| p0.zeroExtend 64

def fillDescriptor (gdt : Gdt) (entry : BitVec 16) (addr limit access sizebits : BitVec 32) : Gdt :=
  Function.update gdt entry (descriptor addr limit access sizebits)

def pdesc (d : BitVec 64) (offset : Nat) : BitVec 8 := d.extractLsb' (8 * offset) 8

def tssSel2Tss (gdt : Gdt) (sel : BitVec 16) : BitVec 32 :=
  let d := gdt (sel >>> 3)
  let word : BitVec 32 := pdesc d 5 ++ pdesc d 4 ++ pdesc d 3 ++ pdesc d 2
  let p := word &&& 0xffffff#32
  p + ((pdesc d 7).zeroExtend 32) <<< 24

/-- The limit of the segment, in bytes: a field of twenty bits that counts pages when the
granularity bit is set. -/
def segmentLimit (d : BitVec 64) : Nat :=
  let field := (d.extractLsb' 48 4 ++ d.extractLsb' 0 16).toNat
  if d.getLsbD 55 then field * 4096 + 4095 else field

def accessByte (d : BitVec 64) : BitVec 8 := pdesc d 5

variable {base limit access sizebits : BitVec 32}

/-- The fields of a descriptor in the order of the word, the highest first. -/
def packed (base : BitVec 32) (size : BitVec 4) (limit : BitVec 20) (access : BitVec 8) :
    BitVec 64 :=
  base.extractLsb' 24 8 ++ size ++ limit.extractLsb' 16 4 ++ access ++ base.extractLsb' 0 24 ++
    limit.extractLsb' 0 16

theorem getLsbD_mask (n i : Nat) :
    (BitVec.ofNat 32 (2 ^ n - 1)).getLsbD i = (decide (i < 32) && decide (i < n)) := by
  rw [BitVec.getLsbD_ofNat, Nat.testBit_two_pow_sub_one]

theorem low_half : (limit &&& 0xffff#32) + ((base &&& 0xffff#32) <<< 16) =
    base.extractLsb' 0 16 ++ limit.extractLsb' 0 16 := by
  have mask : 0xffff#32 = .ofNat 32 (2 ^ 16 - 1) := rfl
  have disjoint : (limit &&& 0xffff#32) &&& ((base &&& 0xffff#32) <<< 16) = 0#32 := by
    rw [mask]
    apply BitVec.eq_of_getLsbD_eq
    intro i below
    simp only [getLsbD_mask, BitVec.getLsbD_and, BitVec.getLsbD_shiftLeft, BitVec.getLsbD_zero,
      below]
    grind
  rw [BitVec.add_eq_or_of_and_eq_zero _ _ disjoint, mask]
  apply BitVec.eq_of_getLsbD_eq
  intro i below
  simp only [getLsbD_mask, BitVec.getLsbD_append, BitVec.getLsbD_or, BitVec.getLsbD_and,
    BitVec.getLsbD_shiftLeft, BitVec.getLsbD_extractLsb', below]
  grind

def storedSize (limit sizebits : BitVec 32) : BitVec 32 :=
  if 0xfffff#32 < limit then sizebits ||| SZ_G else sizebits

def storedLimit (limit : BitVec 32) : BitVec 32 :=
  if 0xfffff#32 < limit then limit >>> 12 else limit

theorem descriptor_eq : descriptor base limit access sizebits =
    packed base ((storedSize limit sizebits).extractLsb' 0 4)
      ((storedLimit limit).extractLsb' 0 20) ((access ||| ACC_P).extractLsb' 0 8) := by
  have byte : 0xff#32 = .ofNat 32 (2 ^ 8 - 1) := rfl
  have nibble : 0xf#32 = .ofNat 32 (2 ^ 4 - 1) := rfl
  have middle : 0xf0000#32 = BitVec.ofNat 32 (2 ^ 4 - 1) <<< 16 := rfl
  have high : 0xff000000#32 = BitVec.ofNat 32 (2 ^ 8 - 1) <<< 24 := rfl
  rw [descriptor, packed, ← storedSize, ← storedLimit, low_half, byte, nibble, middle, high]
  apply BitVec.eq_of_getLsbD_eq
  intro i below
  simp only [getLsbD_mask, BitVec.getLsbD_append, BitVec.getLsbD_or, BitVec.getLsbD_and,
    BitVec.getLsbD_shiftLeft, BitVec.getLsbD_ushiftRight, BitVec.getLsbD_extractLsb',
    BitVec.getLsbD_setWidth, below]
  grind

section Fields

variable {size : BitVec 4} {field : BitVec 20} {acc : BitVec 8}

theorem packed_access : accessByte (packed base size field acc) = acc := by
  rw [accessByte, pdesc, packed]
  apply BitVec.eq_of_getLsbD_eq
  intro i below
  simp only [BitVec.getLsbD_append, BitVec.getLsbD_extractLsb', below]
  grind

theorem packed_field : (packed base size field acc).extractLsb' 48 4 ++
    (packed base size field acc).extractLsb' 0 16 = field := by
  rw [packed]
  apply BitVec.eq_of_getLsbD_eq
  intro i below
  simp only [BitVec.getLsbD_append, BitVec.getLsbD_extractLsb']
  grind

theorem packed_granularity : (packed base size field acc).getLsbD 55 = size.getLsbD 3 := by
  rw [packed]
  simp only [BitVec.getLsbD_append, BitVec.getLsbD_extractLsb']
  grind

theorem packed_base {gdt : Gdt} {sel : BitVec 16}
    (here : gdt (sel >>> 3) = packed base size field acc) : tssSel2Tss gdt sel = base := by
  have mask : 0xffffff#32 = .ofNat 32 (2 ^ 24 - 1) := rfl
  rw [tssSel2Tss, here, mask, BitVec.add_eq_or_of_and_eq_zero]
  · apply BitVec.eq_of_getLsbD_eq
    intro i below
    simp only [pdesc, packed, getLsbD_mask, BitVec.getLsbD_append, BitVec.getLsbD_or,
      BitVec.getLsbD_and, BitVec.getLsbD_shiftLeft, BitVec.getLsbD_extractLsb',
      BitVec.getLsbD_setWidth, below]
    grind
  · apply BitVec.eq_of_getLsbD_eq
    intro i below
    simp only [getLsbD_mask, BitVec.getLsbD_and, BitVec.getLsbD_shiftLeft, BitVec.getLsbD_zero,
      below]
    grind

end Fields

theorem storedSize_granularity (bytes : sizebits &&& SZ_G = 0) :
    ((storedSize limit sizebits).extractLsb' 0 4).getLsbD 3 = decide (0xfffff#32 < limit) := by
  have bit : (sizebits &&& SZ_G).getLsbD 3 = sizebits.getLsbD 3 := by
    rw [BitVec.getLsbD_and]
    exact Bool.and_true _
  have clear : sizebits.getLsbD 3 = false := by
    rw [← bit, bytes]
    rfl
  rw [BitVec.getLsbD_extractLsb', storedSize]
  by_cases large : 0xfffff#32 < limit
  · rw [if_pos large, BitVec.getLsbD_or, decide_eq_true large]
    exact Bool.or_true _
  · rw [if_neg large, decide_eq_false large]
    exact clear

theorem storedLimit_toNat : ((storedLimit limit).extractLsb' 0 20).toNat =
    if 0xfffff#32 < limit then limit.toNat / 4096 else limit.toNat := by
  have bound := limit.isLt
  rw [BitVec.extractLsb'_toNat, Nat.shiftRight_zero, storedLimit]
  by_cases large : 0xfffff#32 < limit
  · rw [if_pos large, if_pos large, BitVec.toNat_ushiftRight, Nat.shiftRight_eq_div_pow]
    omega
  · have small : limit.toNat ≤ 0xfffff := Nat.le_of_not_lt large
    rw [if_neg large, if_neg large]
    omega

theorem segmentLimit_descriptor (bytes : sizebits &&& SZ_G = 0) :
    segmentLimit (descriptor base limit access sizebits) =
      if 0xfffff#32 < limit then limit.toNat / 4096 * 4096 + 4095 else limit.toNat := by
  rw [segmentLimit, descriptor_eq, packed_field, packed_granularity,
    storedSize_granularity bytes, storedLimit_toNat]
  by_cases large : 0xfffff#32 < limit
  · rw [decide_eq_true large, if_pos rfl, if_pos large, if_pos large]
  · rw [decide_eq_false large, if_neg Bool.false_ne_true, if_neg large, if_neg large]

/-- A descriptor decodes to the base, the limit up to a page, and the access byte. -/
theorem descriptor_decodes (gdt : Gdt) (sel : BitVec 16) (addr limit access sizebits : BitVec 32)
    (bytes : sizebits &&& SZ_G = 0) :
    tssSel2Tss (fillDescriptor gdt (sel >>> 3) addr limit access sizebits) sel = addr ∧
      limit.toNat ≤ segmentLimit
        (fillDescriptor gdt (sel >>> 3) addr limit access sizebits (sel >>> 3)) ∧
      segmentLimit (fillDescriptor gdt (sel >>> 3) addr limit access sizebits (sel >>> 3)) <
        limit.toNat + 4096 ∧
      accessByte (fillDescriptor gdt (sel >>> 3) addr limit access sizebits (sel >>> 3)) =
        access.truncate 8 ||| 0x80#8 := by
  have written : fillDescriptor gdt (sel >>> 3) addr limit access sizebits (sel >>> 3) =
      descriptor addr limit access sizebits := Function.update_self ..
  rw [written, segmentLimit_descriptor bytes]
  refine ⟨packed_base (written.trans descriptor_eq), ?_, ?_, ?_⟩
  · split
    · omega
    · exact Nat.le_refl _
  · split
    · omega
    · omega
  · have present : ACC_P.extractLsb' 0 8 = 0x80#8 := rfl
    rw [descriptor_eq, packed_access, BitVec.extractLsb'_or, present]
    rfl

/-- The descriptor of a code segment over the whole memory. -/
theorem descriptor_decodes_code :
    tssSel2Tss (fillDescriptor (fun _ => 0) (0x10 >>> 3) 0 0xffffffff 0x1a 0x4) 0x10 = 0 ∧
      (0xffffffff : BitVec 32).toNat ≤ segmentLimit
        (fillDescriptor (fun _ => 0) (0x10 >>> 3) 0 0xffffffff 0x1a 0x4 (0x10 >>> 3)) ∧
      segmentLimit (fillDescriptor (fun _ => 0) (0x10 >>> 3) 0 0xffffffff 0x1a 0x4 (0x10 >>> 3)) <
        (0xffffffff : BitVec 32).toNat + 4096 ∧
      accessByte (fillDescriptor (fun _ => 0) (0x10 >>> 3) 0 0xffffffff 0x1a 0x4 (0x10 >>> 3)) =
        (0x1a : BitVec 32).truncate 8 ||| 0x80#8 :=
  descriptor_decodes (fun _ => 0) 0x10 0 0xffffffff 0x1a 0x4 (by decide)

end IntelX86Kernel

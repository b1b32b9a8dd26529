import Mathlib.Data.BitVec
import Mathlib.Tactic.Ring

/-! Shifts and divisions of the x86 on two registers that hold a number of 64 bits, and the
error of a quotient that is estimated from the highest bits. -/

namespace X86

/-- The position of the highest set bit, for a register that is not zero. -/
def bsr (n : BitVec 32) : BitVec 32 := .ofNat 32 (Nat.log2 n.toNat)

/-- Shifts are counted by the five lowest bits of the register. -/
def shiftCount (count : BitVec 32) : Nat := (count &&& 31#32).toNat

def shr (dest count : BitVec 32) : BitVec 32 := dest >>> shiftCount count

def shrd (dest src count : BitVec 32) : BitVec 32 :=
  ((src ++ dest) >>> shiftCount count).truncate 32

/-- Quotient and remainder of the pair of registers by the operand, unless there is a divide
error. -/
def divl (edx eax operand : BitVec 32) : Option (BitVec 32 × BitVec 32) :=
  let dividend := (edx ++ eax).toNat
  if operand = 0 ∨ 2 ^ 32 ≤ dividend / operand.toNat then none
  else some (.ofNat 32 (dividend / operand.toNat), .ofNat 32 (dividend % operand.toNat))

section Registers

variable {hi lo operand count : BitVec 32}

theorem pair_toNat (hi lo : BitVec 32) : (hi ++ lo).toNat = hi.toNat * 2 ^ 32 + lo.toNat := by
  rw [BitVec.toNat_append, ← Nat.shiftLeft_add_eq_or_of_lt lo.isLt, Nat.shiftLeft_eq]

theorem bsr_bounds (nonzero : hi ≠ 0) :
    (bsr hi).toNat < 32 ∧ 2 ^ (bsr hi).toNat ≤ hi.toNat ∧ hi.toNat < 2 ^ ((bsr hi).toNat + 1) := by
  have positive : hi.toNat ≠ 0 := fun zero => nonzero (BitVec.eq_of_toNat_eq zero)
  have below : Nat.log2 hi.toNat < 32 := (Nat.log2_lt positive).mpr hi.isLt
  have exact : (bsr hi).toNat = Nat.log2 hi.toNat := by
    rw [bsr, BitVec.toNat_ofNat]
    omega
  rw [exact]
  exact ⟨below, Nat.log2_self_le positive, Nat.lt_log2_self⟩

theorem shiftCount_eq : shiftCount count = count.toNat % 32 := by
  rw [shiftCount, BitVec.toNat_and]
  exact Nat.and_two_pow_sub_one_eq_mod count.toNat 5

theorem shr_toNat (small : count.toNat < 32) :
    (shr hi count).toNat = hi.toNat / 2 ^ count.toNat := by
  rw [shr, shiftCount_eq, Nat.mod_eq_of_lt small, BitVec.toNat_ushiftRight,
    Nat.shiftRight_eq_div_pow]

theorem shrd_toNat (small : count.toNat < 32) :
    (shrd lo hi count).toNat = (hi ++ lo).toNat / 2 ^ count.toNat % 2 ^ 32 := by
  rw [shrd, shiftCount_eq, Nat.mod_eq_of_lt small, BitVec.truncate_eq_setWidth,
    BitVec.toNat_setWidth, BitVec.toNat_ushiftRight, Nat.shiftRight_eq_div_pow]

theorem shift_pair (small : count.toNat < 32) :
    (shr hi count ++ shrd lo hi count).toNat = (hi ++ lo).toNat / 2 ^ count.toNat := by
  have high : hi.toNat = (hi ++ lo).toNat / 2 ^ 32 := by
    rw [pair_toNat]
    omega
  rw [pair_toNat (shr hi count), shr_toNat small, shrd_toNat small, high, Nat.div_div_eq_div_mul,
    Nat.mul_comm (2 ^ 32), ← Nat.div_div_eq_div_mul]
  omega

theorem divl_zero : divl hi lo 0 = none := by
  rw [divl]
  exact if_pos (.inl rfl)

theorem divl_eq (lo : BitVec 32) (below : hi.toNat < operand.toNat) :
    ∃ quotient remainder, divl hi lo operand = some (quotient, remainder) ∧
      quotient.toNat = (hi ++ lo).toNat / operand.toNat ∧
      remainder.toNat = (hi ++ lo).toNat % operand.toNat := by
  have positive : 0 < operand.toNat := Nat.lt_of_le_of_lt (Nat.zero_le _) below
  have nonzero : operand ≠ 0 := by
    rintro rfl
    exact absurd positive (Nat.lt_irrefl 0)
  have fits : (hi ++ lo).toNat / operand.toNat < 2 ^ 32 := by
    apply (Nat.div_lt_iff_lt_mul positive).mpr
    have low := lo.isLt
    have product := Nat.mul_le_mul_right (2 ^ 32) (Nat.succ_le_of_lt below)
    rw [pair_toNat]
    calc hi.toNat * 2 ^ 32 + lo.toNat < (hi.toNat + 1) * 2 ^ 32 := by omega
      _ ≤ operand.toNat * 2 ^ 32 := product
      _ = 2 ^ 32 * operand.toNat := Nat.mul_comm ..
  have rest : (hi ++ lo).toNat % operand.toNat < 2 ^ 32 :=
    Nat.lt_trans (Nat.mod_lt _ positive) operand.isLt
  have regular : ¬ (operand = 0 ∨ 2 ^ 32 ≤ (hi ++ lo).toNat / operand.toNat) := by
    rintro (zero | large)
    · exact nonzero zero
    · exact absurd fits (Nat.not_lt.mpr large)
  refine ⟨.ofNat 32 ((hi ++ lo).toNat / operand.toNat),
    .ofNat 32 ((hi ++ lo).toNat % operand.toNat), if_neg regular, ?_, ?_⟩
  · rw [BitVec.toNat_ofNat, Nat.mod_eq_of_lt fits]
  · rw [BitVec.toNat_ofNat, Nat.mod_eq_of_lt rest]

end Registers

section Estimate

variable {x y k : Nat}

/-- The highest bits of the dividend by the highest bits of the divisor plus one. -/
def estimate (x y k : Nat) : Nat := x / 2 ^ k / (y / 2 ^ k + 1)

theorem estimate_mul_le : estimate x y k * y ≤ x := by
  have above : y < (y / 2 ^ k + 1) * 2 ^ k :=
    Nat.lt_mul_of_div_lt (Nat.lt_succ_self _) (Nat.two_pow_pos k)
  calc estimate x y k * y ≤ estimate x y k * ((y / 2 ^ k + 1) * 2 ^ k) :=
        Nat.mul_le_mul_left _ (Nat.le_of_lt above)
    _ = estimate x y k * (y / 2 ^ k + 1) * 2 ^ k := (Nat.mul_assoc ..).symm
    _ ≤ x / 2 ^ k * 2 ^ k := Nat.mul_le_mul_right _ (Nat.div_mul_le_self ..)
    _ ≤ x := Nat.div_mul_le_self ..

/-- The error of the estimate, when what the truncations lose is at most `e` divisors. -/
theorem lt_estimate_add {e : Nat} (lost : (estimate x y k + 1) * 2 ^ k ≤ e * y) :
    x < (estimate x y k + 1 + e) * y := by
  have high : x / 2 ^ k < (estimate x y k + 1) * (y / 2 ^ k + 1) :=
    Nat.lt_mul_of_div_lt (Nat.lt_succ_self _) (Nat.succ_pos _)
  have whole : x < (x / 2 ^ k + 1) * 2 ^ k :=
    Nat.lt_mul_of_div_lt (Nat.lt_succ_self _) (Nat.two_pow_pos k)
  calc x < (x / 2 ^ k + 1) * 2 ^ k := whole
    _ ≤ (estimate x y k + 1) * (y / 2 ^ k + 1) * 2 ^ k := Nat.mul_le_mul_right _ high
    _ = (estimate x y k + 1) * (y / 2 ^ k * 2 ^ k) + (estimate x y k + 1) * 2 ^ k := by ring
    _ ≤ (estimate x y k + 1) * y + e * y :=
        Nat.add_le_add (Nat.mul_le_mul_left _ (Nat.div_mul_le_self ..)) lost
    _ = (estimate x y k + 1 + e) * y := (Nat.add_mul ..).symm

end Estimate

end X86

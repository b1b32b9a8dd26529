import IntelX86Kernel.X86Arithmetic

/-! The 64-bit division of shared/div64.c. -/

namespace IntelX86Kernel

open X86

/-- `endless` is a loop that does not end in the given number of turns. -/
inductive DivFault
  | divideError
  | endless
  deriving DecidableEq

def hardBsr (n : BitVec 32) : BitVec 32 := bsr n

/-- The values of `x1` and `x0` after `rshift64(x1, x0, n)`. -/
def rshift64 (x1 x0 n : BitVec 32) : BitVec 32 × BitVec 32 :=
  let x0 := shrd x0 x1 n
  let x1 := shr x1 n
  if n &&& 32#32 = 0#32 then (x1, x0) else (0, x1)

/-- The value of `x0` after `rshift64_32(x1, x0, n)`. -/
def rshift6432 (x1 x0 n : BitVec 32) : BitVec 32 :=
  let x0 := shrd x0 x1 n
  if n &&& 32#32 = 0#32 then x0 else x1

/-- The values of `x1` and `x0` after `div64_32(x1, x0, y)`. -/
def div6432 (x1 x0 y : BitVec 32) : Except DivFault (BitVec 32 × BitVec 32) :=
  match divl x1 x0 y with
  | none => .error .divideError
  | some (quotient, remainder) => .ok (remainder, quotient)

/-- The loop `while (r >= y)`, with the values of `x0` and `r` at its end. -/
def correct (y : BitVec 64) : Nat → BitVec 32 → BitVec 64 → Except DivFault (BitVec 32 × BitVec 64)
  | 0, _, _ => .error .endless
  | turns + 1, x0, r => if y ≤ r then correct y turns (x0 + 1) (r - y) else .ok (x0, r)

/-- The result of `do_div64` and the value of `*rem`. -/
def doDiv64 (turns : Nat) (x y : BitVec 64) : Except DivFault (BitVec 64 × BitVec 64) :=
  let y1 : BitVec 32 := (y >>> 32).truncate 32
  let y0 : BitVec 32 := y.truncate 32
  let x1 : BitVec 32 := (x >>> 32).truncate 32
  let x0 : BitVec 32 := x.truncate 32
  if y1 ≠ 0 then do
    let l := hardBsr y1 + 1
    let y0 := rshift6432 y1 y0 l
    let shifted := rshift64 x1 x0 l
    let divided ← div6432 shifted.1 shifted.2 (y0 + 1)
    let x0 := divided.2
    let r := x - y * x0.zeroExtend 64
    let corrected ← correct y turns x0 r
    .ok (corrected.1.zeroExtend 64, corrected.2)
  else if x1 < y0 then do
    let divided ← div6432 x1 x0 y0
    .ok (divided.2.zeroExtend 64, divided.1.zeroExtend 64)
  else if y0 ≠ 0 then do
    let high ← div6432 0 x1 y0
    let low ← div6432 high.1 x0 y0
    .ok ((high.2.zeroExtend 64 <<< 32) + low.2.zeroExtend 64, low.1.zeroExtend 64)
  else .ok (0, x)

variable {x1 x0 y1 y0 l : BitVec 32} {x y q rem : BitVec 64}

def Exact (x y q rem : BitVec 64) : Prop :=
  x.toNat = q.toNat * y.toNat + rem.toNat ∧ rem.toNat < y.toNat

/-- The 32 bits from the highest set bit of the divisor on are all ones. -/
def LeadingOnes (y : BitVec 64) : Prop :=
  2 ^ 32 ≤ y.toNat ∧ y.toNat / 2 ^ (Nat.log2 y.toNat - 31) = 2 ^ 32 - 1

theorem toNat_high : ((x >>> 32).truncate 32).toNat = x.toNat / 2 ^ 32 := by
  have bound := x.isLt
  rw [BitVec.truncate_eq_setWidth, BitVec.toNat_setWidth, BitVec.toNat_ushiftRight,
    Nat.shiftRight_eq_div_pow]
  omega

theorem toNat_zeroExtend {v : BitVec 32} : (v.zeroExtend 64).toNat = v.toNat := by
  rw [BitVec.zeroExtend_eq_setWidth, BitVec.toNat_setWidth]
  have bound := v.isLt
  omega

theorem halves_eq : (x >>> 32).truncate 32 ++ x.truncate 32 = x := by
  apply BitVec.eq_of_toNat_eq
  rw [pair_toNat, toNat_high, BitVec.truncate_eq_setWidth, BitVec.toNat_setWidth]
  omega

theorem shift_test (bounded : l.toNat ≤ 32) : l &&& 32#32 = 0#32 ↔ l.toNat < 32 := by
  have table : ∀ n ≤ 32, BitVec.ofNat 32 n &&& 32#32 = 0#32 ↔ n < 32 := by decide
  have same := table l.toNat bounded
  rw [BitVec.ofNat_toNat, BitVec.setWidth_eq] at same
  exact same

theorem rshift64_toNat (x1 x0 : BitVec 32) (bounded : l.toNat ≤ 32) :
    ((rshift64 x1 x0 l).1 ++ (rshift64 x1 x0 l).2).toNat = (x1 ++ x0).toNat / 2 ^ l.toNat := by
  rw [rshift64]
  by_cases small : l.toNat < 32
  · rw [if_pos ((shift_test bounded).mpr small)]
    exact shift_pair small
  · have full : l.toNat = 32 := by omega
    have kept : shr x1 l = x1 := by
      rw [shr, shiftCount_eq, full]
      rfl
    have zero : (0 : BitVec 32).toNat = 0 := rfl
    rw [if_neg (small ∘ (shift_test bounded).mp), kept]
    change ((0 : BitVec 32) ++ x1).toNat = _
    rw [pair_toNat, pair_toNat, full, zero]
    omega

theorem rshift6432_toNat (bounded : l.toNat ≤ 32) (fits : (y1 ++ y0).toNat / 2 ^ l.toNat < 2 ^ 32) :
    (rshift6432 y1 y0 l).toNat = (y1 ++ y0).toNat / 2 ^ l.toNat := by
  rw [rshift6432]
  by_cases small : l.toNat < 32
  · rw [if_pos ((shift_test bounded).mpr small), shrd_toNat small, Nat.mod_eq_of_lt fits]
  · have full : l.toNat = 32 := by omega
    rw [if_neg (small ∘ (shift_test bounded).mp), pair_toNat, full]
    omega

theorem div6432_eq (x0 : BitVec 32) (below : x1.toNat < y0.toNat) :
    ∃ remainder quotient, div6432 x1 x0 y0 = .ok (remainder, quotient) ∧
      quotient.toNat = (x1 ++ x0).toNat / y0.toNat ∧
      remainder.toNat = (x1 ++ x0).toNat % y0.toNat := by
  obtain ⟨quotient, remainder, divided, quotient_eq, remainder_eq⟩ := divl_eq x0 below
  refine ⟨remainder, quotient, ?_, quotient_eq, remainder_eq⟩
  rw [div6432, divided]

theorem correct_eq {missing turns : Nat} {r rest : BitVec 64} (enough : missing < turns)
    (value : r.toNat = missing * y.toNat + rest.toNat) (below : rest.toNat < y.toNat) :
    correct y turns x0 r = .ok (x0 + .ofNat 32 missing, rest) := by
  induction missing generalizing turns x0 r with
  | zero =>
      obtain ⟨turns, rfl⟩ := Nat.exists_eq_succ_of_ne_zero (Nat.ne_zero_of_lt enough)
      have same : r = rest := BitVec.eq_of_toNat_eq (by omega)
      have done : ¬ y ≤ r := by
        rw [BitVec.le_def, same]
        exact Nat.not_le.mpr below
      rw [correct, if_neg done, same]
      simp
  | succ missing ih =>
      obtain ⟨turns, rfl⟩ := Nat.exists_eq_succ_of_ne_zero (Nat.ne_zero_of_lt enough)
      rw [Nat.succ_mul] at value
      have again : y ≤ r := by
        rw [BitVec.le_def]
        omega
      have less : (r - y).toNat = missing * y.toNat + rest.toNat := by
        rw [BitVec.toNat_sub_of_le again]
        omega
      rw [correct, if_pos again, ih (Nat.lt_of_succ_lt_succ enough) less, BitVec.add_assoc,
        Nat.add_comm missing, BitVec.ofNat_add]
      rfl

theorem two_divisions (x1 x0 : BitVec 32) (small : y0 ≠ 0) : ∃ high low,
    div6432 0 x1 y0 = .ok high ∧ div6432 high.1 x0 y0 = .ok low ∧
      (x1 ++ x0).toNat = (high.2.toNat * 2 ^ 32 + low.2.toNat) * y0.toNat + low.1.toNat ∧
      low.1.toNat < y0.toNat := by
  have positive : 0 < y0.toNat := Nat.pos_of_ne_zero fun zero => small (BitVec.eq_of_toNat_eq zero)
  have zeroBelow : (0 : BitVec 32).toNat < y0.toNat := positive
  obtain ⟨rest, top, first, top_eq, rest_eq⟩ :=
    div6432_eq x1 zeroBelow
  have zero : (0 : BitVec 32).toNat = 0 := rfl
  rw [pair_toNat, zero, Nat.zero_mul, Nat.zero_add] at top_eq rest_eq
  have below : rest.toNat < y0.toNat := rest_eq ▸ Nat.mod_lt _ positive
  obtain ⟨last, bottom, second, bottom_eq, last_eq⟩ := div6432_eq x0 below
  refine ⟨(rest, top), (last, bottom), first, second, ?_, last_eq ▸ Nat.mod_lt _ positive⟩
  have upper : x1.toNat = top.toNat * y0.toNat + rest.toNat := by
    rw [top_eq, rest_eq]
    exact (Nat.div_add_mod' ..).symm
  have lower : rest.toNat * 2 ^ 32 + x0.toNat = bottom.toNat * y0.toNat + last.toNat := by
    rw [bottom_eq, last_eq, ← pair_toNat]
    exact (Nat.div_add_mod' ..).symm
  rw [pair_toNat, upper]
  calc (top.toNat * y0.toNat + rest.toNat) * 2 ^ 32 + x0.toNat =
        top.toNat * 2 ^ 32 * y0.toNat + (rest.toNat * 2 ^ 32 + x0.toNat) := by ring
    _ = (top.toNat * 2 ^ 32 + bottom.toNat) * y0.toNat + last.toNat := by
        rw [lower]
        ring

theorem doDiv64_small (nonzero : y ≠ 0) (small : y.toNat < 2 ^ 32) (turns : Nat) :
    ∃ q rem, doDiv64 turns x y = .ok (q, rem) ∧ Exact x y q rem := by
  have no_high : (y >>> 32).truncate 32 = (0 : BitVec 32) := by
    apply BitVec.eq_of_toNat_eq
    rw [toNat_high]
    exact Nat.div_eq_of_lt small
  have low : (y.truncate 32).toNat = y.toNat := by
    rw [BitVec.truncate_eq_setWidth, BitVec.toNat_setWidth]
    omega
  have positive : 0 < y.toNat := Nat.pos_of_ne_zero fun zero => nonzero (BitVec.eq_of_toNat_eq zero)
  have pair : x.toNat = ((x >>> 32).truncate 32 ++ x.truncate 32 : BitVec 64).toNat := by
    rw [halves_eq]
  rw [doDiv64, no_high]
  by_cases below : (x >>> 32).truncate 32 < y.truncate 32
  · have below' : ((x >>> 32).truncate 32).toNat < (y.truncate 32).toNat := below
    obtain ⟨remainder, quotient, divided, quotient_eq, remainder_eq⟩ :=
      div6432_eq (x.truncate 32) below'
    refine ⟨quotient.zeroExtend 64, remainder.zeroExtend 64, ?_, ?_, ?_⟩
    · rw [if_neg (not_not_intro rfl), if_pos below, divided]
      rfl
    · rw [toNat_zeroExtend, toNat_zeroExtend, quotient_eq, remainder_eq, ← pair, low]
      exact (Nat.div_add_mod' ..).symm
    · rw [toNat_zeroExtend, remainder_eq, low]
      exact Nat.mod_lt _ positive
  · have divisor : y.truncate 32 ≠ (0 : BitVec 32) := by
      intro zero
      rw [zero] at low
      exact absurd low.symm (Nat.ne_of_gt positive)
    obtain ⟨high, bottom, first, second, value, rest⟩ :=
      two_divisions ((x >>> 32).truncate 32) (x.truncate 32) divisor
    have quotient : (high.2.zeroExtend 64 <<< 32 + bottom.2.zeroExtend 64).toNat =
        high.2.toNat * 2 ^ 32 + bottom.2.toNat := by
      have bound := high.2.isLt
      have bound' := bottom.2.isLt
      rw [BitVec.toNat_add, BitVec.toNat_shiftLeft, toNat_zeroExtend, toNat_zeroExtend,
        Nat.shiftLeft_eq]
      omega
    refine ⟨high.2.zeroExtend 64 <<< 32 + bottom.2.zeroExtend 64, bottom.1.zeroExtend 64, ?_, ?_, ?_⟩
    · rw [if_neg (not_not_intro rfl), if_neg below, if_pos divisor, first]
      change (div6432 high.1 _ _ >>= _) = _
      rw [second]
      rfl
    · rw [pair, value, quotient, toNat_zeroExtend, low]
    · rw [toNat_zeroExtend, ← low]
      exact rest

theorem high_ne_zero (large : 2 ^ 32 ≤ y.toNat) : (y >>> 32).truncate 32 ≠ (0 : BitVec 32) := by
  intro zero
  have high : ((y >>> 32).truncate 32).toNat = (0 : BitVec 32).toNat := congrArg _ zero
  rw [toNat_high] at high
  have none : y.toNat / 2 ^ 32 = 0 := high
  omega

theorem normalises (large : 2 ^ 32 ≤ y.toNat) :
    (hardBsr ((y >>> 32).truncate 32) + 1).toNat = Nat.log2 y.toNat - 31 ∧
      Nat.log2 y.toNat - 31 ≤ 32 ∧ 2 ^ 31 ≤ y.toNat / 2 ^ (Nat.log2 y.toNat - 31) ∧
      y.toNat / 2 ^ (Nat.log2 y.toNat - 31) < 2 ^ 32 := by
  obtain ⟨bounded, lower, upper⟩ := bsr_bounds (high_ne_zero large)
  rw [toNat_high] at lower upper
  have one : (1 : BitVec 32).toNat = 1 := rfl
  have shift : (hardBsr ((y >>> 32).truncate 32) + 1).toNat =
      (bsr ((y >>> 32).truncate 32)).toNat + 1 := by
    rw [hardBsr, BitVec.toNat_add, one]
    omega
  generalize (bsr ((y >>> 32).truncate 32)).toNat = k at bounded lower upper shift
  have below : 2 ^ (k + 32) ≤ y.toNat := by
    rw [Nat.pow_add]
    exact Nat.le_trans (Nat.mul_le_mul_right _ lower) (Nat.div_mul_le_self ..)
  have above : y.toNat < 2 ^ (k + 32 + 1) := by
    have split : 2 ^ (k + 32 + 1) = 2 ^ (k + 1) * 2 ^ 32 := by
      rw [← Nat.pow_add, Nat.add_right_comm]
    rw [split]
    exact Nat.lt_mul_of_div_lt upper (by decide)
  have log : Nat.log2 y.toNat = k + 32 := (Nat.log2_eq_iff (by omega)).mpr ⟨below, above⟩
  have place : k + 32 - 31 = k + 1 := by omega
  rw [log, place]
  refine ⟨shift, bounded, ?_, ?_⟩
  · rw [Nat.le_div_iff_mul_le (Nat.two_pow_pos _), ← Nat.pow_add]
    have same : 31 + (k + 1) = k + 32 := by omega
    rw [same]
    exact below
  · rw [Nat.div_lt_iff_lt_mul (Nat.two_pow_pos _), ← Nat.pow_add]
    have same : 32 + (k + 1) = k + 32 + 1 := by omega
    rw [same]
    exact above

/-- For a large divisor the estimate is at most two too small. -/
theorem estimate_error {k : Nat} (bounded : k ≤ 32) (normal : 2 ^ 31 ≤ y.toNat / 2 ^ k)
    (large : 2 ^ 32 ≤ y.toNat) : x.toNat < (estimate x.toNat y.toNat k + 3) * y.toNat := by
  apply lt_estimate_add (e := 2)
  have whole : estimate x.toNat y.toNat k * 2 ^ k * 2 ^ 31 < 2 ^ 64 := by
    calc estimate x.toNat y.toNat k * 2 ^ k * 2 ^ 31 =
          estimate x.toNat y.toNat k * (2 ^ 31 * 2 ^ k) := by ring
      _ ≤ estimate x.toNat y.toNat k * y.toNat :=
          Nat.mul_le_mul_left _ ((Nat.le_div_iff_mul_le (Nat.two_pow_pos k)).mp normal)
      _ ≤ x.toNat := estimate_mul_le
      _ < 2 ^ 64 := x.isLt
  have fits : estimate x.toNat y.toNat k * 2 ^ k < 2 ^ (33 - k) * 2 ^ k := by
    rw [← Nat.pow_add, Nat.sub_add_cancel (Nat.le_succ_of_le bounded)]
    omega
  have step : (estimate x.toNat y.toNat k + 1) * 2 ^ k ≤ 2 ^ (33 - k) * 2 ^ k :=
    Nat.mul_le_mul_right _ (Nat.lt_of_mul_lt_mul_right fits)
  rw [← Nat.pow_add, Nat.sub_add_cancel (Nat.le_succ_of_le bounded)] at step
  omega

/-- The divisor of the estimate: it overflows when the highest bits of `y` are all ones. -/
theorem scaled_divisor (large : 2 ^ 32 ≤ y.toNat) :
    (rshift6432 ((y >>> 32).truncate 32) (y.truncate 32)
      (hardBsr ((y >>> 32).truncate 32) + 1)).toNat =
      y.toNat / 2 ^ (Nat.log2 y.toNat - 31) := by
  obtain ⟨shift, bounded, -, upper⟩ := normalises large
  have fits : ((y >>> 32).truncate 32 ++ y.truncate 32 : BitVec 64).toNat /
      2 ^ (hardBsr ((y >>> 32).truncate 32) + 1).toNat < 2 ^ 32 := by
    rw [halves_eq, shift]
    exact upper
  rw [rshift6432_toNat (by omega) fits, halves_eq, shift]

theorem doDiv64_leadingOnes (ones : LeadingOnes y) (turns : Nat) :
    doDiv64 turns x y = .error .divideError := by
  obtain ⟨large, full⟩ := ones
  have wraps : rshift6432 ((y >>> 32).truncate 32) (y.truncate 32)
      (hardBsr ((y >>> 32).truncate 32) + 1) + 1 = 0 := by
    apply BitVec.eq_of_toNat_eq
    rw [BitVec.toNat_add, scaled_divisor large, full]
    rfl
  rw [doDiv64, if_pos (high_ne_zero large)]
  dsimp only
  rw [wraps, div6432, divl_zero]
  rfl

theorem corrected_exact {quotient : BitVec 32} {turns : Nat} (large : 2 ^ 32 ≤ y.toNat)
    (atMost : quotient.toNat * y.toNat ≤ x.toNat)
    (near : x.toNat < (quotient.toNat + 3) * y.toNat) (enough : 3 ≤ turns) :
    ∃ x0 r, correct y turns quotient (x - y * quotient.zeroExtend 64) = .ok (x0, r) ∧
      Exact x y (x0.zeroExtend 64) r := by
  have positive : 0 < y.toNat := Nat.lt_of_lt_of_le (by decide) large
  have remainder : (x - y * quotient.zeroExtend 64).toNat =
      x.toNat - quotient.toNat * y.toNat := by
    have bound := x.isLt
    have product : (y * quotient.zeroExtend 64).toNat = quotient.toNat * y.toNat := by
      rw [BitVec.toNat_mul, toNat_zeroExtend, Nat.mul_comm]
      exact Nat.mod_eq_of_lt (Nat.lt_of_le_of_lt atMost bound)
    rw [BitVec.toNat_sub_of_le (by rw [BitVec.le_def, product]; exact atMost), product]
  have above : quotient.toNat ≤ x.toNat / y.toNat := (Nat.le_div_iff_mul_le positive).mpr atMost
  have close : x.toNat / y.toNat < quotient.toNat + 3 := (Nat.div_lt_iff_lt_mul positive).mpr near
  obtain ⟨missing, total⟩ := Nat.exists_eq_add_of_le above
  have whole : x.toNat = x.toNat / y.toNat * y.toNat + x.toNat % y.toNat :=
    (Nat.div_add_mod' ..).symm
  have rest : (BitVec.ofNat 64 (x.toNat % y.toNat)).toNat = x.toNat % y.toNat := by
    rw [BitVec.toNat_ofNat]
    exact Nat.mod_eq_of_lt (Nat.lt_of_le_of_lt (Nat.mod_le ..) x.isLt)
  have below : (BitVec.ofNat 64 (x.toNat % y.toNat)).toNat < y.toNat := by
    rw [rest]
    exact Nat.mod_lt _ positive
  have value : (x - y * quotient.zeroExtend 64).toNat =
      missing * y.toNat + (BitVec.ofNat 64 (x.toNat % y.toNat)).toNat := by
    rw [remainder, rest]
    rw [total, Nat.add_mul] at whole
    omega
  have result : (quotient + BitVec.ofNat 32 missing).toNat = x.toNat / y.toNat := by
    have fits : x.toNat / y.toNat < 2 ^ 32 := by
      apply (Nat.div_lt_iff_lt_mul positive).mpr
      exact Nat.lt_of_lt_of_le x.isLt (Nat.mul_le_mul_left (2 ^ 32) large)
    rw [BitVec.toNat_add, BitVec.toNat_ofNat]
    omega
  refine ⟨_, _, correct_eq (by omega) value below, ?_, below⟩
  rw [toNat_zeroExtend, result, rest]
  exact whole

theorem doDiv64_large (large : 2 ^ 32 ≤ y.toNat) (regular : ¬ LeadingOnes y) {turns : Nat}
    (enough : 3 ≤ turns) : ∃ q rem, doDiv64 turns x y = .ok (q, rem) ∧ Exact x y q rem := by
  obtain ⟨shift, bounded, lower, upper⟩ := normalises large
  have not_full : y.toNat / 2 ^ (Nat.log2 y.toNat - 31) ≠ 2 ^ 32 - 1 := fun full =>
    regular ⟨large, full⟩
  have one : (1 : BitVec 32).toNat = 1 := rfl
  have divisor : (rshift6432 ((y >>> 32).truncate 32) (y.truncate 32)
      (hardBsr ((y >>> 32).truncate 32) + 1) + 1).toNat =
      y.toNat / 2 ^ (Nat.log2 y.toNat - 31) + 1 := by
    rw [BitVec.toNat_add, scaled_divisor large, one]
    omega
  have dividend := rshift64_toNat ((x >>> 32).truncate 32) (x.truncate 32)
    (show (hardBsr ((y >>> 32).truncate 32) + 1).toNat ≤ 32 by omega)
  rw [halves_eq, shift] at dividend
  rw [doDiv64, if_pos (high_ne_zero large)]
  dsimp only
  generalize rshift6432 ((y >>> 32).truncate 32) (y.truncate 32)
    (hardBsr ((y >>> 32).truncate 32) + 1) + 1 = d at divisor
  generalize rshift64 ((x >>> 32).truncate 32) (x.truncate 32)
    (hardBsr ((y >>> 32).truncate 32) + 1) = shifted at dividend
  generalize scale : Nat.log2 y.toNat - 31 = k at *
  have positive : 1 ≤ k := by
    have log : 32 ≤ Nat.log2 y.toNat := (Nat.le_log2 (by omega)).mpr large
    omega
  have below : shifted.1.toNat < d.toNat := by
    have half : x.toNat / 2 ^ k ≤ x.toNat / 2 ^ 1 :=
      Nat.div_le_div_left (Nat.pow_le_pow_right (by decide) positive) (by decide)
    have bound := x.isLt
    rw [pair_toNat] at dividend
    omega
  obtain ⟨rest, quotient, divided, quotient_eq, -⟩ := div6432_eq shifted.2 below
  rw [dividend, divisor] at quotient_eq
  change quotient.toNat = estimate x.toNat y.toNat k at quotient_eq
  have atMost : quotient.toNat * y.toNat ≤ x.toNat := quotient_eq ▸ estimate_mul_le
  have near : x.toNat < (quotient.toNat + 3) * y.toNat :=
    quotient_eq ▸ estimate_error bounded lower large
  obtain ⟨x0, r, corrected, exact_result⟩ := corrected_exact large atMost near enough
  refine ⟨x0.zeroExtend 64, r, ?_, exact_result⟩
  rw [divided]
  change (correct y turns quotient _ >>= _) = _
  rw [corrected]
  rfl

example : doDiv64 3 0xFFFFFFFFFFFFFFFF 0x100000001 = .ok (0xFFFFFFFF, 0) := by decide

/-- The division is exact, and its loop ends in three turns, unless the highest 32 bits of the
divisor are all ones: then there is a divide error. -/
theorem doDiv64_exact_iff (x y : BitVec 64) (nonzero : y ≠ 0) :
    (∀ turns, 3 ≤ turns → ∃ q rem, doDiv64 turns x y = .ok (q, rem) ∧ Exact x y q rem) ↔
      ¬ LeadingOnes y := by
  constructor
  · intro divides ones
    obtain ⟨q, rem, divided, -⟩ := divides 3 (Nat.le_refl 3)
    rw [doDiv64_leadingOnes ones] at divided
    cases divided
  · intro regular turns enough
    by_cases large : 2 ^ 32 ≤ y.toNat
    · exact doDiv64_large large regular enough
    · exact doDiv64_small nonzero (Nat.lt_of_not_le large) turns

/-- A divisor of 33 bits. -/
theorem doDiv64_exact_iff_33_bits :
    (∀ turns, 3 ≤ turns → ∃ q rem, doDiv64 turns 0xFFFFFFFFFFFFFFFF 0x123456789 = .ok (q, rem) ∧
      Exact 0xFFFFFFFFFFFFFFFF 0x123456789 q rem) ↔ ¬ LeadingOnes 0x123456789 :=
  doDiv64_exact_iff 0xFFFFFFFFFFFFFFFF 0x123456789 (by decide)

/-- The division by a number of which the high half is all ones is a divide error. -/
theorem doDiv64_divide_error : ¬ ∀ x y : BitVec 64, y ≠ 0 →
    ∃ turns q rem, doDiv64 turns x y = .ok (q, rem) ∧ Exact x y q rem := by
  intro divides
  obtain ⟨turns, q, rem, divided, -⟩ := divides 0 0xFFFFFFFF00000000 (by decide)
  have error : doDiv64 turns 0 0xFFFFFFFF00000000 = .error .divideError := rfl
  rw [error] at divided
  cases divided

end IntelX86Kernel

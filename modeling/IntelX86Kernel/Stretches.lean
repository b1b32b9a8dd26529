import IntelX86Kernel.Paging

/-! Bytes that stand behind each other: within a page, and when they are written one after the
other or at once. Nothing here depends on a program. -/

namespace X86

variable {m : Memory} {va a s : Word} {j k : Nat}

theorem low_bits (small : k ≤ 22) : (a &&& .ofNat 32 (2 ^ k - 1)).toNat = a.toNat % 2 ^ k := by
  have power : 2 ^ k ≤ 2 ^ 22 := Nat.pow_le_pow_right (by decide) small
  have value : (BitVec.ofNat 32 (2 ^ k - 1)).toNat = 2 ^ k - 1 := by
    rw [BitVec.toNat_ofNat]
    apply Nat.mod_eq_of_lt
    omega
  rw [BitVec.toNat_and, value, Nat.and_two_pow_sub_one_eq_mod]

theorem page_within (small : k ≤ 22)
    (inside : j < (.ofNat 32 (2 ^ k) - (va &&& .ofNat 32 (2 ^ k - 1)) : Word).toNat) :
    (va + .ofNat 32 j) >>> k = va >>> k ∧
      (va + .ofNat 32 j) &&& .ofNat 32 (2 ^ k - 1) =
        (va &&& .ofNat 32 (2 ^ k - 1)) + .ofNat 32 j := by
  have bound := va.isLt
  have power : 2 ^ k ≤ 2 ^ 22 := Nat.pow_le_pow_right (by decide) small
  have positive : 0 < 2 ^ k := Nat.two_pow_pos k
  have whole : 2 ^ k * 2 ^ (32 - k) = 2 ^ 32 := by
    rw [← Nat.pow_add]
    congr 1
    omega
  have size : (BitVec.ofNat 32 (2 ^ k)).toNat = 2 ^ k := by
    rw [BitVec.toNat_ofNat]
    apply Nat.mod_eq_of_lt
    omega
  have rest := Nat.mod_lt va.toNat positive
  have split := Nat.div_add_mod va.toNat (2 ^ k)
  rw [BitVec.toNat_sub, low_bits small, size] at inside
  have room : va.toNat % 2 ^ k + j < 2 ^ k := by omega
  have number : (BitVec.ofNat 32 j).toNat = j := by
    rw [BitVec.toNat_ofNat]
    apply Nat.mod_eq_of_lt
    omega
  have page : 2 ^ k * (va.toNat / 2 ^ k) + 2 ^ k ≤ 2 ^ 32 := by
    have quotient : va.toNat / 2 ^ k + 1 ≤ 2 ^ (32 - k) := by
      apply Nat.div_lt_of_lt_mul
      rw [whole]
      exact bound
    calc
      2 ^ k * (va.toNat / 2 ^ k) + 2 ^ k = 2 ^ k * (va.toNat / 2 ^ k + 1) := by
        rw [Nat.mul_add, Nat.mul_one]
      _ ≤ 2 ^ k * 2 ^ (32 - k) := Nat.mul_le_mul_left _ quotient
      _ = 2 ^ 32 := whole
  have sum : (va + .ofNat 32 j).toNat = 2 ^ k * (va.toNat / 2 ^ k) + (va.toNat % 2 ^ k + j) := by
    rw [BitVec.toNat_add, number]
    omega
  constructor
  · apply BitVec.eq_of_toNat_eq
    rw [BitVec.toNat_ushiftRight, BitVec.toNat_ushiftRight, Nat.shiftRight_eq_div_pow,
      Nat.shiftRight_eq_div_pow, sum, Nat.mul_add_div positive, Nat.div_eq_of_lt room, Nat.add_zero]
  · apply BitVec.eq_of_toNat_eq
    rw [low_bits small, sum, Nat.mul_add_mod, Nat.mod_eq_of_lt room, BitVec.toNat_add,
      low_bits small, number]
    omega

theorem upper_bits (same : a >>> 12 = va >>> 12) : a >>> 22 = va >>> 22 := by
  have shift (b : Word) : b >>> 22 = (b >>> 12) >>> 10 := by rw [← BitVec.shiftRight_add]
  rw [shift, shift, same]

variable {b : Word} {size : Nat}

def consecutive (a : Word) (size : Nat) : List Word :=
  (List.range size).map fun i => a + .ofNat 32 i

theorem consecutive_length : (consecutive a size).length = size := by
  rw [consecutive, List.length_map, List.length_range]

theorem mem_consecutive : b ∈ consecutive a size ↔ (b - a).toNat < size := by
  rw [consecutive, List.mem_map]
  constructor
  · rintro ⟨i, member, rfl⟩
    have inside := List.mem_range.mp member
    rw [BitVec.add_comm, BitVec.add_sub_cancel, BitVec.toNat_ofNat]
    exact Nat.lt_of_le_of_lt (Nat.mod_le _ _) inside
  · intro inside
    refine ⟨(b - a).toNat, List.mem_range.mpr inside, ?_⟩
    rw [BitVec.ofNat_toNat, BitVec.setWidth_eq, BitVec.add_comm, BitVec.sub_add_cancel]

theorem consecutive_get {i : Nat} {p : Word} (found : (consecutive a size)[i]? = some p) :
    i < size ∧ p = a + .ofNat 32 i := by
  have inside : i < (consecutive a size).length := (List.getElem?_eq_some_iff.mp found).1
  rw [consecutive_length] at inside
  rw [consecutive, List.getElem?_map, List.getElem?_range inside] at found
  exact ⟨inside, (Option.some.inj found).symm⟩

theorem consecutive_distinct (room : size ≤ 2 ^ 32) : (consecutive a size).Nodup := by
  apply List.Nodup.map_on _ List.nodup_range
  intro i first j second same
  have one := List.mem_range.mp first
  have two := List.mem_range.mp second
  have places := congrArg BitVec.toNat same
  have bound := a.isLt
  rw [BitVec.toNat_add, BitVec.toNat_add, BitVec.toNat_ofNat, BitVec.toNat_ofNat] at places
  omega

namespace Memory

variable {m' : Memory} {c : BitVec 8} {bytes : List (BitVec 8)}

def stretch (m : Memory) (a : Word) (size : Nat) : List (BitVec 8) := (consecutive a size).map m

theorem place_succ (a : Word) (i : Nat) : a + .ofNat 32 (i + 1) = a + 1 + .ofNat 32 i := by
  rw [BitVec.ofNat_add, BitVec.add_comm (BitVec.ofNat 32 i), ← BitVec.add_assoc]
  rfl

theorem consecutive_succ : consecutive a (size + 1) = a :: consecutive (a + 1) size := by
  rw [consecutive, consecutive, List.range_succ_eq_map, List.map_cons, List.map_map, BitVec.add_zero]
  congr 1
  apply List.map_congr_left
  intro i member
  exact place_succ a i

theorem stretch_succ : m.stretch a (size + 1) = m a :: m.stretch (a + 1) size :=
  congrArg (List.map m) consecutive_succ

theorem overwrite_cons (room : bytes.length < 2 ^ 32) :
    m.overwrite s (c :: bytes) = overwrite (Function.update m s c) (s + 1) bytes := by
  have one : (1 : Word).toNat = 1 := rfl
  have low := s.isLt
  funext a
  have high := a.isLt
  by_cases first : a = s
  · have before : (s - (s + 1)).toNat = 2 ^ 32 - 1 := by
      rw [BitVec.toNat_sub, BitVec.toNat_add, one]
      omega
    have longer : bytes.length ≤ (s - (s + 1)).toNat := by omega
    rw [first, overwrite_outside longer, Function.update_self, overwrite, BitVec.sub_self]
    rfl
  · have place : (a - s).toNat = (a - (s + 1)).toNat + 1 := by
      have other : a.toNat ≠ s.toNat := fun same => first (BitVec.eq_of_toNat_eq same)
      rw [BitVec.toNat_sub, BitVec.toNat_sub, BitVec.toNat_add, one]
      omega
    rw [overwrite, overwrite, Function.update_of_ne first, place, List.getD_cons_succ]

theorem overwrite_of_places (outside : ∀ b ∉ consecutive a bytes.length, m' b = m b)
    (inside : (consecutive a bytes.length).map m' = bytes) : m' = m.overwrite a bytes := by
  funext b
  by_cases member : b ∈ consecutive a bytes.length
  · have near := mem_consecutive.mp member
    have found : (bytes : List (BitVec 8))[(b - a).toNat]? = some (m' b) := by
      have place : a + .ofNat 32 (b - a).toNat = b := by
        rw [BitVec.ofNat_toNat, BitVec.setWidth_eq, BitVec.add_comm, BitVec.sub_add_cancel]
      calc
        bytes[(b - a).toNat]? = ((consecutive a bytes.length).map m')[(b - a).toNat]? := by
          rw [inside]
        _ = some (m' b) := by
          rw [consecutive, List.getElem?_map, List.getElem?_map, List.getElem?_range near,
            Option.map_some, Option.map_some, place]
    rw [overwrite, List.getD_eq_getElem?_getD, found]
    rfl
  · have far : bytes.length ≤ (b - a).toNat := by
      apply Nat.le_of_not_lt
      intro near
      exact member (mem_consecutive.mpr near)
    rw [outside b member, overwrite_outside far]

end Memory

end X86

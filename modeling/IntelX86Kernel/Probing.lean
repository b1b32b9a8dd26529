import IntelX86Kernel.Congruential
import IntelX86Kernel.Hash

/-! The order in which `hash_lookup` visits the slots, and where it stops. -/

namespace IntelX86Kernel

namespace HashTable

variable {κ ν : Type} {map : HashTable κ ν} {key : κ} {hash mask : BitVec 32} {i k t : Nat}

def probe (mask hash : BitVec 32) : Nat → BitVec 32 × BitVec 32
  | 0 => (hash &&& mask, hash)
  | t + 1 =>
      let (index, perturb) := probe mask hash t
      (5 * index + perturb + 1, perturb >>> 5)

def slotAt (mask hash : BitVec 32) (t : Nat) : Nat := ((probe mask hash t).1 &&& mask).toNat

theorem masked (sized : mask.toNat + 1 = 2 ^ k) (index : BitVec 32) :
    (index &&& mask).toNat = index.toNat % 2 ^ k := by
  have equal : mask.toNat = 2 ^ k - 1 := Nat.eq_sub_of_add_eq sized
  rw [BitVec.toNat_and, equal, Nat.and_two_pow_sub_one_eq_mod]

theorem slotAt_lt (sized : mask.toNat + 1 = 2 ^ k) : slotAt mask hash t < 2 ^ k := by
  rw [slotAt, masked sized]
  exact Nat.mod_lt _ (Nat.two_pow_pos k)

theorem perturb_eq (t : Nat) : (probe mask hash t).2.toNat = hash.toNat / 2 ^ (5 * t) := by
  induction t with
  | zero => simp [probe]
  | succ t ih =>
      rw [probe]
      dsimp only
      rw [BitVec.toNat_ushiftRight, Nat.shiftRight_eq_div_pow, ih, Nat.div_div_eq_div_mul,
        ← Nat.pow_add, Nat.mul_succ]

/-- After seven turns the hash has been shifted out. -/
theorem perturb_zero (late : 7 ≤ t) : (probe mask hash t).2 = 0 := by
  refine BitVec.eq_of_toNat_eq ?_
  rw [perturb_eq]
  refine Nat.div_eq_of_lt (hash.isLt.trans_le (Nat.pow_le_pow_right (by decide) ?_))
  omega

theorem slots_follow (mask hash : BitVec 32) (small : k ≤ 32) :
    Congruential.Follows 5 1 k fun n => (probe mask hash (n + 7)).1.toNat := by
  intro n
  have turn : (probe mask hash (n + 1 + 7)).1 = 5 * (probe mask hash (n + 7)).1 + 1 := by
    rw [show n + 1 + 7 = n + 7 + 1 from rfl, probe]
    dsimp only
    rw [perturb_zero (Nat.le_add_left 7 n)]
    simp
  dsimp only
  rw [turn, BitVec.toNat_add, BitVec.toNat_mul]
  have divides : 2 ^ k ∣ 2 ^ 32 := Nat.pow_dvd_pow 2 small
  rw [Nat.mod_mod_of_dvd _ divides, Nat.add_mod, Nat.mod_mod_of_dvd _ divides, ← Nat.add_mod]
  simp

theorem slotAt_covers (hash : BitVec 32) (sized : mask.toNat + 1 = 2 ^ k) (small : k ≤ 32) (inside : i < 2 ^ k) :
    ∃ t < mask.toNat + 8, slotAt mask hash t = i := by
  obtain ⟨n, less, found⟩ := Congruential.covers (slots_follow mask hash small)
    (by decide) (by decide) odd_one inside
  refine ⟨n + 7, by omega, ?_⟩
  rw [slotAt, masked sized]
  exact found

def Matches (map : HashTable κ ν) (key : κ) (hash : BitVec 32) (i : Nat) : Prop :=
  (map.table i).mode = .active ∧
    ((map.table i).key = key ∨ (map.table i).hash = hash ∧ map.cmp (map.table i).key key = true)

def modeAt (map : HashTable κ ν) (hash : BitVec 32) (t : Nat) : SlotMode :=
  (map.table (slotAt map.mask hash t)).mode

/-- What `hash_lookup` stops at: the key, or a slot to put it into. -/
inductive Found (map : HashTable κ ν) (key : κ) (hash : BitVec 32) (i : Nat) : Prop where
  | hit {t : Nat} (here : slotAt map.mask hash t = i) (found : map.Matches key hash i)
  | miss {t e : Nat} (here : slotAt map.mask hash t = i) (before : t ≤ e)
      (passed : ∀ u < e, map.modeAt hash u ≠ .empty ∧
        ¬ map.Matches key hash (slotAt map.mask hash u))
      (stop : map.modeAt hash e = .empty) (unused : (map.table i).mode ≠ .active)

variable [DecidableEq κ]

theorem hashLookupLoop_found {turns : Nat} {freeslot : Option Nat}
    (passed : ∀ u < t, map.modeAt hash u ≠ .empty ∧
      ¬ map.Matches key hash (slotAt map.mask hash u))
    (free : ∀ f, freeslot = some f → (map.table f).mode = .deleted ∧
      ∃ u < t, slotAt map.mask hash u = f)
    (ended : map.hashLookupLoop key hash turns (probe map.mask hash t).1 (probe map.mask hash t).2
      freeslot = .ok i) : map.Found key hash i := by
  induction turns generalizing t freeslot with
  | zero => cases ended
  | succ turns ih =>
      rw [hashLookupLoop] at ended
      change (if map.modeAt hash t = .empty then _ else _) = _ at ended
      split at ended
      · next empty =>
        cases ended
        cases freeslot with
        | none =>
            refine .miss rfl (le_refl t) passed empty fun active => ?_
            change map.modeAt hash t = .active at active
            rw [empty] at active
            cases active
        | some f =>
            obtain ⟨deleted, u, before, here⟩ := free f rfl
            refine .miss here (Nat.le_of_lt before) passed empty fun active => ?_
            rw [Option.getD_some, deleted] at active
            cases active
      · next used =>
        split at ended
        · next found =>
          cases ended
          exact .hit rfl found
        · next other =>
          refine ih (t := t + 1) (fun u before => ?_) (fun f same => ?_) ended
          · rcases Nat.lt_succ_iff_lt_or_eq.mp before with less | rfl
            · exact passed u less
            · exact ⟨used, other⟩
          · split at same
            · next here =>
              cases same
              exact ⟨here.1, t, Nat.lt_succ_self t, rfl⟩
            · obtain ⟨deleted, u, before, here⟩ := free f same
              exact ⟨deleted, u, Nat.lt_succ_of_lt before, here⟩

theorem hashLookupLoop_ends (map : HashTable κ ν) (key : κ) {turns e : Nat}
    (freeslot : Option Nat) (ahead : t ≤ e) (near : e < t + turns)
    (stop : map.modeAt hash e = .empty) :
    ∃ i, map.hashLookupLoop key hash turns (probe map.mask hash t).1 (probe map.mask hash t).2
      freeslot = .ok i := by
  induction turns generalizing t freeslot with
  | zero => exact absurd near (Nat.not_lt.mpr ahead)
  | succ turns ih =>
      rw [hashLookupLoop]
      change ∃ i, (if map.modeAt hash t = .empty then _ else _) = _
      split
      · exact ⟨_, rfl⟩
      · next used =>
        split
        · exact ⟨_, rfl⟩
        · have beyond : t ≠ e := by
            rintro rfl
            exact used stop
          refine ih (t := t + 1) _ ?_ ?_
          · omega
          · omega

/-- The search faults in no other way than by going round for ever. -/
theorem hashLookupLoop_hangs {turns : Nat} {index perturb : BitVec 32} {freeslot : Option Nat}
    {fault : Fault} (faults : map.hashLookupLoop key hash turns index perturb freeslot = .error fault) :
    fault = .hang := by
  induction turns generalizing index perturb freeslot with
  | zero =>
      cases faults
      rfl
  | succ turns ih =>
      rw [hashLookupLoop] at faults
      dsimp only at faults
      split at faults
      · cases faults
      · split at faults
        · cases faults
        · exact ih faults

end HashTable

end IntelX86Kernel

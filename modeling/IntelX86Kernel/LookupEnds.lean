import IntelX86Kernel.Probing

/-! The search of `hash_lookup` ends in every table that has an empty slot. -/

namespace IntelX86Kernel.HashTable

variable {κ ν : Type} {map : HashTable κ ν} {key : κ} {hash mask : BitVec 32} {i k t : Nat}

theorem probe_unperturbed (late : 7 ≤ t) :
    (probe mask hash (t + 1)).1 = 5 * (probe mask hash t).1 + 1 := by
  rw [probe]
  dsimp only
  rw [perturb_zero late]
  simp

/-- As many turns as there are slots look at every slot, once the hash has been shifted out. -/
theorem window_covers (hash : BitVec 32) (sized : mask.toNat + 1 = 2 ^ k) (late : 7 ≤ t)
    (inside : i < 2 ^ k) : ∃ u, t ≤ u ∧ u < t + 2 ^ k ∧ slotAt mask hash u = i := by
  have small : k ≤ 32 := by
    apply (Nat.pow_le_pow_iff_right (by decide : 1 < 2)).mp
    rw [← sized]
    exact mask.isLt
  obtain ⟨m, rfl⟩ := Nat.exists_eq_add_of_le late
  have follows : Congruential.Follows 5 1 k fun n => (probe mask hash (7 + m + n)).1.toNat := by
    intro n
    have turn := slots_follow mask hash small (m + n)
    have place : m + n + 7 = 7 + m + n := by omega
    have place' : m + n + 1 + 7 = 7 + m + (n + 1) := by omega
    dsimp only at turn ⊢
    rw [place, place'] at turn
    exact turn
  obtain ⟨n, less, found⟩ := Congruential.covers follows (by decide) (by decide) odd_one inside
  refine ⟨7 + m + n, Nat.le_add_right .., by omega, ?_⟩
  rw [slotAt, masked sized]
  exact found

variable [DecidableEq κ]

theorem hashLookupLoop_mono {turns more : Nat} {index perturb : BitVec 32} {freeslot : Option Nat}
    (ended : map.hashLookupLoop key hash turns index perturb freeslot = .ok i)
    (enough : turns ≤ more) : map.hashLookupLoop key hash more index perturb freeslot = .ok i := by
  induction turns generalizing more index perturb freeslot with
  | zero => cases ended
  | succ turns ih =>
      obtain ⟨more, rfl⟩ := Nat.exists_eq_succ_of_ne_zero (Nat.ne_zero_of_lt enough)
      rw [hashLookupLoop] at ended ⊢
      dsimp only at ended ⊢
      split at ended
      · next empty =>
        rw [if_pos empty]
        exact ended
      · next used =>
        rw [if_neg used]
        split at ended
        · next found =>
          rw [if_pos found]
          exact ended
        · next other =>
          rw [if_neg other]
          exact ih ended (Nat.le_of_succ_le_succ enough)

/-- An empty slot ends the search within as many turns as there are slots, and seven. -/
theorem search_ends (map : HashTable κ ν) (key : κ) (hash : BitVec 32)
    (sized : map.mask.toNat + 1 = 2 ^ k) (inside : i < 2 ^ k)
    (empty : (map.table i).mode = .empty) : ∃ j < 2 ^ k, ∀ turns, 2 ^ k + 7 ≤ turns →
      map.hashLookupLoop key hash turns (hash &&& map.mask) hash none = .ok j := by
  obtain ⟨e, -, near, here⟩ := window_covers hash sized (Nat.le_refl 7) inside
  have stop : map.modeAt hash e = .empty := by
    rw [modeAt, here]
    exact empty
  obtain ⟨j, ended⟩ := map.hashLookupLoop_ends key none (Nat.zero_le e)
    (show e < 0 + (2 ^ k + 7) by omega) stop
  have place : j < 2 ^ k := by
    rcases hashLookupLoop_found (fun u before => absurd before (Nat.not_lt_zero u))
      (fun f none => by cases none) ended with ⟨here, -⟩ | ⟨here, -⟩
    · exact here ▸ slotAt_lt sized
    · exact here ▸ slotAt_lt sized
  exact ⟨j, place, fun turns enough => hashLookupLoop_mono ended enough⟩

/-- With an empty slot in a table of `2 ^ k` slots, the search ends within `2 ^ k + 7` turns: the
hash is shifted out after seven, and `2 ^ k` turns of the recurrence that is left look at every
slot. -/
theorem hashLookup_ends (map : HashTable κ ν) (key : κ) (hash : BitVec 32)
    (sized : map.mask.toNat + 1 = 2 ^ k) (inside : i < 2 ^ k)
    (empty : (map.table i).mode = .empty) :
    (∃ j < 2 ^ k, ∀ turns, 2 ^ k + 7 ≤ turns →
      map.hashLookupLoop key hash turns (hash &&& map.mask) hash none = .ok j) ∧
      (∀ t, 7 ≤ t → (probe map.mask hash t).2 = 0 ∧
        (probe map.mask hash (t + 1)).1 = 5 * (probe map.mask hash t).1 + 1) ∧
      ∀ t, 7 ≤ t → ∀ j < 2 ^ k, ∃ u, t ≤ u ∧ u < t + 2 ^ k ∧ slotAt map.mask hash u = j :=
  ⟨search_ends map key hash sized inside empty,
    fun _ late => ⟨perturb_zero late, probe_unperturbed late⟩,
    fun _ late _ inside => window_covers hash sized late inside⟩

def lastFree : HashTable Nat Nat where
  fill := 7
  count := 0
  mask := 7
  table := fun i => .cleared (if i < 7 then .deleted else .empty)
  hfunc := fun _ => 0
  cmp := fun _ _ => false

theorem hashLookup_ends_lastFree :
    (∃ j < 2 ^ 3, ∀ turns, 2 ^ 3 + 7 ≤ turns → lastFree.hashLookupLoop 0 0xFFFFFFFF turns
      (0xFFFFFFFF &&& lastFree.mask) 0xFFFFFFFF none = .ok j) ∧
      (∀ t, 7 ≤ t → (probe lastFree.mask 0xFFFFFFFF t).2 = 0 ∧
        (probe lastFree.mask 0xFFFFFFFF (t + 1)).1 =
          5 * (probe lastFree.mask 0xFFFFFFFF t).1 + 1) ∧
      ∀ t, 7 ≤ t → ∀ j < 2 ^ 3, ∃ u, t ≤ u ∧ u < t + 2 ^ 3 ∧
        slotAt lastFree.mask 0xFFFFFFFF u = j :=
  hashLookup_ends lastFree 0 0xFFFFFFFF (k := 3) (i := 7) (by decide) (by decide) (by decide)

end IntelX86Kernel.HashTable

import IntelX86Kernel.Bindings
import IntelX86Kernel.Probing
import IntelX86Kernel.Tally
import IntelX86Kernel.Transition

/-! The table of kernel/hash.c is a finite map. -/

namespace IntelX86Kernel

open Tally Transition

variable {κ ν : Type} {hfunc : κ → BitVec 32}
  {cmp : κ → κ → Bool} {map map' : HashTable κ ν} {key : κ} {value : ν} {hash : BitVec 32}
  {i j k : Nat} {slot : HashSlot κ ν} {granted : Bool} {status : Int}

def HashSlot.Used (slot : HashSlot κ ν) : Prop := slot.mode ≠ .empty
def HashSlot.Active (slot : HashSlot κ ν) : Prop := slot.mode = .active

instance : DecidablePred (@HashSlot.Used κ ν) :=
  fun slot => inferInstanceAs (Decidable (slot.mode ≠ .empty))

instance : DecidablePred (@HashSlot.Active κ ν) :=
  fun slot => inferInstanceAs (Decidable (slot.mode = .active))

theorem HashSlot.Active.used (active : slot.Active) : slot.Used := by
  intro empty
  rw [HashSlot.Active, empty] at active
  cases active

theorem HashSlot.inactive_of_deleted (deleted : slot.mode = .deleted) : ¬ slot.Active := by
  intro active
  rw [HashSlot.Active, deleted] at active
  cases active

theorem HashSlot.used_of_deleted (deleted : slot.mode = .deleted) : slot.Used := by
  intro empty
  rw [deleted] at empty
  cases empty

namespace HashTable

/-- The search for this hash gets to slot `i` without meeting an empty one. -/
def Reaches (map : HashTable κ ν) (hash : BitVec 32) (i : Nat) : Prop :=
  ∃ t, slotAt map.mask hash t = i ∧ ∀ u < t, map.modeAt hash u ≠ .empty

structure Sound (hfunc : κ → BitVec 32) (cmp : κ → κ → Bool) (k : Nat)
    (map : HashTable κ ν) : Prop where
  hashes : map.hfunc = hfunc
  compares : map.cmp = cmp
  sized : map.mask.toNat + 1 = 2 ^ k
  large : 3 ≤ k
  small : k ≤ 27
  filled : map.fill = tally HashSlot.Used map.table (2 ^ k)
  counted : map.count = tally HashSlot.Active map.table (2 ^ k)
  hashed : ∀ i < 2 ^ k, (map.table i).Active → (map.table i).hash = hfunc (map.table i).key
  reached : ∀ i < 2 ^ k, (map.table i).Active → map.Reaches (map.table i).hash i
  distinct : ∀ i < 2 ^ k, ∀ j < 2 ^ k, (map.table i).Active → (map.table j).Active →
    cmp (map.table i).key (map.table j).key = true → i = j

def Binds (map : HashTable κ ν) (key : κ) (value : ν) : Prop :=
  ∃ i < map.mask.toNat + 1, (map.table i).Active ∧ map.cmp (map.table i).key key = true ∧
    (map.table i).value = value

def Agrees (hfunc : κ → BitVec 32) (cmp : κ → κ → Bool) : Prop :=
  ∀ a b, cmp a b = true → hfunc a = hfunc b

theorem Sound.count_le (sound : map.Sound hfunc cmp k) : map.count ≤ map.fill := by
  rw [sound.filled, sound.counted]
  exact Int.ofNat_le.mpr (tally_mono fun i _ active => active.used)

theorem Sound.fill_le (sound : map.Sound hfunc cmp k) : map.fill ≤ 2 ^ k := by
  rw [sound.filled]
  exact_mod_cast tally_le

variable [DecidableEq κ] in
theorem Sound.looked (sound : map.Sound hfunc cmp k) (ended : map.hashLookup key hash = .ok i) :
    i < 2 ^ k ∧ map.Found key hash i := by
  have found : map.Found key hash i := hashLookupLoop_found (t := 0)
    (fun u before => absurd before (Nat.not_lt_zero u)) (fun f same => by cases same) ended
  refine ⟨?_, found⟩
  cases found with
  | hit here | miss here => exact here ▸ slotAt_lt sound.sized

variable [DecidableEq κ] in
/-- A table with an empty slot is searched to the end. -/
theorem Sound.lookup (sound : map.Sound hfunc cmp k) (room : map.fill < 2 ^ k) (key : κ)
    (hash : BitVec 32) :
    ∃ i < 2 ^ k, map.hashLookup key hash = .ok i ∧ map.Found key hash i := by
  have below : tally HashSlot.Used map.table (2 ^ k) < 2 ^ k := by
    have filled := sound.filled
    rw [filled] at room
    exact_mod_cast room
  obtain ⟨e, inside, unused⟩ := exists_uncounted below
  obtain ⟨n, turns, here⟩ := slotAt_covers hash sound.sized
    (le_trans sound.small (by decide)) inside
  have stop : map.modeAt hash n = .empty := by
    rw [modeAt, here]
    exact Decidable.not_not.mp unused
  obtain ⟨i, ended⟩ := hashLookupLoop_ends map key none (Nat.zero_le n)
    (by omega : n < 0 + (map.mask.toNat + 8)) stop
  obtain ⟨bounded, found⟩ := sound.looked ended
  exact ⟨i, bounded, ended, found⟩

theorem Sound.found (sound : map.Sound hfunc cmp k) (compares : Bindings.Compares cmp)
    (agrees : Agrees hfunc cmp) (found : map.Found key (hfunc key) i) :
    ((map.table i).Active ∧ cmp (map.table i).key key = true) ∨
      (¬ (map.table i).Active ∧ map.Reaches (hfunc key) i ∧
        ∀ j < 2 ^ k, (map.table j).Active → cmp (map.table j).key key = false) := by
  cases found with
  | hit here matched =>
      obtain ⟨active, same | ⟨-, equal⟩⟩ := matched
      · rw [same]
        exact .inl ⟨active, compares.refl key⟩
      · rw [sound.compares] at equal
        exact .inl ⟨active, equal⟩
  | miss here before passed stop unused =>
      refine .inr ⟨unused, ⟨_, here, fun u less => (passed u (less.trans_le before)).1⟩,
        fun j inside active => ?_⟩
      rw [← Bool.not_eq_true]
      intro equal
      obtain ⟨t, there, used⟩ := sound.reached j inside active
      have same : (map.table j).hash = hfunc key := by
        rw [sound.hashed j inside active]
        exact agrees _ _ equal
      rw [same] at there used
      have filled : map.modeAt (hfunc key) t = .active := by
        rw [modeAt, there]
        exact active
      rcases lt_trichotomy t _ with less | here | more
      · refine (passed t less).2 ?_
        rw [there]
        exact ⟨active, .inr ⟨same, by rw [sound.compares]; exact equal⟩⟩
      · rw [← here, filled] at stop
        cases stop
      · exact used _ more stop

theorem Sound.write (sound : map.Sound hfunc cmp k) (slot : HashSlot κ ν) (fill count : Int)
    (inside : i < 2 ^ k) (used : slot.Used)
    (compares : Bindings.Compares cmp)
    (placed : slot.Active → slot.hash = hfunc slot.key ∧ map.Reaches slot.hash i ∧
      ∀ j < 2 ^ k, j ≠ i → (map.table j).Active → cmp (map.table j).key slot.key = false)
    (filled : fill + (if (map.table i).Used then 1 else 0) = map.fill + 1)
    (counted : count + (if (map.table i).Active then 1 else 0) =
      map.count + if slot.Active then 1 else 0) :
    Sound hfunc cmp k { map.setSlot i slot with fill := fill, count := count } := by
  have kept {hash : BitVec 32} {j : Nat} (reaches : map.Reaches hash j) :
      Reaches { map.setSlot i slot with fill := fill, count := count } hash j := by
    obtain ⟨t, here, before⟩ := reaches
    refine ⟨t, here, fun u less => ?_⟩
    change (Function.update map.table i slot (slotAt map.mask hash u)).mode ≠ .empty
    rw [Function.update_apply]
    split
    · exact used
    · exact before u less
  have uses := tally_update (P := HashSlot.Used) (f := map.table) (b := slot) inside
  have actives := tally_update (P := HashSlot.Active) (f := map.table) (b := slot) inside
  rw [if_pos used] at uses
  refine ⟨sound.hashes, sound.compares, sound.sized, sound.large, sound.small, ?_, ?_, ?_, ?_, ?_⟩
  · have before := sound.filled
    change fill = tally HashSlot.Used (Function.update map.table i slot) (2 ^ k)
    split at uses <;> simp_all
  · have before := sound.counted
    change count = tally HashSlot.Active (Function.update map.table i slot) (2 ^ k)
    split at actives <;> split at actives <;> simp_all
    all_goals omega
  · intro j below
    change (Function.update map.table i slot j).Active → (Function.update map.table i slot j).hash =
      hfunc (Function.update map.table i slot j).key
    rw [Function.update_apply]
    split
    · exact fun active => (placed active).1
    · exact sound.hashed j below
  · intro j below
    change (Function.update map.table i slot j).Active →
      Reaches _ (Function.update map.table i slot j).hash j
    rw [Function.update_apply]
    split
    · next here =>
      rw [here]
      exact fun active => kept (placed active).2.1
    · exact fun active => kept (sound.reached j below active)
  · intro j below l lower
    change (Function.update map.table i slot j).Active → (Function.update map.table i slot l).Active →
      cmp (Function.update map.table i slot j).key (Function.update map.table i slot l).key = true →
      j = l
    rw [Function.update_apply, Function.update_apply]
    split
    · next here =>
      split
      · next there => exact fun _ _ _ => here.trans there.symm
      · next other =>
        intro active active' equal
        have apart := (placed active).2.2 l lower other active'
        rw [compares.comm] at equal
        rw [equal] at apart
        cases apart
    · next other =>
      split
      · next there =>
        intro active' active equal
        have apart := (placed active).2.2 j below other active'
        rw [equal] at apart
        cases apart
      · exact sound.distinct j below l lower


theorem size_eq (sized : map.mask.toNat + 1 = 2 ^ k) (small : k ≤ 27) : map.size = 2 ^ k := by
  have bounded : 2 ^ k ≤ 2 ^ 27 := Nat.pow_le_pow_right (by decide) small
  have one : (1 : BitVec 32).toNat = 1 := rfl
  have slots : (map.mask + 1).toNat = 2 ^ k := by
    rw [BitVec.toNat_add, one, Nat.mod_eq_of_lt] <;> omega
  rw [HashTable.size, BitVec.toInt_eq_toNat_of_lt, slots]
  · exact_mod_cast rfl
  · omega

theorem Sound.size (sound : map.Sound hfunc cmp k) : map.size = 2 ^ k :=
  size_eq sound.sized sound.small

theorem memAllocs_slots (small : k ≤ 27) :
    memAllocs granted (toUnsigned ((2 : Int) ^ k * sizeofHashSlot)) = granted := by
  have bounded : 2 ^ k ≤ 2 ^ 27 := Nat.pow_le_pow_right (by decide) small
  have positive : 0 < 2 ^ k := Nat.two_pow_pos k
  have length : toUnsigned ((2 : Int) ^ k * sizeofHashSlot) = 16 * 2 ^ k := by
    have same : (2 : Int) ^ k * sizeofHashSlot = (16 * 2 ^ k : Nat) := by
      rw [sizeofHashSlot]
      push_cast
      ring
    rw [toUnsigned, same]
    omega
  rw [length, memAllocs, Kernel.memAlloc]
  cases granted with
  | false => rw [if_pos (.inr (.inr rfl))]; rfl
  | true =>
      rw [if_neg]
      · rfl
      · rintro (zero | wrapped | refused)
        · omega
        · omega
        · cases refused

theorem memAllocs_overflow : memAllocs granted (toUnsigned ((2 : Int) ^ 28 * sizeofHashSlot)) =
    false := by
  cases granted <;> decide

variable [Inhabited κ] [Inhabited ν] in
theorem hashInitialize_eq (large : 3 ≤ k) (small : k ≤ 27)
    (initial : map.hashInitialize (2 ^ k) granted = some map') :
    Sound map.hfunc map.cmp k map' ∧ ∀ i, (map'.table i).mode = .empty := by
  rw [hashInitialize] at initial
  split at initial
  · rw [Option.some.injEq] at initial
    subst initial
    have bounded : 2 ^ k ≤ 2 ^ 27 := Nat.pow_le_pow_right (by decide) small
    have positive : 0 < 2 ^ k := Nat.two_pow_pos k
    have unused (i : Nat) : ¬ (.cleared .empty : HashSlot κ ν).Used := fun used => used rfl
    have inactive (i : Nat) : ¬ (.cleared .empty : HashSlot κ ν).Active := nofun
    refine ⟨⟨rfl, rfl, ?_, large, small, ?_, ?_, fun i _ active => ?_, fun i _ active => ?_,
      fun i _ j _ active => ?_⟩, fun _ => rfl⟩
    · have mask : (BitVec.ofInt 32 ((2 : Int) ^ k - 1)).toNat = 2 ^ k - 1 := by
        rw [BitVec.toNat_ofInt]
        have same : (2 : Int) ^ k - 1 = (2 ^ k - 1 : Nat) := by
          push_cast [Nat.one_le_two_pow]
          rfl
        rw [same]
        omega
      rw [mask]
      omega
    · exact congrArg Nat.cast (tally_eq_zero.mpr fun i _ => unused i).symm
    · exact congrArg Nat.cast (tally_eq_zero.mpr fun i _ => inactive i).symm
    · exact absurd active (inactive i)
    · exact absurd active (inactive i)
    · exact absurd active (inactive i)
  · cases initial

theorem binds_write {fill count : Int} (inside : i < map.mask.toNat + 1) :
    Binds { map.setSlot i slot with fill := fill, count := count } key value ↔
      (slot.Active ∧ map.cmp slot.key key = true ∧ slot.value = value) ∨
        ∃ j < map.mask.toNat + 1, j ≠ i ∧ (map.table j).Active ∧
          map.cmp (map.table j).key key = true ∧ (map.table j).value = value := by
  have other {j : Nat} (apart : j ≠ i) : (map.setSlot i slot).table j = map.table j :=
    Function.update_of_ne apart _ _
  have here : (map.setSlot i slot).table i = slot := Function.update_self _ _ _
  constructor
  · rintro ⟨j, below, binds⟩
    change ((map.setSlot i slot).table j).Active ∧
      map.cmp ((map.setSlot i slot).table j).key key = true ∧
      ((map.setSlot i slot).table j).value = value at binds
    by_cases same : j = i
    · rw [same, here] at binds
      exact .inl binds
    · rw [other same] at binds
      exact .inr ⟨j, below, same, binds⟩
  · rintro (binds | ⟨j, below, apart, binds⟩)
    · refine ⟨i, inside, ?_⟩
      change ((map.setSlot i slot).table i).Active ∧
        map.cmp ((map.setSlot i slot).table i).key key = true ∧
        ((map.setSlot i slot).table i).value = value
      rw [here]
      exact binds
    · refine ⟨j, below, ?_⟩
      change ((map.setSlot i slot).table j).Active ∧
        map.cmp ((map.setSlot i slot).table j).key key = true ∧
        ((map.setSlot i slot).table j).value = value
      rw [other apart]
      exact binds

theorem binds_fresh {fill count : Int} (inside : i < map.mask.toNat + 1)
    (inactive : ¬ (map.table i).Active) :
    Binds { map.setSlot i slot with fill := fill, count := count } key value ↔
      (slot.Active ∧ map.cmp slot.key key = true ∧ slot.value = value) ∨ map.Binds key value := by
  rw [binds_write inside]
  refine or_congr_right ⟨?_, ?_⟩
  · rintro ⟨j, below, -, binds⟩
    exact ⟨j, below, binds⟩
  · rintro ⟨j, below, active, binds⟩
    refine ⟨j, below, ?_, active, binds⟩
    rintro rfl
    exact inactive active

def Clean (k : Nat) (map : HashTable κ ν) : Prop :=
  ∀ i < 2 ^ k, (map.table i).Used → (map.table i).Active

theorem Sound.fill_eq (sound : map.Sound hfunc cmp k) (clean : map.Clean k) :
    map.fill = map.count := by
  rw [sound.filled, sound.counted]
  have same : tally HashSlot.Used map.table (2 ^ k) = tally HashSlot.Active map.table (2 ^ k) :=
    Nat.le_antisymm (tally_mono fun i inside used => clean i inside used)
      (tally_mono fun i _ active => active.used)
  rw [same]

variable [DecidableEq κ] {oldtable : Nat → HashSlot κ ν}
  {rest : List Nat}

theorem hashCopy_inactive (inactive : ¬ (oldtable i).Active) :
    hashCopy oldtable map (i :: rest) = hashCopy oldtable map rest := by
  rw [hashCopy]
  exact if_pos inactive

theorem hashCopy_active (active : (oldtable i).Active)
    (found : map.hashLookup (oldtable i).key (map.hfunc (oldtable i).key) = .ok j) :
    hashCopy oldtable map (i :: rest) = hashCopy oldtable
      { map.setSlot j (oldtable i) with fill := map.fill + 1, count := map.count + 1 } rest := by
  have slot : { oldtable i with mode := .active } = oldtable i := by
    rw [← show (oldtable i).mode = .active from active]
  rw [hashCopy]
  dsimp only
  rw [slot, found]
  exact if_neg (not_not.mpr active)

theorem Sound.copySlot (sound : map.Sound hfunc cmp k) (clean : map.Clean k)
    (compares : Bindings.Compares cmp) (agrees : Agrees hfunc cmp) (active : slot.Active)
    (hash : slot.hash = hfunc slot.key)
    (absent : ∀ j < 2 ^ k, (map.table j).Active → cmp (map.table j).key slot.key = false)
    (room : map.count < 2 ^ k) :
    ∃ new < 2 ^ k, ∃ map', map' = { map.setSlot new slot with
        fill := map.fill + 1, count := map.count + 1 } ∧
      map.hashLookup slot.key (map.hfunc slot.key) = .ok new ∧ map'.Sound hfunc cmp k ∧
      map'.Clean k ∧ (∀ j, map'.table j = slot ∨ map'.table j = map.table j) ∧
      ∀ key value, map'.Binds key value ↔
        (cmp slot.key key = true ∧ slot.value = value) ∨ map.Binds key value := by
  have space : map.fill < 2 ^ k := by
    rw [sound.fill_eq clean]
    exact room
  obtain ⟨new, inside, ended, found⟩ := sound.lookup space slot.key (hfunc slot.key)
  rcases sound.found compares agrees found with ⟨taken, equal⟩ | ⟨free, reaches, -⟩
  · have apart := absent new inside taken
    rw [equal] at apart
    cases apart
  have unused : ¬ (map.table new).Used := fun used => free (clean new inside used)
  have written := sound.write slot (map.fill + 1) (map.count + 1) inside active.used compares
    (fun _ => ⟨hash, hash ▸ reaches, fun j below _ old => absent j below old⟩)
    (by rw [if_neg unused]; omega) (by rw [if_neg free, if_pos active]; omega)
  have table (j : Nat) : (map.setSlot new slot).table j = slot ∨
      (map.setSlot new slot).table j = map.table j := by
    by_cases same : j = new
    · exact .inl (same ▸ Function.update_self _ _ _)
    · exact .inr (Function.update_of_ne same _ _)
  rw [← sound.hashes] at ended
  refine ⟨new, inside, _, rfl, ended, written, ?_, table, ?_⟩
  · intro j below used
    change ((map.setSlot new slot).table j).Active
    change ((map.setSlot new slot).table j).Used at used
    rcases table j with here | there
    · rw [here]
      exact active
    · rw [there] at used ⊢
      exact clean j below used
  · intro key value
    rw [binds_fresh (by rw [sound.sized]; exact inside) free, sound.compares,
      and_iff_right active]

theorem hashCopy_ok (oldtable : Nat → HashSlot κ ν) (rest : List Nat)
    (compares : Bindings.Compares cmp) (agrees : Agrees hfunc cmp)
    (hashed : ∀ i ∈ rest, (oldtable i).Active → (oldtable i).hash = hfunc (oldtable i).key)
    (distinct : rest.Pairwise fun i j => (oldtable i).Active → (oldtable j).Active →
      cmp (oldtable i).key (oldtable j).key = false)
    (sound : map.Sound hfunc cmp k) (clean : map.Clean k)
    (fresh : ∀ i ∈ rest, (oldtable i).Active → ∀ j < 2 ^ k, (map.table j).Active →
      cmp (map.table j).key (oldtable i).key = false)
    (room : map.count + (rest.countP fun i => (oldtable i).Active : Nat) < 2 ^ k) :
    ∃ map', hashCopy oldtable map rest = .ok map' ∧ map'.Sound hfunc cmp k ∧ map'.Clean k ∧
      map'.count = map.count + (rest.countP fun i => (oldtable i).Active : Nat) ∧
      ∀ key value, map'.Binds key value ↔ map.Binds key value ∨ ∃ i ∈ rest,
        (oldtable i).Active ∧ cmp (oldtable i).key key = true ∧ (oldtable i).value = value := by
  induction rest generalizing map with
  | nil =>
      refine ⟨map, rfl, sound, clean, by simp, fun key value => ?_⟩
      simp
  | cons i rest ih =>
      obtain ⟨apart, distinct⟩ := List.pairwise_cons.mp distinct
      obtain ⟨hash, hashed⟩ := List.forall_mem_cons.mp hashed
      obtain ⟨absent, fresh⟩ := List.forall_mem_cons.mp fresh
      by_cases active : (oldtable i).Active
      · rw [List.countP_cons_of_pos (by simpa using active)] at room ⊢
        push_cast at room
        obtain ⟨new, inside, map₁, copied, ended, sound₁, clean₁, table, binds₁⟩ :=
          sound.copySlot clean compares agrees active (hash active) (absent active) (by omega)
        have count₁ : map₁.count = map.count + 1 := by rw [copied]
        have fresh₁ : ∀ j ∈ rest, (oldtable j).Active → ∀ l < 2 ^ k, (map₁.table l).Active →
            cmp (map₁.table l).key (oldtable j).key = false := by
          intro j member activated l below old
          rcases table l with here | there
          · rw [here]
            exact apart j member active activated
          · rw [there] at old ⊢
            exact fresh j member activated l below old
        obtain ⟨map', run, sound', clean', count, binds⟩ := ih hashed distinct sound₁ clean₁ fresh₁
          (by rw [count₁]; omega)
        rw [hashCopy_active active ended, ← copied]
        refine ⟨map', run, sound', clean', ?_, fun key value => ?_⟩
        · rw [count, count₁]
          push_cast
          omega
        · rw [binds, binds₁]
          simp only [List.mem_cons, exists_eq_or_imp, active, true_and]
          tauto
      · rw [List.countP_cons_of_neg (by simpa using active)] at room ⊢
        rw [hashCopy_inactive active]
        obtain ⟨map', copied, sound', clean', count, binds⟩ :=
          ih hashed distinct sound clean fresh room
        refine ⟨map', copied, sound', clean', count, fun key value => ?_⟩
        rw [binds]
        simp only [List.mem_cons, exists_eq_or_imp, active, false_and, false_or]

variable [Inhabited κ] [Inhabited ν]

theorem Sound.resize (sound : map.Sound hfunc cmp i) (granted : Bool) (compares : Bindings.Compares cmp)
    (agrees : Agrees hfunc cmp) (large : 3 ≤ k) (small : k ≤ 27) (room : map.count < 2 ^ k) :
    (granted = false ∧ map.resize (2 ^ k) granted = .ok (map, -1)) ∨
      ∃ map', map.resize (2 ^ k) granted = .ok (map', 0) ∧ map'.Sound hfunc cmp k ∧
        map'.fill = map.count ∧ map'.count = map.count ∧
        ∀ key value, map'.Binds key value ↔ map.Binds key value := by
  rw [HashTable.resize]
  split
  · next refused =>
    refine .inl ⟨?_, rfl⟩
    rw [hashInitialize, memAllocs_slots small] at refused
    split at refused
    · cases refused
    · next denied => exact Bool.eq_false_iff.mpr denied
  · next new initial =>
    obtain ⟨fresh, blank⟩ := hashInitialize_eq large small initial
    rw [sound.hashes, sound.compares] at fresh
    have vacant (j : Nat) : ¬ (new.table j).Used := fun used => used (blank j)
    have empty : new.count = 0 := by
      rw [fresh.counted]
      exact congrArg Nat.cast (tally_eq_zero.mpr fun j _ active => vacant j active.used)
    have total : map.count = ((List.range (2 ^ i)).countP fun j => (map.table j).Active : Nat) := by
      rw [sound.counted, tally_eq_countP]
    obtain ⟨map', copied, sound', clean', count, binds⟩ := hashCopy_ok
      map.table (List.range (2 ^ i)) compares agrees
      (fun j member => sound.hashed j (List.mem_range.mp member))
      (List.nodup_range.imp_of_mem fun {j l} member member' apart active active' => by
        rw [← Bool.not_eq_true]
        exact fun equal => apart (sound.distinct j (List.mem_range.mp member) l
          (List.mem_range.mp member') active active' equal))
      fresh (fun j _ used => absurd used (vacant j))
      (fun j _ _ l _ active => absurd active.used (vacant l))
      (by rw [empty, ← total]; omega)
    have slots : map.size.toNat = 2 ^ i := by
      rw [sound.size]
      exact_mod_cast Int.toNat_natCast (2 ^ i)
    have moved : map'.count = map.count := by
      rw [count, empty, ← total, Int.zero_add]
    refine .inr ⟨map', ?_, sound', ?_, moved, fun key value => ?_⟩
    · rw [slots, copied]
      rfl
    · rw [sound'.fill_eq clean', moved]
    · rw [binds, Binds, Binds, sound.sized, sound.compares]
      constructor
      · rintro (⟨j, -, active, -⟩ | ⟨j, member, bound⟩)
        · exact absurd active.used (vacant j)
        · exact ⟨j, List.mem_range.mp member, bound⟩
      · rintro ⟨j, inside, bound⟩
        exact .inr ⟨j, List.mem_range.mpr inside, bound⟩

def Rehashed (hfunc : κ → BitVec 32) (cmp : κ → κ → Bool) (map map' : HashTable κ ν) : Prop :=
  ∃ k, map'.Sound hfunc cmp k ∧ 3 * map'.fill < 2 * 2 ^ k ∧ map'.count = map.count ∧
    ∀ key value, map'.Binds key value ↔ map.Binds key value

/-- `hash_update` fails for want of memory only, and keeps the bindings otherwise. -/
theorem Sound.hashUpdate (sound : map.Sound hfunc cmp k) (granted : Bool)
    (compares : Bindings.Compares cmp) (agrees : Agrees hfunc cmp) :
    (map.hashUpdate granted = .ok (map, -1) ∧ ¬ (granted = true ∧ k < 27)) ∨
      ∃ map', map.hashUpdate granted = .ok (map', 0) ∧ map.Rehashed hfunc cmp map' := by
  have bounded : (2 : Int) ^ k ≤ 2 ^ 27 := by
    exact_mod_cast Nat.pow_le_pow_right (by decide : 0 < 2) sound.small
  have least : (2 : Int) ^ 3 ≤ 2 ^ k := by
    exact_mod_cast Nat.pow_le_pow_right (by decide : 0 < 2) sound.large
  have below := sound.count_le
  have full := sound.fill_le
  rw [HashTable.hashUpdate]
  dsimp only
  rw [sound.size]
  split
  · have double : toSigned ((2 : Int) ^ k * 2) = 2 ^ (k + 1) := by
      rw [toSigned, pow_succ]
      exact Int.bmod_eq_of_le (by omega) (by omega)
    rw [double, if_neg (by rw [pow_succ]; omega)]
    by_cases room : k < 27
    · rcases sound.resize granted compares agrees
        (Nat.le_succ_of_le sound.large) room
        (by rw [pow_succ]; omega) with ⟨refused, failed⟩ | ⟨map', moved, sound', fill, count, binds⟩
      · refine .inl ⟨failed, fun both => ?_⟩
        rw [refused] at both
        cases both.1
      · refine .inr ⟨map', moved, k + 1, sound', ?_, count, binds⟩
        rw [fill, pow_succ]
        omega
    · have last : k = 27 := Nat.le_antisymm sound.small (Nat.le_of_not_lt room)
      refine .inl ⟨?_, fun both => room both.2⟩
      rw [HashTable.resize, hashInitialize, last, memAllocs_overflow]
      rfl
  · next roomy =>
    split
    · next sparse =>
      have positive : k ≠ 0 := by
        have large := sound.large
        omega
      obtain ⟨j, rfl⟩ := Nat.exists_eq_succ_of_ne_zero positive
      have half : (2 : Int) ^ (j + 1) / 2 = 2 ^ j := by
        rw [pow_succ]
        omega
      have large : 3 ≤ j := by
        by_contra low
        have power : (2 : Int) ^ (j + 1) ≤ 2 ^ 3 := by
          exact_mod_cast Nat.pow_le_pow_right (by decide : 0 < 2) (by omega : j + 1 ≤ 3)
        have above := sparse.1
        rw [HASH_MINSIZE] at above
        omega
      rw [pow_succ] at sparse least
      rw [Nat.succ_eq_add_one, half]
      rcases sound.resize granted compares agrees large
        (Nat.le_of_succ_le sound.small) (by omega) with ⟨refused, failed⟩ |
          ⟨map', moved, sound', fill, count, binds⟩
      · refine .inl ⟨failed, fun both => ?_⟩
        rw [refused] at both
        cases both.1
      · refine .inr ⟨map', moved, j, sound', ?_, count, binds⟩
        rw [fill]
        omega
    · exact .inr ⟨map, rfl, k, sound, Int.not_le.mp roomy, rfl, fun _ _ => Iff.rfl⟩

end HashTable

end IntelX86Kernel

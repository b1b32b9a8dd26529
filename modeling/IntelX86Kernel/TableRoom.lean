import IntelX86Kernel.HashCalls
import IntelX86Kernel.LookupEnds

/-! When a hash table keeps an empty slot, for any hash function and comparison. -/

namespace IntelX86Kernel

open Tally Transition

variable {κ ν : Type} {hfunc : κ → BitVec 32} {cmp : κ → κ → Bool} {map map' : HashTable κ ν}
  {key : κ} {value : ν} {hash : BitVec 32} {i j k : Nat} {slot : HashSlot κ ν} {granted : Bool}

namespace HashTable

/-- A slot of the table is empty. -/
def HasRoom (map : HashTable κ ν) : Prop := ∃ i < map.mask.toNat + 1, (map.table i).mode = .empty

/-- A table of `2 ^ k` slots with counters that are not below what they count. -/
structure Sized (k : Nat) (map : HashTable κ ν) : Prop where
  sized : map.mask.toNat + 1 = 2 ^ k
  large : 3 ≤ k
  small : k ≤ 27
  filled : (tally HashSlot.Used map.table (2 ^ k) : Int) ≤ map.fill
  counted : (tally HashSlot.Active map.table (2 ^ k) : Int) ≤ map.count

theorem Sound.toSized (sound : map.Sound hfunc cmp k) : map.Sized k :=
  ⟨sound.sized, sound.large, sound.small, le_of_eq sound.filled.symm, le_of_eq sound.counted.symm⟩

theorem Sized.size (sized : map.Sized k) : map.size = 2 ^ k := size_eq sized.sized sized.small

theorem Sized.hasRoom_iff (sized : map.Sized k) :
    map.HasRoom ↔ tally HashSlot.Used map.table (2 ^ k) < 2 ^ k := by
  rw [HasRoom, sized.sized]
  constructor
  · rintro ⟨i, inside, empty⟩
    apply Nat.lt_of_le_of_ne tally_le
    intro full
    have all := Nat.count_iff_forall.mp full i inside
    exact all empty
  · intro below
    obtain ⟨i, inside, unused⟩ := exists_uncounted below
    exact ⟨i, inside, Decidable.not_not.mp unused⟩

theorem HasRoom.write (room : map.HasRoom) (used : (map.table i).Used) (slot : HashSlot κ ν)
    (fill count : Int) :
    HasRoom { map.setSlot i slot with fill := fill, count := count } := by
  obtain ⟨j, below, empty⟩ := room
  have apart : j ≠ i := by
    intro same
    rw [same] at empty
    exact used empty
  refine ⟨j, below, ?_⟩
  change (Function.update map.table i slot j).mode = .empty
  rw [Function.update_of_ne apart, empty]

theorem Sized.write (sized : map.Sized k) (inside : i < 2 ^ k) (slot : HashSlot κ ν)
    (fill count : Int)
    (filled : map.fill + (if slot.Used then 1 else 0) ≤ fill + if (map.table i).Used then 1 else 0)
    (counted : map.count + (if slot.Active then 1 else 0) ≤
      count + if (map.table i).Active then 1 else 0) :
    Sized k { map.setSlot i slot with fill := fill, count := count } := by
  have uses := tally_update (P := HashSlot.Used) (f := map.table) (b := slot) inside
  have actives := tally_update (P := HashSlot.Active) (f := map.table) (b := slot) inside
  have before := sized.filled
  have before' := sized.counted
  refine ⟨sized.sized, sized.large, sized.small, ?_, ?_⟩
  · change (tally HashSlot.Used (Function.update map.table i slot) (2 ^ k) : Int) ≤ fill
    by_cases old : (map.table i).Used <;> by_cases new : slot.Used <;>
      simp only [old, new, if_true, if_false] at uses filled <;> omega
  · change (tally HashSlot.Active (Function.update map.table i slot) (2 ^ k) : Int) ≤ count
    by_cases old : (map.table i).Active <;> by_cases new : slot.Active <;>
      simp only [old, new, if_true, if_false] at actives counted <;> omega

theorem Sized.fillSlot (sized : map.Sized k) (inside : i < 2 ^ k) (free : ¬ (map.table i).Active)
    (key : κ) (value : ν) (hash : BitVec 32) : (map.fillSlot i key value hash).Sized k := by
  have holds : HashSlot.Active ⟨key, value, hash, .active⟩ := rfl
  apply sized.write inside
  · rw [if_pos holds.used]
    dsimp only
    by_cases empty : (map.table i).mode = .empty
    · rw [if_pos empty, if_neg (fun used => used empty)]
      omega
    · have used : (map.table i).Used := empty
      rw [if_neg empty, if_pos used]
  · rw [if_pos holds, if_neg free]
    dsimp only
    omega

variable [DecidableEq κ]

theorem Sized.lookup (sized : map.Sized k) (room : map.HasRoom) (key : κ) (hash : BitVec 32) :
    ∃ i < 2 ^ k, map.hashLookup key hash = .ok i := by
  obtain ⟨e, inside, empty⟩ := room
  rw [sized.sized] at inside
  obtain ⟨i, place, ended⟩ := search_ends map key hash sized.sized inside empty
  refine ⟨i, place, ended _ ?_⟩
  have whole := sized.sized
  omega

theorem Sized.hashCopy (oldtable : Nat → HashSlot κ ν) (rest : List Nat) (sized : map.Sized k)
    (room : tally HashSlot.Used map.table (2 ^ k) +
      rest.countP (fun i => (oldtable i).Active) < 2 ^ k) :
    ∃ map', hashCopy oldtable map rest = .ok map' ∧ map'.Sized k ∧ map'.HasRoom := by
  induction rest generalizing map with
  | nil =>
      refine ⟨map, rfl, sized, sized.hasRoom_iff.mpr ?_⟩
      simpa using room
  | cons i rest ih =>
      by_cases active : (oldtable i).Active
      · rw [List.countP_cons_of_pos (by simpa using active)] at room
        have space : map.HasRoom := sized.hasRoom_iff.mpr (by omega)
        obtain ⟨new, inside, ended⟩ :=
          sized.lookup space (oldtable i).key (map.hfunc (oldtable i).key)
        rw [hashCopy_active active ended]
        have uses := tally_update (P := HashSlot.Used) (f := map.table) (b := oldtable i) inside
        rw [if_pos active.used] at uses
        have written : Sized k { map.setSlot new (oldtable i) with
            fill := map.fill + 1, count := map.count + 1 } := by
          apply sized.write inside
          · rw [if_pos active.used]
            split <;> omega
          · rw [if_pos active]
            split <;> omega
        apply ih written
        change tally HashSlot.Used (Function.update map.table new (oldtable i)) (2 ^ k) + _ < _
        omega
      · rw [List.countP_cons_of_neg (by simpa using active)] at room
        rw [hashCopy_inactive active]
        exact ih sized room

variable [Inhabited κ] [Inhabited ν]

theorem Sized.resize (sized : map.Sized i) (granted : Bool) (large : 3 ≤ k) (small : k ≤ 27)
    (room : tally HashSlot.Active map.table (2 ^ i) < 2 ^ k) :
    (granted = false ∧ map.resize (2 ^ k) granted = .ok (map, -1)) ∨
      granted = true ∧ ∃ map', map.resize (2 ^ k) granted = .ok (map', 0) ∧ map'.Sized k ∧
        map'.HasRoom := by
  rw [HashTable.resize]
  split
  · next refused =>
    refine .inl ⟨?_, rfl⟩
    rw [hashInitialize, memAllocs_slots small] at refused
    split at refused
    · cases refused
    · next denied => exact Bool.eq_false_iff.mpr denied
  · next new initial =>
    obtain ⟨fresh, blank⟩ := hashInitialize_eq large small initial
    have allowed : granted = true := by
      rw [hashInitialize, memAllocs_slots small] at initial
      split at initial
      · next allowed => exact allowed
      · cases initial
    have unused : tally HashSlot.Used new.table (2 ^ k) = 0 :=
      tally_eq_zero.mpr fun j _ used => used (blank j)
    have slots : map.size.toNat = 2 ^ i := by
      rw [sized.size]
      exact_mod_cast Int.toNat_natCast (2 ^ i)
    obtain ⟨map', copied, sized', room'⟩ := fresh.toSized.hashCopy map.table (List.range (2 ^ i)) (by
      rw [unused, ← tally_eq_countP, Nat.zero_add]
      exact room)
    refine .inr ⟨allowed, map', ?_, sized', room'⟩
    rw [slots, copied]
    rfl

theorem Sized.grow (sized : map.Sized k) (granted : Bool) : ∃ map' status k',
    map.resize (2 ^ (k + 1)) granted = .ok (map', status) ∧ map'.Sized k' ∧
      (map'.HasRoom ↔ map.HasRoom ∨ granted = true ∧ 32 * map.size < 2 ^ 32) := by
  rw [sized.size]
  by_cases more : k < 27
  · have fits : 32 * (2 : Int) ^ k < 2 ^ 32 := by
      have power : (2 : Int) ^ k ≤ 2 ^ 26 := by
        exact_mod_cast Nat.pow_le_pow_right (by decide : 0 < 2) (Nat.le_of_lt_succ more)
      omega
    have larger : tally HashSlot.Active map.table (2 ^ k) < 2 ^ (k + 1) :=
      Nat.lt_of_le_of_lt tally_le (Nat.pow_lt_pow_succ (by decide))
    rcases sized.resize granted (Nat.le_succ_of_le sized.large) more larger with
      ⟨denied, failed⟩ | ⟨allowed, map', moved, sized', room⟩
    · refine ⟨map, -1, k, failed, sized, .inl, ?_⟩
      rintro (room | ⟨allowed, -⟩)
      · exact room
      · rw [denied] at allowed
        cases allowed
    · exact ⟨map', 0, k + 1, moved, sized', fun _ => .inr ⟨allowed, fits⟩, fun _ => room⟩
  · have last : k = 27 := Nat.le_antisymm sized.small (Nat.le_of_not_lt more)
    refine ⟨map, -1, k, ?_, sized, .inl, ?_⟩
    · rw [HashTable.resize, hashInitialize, last, memAllocs_overflow]
      rfl
    · rintro (room | ⟨-, fits⟩)
      · exact room
      · rw [last] at fits
        exact absurd fits (by decide)

theorem Sized.shrink (sized : map.Sized (k + 1)) (room : map.HasRoom) (granted : Bool)
    (large : 3 ≤ k) (fits : tally HashSlot.Active map.table (2 ^ (k + 1)) < 2 ^ k) :
    ∃ map' status k', map.resize (2 ^ k) granted = .ok (map', status) ∧ map'.Sized k' ∧
      map'.HasRoom := by
  rcases sized.resize granted large (Nat.le_of_succ_le sized.small) fits with
    ⟨-, failed⟩ | ⟨-, map', moved, sized', room'⟩
  · exact ⟨map, -1, k + 1, failed, sized, room⟩
  · exact ⟨map', 0, k, moved, sized', room'⟩

theorem Sized.hashUpdate (sized : map.Sized k) (granted : Bool) :
    ∃ map' status k', map.hashUpdate granted = .ok (map', status) ∧ map'.Sized k' ∧
      (map'.HasRoom ↔ map.HasRoom ∨ granted = true ∧ 32 * map.size < 2 ^ 32) := by
  have bounded : (2 : Int) ^ k ≤ 2 ^ 27 := by
    exact_mod_cast Nat.pow_le_pow_right (by decide : 0 < 2) sized.small
  have least : (2 : Int) ^ 3 ≤ 2 ^ k := by
    exact_mod_cast Nat.pow_le_pow_right (by decide : 0 < 2) sized.large
  have grown := sized.grow granted
  rw [sized.size] at grown ⊢
  rw [HashTable.hashUpdate]
  dsimp only
  rw [sized.size]
  split
  · have double : toSigned ((2 : Int) ^ k * 2) = 2 ^ (k + 1) := by
      rw [toSigned, pow_succ]
      exact Int.bmod_eq_of_le (by omega) (by omega)
    rw [double, if_neg (by rw [pow_succ]; omega)]
    exact grown
  · next roomy =>
    have room : map.HasRoom := by
      have filled := sized.filled
      have less : (tally HashSlot.Used map.table (2 ^ k) : Int) < 2 ^ k := by omega
      exact sized.hasRoom_iff.mpr (by exact_mod_cast less)
    split
    · next sparse =>
      obtain ⟨above, few⟩ := sparse
      obtain ⟨l, rfl⟩ : ∃ l, k = l + 1 :=
        Nat.exists_eq_succ_of_ne_zero (Nat.ne_zero_of_lt sized.large)
      have half : (2 : Int) ^ (l + 1) / 2 = 2 ^ l := by
        rw [pow_succ]
        omega
      have large : 3 ≤ l := by
        by_contra low
        have power : (2 : Int) ^ (l + 1) ≤ 2 ^ 3 := by
          exact_mod_cast Nat.pow_le_pow_right (by decide : 0 < 2) (by omega : l + 1 ≤ 3)
        rw [HASH_MINSIZE] at above
        omega
      have fits : tally HashSlot.Active map.table (2 ^ (l + 1)) < 2 ^ l := by
        have counted := sized.counted
        have less : (tally HashSlot.Active map.table (2 ^ (l + 1)) : Int) < 2 ^ l := by
          rw [pow_succ] at few least
          omega
        exact_mod_cast less
      obtain ⟨map', status, k', moved, sized', room'⟩ := sized.shrink room granted large fits
      rw [half]
      exact ⟨map', status, k', moved, sized', fun _ => .inl room, fun _ => room'⟩
    · exact ⟨map, 0, k, rfl, sized, ⟨.inl, fun _ => room⟩⟩

/-- The search for the key ends at the only empty slot. -/
def LastEmpty (map : HashTable κ ν) (key : κ) : Prop :=
  ∃ i, map.hashLookup key (map.hfunc key) = .ok i ∧ (map.table i).mode = .empty ∧
    ∀ j < map.mask.toNat + 1, (map.table j).mode = .empty → j = i

/-- A key that goes into the last empty slot makes the table grow: memory is granted, and the bytes
of twice the slots can be counted. -/
def Grows (map : HashTable κ ν) : HashCall κ ν → Prop
  | .set key _ granted => map.LastEmpty key → granted = true ∧ 32 * map.size < 2 ^ 32
  | _ => True

omit [Inhabited κ] [Inhabited ν] in
theorem fillSlot_hasRoom_iff (room : map.HasRoom) (value : ν)
    (ended : map.hashLookup key (map.hfunc key) = .ok i) :
    (map.fillSlot i key value (map.hfunc key)).HasRoom ↔ ¬ map.LastEmpty key := by
  have others (j : Nat) : ((map.fillSlot i key value (map.hfunc key)).table j).mode = .empty ↔
      j ≠ i ∧ (map.table j).mode = .empty := by
    change (Function.update map.table i _ j).mode = _ ↔ _
    by_cases same : j = i
    · rw [same, Function.update_self]
      constructor
      · intro empty
        cases empty
      · intro both
        exact absurd rfl both.1
    · rw [Function.update_of_ne same]
      exact (and_iff_right same).symm
  constructor
  · rintro ⟨j, below, empty⟩ ⟨l, again, -, only⟩
    rw [ended, Except.ok.injEq] at again
    obtain ⟨apart, empty⟩ := (others j).mp empty
    exact apart ((only j below empty).trans again.symm)
  · intro spared
    by_contra full
    have only : ∀ j < map.mask.toNat + 1, (map.table j).mode = .empty → j = i := by
      intro j below empty
      by_contra apart
      exact full ⟨j, below, (others j).mpr ⟨apart, empty⟩⟩
    obtain ⟨j, below, empty⟩ := room
    have here := only j below empty
    exact spared ⟨i, ended, here ▸ empty, only⟩

theorem Sized.hashSet (sized : map.Sized k) (room : map.HasRoom) (key : κ) (value : ν)
    (granted : Bool) : ∃ map' status k', map.hashSet key value granted = .ok (map', status) ∧
      map'.Sized k' ∧ (map'.HasRoom ↔ map.Grows (.set key value granted)) := by
  obtain ⟨i, inside, ended⟩ := sized.lookup room key (map.hfunc key)
  obtain ⟨run, -⟩ := hashSet_eq value granted ended
  rw [run, Grows]
  by_cases active : (map.table i).Active
  · rw [if_pos active]
    have still : HashSlot.Active { map.table i with value := value } := active
    have written := sized.write inside { map.table i with value := value } map.fill map.count
      (by rw [if_pos still.used, if_pos active.used]) (by rw [if_pos still, if_pos active])
    have kept := room.write active.used { map.table i with value := value } map.fill map.count
    refine ⟨_, 0, k, rfl, written, fun _ last => ?_, fun _ => kept⟩
    obtain ⟨j, again, empty, -⟩ := last
    rw [ended, Except.ok.injEq] at again
    rw [again] at active
    exact absurd empty active.used
  · rw [if_neg active]
    have filled := sized.fillSlot inside active key value (map.hfunc key)
    obtain ⟨map', status, k', done, sized', kept⟩ := filled.hashUpdate granted
    refine ⟨map', status, k', done, sized', kept.trans ?_⟩
    have size : (map.fillSlot i key value (map.hfunc key)).size = map.size := rfl
    rw [size, fillSlot_hasRoom_iff room value ended]
    tauto

theorem Sized.hashDel (sized : map.Sized k) (room : map.HasRoom) (key : κ) (granted : Bool) :
    ∃ map' status k', map.hashDel key granted = .ok (map', status) ∧ map'.Sized k' ∧
      map'.HasRoom := by
  obtain ⟨i, inside, ended⟩ := sized.lookup room key (map.hfunc key)
  obtain ⟨run, -⟩ := hashDel_eq granted ended
  rw [run]
  by_cases active : (map.table i).Active
  · rw [if_pos active]
    have inactive : ¬ HashSlot.Active (.cleared .deleted : HashSlot κ ν) :=
      HashSlot.inactive_of_deleted rfl
    have used : HashSlot.Used (.cleared .deleted : HashSlot κ ν) := HashSlot.used_of_deleted rfl
    have dropped : (map.dropSlot i).Sized k :=
      sized.write inside (.cleared .deleted) map.fill (map.count - 1)
        (by rw [if_pos active.used, if_pos used])
        (by rw [if_pos active, if_neg inactive]; omega)
    have kept : (map.dropSlot i).HasRoom :=
      room.write active.used (.cleared .deleted) map.fill (map.count - 1)
    obtain ⟨map', status, k', done, sized', room'⟩ := dropped.hashUpdate granted
    exact ⟨map', status, k', done, sized', room'.mpr (.inl kept)⟩
  · rw [if_neg active]
    exact ⟨map, 0, k, rfl, sized, room⟩

/-- A call on a table with room ends, and there is room afterwards exactly when the table grows
where it has to. -/
theorem Sized.call (sized : map.Sized k) (room : map.HasRoom) (c : HashCall κ ν) :
    ∃ map' answer k', map.call c = .ok (map', answer) ∧ map'.Sized k' ∧
      (map'.HasRoom ↔ map.Grows c) := by
  cases c with
  | set key value granted =>
      obtain ⟨map', status, k', done, sized', kept⟩ := sized.hashSet room key value granted
      refine ⟨map', .status status, k', ?_, sized', kept⟩
      rw [HashTable.call, done]
      rfl
  | del key granted =>
      obtain ⟨map', status, k', done, sized', kept⟩ := sized.hashDel room key granted
      refine ⟨map', .status status, k', ?_, sized', fun _ => trivial, fun _ => kept⟩
      rw [HashTable.call, done]
      rfl
  | get key defaultValue =>
      obtain ⟨i, -, ended⟩ := sized.lookup room key (map.hfunc key)
      refine ⟨map, .value (if (map.table i).mode = .active then (map.table i).value else defaultValue),
        k, ?_, sized, fun _ => trivial, fun _ => room⟩
      rw [HashTable.call, hashGet, ended]
      change (if (map.table i).mode = .active then _ else _) >>= _ = _
      split <;> rfl
  | isset key =>
      obtain ⟨i, -, ended⟩ := sized.lookup room key (map.hfunc key)
      refine ⟨map, .isset (decide ((map.table i).mode = .active)), k, ?_, sized, fun _ => trivial,
        fun _ => room⟩
      rw [HashTable.call, hashIsset, ended]
      rfl

end HashTable

open HashTable

variable [DecidableEq κ] [Inhabited κ] [Inhabited ν]

theorem HashTable.sound_of_call {c : HashCall κ ν} {answer : HashAnswer ν}
    (sound : map.Sound hfunc cmp k) (compares : Bindings.Compares cmp)
    (agrees : Agrees hfunc cmp) (taken : map.call c = .ok (map', answer)) :
    ∃ k', map'.Sound hfunc cmp k' := by
  cases c with
  | set key value granted =>
      rw [HashTable.call] at taken
      rcases ended : map.hashLookup key (map.hfunc key) with fault | i
      · rw [hashSet] at taken
        dsimp only at taken
        rw [ended] at taken
        cases taken
      · by_cases active : (map.table i).Active
        · obtain ⟨run, -⟩ := hashSet_eq value granted ended
          rw [run, if_pos active] at taken
          cases taken
          exact ⟨k, sound.setValue compares (sound.looked ended).1 active value⟩
        · obtain ⟨new, status, k', done, sound', -⟩ :=
            sound.hashSet compares agrees value granted ended active
          rw [done] at taken
          cases taken
          exact ⟨k', sound'⟩
  | del key granted =>
      rw [HashTable.call] at taken
      rcases ended : map.hashLookup key (map.hfunc key) with fault | i
      · rw [hashDel, ended] at taken
        cases taken
      · obtain ⟨run, -⟩ := hashDel_eq granted ended
        by_cases active : (map.table i).Active
        · rw [run, if_pos active] at taken
          have dropped := sound.dropSlot compares (sound.looked ended).1 active
          rcases dropped.hashUpdate granted compares agrees with ⟨failed, -⟩ |
            ⟨new, moved, k', sound', -⟩
          · rw [failed] at taken
            cases taken
            exact ⟨k, dropped⟩
          · rw [moved] at taken
            cases taken
            exact ⟨k', sound'⟩
        · rw [run, if_neg active] at taken
          cases taken
          exact ⟨k, sound⟩
  | get key defaultValue =>
      rw [HashTable.call] at taken
      rcases found : map.hashGet key defaultValue with fault | value
      · rw [found] at taken
        cases taken
      · rw [found] at taken
        cases taken
        exact ⟨k, sound⟩
  | isset key =>
      rw [HashTable.call] at taken
      rcases found : map.hashIsset key with fault | isset
      · rw [found] at taken
        cases taken
      · rw [found] at taken
        cases taken
        exact ⟨k, sound⟩

def LeavesRoom (_ : List (HashStep κ ν)) (t : HashStep κ ν) : Prop :=
  t.after.HasRoom ∧ ∀ key hash, ∃ i, t.after.hashLookup key hash = .ok i

def GrowsInTime (_ : List (HashStep κ ν)) (t : HashStep κ ν) : Prop := t.before.Grows t.event

omit [DecidableEq κ] in
theorem Initialised.room (initialised : Initialised hfunc cmp map) :
    ∃ k, map.Sized k ∧ map.HasRoom := by
  obtain ⟨k, sound, room⟩ := initialised.stores.sound
  refine ⟨k, sound.toSized, sound.toSized.hasRoom_iff.mpr ?_⟩
  have filled := sound.filled
  have less : (tally HashSlot.Used map.table (2 ^ k) : Int) < 2 ^ k := by omega
  exact_mod_cast less

theorem room_of_run {history : List (HashStep κ ν)}
    (run : Run HashTable.call (Initialised hfunc cmp) history map) :
    (Meets LeavesRoom history ↔ Meets GrowsInTime history) ∧
      (Meets GrowsInTime history → ∃ k, map.Sized k ∧ map.HasRoom) := by
  refine run.always (I := fun past map => (Meets LeavesRoom past ↔ Meets GrowsInTime past) ∧
    (Meets GrowsInTime past → ∃ k, map.Sized k ∧ map.HasRoom))
    (fun map initialised => ⟨Iff.rfl, fun _ => initialised.room⟩)
    (fun past map c answer map' _ kept taken => ?_)
  obtain ⟨same, invariant⟩ := kept
  have step (grown : Meets GrowsInTime past) :
      ∃ k, map'.Sized k ∧ (map'.HasRoom ↔ map.Grows c) := by
    obtain ⟨k, sized, room⟩ := invariant grown
    obtain ⟨new, answer', k', done, sized', kept⟩ := sized.call room c
    rw [done] at taken
    cases taken
    exact ⟨k', sized', kept⟩
  refine ⟨⟨fun leaves => ?_, fun grows => ?_⟩, fun grows => ?_⟩
  · obtain ⟨⟨room, -⟩, before⟩ := leaves
    have grown := same.mp before
    obtain ⟨k, -, kept⟩ := step grown
    exact ⟨kept.mp room, grown⟩
  · obtain ⟨now, grown⟩ := grows
    obtain ⟨k, sized, kept⟩ := step grown
    refine ⟨⟨kept.mpr now, fun key hash => ?_⟩, same.mpr grown⟩
    obtain ⟨i, -, ended⟩ := sized.lookup (kept.mpr now) key hash
    exact ⟨i, ended⟩
  · obtain ⟨now, grown⟩ := grows
    obtain ⟨k, sized, kept⟩ := step grown
    exact ⟨k, sized, kept.mpr now⟩

theorem sound_of_run {history : List (HashStep κ ν)}
    (run : Run HashTable.call (Initialised hfunc cmp) history map)
    (compares : Bindings.Compares cmp) (agrees : Agrees hfunc cmp) :
    ∃ k, map.Sound hfunc cmp k :=
  run.stateInvariant (I := fun map => ∃ k, map.Sound hfunc cmp k)
    (fun _ initialised => initialised.stores.sound.imp fun _ => And.left)
    fun _ _ _ _ ⟨_, sound⟩ taken => sound_of_call sound compares agrees taken

/-- In a run from `hash_init`, with any hash function and comparison, every call leaves an empty
slot and searches that end, exactly when the table grows each time its last empty slot is taken.
When the hash function agrees with the comparison, `fill` counts the slots that are not empty. -/
theorem table_keeps_room {history : List (HashStep κ ν)}
    (run : Run HashTable.call (Initialised hfunc cmp) history map) :
    (Meets LeavesRoom history ↔ Meets GrowsInTime history) ∧
      (Meets GrowsInTime history → map.HasRoom ∧
        (∀ key hash, ∃ i, map.hashLookup key hash = .ok i) ∧
        ∀ c, ∃ map' answer, map.call c = .ok (map', answer)) ∧
      (Bindings.Compares cmp → Agrees hfunc cmp →
        (map.HasRoom ↔ map.fill < (map.mask.toNat + 1 : Nat))) := by
  obtain ⟨same, invariant⟩ := room_of_run run
  refine ⟨same, fun grown => ?_, fun compares agrees => ?_⟩
  · obtain ⟨k, sized, room⟩ := invariant grown
    refine ⟨room, fun key hash => ?_, fun c => ?_⟩
    · obtain ⟨i, -, ended⟩ := sized.lookup room key hash
      exact ⟨i, ended⟩
    · obtain ⟨map', answer, -, done, -⟩ := sized.call room c
      exact ⟨map', answer, done⟩
  · obtain ⟨k, sound⟩ := sound_of_run run compares agrees
    rw [sound.toSized.hasRoom_iff, sound.filled, sound.sized, Int.ofNat_lt]

/-- Six keys in a table that grows once, after a failed attempt. -/
theorem table_keeps_room_growing : ∃ (history : List (HashStep Nat Nat)) (map : HashTable Nat Nat),
    history.length = 8 ∧ map.size = 16 ∧
      (Meets LeavesRoom history ↔ Meets GrowsInTime history) ∧
      (Meets GrowsInTime history → map.HasRoom ∧
        (∀ key hash, ∃ i, map.hashLookup key hash = .ok i) ∧
        ∀ c, ∃ map' answer, map.call c = .ok (map', answer)) ∧
      (map.HasRoom ↔ map.fill < (map.mask.toNat + 1 : Nat)) := by
  let hash (key : Nat) : BitVec 32 := .ofNat 32 key
  let equal (a b : Nat) : Bool := a == b
  let blank : HashTable Nat Nat := ⟨0, 0, 7, fun _ => .cleared .empty, hash, equal⟩
  have initialised : Initialised hash equal blank := ⟨blank, true, rfl⟩
  obtain ⟨history, map, run, checked⟩ := reaches_run HashTable.call initialised
    [.set 0 1 true, .set 1 1 true, .set 2 1 true, .set 3 1 true, .set 4 1 true,
      .set 5 1 false, .del 0 false, .set 6 1 true]
    (fun history map => decide (history.length = 8) && decide (map.size = 16))
    (by decide +kernel)
  rw [Bool.and_eq_true, decide_eq_true_eq, decide_eq_true_eq] at checked
  have compares : Bindings.Compares equal :=
    ⟨fun a => beq_self_eq_true a, fun same => beq_iff_eq.mpr (beq_iff_eq.mp same).symm,
      fun first second => beq_iff_eq.mpr ((beq_iff_eq.mp first).trans (beq_iff_eq.mp second))⟩
  have agrees : Agrees hash equal := fun a b same => congrArg hash (beq_iff_eq.mp same)
  obtain ⟨same, room, filled⟩ := table_keeps_room run
  exact ⟨history, map, checked.1, checked.2, same, room, filled compares agrees⟩

/-- Eight keys fill the table when it is never granted another block. -/
theorem table_fills_up : ¬ ∀ (history : List (HashStep Nat Nat)) (map : HashTable Nat Nat),
    Run HashTable.call (Initialised (.ofNat 32) fun a b => a == b) history map →
      ∃ i < map.mask.toNat + 1, (map.table i).mode = .empty := by
  intro room
  let blank : HashTable Nat Nat := ⟨0, 0, 7, fun _ => .cleared .empty, .ofNat 32, fun a b => a == b⟩
  have initialised : Initialised (.ofNat 32) (fun a b => a == b) blank := ⟨blank, true, rfl⟩
  obtain ⟨history, map, run, checked⟩ := reaches_run HashTable.call initialised
    [.set 0 1 true, .set 1 1 true, .set 2 1 true, .set 3 1 true, .set 4 1 true,
      .set 5 1 false, .set 6 1 false, .set 7 1 false]
    (fun _ map => decide (map.mask = 7) && decide (∀ i : Fin 8, (map.table i).mode ≠ .empty))
    (by decide +kernel)
  rw [Bool.and_eq_true, decide_eq_true_eq, decide_eq_true_eq] at checked
  obtain ⟨mask, full⟩ := checked
  obtain ⟨i, below, empty⟩ := room history map run
  rw [mask] at below
  exact full ⟨i, below⟩ empty

end IntelX86Kernel

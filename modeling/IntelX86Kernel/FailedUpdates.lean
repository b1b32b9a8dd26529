import IntelX86Kernel.HashCalls

/-! What `hash_set` and `hash_del` leave in the table when they fail. -/

namespace IntelX86Kernel

variable {κ ν : Type} {map map' : HashTable κ ν} {key other : κ} {value : ν}
  {hash : BitVec 32} {i j : Nat} {granted : Bool} {result : Except Fault Nat}

def HashSlot.bound (slot : HashSlot κ ν) : Option ν :=
  if slot.Active then some slot.value else none

theorem HashSlot.bound_active {slot : HashSlot κ ν} (active : slot.Active) :
    slot.bound = some slot.value := if_pos active

theorem HashSlot.bound_inactive {slot : HashSlot κ ν} (inactive : ¬ slot.Active) :
    slot.bound = none := if_neg inactive

variable [DecidableEq κ]

namespace HashTable

def shown (map : HashTable κ ν) (result : Except Fault Nat) : Except Fault (Option ν) :=
  result.map fun i => (map.table i).bound

def binding (map : HashTable κ ν) (key : κ) : Except Fault (Option ν) :=
  map.shown (map.hashLookup key (map.hfunc key))

def SameMapping (map map' : HashTable κ ν) : Prop :=
  ∀ key, map'.hashIsset key = map.hashIsset key ∧
    ∀ defaultValue, map'.hashGet key defaultValue = map.hashGet key defaultValue

theorem hashIsset_eq (key : κ) : map.hashIsset key = (map.binding key).map Option.isSome := by
  rw [hashIsset, binding, shown]
  rcases map.hashLookup key (map.hfunc key) with fault | i
  · rfl
  · change Except.ok (decide (map.table i).Active) = .ok (map.table i).bound.isSome
    by_cases active : (map.table i).Active
    · rw [decide_eq_true active, HashSlot.bound_active active]
      rfl
    · rw [decide_eq_false active, HashSlot.bound_inactive active]
      rfl

theorem hashGet_eq (key : κ) (defaultValue : ν) :
    map.hashGet key defaultValue = (map.binding key).map fun found => found.getD defaultValue := by
  rw [hashGet, binding, shown]
  rcases map.hashLookup key (map.hfunc key) with fault | i
  · rfl
  · change (if (map.table i).Active then _ else _) =
      Except.ok ((map.table i).bound.getD defaultValue)
    by_cases active : (map.table i).Active
    · rw [if_pos active, HashSlot.bound_active active]
      rfl
    · rw [if_neg active, HashSlot.bound_inactive active]
      rfl

theorem sameMapping_iff : map.SameMapping map' ↔ ∀ key, map'.binding key = map.binding key := by
  constructor
  · intro same key
    obtain ⟨isset, get⟩ := same key
    rw [hashIsset_eq, hashIsset_eq] at isset
    rcases before : map.binding key with fault | found
    · rcases after : map'.binding key with fault' | found'
      · rw [before, after] at isset
        cases isset
        rfl
      · rw [before, after] at isset
        cases isset
    · rcases after : map'.binding key with fault' | found'
      · rw [before, after] at isset
        cases isset
      · rw [before, after] at isset
        have isset : found'.isSome = found.isSome := Except.ok.inj isset
        rcases found with none | value
        · rw [Option.isSome_none, Option.isSome_eq_false_iff, Option.isNone_iff_eq_none] at isset
          rw [isset]
        · rw [Option.isSome_some, Option.isSome_iff_exists] at isset
          obtain ⟨value', rfl⟩ := isset
          have get := get value
          rw [hashGet_eq, hashGet_eq, before, after] at get
          have equal : value' = value := Except.ok.inj get
          rw [equal]
  · intro same key
    rw [hashIsset_eq, hashIsset_eq, same key]
    refine ⟨rfl, fun defaultValue => ?_⟩
    rw [hashGet_eq, hashGet_eq, same key]

def Hits (cmp : κ → κ → Bool) (key : κ) (hash : BitVec 32) (slot : HashSlot κ ν) : Prop :=
  slot.Active ∧ (slot.key = key ∨ slot.hash = hash ∧ cmp slot.key key = true)

instance (cmp : κ → κ → Bool) (key : κ) (hash : BitVec 32) (slot : HashSlot κ ν) :
    Decidable (Hits cmp key hash slot) := inferInstanceAs (Decidable (_ ∧ _))

def turn (cmp : κ → κ → Bool) (key : κ) (hash : BitVec 32) (slot : HashSlot κ ν) (i : Nat)
    (freeslot : Option Nat) (next : Option Nat → Except Fault Nat) : Except Fault Nat :=
  if slot.mode = .empty then .ok (freeslot.getD i)
  else if Hits cmp key hash slot then .ok i
  else next (if slot.mode = .deleted ∧ freeslot = none then some i else freeslot)

section Turn

variable {turns : Nat} {index perturb : BitVec 32} {freeslot freeslot' : Option Nat}
  {slot : HashSlot κ ν} {cmp : κ → κ → Bool} {next : Option Nat → Except Fault Nat}

theorem hashLookupLoop_succ (map : HashTable κ ν) : map.hashLookupLoop key hash (turns + 1) index perturb freeslot =
    turn map.cmp key hash (map.table (index &&& map.mask).toNat) (index &&& map.mask).toNat freeslot
      (map.hashLookupLoop key hash turns (5 * index + perturb + 1) (perturb >>> 5)) := rfl

theorem turn_empty (empty : slot.mode = .empty) :
    turn cmp key hash slot i freeslot next = .ok (freeslot.getD i) := if_pos empty

theorem turn_hit (hit : Hits cmp key hash slot) :
    turn cmp key hash slot i freeslot next = .ok i :=
  (if_neg hit.1.used).trans (if_pos hit)

theorem turn_on (used : slot.Used) (other : ¬ Hits cmp key hash slot) :
    turn cmp key hash slot i freeslot next =
      next (if slot.mode = .deleted ∧ freeslot = none then some i else freeslot) :=
  (if_neg used).trans (if_neg other)

omit [DecidableEq κ] in
theorem freeslot_next (free : ∀ f, freeslot = some f → ¬ (map.table f).Active) :
    ∀ f, (if (map.table i).mode = .deleted ∧ freeslot = none then some i else freeslot) = some f →
      ¬ (map.table f).Active := by
  intro f same
  split at same
  · next dropped =>
    cases same
    exact HashSlot.inactive_of_deleted dropped.1
  · exact free f same

theorem hashLookupLoop_free {f : Nat}
    (ended : map.hashLookupLoop key hash turns index perturb (some f) = .ok i) :
    i = f ∨ (map.table i).Active := by
  induction turns generalizing index perturb with
  | zero => cases ended
  | succ turns ih =>
      rw [hashLookupLoop_succ map] at ended
      by_cases empty : (map.table (index &&& map.mask).toNat).mode = .empty
      · rw [turn_empty empty] at ended
        cases ended
        exact .inl rfl
      · by_cases hit : Hits map.cmp key hash (map.table (index &&& map.mask).toNat)
        · rw [turn_hit hit] at ended
          cases ended
          exact .inr hit.1
        · rw [turn_on empty hit, if_neg (fun both => nomatch both.2)] at ended
          exact ih ended

theorem hashLookupLoop_filled (slot : HashSlot κ ν)
    (ended : map.hashLookupLoop key hash turns index perturb none = .ok i)
    (free : ¬ (map.table i).Active) (active : slot.Active) (holds : slot.key = key) :
    (map.setSlot i slot).hashLookupLoop key hash turns index perturb none = .ok i := by
  induction turns generalizing index perturb with
  | zero => cases ended
  | succ turns ih =>
      rw [hashLookupLoop_succ map] at ended
      change turn map.cmp key hash ((map.setSlot i slot).table (index &&& map.mask).toNat)
        (index &&& map.mask).toNat none _ = _
      by_cases place : (index &&& map.mask).toNat = i
      · have here : (map.setSlot i slot).table i = slot := Function.update_self ..
        rw [place, here]
        exact turn_hit ⟨active, .inl holds⟩
      · have kept : (map.setSlot i slot).table (index &&& map.mask).toNat =
            map.table (index &&& map.mask).toNat := Function.update_of_ne place ..
        rw [kept]
        by_cases empty : (map.table (index &&& map.mask).toNat).mode = .empty
        · rw [turn_empty empty] at ended
          cases ended
          exact absurd rfl place
        · by_cases hit : Hits map.cmp key hash (map.table (index &&& map.mask).toNat)
          · rw [turn_hit hit] at ended
            cases ended
            exact absurd hit.1 free
          · rw [turn_on empty hit] at ended ⊢
            split at ended
            · next dropped =>
              rcases hashLookupLoop_free ended with same | active'
              · exact absurd same.symm place
              · exact absurd active' free
            · next taken =>
              rw [if_neg taken]
              exact ih ended

theorem hashLookupLoop_dropped (dropped : slot.mode = .deleted) (taken : (map.table i).Active)
    (free : ∀ f, freeslot = some f → ¬ (map.table f).Active)
    (free' : ∀ f, freeslot' = some f → ¬ ((map.setSlot i slot).table f).Active)
    (elsewhere : map.hashLookupLoop key hash turns index perturb freeslot ≠ .ok i) :
    (map.setSlot i slot).shown
        ((map.setSlot i slot).hashLookupLoop key hash turns index perturb freeslot') =
      map.shown (map.hashLookupLoop key hash turns index perturb freeslot) := by
  induction turns generalizing index perturb freeslot freeslot' with
  | zero => rfl
  | succ turns ih =>
      have inactive : ¬ slot.Active := HashSlot.inactive_of_deleted dropped
      have here : (map.setSlot i slot).table i = slot := Function.update_self ..
      rw [hashLookupLoop_succ map] at elsewhere ⊢
      change (map.setSlot i slot).shown (turn map.cmp key hash
        ((map.setSlot i slot).table (index &&& map.mask).toNat) (index &&& map.mask).toNat
        freeslot' _) = _
      by_cases place : (index &&& map.mask).toNat = i
      · rw [place] at elsewhere ⊢
        have other : ¬ Hits map.cmp key hash (map.table i) := fun hit => elsewhere (turn_hit hit)
        have kept : ¬ ((map.table i).mode = .deleted ∧ freeslot = none) := by
          intro free
          exact HashSlot.inactive_of_deleted free.1 taken
        have used : slot.Used := HashSlot.used_of_deleted dropped
        rw [turn_on taken.used other, if_neg kept] at elsewhere ⊢
        rw [here, turn_on used (fun hit => inactive hit.1)]
        have next := freeslot_next (i := i) free'
        rw [here] at next
        exact ih free next elsewhere
      · have kept : (map.setSlot i slot).table (index &&& map.mask).toNat =
            map.table (index &&& map.mask).toNat := Function.update_of_ne place ..
        rw [kept]
        by_cases empty : (map.table (index &&& map.mask).toNat).mode = .empty
        · have unused (slot : HashSlot κ ν) (empty : slot.mode = .empty) : ¬ slot.Active :=
            fun active => active.used empty
          rw [turn_empty empty, turn_empty empty]
          have before : ¬ (map.table (freeslot.getD (index &&& map.mask).toNat)).Active := by
            cases freeslot with
            | none => exact unused _ empty
            | some f => exact free f rfl
          have after : ¬ ((map.setSlot i slot).table
              (freeslot'.getD (index &&& map.mask).toNat)).Active := by
            cases freeslot' with
            | none => exact kept ▸ unused _ empty
            | some f => exact free' f rfl
          exact congrArg Except.ok
            ((HashSlot.bound_inactive after).trans (HashSlot.bound_inactive before).symm)
        · by_cases hit : Hits map.cmp key hash (map.table (index &&& map.mask).toNat)
          · rw [turn_hit hit, turn_hit hit]
            exact congrArg (fun slot : HashSlot κ ν => Except.ok slot.bound) kept
          · rw [turn_on empty hit] at elsewhere ⊢
            have next := freeslot_next (i := (index &&& map.mask).toNat) free'
            rw [kept] at next
            rw [turn_on empty hit]
            exact ih (freeslot_next free) next elsewhere

theorem hashLookupLoop_counters {fill count : Int} :
    { map with fill := fill, count := count }.hashLookupLoop key hash turns index perturb freeslot =
      map.hashLookupLoop key hash turns index perturb freeslot := by
  induction turns generalizing index perturb freeslot with
  | zero => rfl
  | succ turns ih =>
      rw [hashLookupLoop_succ map]
      change turn map.cmp key hash _ _ freeslot _ = _
      exact congrArg (turn map.cmp key hash _ _ freeslot) (funext fun _ => ih)

end Turn

theorem binding_fillSlot (value : ν) (ended : map.hashLookup key (map.hfunc key) = .ok i)
    (free : ¬ (map.table i).Active) : map.binding key = .ok none ∧
      (map.fillSlot i key value (map.hfunc key)).binding key = .ok (some value) := by
  constructor
  · rw [binding, ended]
    exact congrArg Except.ok (HashSlot.bound_inactive free)
  · have again := hashLookupLoop_filled ⟨key, value, map.hfunc key, .active⟩ ended free
      rfl rfl
    have found : (map.fillSlot i key value (map.hfunc key)).hashLookup key (map.hfunc key) =
        .ok i := hashLookupLoop_counters.trans again
    have here : (map.fillSlot i key value (map.hfunc key)).table i =
        ⟨key, value, map.hfunc key, .active⟩ := Function.update_self ..
    change (map.fillSlot i key value (map.hfunc key)).shown
      ((map.fillSlot i key value (map.hfunc key)).hashLookup key (map.hfunc key)) = _
    rw [found]
    change Except.ok ((map.fillSlot i key value (map.hfunc key)).table i).bound = _
    rw [here]
    rfl

variable [Inhabited κ] [Inhabited ν]

/-- Every key that is found in slot `i` is found again behind it, with the same value. -/
def Doubled (map : HashTable κ ν) (i : Nat) : Prop :=
  ∀ key, map.hashLookup key (map.hfunc key) = .ok i →
    ∃ j, (map.dropSlot i).hashLookup key (map.hfunc key) = .ok j ∧ j ≠ i ∧
      (map.table j).Active ∧ (map.table j).value = (map.table i).value

theorem sameMapping_dropSlot (taken : (map.table i).Active) :
    map.SameMapping (map.dropSlot i) ↔ map.Doubled i := by
  have here : (map.dropSlot i).table i = .cleared .deleted := Function.update_self ..
  have inactive : ¬ ((map.dropSlot i).table i).Active := by
    rw [here]
    exact HashSlot.inactive_of_deleted rfl
  have there {j : Nat} (apart : j ≠ i) : (map.dropSlot i).table j = map.table j :=
    Function.update_of_ne apart ..
  rw [sameMapping_iff]
  constructor
  · intro same key ended
    have kept := same key
    change (map.dropSlot i).shown ((map.dropSlot i).hashLookup key (map.hfunc key)) = _ at kept
    rw [binding, ended] at kept
    change _ = Except.ok (map.table i).bound at kept
    rw [HashSlot.bound_active taken] at kept
    rcases again : (map.dropSlot i).hashLookup key (map.hfunc key) with fault | j
    · rw [again] at kept
      cases kept
    · rw [again] at kept
      have value : ((map.dropSlot i).table j).bound = some (map.table i).value := Except.ok.inj kept
      have active : ((map.dropSlot i).table j).Active := by
        by_contra free
        rw [HashSlot.bound_inactive free] at value
        cases value
      have apart : j ≠ i := by
        rintro rfl
        exact inactive active
      rw [HashSlot.bound_active active, Option.some.injEq] at value
      rw [there apart] at active value
      exact ⟨j, rfl, apart, active, value⟩
  · intro doubled key
    change (map.dropSlot i).shown ((map.dropSlot i).hashLookup key (map.hfunc key)) = _
    by_cases ended : map.hashLookup key (map.hfunc key) = .ok i
    · obtain ⟨j, again, apart, active, value⟩ := doubled key ended
      rw [again, binding, ended]
      change Except.ok ((map.dropSlot i).table j).bound = Except.ok (map.table i).bound
      rw [there apart, HashSlot.bound_active active, HashSlot.bound_active taken, value]
    · have search : (map.dropSlot i).hashLookup key (map.hfunc key) =
          (map.setSlot i (.cleared .deleted)).hashLookupLoop key (map.hfunc key)
            (map.mask.toNat + 8) (map.hfunc key &&& map.mask) (map.hfunc key) none :=
        hashLookupLoop_counters
      rw [search]
      exact hashLookupLoop_dropped rfl taken nofun nofun ended

/-- `hash_update` needs another block for a table with these counters and does not get it, or
cannot count its slots. -/
def ResizeFails (size fill count : Int) (granted : Bool) : Prop :=
  if 2 * size ≤ 3 * fill then
    toSigned (size * 2) < size ∨
      memAllocs granted (toUnsigned (toSigned (size * 2) * sizeofHashSlot)) = false
  else HASH_MINSIZE < size ∧ 4 * count ≤ size ∧
    memAllocs granted (toUnsigned (size / 2 * sizeofHashSlot)) = false

theorem resize_failed_iff (newSize : Int) : map.resize newSize granted = .ok (map', -1) ↔
    map' = map ∧ memAllocs granted (toUnsigned (newSize * sizeofHashSlot)) = false := by
  rw [resize, hashInitialize]
  by_cases allocated : memAllocs granted (toUnsigned (newSize * sizeofHashSlot)) = true
  · rw [if_pos allocated, allocated]
    dsimp only
    constructor
    · intro failed
      generalize hashCopy map.table _ (List.range map.size.toNat) = copied at failed
      rcases copied with fault | new
      · cases failed
      · have status : (0 : Int) = -1 := congrArg Prod.snd (Except.ok.inj failed)
        exact absurd status (by decide)
    · rintro ⟨-, refused⟩
      cases refused
  · rw [if_neg allocated]
    have refused := Bool.eq_false_iff.mpr allocated
    constructor
    · intro failed
      exact ⟨(congrArg Prod.fst (Except.ok.inj failed)).symm, refused⟩
    · rintro ⟨rfl, -⟩
      rfl

theorem hashUpdate_failed_iff : map.hashUpdate granted = .ok (map', -1) ↔
    map' = map ∧ ResizeFails map.size map.fill map.count granted := by
  rw [hashUpdate, ResizeFails]
  dsimp only
  by_cases full : 2 * map.size ≤ 3 * map.fill
  · rw [if_pos full, if_pos full]
    by_cases overflows : toSigned (map.size * 2) < map.size
    · rw [if_pos overflows]
      constructor
      · intro failed
        exact ⟨(congrArg Prod.fst (Except.ok.inj failed)).symm, .inl overflows⟩
      · rintro ⟨rfl, -⟩
        rfl
    · rw [if_neg overflows, resize_failed_iff]
      exact and_congr_right fun _ => (or_iff_right overflows).symm
  · rw [if_neg full, if_neg full]
    by_cases sparse : HASH_MINSIZE < map.size ∧ 4 * map.count ≤ map.size
    · rw [if_pos sparse, resize_failed_iff]
      exact and_congr_right fun _ => ⟨fun refused => ⟨sparse.1, sparse.2, refused⟩, fun all => all.2.2⟩
    · rw [if_neg sparse]
      constructor
      · intro failed
        have status : (0 : Int) = -1 := congrArg Prod.snd (Except.ok.inj failed)
        exact absurd status (by decide)
      · rintro ⟨-, large, few, -⟩
        exact absurd ⟨large, few⟩ sparse

/-- When it fails, the call leaves the mapping as it was. -/
def Atomic (map : HashTable κ ν) (c : HashCall κ ν) : Prop :=
  ∀ map', map.call c = .ok (map', .status (-1)) → map.SameMapping map'

/-- No call fails after it has changed the mapping: the table need not be moved once the key has
been put into a free slot, or deleted, or another block is granted. -/
def Spares (map : HashTable κ ν) : HashCall κ ν → Prop
  | .set key _ granted => ∀ i, map.hashLookup key (map.hfunc key) = .ok i →
      ¬ (map.table i).Active → ¬ ResizeFails map.size
        (if (map.table i).mode = .empty then map.fill + 1 else map.fill) (map.count + 1) granted
  | .del key granted => ∀ i, map.hashLookup key (map.hfunc key) = .ok i → (map.table i).Active →
      ResizeFails map.size map.fill (map.count - 1) granted → map.Doubled i
  | .get .. | .isset .. => True

theorem call_set_failed_iff : map.call (.set key value granted) = .ok (map', .status (-1)) ↔
    map.hashSet key value granted = .ok (map', -1) := by
  rw [call]
  rcases map.hashSet key value granted with fault | ⟨new, status⟩
  · constructor
    · intro failed
      cases failed
    · intro failed
      cases failed
  · constructor
    · intro failed
      cases failed
      rfl
    · intro failed
      cases failed
      rfl

theorem call_del_failed_iff : map.call (.del key granted) = .ok (map', .status (-1)) ↔
    map.hashDel key granted = .ok (map', -1) := by
  rw [call]
  rcases map.hashDel key granted with fault | ⟨new, status⟩
  · constructor
    · intro failed
      cases failed
    · intro failed
      cases failed
  · constructor
    · intro failed
      cases failed
      rfl
    · intro failed
      cases failed
      rfl

theorem hashSet_atomic_iff :
    map.Atomic (.set key value granted) ↔ map.Spares (.set key value granted) := by
  constructor
  · intro atomic i ended free fails
    obtain ⟨run, -⟩ := hashSet_eq value granted ended
    rw [if_neg free] at run
    have failed : map.hashSet key value granted =
        .ok (map.fillSlot i key value (map.hfunc key), -1) := by
      rw [run]
      exact hashUpdate_failed_iff.mpr ⟨rfl, fails⟩
    have same := sameMapping_iff.mp (atomic _ (call_set_failed_iff.mpr failed)) key
    obtain ⟨before, after⟩ := binding_fillSlot value ended free
    rw [before, after] at same
    cases same
  · intro spares map' failed
    rw [call_set_failed_iff] at failed
    rcases ended : map.hashLookup key (map.hfunc key) with fault | i
    · rw [hashSet] at failed
      dsimp only at failed
      rw [ended] at failed
      cases failed
    · obtain ⟨run, -⟩ := hashSet_eq value granted ended
      rw [run] at failed
      by_cases active : (map.table i).Active
      · rw [if_pos active] at failed
        have status : (0 : Int) = -1 := congrArg Prod.snd (Except.ok.inj failed)
        exact absurd status (by decide)
      · rw [if_neg active] at failed
        obtain ⟨-, fails⟩ := hashUpdate_failed_iff.mp failed
        exact absurd fails (spares i ended active)

theorem hashDel_atomic_iff : map.Atomic (.del key granted) ↔ map.Spares (.del key granted) := by
  constructor
  · intro atomic i ended taken fails
    obtain ⟨run, -⟩ := hashDel_eq granted ended
    rw [if_pos taken] at run
    have failed : map.hashDel key granted = .ok (map.dropSlot i, -1) := by
      rw [run]
      exact hashUpdate_failed_iff.mpr ⟨rfl, fails⟩
    exact (sameMapping_dropSlot taken).mp (atomic _ (call_del_failed_iff.mpr failed))
  · intro spares map' failed
    rw [call_del_failed_iff] at failed
    rcases ended : map.hashLookup key (map.hfunc key) with fault | i
    · rw [hashDel, ended] at failed
      cases failed
    · obtain ⟨run, -⟩ := hashDel_eq granted ended
      rw [run] at failed
      by_cases taken : (map.table i).Active
      · rw [if_pos taken] at failed
        obtain ⟨rfl, fails⟩ := hashUpdate_failed_iff.mp failed
        exact (sameMapping_dropSlot taken).mpr (spares i ended taken fails)
      · rw [if_neg taken] at failed
        have status : (0 : Int) = -1 := congrArg Prod.snd (Except.ok.inj failed)
        exact absurd status (by decide)

omit [Inhabited κ] [Inhabited ν] in
theorem hashLookup_active {cmp : κ → κ → Bool} {k : Nat}
    (ended : map.hashLookup key hash = .ok i) (active : (map.table i).Active)
    (refl : ∀ key, cmp key key = true) (same : map.cmp = cmp)
    (sized : map.mask.toNat + 1 = 2 ^ k) :
    i < 2 ^ k ∧ cmp (map.table i).key key = true := by
  have found : map.Found key hash i := hashLookupLoop_found (t := 0)
    (fun u before => absurd before (Nat.not_lt_zero u)) (fun f same => by cases same) ended
  cases found with
  | hit here matched =>
      refine ⟨here ▸ slotAt_lt sized, ?_⟩
      obtain ⟨-, equal | ⟨-, equal⟩⟩ := matched
      · rw [equal]
        exact refl key
      · rw [← same]
        exact equal
  | miss here before passed stop unused => exact absurd active unused

theorem Sound.not_doubled {hfunc : κ → BitVec 32} {cmp : κ → κ → Bool} {k : Nat}
    (sound : map.Sound hfunc cmp k) (compares : Bindings.Compares cmp)
    (ended : map.hashLookup key (map.hfunc key) = .ok i) (taken : (map.table i).Active) :
    ¬ map.Doubled i := by
  intro doubled
  obtain ⟨j, again, apart, active, -⟩ := doubled key ended
  have there : (map.dropSlot i).table j = map.table j := Function.update_of_ne apart ..
  obtain ⟨inside, equal⟩ :=
    hashLookup_active ended taken compares.refl sound.compares sound.sized
  obtain ⟨inside', equal'⟩ :=
    hashLookup_active again (there ▸ active) compares.refl sound.compares sound.sized
  rw [there] at equal'
  exact apart (sound.distinct j inside' i inside active taken
    (compares.trans equal' (compares.symm equal)))

/-- A failing call leaves the mapping as it was exactly when it has not got as far as a change. -/
theorem failed_update_atomic_iff (map : HashTable κ ν) (c : HashCall κ ν) :
    map.Atomic c ↔ map.Spares c := by
  cases c with
  | set key value granted => exact hashSet_atomic_iff
  | del key granted => exact hashDel_atomic_iff
  | get key defaultValue =>
      refine ⟨fun _ => trivial, fun _ map' failed => ?_⟩
      rw [call] at failed
      rcases result : map.hashGet key defaultValue with fault | value
      · rw [result] at failed
        cases failed
      · rw [result] at failed
        cases failed
  | isset key =>
      refine ⟨fun _ => trivial, fun _ map' failed => ?_⟩
      rw [call] at failed
      rcases result : map.hashIsset key with fault | found
      · rw [result] at failed
        cases failed
      · rw [result] at failed
        cases failed

def fiveKeys : HashTable Nat Nat where
  fill := 5
  count := 5
  mask := 7
  table := fun i => if i < 5 then ⟨i, 0, .ofNat 32 i, .active⟩ else .cleared .empty
  hfunc := .ofNat 32
  cmp := fun a b => a == b

/-- The sixth key is set although there is no memory for a larger table. -/
theorem failed_set_stays : ¬ ∀ (map : HashTable Nat Nat) (c : HashCall Nat Nat) (map' : HashTable Nat Nat),
    map.call c = .ok (map', .status (-1)) → map.SameMapping map' := by
  intro atomic
  have failed : fiveKeys.hashSet 5 1 false =
      .ok (fiveKeys.fillSlot 5 5 1 (.ofNat 32 5), -1) := rfl
  have same := atomic fiveKeys (.set 5 1 false) _ (call_set_failed_iff.mpr failed) 5
  have before : fiveKeys.hashIsset 5 = .ok false := rfl
  have after : (fiveKeys.fillSlot 5 5 1 (.ofNat 32 5)).hashIsset 5 = .ok true := rfl
  rw [before, after] at same
  cases same.1

end HashTable

end IntelX86Kernel

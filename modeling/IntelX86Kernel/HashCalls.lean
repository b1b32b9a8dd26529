import IntelX86Kernel.HashMap

/-! Every run of calls on a hash table answers as a finite map does. -/

namespace IntelX86Kernel

open Tally Transition

variable {κ ν : Type} {hfunc : κ → BitVec 32} {cmp : κ → κ → Bool} {map map' : HashTable κ ν}
  {m : Bindings κ ν cmp} {key other : κ} {value found : ν} {i k : Nat} {slot : HashSlot κ ν}
  {granted : Bool}

namespace HashTable

def Only (map : HashTable κ ν) (key : κ) (i : Nat) : Prop :=
  ∀ j < map.mask.toNat + 1, (map.table j).Active → (map.cmp (map.table j).key key = true ↔ j = i)

theorem binds_replace {fill count : Int} (compares : Bindings.Compares map.cmp)
    (inside : i < map.mask.toNat + 1) (only : map.Only key i)
    (own : slot.Active → map.cmp slot.key key = true) :
    Binds { map.setSlot i slot with fill := fill, count := count } other value ↔
      if map.cmp key other = true then slot.Active ∧ slot.value = value
      else map.Binds other value := by
  rw [binds_write inside]
  split
  · next equal =>
    constructor
    · rintro (⟨active, -, same⟩ | ⟨j, below, apart, active, again, -⟩)
      · exact ⟨active, same⟩
      · exact absurd ((only j below active).mp (compares.trans again (compares.symm equal))) apart
    · rintro ⟨active, same⟩
      exact .inl ⟨active, compares.trans (own active) equal, same⟩
  · next different =>
    constructor
    · rintro (⟨active, again, -⟩ | ⟨j, below, -, bound⟩)
      · exact absurd (compares.trans (compares.symm (own active)) again) different
      · exact ⟨j, below, bound⟩
    · rintro ⟨j, below, active, again, same⟩
      refine .inr ⟨j, below, fun here => ?_, active, again, same⟩
      have equal := (only j below active).mpr here
      exact different (compares.trans (compares.symm equal) again)

structure Stores (hfunc : κ → BitVec 32) (map : HashTable κ ν) (m : Bindings κ ν cmp) :
    Prop where
  sound : ∃ k, map.Sound hfunc cmp k ∧ 3 * map.fill < 2 * 2 ^ k
  count : map.count = m.size
  binds : ∀ key value, map.Binds key value ↔ m.get key = some value

variable [DecidableEq κ]

theorem Stores.lookup (stores : map.Stores hfunc m) (compares : Bindings.Compares cmp)
    (agrees : Agrees hfunc cmp) (sound : map.Sound hfunc cmp k) (room : 3 * map.fill < 2 * 2 ^ k)
    (key : κ) :
    ∃ i < 2 ^ k, map.hashLookup key (map.hfunc key) = .ok i ∧ map.Only key i ∧
      map.Reaches (hfunc key) i ∧
      (((map.table i).Active ∧ cmp (map.table i).key key = true ∧
          m.get key = some (map.table i).value) ∨
        (¬ (map.table i).Active ∧ m.get key = none)) := by
  have positive : (0 : Int) < 2 ^ k := by exact_mod_cast Nat.two_pow_pos k
  obtain ⟨i, inside, ended, found⟩ := sound.lookup (by omega) key (hfunc key)
  rw [← sound.hashes] at ended
  refine ⟨i, inside, ended, ?_⟩
  rcases sound.found compares agrees found with ⟨active, equal⟩ | ⟨free, reaches, absent⟩
  · have hash : (map.table i).hash = hfunc key := by
      rw [sound.hashed i inside active]
      exact agrees _ _ equal
    refine ⟨fun j below active' => ⟨fun again => ?_, fun here => ?_⟩, ?_, .inl ⟨active, equal, ?_⟩⟩
    · rw [sound.compares] at again
      exact sound.distinct j (sound.sized ▸ below) i inside active' active
        (compares.trans again (compares.symm equal))
    · rw [sound.compares, here]
      exact equal
    · exact hash ▸ sound.reached i inside active
    · refine (stores.binds key _).mp ⟨i, ?_, active, ?_, rfl⟩
      · rw [sound.sized]
        exact inside
      · rw [sound.compares]
        exact equal
  · refine ⟨fun j below active => ⟨fun again => ?_, fun here => ?_⟩, reaches, .inr ⟨free, ?_⟩⟩
    · rw [sound.compares, absent j (sound.sized ▸ below) active] at again
      cases again
    · exact absurd (here ▸ active) free
    · rw [Option.eq_none_iff_forall_ne_some]
      intro value bound
      obtain ⟨j, below, active, again, -⟩ := (stores.binds key value).mpr bound
      rw [sound.compares, absent j (sound.sized ▸ below) active] at again
      cases again

omit [DecidableEq κ] in
theorem roomy_iff (sound : map.Sound hfunc cmp k) : 32 * map.size < 2 ^ 32 ↔ k < 27 := by
  rw [sound.size]
  constructor
  · intro roomy
    by_contra large
    have power : (2 : Int) ^ 27 ≤ 2 ^ k := by
      exact_mod_cast Nat.pow_le_pow_right (by decide : 0 < 2) (Nat.le_of_not_lt large)
    omega
  · intro less
    have power : (2 : Int) ^ k ≤ 2 ^ 26 := by
      exact_mod_cast Nat.pow_le_pow_right (by decide : 0 < 2) (Nat.le_of_lt_succ less)
    omega

omit [DecidableEq κ] in
theorem Sound.setValue (sound : map.Sound hfunc cmp k) (compares : Bindings.Compares cmp)
    (inside : i < 2 ^ k) (active : (map.table i).Active) (value : ν) :
    (map.setSlot i { map.table i with value := value }).Sound hfunc cmp k := by
  have still : HashSlot.Active { map.table i with value := value } := active
  apply sound.write { map.table i with value := value } map.fill map.count inside active.used compares
  · refine fun _ => ⟨sound.hashed i inside active, sound.reached i inside active, ?_⟩
    intro j less apart active'
    rw [← Bool.not_eq_true]
    exact fun again => apart (sound.distinct j less i inside active' active again)
  · rw [if_pos active.used]
  · rw [if_pos active, if_pos still]

omit [DecidableEq κ] in
theorem Sound.dropSlot [Inhabited κ] [Inhabited ν] (sound : map.Sound hfunc cmp k)
    (compares : Bindings.Compares cmp) (inside : i < 2 ^ k) (active : (map.table i).Active) :
    (map.dropSlot i).Sound hfunc cmp k := by
  have inactive : ¬ HashSlot.Active (.cleared .deleted : HashSlot κ ν) := nofun
  apply sound.write (.cleared .deleted) map.fill (map.count - 1) inside nofun compares
  · exact fun active => absurd active inactive
  · rw [if_pos active.used]
  · rw [if_pos active, if_neg inactive]
    omega

omit [DecidableEq κ] in
theorem Sound.fillSlot (sound : map.Sound hfunc cmp k) (compares : Bindings.Compares cmp)
    (inside : i < 2 ^ k) (free : ¬ (map.table i).Active) (reaches : map.Reaches (hfunc key) i)
    (absent : ∀ j < 2 ^ k, j ≠ i → (map.table j).Active → cmp (map.table j).key key = false) :
    (map.fillSlot i key value (map.hfunc key)).Sound hfunc cmp k := by
  have active : HashSlot.Active ⟨key, value, map.hfunc key, .active⟩ := rfl
  apply sound.write ⟨key, value, map.hfunc key, .active⟩
    (if (map.table i).mode = SlotMode.empty then map.fill + 1 else map.fill) (map.count + 1) inside
    active.used compares
  · intro _
    exact ⟨by rw [sound.hashes], by rw [sound.hashes]; exact reaches, absent⟩
  · by_cases empty : (map.table i).mode = .empty
    · have unused : ¬ (map.table i).Used := fun used => used empty
      rw [if_pos empty, if_neg unused, Int.add_zero]
    · have used : (map.table i).Used := empty
      rw [if_neg empty, if_pos used]
  · rw [if_neg free, if_pos active, Int.add_zero]

variable [Inhabited κ] [Inhabited ν]

def handed (map : HashTable κ ν) : HashCall κ ν → Option (HashTable κ ν)
  | .set key value _ =>
      match map.hashLookup key (map.hfunc key) with
      | .ok i =>
          if (map.table i).mode = .active then none
          else some (map.fillSlot i key value (map.hfunc key))
      | .error _ => none
  | .del key _ =>
      match map.hashLookup key (map.hfunc key) with
      | .ok i => if (map.table i).mode = .active then some (map.dropSlot i) else none
      | .error _ => none
  | .get .. | .isset .. => none

theorem hashSet_eq (value : ν) (granted : Bool)
    (ended : map.hashLookup key (map.hfunc key) = .ok i) :
    map.hashSet key value granted =
        (if (map.table i).Active then .ok (map.setSlot i { map.table i with value := value }, 0)
        else (map.fillSlot i key value (map.hfunc key)).hashUpdate granted) ∧
      map.handed (.set key value granted) =
        if (map.table i).Active then none else some (map.fillSlot i key value (map.hfunc key)) := by
  rw [HashTable.hashSet, handed]
  dsimp only
  rw [ended]
  exact ⟨rfl, rfl⟩

theorem hashDel_eq (granted : Bool) (ended : map.hashLookup key (map.hfunc key) = .ok i) :
    map.hashDel key granted =
        (if (map.table i).Active then (map.dropSlot i).hashUpdate granted else .ok (map, 0)) ∧
      map.handed (.del key granted) =
        if (map.table i).Active then some (map.dropSlot i) else none := by
  rw [HashTable.hashDel, handed, ended]
  exact ⟨ite_not (p := (map.table i).Active) _ _, rfl⟩

/-- What `hash_set` and `hash_del` leave, unless memory is wanting. -/
def Updated (hfunc : κ → BitVec 32) (map : HashTable κ ν) (c : HashCall κ ν) (granted : Bool)
    (m : Bindings κ ν cmp) (result : Except Fault (HashTable κ ν × Int)) : Prop :=
  (∃ map', result = .ok (map', -1) ∧ ¬ (granted = true ∧ 32 * map.size < 2 ^ 32)) ∨
    ∃ map', result = .ok (map', 0) ∧ map'.Stores hfunc m ∧ ∀ mid, map.handed c = some mid →
      mid.hashUpdate granted = .ok (map', 0) ∧ ∀ key value, map'.Binds key value ↔ mid.Binds key value

theorem Sound.updated {mid : HashTable κ ν} {c : HashCall κ ν}
    (sound : mid.Sound hfunc cmp k) (compares : Bindings.Compares cmp)
    (agrees : Agrees hfunc cmp) (size : mid.size = map.size) (handed : map.handed c = some mid)
    (count : mid.count = m.size)
    (binds : ∀ key value, mid.Binds key value ↔ m.get key = some value) :
    Updated hfunc map c granted m (mid.hashUpdate granted) := by
  rcases sound.hashUpdate granted compares agrees with ⟨failed, wanting⟩ |
    ⟨map', done, k', sound', room, same, kept⟩
  · rw [← roomy_iff sound, size] at wanting
    exact .inl ⟨mid, failed, wanting⟩
  · refine .inr ⟨map', done, ⟨⟨k', sound', room⟩, same.trans count, fun key value => ?_⟩,
      fun mid' handed' => ?_⟩
    · rw [kept, binds]
    · rw [handed, Option.some.injEq] at handed'
      subst handed'
      exact ⟨done, kept⟩

/-- `hash_set` of a key that is not there, in a table that may be full. When it fails it has
stored the binding all the same. -/
theorem Sound.hashSet (sound : map.Sound hfunc cmp k) (compares : Bindings.Compares cmp)
    (agrees : Agrees hfunc cmp) (value : ν) (granted : Bool)
    (ended : map.hashLookup key (map.hfunc key) = .ok i) (free : ¬ (map.table i).Active) :
    ∃ map' status k', map.hashSet key value granted = .ok (map', status) ∧
      map'.Sound hfunc cmp k' ∧ map'.Binds key value ∧
      (status ≠ -1 → 3 * map'.fill < 2 * 2 ^ k') := by
  obtain ⟨run, -⟩ := hashSet_eq value granted ended
  rw [if_neg free] at run
  rw [sound.hashes] at ended
  obtain ⟨inside, found⟩ := sound.looked ended
  rcases sound.found compares agrees found with ⟨active, -⟩ | ⟨-, reaches, absent⟩
  · exact absurd active free
  · have filled : (map.fillSlot i key value (map.hfunc key)).Sound hfunc cmp k := by
      apply sound.fillSlot compares inside free reaches
      intro j less _ active
      exact absent j less active
    have binds : (map.fillSlot i key value (map.hfunc key)).Binds key value := by
      have below : i < map.mask.toNat + 1 := by
        rw [sound.sized]
        exact inside
      apply (binds_fresh below free).mpr
      refine .inl ⟨rfl, ?_, rfl⟩
      rw [sound.compares]
      exact compares.refl key
    rcases filled.hashUpdate granted compares agrees with ⟨failed, -⟩ |
      ⟨map', done, k', sound', room, -, kept⟩
    · refine ⟨_, -1, k, run.trans failed, filled, binds, ?_⟩
      intro success
      exact absurd rfl success
    · exact ⟨map', 0, k', run.trans done, sound', (kept key value).mpr binds, fun _ => room⟩

omit [Inhabited κ] [Inhabited ν] in
theorem Sound.hashGet (sound : map.Sound hfunc cmp k) (compares : Bindings.Compares cmp)
    (agrees : Agrees hfunc cmp) (room : 3 * map.fill < 2 * 2 ^ k) (binds : map.Binds key value)
    (defaultValue : ν) : map.hashGet key defaultValue = .ok value := by
  have positive : (0 : Int) < 2 ^ k := by exact_mod_cast Nat.two_pow_pos k
  obtain ⟨i, inside, ended, found⟩ := sound.lookup (by omega) key (hfunc key)
  rw [← sound.hashes] at ended
  obtain ⟨j, below, active, equal, same⟩ := binds
  rw [sound.sized] at below
  rw [sound.compares] at equal
  rcases sound.found compares agrees found with ⟨taken, again⟩ | ⟨-, -, absent⟩
  · have here : i = j :=
      sound.distinct i inside j below taken active (compares.trans again (compares.symm equal))
    rw [HashTable.hashGet, ended]
    change (if (map.table i).Active then Except.ok _ else _) = _
    rw [if_pos taken, here, same]
  · rw [absent j below active] at equal
    cases equal

theorem Stores.hashSet (stores : map.Stores hfunc m) (key : κ) (value : ν) (granted : Bool)
    (compares : Bindings.Compares cmp) (agrees : Agrees hfunc cmp) :
    Updated hfunc map (.set key value granted) granted (m.insert compares key value)
      (map.hashSet key value granted) := by
  obtain ⟨k, sound, room⟩ := stores.sound
  obtain ⟨i, inside, ended, only, reaches, held⟩ := stores.lookup compares agrees sound room key
  have comparing : Bindings.Compares map.cmp := sound.compares ▸ compares
  have size := Bindings.size_insert compares m key value
  have below : i < map.mask.toNat + 1 := by
    rw [sound.sized]
    exact inside
  obtain ⟨run, hands⟩ := hashSet_eq value granted ended
  have bound {slot : HashSlot κ ν} {fill count : Int} (active : slot.Active)
      (own : cmp slot.key key = true) (same : slot.value = value) (other : κ) (found : ν) :
      Binds { map.setSlot i slot with fill := fill, count := count } other found ↔
        (m.insert compares key value).get other = some found := by
    rw [binds_replace comparing below only fun _ => sound.compares ▸ own, Bindings.get_insert,
      sound.compares, same]
    split
    · rw [Option.some.injEq]
      exact ⟨And.right, fun same => ⟨active, same⟩⟩
    · exact stores.binds other found
  rcases held with ⟨active, equal, held⟩ | ⟨free, absent⟩
  · rw [run, if_pos active]
    have written := sound.setValue compares inside active value
    refine .inr ⟨_, rfl, ⟨⟨k, written, room⟩, ?_, bound active equal rfl⟩, fun mid handed => ?_⟩
    · rw [held, Option.isSome_some, if_pos rfl] at size
      change map.count = _
      rw [stores.count]
      omega
    · rw [hands, if_pos active] at handed
      cases handed
  · rw [run, if_neg free]
    have active : HashSlot.Active ⟨key, value, map.hfunc key, .active⟩ := rfl
    have written : (map.fillSlot i key value (map.hfunc key)).Sound hfunc cmp k := by
      apply sound.fillSlot compares inside free reaches
      intro j less apart active
      rw [← Bool.not_eq_true]
      intro again
      rw [← sound.compares] at again
      exact apart ((only j (sound.sized ▸ less) active).mp again)
    refine written.updated compares agrees rfl ?_ ?_ (bound active (compares.refl key) rfl)
    · rw [hands, if_neg free]
    · rw [absent] at size
      change map.count + 1 = _
      rw [stores.count]
      simp at size
      omega

theorem Stores.hashDel (stores : map.Stores hfunc m) (key : κ) (granted : Bool)
    (compares : Bindings.Compares cmp) (agrees : Agrees hfunc cmp) :
    Updated hfunc map (.del key granted) granted (m.erase key) (map.hashDel key granted) := by
  obtain ⟨k, sound, room⟩ := stores.sound
  obtain ⟨i, inside, ended, only, reaches, held⟩ := stores.lookup compares agrees sound room key
  obtain ⟨run, hands⟩ := hashDel_eq granted ended
  have comparing : Bindings.Compares map.cmp := sound.compares ▸ compares
  have size := Bindings.size_erase compares m key
  have below : i < map.mask.toNat + 1 := by
    rw [sound.sized]
    exact inside
  have bound {slot : HashSlot κ ν} (fill count : Int) (inactive : ¬ slot.Active) (other : κ)
      (found : ν) : Binds { map.setSlot i slot with fill := fill, count := count } other found ↔
        (m.erase key).get other = some found := by
    rw [binds_replace comparing below only fun active => absurd active inactive,
      Bindings.get_erase compares, sound.compares]
    split
    · exact ⟨fun active => absurd active.1 inactive, nofun⟩
    · exact stores.binds other found
  rcases held with ⟨active, equal, held⟩ | ⟨free, absent⟩
  · rw [run, if_pos active]
    have inactive : ¬ HashSlot.Active (.cleared .deleted : HashSlot κ ν) := nofun
    have written := sound.dropSlot compares inside active
    refine written.updated compares agrees rfl ?_ ?_ (bound _ _ inactive)
    · rw [hands, if_pos active]
    · rw [held] at size
      change map.count - 1 = _
      rw [stores.count]
      simp at size
      omega
  · rw [run, if_neg free]
    have same : { map.setSlot i (map.table i) with fill := map.fill, count := map.count } = map := by
      rw [setSlot, Function.update_eq_self]
    refine .inr ⟨map, rfl, ⟨⟨k, sound, room⟩, ?_, fun other found => ?_⟩, fun mid handed => ?_⟩
    · rw [absent] at size
      rw [stores.count]
      simp at size
      omega
    · rw [← bound map.fill map.count free, same]
    · rw [hands, if_neg free] at handed
      cases handed

omit [Inhabited κ] [Inhabited ν] in
theorem Stores.hashGet (stores : map.Stores hfunc m) (compares : Bindings.Compares cmp)
    (agrees : Agrees hfunc cmp) (key : κ) (defaultValue : ν) :
    map.hashGet key defaultValue = .ok ((m.get key).getD defaultValue) := by
  obtain ⟨k, sound, room⟩ := stores.sound
  obtain ⟨i, -, ended, -, -, held⟩ := stores.lookup compares agrees sound room key
  rw [HashTable.hashGet, ended]
  change (if (map.table i).Active then Except.ok _ else _) = _
  rcases held with ⟨active, -, held⟩ | ⟨free, absent⟩
  · rw [held, if_pos active]
    rfl
  · rw [absent, if_neg free]
    rfl

omit [Inhabited κ] [Inhabited ν] in
theorem Stores.hashIsset (stores : map.Stores hfunc m) (compares : Bindings.Compares cmp)
    (agrees : Agrees hfunc cmp) (key : κ) :
    map.hashIsset key = .ok (m.get key).isSome := by
  obtain ⟨k, sound, room⟩ := stores.sound
  obtain ⟨i, -, ended, -, -, held⟩ := stores.lookup compares agrees sound room key
  rw [HashTable.hashIsset, ended]
  have same : decide ((map.table i).mode = .active) = (m.get key).isSome := by
    rcases held with ⟨active, -, held⟩ | ⟨free, absent⟩
    · rw [held]
      exact decide_eq_true active
    · rw [absent]
      exact decide_eq_false free
  rw [← same]
  rfl

end HashTable

namespace HashCall

def affords : HashCall κ ν → Bool
  | .set _ _ granted | .del _ granted => granted
  | .get .. | .isset .. => true

def update (compares : Bindings.Compares cmp) (m : Bindings κ ν cmp) :
    HashCall κ ν → Bindings κ ν cmp
  | .set key value _ => m.insert compares key value
  | .del key _ => m.erase key
  | .get .. | .isset .. => m

def answer (m : Bindings κ ν cmp) : HashCall κ ν → HashAnswer ν
  | .set .. | .del .. => .status 0
  | .get key defaultValue => .value ((m.get key).getD defaultValue)
  | .isset key => .isset (m.get key).isSome

end HashCall

open HashTable

variable [DecidableEq κ] [Inhabited κ] [Inhabited ν] {c : HashCall κ ν} {answer : HashAnswer ν}

/-- Every call comes to an end, and does to the table what it does to the map unless memory
is wanting. -/
theorem HashTable.Stores.call (stores : map.Stores hfunc m) (compares : Bindings.Compares cmp)
    (agrees : Agrees hfunc cmp) (c : HashCall κ ν) :
    (∃ map', map.call c = .ok (map', .status (-1)) ∧
        ¬ (c.affords = true ∧ 32 * map.size < 2 ^ 32)) ∨
      ∃ map', map.call c = .ok (map', c.answer m) ∧ map'.Stores hfunc (c.update compares m) ∧
        ∀ mid, map.handed c = some mid → mid.hashUpdate c.affords = .ok (map', 0) ∧
          ∀ key value, map'.Binds key value ↔ mid.Binds key value := by
  cases c with
  | set key value granted =>
      rw [HashTable.call]
      rcases stores.hashSet key value granted compares agrees with
        ⟨map', failed, wanting⟩ | ⟨map', done, stores', resized⟩
      · rw [failed]
        exact .inl ⟨map', rfl, wanting⟩
      · rw [done]
        exact .inr ⟨map', rfl, stores', resized⟩
  | del key granted =>
      rw [HashTable.call]
      rcases stores.hashDel key granted compares agrees with
        ⟨map', failed, wanting⟩ | ⟨map', done, stores', resized⟩
      · rw [failed]
        exact .inl ⟨map', rfl, wanting⟩
      · rw [done]
        exact .inr ⟨map', rfl, stores', resized⟩
  | get key defaultValue =>
      rw [HashTable.call, stores.hashGet compares agrees]
      exact .inr ⟨map, rfl, stores, nofun⟩
  | isset key =>
      rw [HashTable.call, stores.hashIsset compares agrees]
      exact .inr ⟨map, rfl, stores, nofun⟩

abbrev HashStep (κ ν : Type) := Occurrence (HashTable κ ν) (HashCall κ ν) (HashAnswer ν)

def bindings (compares : Bindings.Compares cmp) : List (HashStep κ ν) → Bindings κ ν cmp
  | [] => .empty
  | t :: past => t.event.update compares (bindings compares past)

def Succeeds (_ : List (HashStep κ ν)) (t : HashStep κ ν) : Prop := t.outcome ≠ .status (-1)

instance [DecidableEq ν] (past : List (HashStep κ ν)) (t : HashStep κ ν) :
    Decidable (Succeeds past t) :=
  inferInstanceAs (Decidable (_ ≠ _))

def Answers (compares : Bindings.Compares cmp) (past : List (HashStep κ ν)) (t : HashStep κ ν) :
    Prop :=
  t.outcome = t.event.answer (bindings compares past) ∧
    ∀ mid, t.before.handed t.event = some mid →
      mid.hashUpdate t.event.affords = .ok (t.after, 0) ∧
      ∀ key value, t.after.Binds key value ↔ mid.Binds key value

def Initialised (hfunc : κ → BitVec 32) (cmp : κ → κ → Bool) (map : HashTable κ ν) : Prop :=
  ∃ (blank : HashTable κ ν) (granted : Bool), blank.hashInit hfunc cmp granted = some map

omit [DecidableEq κ] in
theorem Initialised.stores (initialised : Initialised hfunc cmp map) :
    map.Stores hfunc (.empty : Bindings κ ν cmp) := by
  obtain ⟨blank, granted, made⟩ := initialised
  rw [hashInit] at made
  split at made
  · cases made
  · next new initial =>
    obtain ⟨sound, vacant⟩ := hashInitialize_eq (k := 3) (le_refl 3) (by decide) initial
    rw [Option.some.injEq] at made
    subst made
    have unused (i : Nat) : ¬ (new.table i).Used := fun used => used (vacant i)
    have sound' : Sound hfunc cmp 3 { new with hfunc := hfunc, cmp := cmp } :=
      ⟨rfl, rfl, sound.sized, sound.large, sound.small, sound.filled, sound.counted,
        fun i _ active => absurd active.used (unused i),
        fun i _ active => absurd active.used (unused i),
        fun i _ j _ active => absurd active.used (unused i)⟩
    have fill : new.fill = 0 := by
      rw [sound.filled]
      exact congrArg Nat.cast (tally_eq_zero.mpr fun i _ => unused i)
    have count : new.count = 0 := by
      rw [sound.counted]
      exact congrArg Nat.cast (tally_eq_zero.mpr fun i _ active => unused i active.used)
    refine ⟨⟨3, sound', ?_⟩, count, fun key value => ⟨?_, nofun⟩⟩
    · change 3 * new.fill < _
      rw [fill]
      decide
    · rintro ⟨i, -, active, -⟩
      exact absurd active.used (unused i)

theorem stores_of_run {history : List (HashStep κ ν)} (compares : Bindings.Compares cmp)
    (agrees : Agrees hfunc cmp) (run : Run HashTable.call (Initialised hfunc cmp) history map)
    (succeeds : Meets Succeeds history) :
    map.Stores hfunc (bindings compares history) ∧ Meets (Answers compares) history := by
  refine run.invariant (I := fun past map => map.Stores hfunc (bindings compares past) ∧
    Meets (Answers compares) past) (fun map initialised => ⟨initialised.stores, trivial⟩)
    (fun past map c answer map' run succeeds kept taken success => ?_) succeeds
  obtain ⟨stores, answers⟩ := kept
  rcases stores.call compares agrees c with ⟨failing, failed, -⟩ | ⟨next, done, stores', resized⟩
  · rw [failed] at taken
    cases taken
    exact absurd rfl success
  · rw [done] at taken
    cases taken
    exact ⟨stores', ⟨rfl, resized⟩, answers⟩

/-- A table set up by `hash_init` is a finite map in every run in which no call fails for
want of memory: the calls answer as the map does, and the next one does as well when it is
given memory and the bytes of a table of twice the size can be counted. -/
theorem hash_table_is_map {history : List (HashStep κ ν)} (compares : Bindings.Compares cmp)
    (agrees : Agrees hfunc cmp) (run : Run HashTable.call (Initialised hfunc cmp) history map)
    (succeeds : Meets Succeeds history) :
    Meets (Answers compares) history ∧
      map.count = (bindings compares history).size ∧
      map.fill = tally (fun slot : HashSlot κ ν => slot.mode = .active ∨ slot.mode = .deleted)
        map.table map.size.toNat ∧
      (∀ key value, map.Binds key value ↔ (bindings compares history).get key = some value) ∧
      ∀ c, ∃ map' answer, map.call c = .ok (map', answer) ∧
        (c.affords = true → 32 * map.size < 2 ^ 32 →
          answer = c.answer (bindings compares history)) := by
  obtain ⟨stores, answers⟩ := stores_of_run compares agrees run succeeds
  obtain ⟨k, sound, -⟩ := stores.sound
  refine ⟨answers, stores.count, ?_, stores.binds, fun c => ?_⟩
  · have slots : map.size.toNat = 2 ^ k := by
      rw [sound.size]
      exact_mod_cast Int.toNat_natCast (2 ^ k)
    rw [slots, sound.filled]
    refine congrArg Nat.cast (Nat.le_antisymm (tally_mono fun i _ used => ?_)
      (tally_mono fun i _ used => ?_))
    · rw [HashSlot.Used] at used
      cases mode : (map.table i).mode with
      | empty => exact absurd mode used
      | active => exact .inl rfl
      | deleted => exact .inr rfl
    · rcases used with mode | mode <;> rw [HashSlot.Used, mode] <;> nofun
  · rcases stores.call compares agrees c with ⟨map', failed, wanting⟩ | ⟨map', done, -⟩
    · exact ⟨map', _, failed, fun affords roomy => absurd ⟨affords, roomy⟩ wanting⟩
    · exact ⟨map', _, done, fun _ _ => rfl⟩

/-- Keys with the same last digit are the same key, and six of them make the table grow. -/
theorem hash_table_is_map_digits : ∃ (history : List (HashStep Nat Nat)) (map : HashTable Nat Nat),
    history.length = 10 ∧ map.size = 16 ∧ map.count = 5 ∧
      map.fill = tally (fun slot : HashSlot Nat Nat => slot.mode = .active ∨ slot.mode = .deleted)
        map.table 16 := by
  let digit (a b : Nat) : Bool := a % 10 == b % 10
  have compares : Bindings.Compares digit := by
    constructor
    · exact fun a => beq_self_eq_true _
    · exact fun equal => beq_iff_eq.mpr (beq_iff_eq.mp equal).symm
    · exact fun first second => beq_iff_eq.mpr ((beq_iff_eq.mp first).trans (beq_iff_eq.mp second))
  let hash (key : Nat) : BitVec 32 := BitVec.ofNat 32 (key % 10 % 3)
  have agrees : Agrees hash digit := by
    intro a b equal
    change BitVec.ofNat 32 (a % 10 % 3) = BitVec.ofNat 32 (b % 10 % 3)
    rw [beq_iff_eq.mp equal]
  let blank : HashTable Nat Nat := ⟨0, 0, 7, fun _ => .cleared .empty, hash, digit⟩
  have initialised : Initialised hash digit blank := ⟨blank, true, rfl⟩
  obtain ⟨history, map, run, checked⟩ := reaches_run HashTable.call initialised
    [.set 0 1 true, .set 3 1 true, .set 13 2 true, .set 6 1 true, .set 9 1 true,
      .set 1 1 true, .set 4 1 true, .get 23 0, .del 10 true, .isset 0]
    (fun history map => decide (history.length = 10) && decide (map.size = 16) &&
      decide (map.count = 5) && decide (Meets Succeeds history))
    (by decide +kernel)
  simp only [Bool.and_eq_true, decide_eq_true_eq] at checked
  obtain ⟨⟨⟨length, size⟩, count⟩, succeeds⟩ := checked
  have filled := (hash_table_is_map compares agrees run succeeds).2.2.1
  rw [size] at filled
  exact ⟨history, map, length, size, count, filled⟩

end IntelX86Kernel

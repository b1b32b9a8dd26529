import IntelX86Kernel.State

/-! The hash table of kernel/hash.c. -/

namespace IntelX86Kernel

def HASH_MINSIZE : Int := 8
def sizeofHashSlot : Int := 16

inductive SlotMode where
  | empty | active | deleted
  deriving DecidableEq, Repr

structure HashSlot (κ ν : Type) where
  key : κ
  value : ν
  hash : BitVec 32
  mode : SlotMode

/-- The null pointers of an empty slot are the default key and value. -/
def HashSlot.cleared {κ ν : Type} [Inhabited κ] [Inhabited ν] (mode : SlotMode) :
    HashSlot κ ν where
  key := default
  value := default
  hash := 0
  mode := mode

/-- `table` is read and written up to `mask`. -/
structure HashTable (κ ν : Type) where
  fill : Int
  count : Int
  mask : BitVec 32
  table : Nat → HashSlot κ ν
  hfunc : κ → BitVec 32
  cmp : κ → κ → Bool

def memAllocs (granted : Bool) (length : Nat) : Bool :=
  (Kernel.booting.memAlloc granted length).isSome

namespace HashTable

variable {κ ν : Type} [DecidableEq κ] [Inhabited κ] [Inhabited ν] (map : HashTable κ ν)

def size : Int := (map.mask + 1).toInt

def setSlot (i : Nat) (slot : HashSlot κ ν) : HashTable κ ν :=
  { map with table := Function.update map.table i slot }

/-- `hash_initialize`, or nothing when the allocation fails. -/
def hashInitialize (size : Int) (granted : Bool) : Option (HashTable κ ν) :=
  if memAllocs granted (toUnsigned (size * sizeofHashSlot)) = true then
    some { map with
      fill := 0
      count := 0
      mask := BitVec.ofInt 32 (size - 1)
      table := fun _ => .cleared .empty }
  else none

/-- The loop of `hash_lookup`, which gives the index of the slot. -/
def hashLookupLoop (key : κ) (hash : BitVec 32) :
    Nat → BitVec 32 → BitVec 32 → Option Nat → Except Fault Nat
  | 0, _, _, _ => .error .hang
  | turns + 1, index, perturb, freeslot =>
      let i := (index &&& map.mask).toNat
      let slot := map.table i
      if slot.mode = .empty then .ok (freeslot.getD i)
      else if slot.mode = .active ∧
          (slot.key = key ∨ (slot.hash = hash ∧ map.cmp slot.key key = true)) then .ok i
      else
        let freeslot := if slot.mode = .deleted ∧ freeslot = none then some i else freeslot
        hashLookupLoop key hash turns (5 * index + perturb + 1) (perturb >>> 5) freeslot

/-- A search that has turned as often as there are slots, once `perturb` is zero, is bound
to go round for ever. -/
def hashLookup (key : κ) (hash : BitVec 32) : Except Fault Nat :=
  map.hashLookupLoop key hash (map.mask.toNat + 8) (hash &&& map.mask) hash none

def hashCopy (oldtable : Nat → HashSlot κ ν) (map : HashTable κ ν) :
    List Nat → Except Fault (HashTable κ ν)
  | [] => .ok map
  | i :: rest => do
      let old := oldtable i
      if old.mode ≠ .active then hashCopy oldtable map rest
      else
        let new ← map.hashLookup old.key (map.hfunc old.key)
        let map := map.setSlot new { old with mode := .active }
        hashCopy oldtable { map with fill := map.fill + 1, count := map.count + 1 } rest

def resize (newSize : Int) (granted : Bool) : Except Fault (HashTable κ ν × Int) :=
  match map.hashInitialize newSize granted with
  | none => .ok (map, -1)
  | some new => do
      let new ← hashCopy map.table new (List.range map.size.toNat)
      .ok (new, 0)

def hashUpdate (granted : Bool) : Except Fault (HashTable κ ν × Int) :=
  let oldSize := map.size
  if 2 * oldSize ≤ 3 * map.fill then
    let newSize := toSigned (oldSize * 2)
    if newSize < oldSize then .ok (map, -1) else map.resize newSize granted
  else if HASH_MINSIZE < oldSize ∧ 4 * map.count ≤ oldSize then
    map.resize (oldSize / 2) granted
  else .ok (map, 0)

def hashInit (hfunc : κ → BitVec 32) (cmp : κ → κ → Bool) (granted : Bool) :
    Option (HashTable κ ν) :=
  match map.hashInitialize HASH_MINSIZE granted with
  | none => none
  | some new => some { new with hfunc := hfunc, cmp := cmp }

def hashIsset (key : κ) : Except Fault Bool := do
  let i ← map.hashLookup key (map.hfunc key)
  .ok (decide ((map.table i).mode = .active))

def hashGet (key : κ) (defaultValue : ν) : Except Fault ν := do
  let i ← map.hashLookup key (map.hfunc key)
  if (map.table i).mode = .active then .ok (map.table i).value else .ok defaultValue

def fillSlot (i : Nat) (key : κ) (value : ν) (hash : BitVec 32) : HashTable κ ν :=
  let map := { map with
    count := map.count + 1
    fill := if (map.table i).mode = SlotMode.empty then map.fill + 1 else map.fill }
  map.setSlot i ⟨key, value, hash, .active⟩

/-- The slot that `hash_del` marks as deleted. -/
def dropSlot (i : Nat) : HashTable κ ν :=
  let map := map.setSlot i (.cleared .deleted)
  { map with count := map.count - 1 }

def hashSet (key : κ) (value : ν) (granted : Bool) : Except Fault (HashTable κ ν × Int) := do
  let hash := map.hfunc key
  let i ← map.hashLookup key hash
  let slot := map.table i
  if slot.mode = .active then .ok (map.setSlot i { slot with value := value }, 0)
  else (map.fillSlot i key value hash).hashUpdate granted

def hashDel (key : κ) (granted : Bool) : Except Fault (HashTable κ ν × Int) := do
  let i ← map.hashLookup key (map.hfunc key)
  if (map.table i).mode ≠ .active then .ok (map, 0)
  else (map.dropSlot i).hashUpdate granted

end HashTable

/-- The calls on a table that is not null. `granted` is the answer of the allocator, should
the table be moved to another block. -/
inductive HashCall (κ ν : Type) where
  | set (key : κ) (value : ν) (granted : Bool)
  | del (key : κ) (granted : Bool)
  | get (key : κ) (defaultValue : ν)
  | isset (key : κ)

inductive HashAnswer (ν : Type) where
  | status (value : Int)
  | value (value : ν)
  | isset (found : Bool)
  deriving DecidableEq

def HashTable.call {κ ν : Type} [DecidableEq κ] [Inhabited κ] [Inhabited ν]
    (map : HashTable κ ν) : HashCall κ ν → Except Fault (HashTable κ ν × HashAnswer ν)
  | .set key value granted => do
      let (map, status) ← map.hashSet key value granted
      .ok (map, .status status)
  | .del key granted => do
      let (map, status) ← map.hashDel key granted
      .ok (map, .status status)
  | .get key defaultValue => do
      let value ← map.hashGet key defaultValue
      .ok (map, .value value)
  | .isset key => do
      let found ← map.hashIsset key
      .ok (map, .isset found)

end IntelX86Kernel

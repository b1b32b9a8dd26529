import IntelX86Kernel.Hash

/-! The shared pages of kernel/shared_memory.c. -/

namespace IntelX86Kernel

def PAGE_SIZE : Nat := 0x1000
def sizeofSharedPage : Nat := 8

def strcmp : List (BitVec 8) → List (BitVec 8) → Int
  | [], [] => 0
  | [], d :: _ => -d.toNat
  | c :: _, [] => c.toNat
  | c :: first, d :: second =>
      if c.toNat - d.toNat ≠ (0 : Int) then c.toNat - d.toNat else strcmp first second

def hashStringCmp (key1 key2 : CString) : Bool := decide (strcmp key1.chars key2.chars = 0)

def hashStringHfunc (key : CString) : BitVec 32 :=
  key.chars.foldl (fun hash c => ((hash <<< 5) + hash) ^^^ c.signExtend 32) 5381

def hashInitString (map : HashTable CString Addr) (granted : Bool) :
    Option (HashTable CString Addr) :=
  map.hashInit hashStringHfunc hashStringCmp granted

structure SharedPage where
  add : Addr
  references : Int
  deriving DecidableEq

/-- `memTable` maps keys to the blocks of `pages`. -/
structure SharedMemory where
  kernel : Kernel
  memTable : HashTable CString Addr
  pages : Addr → Option SharedPage

namespace SharedMemory

variable (s : SharedMemory)

def allocate (granted : Bool) (length : Nat) : SharedMemory × Addr :=
  match s.kernel.memAlloc granted length with
  | some (kernel, zone) => ({ s with kernel := kernel }, zone)
  | none => (s, 0)

def page (record : Addr) : Except Fault SharedPage :=
  match s.pages record with
  | some page => .ok page
  | none => .error .nullDeref

def setPage (record : Addr) (page : SharedPage) : SharedMemory :=
  { s with pages := Function.update s.pages record (some page) }

def shmCreate (key : Option CString) (pageGranted recordGranted tableGranted : Bool) :
    Except Fault (SharedMemory × Addr) :=
  match key with
  | none => .ok (s, 0)
  | some key => do
      let found ← s.memTable.hashIsset key
      if found = true then .ok (s, 0)
      else
        let (s, add) := s.allocate pageGranted PAGE_SIZE
        let (s, record) := s.allocate recordGranted sizeofSharedPage
        if record = 0 then .error .nullDeref
        else
          let s := s.setPage record { add := add, references := 0 }
          let (memTable, _) ← s.memTable.hashSet key record tableGranted
          .ok ({ s with memTable := memTable }, add)

/-- `hash_get` with a null pointer for the default, which reads the key. -/
def lookup (key : Option CString) : Except Fault Addr :=
  match key with
  | none => .error .nullDeref
  | some key => s.memTable.hashGet key 0

def shmAcquire (key : Option CString) : Except Fault (SharedMemory × Addr) := do
  let record ← s.lookup key
  let page ← s.page record
  .ok (s.setPage record { page with references := toSigned (page.references + 1) }, page.add)

/-- `shm_release` up to the call to `mem_free`, with the page that is to be freed. -/
def unreference (key : Option CString) : Except Fault (SharedMemory × Option Addr) := do
  let record ← s.lookup key
  let page ← s.page record
  let references := toSigned (page.references - 1)
  .ok (s.setPage record { page with references := references },
    if references ≤ 0 then some page.add else none)

def shmRelease (key : Option CString) : Except Fault (SharedMemory × Option Addr) := do
  let (s, freed) ← s.unreference key
  match freed with
  | none => .ok (s, none)
  | some add => do
      let kernel ← s.kernel.memFree add PAGE_SIZE
      .ok ({ s with kernel := kernel }, some add)

end SharedMemory

inductive ShmCall where
  | create (key : Option CString) (pageGranted recordGranted tableGranted : Bool)
  | acquire (key : Option CString)
  | release (key : Option CString)
  deriving DecidableEq

/-- `released` shows the page that was passed to `mem_free`. -/
inductive ShmAnswer where
  | page (add : Addr)
  | released (freed : Option Addr)
  deriving DecidableEq

def SharedMemory.call (s : SharedMemory) : ShmCall → Except Fault (SharedMemory × ShmAnswer)
  | .create key pageGranted recordGranted tableGranted => do
      let (s, add) ← s.shmCreate key pageGranted recordGranted tableGranted
      .ok (s, .page add)
  | .acquire key => do
      let (s, add) ← s.shmAcquire key
      .ok (s, .page add)
  | .release key => do
      let (s, freed) ← s.shmRelease key
      .ok (s, .released freed)

def SharedMemory.Configured (s : SharedMemory) : Prop :=
  (∃ (blank : HashTable CString Addr) (granted : Bool),
    hashInitString blank granted = some s.memTable) ∧
    0 < s.kernel.nextBlock ∧ (∀ a, s.kernel.nextBlock ≤ a → s.kernel.heap a = none) ∧
    ∀ record, s.pages record = none

end IntelX86Kernel

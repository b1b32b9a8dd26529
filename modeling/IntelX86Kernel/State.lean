import Mathlib.Algebra.Group.Int.Defs
import Mathlib.Algebra.Group.Nat.Defs
import Mathlib.Data.List.Sort
import Mathlib.Logic.Function.Basic

/-! Kernel data: processes, message queues, the lists of queue.h, the heap. -/

namespace IntelX86Kernel

def MAXNPROC : Nat := 100
def SIZE_NAME : Nat := 20
def DEFAULT_SSIZE : Nat := 400
def MIN_SSIZE : Nat := 3
def NBQUEUE : Nat := 256

def sizeofProc : Nat := 100
def sizeofMessageQueue : Nat := 32
def sizeofInt : Nat := 4

/-- A block handed out by `mem_alloc`. Identities are not reused: an access
through a stale pointer is a fault here, never an access to the next owner. -/
abbrev Addr := Nat

/-- The characters of a string before its terminating zero. -/
structure CString where
  chars : List (BitVec 8)
  noZero : 0 ∉ chars
  deriving DecidableEq

instance : Inhabited CString := ⟨⟨[], List.not_mem_nil⟩⟩

def toUnsigned (z : Int) : Nat := (z % 2 ^ 32).toNat
def toSigned (z : Int) : Int := z.bmod (2 ^ 32)

theorem toSigned_small {z : Int} (low : -2147483648 ≤ z) (high : z < 2147483648) :
    toSigned z = z :=
  Int.bmod_eq_of_le (by omega) (by omega)

/-- How a run can end abnormally. The assertions are those of queue.h on the two link fields.
`disabled` only says that an event does not apply to the state; it is no behaviour of the
kernel. -/
inductive Fault where
  | linksAssertion
  | siblingsAssertion
  | nullDeref
  | useAfterFree
  | bufferFreed
  | bufferBounds
  | outOfBounds
  | uninitialised
  | memBug
  | hang
  | disabled
  deriving DecidableEq, Repr

inductive Status where
  | elected | ready | blockedMessageQueue | asleep | dying | zombie | blocked
  deriving DecidableEq, Repr

inductive Head where
  | ready | asleep | dying | zombie | blocked
  | queue (record : Addr)
  deriving DecidableEq, Repr

/-- Where a process continues when `ctx_sw` switches back to it: its own code,
or the statement after the call to `scheduling` it is suspended in. -/
inductive Frame where
  | user
  | done (value : Int) (out : Option Int)
  | start (pid : Nat)
  | exit
  | waitpid (pid : Nat) (child : Addr) (retvalp : Bool)
  | waitForChild (retvalp : Bool)
  | preceive (fid : Nat) (queue : Addr)
  | psend (fid : Nat) (queue : Addr) (message : Int)
  deriving DecidableEq, Repr

/-- `links` and `siblings` record the head an element is linked under, `none`
being the cleared pair of null pointers. -/
structure Proc where
  pid : Nat
  name : List UInt8
  status : Status
  stack : Addr
  stackSize : Nat
  context : Frame
  priority : Nat
  links : Option Head
  wakeUpTime : Nat
  parent : Option Addr
  childrenList : List Addr
  siblings : Option Addr
  retval : Int
  killed : Bool

def Proc.zeroed : Proc where
  pid := 0
  name := []
  status := .elected
  stack := 0
  stackSize := 0
  context := .user
  priority := 0
  links := none
  wakeUpTime := 0
  parent := none
  childrenList := []
  siblings := none
  retval := 0
  killed := false

/-- `blocked_processes_links` is `lists (.queue record)` of the kernel. -/
structure MessageQueue where
  bufferSize : Int
  buffer : Addr
  cells : Nat → Int
  readIndex : Int
  writeIndex : Int
  nbMessages : Int
  resetFlag : Int

@[ext]
structure Kernel where
  heap : Addr → Option Nat
  nextBlock : Addr
  procs : Addr → Option Proc
  records : Addr → Option MessageQueue
  lists : Head → List Addr
  processesTable : Nat → Option Addr
  nbProc : Nat
  activePID : Nat
  queues : Nat → Option Addr
  queueCount : Int
  nbInterrupt : Nat

def Kernel.booting : Kernel where
  heap := fun _ => none
  nextBlock := 1
  procs := fun _ => none
  records := fun _ => none
  lists := fun _ => []
  processesTable := fun _ => none
  nbProc := 0
  activePID := 0
  queues := fun _ => none
  queueCount := 0
  nbInterrupt := 0

namespace Kernel

variable (k : Kernel)

def deref (a : Addr) : Except Fault Proc :=
  match k.procs a with
  | some p => .ok p
  | none => .error .useAfterFree

def record (q : Addr) : Except Fault MessageQueue :=
  match k.records q with
  | some mq => .ok mq
  | none => .error .uninitialised

/-- `processes_table[pid]` for a pid given by a caller. -/
def tableAt (pid : Int) : Except Fault (Option Addr) :=
  if 0 ≤ pid ∧ pid < MAXNPROC then .ok (k.processesTable pid.toNat) else .error .outOfBounds

/-- `queue_data.queues[fid]` for a fid given by a caller. -/
def queueAt (fid : Int) : Except Fault (Option Addr) :=
  if 0 ≤ fid ∧ fid < NBQUEUE then .ok (k.queues fid.toNat) else .error .outOfBounds

/-- `processes_table[active_PID]`, about to be dereferenced. -/
def active : Except Fault Addr :=
  match k.processesTable k.activePID with
  | some a => .ok a
  | none => .error .nullDeref

def currentClock : Nat := k.nbInterrupt

def setProc (a : Addr) (f : Proc → Proc) : Kernel :=
  { k with procs := Function.update k.procs a ((k.procs a).map f) }

def setRecord (q : Addr) (f : MessageQueue → MessageQueue) : Kernel :=
  { k with records := Function.update k.records q ((k.records q).map f) }

def setList (h : Head) (l : List Addr) : Kernel :=
  { k with lists := Function.update k.lists h l }

def setTable (pid : Nat) (entry : Option Addr) : Kernel :=
  { k with processesTable := Function.update k.processesTable pid entry }

def setStatus (a : Addr) (s : Status) : Kernel :=
  k.setProc a fun p => { p with status := s }

/-- The wrapper of shared/malloc.c: `granted` is the answer of the allocator
under it. Four words are added; lengths that wrap around are refused. -/
def memAlloc (granted : Bool) (length : Nat) : Option (Kernel × Addr) :=
  let l := (length + 3) % 2 ^ 32 / 4 + 4
  let l2 := l * 4 % 2 ^ 32
  if length = 0 ∨ l2 ≤ length ∨ granted = false then none
  else some ({ k with heap := Function.update k.heap k.nextBlock (some length),
                      nextBlock := k.nextBlock + 1 }, k.nextBlock)

def memFree (zone : Addr) (length : Nat) : Except Fault Kernel :=
  if length = 0 then .ok k
  else if k.heap zone = some length then
    .ok { k with heap := Function.update k.heap zone none }
  else .error .memBug

end Kernel

end IntelX86Kernel

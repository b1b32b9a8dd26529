import IntelX86Kernel.Scheduler

/-! The process calls of kernel/processManager.c. A call runs until it returns or
calls `scheduling`; `Next` says which, and what is left to do. -/

namespace IntelX86Kernel

inductive Next where
  | ret (value : Int) (out : Option Int)
  | suspend (context : Frame)
  deriving DecidableEq, Repr

/-- How far `stack[stack_size - i]` is from the beginning of the stack. Addresses wrap around. -/
def stackOffset (stackSize i : Nat) : Nat :=
  sizeofInt * (stackSize - i) % 2 ^ 32

namespace Kernel

variable (k : Kernel)

def getNewPid : Option Nat :=
  (List.range MAXNPROC).find? fun pid => (k.processesTable pid).isNone

def getParentProc : Option Addr :=
  if k.nbProc = 0 then none else k.processesTable k.activePID

def throwStartError (pid : Nat) (process : Addr) : Except Fault (Kernel × Next) := do
  let k := k.setTable pid none
  let k ← k.memFree process sizeofProc
  .ok ({ k with procs := Function.update k.procs process none }, .ret (-1) none)

def filiationManager (a : Addr) : Except Fault Kernel :=
  let parent := k.getParentProc
  let k := k.setProc a fun p => { p with childrenList := [], parent := parent }
  if k.nbProc = 0 then .ok k
  else
    match parent with
    | none => .error .nullDeref
    | some b => k.addSibling a b

/-- The fields `start` writes once both blocks are allocated, with the copy of the
name and the three words at the top of the stack inside their blocks. -/
def initProc (a : Addr) (pid : Nat) (stack : Addr) (stackSize : Nat) (prio : Int)
    (name : List UInt8) : Except Fault Kernel :=
  if SIZE_NAME ≤ name.length then .error .outOfBounds
  else
    match k.heap stack with
    | none => .error .useAfterFree
    | some length =>
        if ∃ i ∈ ([1, 2, 3] : List Nat), length < stackOffset stackSize i + sizeofInt then
          .error .outOfBounds
        else
          .ok (k.setProc a fun p =>
            { p with
              status := if pid = 0 then .elected else .ready
              pid := pid
              name := name
              priority := toUnsigned prio
              wakeUpTime := 0
              stack := stack
              stackSize := stackSize
              context := .user })

/-- The end of `start`, run again after its call to `scheduling`. -/
def startReturn (pid : Nat) : Except Fault (Kernel × Next) :=
  match k.processesTable pid with
  | none => .error .nullDeref
  | some a => do
      let p ← k.deref a
      .ok (k, .ret p.pid none)

def startLinked (a : Addr) (pid : Nat) : Except Fault (Kernel × Next) := do
  let k ← k.filiationManager a
  let k ← k.queueAdd a .ready Proc.priority
  let k := { k with nbProc := (k.nbProc + 1) % 2 ^ 32 }
  let current ← k.active
  let p ← k.deref a
  let running ← k.deref current
  if running.priority < p.priority then .ok (k, .suspend (.start pid)) else k.startReturn pid

structure Line where
  level : Nat
  pid : Nat
  name : List UInt8
  deriving DecidableEq, Repr

/-- `queue_for_each(it, &proc->children_list, Proc, siblings)` with a body that prints. -/
def printEach (body : Addr → Except Fault (List Line)) : List Addr → Except Fault (List Line)
  | [] => .ok []
  | it :: rest => do
      let lines ← body it
      let others ← printEach body rest
      .ok (lines ++ others)

/-- A chain of children longer than there are blocks has no end. -/
def psHierarchy : Nat → Addr → Nat → Except Fault (List Line)
  | 0, _, _ => .error .hang
  | depth + 1, proc, level => do
      let p ← k.deref proc
      let lines ← printEach (fun it => psHierarchy depth it (level + 1)) p.childrenList
      .ok (⟨level, p.pid, p.name⟩ :: lines)

def pstree : Except Fault (List Line) :=
  match k.processesTable 0 with
  | none => .error .nullDeref
  | some proc => k.psHierarchy k.nextBlock proc 0

/-- `pt_func` and `arg` only decide which calls the process makes. The two flags
are the answers of the allocator. -/
def start (ssize : Nat) (prio : Int) (name : List UInt8) (procGranted stackGranted : Bool) :
    Except Fault (Kernel × Next) :=
  match k.getNewPid with
  | none => .ok (k, .ret (-1) none)
  | some pid =>
      match k.memAlloc procGranted sizeofProc with
      | none => .ok (k, .ret (-1) none)
      | some (k, a) =>
          let k := k.setTable pid (some a)
          let k := { k with procs := Function.update k.procs a (some Proc.zeroed) }
          if 2 ^ 32 ≤ ssize + MIN_SSIZE then k.throwStartError pid a
          else
            let stackSize := max (ssize + MIN_SSIZE) DEFAULT_SSIZE
            match k.memAlloc stackGranted (stackSize * sizeofInt % 2 ^ 32) with
            | none => k.throwStartError pid a
            | some (k, stack) => do
                let k ← k.initProc a pid stack stackSize prio name
                k.startLinked a pid

def parentStillAlive (p : Proc) : Except Fault Bool :=
  match p.parent with
  | none => .ok false
  | some b => do
      let parent ← k.deref b
      .ok (decide (parent.pid ≠ 0))

/-- `p->status = s; queue_del(p, links); queue_add(p, head, Proc, links, priority)` -/
def requeue (a : Addr) (s : Status) (head : Head) : Except Fault Kernel := do
  let k := k.setStatus a s
  let k ← k.queueDel a
  k.queueAdd a head Proc.priority

/-- `p->status = s; queue_add(p, head, Proc, links, priority)` -/
def enqueue (a : Addr) (s : Status) (head : Head) : Except Fault Kernel :=
  (k.setStatus a s).queueAdd a head Proc.priority

def freeChild (c : Addr) : Except Fault Kernel := do
  let p ← k.deref c
  if p.status = .zombie then k.requeue c .dying .dying
  else .ok (k.setProc c fun p => { p with parent := k.processesTable 0 })

/-- The iterator of `free_children` is the element just taken out, whose cleared
link never equals the head: the loop ends when `queue_out` finds the list empty. -/
def freeChildrenLoop (parent : Addr) : Nat → Kernel → Except Fault Kernel
  | 0, _ => .error .hang
  | n + 1, k => do
      let (child, k) ← k.outSibling parent
      match child with
      | none => .ok k
      | some c => do
          let k ← k.freeChild c
          freeChildrenLoop parent n k

def freeChildren (a : Addr) : Except Fault Kernel := do
  let p ← k.deref a
  if p.childrenList = [] then .ok k
  else freeChildrenLoop a (p.childrenList.length + 1) k

def wakeParent (p : Proc) : Except Fault Kernel :=
  match p.parent with
  | none => .error .nullDeref
  | some b => do
      let parent ← k.deref b
      if parent.status = .blocked then k.requeue b .ready .ready else .ok k

def exit (retval : Int) : Except Fault (Kernel × Next) := do
  let a ← k.active
  let _ ← k.deref a
  let k := k.setProc a fun p => { p with retval := retval, killed := false }
  let k ← k.freeChildren a
  let p ← k.deref a
  let alive ← k.parentStillAlive p
  if alive = true then
    let k ← k.enqueue a .zombie .zombie
    let k ← k.wakeParent p
    .ok (k, .suspend .exit)
  else
    let k ← k.enqueue a .dying .dying
    .ok (k, .suspend .exit)

def kill (pid : Int) : Except Fault (Kernel × Next) := do
  let entry ← k.tableAt pid
  match entry with
  | none => .ok (k, .ret (-1) none)
  | some a => do
      let p ← k.deref a
      if pid ≤ 0 ∨ p.status = .zombie then .ok (k, .ret (-1) none)
      else
        let k := k.setProc a fun p => { p with killed := true }
        if pid = k.activePID then k.exit 0
        else
          let alive ← k.parentStillAlive p
          let k ← if alive = true then k.requeue a .zombie .zombie else k.requeue a .dying .dying
          let k ← k.freeChildren a
          .ok (k, .suspend (.done 0 none))

def firstZombie : List Addr → Except Fault (Option Addr)
  | [] => .ok none
  | c :: rest => do
      let p ← k.deref c
      if p.status = .zombie then .ok (some c) else firstZombie rest

def getTerminatedChild (parent : Proc) : Except Fault (Option Addr) :=
  k.firstZombie parent.childrenList

def collect (child : Addr) (retvalp : Bool) : Except Fault (Kernel × Next) := do
  let p ← k.deref child
  let out := if retvalp then some (if p.killed then 0 else p.retval) else none
  let k := k.setStatus child .dying
  let k ← k.queueDel child
  let k ← k.delSibling child
  let k ← k.queueAdd child .dying Proc.priority
  .ok (k, .ret p.pid out)

def blockWaiting (context : Frame) : Except Fault (Kernel × Next) := do
  let a ← k.active
  let k ← k.enqueue a .blocked .blocked
  .ok (k, .suspend context)

def waitpidLoop (pid : Nat) (child : Addr) (retvalp : Bool) : Except Fault (Kernel × Next) := do
  let p ← k.deref child
  if p.status = .zombie then k.collect child retvalp
  else k.blockWaiting (.waitpid pid child retvalp)

/-- `wait_for_child` up to its call to `scheduling`. -/
def waitForChild (retvalp : Bool) : Except Fault (Kernel × Next) := do
  let a ← k.active
  let p ← k.deref a
  if p.childrenList = [] then .ok (k, .ret (-1) none)
  else
    let child ← k.getTerminatedChild p
    match child with
    | some c => k.collect c retvalp
    | none => k.blockWaiting (.waitForChild retvalp)

/-- `wait_for_child` after its call to `scheduling`. -/
def waitForChildResumed (retvalp : Bool) : Except Fault (Kernel × Next) := do
  let a ← k.active
  let p ← k.deref a
  let child ← k.getTerminatedChild p
  match child with
  | some c => k.collect c retvalp
  | none => .ok (k, .ret (-1) none)

def waitpid (pid : Int) (retvalp : Bool) : Except Fault (Kernel × Next) :=
  if pid < 0 then k.waitForChild retvalp
  else do
    let entry ← k.tableAt pid
    match entry with
    | none => .ok (k, .ret (-1) none)
    | some child => do
        let p ← k.deref child
        let a ← k.active
        let parent ← k.deref a
        let listed ← k.anyPid p.pid parent.childrenList
        if listed = true then k.waitpidLoop pid.toNat child retvalp
        else .ok (k, .ret (-1) none)

def waitClock (clock : Nat) : Except Fault (Kernel × Next) := do
  let a ← k.active
  let k := k.setProc a fun p => { p with wakeUpTime := clock % 2 ^ 32, status := .asleep }
  let k ← k.queueAdd a .asleep Proc.wakeUpTime
  .ok (k, .suspend (.done 0 none))

def sleep (seconds : Nat) : Except Fault (Kernel × Next) :=
  k.waitClock ((k.currentClock + seconds * 50) % 2 ^ 32)

def getprio (pid : Int) : Except Fault Int :=
  if pid < 0 ∨ (MAXNPROC : Int) < pid then .ok (-1)
  else do
    let entry ← k.tableAt pid
    match entry with
    | none => .ok (-1)
    | some a => do
        let p ← k.deref a
        .ok (toSigned p.priority)

/-- `queue_del(proc, links); queue_add(proc, head, Proc, links, priority)` -/
def resort (a : Addr) (head : Head) : Except Fault Kernel := do
  let k ← k.queueDel a
  k.queueAdd a head Proc.priority

/-- The search of `chprio` through `queue_data.queues`. -/
def resortInQueues (a : Addr) (pid : Nat) : List Nat → Except Fault Kernel
  | [] => .ok k
  | i :: rest =>
      match k.queues i with
      | none => resortInQueues a pid rest
      | some q => do
          let _ ← k.record q
          let listed ← k.inList (.queue q) pid
          if listed = true then k.resort a (.queue q) else resortInQueues a pid rest

def reorder (a : Addr) (p : Proc) : Except Fault Kernel :=
  match p.status with
  | .ready => k.resort a .ready
  | .blocked => k.resort a .blocked
  | .blockedMessageQueue => k.resortInQueues a p.pid (List.range NBQUEUE)
  | _ => .ok k

def chprio (pid newprio : Int) : Except Fault (Kernel × Next) := do
  let oldprio ← k.getprio pid
  if oldprio ≤ 0 ∨ (0 < pid ∧ newprio ≤ 0) then .ok (k, .ret (-1) none)
  else
    let entry ← k.tableAt pid
    match entry with
    | none => .error .nullDeref
    | some a => do
        let p ← k.deref a
        if p.status = .zombie then .ok (k, .ret (-1) none)
        else
          let k := k.setProc a fun p => { p with priority := toUnsigned newprio }
          let k ← k.reorder a p
          .ok (k, .suspend (.done oldprio none))

end Kernel

end IntelX86Kernel

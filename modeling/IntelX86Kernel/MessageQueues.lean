import IntelX86Kernel.Processes

/-! The calls of kernel/message_queue.c. -/

namespace IntelX86Kernel

namespace Kernel

variable (k : Kernel)

def checkFidValidity (fid : Int) : Except Fault (Option Addr) :=
  if fid < 0 then .ok none else k.queueAt fid

/-- The list counted is the one of the queue the table holds now. -/
def countBlockedProcess (fid : Nat) : Except Fault Int :=
  match k.queues fid with
  | none => .error .nullDeref
  | some q => do
      let _ ← k.record q
      .ok (k.lists (.queue q)).length

def firstFreeFid : Nat :=
  ((List.range NBQUEUE).find? fun fid => (k.queues fid).isNone).getD NBQUEUE

/-- The first block stays in the table when the second allocation fails. Its list
head is then never initialised, which `records` shows by having no entry. -/
def pcreate (count : Int) (recordGranted bufferGranted : Bool) :
    Except Fault (Kernel × Next) :=
  if count ≤ 0 ∨ (NBQUEUE : Int) ≤ k.queueCount ∨ 2147483647 / 4 < count then
    .ok (k, .ret (-1) none)
  else
    match k.memAlloc recordGranted sizeofMessageQueue with
    | none => .ok (k, .ret (-1) none)
    | some (k, q) =>
        let fid := k.firstFreeFid
        if fid = NBQUEUE then .error .outOfBounds
        else
          let k := { k with queues := Function.update k.queues fid (some q) }
          match k.memAlloc bufferGranted (sizeofInt * count.toNat % 2 ^ 32) with
          | none => .ok (k, .ret (-1) none)
          | some (k, buffer) =>
              let mq : MessageQueue :=
                { bufferSize := count, buffer := buffer, cells := fun _ => 0,
                  readIndex := 0, writeIndex := 0, nbMessages := 0, resetFlag := 0 }
              let k := { k with records := Function.update k.records q (some mq) }
              let k := k.setList (.queue q) []
              .ok ({ k with queueCount := k.queueCount + 1 }, .ret fid none)

/-- `unblock_processes`: the waiters leave from `head->prev` on. -/
def unblockLoop (q : Addr) : Nat → Kernel → Except Fault Kernel
  | 0, _ => .error .hang
  | n + 1, k =>
      match (k.lists (.queue q)).getLast? with
      | none => .ok k
      | some a => do
          let k ← k.queueDel a
          let k ← k.queueAdd a .ready Proc.priority
          unblockLoop q n (k.setStatus a .ready)

def unblockProcesses (q : Addr) : Except Fault Kernel := do
  let _ ← k.record q
  unblockLoop q ((k.lists (.queue q)).length + 1) k

def pdelete (fid : Int) : Except Fault (Kernel × Next) := do
  let entry ← k.checkFidValidity fid
  match entry with
  | none => .ok (k, .ret (-1) none)
  | some q => do
      let k ← k.unblockProcesses q
      let mq ← k.record q
      let k ← k.memFree mq.buffer (sizeofInt * mq.bufferSize.toNat % 2 ^ 32)
      let k := { k with queues := Function.update k.queues fid.toNat none,
                        queueCount := k.queueCount - 1 }
      .ok (k, .suspend (.done 0 none))

def preset (fid : Int) : Except Fault (Kernel × Next) := do
  let entry ← k.checkFidValidity fid
  match entry with
  | none => .ok (k, .ret (-1) none)
  | some q => do
      let _ ← k.record q
      let k := k.setRecord q fun mq =>
        { mq with readIndex := 0, writeIndex := 0, nbMessages := 0 }
      let blocked ← k.countBlockedProcess fid.toNat
      let k := k.setRecord q fun mq => { mq with resetFlag := blocked }
      let k ← k.unblockProcesses q
      .ok (k, .suspend (.done 0 none))

def pcount (fid : Int) (count : Bool) : Except Fault (Kernel × Next) := do
  let entry ← k.checkFidValidity fid
  match entry with
  | none => .ok (k, .ret (-1) none)
  | some q =>
      if count = true then do
        let mq ← k.record q
        let blocked ← k.countBlockedProcess fid.toNat
        .ok (k, .ret 0 (some (if mq.nbMessages = 0 then blocked * -1
          else mq.nbMessages + blocked)))
      else .ok (k, .ret 0 none)

/-- An access to `buffer[index]`. -/
def bufferCell (mq : MessageQueue) (index : Int) : Except Fault Nat :=
  match k.heap mq.buffer with
  | none => .error .bufferFreed
  | some length =>
      if 0 ≤ index ∧ sizeofInt * (index + 1) ≤ length then .ok index.toNat
      else .error .bufferBounds

/-- `current->status = BLOCKED_MESSAGE_QUEUE` and the insertion, before `scheduling`. -/
def blockOnQueue (q : Addr) (context : Frame) : Except Fault (Kernel × Next) := do
  let a ← k.active
  let k ← k.enqueue a .blockedMessageQueue (.queue q)
  .ok (k, .suspend context)

/-- A process taken off the waiting list joins the ready list. -/
def wakeWaiter (q : Addr) : Except Fault (Option Addr × Kernel) := do
  let (waiter, k) ← k.queueOut (.queue q)
  match waiter with
  | none => .ok (none, k)
  | some a => do
      let k ← k.enqueue a .ready .ready
      .ok (some a, k)

/-- The part of `preceive` below its blocking test. The count is taken through the
table, the waiter through the pointer read at the beginning of the call. -/
def takeMessage (fid : Nat) (q : Addr) : Except Fault (Kernel × Next) := do
  let mq ← k.record q
  let cell ← k.bufferCell mq mq.readIndex
  let message := mq.cells cell
  let nbMessages := mq.nbMessages - 1
  let k := k.setRecord q fun mq =>
    { mq with readIndex := (mq.readIndex + 1).tmod mq.bufferSize, nbMessages := nbMessages }
  let blocked ← k.countBlockedProcess fid
  if 0 < blocked ∧ nbMessages = mq.bufferSize - 1 then
    let (waiter, k) ← k.wakeWaiter q
    match waiter with
    | none => .ok (k, .ret 0 (some message))
    | some _ => .ok (k, .suspend (.done 0 (some message)))
  else .ok (k, .ret 0 (some message))

def preceive (fid : Int) : Except Fault (Kernel × Next) := do
  let entry ← k.checkFidValidity fid
  match entry with
  | none => .ok (k, .ret (-1) none)
  | some q => do
      let mq ← k.record q
      if mq.nbMessages = 0 then k.blockOnQueue q (.preceive fid.toNat q)
      else k.takeMessage fid.toNat q

def preceiveResumed (fid : Nat) (q : Addr) : Except Fault (Kernel × Next) := do
  let mq ← k.record q
  if k.queues fid = none ∨ mq.nbMessages = 0 ∨ mq.resetFlag ≠ 0 then
    .ok (k.setRecord q fun mq => { mq with resetFlag := toSigned (mq.resetFlag - 1) },
      .ret (-1) none)
  else k.takeMessage fid q

def storeMessage (q : Addr) (message : Int) : Except Fault Kernel := do
  let mq ← k.record q
  let cell ← k.bufferCell mq mq.writeIndex
  .ok (k.setRecord q fun mq =>
    { mq with
      cells := Function.update mq.cells cell message
      writeIndex := (mq.writeIndex + 1).tmod mq.bufferSize
      nbMessages := mq.nbMessages + 1 })

def psend (fid : Int) (message : Int) : Except Fault (Kernel × Next) := do
  let entry ← k.checkFidValidity fid
  match entry with
  | none => .ok (k, .ret (-1) none)
  | some q => do
      let mq ← k.record q
      let blocked ← k.countBlockedProcess fid.toNat
      if mq.nbMessages = 0 ∧ 0 < blocked then
        let (waiter, k) ← k.wakeWaiter q
        let k ← k.storeMessage q message
        match waiter with
        | none => .ok (k, .ret 0 none)
        | some _ => .ok (k, .suspend (.done 0 none))
      else if mq.nbMessages = mq.bufferSize then
        k.blockOnQueue q (.psend fid.toNat q message)
      else
        let k ← k.storeMessage q message
        .ok (k, .ret 0 none)

/-- One more turn of the waiting loop of `psend`, or its end. -/
def psendResumed (fid : Nat) (q : Addr) (message : Int) : Except Fault (Kernel × Next) := do
  let mq ← k.record q
  if k.queues fid = none then .ok (k, .ret (-1) none)
  else if mq.resetFlag ≠ 0 then
    .ok (k.setRecord q fun mq => { mq with resetFlag := toSigned (mq.resetFlag - 1) },
      .ret (-1) none)
  else if mq.nbMessages = mq.bufferSize then
    k.blockOnQueue q (.psend fid q message)
  else
    let k ← k.storeMessage q message
    .ok (k, .ret 0 none)

end Kernel

end IntelX86Kernel

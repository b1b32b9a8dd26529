import IntelX86Kernel.Lists

/-! `scheduling` and the functions it calls (kernel/processManager.c). -/

namespace IntelX86Kernel

namespace Kernel

variable (k : Kernel)

/-- First pass of `wakeup`: the sleepers whose time is over. -/
def toWakeUp : List Addr → Except Fault (List Addr)
  | [] => .ok []
  | a :: rest => do
      let p ← k.deref a
      let others ← toWakeUp rest
      .ok (if p.wakeUpTime < k.currentClock then a :: others else others)

def wakeProcess (a : Addr) : Except Fault Kernel := do
  let k := k.setProc a fun p => { p with status := .ready, wakeUpTime := 0 }
  let k ← k.queueDel a
  k.queueAdd a .ready Proc.priority

def wakeProcesses : List Addr → Kernel → Except Fault Kernel
  | [], k => .ok k
  | a :: rest, k => do
      let k ← k.wakeProcess a
      wakeProcesses rest k

/-- The second pass works on the array `processes_to_wake_up[MAXNPROC]`. -/
def wakeup : Except Fault Kernel := do
  let expired ← k.toWakeUp (k.lists .asleep)
  if expired.length ≤ MAXNPROC then wakeProcesses expired k else .error .outOfBounds

/-- One round of the loop of `kill_processes`. -/
def killProcess (a : Addr) : Except Fault Kernel := do
  let k ← k.queueDel a
  let p ← k.deref a
  let k := k.setTable p.pid none
  let k ← k.memFree a sizeofProc
  let k := { k with procs := Function.update k.procs a none }
  let k ← k.memFree p.stack (sizeofInt * p.stackSize % 2 ^ 32)
  .ok { k with nbProc := (k.nbProc + (2 ^ 32 - 1)) % 2 ^ 32 }

/-- The dying list is emptied from `head->next` on, up to the active process. -/
def killLoop : List Addr → Kernel → Except Fault Kernel
  | [], k => .ok k
  | a :: rest, k =>
      if k.processesTable k.activePID = some a then .ok k
      else do
        let k ← k.killProcess a
        killLoop rest k

def killProcesses : Except Fault Kernel := killLoop (k.lists .dying) k

/-- First half of `elect_proc`: a process that was running goes back to the
ready list, unless it is linked there already. -/
def putBack (a : Addr) : Except Fault Kernel := do
  let p ← k.deref a
  if p.status = .elected then
    let k := k.setStatus a .ready
    let listed ← k.inList .ready k.activePID
    if listed = true then .ok k else k.queueAdd a .ready Proc.priority
  else .ok k

/-- Second half: the last element of the ready list is elected. -/
def electNext : Except Fault Kernel := do
  let (next, k) ← k.queueOut .ready
  match next with
  | none => .error .nullDeref
  | some a => do
      let p ← k.deref a
      match k.processesTable p.pid with
      | none => .error .nullDeref
      | some b => do
          let _ ← k.deref b
          .ok { k.setStatus b .elected with activePID := p.pid }

def electProc : Except Fault Kernel := do
  let a ← k.active
  let k ← k.putBack a
  k.electNext

/-- After it the process `activePID` runs: `ctx_sw` continues at its context. -/
def scheduling : Except Fault Kernel := do
  let k ← k.wakeup
  let k ← k.killProcesses
  k.electProc

end Kernel

end IntelX86Kernel

import IntelX86Kernel.State

/-! The macros of shared/queue.h on the lists of processes.

A list is written from `head->next` to `head->prev`. -/

namespace IntelX86Kernel

/-- The loop of `queue_add`: it reads every element it passes, stops at the first
one whose field is not below the new one and inserts before it. -/
def insertSorted (field : Addr → Option Nat) (elem : Addr) (prio : Nat) :
    List Addr → Except Fault (List Addr)
  | [] => .ok [elem]
  | cur :: rest =>
      match field cur with
      | none => .error .useAfterFree
      | some value =>
          if value < prio then
            match insertSorted field elem prio rest with
            | .ok placed => .ok (cur :: placed)
            | .error fault => .error fault
          else .ok (elem :: cur :: rest)

namespace Kernel

variable (k : Kernel)

/-- `queue_add(elem, head, Proc, links, field)` -/
def queueAdd (elem : Addr) (head : Head) (field : Proc → Nat) : Except Fault Kernel := do
  let p ← k.deref elem
  if p.links = none then
    let placed ← insertSorted (fun a => (k.procs a).map field) elem (field p) (k.lists head)
    .ok ((k.setList head placed).setProc elem fun p => { p with links := some head })
  else .error .linksAssertion

/-- `queue_del(elem, links)` -/
def queueDel (elem : Addr) : Except Fault Kernel := do
  let p ← k.deref elem
  match p.links with
  | none => .error .linksAssertion
  | some head =>
      .ok ((k.setList head ((k.lists head).erase elem)).setProc elem
        fun p => { p with links := none })

/-- `queue_out(head, Proc, links)`: the last element, or null. -/
def queueOut (head : Head) : Except Fault (Option Addr × Kernel) :=
  match (k.lists head).getLast? with
  | none => .ok (none, k)
  | some elem => do
      let _ ← k.deref elem
      .ok (some elem, (k.setList head (k.lists head).dropLast).setProc elem
        fun p => { p with links := none })

def anyPid (pid : Nat) : List Addr → Except Fault Bool
  | [] => .ok false
  | a :: rest => do
      let p ← k.deref a
      if p.pid = pid then .ok true else anyPid pid rest

def inList (head : Head) (pid : Nat) : Except Fault Bool :=
  k.anyPid pid (k.lists head)

/-- A neighbour whose link pointer is rewritten has to be a block still held. -/
def touch : Option Addr → Except Fault Unit
  | none => .ok ()
  | some a => do
      let _ ← k.deref a
      .ok ()

/-- `queue_add(elem, &parent->children_list, Proc, siblings, priority)` -/
def addSibling (elem parent : Addr) : Except Fault Kernel := do
  let p ← k.deref elem
  let owner ← k.deref parent
  if p.siblings = none then
    let placed ← insertSorted (fun a => (k.procs a).map Proc.priority) elem p.priority
      owner.childrenList
    .ok ((k.setProc parent fun p => { p with childrenList := placed }).setProc elem
      fun p => { p with siblings := some parent })
  else .error .siblingsAssertion

/-- `queue_del(elem, siblings)`: both neighbours are written. -/
def delSibling (elem : Addr) : Except Fault Kernel := do
  let p ← k.deref elem
  match p.siblings with
  | none => .error .siblingsAssertion
  | some parent => do
      let owner ← k.deref parent
      let position := owner.childrenList.idxOf elem
      k.touch (if position = 0 then none else owner.childrenList[position - 1]?)
      k.touch owner.childrenList[position + 1]?
      .ok ((k.setProc parent fun p => { p with childrenList := p.childrenList.erase elem }).setProc
        elem fun p => { p with siblings := none })

/-- `queue_out(&parent->children_list, Proc, siblings)`: the element taken out is
cleared and its predecessor becomes the last one. -/
def outSibling (parent : Addr) : Except Fault (Option Addr × Kernel) := do
  let owner ← k.deref parent
  match owner.childrenList.getLast? with
  | none => .ok (none, k)
  | some elem => do
      let _ ← k.deref elem
      k.touch owner.childrenList.dropLast.getLast?
      .ok (some elem,
        (k.setProc parent fun p => { p with childrenList := p.childrenList.dropLast }).setProc
          elem fun p => { p with siblings := none })

end Kernel

end IntelX86Kernel

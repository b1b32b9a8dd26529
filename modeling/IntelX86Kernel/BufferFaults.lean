import IntelX86Kernel.Traffic

/-! The calls in which a freed buffer can be accessed. -/

namespace IntelX86Kernel

def Clear {α : Type} (x : Except Fault α) : Prop := x ≠ .error .bufferFreed

section Rules

variable {α β : Type} {x : Except Fault α} {f : α → Except Fault β} {r : α} {fault : Fault}

@[simp] theorem clear_ok : Clear (.ok r : Except Fault α) := by
  intro same
  cases same

@[simp] theorem clear_error : Clear (.error fault : Except Fault α) ↔ fault ≠ .bufferFreed := by
  rw [Clear, ne_eq, Except.error.injEq]

@[simp] theorem clear_bind : Clear (x >>= f) ↔ Clear x ∧ ∀ r, x = .ok r → Clear (f r) := by
  cases x with
  | error fault => simp [bind, Except.bind]
  | ok r => simp [bind, Except.bind]

@[simp] theorem clear_ite {y : Except Fault α} {c : Prop} [Decidable c] :
    Clear (if c then x else y) ↔ (c → Clear x) ∧ (¬ c → Clear y) := by
  split <;> simp [*]

end Rules

namespace Kernel

variable {k : Kernel} {a b q : Addr} {h : Head} {s : Status} {l : List Addr}

@[simp] theorem deref_clear : Clear (k.deref a) := by
  rw [deref]
  split <;> simp

@[simp] theorem record_clear : Clear (k.record q) := by
  rw [record]
  split <;> simp

@[simp] theorem active_clear : Clear k.active := by
  rw [active]
  split <;> simp

@[simp] theorem tableAt_clear {pid : Int} : Clear (k.tableAt pid) := by
  simp [tableAt]

@[simp] theorem queueAt_clear {fid : Int} : Clear (k.queueAt fid) := by
  simp [queueAt]

@[simp] theorem memFree_clear {length : Nat} : Clear (k.memFree a length) := by
  simp [memFree]

@[simp] theorem insertSorted_clear {field : Addr → Option Nat} {prio : Nat} :
    Clear (insertSorted field a prio l) := by
  induction l with
  | nil => simp [insertSorted]
  | cons cur rest ih =>
      rw [insertSorted]
      split
      · simp
      · split
        · cases placed : insertSorted field a prio rest with
          | ok => simp
          | error fault =>
              rw [placed] at ih
              exact clear_error.mpr (clear_error.mp ih)
        · simp

@[simp] theorem queueAdd_clear {field : Proc → Nat} : Clear (k.queueAdd a h field) := by
  simp [queueAdd]

@[simp] theorem queueDel_clear : Clear (k.queueDel a) := by
  simp only [queueDel, clear_bind, deref_clear, true_and]
  intro p here
  split <;> simp

@[simp] theorem queueOut_clear : Clear (k.queueOut h) := by
  rw [queueOut]
  split <;> simp

@[simp] theorem anyPid_clear {pid : Nat} : Clear (k.anyPid pid l) := by
  induction l with
  | nil => simp [anyPid]
  | cons a rest ih => simp [anyPid, ih]

@[simp] theorem inList_clear {pid : Nat} : Clear (k.inList h pid) := anyPid_clear

@[simp] theorem touch_clear {o : Option Addr} : Clear (k.touch o) := by
  cases o <;> simp [touch]

@[simp] theorem addSibling_clear : Clear (k.addSibling a b) := by
  simp [addSibling]

@[simp] theorem delSibling_clear : Clear (k.delSibling a) := by
  simp only [delSibling, clear_bind, deref_clear, true_and]
  intro p here
  split <;> simp

@[simp] theorem outSibling_clear : Clear (k.outSibling a) := by
  simp only [outSibling, clear_bind, deref_clear, true_and]
  intro p here
  split <;> simp

@[simp] theorem requeue_clear : Clear (k.requeue a s h) := by
  simp [requeue]

@[simp] theorem enqueue_clear : Clear (k.enqueue a s h) := queueAdd_clear

@[simp] theorem resort_clear : Clear (k.resort a h) := by
  simp [resort]

/-! The scheduler. -/

theorem toWakeUp_clear : Clear (k.toWakeUp l) := by
  induction l with
  | nil => simp [toWakeUp]
  | cons a rest ih => simp [toWakeUp, ih]

theorem wakeProcesses_clear : Clear (wakeProcesses l k) := by
  induction l generalizing k with
  | nil => simp [wakeProcesses]
  | cons a rest ih => simp [wakeProcesses, wakeProcess, ih]

theorem killLoop_clear : Clear (killLoop l k) := by
  induction l generalizing k with
  | nil => simp [killLoop]
  | cons a rest ih => simp [killLoop, killProcess, ih]

theorem electNext_clear : Clear k.electNext := by
  simp only [electNext, clear_bind, queueOut_clear, true_and]
  intro out found
  split
  · simp
  · simp only [clear_bind, deref_clear, true_and]
    intro p here
    split <;> simp

theorem scheduling_clear : Clear k.scheduling := by
  simp [scheduling, wakeup, killProcesses, electProc, putBack, toWakeUp_clear,
    wakeProcesses_clear, killLoop_clear, electNext_clear]

/-! The calls on processes. -/

theorem freeChildrenLoop_clear {fuel : Nat} : Clear (freeChildrenLoop a fuel k) := by
  induction fuel generalizing k with
  | zero => simp [freeChildrenLoop]
  | succ fuel ih =>
      simp only [freeChildrenLoop, clear_bind, outSibling_clear, true_and]
      intro out found
      split
      · simp
      · simp [freeChild, ih]

theorem freeChildren_clear : Clear (k.freeChildren a) := by
  simp [freeChildren, freeChildrenLoop_clear]

theorem parentStillAlive_clear {p : Proc} : Clear (k.parentStillAlive p) := by
  rw [parentStillAlive]
  split <;> simp

theorem exit_clear {retval : Int} : Clear (k.exit retval) := by
  have wake {k : Kernel} {p : Proc} : Clear (k.wakeParent p) := by
    rw [wakeParent]
    split <;> simp
  simp [exit, freeChildren_clear, parentStillAlive_clear, wake]

theorem kill_clear {pid : Int} : Clear (k.kill pid) := by
  simp only [kill, clear_bind, tableAt_clear, true_and]
  intro entry slot
  split
  · simp
  · simp only [clear_bind, clear_ite, deref_clear, clear_ok, exit_clear, parentStillAlive_clear,
      requeue_clear, freeChildren_clear, implies_true, and_self]

theorem firstZombie_clear : Clear (k.firstZombie l) := by
  induction l with
  | nil => simp [firstZombie]
  | cons c rest ih => simp [firstZombie, ih]

theorem collect_clear {retvalp : Bool} : Clear (k.collect a retvalp) := by
  simp [collect]

theorem blockWaiting_clear {context : Frame} : Clear (k.blockWaiting context) := by
  simp [blockWaiting]

theorem waitpidLoop_clear {pid : Nat} {retvalp : Bool} : Clear (k.waitpidLoop pid a retvalp) := by
  simp [waitpidLoop, collect_clear, blockWaiting_clear]

theorem waitForChildResumed_clear {retvalp : Bool} : Clear (k.waitForChildResumed retvalp) := by
  simp only [waitForChildResumed, getTerminatedChild, clear_bind, active_clear, deref_clear,
    firstZombie_clear, true_and]
  intro a current p here child search
  split
  · exact collect_clear
  · simp

theorem waitpid_clear {pid : Int} {retvalp : Bool} : Clear (k.waitpid pid retvalp) := by
  simp only [waitpid, clear_ite]
  constructor
  · intro any
    simp only [waitForChild, getTerminatedChild, clear_bind, clear_ite, active_clear, deref_clear,
      firstZombie_clear, true_and]
    intro a current p here
    refine ⟨fun _ => clear_ok, fun _ child search => ?_⟩
    split
    · exact collect_clear
    · exact blockWaiting_clear
  · intro one
    simp only [clear_bind, tableAt_clear, true_and]
    intro entry slot
    split
    · simp
    · simp [waitpidLoop_clear]

theorem getprio_clear {pid : Int} : Clear (k.getprio pid) := by
  simp only [getprio, clear_ite, clear_ok, clear_bind, tableAt_clear, true_and, implies_true]
  intro given entry slot
  split <;> simp

theorem resortInQueues_clear {pid : Nat} {fids : List Nat} :
    Clear (k.resortInQueues a pid fids) := by
  induction fids with
  | nil => simp [resortInQueues]
  | cons i rest ih =>
      rw [resortInQueues]
      split
      · exact ih
      · simp [ih]

theorem chprio_clear {pid newprio : Int} : Clear (k.chprio pid newprio) := by
  have reorder {k : Kernel} {a : Addr} {p : Proc} : Clear (k.reorder a p) := by
    rw [reorder]
    split <;> simp [resortInQueues_clear]
  simp only [chprio, clear_bind, clear_ite, getprio_clear, tableAt_clear, clear_ok, true_and,
    implies_true]
  intro old _ valid entry slot
  split
  · simp
  · simp [reorder]

theorem waitClock_clear {clock : Nat} : Clear (k.waitClock clock) := by
  simp [waitClock]

theorem startReturn_clear {pid : Nat} : Clear (k.startReturn pid) := by
  rw [startReturn]
  split <;> simp

theorem start_clear {ssize : Nat} {prio : Int} {name : List UInt8}
    {procGranted stackGranted : Bool} :
    Clear (k.start ssize prio name procGranted stackGranted) := by
  have gives {k : Kernel} {pid : Nat} {a : Addr} : Clear (k.throwStartError pid a) := by
    simp [throwStartError]
  have fills {k : Kernel} {pid stackSize : Nat} {a stack : Addr} :
      Clear (k.initProc a pid stack stackSize prio name) := by
    rw [initProc]
    split
    · simp
    · split
      · simp
      · simp
  have joins {k : Kernel} {a : Addr} : Clear (k.filiationManager a) := by
    simp only [filiationManager, clear_ite, clear_ok, implies_true, true_and]
    intro started
    split <;> simp
  rw [start]
  split
  · simp
  · split
    · simp
    · simp only [clear_ite, gives, implies_true, true_and]
      intro small
      split
      · exact gives
      · simp [fills, startLinked, joins, startReturn_clear]

/-! The calls on queues. -/

theorem checkFidValidity_clear {fid : Int} : Clear (k.checkFidValidity fid) := by
  simp [checkFidValidity]

theorem countBlockedProcess_clear {fid : Nat} : Clear (k.countBlockedProcess fid) := by
  rw [countBlockedProcess]
  split <;> simp

theorem unblockLoop_clear {fuel : Nat} : Clear (unblockLoop q fuel k) := by
  induction fuel generalizing k with
  | zero => simp [unblockLoop]
  | succ fuel ih =>
      rw [unblockLoop]
      split
      · simp
      · simp [ih]

theorem unblockProcesses_clear : Clear (k.unblockProcesses q) := by
  simp [unblockProcesses, unblockLoop_clear]

theorem pcreate_clear {count : Int} {recordGranted bufferGranted : Bool} :
    Clear (k.pcreate count recordGranted bufferGranted) := by
  simp only [pcreate, clear_ite, clear_ok, implies_true, true_and]
  intro valid
  split
  · simp
  · simp only [clear_ite, clear_error, ne_eq, reduceCtorEq, not_false_eq_true, implies_true,
      true_and]
    intro free
    split <;> simp

theorem pdelete_clear {fid : Int} : Clear (k.pdelete fid) := by
  simp only [pdelete, clear_bind, checkFidValidity_clear, true_and]
  intro entry valid
  split <;> simp [unblockProcesses_clear]

theorem preset_clear {fid : Int} : Clear (k.preset fid) := by
  simp only [preset, clear_bind, checkFidValidity_clear, true_and]
  intro entry valid
  split <;> simp [countBlockedProcess_clear, unblockProcesses_clear]

theorem pcount_clear {fid : Int} {count : Bool} : Clear (k.pcount fid count) := by
  simp only [pcount, clear_bind, checkFidValidity_clear, true_and]
  intro entry valid
  split <;> simp [countBlockedProcess_clear]

theorem blockOnQueue_clear {context : Frame} : Clear (k.blockOnQueue q context) := by
  simp [blockOnQueue]

theorem wakeWaiter_clear : Clear (k.wakeWaiter q) := by
  simp only [wakeWaiter, clear_bind, queueOut_clear, true_and]
  intro out found
  split <;> simp

theorem bufferCell_clear {mq : MessageQueue} {index : Int} (held : k.heap mq.buffer ≠ none) :
    Clear (k.bufferCell mq index) := by
  rw [bufferCell]
  split
  · next freed => exact absurd freed held
  · simp

theorem takeMessage_clear {fid : Nat} (held : ∀ mq, k.records q = some mq → k.heap mq.buffer ≠ none) :
    Clear (k.takeMessage fid q) := by
  simp only [takeMessage, clear_bind, record_clear, record_eq_ok, true_and]
  intro mq here
  refine ⟨bufferCell_clear (held mq here), fun cell _ => ⟨countBlockedProcess_clear, ?_⟩⟩
  intro blocked counted
  simp only [clear_ite, clear_bind, wakeWaiter_clear, clear_ok, implies_true, true_and, and_true]
  intro waking out woken
  split <;> simp

theorem storeMessage_clear {message : Int}
    (held : ∀ mq, k.records q = some mq → k.heap mq.buffer ≠ none) :
    Clear (k.storeMessage q message) := by
  simp only [storeMessage, clear_bind, record_clear, record_eq_ok, clear_ok, implies_true, and_true,
    true_and]
  intro mq here
  exact bufferCell_clear (held mq here)

theorem preceive_clear {fid : Int} (held : ∀ q mq, k.queues fid.toNat = some q →
    k.records q = some mq → k.heap mq.buffer ≠ none) : Clear (k.preceive fid) := by
  simp only [preceive, clear_bind, checkFidValidity_clear, true_and]
  intro entry valid
  split
  · simp
  · next q =>
    rcases checkFidValidity_eq_ok valid with ⟨-, absent⟩ | ⟨-, -, slot⟩
    · cases absent
    · simp only [clear_bind, clear_ite, record_clear, blockOnQueue_clear, implies_true, true_and]
      intro mq here filled
      exact takeMessage_clear fun mq' => held q mq' slot

theorem psend_clear {fid message : Int} (linked : k.Linked) (held : ∀ q mq,
    k.queues fid.toNat = some q → k.records q = some mq → k.heap mq.buffer ≠ none) :
    Clear (k.psend fid message) := by
  simp only [psend, clear_bind, checkFidValidity_clear, true_and]
  intro entry valid
  split
  · simp
  · next q =>
    rcases checkFidValidity_eq_ok valid with ⟨-, absent⟩ | ⟨-, -, slot⟩
    · cases absent
    · simp only [clear_bind, clear_ite, record_clear, countBlockedProcess_clear, wakeWaiter_clear,
        blockOnQueue_clear, clear_ok, implies_true, true_and, and_true]
      intro mq here blocked counted
      refine ⟨fun waiting out woken => ?_, fun _ room => storeMessage_clear fun mq' => held q mq' slot⟩
      obtain ⟨waiter, k₁⟩ := out
      obtain ⟨-, rfl⟩ := wakeWaiter_relink linked woken
      cases waiter with
      | none => exact ⟨storeMessage_clear fun mq' => held q mq' slot, fun k₂ stored => clear_ok⟩
      | some b => exact ⟨storeMessage_clear fun mq' => held q mq' slot, fun k₂ stored => clear_ok⟩

def Accesses (k : Kernel) (fid : Nat) (mq : MessageQueue) : Prop :=
  k.queues fid ≠ none ∧ mq.resetFlag = 0 ∧ (k.frame.receives = true → mq.nbMessages ≠ 0)

theorem continueWith_clear {f : Frame} (busy : f ≠ .user) (frame : k.frame = f)
    (held : ∀ fid q mq, f.queue = some (fid, q) → k.records q = some mq → k.Accesses fid mq →
      k.heap mq.buffer ≠ none) : Clear (k.continueWith f) := by
  cases f with
  | user => exact absurd rfl busy
  | done => exact clear_ok
  | start => exact startReturn_clear
  | exit => simp [continueWith]
  | waitpid => exact waitpidLoop_clear
  | waitForChild => exact waitForChildResumed_clear
  | preceive fid q =>
      simp only [continueWith, preceiveResumed, clear_bind, clear_ite, record_clear, record_eq_ok,
        clear_ok, implies_true, true_and, not_or, Decidable.not_not]
      rintro mq here ⟨slot, filled, flag⟩
      apply takeMessage_clear
      intro mq' again
      rw [here, Option.some.injEq] at again
      subst mq'
      exact held fid q mq rfl here ⟨slot, flag, fun _ => filled⟩
  | psend fid q message =>
      simp only [continueWith, psendResumed, clear_bind, clear_ite, record_clear, record_eq_ok,
        blockOnQueue_clear, clear_ok, implies_true, true_and, and_true, Decidable.not_not]
      intro mq here slot flag room
      apply storeMessage_clear
      intro mq' again
      rw [here, Option.some.injEq] at again
      subst mq'
      refine held fid q mq rfl here ⟨slot, flag, fun receives => ?_⟩
      rw [frame] at receives
      cases receives

theorem step_clear {e : Event} (linked : k.Linked) (stocked : k.Stocked)
    (held : ∀ fid q mq, k.frame.queue = some (fid, q) → k.records q = some mq →
      k.Accesses fid mq → k.heap mq.buffer ≠ none) : Clear (k.step e) := by
  have listed (fid : Nat) (q : Addr) (mq : MessageQueue) (slot : k.queues fid = some q)
      (here : k.records q = some mq) : k.heap mq.buffer ≠ none := by
    rw [stocked.queues fid q mq slot here]
    exact Option.some_ne_none _
  have finish {k : Kernel} {a : Addr} {n : Next} : Clear (k.finish a n) := by
    cases n with
    | ret => exact clear_ok
    | suspend => exact scheduling_clear
  simp only [step, clear_bind, active_clear, deref_clear, active_eq_ok, deref_eq_ok, finish,
    clear_ok, implies_true, true_and, and_true]
  intro a current p here
  cases e with
  | clockInterrupt => simp [segment, clockInterrupt]
  | resume =>
      by_cases busy : p.context = .user
      · simp [segment, busy, continueWith]
      · apply continueWith_clear busy (frame_eq current here)
        rw [← frame_eq current here]
        exact held
  | call c =>
      simp only [segment, clear_ite, clear_error, ne_eq, reduceCtorEq, not_false_eq_true,
        implies_true, and_true]
      intro idle
      cases c with
      | start => exact start_clear
      | exit => exact exit_clear
      | kill => exact kill_clear
      | waitpid => exact waitpid_clear
      | chprio => exact chprio_clear
      | getprio => simp [perform, getprio_clear]
      | waitClock => exact waitClock_clear
      | sleep => exact waitClock_clear
      | pcreate => exact pcreate_clear
      | pdelete => exact pdelete_clear
      | preset => exact preset_clear
      | pcount => exact pcount_clear
      | preceive fid => exact preceive_clear (listed fid.toNat)
      | psend fid => exact psend_clear linked (listed fid.toNat)

end Kernel

end IntelX86Kernel

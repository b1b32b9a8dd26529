import IntelX86Kernel.SchedulerCalls

/-! What each call of message_queue.c can do, in terms of `relink` and of the
records of the queues. -/

namespace IntelX86Kernel

namespace MessageQueue

def taken (mq : MessageQueue) : MessageQueue :=
  { mq with readIndex := (mq.readIndex + 1).tmod mq.bufferSize, nbMessages := mq.nbMessages - 1 }

def stored (mq : MessageQueue) (cell : Nat) (message : Int) : MessageQueue :=
  { mq with
    cells := Function.update mq.cells cell message
    writeIndex := (mq.writeIndex + 1).tmod mq.bufferSize
    nbMessages := mq.nbMessages + 1 }

def cleared (mq : MessageQueue) (blocked : Int) : MessageQueue :=
  { mq with readIndex := 0, writeIndex := 0, nbMessages := 0, resetFlag := blocked }

def unflagged (mq : MessageQueue) : MessageQueue :=
  { mq with resetFlag := toSigned (mq.resetFlag - 1) }

end MessageQueue

namespace Kernel

variable {k k' : Kernel} {a b q : Addr} {p : Proc} {mq : MessageQueue} {n : Next}

theorem setRecord_records (f : MessageQueue → MessageQueue) :
    (k.setRecord q f).records b = if b = q then (k.records q).map f else k.records b := by
  simp only [setRecord, Function.update_apply]

@[simp] theorem setRecord_procs (f : MessageQueue → MessageQueue) :
    (k.setRecord q f).procs = k.procs := rfl
@[simp] theorem setRecord_lists (f : MessageQueue → MessageQueue) :
    (k.setRecord q f).lists = k.lists := rfl
@[simp] theorem setRecord_processesTable (f : MessageQueue → MessageQueue) :
    (k.setRecord q f).processesTable = k.processesTable := rfl
@[simp] theorem setRecord_activePID (f : MessageQueue → MessageQueue) :
    (k.setRecord q f).activePID = k.activePID := rfl
@[simp] theorem setRecord_queues (f : MessageQueue → MessageQueue) :
    (k.setRecord q f).queues = k.queues := rfl
@[simp] theorem setRecord_heap (f : MessageQueue → MessageQueue) :
    (k.setRecord q f).heap = k.heap := rfl
@[simp] theorem setRecord_nextBlock (f : MessageQueue → MessageQueue) :
    (k.setRecord q f).nextBlock = k.nextBlock := rfl

theorem setRecord_congr {f f' : MessageQueue → MessageQueue} (here : k.records q = some mq)
    (same : f mq = f' mq) : k.setRecord q f = k.setRecord q f' := by
  simp [setRecord, here, same]

theorem setRecord_setRecord (f f' : MessageQueue → MessageQueue) :
    (k.setRecord q f).setRecord q f' = k.setRecord q fun mq => f' (f mq) := by
  simp [setRecord, Function.comp_def]

theorem Linked.setRecord (linked : k.Linked) (f : MessageQueue → MessageQueue) :
    (k.setRecord q f).Linked :=
  linked.of_eq rfl fun _ => rfl

theorem checkFidValidity_eq_ok {fid : Int} {entry : Option Addr}
    (run : k.checkFidValidity fid = .ok entry) :
    (fid < 0 ∧ entry = none) ∨
      (0 ≤ fid ∧ fid.toNat < NBQUEUE ∧ k.queues fid.toNat = entry) := by
  unfold checkFidValidity queueAt at run
  split at run
  · next negative => exact .inl ⟨negative, (Except.ok.inj run).symm⟩
  · split at run
    · next inside => exact .inr ⟨inside.1, by omega, Except.ok.inj run⟩
    · cases run

theorem checkFidValidity_none {fid : Int} (run : k.checkFidValidity fid = .ok none)
    (given : 0 ≤ fid) : k.queues fid.toNat = none := by
  rcases checkFidValidity_eq_ok run with ⟨negative, -⟩ | ⟨-, -, slot⟩
  · omega
  · exact slot

theorem countBlockedProcess_eq_ok {fid : Nat} {blocked : Int} :
    k.countBlockedProcess fid = .ok blocked ↔
      ∃ q mq, k.queues fid = some q ∧ k.records q = some mq ∧
        blocked = (k.lists (.queue q)).length := by
  unfold countBlockedProcess
  cases entry : k.queues fid with
  | none => simp
  | some q =>
      simp only [bind_eq_ok, record_eq_ok, Except.ok.injEq, Option.some.injEq]
      constructor
      · rintro ⟨mq, here, rfl⟩
        exact ⟨q, mq, rfl, here, rfl⟩
      · rintro ⟨_, mq, rfl, here, rfl⟩
        exact ⟨mq, here, rfl⟩

theorem blockOnQueue_eq {context : Frame} (linked : k.Linked)
    (run : k.blockOnQueue q context = .ok (k', n)) :
    ∃ a p, k.processesTable k.activePID = some a ∧ k.procs a = some p ∧ p.links = none ∧
      k' = k.relink a .blockedMessageQueue (.queue q) ∧ n = .suspend context := by
  simp only [blockOnQueue, bind_eq_ok, active_eq_ok, Except.ok.injEq, Prod.mk.injEq] at run
  obtain ⟨a, current, k₁, put, rfl, rfl⟩ := run
  obtain ⟨⟨p, here, links⟩, rfl⟩ := enqueue_relink linked rfl put
  exact ⟨a, p, current, here, links, rfl, rfl⟩

theorem storeMessage_eq {message : Int} (run : k.storeMessage q message = .ok k') :
    ∃ mq cell, k.records q = some mq ∧ k.bufferCell mq mq.writeIndex = .ok cell ∧
      k' = k.setRecord q fun mq => mq.stored cell message := by
  simp only [storeMessage, bind_eq_ok, record_eq_ok, Except.ok.injEq] at run
  obtain ⟨mq, here, cell, inside, rfl⟩ := run
  exact ⟨mq, cell, here, inside, rfl⟩

/-- `takeMessage` wakes the last waiter of `q` when `q` was full and waiters were
counted for the queue the table holds under `fid`. -/
theorem takeMessage_eq {fid : Nat} (linked : k.Linked)
    (run : k.takeMessage fid q = .ok (k', n)) :
    ∃ mq cell q', k.records q = some mq ∧ k.bufferCell mq mq.readIndex = .ok cell ∧
      k.queues fid = some q' ∧
      ((k' = k.setRecord q MessageQueue.taken ∧ n = .ret 0 (some (mq.cells cell)) ∧
          ¬ (k.lists (.queue q) ≠ [] ∧ k.lists (.queue q') ≠ [] ∧
            mq.nbMessages = mq.bufferSize)) ∨
        (∃ b, (k.lists (.queue q)).getLast? = some b ∧ mq.nbMessages = mq.bufferSize ∧
          k' = (k.setRecord q MessageQueue.taken).relink b .ready .ready ∧
          n = .suspend (.done 0 (some (mq.cells cell))))) := by
  simp only [takeMessage, bind_eq_ok, record_eq_ok, countBlockedProcess_eq_ok] at run
  obtain ⟨mq, here, cell, inside, blocked, ⟨q', mq', slot, -, rfl⟩, run⟩ := run
  have record : (k.setRecord q fun mq' =>
      { mq' with readIndex := (mq'.readIndex + 1).tmod mq'.bufferSize,
                 nbMessages := mq.nbMessages - 1 }) = k.setRecord q MessageQueue.taken :=
    setRecord_congr here rfl
  rw [record] at run
  refine ⟨mq, cell, q', here, inside, slot, ?_⟩
  split at run
  · next waking =>
    simp only [bind_eq_ok, Prod.exists] at run
    obtain ⟨waiter, k₁, woken, run⟩ := run
    obtain ⟨last, rfl⟩ := wakeWaiter_relink (linked.setRecord _) woken
    cases waiter with
    | none =>
        simp only [Except.ok.injEq, Prod.mk.injEq] at run
        obtain ⟨rfl, rfl⟩ := run
        exact .inl ⟨rfl, rfl, fun ⟨nonempty, _⟩ =>
          nonempty (List.getLast?_eq_none_iff.mp last.symm)⟩
    | some b =>
        simp only [Except.ok.injEq, Prod.mk.injEq] at run
        obtain ⟨rfl, rfl⟩ := run
        exact .inr ⟨b, last.symm, by omega, rfl, rfl⟩
  · next still =>
    simp only [Except.ok.injEq, Prod.mk.injEq] at run
    obtain ⟨rfl, rfl⟩ := run
    refine .inl ⟨rfl, rfl, fun ⟨_, nonempty, full⟩ => still ⟨?_, by omega⟩⟩
    simpa [List.length_pos_iff] using nonempty

theorem preceive_eq {fid : Int} (run : k.preceive fid = .ok (k', n)) :
    ((0 ≤ fid → k.queues fid.toNat = none) ∧ k' = k ∧ n = .ret (-1) none) ∨
      ∃ q mq, 0 ≤ fid ∧ k.queues fid.toNat = some q ∧ k.records q = some mq ∧
        ((mq.nbMessages = 0 ∧
            k.blockOnQueue q (.preceive fid.toNat q) = .ok (k', n)) ∨
          (mq.nbMessages ≠ 0 ∧ k.takeMessage fid.toNat q = .ok (k', n))) := by
  simp only [preceive, bind_eq_ok] at run
  obtain ⟨entry, valid, run⟩ := run
  cases entry with
  | none =>
      simp only [Except.ok.injEq, Prod.mk.injEq] at run
      exact .inl ⟨checkFidValidity_none valid, run.1.symm, run.2.symm⟩
  | some q =>
      simp only [bind_eq_ok, record_eq_ok] at run
      obtain ⟨mq, here, run⟩ := run
      rcases checkFidValidity_eq_ok valid with ⟨-, absent⟩ | ⟨inside, -, slot⟩
      · cases absent
      · refine .inr ⟨q, mq, inside, slot, here, ?_⟩
        split at run
        · next empty => exact .inl ⟨empty, run⟩
        · next some => exact .inr ⟨some, run⟩

theorem preceiveResumed_eq {fid : Nat} (run : k.preceiveResumed fid q = .ok (k', n)) :
    ∃ mq, k.records q = some mq ∧
      (((k.queues fid = none ∨ mq.nbMessages = 0 ∨ mq.resetFlag ≠ 0) ∧
          k' = k.setRecord q MessageQueue.unflagged ∧ n = .ret (-1) none) ∨
        (k.queues fid ≠ none ∧ mq.nbMessages ≠ 0 ∧ mq.resetFlag = 0 ∧
          k.takeMessage fid q = .ok (k', n))) := by
  simp only [preceiveResumed, bind_eq_ok, record_eq_ok] at run
  obtain ⟨mq, here, run⟩ := run
  refine ⟨mq, here, ?_⟩
  split at run
  · next failed =>
    simp only [Except.ok.injEq, Prod.mk.injEq] at run
    exact .inl ⟨failed, run.1.symm, run.2.symm⟩
  · next passed =>
    simp only [not_or, Decidable.not_not] at passed
    exact .inr ⟨passed.1, passed.2.1, passed.2.2, run⟩

theorem psend_eq {fid message : Int} (linked : k.Linked)
    (run : k.psend fid message = .ok (k', n)) :
    ((0 ≤ fid → k.queues fid.toNat = none) ∧ k' = k ∧ n = .ret (-1) none) ∨
      ∃ q mq, 0 ≤ fid ∧ k.queues fid.toNat = some q ∧ k.records q = some mq ∧
        ((∃ b, mq.nbMessages = 0 ∧ (k.lists (.queue q)).getLast? = some b ∧
            (k.relink b .ready .ready).storeMessage q message = .ok k' ∧
            n = .suspend (.done 0 none)) ∨
          (¬ (mq.nbMessages = 0 ∧ k.lists (.queue q) ≠ []) ∧
            mq.nbMessages = mq.bufferSize ∧
            k.blockOnQueue q (.psend fid.toNat q message) = .ok (k', n)) ∨
          (¬ (mq.nbMessages = 0 ∧ k.lists (.queue q) ≠ []) ∧
            mq.nbMessages ≠ mq.bufferSize ∧ k.storeMessage q message = .ok k' ∧
            n = .ret 0 none)) := by
  simp only [psend, bind_eq_ok] at run
  obtain ⟨entry, valid, run⟩ := run
  cases entry with
  | none =>
      simp only [Except.ok.injEq, Prod.mk.injEq] at run
      exact .inl ⟨checkFidValidity_none valid, run.1.symm, run.2.symm⟩
  | some q =>
      simp only [bind_eq_ok, record_eq_ok, countBlockedProcess_eq_ok] at run
      obtain ⟨mq, here, blocked, ⟨q', mq', slot', -, rfl⟩, run⟩ := run
      rcases checkFidValidity_eq_ok valid with ⟨-, absent⟩ | ⟨inside, -, slot⟩
      · cases absent
      rw [slot, Option.some.injEq] at slot'
      subst q'
      refine .inr ⟨q, mq, inside, slot, here, ?_⟩
      split at run
      · next waking =>
        simp only [bind_eq_ok, Prod.exists] at run
        obtain ⟨waiter, k₁, woken, k₂, put, run⟩ := run
        obtain ⟨last, rfl⟩ := wakeWaiter_relink linked woken
        cases waiter with
        | none =>
            have empty := List.getLast?_eq_none_iff.mp last.symm
            simp [empty] at waking
        | some b =>
            simp only [Except.ok.injEq, Prod.mk.injEq] at run
            obtain ⟨rfl, rfl⟩ := run
            exact .inl ⟨b, waking.1, last.symm, put, rfl⟩
      · next still =>
        have quiet : ¬ (mq.nbMessages = 0 ∧ k.lists (.queue q) ≠ []) := by
          rintro ⟨zero, nonempty⟩
          exact still ⟨zero, by simpa [List.length_pos_iff] using nonempty⟩
        split at run
        · next full => exact .inr (.inl ⟨quiet, full, run⟩)
        · next room =>
          simp only [bind_eq_ok, Except.ok.injEq, Prod.mk.injEq] at run
          obtain ⟨k₁, put, rfl, rfl⟩ := run
          exact .inr (.inr ⟨quiet, room, put, rfl⟩)

theorem psendResumed_eq {fid : Nat} {message : Int}
    (run : k.psendResumed fid q message = .ok (k', n)) :
    ∃ mq, k.records q = some mq ∧
      ((k.queues fid = none ∧ k' = k ∧ n = .ret (-1) none) ∨
        (k.queues fid ≠ none ∧ mq.resetFlag ≠ 0 ∧
          k' = k.setRecord q MessageQueue.unflagged ∧ n = .ret (-1) none) ∨
        (k.queues fid ≠ none ∧ mq.resetFlag = 0 ∧ mq.nbMessages = mq.bufferSize ∧
          k.blockOnQueue q (.psend fid q message) = .ok (k', n)) ∨
        (k.queues fid ≠ none ∧ mq.resetFlag = 0 ∧ mq.nbMessages ≠ mq.bufferSize ∧
          k.storeMessage q message = .ok k' ∧ n = .ret 0 none)) := by
  simp only [psendResumed, bind_eq_ok, record_eq_ok] at run
  obtain ⟨mq, here, run⟩ := run
  refine ⟨mq, here, ?_⟩
  split at run
  · next gone =>
    simp only [Except.ok.injEq, Prod.mk.injEq] at run
    exact .inl ⟨gone, run.1.symm, run.2.symm⟩
  · next slot =>
    split at run
    · next flagged =>
      simp only [Except.ok.injEq, Prod.mk.injEq] at run
      exact .inr (.inl ⟨slot, flagged, run.1.symm, run.2.symm⟩)
    · next clear =>
      have zero : mq.resetFlag = 0 := Decidable.not_not.mp clear
      split at run
      · next full => exact .inr (.inr (.inl ⟨slot, zero, full, run⟩))
      · next room =>
        simp only [bind_eq_ok, Except.ok.injEq, Prod.mk.injEq] at run
        obtain ⟨k₁, put, rfl, rfl⟩ := run
        exact .inr (.inr (.inr ⟨slot, zero, room, put, rfl⟩))

/-- All waiters of a queue moved to the ready list, the last one first. -/
inductive Unblocked (q : Addr) : Kernel → Kernel → Prop where
  | none {k : Kernel} (empty : k.lists (.queue q) = []) : Unblocked q k k
  | waiter {k k' : Kernel} {a : Addr} (last : (k.lists (.queue q)).getLast? = some a)
      (rest : Unblocked q (k.relink a .ready .ready) k') : Unblocked q k k'

theorem unblockLoop_eq {fuel : Nat} (linked : k.Linked)
    (run : unblockLoop q fuel k = .ok k') : Unblocked q k k' := by
  induction fuel generalizing k with
  | zero => cases run
  | succ fuel ih =>
      simp only [unblockLoop] at run
      cases last : (k.lists (.queue q)).getLast? with
      | none =>
          simp only [last, Except.ok.injEq] at run
          subst run
          exact .none (List.getLast?_eq_none_iff.mp last)
      | some a =>
          simp only [last, bind_eq_ok] at run
          obtain ⟨k₁, del, k₂, add, run⟩ := run
          obtain ⟨⟨p, g, here, links⟩, rfl⟩ := queueDel_unlink linked del
          obtain ⟨-, rfl⟩ := queueAdd_link (h := .ready) add
          rw [setStatus_link, setStatus_unlink, ← relink_eq] at run
          exact .waiter last (ih (linked.relink here) run)

theorem unblockProcesses_eq (linked : k.Linked) (run : k.unblockProcesses q = .ok k') :
    (∃ mq, k.records q = some mq) ∧ Unblocked q k k' := by
  simp only [unblockProcesses, bind_eq_ok, record_eq_ok] at run
  obtain ⟨mq, here, run⟩ := run
  exact ⟨⟨mq, here⟩, unblockLoop_eq linked run⟩

theorem Unblocked.same (unblocked : Unblocked q k k') :
    k'.records = k.records ∧ k'.queues = k.queues ∧ k'.heap = k.heap ∧
      k'.processesTable = k.processesTable ∧ k'.activePID = k.activePID ∧
      k'.queueCount = k.queueCount ∧ k'.nextBlock = k.nextBlock := by
  induction unblocked with
  | none empty => exact ⟨rfl, rfl, rfl, rfl, rfl, rfl, rfl⟩
  | waiter last rest ih => exact ih

theorem preset_eq {fid : Int} (linked : k.Linked) (run : k.preset fid = .ok (k', n)) :
    ((0 ≤ fid → k.queues fid.toNat = none) ∧ k' = k ∧ n = .ret (-1) none) ∨
      ∃ q mq, 0 ≤ fid ∧ k.queues fid.toNat = some q ∧ k.records q = some mq ∧
        Unblocked q (k.setRecord q fun mq => mq.cleared (k.lists (.queue q)).length) k' ∧
        n = .suspend (.done 0 none) := by
  simp only [preset, bind_eq_ok] at run
  obtain ⟨entry, valid, run⟩ := run
  cases entry with
  | none =>
      simp only [Except.ok.injEq, Prod.mk.injEq] at run
      exact .inl ⟨checkFidValidity_none valid, run.1.symm, run.2.symm⟩
  | some q =>
      simp only [bind_eq_ok, record_eq_ok, countBlockedProcess_eq_ok, Except.ok.injEq,
        Prod.mk.injEq, setRecord_setRecord] at run
      obtain ⟨mq, here, blocked, ⟨q', mq', slot', -, rfl⟩, k₁, freed, rfl, rfl⟩ := run
      rcases checkFidValidity_eq_ok valid with ⟨-, absent⟩ | ⟨inside, -, slot⟩
      · cases absent
      rw [setRecord_queues, slot, Option.some.injEq] at slot'
      subst q'
      obtain ⟨-, unblocked⟩ := unblockProcesses_eq (linked.setRecord _) freed
      exact .inr ⟨q, mq, inside, slot, here, unblocked, rfl⟩

theorem pdelete_eq {fid : Int} (linked : k.Linked) (run : k.pdelete fid = .ok (k', n)) :
    ((0 ≤ fid → k.queues fid.toNat = none) ∧ k' = k ∧ n = .ret (-1) none) ∨
      ∃ q mq k₁ heap, 0 ≤ fid ∧ k.queues fid.toNat = some q ∧ k.records q = some mq ∧
        Unblocked q k k₁ ∧ (∀ b, b ≠ mq.buffer → heap b = k.heap b) ∧
        k' = { k₁ with heap := heap, queues := Function.update k.queues fid.toNat none,
                       queueCount := k.queueCount - 1 } ∧
        n = .suspend (.done 0 none) := by
  simp only [pdelete, bind_eq_ok] at run
  obtain ⟨entry, valid, run⟩ := run
  cases entry with
  | none =>
      simp only [Except.ok.injEq, Prod.mk.injEq] at run
      exact .inl ⟨checkFidValidity_none valid, run.1.symm, run.2.symm⟩
  | some q =>
      simp only [bind_eq_ok, record_eq_ok, Except.ok.injEq, Prod.mk.injEq] at run
      obtain ⟨k₁, freed, mq, here, k₂, released, rfl, rfl⟩ := run
      rcases checkFidValidity_eq_ok valid with ⟨-, absent⟩ | ⟨inside, -, slot⟩
      · cases absent
      obtain ⟨-, unblocked⟩ := unblockProcesses_eq linked freed
      obtain ⟨records, queues, sameHeap, -, -, count, -⟩ := unblocked.same
      obtain ⟨heap, rfl, others⟩ := memFree_eq released
      rw [records] at here
      rw [sameHeap] at others
      refine .inr ⟨q, mq, k₁, heap, inside, slot, here, unblocked, others, ?_, rfl⟩
      rw [← queues, ← count]

theorem firstFreeFid_free (room : k.firstFreeFid ≠ NBQUEUE) :
    k.firstFreeFid < NBQUEUE ∧ k.queues k.firstFreeFid = none := by
  unfold firstFreeFid at room ⊢
  cases found : (List.range NBQUEUE).find? fun fid => (k.queues fid).isNone with
  | none => simp [found] at room
  | some fid =>
      have member := List.mem_of_find?_eq_some found
      have free := List.find?_some found
      exact ⟨by simpa using member, by simpa using free⟩

theorem memAlloc_none {granted : Bool} {length : Nat} (positive : 0 < length)
    (small : length ≤ 2147483647) (run : k.memAlloc granted length = none) : granted = false := by
  unfold memAlloc at run
  dsimp only at run
  split at run
  · next refused =>
    rcases refused with zero | wraps | refused
    · exact absurd zero (Nat.ne_of_gt positive)
    · omega
    · exact refused
  · cases run

theorem memAlloc_some {granted : Bool} {length : Nat}
    (run : k.memAlloc granted length = some (k', a)) : granted = true := by
  cases granted with
  | true => rfl
  | false => simp [memAlloc] at run

/-- The record and the table entry `pcreate` adds; without a buffer the entry stays. -/
theorem pcreate_eq {count : Int} {recordGranted bufferGranted : Bool}
    (run : k.pcreate count recordGranted bufferGranted = .ok (k', n)) :
    ((0 < count → count ≤ 536870911 → k.queueCount < NBQUEUE → recordGranted = false) ∧
        k' = k ∧ n = .ret (-1) none) ∨
      (0 < count ∧ count ≤ 536870911 ∧ k.queueCount < NBQUEUE ∧ recordGranted = true ∧
        k.firstFreeFid < NBQUEUE ∧ k.queues k.firstFreeFid = none ∧
        ((bufferGranted = false ∧ k' = { k with
                heap := Function.update k.heap k.nextBlock (some sizeofMessageQueue)
                nextBlock := k.nextBlock + 1
                queues := Function.update k.queues k.firstFreeFid (some k.nextBlock) } ∧
            n = .ret (-1) none) ∨
          (bufferGranted = true ∧ k' = { k with
                heap := Function.update
                  (Function.update k.heap k.nextBlock (some sizeofMessageQueue))
                  (k.nextBlock + 1) (some (4 * count.toNat % 2 ^ 32))
                nextBlock := k.nextBlock + 2
                queues := Function.update k.queues k.firstFreeFid (some k.nextBlock)
                records := Function.update k.records k.nextBlock (some
                  { bufferSize := count, buffer := k.nextBlock + 1, cells := fun _ => 0,
                    readIndex := 0, writeIndex := 0, nbMessages := 0, resetFlag := 0 })
                lists := Function.update k.lists (.queue k.nextBlock) []
                queueCount := k.queueCount + 1 } ∧
            n = .ret k.firstFreeFid none))) := by
  unfold pcreate at run
  split at run
  · next refused =>
    simp only [Except.ok.injEq, Prod.mk.injEq] at run
    refine .inl ⟨fun positive bounded room => ?_, run.1.symm, run.2.symm⟩
    omega
  · next accepted =>
    have bounds : 0 < count ∧ count ≤ 536870911 ∧ k.queueCount < NBQUEUE := by omega
    cases first : k.memAlloc recordGranted sizeofMessageQueue with
    | none =>
        simp only [first, Except.ok.injEq, Prod.mk.injEq] at run
        have refused := memAlloc_none (by decide) (by decide) first
        exact .inl ⟨fun _ _ _ => refused, run.1.symm, run.2.symm⟩
    | some block =>
        obtain ⟨k₁, q⟩ := block
        simp only [first] at run
        have granted := memAlloc_some first
        obtain ⟨rfl, -, rfl⟩ := memAlloc_eq first
        split at run
        · cases run
        · next room =>
          obtain ⟨small, free⟩ := firstFreeFid_free (k := k) room
          refine .inr ⟨bounds.1, bounds.2.1, bounds.2.2, granted, small, free, ?_⟩
          split at run
          · next second =>
            simp only [Except.ok.injEq, Prod.mk.injEq] at run
            have refused : bufferGranted = false := by
              refine memAlloc_none ?_ ?_ second <;> rw [sizeofInt] <;> omega
            exact .inl ⟨refused, run.1.symm, run.2.symm⟩
          · next k₂ buffer second =>
            have granted' := memAlloc_some second
            obtain ⟨rfl, -, rfl⟩ := memAlloc_eq second
            simp only [Except.ok.injEq, Prod.mk.injEq] at run
            obtain ⟨rfl, rfl⟩ := run
            exact .inr ⟨granted', rfl, rfl⟩

theorem pcount_eq {fid : Int} {count : Bool} (run : k.pcount fid count = .ok (k', n)) :
    k' = k ∧ ∃ value out, n = .ret value out := by
  simp only [pcount, bind_eq_ok] at run
  obtain ⟨entry, -, run⟩ := run
  cases entry with
  | none =>
      simp only [Except.ok.injEq, Prod.mk.injEq] at run
      exact ⟨run.1.symm, _, _, run.2.symm⟩
  | some q =>
      simp only at run
      split at run
      · simp only [bind_eq_ok, Except.ok.injEq, Prod.mk.injEq] at run
        obtain ⟨-, -, -, -, rfl, rfl⟩ := run
        exact ⟨rfl, _, _, rfl⟩
      · simp only [Except.ok.injEq, Prod.mk.injEq] at run
        exact ⟨run.1.symm, _, _, run.2.symm⟩

end Kernel

end IntelX86Kernel

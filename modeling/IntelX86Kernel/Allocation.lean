import IntelX86Kernel.Stability
import IntelX86Kernel.Tally

/-! Which blocks are allocated: those of the live processes and of the queues in the table. -/

namespace IntelX86Kernel

namespace Kernel

variable {k k' : Kernel} {a b q : Addr} {p : Proc} {mq : MessageQueue} {n : Next} {m : Mover}

structure Layout (k k' : Kernel) : Prop where
  stack : ∀ a, (k'.procs a).map Proc.stack = (k.procs a).map Proc.stack
  buffers : ∀ q, (k'.records q).map (fun mq => (mq.buffer, mq.bufferSize)) =
    (k.records q).map fun mq => (mq.buffer, mq.bufferSize)
  queues : k'.queues = k.queues
  queueCount : k'.queueCount = k.queueCount
  heap : ∀ b < k.nextBlock, k'.heap b = k.heap b
  next : k.nextBlock ≤ k'.nextBlock

theorem Layout.refl (k : Kernel) : Layout k k :=
  ⟨fun _ => rfl, fun _ => rfl, rfl, rfl, fun _ _ => rfl, le_rfl⟩

theorem Layout.trans {k'' : Kernel} (first : Layout k k') (second : Layout k' k'') :
    Layout k k'' where
  stack a := (second.stack a).trans (first.stack a)
  buffers q := (second.buffers q).trans (first.buffers q)
  queues := second.queues.trans first.queues
  queueCount := second.queueCount.trans first.queueCount
  heap b old := (second.heap b (old.trans_le first.next)).trans (first.heap b old)
  next := first.next.trans second.next

theorem Layout.setProc {f : Proc → Proc} (same : ∀ p, (f p).stack = p.stack) :
    Layout k (k.setProc a f) where
  stack b := by
    rw [setProc_procs]
    split
    · next equal =>
      rw [equal]
      cases k.procs a <;> simp [same]
    · rfl
  buffers _ := rfl
  queues := rfl
  queueCount := rfl
  heap _ _ := rfl
  next := le_rfl

theorem Layout.relink {s : Status} {h : Head} : Layout k (k.relink a s h) where
  stack b := by
    rw [relink_procs]
    split
    · next same =>
      rw [same]
      cases k.procs a <;> rfl
    · rfl
  buffers _ := rfl
  queues := rfl
  queueCount := rfl
  heap _ _ := rfl
  next := le_rfl

theorem Layout.setRecord {f : MessageQueue → MessageQueue}
    (same : ∀ mq, (f mq).buffer = mq.buffer ∧ (f mq).bufferSize = mq.bufferSize) :
    Layout k (k.setRecord q f) where
  stack _ := rfl
  buffers b := by
    rw [setRecord_records]
    split
    · next equal =>
      rw [equal]
      cases k.records q <;> simp [same]
    · rfl
  queues := rfl
  queueCount := rfl
  heap _ _ := rfl
  next := le_rfl

theorem Unblocked.layout (unblocked : Unblocked q k k') : Layout k k' := by
  induction unblocked with
  | none empty => exact .refl _
  | waiter last rest ih => exact Layout.relink.trans ih

/-- The event is a `pcreate` that gets its first block and is refused its second. -/
def halvesQueue (k : Kernel) : Event → Bool
  | .call (.pcreate count recordGranted bufferGranted) =>
      decide (0 < count ∧ count ≤ 536870911 ∧ k.queueCount < NBQUEUE) && recordGranted &&
        !bufferGranted
  | _ => false

/-- What a call about queues does to the table of queues and to the blocks. -/
inductive Supply (e : Event) (k k' : Kernel) : Prop where
  | same (layout : Layout k k')
  | deleted {fid : Nat} {q : Addr} {mq : MessageQueue} {k₁ : Kernel} {heap : Addr → Option Nat}
      (slot : k.queues fid = some q) (here : k.records q = some mq) (before : Layout k k₁)
      (kept : ∀ b, b ≠ mq.buffer → heap b = k.heap b)
      (same : k' = { k₁ with heap := heap, queues := Function.update k.queues fid none,
                             queueCount := k.queueCount - 1 })
  | half (halved : k.halvesQueue e = true) (small : k.firstFreeFid < NBQUEUE)
      (free : k.queues k.firstFreeFid = none)
      (same : k' = { k with
        heap := Function.update k.heap k.nextBlock (some sizeofMessageQueue)
        nextBlock := k.nextBlock + 1
        queues := Function.update k.queues k.firstFreeFid (some k.nextBlock) })
  | created {count : Int} (positive : 0 < count) (bounded : count ≤ 536870911)
      (small : k.firstFreeFid < NBQUEUE) (free : k.queues k.firstFreeFid = none)
      (same : k' = { k with
        heap := Function.update (Function.update k.heap k.nextBlock (some sizeofMessageQueue))
          (k.nextBlock + 1) (some (4 * count.toNat % 2 ^ 32))
        nextBlock := k.nextBlock + 2
        queues := Function.update k.queues k.firstFreeFid (some k.nextBlock)
        records := Function.update k.records k.nextBlock (some
          { bufferSize := count, buffer := k.nextBlock + 1, cells := fun _ => 0,
            readIndex := 0, writeIndex := 0, nbMessages := 0, resetFlag := 0 })
        lists := Function.update k.lists (.queue k.nextBlock) []
        queueCount := k.queueCount + 1 })

theorem storeMessage_layout {message : Int} (run : k.storeMessage q message = .ok k') :
    Layout k k' := by
  obtain ⟨mq, cell, -, -, rfl⟩ := storeMessage_eq run
  exact .setRecord fun _ => ⟨rfl, rfl⟩

theorem takeMessage_layout {fid : Nat} (linked : k.Linked)
    (run : k.takeMessage fid q = .ok (k', n)) : Layout k k' := by
  have taken : Layout k (k.setRecord q MessageQueue.taken) := .setRecord fun _ => ⟨rfl, rfl⟩
  obtain ⟨mq, cell, q', -, -, -, ⟨rfl, -, -⟩ | ⟨b, -, -, rfl, -⟩⟩ := takeMessage_eq linked run
  · exact taken
  · exact taken.trans .relink

theorem blockOnQueue_layout {context : Frame} (linked : k.Linked)
    (run : k.blockOnQueue q context = .ok (k', n)) : Layout k k' := by
  obtain ⟨a, p, -, -, -, rfl, -⟩ := blockOnQueue_eq linked run
  exact .relink

theorem perform_supply {c : Call} (linked : k.Linked) (kind : c.kind = .queues)
    (run : k.perform c = .ok (k', n)) : Supply (.call c) k k' := by
  cases c with
  | start | exit | kill | waitpid | chprio | getprio | waitClock | sleep => cases kind
  | pcreate count recordGranted bufferGranted =>
      rcases pcreate_eq run with ⟨-, rfl, -⟩ |
        ⟨positive, bounded, room, first, small, free, ⟨second, same, -⟩ | ⟨-, same, -⟩⟩
      · exact .same (.refl _)
      · refine .half ?_ small free same
        simp [halvesQueue, positive, bounded, room, first, second]
      · exact .created positive bounded small free same
  | pdelete fid =>
      rcases pdelete_eq linked run with ⟨-, rfl, -⟩ |
        ⟨q, mq, k₁, heap, -, slot, here, unblocked, kept, same, -⟩
      · exact .same (.refl _)
      · exact .deleted slot here unblocked.layout kept same
  | preset fid =>
      rcases preset_eq linked run with ⟨-, rfl, -⟩ | ⟨q, mq, -, -, -, unblocked, -⟩
      · exact .same (.refl _)
      · have cleared : Layout k (k.setRecord q fun mq =>
            mq.cleared (k.lists (.queue q)).length) := .setRecord fun _ => ⟨rfl, rfl⟩
        exact .same (cleared.trans unblocked.layout)
  | pcount fid count =>
      obtain ⟨rfl, -⟩ := pcount_eq run
      exact .same (.refl _)
  | preceive fid =>
      rcases preceive_eq run with ⟨-, rfl, -⟩ | ⟨q, mq, -, -, -, ⟨-, run⟩ | ⟨-, run⟩⟩
      · exact .same (.refl _)
      · exact .same (blockOnQueue_layout linked run)
      · exact .same (takeMessage_layout linked run)
  | psend fid message =>
      rcases psend_eq linked run with ⟨-, rfl, -⟩ |
        ⟨q, mq, -, -, -, ⟨b, -, -, run, -⟩ | ⟨-, -, run⟩ | ⟨-, -, run, -⟩⟩
      · exact .same (.refl _)
      · exact .same (Layout.relink.trans (storeMessage_layout run))
      · exact .same (blockOnQueue_layout linked run)
      · exact .same (storeMessage_layout run)

theorem segment_supply {context : Frame} {e : Event} (linked : k.Linked)
    (kind : e.kind context = .queues) (run : k.segment context e = .ok (k', n)) :
    Supply e k k' := by
  cases e with
  | clockInterrupt => cases kind
  | call c =>
      simp only [segment] at run
      split at run
      · exact perform_supply linked kind run
      · cases run
  | resume =>
      cases context with
      | user | done | start | exit | waitpid | waitForChild => cases kind
      | preceive fid q =>
          obtain ⟨mq, -, ⟨-, rfl, -⟩ | ⟨-, -, -, run⟩⟩ := preceiveResumed_eq run
          · exact .same (.setRecord fun _ => ⟨rfl, rfl⟩)
          · exact .same (takeMessage_layout linked run)
      | psend fid q message =>
          obtain ⟨mq, -, ⟨-, rfl, -⟩ | ⟨-, -, rfl, -⟩ | ⟨-, -, -, run⟩ | ⟨-, -, -, run, -⟩⟩ :=
            psendResumed_eq run
          · exact .same (.refl _)
          · exact .same (.setRecord fun _ => ⟨rfl, rfl⟩)
          · exact .same (blockOnQueue_layout linked run)
          · exact .same (storeMessage_layout run)

/-- A block that holds a process or a queue; the next one is its stack or its buffer. -/
def Holds (k : Kernel) (a : Addr) : Prop :=
  (∃ p, k.procs a = some p) ∨ ∃ mq, k.records a = some mq

/-- The blocks in use are apart from each other and have the right lengths. -/
structure Stocked (k : Kernel) : Prop where
  procs : ∀ a p, k.procs a = some p → p.stack = a + 1 ∧ k.heap a = some sizeofProc
  buffers : ∀ q mq, k.records q = some mq →
    mq.buffer = q + 1 ∧ 0 < mq.bufferSize ∧ mq.bufferSize ≤ 536870911
  queues : ∀ i q mq, k.queues i = some q → k.records q = some mq →
    k.heap mq.buffer = some (4 * mq.bufferSize.toNat)
  slots : ∀ i j q, k.queues i = some q → k.queues j = some q → i = j
  known : ∀ i q, k.queues i = some q → i < NBQUEUE ∧ q < k.nextBlock
  room : ∀ a, k.Holds a → a + 1 < k.nextBlock
  apart : ∀ a b, k.Holds a → k.Holds b → b ≠ a + 1
  kinds : ∀ a p mq, k.procs a = some p → k.records a = some mq → False

theorem Stocked.buffer_apart (stocked : k.Stocked) (here : k.records q = some mq)
    (there : k.procs a = some p) : mq.buffer ≠ a ∧ mq.buffer ≠ p.stack := by
  have buffer := (stocked.buffers q mq here).1
  have stack := (stocked.procs a p there).1
  have apart := stocked.apart q a (.inr ⟨mq, here⟩) (.inl ⟨p, there⟩)
  have other : q ≠ a := by
    intro same
    subst same
    exact stocked.kinds q p mq there here
  rw [buffer, stack]
  exact ⟨Ne.symm apart, fun same => other (Nat.succ.inj same)⟩

theorem Layout.stocked (layout : Layout k k') (stocked : k.Stocked) : k'.Stocked := by
  have procs (a : Addr) (p' : Proc) (there : k'.procs a = some p') :
      ∃ p, k.procs a = some p ∧ p.stack = p'.stack := by
    have same := layout.stack a
    rw [there, Option.map_some] at same
    exact Option.map_eq_some_iff.mp same.symm
  have records (q : Addr) (mq' : MessageQueue) (there : k'.records q = some mq') :
      ∃ mq, k.records q = some mq ∧ mq.buffer = mq'.buffer ∧ mq.bufferSize = mq'.bufferSize := by
    have same := layout.buffers q
    rw [there, Option.map_some] at same
    obtain ⟨mq, here, equal⟩ := Option.map_eq_some_iff.mp same.symm
    exact ⟨mq, here, congrArg Prod.fst equal, congrArg Prod.snd equal⟩
  have holds (a : Addr) (held : k'.Holds a) : k.Holds a := by
    rcases held with ⟨p', there⟩ | ⟨mq', there⟩
    · obtain ⟨p, here, -⟩ := procs a p' there
      exact .inl ⟨p, here⟩
    · obtain ⟨mq, here, -⟩ := records a mq' there
      exact .inr ⟨mq, here⟩
  constructor
  · intro a p' there
    obtain ⟨p, here, stack⟩ := procs a p' there
    obtain ⟨placed, own⟩ := stocked.procs a p here
    have old := Nat.lt_of_succ_lt (stocked.room a (.inl ⟨p, here⟩))
    exact ⟨stack ▸ placed, (layout.heap a old).trans own⟩
  · intro q mq' there
    obtain ⟨mq, here, buffer, size⟩ := records q mq' there
    rw [← buffer, ← size]
    exact stocked.buffers q mq here
  · intro i q mq' slot there
    obtain ⟨mq, here, buffer, size⟩ := records q mq' there
    rw [layout.queues] at slot
    have placed := (stocked.buffers q mq here).1
    have old := stocked.room q (.inr ⟨mq, here⟩)
    rw [← buffer, ← size, layout.heap _ (placed ▸ old)]
    exact stocked.queues i q mq slot here
  · rw [layout.queues]
    exact stocked.slots
  · intro i q slot
    rw [layout.queues] at slot
    obtain ⟨small, old⟩ := stocked.known i q slot
    exact ⟨small, old.trans_le layout.next⟩
  · exact fun a held => (stocked.room a (holds a held)).trans_le layout.next
  · exact fun a b first second => stocked.apart a b (holds a first) (holds b second)
  · intro a p' mq' there also
    obtain ⟨p, here, -⟩ := procs a p' there
    obtain ⟨mq, held, -⟩ := records a mq' also
    exact stocked.kinds a p mq here held

theorem Stocked.relink {s : Status} {h : Head} (stocked : k.Stocked) :
    (k.relink a s h).Stocked := Layout.relink.stocked stocked

theorem Stocked.setProc {f : Proc → Proc} (stocked : k.Stocked)
    (same : ∀ p, (f p).stack = p.stack) : (k.setProc a f).Stocked :=
  (Layout.setProc same).stocked stocked

theorem Stocked.delete {fid : Nat} {heap : Addr → Option Nat} (count : Int)
    (stocked : k.Stocked) (slot : k.queues fid = some q) (here : k.records q = some mq)
    (kept : ∀ b, b ≠ mq.buffer → heap b = k.heap b) :
    ({ k with heap := heap, queues := Function.update k.queues fid none,
              queueCount := count } : Kernel).Stocked := by
  have slots (i : Nat) (q' : Addr) (held : Function.update k.queues fid none i = some q') :
      k.queues i = some q' ∧ q' ≠ q := by
    rw [Function.update_apply] at held
    split at held
    · cases held
    · next other =>
      refine ⟨held, fun same => other ?_⟩
      exact stocked.slots i fid q (same ▸ held) slot
  constructor
  · intro a p there
    obtain ⟨placed, own⟩ := stocked.procs a p there
    exact ⟨placed, (kept a (stocked.buffer_apart here there).1.symm).trans own⟩
  · exact stocked.buffers
  · intro i q' mq' held there
    obtain ⟨held, other⟩ := slots i q' held
    have apart : mq'.buffer ≠ mq.buffer := by
      rw [(stocked.buffers q' mq' there).1, (stocked.buffers q mq here).1]
      exact fun same => other (Nat.succ.inj same)
    exact (kept _ apart).trans (stocked.queues i q' mq' held there)
  · intro i j q' first second
    exact stocked.slots i j q' (slots i q' first).1 (slots j q' second).1
  · exact fun i q' held => stocked.known i q' (slots i q' held).1
  · exact stocked.room
  · exact stocked.apart
  · exact stocked.kinds

theorem Stocked.half {fid length : Nat} (stocked : k.Stocked) (small : fid < NBQUEUE)
    (fresh : k.records k.nextBlock = none) :
    ({ k with heap := Function.update k.heap k.nextBlock (some length)
              nextBlock := k.nextBlock + 1
              queues := Function.update k.queues fid (some k.nextBlock) } : Kernel).Stocked := by
  have old (b : Addr) (before : b < k.nextBlock) :
      Function.update k.heap k.nextBlock (some length) b = k.heap b :=
    Function.update_of_ne (Nat.ne_of_lt before) _ _
  have slots (i : Nat) (q : Addr)
      (held : Function.update k.queues fid (some k.nextBlock) i = some q) :
      i = fid ∧ q = k.nextBlock ∨ k.queues i = some q ∧ q < k.nextBlock := by
    rw [Function.update_apply] at held
    split at held
    · next same => exact .inl ⟨same, (Option.some.inj held).symm⟩
    · exact .inr ⟨held, (stocked.known i q held).2⟩
  constructor
  · intro a p there
    obtain ⟨placed, own⟩ := stocked.procs a p there
    exact ⟨placed, (old a (Nat.lt_of_succ_lt (stocked.room a (.inl ⟨p, there⟩)))).trans own⟩
  · exact stocked.buffers
  · intro i q mq held there
    rcases slots i q held with ⟨-, rfl⟩ | ⟨held, -⟩
    · rw [fresh] at there
      cases there
    · have placed := (stocked.buffers q mq there).1
      have before := stocked.room q (.inr ⟨mq, there⟩)
      exact (old _ (placed ▸ before)).trans (stocked.queues i q mq held there)
  · intro i j q first second
    rcases slots i q first with ⟨one, new⟩ | ⟨first, before⟩
    · rcases slots j q second with ⟨two, -⟩ | ⟨-, before⟩
      · exact one.trans two.symm
      · exact absurd new (Nat.ne_of_lt before)
    · rcases slots j q second with ⟨-, new⟩ | ⟨second, -⟩
      · exact absurd new (Nat.ne_of_lt before)
      · exact stocked.slots i j q first second
  · intro i q held
    rcases slots i q held with ⟨rfl, rfl⟩ | ⟨held, before⟩
    · exact ⟨small, Nat.lt_succ_self _⟩
    · exact ⟨(stocked.known i q held).1, Nat.lt_succ_of_lt before⟩
  · exact fun a held => Nat.lt_succ_of_lt (stocked.room a held)
  · exact stocked.apart
  · exact stocked.kinds

theorem Stocked.new_apart (stocked : k.Stocked) (holds : ∀ c, k'.Holds c → c ≠ k.nextBlock → k.Holds c)
    (a b : Addr) (first : k'.Holds a) (second : k'.Holds b) : b ≠ a + 1 := by
  intro same
  by_cases left : a = k.nextBlock
  · have other : b ≠ k.nextBlock := by
      rw [same, left]
      exact Nat.succ_ne_self _
    have before := stocked.room b (holds b second other)
    rw [same, left] at before
    exact Nat.lt_irrefl _ (Nat.lt_of_succ_lt (Nat.lt_of_succ_lt before))
  · have held := holds a first left
    have before := stocked.room a held
    have other : b ≠ k.nextBlock := same ▸ Nat.ne_of_lt before
    exact stocked.apart a b held (holds b second other) same

theorem Stocked.create {fid : Nat} (mq : MessageQueue) {lists : Head → List Addr} {count : Int}
    (stocked : k.Stocked) (small : fid < NBQUEUE) (absent : k.procs k.nextBlock = none)
    (buffer : mq.buffer = k.nextBlock + 1) (positive : 0 < mq.bufferSize)
    (bounded : mq.bufferSize ≤ 536870911) :
    ({ k with
        heap := Function.update (Function.update k.heap k.nextBlock (some sizeofMessageQueue))
          (k.nextBlock + 1) (some (4 * mq.bufferSize.toNat % 2 ^ 32))
        nextBlock := k.nextBlock + 2
        queues := Function.update k.queues fid (some k.nextBlock)
        records := Function.update k.records k.nextBlock (some mq)
        lists := lists
        queueCount := count } : Kernel).Stocked := by
  have old (b : Addr) (before : b < k.nextBlock) :
      Function.update (Function.update k.heap k.nextBlock (some sizeofMessageQueue))
        (k.nextBlock + 1) (some (4 * mq.bufferSize.toNat % 2 ^ 32)) b = k.heap b := by
    rw [Function.update_of_ne (Nat.ne_of_lt (Nat.lt_succ_of_lt before)),
      Function.update_of_ne (Nat.ne_of_lt before)]
  have slots (i : Nat) (q : Addr)
      (held : Function.update k.queues fid (some k.nextBlock) i = some q) :
      i = fid ∧ q = k.nextBlock ∨ k.queues i = some q ∧ q < k.nextBlock := by
    rw [Function.update_apply] at held
    split at held
    · next same => exact .inl ⟨same, (Option.some.inj held).symm⟩
    · exact .inr ⟨held, (stocked.known i q held).2⟩
  have records (q : Addr) (mq' : MessageQueue)
      (there : Function.update k.records k.nextBlock (some mq) q = some mq') :
      q = k.nextBlock ∧ mq' = mq ∨ k.records q = some mq' ∧ q + 1 < k.nextBlock := by
    rw [Function.update_apply] at there
    split at there
    · next same => exact .inl ⟨same, (Option.some.inj there).symm⟩
    · exact .inr ⟨there, stocked.room q (.inr ⟨mq', there⟩)⟩
  have length : 4 * mq.bufferSize.toNat % 2 ^ 32 = 4 * mq.bufferSize.toNat := by omega
  constructor
  · intro a p there
    obtain ⟨placed, own⟩ := stocked.procs a p there
    exact ⟨placed, (old a (Nat.lt_of_succ_lt (stocked.room a (.inl ⟨p, there⟩)))).trans own⟩
  · intro q mq' there
    rcases records q mq' there with ⟨rfl, rfl⟩ | ⟨there, -⟩
    · exact ⟨buffer, positive, bounded⟩
    · exact stocked.buffers q mq' there
  · intro i q mq' held there
    rcases records q mq' there with ⟨rfl, rfl⟩ | ⟨there, before⟩
    · dsimp only
      rw [buffer, Function.update_self, length]
    · rcases slots i q held with ⟨-, rfl⟩ | ⟨held, -⟩
      · exact absurd before (Nat.not_lt.mpr (Nat.le_succ _))
      · have placed := (stocked.buffers q mq' there).1
        exact (old _ (placed ▸ before)).trans (stocked.queues i q mq' held there)
  · intro i j q first second
    rcases slots i q first with ⟨one, new⟩ | ⟨first, before⟩
    · rcases slots j q second with ⟨two, -⟩ | ⟨-, before⟩
      · exact one.trans two.symm
      · exact absurd new (Nat.ne_of_lt before)
    · rcases slots j q second with ⟨-, new⟩ | ⟨second, -⟩
      · exact absurd new (Nat.ne_of_lt before)
      · exact stocked.slots i j q first second
  · intro i q held
    rcases slots i q held with ⟨rfl, rfl⟩ | ⟨held, before⟩
    · exact ⟨small, Nat.lt_add_of_pos_right Nat.two_pos⟩
    · exact ⟨(stocked.known i q held).1, before.trans (Nat.lt_add_of_pos_right Nat.two_pos)⟩
  · rintro a (⟨p, there⟩ | ⟨mq', there⟩)
    · exact (stocked.room a (.inl ⟨p, there⟩)).trans (Nat.lt_add_of_pos_right Nat.two_pos)
    · rcases records a mq' there with ⟨rfl, -⟩ | ⟨-, before⟩
      · exact Nat.lt_succ_self _
      · exact before.trans (Nat.lt_add_of_pos_right Nat.two_pos)
  · refine stocked.new_apart fun c held other => ?_
    rcases held with ⟨p, there⟩ | ⟨mq', there⟩
    · exact .inl ⟨p, there⟩
    · rcases records c mq' there with ⟨same, -⟩ | ⟨there, -⟩
      · exact absurd same other
      · exact .inr ⟨mq', there⟩
  · intro a p mq' there also
    rcases records a mq' also with ⟨rfl, -⟩ | ⟨also, -⟩
    · have none : k.procs k.nextBlock = some p := there
      rw [absent] at none
      cases none
    · exact stocked.kinds a p mq' there also

theorem Supply.stocked {e : Event} (supply : Supply e k k') (stocked : k.Stocked)
    (fresh : k.procs k.nextBlock = none ∧ k.records k.nextBlock = none) : k'.Stocked := by
  cases supply with
  | same layout => exact layout.stocked stocked
  | @deleted fid q mq k₁ heap slot here before kept same =>
      have base := stocked.delete (k.queueCount - 1) slot here kept
      have moved : Layout { k with heap := heap, queues := Function.update k.queues fid none,
                                   queueCount := k.queueCount - 1 } k' := by
        subst same
        exact ⟨before.stack, before.buffers, rfl, rfl, fun _ _ => rfl, before.next⟩
      exact moved.stocked base
  | half halved small free same =>
      subst same
      exact stocked.half small fresh.2
  | @created count positive bounded small free same =>
      let mq : MessageQueue :=
        { bufferSize := count, buffer := k.nextBlock + 1, cells := fun _ => 0,
          readIndex := 0, writeIndex := 0, nbMessages := 0, resetFlag := 0 }
      subst same
      exact stocked.create mq small fresh.1 rfl positive bounded

theorem Stocked.birth {k₁ : Kernel} {pid : Nat} {heap : Addr → Option Nat}
    (stocked : k.Stocked) (fresh : k.records k.nextBlock = none)
    (stack : p.stack = k.nextBlock + 1)
    (kept : ∀ b < k.nextBlock, heap b = k.heap b) (own : heap k.nextBlock = some sizeofProc)
    (joined : k₁ = k.born pid p heap ∨
      ∃ b placed, k₁ = (k.born pid p heap).join k.nextBlock b placed) :
    (k₁.link k.nextBlock .ready).counted.Stocked := by
  obtain ⟨⟨g, same, procs⟩, -, -, records, next, -⟩ := birth_procs joined
  have others : k₁.queues = k.queues ∧ k₁.heap = heap := by
    rcases joined with rfl | ⟨b, placed, rfl⟩ <;> exact ⟨rfl, rfl⟩
  have live (a : Addr) (p' : Proc)
      (there : (k₁.link k.nextBlock .ready).counted.procs a = some p') :
      a = k.nextBlock ∧ p'.stack = a + 1 ∨ ∃ p, k.procs a = some p ∧ p'.stack = p.stack := by
    rw [procs] at there
    split at there
    · next new =>
      cases there
      exact .inl ⟨new, (same a p).stack.trans (new ▸ stack)⟩
    · obtain ⟨p₀, here, rfl⟩ := Option.map_eq_some_iff.mp there
      exact .inr ⟨p₀, here, (same a p₀).stack⟩
  have below (a : Addr) (held : k.Holds a) : a < k.nextBlock :=
    Nat.lt_of_succ_lt (stocked.room a held)
  have holds (c : Addr) (held : (k₁.link k.nextBlock .ready).counted.Holds c)
      (other : c ≠ k.nextBlock) : k.Holds c := by
    rcases held with ⟨p', there⟩ | ⟨mq, there⟩
    · rcases live c p' there with ⟨new, -⟩ | ⟨p, here, -⟩
      · exact absurd new other
      · exact .inl ⟨p, here⟩
    · exact .inr ⟨mq, records ▸ there⟩
  have held (i : Nat) (q : Addr)
      (slot : (k₁.link k.nextBlock .ready).counted.queues i = some q) : k.queues i = some q :=
    others.1 ▸ slot
  have found (q : Addr) (mq : MessageQueue)
      (there : (k₁.link k.nextBlock .ready).counted.records q = some mq) :
      k.records q = some mq := records ▸ there
  have cells (b : Addr) : (k₁.link k.nextBlock .ready).counted.heap b = heap b :=
    congrFun others.2 b
  have grown : (k₁.link k.nextBlock .ready).counted.nextBlock = k.nextBlock + 2 := next
  constructor
  · intro a p' there
    rcases live a p' there with ⟨new, placed⟩ | ⟨p, here, equal⟩
    · refine ⟨placed, ?_⟩
      rw [cells, new, own]
    · obtain ⟨placed, block⟩ := stocked.procs a p here
      refine ⟨equal.trans placed, ?_⟩
      rw [cells, kept a (below a (.inl ⟨p, here⟩)), block]
  · exact fun q mq there => stocked.buffers q mq (found q mq there)
  · intro i q mq slot there
    have placed := (stocked.buffers q mq (found q mq there)).1
    have before := stocked.room q (.inr ⟨mq, found q mq there⟩)
    rw [cells, kept _ (placed ▸ before)]
    exact stocked.queues i q mq (held i q slot) (found q mq there)
  · exact fun i j q first second => stocked.slots i j q (held i q first) (held j q second)
  · intro i q slot
    obtain ⟨small, old⟩ := stocked.known i q (held i q slot)
    rw [grown]
    exact ⟨small, old.trans (Nat.lt_add_of_pos_right Nat.two_pos)⟩
  · intro a owned
    rw [grown]
    by_cases new : a = k.nextBlock
    · exact new ▸ Nat.lt_succ_self _
    · exact (stocked.room a (holds a owned new)).trans (Nat.lt_add_of_pos_right Nat.two_pos)
  · exact stocked.new_apart holds
  · intro a p' mq there also
    rcases live a p' there with ⟨rfl, -⟩ | ⟨p, here, -⟩
    · rw [found _ mq also] at fresh
      cases fresh
    · exact stocked.kinds a p mq here (found a mq also)

theorem Stocked.move (stocked : k.Stocked) (consistent : k.Consistent)
    (other : m.kind ≠ .queues) (move : Move m k k') : k'.Stocked := by
  cases move with
  | relink held here allowed => exact stocked.relink
  | edit kind same => exact stocked.setProc fun p => (same p).stack
  | @delay p time kind here =>
      have edited : (k.setProc m.current fun p => { p with wakeUpTime := time }).Stocked :=
        stocked.setProc fun _ => rfl
      exact edited.relink
  | @resort a p prio h held here sorted stays links kind =>
      have edited : (k.setProc a fun p => { p with priority := prio }).Stocked :=
        stocked.setProc fun _ => rfl
      exact edited.relink
  | @reprioritise a p prio here apart kind => exact stocked.setProc fun _ => rfl
  | birth small free named status links context stack kept own kind joined =>
      exact stocked.birth (consistent.fresh _ le_rfl).2 stack kept own joined
  | store procs lists table current number next records fresh queues quiet =>
      obtain ⟨records, queues, count, heap⟩ := quiet other
      refine Layout.stocked ⟨fun a => ?_, fun q => ?_, queues, count, heap, next⟩ stocked
      · rw [procs]
      · rw [records]

theorem Stocked.moves (stocked : k.Stocked) (consistent : k.Consistent)
    (other : m.kind ≠ .queues) (moves : Moves m k k') : k'.Stocked := by
  induction moves with
  | refl => exact stocked
  | tail moves move ih => exact ih.move (consistent.moves moves) other move

theorem Stocked.segment {context : Frame} {e : Event} (stocked : k.Stocked)
    (consistent : k.Consistent) (current : k.processesTable k.activePID = some a)
    (run : k.segment context e = .ok (k', n)) : k'.Stocked := by
  by_cases kind : e.kind context = .queues
  · exact (segment_supply consistent.linked kind run).stocked stocked (consistent.fresh _ le_rfl)
  · exact stocked.moves consistent kind (segment_moves consistent current run)

theorem Stocked.reap {heap : Addr → Option Nat} (stocked : k.Stocked)
    (here : k.procs a = some p) (kept : ∀ b, b ≠ a → b ≠ p.stack → heap b = k.heap b) :
    (k.reap a p heap).Stocked := by
  have live (b : Addr) (p' : Proc) (there : (k.reap a p heap).procs b = some p') :
      b ≠ a ∧ k.procs b = some p' := by
    rw [reap_procs] at there
    split at there
    · cases there
    · next other => exact ⟨other, there⟩
  have holds (b : Addr) (held : (k.reap a p heap).Holds b) : k.Holds b := by
    rcases held with ⟨p', there⟩ | ⟨mq, there⟩
    · exact .inl ⟨p', (live b p' there).2⟩
    · exact .inr ⟨mq, there⟩
  have stack := (stocked.procs a p here).1
  constructor
  · intro b p' there
    obtain ⟨other, before⟩ := live b p' there
    obtain ⟨placed, own⟩ := stocked.procs b p' before
    have apart := stocked.apart a b (.inl ⟨p, here⟩) (.inl ⟨p', before⟩)
    exact ⟨placed, (kept b other (stack ▸ apart)).trans own⟩
  · exact stocked.buffers
  · intro i q mq slot there
    obtain ⟨block, apart⟩ := stocked.buffer_apart there here
    exact (kept _ block apart).trans (stocked.queues i q mq slot there)
  · exact stocked.slots
  · exact stocked.known
  · exact fun b held => stocked.room b (holds b held)
  · exact fun b c first second => stocked.apart b c (holds b first) (holds c second)
  · exact fun b p' mq there also => stocked.kinds b p' mq (live b p' there).2 also

theorem Stocked.woken (stocked : k.Stocked) (woken : Woken k k') : k'.Stocked := by
  induction woken with
  | none => exact stocked
  | @sleeper k k' a p here asleep late rest ih =>
      have edited : (k.setProc a fun p => { p with wakeUpTime := 0 }).Stocked :=
        stocked.setProc fun _ => rfl
      exact ih edited.relink

theorem Stocked.reaped (stocked : k.Stocked) (reaped : Reaped k k') : k'.Stocked := by
  induction reaped with
  | none => exact stocked
  | process here dying other kept rest ih => exact ih (stocked.reap here kept)

theorem Stocked.putBack (stocked : k.Stocked) (linked : k.Linked)
    (run : k.putBack a = .ok k') : k'.Stocked := by
  obtain ⟨p, here, ⟨-, rfl⟩ | ⟨-, -, rfl⟩ | ⟨-, rfl, -⟩⟩ := putBack_eq linked run
  · exact stocked
  · exact stocked.relink
  · exact stocked.setProc fun _ => rfl

theorem Stocked.elect {pid : Nat} (stocked : k.Stocked) : (k.elect a b pid).Stocked := by
  have unlinked : (k.unlink a).Stocked := by
    have edited : (k.setProc a fun p => { p with links := none }).Stocked :=
      stocked.setProc fun _ => rfl
    have moved : Layout (k.setProc a fun p => { p with links := none }) (k.unlink a) :=
      ⟨fun _ => rfl, fun _ => rfl, rfl, rfl, fun _ _ => rfl, le_rfl⟩
    exact moved.stocked edited
  have elected : ((k.unlink a).setStatus b .elected).Stocked := unlinked.setProc fun _ => rfl
  have moved : Layout ((k.unlink a).setStatus b .elected) (k.elect a b pid) :=
    ⟨fun _ => rfl, fun _ => rfl, rfl, rfl, fun _ _ => rfl, le_rfl⟩
  exact moved.stocked elected

theorem Stocked.scheduling (stocked : k.Stocked) (consistent : k.Consistent)
    (run : k.scheduling = .ok k') : k'.Stocked := by
  obtain ⟨k₁, k₂, k₃, a, c, p, woken, reaped, back, -, -, -, consistent₂, -, -, -, -, rfl⟩ :=
    consistent.phases run
  exact (((stocked.woken woken).reaped reaped).putBack consistent₂.linked back).elect

theorem Stocked.step {e : Event} (stocked : k.Stocked) (consistent : k.Consistent)
    (run : k.step e = .ok (k', n)) : k'.Stocked := by
  obtain ⟨a, p, k₁, current, here, segment, finish⟩ := step_eq run
  have stocked₁ := stocked.segment consistent current segment
  have saved (context : Frame) : (k₁.setContext a context).Stocked :=
    stocked₁.setProc fun _ => rfl
  rcases finish_eq finish with ⟨value, out, -, rfl⟩ | ⟨context, -, finish⟩
  · exact saved .user
  · exact (saved context).scheduling (consistent.segment segment).setContext finish

/-- `nb_proc` is the number of entries of the process table. -/
def Counted (k : Kernel) : Prop :=
  k.nbProc = Tally.tally (fun entry : Option Addr => entry.isSome) k.processesTable MAXNPROC

theorem Counted.of_eq (counted : k.Counted) (table : k'.processesTable = k.processesTable)
    (number : k'.nbProc = k.nbProc) : k'.Counted := by
  rw [Counted, table, number]
  exact counted

theorem Counted.pos (counted : k.Counted) (consistent : k.Consistent) : k.nbProc ≠ 0 := by
  obtain ⟨a, current⟩ := consistent.active
  have small := (consistent.table _ _ current).1
  rw [counted]
  refine Nat.ne_of_gt (Tally.tally_pos small ?_)
  rw [current]
  rfl

theorem Counted.birth {k₁ : Kernel} {pid : Nat} {heap : Addr → Option Nat}
    (counted : k.Counted) (small : pid < MAXNPROC) (free : k.processesTable pid = none)
    (joined : k₁ = k.born pid p heap ∨
      ∃ b placed, k₁ = (k.born pid p heap).join k.nextBlock b placed) :
    (k₁.link k.nextBlock .ready).counted.Counted := by
  obtain ⟨-, -, -, -, -, table⟩ := birth_procs joined
  have number : k₁.nbProc = k.nbProc := by
    rcases joined with rfl | ⟨b, placed, rfl⟩ <;> rfl
  have grown := Tally.tally_update (P := fun entry : Option Addr => entry.isSome)
    (f := k.processesTable) (b := some k.nextBlock) small
  have bounded : Tally.tally (fun entry : Option Addr => entry.isSome)
      (Function.update k.processesTable pid (some k.nextBlock)) MAXNPROC ≤ MAXNPROC :=
    Tally.tally_le
  have total : Tally.tally (fun entry : Option Addr => entry.isSome)
      (Function.update k.processesTable pid (some k.nextBlock)) MAXNPROC = k.nbProc + 1 := by
    rw [free] at grown
    rw [counted]
    simpa using grown
  change (k₁.nbProc + 1) % 2 ^ 32 = Tally.tally _ k₁.processesTable MAXNPROC
  rw [number, table, total, Nat.mod_eq_of_lt]
  rw [total] at bounded
  exact Nat.lt_of_le_of_lt bounded (by decide)

theorem Counted.reap {heap : Addr → Option Nat} (counted : k.Counted)
    (consistent : k.Consistent) (here : k.procs a = some p) : (k.reap a p heap).Counted := by
  have owned := consistent.owned a p here
  have small := consistent.live here
  have shrunk := Tally.tally_update (P := fun entry : Option Addr => entry.isSome)
    (f := k.processesTable) (b := none) small
  have bounded : Tally.tally (fun entry : Option Addr => entry.isSome)
      (Function.update k.processesTable p.pid none) MAXNPROC ≤ MAXNPROC := Tally.tally_le
  have total : Tally.tally (fun entry : Option Addr => entry.isSome)
      (Function.update k.processesTable p.pid none) MAXNPROC + 1 = k.nbProc := by
    rw [owned] at shrunk
    rw [counted]
    simpa using shrunk
  change (k.nbProc + (2 ^ 32 - 1)) % 2 ^ 32 =
    Tally.tally _ (Function.update k.processesTable p.pid none) MAXNPROC
  rw [MAXNPROC] at *
  omega

theorem Counted.move (counted : k.Counted) (move : Move m k k') : k'.Counted := by
  cases move with
  | birth small free named status links context stack kept own kind joined =>
      exact counted.birth small free joined
  | store procs lists table current number next records fresh queues quiet =>
      exact counted.of_eq table number
  | _ => exact counted.of_eq rfl rfl

theorem Counted.moves (counted : k.Counted) (moves : Moves m k k') : k'.Counted := by
  induction moves with
  | refl => exact counted
  | tail _ move ih => exact ih.move move

theorem Counted.woken (counted : k.Counted) (woken : Woken k k') : k'.Counted := by
  induction woken with
  | none => exact counted
  | sleeper here asleep late rest ih => exact ih (counted.of_eq rfl rfl)

theorem Counted.reaped (counted : k.Counted) (consistent : k.Consistent)
    (reaped : Reaped k k') : k'.Counted := by
  induction reaped with
  | none => exact counted
  | process here dying other kept rest ih =>
      exact ih (counted.reap consistent here) (consistent.reap here other)

theorem Counted.scheduling (counted : k.Counted) (consistent : k.Consistent)
    (run : k.scheduling = .ok k') : k'.Counted := by
  obtain ⟨k₁, k₂, k₃, a, c, p, woken, reaped, back, -, -, consistent₁, consistent₂, -, -, -, -,
    rfl⟩ := consistent.phases run
  have counted₂ := (counted.woken woken).reaped consistent₁ reaped
  obtain ⟨p₁, -, ⟨-, rfl⟩ | ⟨-, -, rfl⟩ | ⟨-, rfl, -⟩⟩ := putBack_eq consistent₂.linked back
  · exact counted₂.of_eq rfl rfl
  · exact counted₂.of_eq rfl rfl
  · exact counted₂.of_eq rfl rfl

theorem Counted.step {e : Event} (counted : k.Counted) (consistent : k.Consistent)
    (run : k.step e = .ok (k', n)) : k'.Counted := by
  obtain ⟨a, p, k₁, current, here, segment, finish⟩ := step_eq run
  have counted₁ := counted.moves (segment_moves consistent current segment)
  have saved (context : Frame) : (k₁.setContext a context).Counted := counted₁.of_eq rfl rfl
  rcases finish_eq finish with ⟨value, out, -, rfl⟩ | ⟨context, -, finish⟩
  · exact saved .user
  · exact (saved context).scheduling (consistent.segment segment).setContext finish

end Kernel

open Kernel

theorem booting_stocked : Kernel.booting.Stocked := by
  have nothing (a : Addr) : ¬ Kernel.booting.Holds a := by
    rintro (⟨p, there⟩ | ⟨mq, there⟩) <;> cases there
  constructor
  · exact fun a p there => absurd (.inl ⟨p, there⟩) (nothing a)
  · exact fun q mq there => absurd (.inr ⟨mq, there⟩) (nothing q)
  · exact fun _ q mq _ there => absurd (.inr ⟨mq, there⟩) (nothing q)
  · nofun
  · nofun
  · exact fun a held => absurd held (nothing a)
  · exact fun a b held => absurd held (nothing a)
  · exact fun a p mq there _ => nothing a (.inl ⟨p, there⟩)

theorem Booted.stocked {k : Kernel} (booted : Booted k) : k.Stocked ∧ k.Counted := by
  obtain ⟨ssize, prio, name, run⟩ := booted
  rcases start_eq rfl (fun zero => absurd rfl zero) run with ⟨heap, next, -, -, -, ended⟩ |
    ⟨pid, stackSize, heap, k₁, newPid, kept, own, yielded, joined⟩
  · cases ended
  · obtain ⟨small, free⟩ := getNewPid_eq newPid
    have empty : Kernel.booting.Counted := rfl
    rw [yielded.same]
    have stack : (Kernel.booting.created pid stackSize prio name).stack =
        Kernel.booting.nextBlock + 1 := rfl
    rcases joined with ⟨-, first⟩ | ⟨b, owner, placed, others, -⟩
    · exact ⟨booting_stocked.birth rfl stack kept own (.inl first),
        empty.birth small free (.inl first)⟩
    · exact absurd rfl others

/-- The blocks are in order in every run, whatever process 0 does. -/
theorem stocked_of_run {history : History} {k : Kernel} (run : Reached history k) :
    k.Stocked ∧ k.Counted := by
  refine (run.stateInvariant (I := fun k => (k.Consistent ∧ k.Running) ∧ k.Stocked ∧ k.Counted)
    (fun _ booted => ⟨booted.consistent, booted.stocked⟩) fun k e n k' kept taken => ?_).2
  obtain ⟨⟨consistent, running⟩, stocked, counted⟩ := kept
  exact ⟨consistent.step running taken, stocked.step consistent taken,
    counted.step consistent taken⟩

end IntelX86Kernel

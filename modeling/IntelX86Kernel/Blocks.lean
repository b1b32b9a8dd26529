import IntelX86Kernel.Allocation
import IntelX86Kernel.StartCall

/-! Which blocks are handed out: the stacks have their lengths, and nothing lies beyond
the last block. -/

namespace IntelX86Kernel

open Transition

def Proc.traits (p : Proc) : Addr × Nat × Nat :=
  (p.stack, p.stackSize, p.priority)

namespace Kernel

variable {k k' : Kernel} {a b q : Addr} {p : Proc} {n : Next} {f : Proc → Proc} {s : Status}
  {h : Head} {e : Event}

structure Still (k k' : Kernel) : Prop where
  traits : ∀ a, (k'.procs a).map Proc.traits = (k.procs a).map Proc.traits
  heap : k'.heap = k.heap
  next : k'.nextBlock = k.nextBlock

theorem Still.refl : Still k k := ⟨fun _ => rfl, rfl, rfl⟩

theorem Still.trans {k'' : Kernel} (first : Still k k') (second : Still k' k'') : Still k k'' :=
  ⟨fun a => (second.traits a).trans (first.traits a), second.heap.trans first.heap,
    second.next.trans first.next⟩

theorem Still.setProc (same : ∀ p, (f p).traits = p.traits) : Still k (k.setProc a f) :=
  ⟨fun _ => setProc_map _ _ same, rfl, rfl⟩

theorem Still.relink : Still k (k.relink a s h) := by
  refine ⟨fun b => ?_, rfl, rfl⟩
  rw [relink_procs]
  split
  · next same =>
    rw [same]
    cases k.procs a <;> rfl
  · rfl

theorem Still.setRecord {f : MessageQueue → MessageQueue} : Still k (k.setRecord q f) :=
  ⟨fun _ => rfl, rfl, rfl⟩

theorem Still.dropSibling : Still k (k.dropSibling a b) := by
  refine Still.trans (Still.setProc ?_) (Still.setProc ?_) <;> exact fun _ => rfl

theorem Still.popSibling : Still k (k.popSibling a b) := by
  refine Still.trans (Still.setProc ?_) (Still.setProc ?_) <;> exact fun _ => rfl

theorem Still.join {placed : List Addr} : Still k (k.join a b placed) := by
  refine Still.trans (Still.setProc ?_) (Still.setProc ?_) <;> exact fun _ => rfl

theorem Freed.still (freed : Freed a k k') : Still k k' := by
  induction freed with
  | none there empty => exact .refl
  | zombie there last here ended links rest ih =>
      exact (Still.popSibling.trans .relink).trans ih
  | alive there last here running rest ih =>
      refine (Still.popSibling.trans (Still.setProc ?_)).trans ih
      exact fun _ => rfl

theorem Unblocked.still (unblocked : Unblocked q k k') : Still k k' := by
  induction unblocked with
  | none empty => exact .refl
  | waiter last rest ih => exact Still.relink.trans ih

theorem exit_still {retval : Int} (linked : k.Linked) (run : k.exit retval = .ok (k', n)) :
    Still k k' := by
  obtain ⟨a, p, k₁, p₁, -, -, freed, -, -, -, ended⟩ := exit_eq linked run
  have between : Still k k₁ := by
    refine Still.trans (Still.setProc ?_) freed.still
    exact fun _ => rfl
  rcases ended with ⟨-, rfl⟩ | ⟨-, b, parent, -, -, ⟨-, rfl⟩ | ⟨-, -, rfl⟩⟩
  · exact between.trans .relink
  · exact between.trans .relink
  · exact (between.trans .relink).trans .relink

theorem kill_still {pid : Int} (linked : k.Linked) (run : k.kill pid = .ok (k', n)) :
    Still k k' := by
  rcases kill_eq linked run with ⟨-, rfl, -⟩ | ⟨a, p, -, -, -, -, ended⟩
  · exact .refl
  · have marked : Still k (k.setProc a fun p => { p with killed := true }) :=
      .setProc fun _ => rfl
    rcases ended with ⟨-, run⟩ | ⟨-, -, -, ⟨-, freed⟩ | ⟨-, freed⟩⟩
    · have base : (k.setProc a fun p => { p with killed := true }).Linked :=
        linked.setProc _ fun _ => rfl
      exact marked.trans (exit_still base run)
    · exact (marked.trans .relink).trans freed.still
    · exact (marked.trans .relink).trans freed.still

theorem collect_still {child : Addr} {retvalp : Bool} (linked : k.Linked)
    (run : k.collect child retvalp = .ok (k', n)) : Still k k' := by
  obtain ⟨p, g, parent, owner, -, -, -, -, rfl, -⟩ := collect_eq linked run
  exact Still.dropSibling.trans .relink

theorem blockWaiting_still {context : Frame} (linked : k.Linked)
    (run : k.blockWaiting context = .ok (k', n)) : Still k k' := by
  obtain ⟨a, p, -, -, -, rfl, -⟩ := blockWaiting_eq linked run
  exact .relink

theorem waitpidLoop_still {pid : Nat} {child : Addr} {retvalp : Bool} (linked : k.Linked)
    (run : k.waitpidLoop pid child retvalp = .ok (k', n)) : Still k k' := by
  obtain ⟨p, -, ⟨-, run⟩ | ⟨-, run⟩⟩ := waitpidLoop_eq run
  · exact collect_still linked run
  · exact blockWaiting_still linked run

theorem waitForChild_still {retvalp : Bool} (linked : k.Linked)
    (run : k.waitForChild retvalp = .ok (k', n)) : Still k k' := by
  obtain ⟨a, p, -, -, ⟨-, rfl, -⟩ | ⟨c, -, run⟩ | ⟨-, -, run⟩⟩ := waitForChild_eq run
  · exact .refl
  · exact collect_still linked run
  · exact blockWaiting_still linked run

theorem waitpid_still {pid : Int} {retvalp : Bool} (linked : k.Linked)
    (run : k.waitpid pid retvalp = .ok (k', n)) : Still k k' := by
  rcases waitpid_eq run with ⟨-, run⟩ | ⟨-, rfl, -⟩ | ⟨child, p, a, parent, -, -, -, -, -, -, -, run⟩
  · exact waitForChild_still linked run
  · exact .refl
  · exact waitpidLoop_still linked run

theorem waitClock_still {clock : Nat} (linked : k.Linked)
    (run : k.waitClock clock = .ok (k', n)) : Still k k' := by
  obtain ⟨a, p, -, -, -, rfl, -⟩ := waitClock_eq linked run
  refine Still.trans (Still.setProc ?_) .relink
  exact fun _ => rfl

theorem blockOnQueue_still {context : Frame} (linked : k.Linked)
    (run : k.blockOnQueue q context = .ok (k', n)) : Still k k' := by
  obtain ⟨a, p, -, -, -, rfl, -⟩ := blockOnQueue_eq linked run
  exact .relink

theorem storeMessage_still {message : Int} (run : k.storeMessage q message = .ok k') :
    Still k k' := by
  obtain ⟨mq, cell, -, -, rfl⟩ := storeMessage_eq run
  exact .setRecord

theorem takeMessage_still {fid : Nat} (linked : k.Linked)
    (run : k.takeMessage fid q = .ok (k', n)) : Still k k' := by
  obtain ⟨mq, cell, q', -, -, -, ⟨rfl, -, -⟩ | ⟨b, -, -, rfl, -⟩⟩ := takeMessage_eq linked run
  · exact .setRecord
  · exact Still.trans .setRecord .relink

theorem preset_still {fid : Int} (linked : k.Linked) (run : k.preset fid = .ok (k', n)) :
    Still k k' := by
  rcases preset_eq linked run with ⟨-, rfl, -⟩ | ⟨q, mq, -, -, -, unblocked, -⟩
  · exact .refl
  · exact Still.trans .setRecord unblocked.still

theorem preceive_still {fid : Int} (linked : k.Linked) (run : k.preceive fid = .ok (k', n)) :
    Still k k' := by
  rcases preceive_eq run with ⟨-, rfl, -⟩ | ⟨q, mq, -, -, -, ⟨-, run⟩ | ⟨-, run⟩⟩
  · exact .refl
  · exact blockOnQueue_still linked run
  · exact takeMessage_still linked run

theorem psend_still {fid message : Int} (linked : k.Linked)
    (run : k.psend fid message = .ok (k', n)) : Still k k' := by
  rcases psend_eq linked run with ⟨-, rfl, -⟩ |
    ⟨q, mq, -, -, -, ⟨b, -, -, run, -⟩ | ⟨-, -, run⟩ | ⟨-, -, run, -⟩⟩
  · exact .refl
  · exact Still.relink.trans (storeMessage_still run)
  · exact blockOnQueue_still linked run
  · exact storeMessage_still run

theorem continueWith_still {context : Frame} (linked : k.Linked)
    (run : k.continueWith context = .ok (k', n)) : Still k k' := by
  cases context with
  | user | exit => cases run
  | done value out =>
      cases run
      exact .refl
  | start pid =>
      obtain ⟨-, -, -, -, rfl, -⟩ := startReturn_eq run
      exact .refl
  | waitpid pid child retvalp => exact waitpidLoop_still linked run
  | waitForChild retvalp =>
      obtain ⟨a, p, -, -, ⟨c, -, run⟩ | ⟨-, rfl, -⟩⟩ := waitForChildResumed_eq run
      · exact collect_still linked run
      · exact .refl
  | preceive fid q =>
      obtain ⟨mq, -, ⟨-, rfl, -⟩ | ⟨-, -, -, run⟩⟩ := preceiveResumed_eq run
      · exact .setRecord
      · exact takeMessage_still linked run
  | psend fid q message =>
      obtain ⟨mq, -, ⟨-, rfl, -⟩ | ⟨-, -, rfl, -⟩ | ⟨-, -, -, run⟩ | ⟨-, -, -, run, -⟩⟩ :=
        psendResumed_eq run
      · exact .refl
      · exact .setRecord
      · exact blockOnQueue_still linked run
      · exact storeMessage_still run

end Kernel

/-- The calls that take blocks, give them back, or set priorities. -/
def Event.unsettles : Event → Bool
  | .call (.start ..) | .call (.pcreate ..) | .call (.pdelete _) | .call (.chprio ..) => true
  | _ => false

namespace Kernel

variable {k k' : Kernel} {a b q : Addr} {p : Proc} {n : Next} {e : Event}

theorem segment_still {context : Frame} (linked : k.Linked) (plain : e.unsettles = false)
    (run : k.segment context e = .ok (k', n)) : Still k k' := by
  cases e with
  | resume => exact continueWith_still linked run
  | clockInterrupt =>
      simp only [segment, clockInterrupt] at run
      split at run
      · cases run
        exact ⟨fun _ => rfl, rfl, rfl⟩
      · cases run
  | call c =>
      simp only [segment] at run
      split at run
      · cases c with
        | start | pcreate | pdelete | chprio => cases plain
        | exit retval => exact exit_still linked run
        | kill pid => exact kill_still linked run
        | waitpid pid retvalp => exact waitpid_still linked run
        | getprio pid =>
            simp only [perform, bind_eq_ok, Except.ok.injEq, Prod.mk.injEq] at run
            obtain ⟨-, -, rfl, -⟩ := run
            exact .refl
        | waitClock clock => exact waitClock_still linked run
        | sleep seconds => exact waitClock_still linked run
        | preset fid => exact preset_still linked run
        | pcount fid count =>
            obtain ⟨rfl, -⟩ := pcount_eq run
            exact .refl
        | preceive fid => exact preceive_still linked run
        | psend fid message => exact psend_still linked run
      · cases run

/-- Every stack is a block of the length that was asked for, and the numbers from
`nextBlock` on are not handed out. -/
structure Backed (k : Kernel) : Prop where
  lengths : ∀ a p, k.procs a = some p → k.heap p.stack = some (sizeofInt * p.stackSize % 2 ^ 32) ∧
    sizeofInt * p.stackSize % 2 ^ 32 ≠ 0
  unused : ∀ b, k.nextBlock ≤ b → k.heap b = none

theorem Still.before {p' : Proc} (still : Still k k') (there : k'.procs a = some p') :
    ∃ p, k.procs a = some p ∧ p.traits = p'.traits := by
  have same := still.traits a
  rw [there, Option.map_some] at same
  exact Option.map_eq_some_iff.mp same.symm

theorem Backed.kept (backed : k.Backed) (sizes : ∀ a p', k'.procs a = some p' →
      ∃ p, k.procs a = some p ∧ p.stack = p'.stack ∧ p.stackSize = p'.stackSize)
    (heap : k'.heap = k.heap) (next : k'.nextBlock = k.nextBlock) : k'.Backed := by
  constructor
  · intro a p' there
    obtain ⟨p, here, stack, size⟩ := sizes a p' there
    rw [heap, ← stack, ← size]
    exact backed.lengths a p here
  · intro b later
    rw [heap]
    exact backed.unused b (next ▸ later)

theorem Backed.still (backed : k.Backed) (still : Still k k') : k'.Backed := by
  refine backed.kept (fun a p' there => ?_) still.heap still.next
  obtain ⟨p, here, same⟩ := still.before there
  exact ⟨p, here, congrArg Prod.fst same, congrArg (fun traits => traits.2.1) same⟩

theorem Backed.chprio {pid newprio : Int} (backed : k.Backed) (linked : k.Linked)
    (run : k.chprio pid newprio = .ok (k', n)) : k'.Backed := by
  rcases chprio_eq run with ⟨rfl, -⟩ | ⟨a, p, -, here, -, moved, -⟩
  · exact backed
  · have changed : (k.setProc a fun p => { p with priority := toUnsigned newprio }).Backed := by
      refine backed.kept (fun b p' there => ?_) rfl rfl
      have same := setProc_map (k := k) (a := a) (b := b)
        (fun p => { p with priority := toUnsigned newprio }) (fun p => (p.stack, p.stackSize))
        fun _ => rfl
      rw [there, Option.map_some] at same
      obtain ⟨p, here, equal⟩ := Option.map_eq_some_iff.mp same.symm
      rw [Prod.mk.injEq] at equal
      exact ⟨p, here, equal⟩
    obtain ⟨base, found⟩ := chprio_stored newprio linked here
    have status : ({ p with priority := toUnsigned newprio } : Proc).status = p.status := rfl
    rcases reorder_eq base found status moved with ⟨h, -, -, rfl⟩ | ⟨-, -, rfl, -⟩
    · exact changed.still .relink
    · exact changed

theorem Backed.grown (backed : k.Backed) (stocked : k.Stocked) (procs : k'.procs = k.procs)
    (kept : ∀ b < k.nextBlock, k'.heap b = k.heap b)
    (unused : ∀ b, k'.nextBlock ≤ b → k'.heap b = none) : k'.Backed := by
  refine ⟨fun a p there => ?_, unused⟩
  rw [procs] at there
  have below := stocked.room a (.inl ⟨p, there⟩)
  rw [← (stocked.procs a p there).1] at below
  rw [kept _ below]
  exact backed.lengths a p there

theorem update_below (heap : Addr → Option Nat) {next : Addr} (first second : Option Nat)
    (old : b < next) :
    Function.update (Function.update heap next first) (next + 1) second b = heap b := by
  rw [Function.update_of_ne (Nat.ne_of_lt (Nat.lt_succ_of_lt old)),
    Function.update_of_ne (Nat.ne_of_lt old)]

theorem update_beyond (heap : Addr → Option Nat) {next : Addr} (first second : Option Nat)
    (later : next + 2 ≤ b) :
    Function.update (Function.update heap next first) (next + 1) second b = heap b := by
  rw [Function.update_of_ne (Nat.ne_of_gt later),
    Function.update_of_ne (Nat.ne_of_gt (Nat.lt_of_succ_lt later))]

theorem Backed.pcreate {count : Int} {recordGranted bufferGranted : Bool} (backed : k.Backed)
    (stocked : k.Stocked) (run : k.pcreate count recordGranted bufferGranted = .ok (k', n)) :
    k'.Backed := by
  rcases pcreate_eq run with ⟨-, rfl, -⟩ |
    ⟨positive, bounded, -, -, small, free, ⟨-, rfl, -⟩ | ⟨-, rfl, -⟩⟩
  · exact backed
  · refine backed.grown stocked rfl (fun b old => ?_) fun b later => ?_
    · exact Function.update_of_ne (Nat.ne_of_lt old) _ _
    · change k.nextBlock + 1 ≤ b at later
      exact (Function.update_of_ne (Nat.ne_of_gt later) _ _).trans
        (backed.unused b (Nat.le_of_succ_le later))
  · refine backed.grown stocked rfl (fun b old => ?_) fun b later => ?_
    · change Function.update (Function.update k.heap k.nextBlock _) (k.nextBlock + 1) _ b = _
      rw [update_below k.heap _ _ old]
    · change Function.update (Function.update k.heap k.nextBlock _) (k.nextBlock + 1) _ b = _
      rw [update_beyond k.heap _ _ later]
      exact backed.unused b (Nat.le_of_succ_le (Nat.le_of_succ_le later))

theorem Backed.pdelete {fid : Int} (backed : k.Backed) (stocked : k.Stocked) (linked : k.Linked)
    (run : k.pdelete fid = .ok (k', n)) : k'.Backed := by
  rcases pdelete_eq linked run with ⟨-, rfl, -⟩ |
    ⟨q, mq, k₁, heap, -, -, here, unblocked, kept, rfl, -⟩
  · exact backed
  · have still := unblocked.still
    have backed₁ := backed.still still
    refine ⟨fun a p there => ?_, fun b later => ?_⟩
    · obtain ⟨p₀, before, equal⟩ := still.before there
      have apart := (stocked.buffer_apart here before).2
      have stack : p₀.stack = p.stack := congrArg Prod.fst equal
      rw [stack] at apart
      change heap p.stack = _ ∧ _
      rw [kept _ (Ne.symm apart), ← still.heap]
      exact backed₁.lengths a p there
    · change k₁.nextBlock ≤ b at later
      rw [still.next] at later
      have below := stocked.room q (.inr ⟨mq, here⟩)
      rw [← (stocked.buffers q mq here).1] at below
      change heap b = none
      rw [kept b (Nat.ne_of_gt (Nat.lt_of_lt_of_le below later))]
      exact backed.unused b later

theorem startLinked_still {pid : Nat} (run : k.startLinked a pid = .ok (k', n)) : Still k k' := by
  obtain ⟨k₁, yielded, joined⟩ := startLinked_eq run rfl
  have founded : Still k k₁ := by
    have parent : Still k (k.setProc a fun p =>
        { p with childrenList := [], parent := k.getParentProc }) := .setProc fun _ => rfl
    rcases joined with ⟨-, rfl⟩ | ⟨b, owner, placed, -, -, -, -, rfl⟩
    · exact parent
    · exact parent.trans .join
  have linked : Still k₁ (k₁.link a .ready).counted := by
    refine ⟨fun b => ?_, rfl, rfl⟩
    change ((k₁.link a .ready).procs b).map _ = _
    rw [link_procs]
    split
    · next same =>
      rw [same]
      cases k₁.procs a <;> rfl
    · rfl
  obtain ⟨current, p, running, -, -, -, ⟨-, rfl, -⟩ | ⟨-, ended⟩⟩ := yielded
  · exact founded.trans linked
  · obtain ⟨-, -, -, -, rfl, -⟩ := startReturn_eq ended
    exact founded.trans linked

theorem start_traits {ssize : Nat} {prio : Int} {name : List UInt8}
    {procGranted stackGranted : Bool} (accepted : ¬ k.StartFails ssize procGranted stackGranted)
    (run : k.start ssize prio name procGranted stackGranted = .ok (k', n)) :
    k'.nextBlock = k.nextBlock + 2 ∧ ∀ b, (k'.procs b).map Proc.traits =
      if b = k.nextBlock then some (k.nextBlock + 1, realStackSize ssize, toUnsigned prio)
      else (k.procs b).map Proc.traits := by
  obtain ⟨pid, newPid, passed⟩ := start_passes prio name accepted
  rw [run] at passed
  obtain ⟨k₁, filled, linked⟩ := bind_eq_ok.mp passed.symm
  obtain rfl := initProc_eq filled
  have still := startLinked_still linked
  refine ⟨still.next, fun b => ?_⟩
  rw [still.traits b, setProc_procs]
  split
  · rw [claimed_procs, if_pos rfl]
    rfl
  · next other => rw [claimed_procs, if_neg other]

theorem Backed.start {ssize : Nat} {prio : Int} {name : List UInt8}
    {procGranted stackGranted : Bool} (backed : k.Backed) (stocked : k.Stocked)
    (fresh : k.procs k.nextBlock = none)
    (run : k.start ssize prio name procGranted stackGranted = .ok (k', n)) : k'.Backed := by
  by_cases fails : k.StartFails ssize procGranted stackGranted
  · obtain ⟨next, grown, failed⟩ := start_fails prio name fresh
      (backed.unused _ le_rfl) fails
    rw [run] at failed
    cases failed
    exact backed.grown stocked rfl (fun _ _ => rfl) fun b later =>
      backed.unused b (Nat.le_trans grown later)
  · obtain ⟨pid, newPid, passed⟩ := start_passes prio name fails
    rw [run] at passed
    obtain ⟨k₁, filled, linked⟩ := bind_eq_ok.mp passed.symm
    obtain rfl := initProc_eq filled
    have length : stackBytes ssize = sizeofInt * realStackSize ssize % 2 ^ 32 :=
      congrArg (· % 2 ^ 32) (Nat.mul_comm _ _)
    refine Backed.still ⟨fun a p there => ?_, fun b later => ?_⟩ (startLinked_still linked)
    · rw [setProc_procs] at there
      split at there
      · rw [claimed_procs, if_pos rfl, Option.map_some, Option.some.injEq] at there
        subst there
        constructor
        · rw [← length]
          exact Function.update_self _ _ _
        · rw [← length]
          exact fun zero => fails (.inr (.inr (.inr (.inl zero))))
      · next other =>
        have here : k.procs a = some p := by
          rw [claimed_procs, if_neg other] at there
          exact there
        have below := stocked.room a (.inl ⟨p, here⟩)
        rw [← (stocked.procs a p here).1] at below
        have same := update_below k.heap (some sizeofProc) (some (stackBytes ssize)) below
        change Function.update (Function.update k.heap k.nextBlock _) (k.nextBlock + 1) _ p.stack =
          _ ∧ _
        rw [same]
        exact backed.lengths a p here
    · have same := update_beyond k.heap (some sizeofProc) (some (stackBytes ssize)) later
      exact same.trans (backed.unused b (Nat.le_of_succ_le (Nat.le_of_succ_le later)))

theorem Backed.segment {context : Frame} (backed : k.Backed) (stocked : k.Stocked)
    (consistent : k.Consistent) (run : k.segment context e = .ok (k', n)) : k'.Backed := by
  by_cases plain : e.unsettles = false
  · exact backed.still (segment_still consistent.linked plain run)
  · cases e with
    | resume | clockInterrupt => exact absurd rfl plain
    | call c =>
        simp only [Kernel.segment] at run
        split at run
        · cases c with
          | start ssize prio name procGranted stackGranted =>
              exact backed.start stocked (consistent.fresh _ le_rfl).1 run
          | pcreate count recordGranted bufferGranted => exact backed.pcreate stocked run
          | pdelete fid => exact backed.pdelete stocked consistent.linked run
          | chprio pid newprio => exact backed.chprio consistent.linked run
          | exit | kill | waitpid | getprio | waitClock | sleep | preset | pcount | preceive
          | psend => exact absurd rfl plain
        · cases run

theorem Woken.still (woken : Woken k k') : Still k k' := by
  induction woken with
  | none => exact .refl
  | sleeper here asleep late rest ih =>
      refine (Still.trans (Still.setProc ?_) .relink).trans ih
      exact fun _ => rfl

theorem Backed.reap {heap : Addr → Option Nat} (backed : k.Backed) (stocked : k.Stocked)
    (here : k.procs a = some p) (kept : ∀ b, b ≠ a → b ≠ p.stack → heap b = k.heap b) :
    (k.reap a p heap).Backed := by
  have stack := (stocked.procs a p here).1
  have room := stocked.room a (.inl ⟨p, here⟩)
  constructor
  · intro b p' there
    rw [reap_procs] at there
    split at there
    · cases there
    · next other =>
      have stack' := (stocked.procs b p' there).1
      have apart := stocked.apart b a (.inl ⟨p', there⟩) (.inl ⟨p, here⟩)
      have block : p'.stack ≠ a := fun same => apart (same.symm.trans stack')
      have stacks' : p'.stack ≠ p.stack := by
        rw [stack, stack']
        exact fun same => other (Nat.succ.inj same)
      change heap p'.stack = _ ∧ _
      rw [kept _ block stacks']
      exact backed.lengths b p' there
  · intro b later
    change k.nextBlock ≤ b at later
    have below : a < b := Nat.lt_of_lt_of_le (Nat.lt_of_succ_lt room) later
    have below' : p.stack < b := stack ▸ Nat.lt_of_lt_of_le room later
    exact (kept b (Nat.ne_of_gt below) (Nat.ne_of_gt below')).trans (backed.unused b later)

theorem Backed.reaped (backed : k.Backed) (stocked : k.Stocked) (reaped : Reaped k k') :
    k'.Backed := by
  induction reaped with
  | none => exact backed
  | process here dying other kept rest ih =>
      exact ih (backed.reap stocked here kept) (stocked.reap here kept)

theorem putBack_still (linked : k.Linked) (run : k.putBack a = .ok k') : Still k k' := by
  obtain ⟨p, -, ⟨-, rfl⟩ | ⟨-, -, rfl⟩ | ⟨-, rfl, -⟩⟩ := putBack_eq linked run
  · exact .refl
  · exact .relink
  · exact .setProc fun _ => rfl

theorem elect_still {pid : Nat} : Still k (k.elect a b pid) := by
  have unlinked : Still k (k.unlink a) := by
    refine ⟨fun c => ?_, rfl, rfl⟩
    rw [unlink_procs]
    split
    · next same =>
      rw [same]
      cases k.procs a <;> rfl
    · rfl
  have elected : Still (k.unlink a) ((k.unlink a).setStatus b .elected) := .setProc fun _ => rfl
  exact (unlinked.trans elected).trans ⟨fun _ => rfl, rfl, rfl⟩

theorem Backed.scheduling (backed : k.Backed) (stocked : k.Stocked) (consistent : k.Consistent)
    (run : k.scheduling = .ok k') : k'.Backed := by
  obtain ⟨k₁, k₂, k₃, a, c, p, woken, reaped, back, -, -, -, consistent₂, -, -, -, -, rfl⟩ :=
    consistent.phases run
  have backed₂ := (backed.still woken.still).reaped (stocked.woken woken) reaped
  exact (backed₂.still (putBack_still consistent₂.linked back)).still elect_still

theorem Backed.step (backed : k.Backed) (stocked : k.Stocked) (consistent : k.Consistent)
    (run : k.step e = .ok (k', n)) : k'.Backed := by
  obtain ⟨a, p, k₁, current, here, segment, finish⟩ := step_eq run
  have backed₁ := backed.segment stocked consistent segment
  have stocked₁ := stocked.segment consistent current segment
  have saved (context : Frame) : (k₁.setContext a context).Backed :=
    backed₁.still (.setProc fun _ => rfl)
  rcases finish_eq finish with ⟨value, out, -, rfl⟩ | ⟨context, -, finish⟩
  · exact saved .user
  · have stocked₂ : (k₁.setContext a context).Stocked := stocked₁.setProc fun _ => rfl
    exact (saved context).scheduling stocked₂ (consistent.segment segment).setContext finish

end Kernel

open Kernel

variable {history : History} {k : Kernel}

theorem booting_backed : Kernel.booting.Backed := by
  constructor
  · intro a p there
    cases there
  · exact fun _ _ => rfl

theorem Booted.backed (booted : Booted k) : k.Backed := by
  obtain ⟨ssize, prio, name, run⟩ := booted
  exact booting_backed.start booting_stocked rfl run

theorem backed_of_run (run : Reached history k) : k.Backed := by
  apply run.always
  · exact fun k booted => booted.backed
  · intro history k e n k' run backed taken
    exact backed.step (stocked_of_run run).1 (consistent_of_run run).1 taken

/-- Only the number of the next block has moved on. -/
theorem failed_start_changes_nothing {ssize : Nat} {prio : Int} {name : List UInt8}
    {procGranted stackGranted : Bool} (run : Reached history k)
    (fails : k.StartFails ssize procGranted stackGranted) :
    ∃ next, k.start ssize prio name procGranted stackGranted =
      .ok ({ k with nextBlock := next }, .ret (-1) none) := by
  have fresh := ((consistent_of_run run).1.fresh _ le_rfl).1
  have unused := (backed_of_run run).unused _ le_rfl
  obtain ⟨next, -, failed⟩ := start_fails prio name fresh unused fails
  exact ⟨next, failed⟩

/-- The stack is refused once the table entry and the `Proc` are there. -/
theorem failed_start_changes_nothing_late : ∃ next, afterBoot.start 512 128 [97] true false =
    .ok ({ afterBoot with nextBlock := next }, .ret (-1) none) :=
  failed_start_changes_nothing (.start afterBoot_booted) (by decide +kernel)

end IntelX86Kernel

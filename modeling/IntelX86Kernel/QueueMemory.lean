import IntelX86Kernel.Blocks
import IntelX86Kernel.QueueTable
import IntelX86Kernel.Waiters

/-! The two blocks of a message queue, and what becomes of them. -/

namespace IntelX86Kernel

open Transition

namespace Kernel

variable {k k' : Kernel} {a b q : Addr} {e : Event} {n : Next} {m : Mover} {mq : MessageQueue}

theorem pdelete_frees {fid : Int} (stocked : k.Stocked) (linked : k.Linked)
    (named : k.fidQueue fid = some q) (here : k.records q = some mq)
    (run : k.pdelete fid = .ok (k', n)) :
    k.heap mq.buffer = some (sizeofInt * mq.bufferSize.toNat % 2 ^ 32) ∧
      k'.heap = Function.update k.heap mq.buffer none := by
  obtain ⟨given, slot⟩ := of_fidQueue named
  simp only [pdelete, bind_eq_ok] at run
  obtain ⟨entry, valid, run⟩ := run
  rcases checkFidValidity_eq_ok valid with ⟨negative, -⟩ | ⟨-, -, found⟩
  · omega
  · rw [slot] at found
    subst entry
    simp only [bind_eq_ok, record_eq_ok, Except.ok.injEq, Prod.mk.injEq] at run
    obtain ⟨k₁, freed, mq', there, k₂, released, rfl, -⟩ := run
    obtain ⟨-, unblocked⟩ := unblockProcesses_eq linked freed
    obtain ⟨records, -, heap, -⟩ := unblocked.same
    rw [records, here, Option.some.injEq] at there
    subst mq'
    obtain ⟨-, positive, bounded⟩ := stocked.buffers q mq here
    rcases memFree_eq_ok.mp released with ⟨zero, -⟩ | ⟨-, held, rfl⟩
    · rw [sizeofInt] at zero
      omega
    · rw [← heap]
      exact ⟨held, rfl⟩

theorem Moves.old_heap (moves : Moves m k k') (other : m.kind ≠ .queues) (old : b < k.nextBlock) :
    k'.heap b = k.heap b := by
  induction moves with
  | refl => rfl
  | tail moves move ih =>
      rw [← ih]
      have later := old.trans_le (Moves.next_le moves)
      cases move with
      | relink | edit | delay | resort | reprioritise => rfl
      | birth small free named status links context stack kept own kind joined =>
          rcases joined with rfl | ⟨c, placed, rfl⟩
          · exact kept b later
          · exact kept b later
      | store procs lists table current number next records fresh queues quiet =>
          exact (quiet other).2.2.2 b later

/-- No code of a step gives back an old block but the buffer of a queue it deletes. -/
theorem segment_heap {context : Frame} (consistent : k.Consistent) (old : b < k.nextBlock)
    (apart : ∀ q mq, k.pdeleteQueue e = some q → k.records q = some mq → b ≠ mq.buffer)
    (run : k.segment context e = .ok (k', n)) : k'.heap b = k.heap b := by
  obtain ⟨a, current⟩ := consistent.active
  by_cases kind : e.kind context = .queues
  · by_cases plain : e.unsettles = false
    · rw [(segment_still consistent.linked plain run).heap]
    · cases e with
      | resume | clockInterrupt => exact absurd rfl plain
      | call c =>
          simp only [Kernel.segment] at run
          split at run
          · cases c with
            | pcreate count recordGranted bufferGranted =>
                rcases pcreate_eq run with ⟨-, rfl, -⟩ | ⟨-, -, -, -, -, -, ⟨-, rfl, -⟩ | ⟨-, rfl, -⟩⟩
                · rfl
                · exact Function.update_of_ne (Nat.ne_of_lt old) _ _
                · exact update_below k.heap _ _ old
            | pdelete fid =>
                rcases pdelete_eq consistent.linked run with ⟨-, rfl, -⟩ |
                  ⟨q, mq, k₁, heap, given, slot, here, -, kept, rfl, -⟩
                · rfl
                · exact kept b (apart q mq (fidQueue_some given slot) here)
            | start | chprio => cases kind
            | exit | kill | waitpid | getprio | waitClock | sleep | preset | pcount | preceive
            | psend => exact absurd rfl plain
          · cases run
  · exact (segment_moves consistent current run).old_heap kind old

theorem scheduling_heap (consistent : k.Consistent) (stocked : k.Stocked)
    (here : k.records q = some mq) (run : k.scheduling = .ok k') :
    k'.heap q = k.heap q ∧ k'.heap mq.buffer = k.heap mq.buffer := by
  obtain ⟨k₁, k₂, k₃, a, c, p, woken, reaped, back, -, -, -, consistent₂, -, -, -, -, rfl⟩ :=
    consistent.phases run
  obtain ⟨records, -, -, -, -, -, heap₁, -⟩ := woken.same
  have stocked₁ := stocked.woken woken
  rw [← records] at here
  have kept : k₂.heap q = k₁.heap q ∧ k₂.heap mq.buffer = k₁.heap mq.buffer := by
    clear back consistent₂ heap₁ records woken
    induction reaped with
    | none => exact ⟨rfl, rfl⟩
    | @process k₁ k₂ a p heap there dying other kept rest ih =>
        obtain ⟨record, buffer⟩ := ih here (stocked₁.reap there kept)
        obtain ⟨first, second⟩ := stocked₁.buffer_apart here there
        have block : q ≠ a := by
          rintro rfl
          exact stocked₁.kinds q p mq there here
        have stack : q ≠ p.stack := by
          rw [(stocked₁.procs a p there).1]
          exact stocked₁.apart a q (.inl ⟨p, there⟩) (.inr ⟨mq, here⟩)
        exact ⟨record.trans (kept q block stack), buffer.trans (kept _ first second)⟩
  have heap₃ := (putBack_still consistent₂.linked back).heap
  have heap₄ : (k₃.elect c c p.pid).heap = k₃.heap := elect_still.heap
  rw [heap₄, heap₃, ← heap₁]
  exact kept

theorem Acted.pdeletes (acted : k.Acted e n k' a) (named : k.pdeleteQueue e = some q) :
    ∃ fid, k.queues fid = some q ∧ k'.queues = Function.update k.queues fid none ∧
      k'.stance q = fun b => (k.stance q b).release := by
  have spared (spares : k.pdeleteQueue e = none) : False := by
    rw [spares] at named
    cases named
  cases acted.traffic with
  | quiet idle keeps spares own posts records queues => exact (spared spares).elim
  | halves idle keeps spares own free posts records queues => exact (spared spares).elim
  | creates count idle keeps spares own free positive posts records queues =>
      exact (spared spares).elim
  | @deletes fid r idle keeps named' slot own posts records queues =>
      rw [named, Option.some.injEq] at named'
      subst r
      have stances := acted.released (q := q) idle own posts
      rw [if_pos rfl] at stances
      exact ⟨fid, slot, queues, stances⟩
  | resets idle preset spares own here posts records queues => exact (spared spares).elim
  | fails attempt inside resumed here cause outcome after posts records queues =>
      exact (spared (attempt_pdeletes attempt)).elim
  | blocks attempt inside here full again outcome posts records queues =>
      exact (spared (attempt_pdeletes attempt)).elim
  | stores woken attempt here inside outcome first room again posts records queues =>
      exact (spared (attempt_pdeletes attempt)).elim
  | takes woken attempt here inside outcome filled first rest again posts records queues =>
      exact (spared (attempt_pdeletes attempt)).elim

theorem Acted.deletes (acted : k.Acted e n k' a) (stocked : k.Stocked)
    (held : k.records q ≠ none) (named : k.pdeleteQueue e = some q) : k'.Deleted q := by
  obtain ⟨fid, slot, queues, -⟩ := acted.pdeletes named
  refine ⟨acted.recorded held, ?_⟩
  intro i listed
  rw [queues, Function.update_apply] at listed
  split at listed
  · cases listed
  · next other => exact other (stocked.slots i fid q listed slot)

theorem Stocked.buffer_eq (stocked : k.Stocked) (stocked' : k'.Stocked) {mq' : MessageQueue}
    (here : k.records q = some mq) (there : k'.records q = some mq') : mq'.buffer = mq.buffer := by
  rw [(stocked.buffers q mq here).1, (stocked'.buffers q mq' there).1]

/-- What a step does to the two blocks of a queue. -/
structure Blocks (k : Kernel) (e : Event) (k' : Kernel) (q : Addr) (mq : MessageQueue) : Prop where
  record : k'.heap q = k.heap q
  spared : k.pdeleteQueue e ≠ some q → k'.heap mq.buffer = k.heap mq.buffer
  freed : k.pdeleteQueue e = some q →
    k.heap mq.buffer = some (sizeofInt * mq.bufferSize.toNat % 2 ^ 32) ∧ k'.heap mq.buffer = none

theorem segment_blocks {context : Frame} (consistent : k.Consistent) (stocked : k.Stocked)
    (here : k.records q = some mq) (run : k.segment context e = .ok (k', n)) :
    Blocks k e k' q mq := by
  have block := (stocked.buffers q mq here).1
  have room := stocked.room q (.inr ⟨mq, here⟩)
  constructor
  · apply segment_heap consistent (Nat.lt_of_succ_lt room) _ run
    intro r mq' _ there
    rw [(stocked.buffers r mq' there).1]
    exact stocked.apart r q (.inr ⟨mq', there⟩) (.inr ⟨mq, here⟩)
  · intro spares
    apply segment_heap consistent (block ▸ room) _ run
    intro r mq' named there
    rw [block, (stocked.buffers r mq' there).1]
    intro same
    rw [Nat.succ.inj same] at spares
    exact spares named
  · intro named
    cases e with
    | resume | clockInterrupt => cases named
    | call c =>
        cases c with
        | pdelete fid =>
            simp only [Kernel.segment] at run
            split at run
            · obtain ⟨held, heap⟩ := pdelete_frees stocked consistent.linked named here run
              rw [heap]
              exact ⟨held, Function.update_self _ _ _⟩
            · cases run
        | start | exit | kill | waitpid | chprio | getprio | waitClock | sleep | pcreate
        | preset | pcount | preceive | psend => cases named

theorem step_blocks (consistent : k.Consistent) (stocked : k.Stocked)
    (here : k.records q = some mq) (held : k'.records q ≠ none)
    (run : k.step e = .ok (k', n)) : Blocks k e k' q mq := by
  obtain ⟨a, p, k₁, current, there, segment, finish⟩ := step_eq run
  have blocks := segment_blocks consistent stocked here segment
  have stocked₁ := stocked.segment consistent current segment
  rcases finish_eq finish with ⟨value, out, -, rfl⟩ | ⟨context, -, finish⟩
  · exact ⟨blocks.record, blocks.spared, blocks.freed⟩
  · have saved : (k₁.setContext a context).Consistent := (consistent.segment segment).setContext
    have stocked₂ : (k₁.setContext a context).Stocked := stocked₁.setProc fun _ => rfl
    have records := (scheduling_same saved finish).1
    obtain ⟨mq', there⟩ := Option.ne_none_iff_exists'.mp held
    rw [records] at there
    have same := stocked.buffer_eq stocked₂ here there
    obtain ⟨record, buffer⟩ := scheduling_heap saved stocked₂ there finish
    rw [same] at buffer
    constructor
    · exact record.trans blocks.record
    · exact fun spares => buffer.trans (blocks.spared spares)
    · intro named
      exact ⟨(blocks.freed named).1, buffer.trans (blocks.freed named).2⟩

theorem step_pcreate {count : Int} {recordGranted bufferGranted : Bool}
    (whole : k.halvesQueue (.call (.pcreate count recordGranted bufferGranted)) = false)
    (run : k.step (.call (.pcreate count recordGranted bufferGranted)) = .ok (k', n)) :
    (k'.records = k.records ∧ k'.nextBlock = k.nextBlock) ∨
      (k'.nextBlock = k.nextBlock + 2 ∧ k'.records k.nextBlock ≠ none ∧
        k'.heap k.nextBlock ≠ none) := by
  obtain ⟨a, p, k₁, current, here, segment, finish⟩ := step_eq run
  simp only [Kernel.segment] at segment
  split at segment
  · rcases pcreate_eq segment with ⟨-, rfl, rfl⟩ |
      ⟨positive, bounded, room, granted, -, -, ⟨refused, -, -⟩ | ⟨-, rfl, rfl⟩⟩
    · cases finish
      exact .inl ⟨rfl, rfl⟩
    · simp [halvesQueue, positive, bounded, room, granted, refused] at whole
    · cases finish
      refine .inr ⟨rfl, ?_, ?_⟩
      · change Function.update k.records k.nextBlock _ k.nextBlock ≠ none
        rw [Function.update_self]
        exact Option.some_ne_none _
      · change Function.update (Function.update k.heap k.nextBlock _) _ _ k.nextBlock ≠ none
        rw [Function.update_of_ne (Nat.ne_of_lt (Nat.lt_succ_self _)), Function.update_self]
        exact Option.some_ne_none _
  · cases segment

end Kernel

open Kernel

variable {history : History} {k k' : Kernel} {a b q : Addr} {e : Event} {n : Next}
  {mq : MessageQueue}

def Created (history : History) (b : Addr) : Prop :=
  ∃ t ∈ history, t.event.count ≠ none ∧ t.before.nextBlock ≤ b ∧ b < t.after.nextBlock

def KeepsQueues (_ : History) (t : Step) : Prop := t.before.pdeleteQueue t.event = none

instance (past : History) (t : Step) : Decidable (KeepsQueues past t) :=
  inferInstanceAs (Decidable (_ = _))

/-- Of the blocks allocated by `pcreate` exactly the records and the buffers of the queues in
the table are left. The buffers that `pdelete` has freed were allocated with the length that
it passed, and have not been there since; so will be those that it can still free. -/
structure GivenBack (history : History) (k : Kernel) : Prop where
  left : ∀ b, Created history b ∧ k.heap b ≠ none ↔
    ∃ fid q mq, k.queues fid = some q ∧ k.records q = some mq ∧ (b = q ∨ b = mq.buffer)
  lengths : ∀ fid q mq, k.queues fid = some q → k.records q = some mq →
    k.heap mq.buffer = some (sizeofInt * mq.bufferSize.toNat % 2 ^ 32)
  freed : ∀ t ∈ history, ∀ q mq, t.before.pdeleteQueue t.event = some q →
    t.before.records q = some mq →
      t.before.heap mq.buffer = some (sizeofInt * mq.bufferSize.toNat % 2 ^ 32) ∧
        k.heap mq.buffer = none

/-- What holds of the blocks of all queues, deleted or not. -/
structure QueueLedger (history : History) (k : Kernel) : Prop where
  owned : ∀ b, Created history b → ∃ q mq, k.records q = some mq ∧ (b = q ∨ b = mq.buffer)
  made : ∀ q mq, k.records q = some mq → Created history q ∧ Created history mq.buffer
  kept : ∀ q mq, k.records q = some mq → k.heap q ≠ none
  freed : ∀ t ∈ history, ∀ q, t.before.pdeleteQueue t.event = some q → k.Deleted q ∧
    ∀ mq, t.before.records q = some mq →
      t.before.heap mq.buffer = some (sizeofInt * mq.bufferSize.toNat % 2 ^ 32) ∧
        mq.buffer = q + 1 ∧ k.heap mq.buffer = none

theorem created_cons : Created (⟨k, e, n, k'⟩ :: history) b ↔
    (e.count ≠ none ∧ k.nextBlock ≤ b ∧ b < k'.nextBlock) ∨ Created history b := by
  simp only [Created, List.mem_cons, exists_eq_or_imp]

theorem QueueLedger.step (ledger : QueueLedger history k) (run : Reached history k)
    (registered : k.Registered) (whole : k.halvesQueue e = false)
    (taken : k.step e = .ok (k', n)) : QueueLedger (⟨k, e, n, k'⟩ :: history) k' := by
  obtain ⟨a, acted⟩ := acted_of_run run taken
  have consistent := (consistent_of_run run).1
  have stocked := (stocked_of_run run).1
  have stocked' := (stocked_of_run (.next run taken)).1
  have fresh : k.records k.nextBlock = none := (consistent.fresh _ le_rfl).2
  have grows (new : e.count ≠ none) : (k'.records = k.records ∧ k'.nextBlock = k.nextBlock) ∨
      (k'.nextBlock = k.nextBlock + 2 ∧ k'.records k.nextBlock ≠ none ∧
        k'.heap k.nextBlock ≠ none) := by
    cases e with
    | resume | clockInterrupt => exact absurd rfl new
    | call c =>
        cases c with
        | pcreate count recordGranted bufferGranted => exact step_pcreate whole taken
        | start | exit | kill | waitpid | chprio | getprio | waitClock | sleep | pdelete | preset
        | pcount | preceive | psend => exact absurd rfl new
  have before {q : Addr} {mq' : MessageQueue} (there : k'.records q = some mq') :
      (∃ mq, k.records q = some mq ∧ mq.buffer = mq'.buffer) ∨
        k.records q = none ∧ e.count ≠ none ∧ q = k.nextBlock := by
    cases here : k.records q with
    | some mq => exact .inl ⟨mq, rfl, (stocked.buffer_eq stocked' here there).symm⟩
    | none => exact .inr ⟨rfl, acted.recorded_new here (by simp [there])⟩
  have after {q : Addr} {mq : MessageQueue} (here : k.records q = some mq) :
      ∃ mq', k'.records q = some mq' ∧ mq'.buffer = mq.buffer := by
    have held : k.records q ≠ none := by simp [here]
    obtain ⟨mq', there⟩ := Option.ne_none_iff_exists'.mp (acted.recorded held)
    exact ⟨mq', there, stocked.buffer_eq stocked' here there⟩
  have blocks {q : Addr} {mq : MessageQueue} (here : k.records q = some mq) :
      Blocks k e k' q mq :=
    step_blocks consistent stocked here (acted.recorded (by simp [here])) taken
  constructor
  · intro b created
    rcases created_cons.mp created with ⟨new, least, less⟩ | created
    · rcases grows new with ⟨-, next⟩ | ⟨next, held, -⟩
      · exact absurd less (Nat.not_lt.mpr (next ▸ least))
      · obtain ⟨mq, there⟩ := Option.ne_none_iff_exists'.mp held
        have buffer := (stocked'.buffers k.nextBlock mq there).1
        refine ⟨k.nextBlock, mq, there, ?_⟩
        rw [next] at less
        rcases Nat.eq_or_lt_of_le least with same | more
        · exact .inl same.symm
        · exact .inr (buffer.symm ▸ Nat.le_antisymm (Nat.le_of_lt_succ less) more)
    · obtain ⟨q, mq, here, own⟩ := ledger.owned b created
      obtain ⟨mq', there, buffer⟩ := after here
      exact ⟨q, mq', there, buffer ▸ own⟩
  · intro q mq' there
    rcases before there with ⟨mq, here, buffer⟩ | ⟨absent, new, rfl⟩
    · obtain ⟨record, made⟩ := ledger.made q mq here
      rw [← buffer]
      exact ⟨created_cons.mpr (.inr record), created_cons.mpr (.inr made)⟩
    · rcases grows new with ⟨records, -⟩ | ⟨next, -, -⟩
      · rw [records, fresh] at there
        cases there
      · rw [(stocked'.buffers _ mq' there).1]
        refine ⟨created_cons.mpr (.inl ⟨new, le_rfl, ?_⟩),
          created_cons.mpr (.inl ⟨new, Nat.le_succ _, ?_⟩)⟩
        · rw [next]
          exact Nat.lt_add_of_pos_right Nat.two_pos
        · rw [next]
          exact Nat.lt_succ_self _
  · intro q mq' there
    rcases before there with ⟨mq, here, -⟩ | ⟨absent, new, rfl⟩
    · rw [(blocks here).record]
      exact ledger.kept q mq here
    · rcases grows new with ⟨records, -⟩ | ⟨-, -, held⟩
      · rw [records, fresh] at there
        cases there
      · exact held
  · intro t member q named
    rcases List.mem_cons.mp member with rfl | member
    · obtain ⟨fid, slot, -⟩ := acted.pdeletes named
      refine ⟨acted.deletes stocked (registered.known fid q slot) named, fun mq here => ?_⟩
      obtain ⟨held, free⟩ := (blocks here).freed named
      exact ⟨held, (stocked.buffers q mq here).1, free⟩
    · obtain ⟨deleted, freed⟩ := ledger.freed t member q named
      refine ⟨acted.deleted consistent deleted, fun mq was => ?_⟩
      obtain ⟨held, buffer, free⟩ := freed mq was
      refine ⟨held, buffer, ?_⟩
      obtain ⟨mq₁, here⟩ := Option.ne_none_iff_exists'.mp deleted.1
      rw [buffer, ← (stocked.buffers q mq₁ here).1] at free ⊢
      by_cases again : k.pdeleteQueue e = some q
      · exact ((blocks here).freed again).2
      · rw [(blocks here).spared again]
        exact free

theorem queueLedger_of_run (run : Reached history k) (whole : Meets WholeQueues history) :
    QueueLedger history k := by
  refine run.invariant (I := QueueLedger) ?_ ?_ whole
  · intro k booted
    obtain ⟨p, -, -, -, -, -, -, -, -, -, -, records, -⟩ := booted.state
    constructor
    · rintro b ⟨t, member, -⟩
      cases member
    · intro q mq here
      rw [records] at here
      cases here
    · intro q mq here
      rw [records] at here
      cases here
    · intro t member
      cases member
  · intro past k e n k' run whole ledger taken kept
    exact ledger.step run (registered_of_run run whole) kept taken

theorem undeleted_of_run (run : Reached history k) (keeps : Meets KeepsQueues history) :
    ¬ k.Deleted q := by
  refine run.invariant (I := fun _ k => ¬ k.Deleted q) ?_ ?_ keeps
  · rintro k booted ⟨held, -⟩
    obtain ⟨p, -, -, -, -, -, -, -, -, -, -, records, -⟩ := booted.state
    exact held (records q)
  · intro past k e n k' run _ kept taken keeps
    obtain ⟨a, acted⟩ := acted_of_run run taken
    apply acted.undeleted kept
    change k.pdeleteQueue e = none at keeps
    simp [keeps]

theorem GivenBack.keeps (given : GivenBack history k) (ledger : QueueLedger history k)
    (stocked : k.Stocked) : Meets KeepsQueues history := by
  have keeps : ∀ t ∈ history, t.before.pdeleteQueue t.event = none := by
    intro t member
    cases named : t.before.pdeleteQueue t.event with
    | none => rfl
    | some q =>
        exfalso
        obtain ⟨held, absent⟩ := (ledger.freed t member q named).1
        obtain ⟨mq, here⟩ := Option.ne_none_iff_exists'.mp held
        obtain ⟨fid, q', mq', slot, there, same | same⟩ :=
          (given.left q).mp ⟨(ledger.made q mq here).1, ledger.kept q mq here⟩
        · exact absent fid (same ▸ slot)
        · rw [(stocked.buffers q' mq' there).1] at same
          exact stocked.apart q' q (.inr ⟨mq', there⟩) (.inr ⟨mq, here⟩) same
  clear given ledger stocked
  induction history with
  | nil => trivial
  | cons t past ih =>
      exact ⟨keeps t List.mem_cons_self, ih fun u member =>
        keeps u (List.mem_cons_of_mem _ member)⟩

/-- In a run in which every `pcreate` gets its two blocks or none, the memory of the queues is
accounted for at a moment exactly when no `pdelete` has deleted a queue, whether or not a
process is suspended inside a call on a deleted queue. -/
theorem queue_memory_given_back (run : Reached history k) (whole : Meets WholeQueues history) :
    GivenBack history k ↔ Meets KeepsQueues history := by
  have ledger := queueLedger_of_run run whole
  have stocked := (stocked_of_run run).1
  constructor
  · exact fun given => given.keeps ledger stocked
  · intro keeps
    constructor
    · intro b
      constructor
      · rintro ⟨created, -⟩
        obtain ⟨q, mq, here, own⟩ := ledger.owned b created
        have present : ∃ fid, k.queues fid = some q := by
          by_contra absent
          exact undeleted_of_run run keeps
            ⟨by simp [here], fun i listed => absent ⟨i, listed⟩⟩
        obtain ⟨fid, slot⟩ := present
        exact ⟨fid, q, mq, slot, here, own⟩
      · rintro ⟨fid, q, mq, slot, here, rfl | rfl⟩
        · exact ⟨(ledger.made _ mq here).1, ledger.kept _ mq here⟩
        · refine ⟨(ledger.made q mq here).2, ?_⟩
          rw [stocked.queues fid q mq slot here]
          exact Option.some_ne_none _
    · intro fid q mq slot here
      obtain ⟨-, positive, bounded⟩ := stocked.buffers q mq here
      rw [stocked.queues fid q mq slot here, sizeofInt, Nat.mod_eq_of_lt]
      omega
    · intro t member q mq named here
      obtain ⟨held, -, free⟩ := (ledger.freed t member q named).2 mq here
      exact ⟨held, free⟩

/-- Two queues are created and one message is sent. -/
theorem queue_memory_given_back_two : ∃ history k, Reached history k ∧ k.queueCount = 2 ∧
    GivenBack history k := by
  obtain ⟨history, k, run, checked⟩ := reached_by
    [.call (.pcreate 1 true true), .call (.pcreate 5 true true), .call (.psend 1 7)]
    (fun history k => decide (k.queueCount = 2) && decide (Meets WholeQueues history) &&
      decide (Meets KeepsQueues history))
    (by decide +kernel)
  simp only [Bool.and_eq_true, decide_eq_true_eq] at checked
  obtain ⟨⟨two, whole⟩, keeps⟩ := checked
  exact ⟨history, k, run, two, (queue_memory_given_back run whole).mpr keeps⟩

def Kernel.Quiet (k : Kernel) : Prop :=
  ∀ b f fid q, (k.post b).frame = some f → f.queue = some (fid, q) → ¬ k.Deleted q

/-- `pdelete` leaves the record of the queue allocated. -/
theorem deleted_record_stays : ¬ ∀ history k, Reached history k → Meets WholeQueues history →
    k.Quiet → GivenBack history k := by
  intro given
  obtain ⟨history, k, run, checked⟩ := reached_by
    [.call (.pcreate 1 true true), .call (.pdelete 0), .resume]
    (fun history k => decide (Meets WholeQueues history) &&
      decide (¬ Meets KeepsQueues history) &&
      (List.range k.nextBlock).all fun b => (k.post b).frame.isNone)
    (by decide +kernel)
  simp only [Bool.and_eq_true, decide_eq_true_eq, List.all_eq_true, List.mem_range] at checked
  obtain ⟨⟨whole, deletes⟩, away⟩ := checked
  have quiet : k.Quiet := by
    intro b f fid q frame
    exfalso
    by_cases old : b < k.nextBlock
    · have none := away b old
      rw [frame] at none
      cases none
    · rw [post_none ((consistent_of_run run).1.fresh b (Nat.not_lt.mp old)).1] at frame
      cases frame
  exact deletes ((given history k run whole quiet).keeps (queueLedger_of_run run whole)
    (stocked_of_run run).1)

end IntelX86Kernel

import IntelX86Kernel.BufferFaults
import IntelX86Kernel.KilledWaiters
import IntelX86Kernel.QueueMemory

/-! The calls in progress on a queue that `pdelete` has taken out of the table. -/

namespace IntelX86Kernel

open Transition

namespace Kernel

variable {k k' : Kernel} {a b q : Addr} {e : Event} {n : Next} {f : Frame} {fid : Nat}
  {receives : Bool} {mq : MessageQueue}

theorem frame_active (current : k.processesTable k.activePID = some b)
    (frame : (k.post b).frame = some f) : k.frame = f := by
  cases here : k.procs b with
  | none =>
      rw [post_none here] at frame
      cases frame
  | some p =>
      rw [frame_eq current here]
      rw [post_apply here, Proc.post] at frame
      split at frame
      · cases frame
      · split at frame <;> cases frame <;> rfl

theorem resume_fails (current : k.processesTable k.activePID = some b) (live : k.procs b ≠ none)
    (inside : k.frame.queue = some (fid, q)) (here : k.records q = some mq)
    (stopped : ¬ k.Accesses fid mq) :
    ∃ k' flag, k.step .resume = .ok (k', .ret (-1) none) ∧
      k'.records q = some { mq with resetFlag := flag } := by
  obtain ⟨p, there⟩ := Option.ne_none_iff_exists'.mp live
  have ends (k₁ : Kernel) (run : k.continueWith k.frame = .ok (k₁, .ret (-1) none)) :
      k.step .resume = .ok (k₁.setContext b .user, .ret (-1) none) := by
    rw [frame_eq current there] at run
    apply bind_eq_ok.mpr
    refine ⟨b, active_eq_ok.mpr current, bind_eq_ok.mpr ⟨p, deref_eq_ok.mpr there, ?_⟩⟩
    exact bind_eq_ok.mpr ⟨_, run, rfl⟩
  have record := record_eq_ok.mpr here
  have lowers : (k.setRecord q MessageQueue.unflagged).records q = some mq.unflagged := by
    rw [setRecord_records, if_pos rfl, here, Option.map_some]
  cases frame : k.frame with
  | user | done | start | exit | waitpid | waitForChild =>
      rw [frame] at inside
      cases inside
  | preceive fid q =>
      rw [frame] at inside ends
      cases inside
      have refused : k.queues fid = none ∨ mq.nbMessages = 0 ∨ mq.resetFlag ≠ 0 := by
        by_contra passed
        simp only [not_or, Decidable.not_not] at passed
        exact stopped ⟨passed.1, passed.2.2, fun _ => passed.2.1⟩
      have run : k.continueWith (.preceive fid q) =
          .ok (k.setRecord q MessageQueue.unflagged, .ret (-1) none) := by
        refine bind_eq_ok.mpr ⟨mq, record, ?_⟩
        rw [if_pos refused]
        rfl
      exact ⟨_, _, ends _ run, lowers⟩
  | psend fid q message =>
      rw [frame] at inside ends
      cases inside
      by_cases gone : k.queues fid = none
      · have run : k.continueWith (.psend fid q message) = .ok (k, .ret (-1) none) := by
          refine bind_eq_ok.mpr ⟨mq, record, ?_⟩
          rw [if_pos gone]
        exact ⟨_, mq.resetFlag, ends _ run, here⟩
      · have flagged : mq.resetFlag ≠ 0 := by
          intro clear
          apply stopped
          refine ⟨gone, clear, fun receives => ?_⟩
          rw [frame] at receives
          cases receives
        have run : k.continueWith (.psend fid q message) =
            .ok (k.setRecord q MessageQueue.unflagged, .ret (-1) none) := by
          refine bind_eq_ok.mpr ⟨mq, record, ?_⟩
          rw [if_neg gone, if_pos flagged]
          rfl
        exact ⟨_, _, ends _ run, lowers⟩

theorem Acted.stays_due (acted : k.Acted e n k' a) (consistent : k.Consistent) (other : b ≠ a)
    (spared : Event.target k e ≠ some b) (stands : k.stance q b = .due receives) :
    k'.stance q b = .due receives := by
  have freed {woken : Option Addr} : Function.update (freeing woken (k.stance q)) a .elsewhere b =
      .due receives := by
    rw [Function.update_of_ne other, freeing_apply]
    split
    · exact congrArg Stance.release stands
    · exact stands
  cases acted.serves (q := q) consistent with
  | passes idle keeps spares records stances =>
      rcases stances with same | ⟨c, target, moved⟩
      · exact same ▸ stands
      · rw [moved, Function.update_of_ne, stands]
        rintro rfl
        exact spared target
  | opens mq fresh records positive empty flag stances => exact stances ▸ stands
  | closes named records stances | resets mq named here records stances =>
      rw [stances]
      exact congrArg Stance.release stands
  | fails f fid mq mq' attempt inside resumed here cause outcome after stood records stances
  | blocks f fid mq attempt inside here full again outcome stood records stances =>
      rw [stances, Function.update_of_ne other, stands]
  | stores fid message mq cell woken attempt here outcome first room again stood records stances
  | takes fid mq cell woken attempt here outcome filled first rest again stood records stances =>
      rw [stances, freed]

theorem Acted.due (acted : k.Acted e n k' a) (consistent : k.Consistent) (other : b ≠ a)
    (stands : k.stance q b = .due receives) (run : k.step e = .ok (k', n)) :
    k'.stance q b = .due receives ∨ Dormant none (k'.procs b) := by
  have present : k.stance q b ≠ .elsewhere := by simp [stands]
  by_cases target : Event.target k e = some b
  · exact .inr (step_kill_dormant consistent acted.current target other present run)
  · exact .inl (acted.stays_due consistent other target stands)

def Deserted (k : Kernel) : Prop :=
  ∀ q b receives, k.Deleted q → k.stance q b ≠ .waits receives

/-- A call that is resumed on a queue that its slot no longer holds is ended by its tests. -/
def Noticed (k : Kernel) : Prop :=
  ∀ entry ∈ k.frame.queue, ∀ mq ∈ k.records entry.2,
    k.queues entry.1 = some entry.2 ∨ ¬ k.Accesses entry.1 mq

instance (k : Kernel) (fid : Nat) (mq : MessageQueue) : Decidable (k.Accesses fid mq) :=
  inferInstanceAs (Decidable (_ ∧ _ ∧ (_ → _)))

instance : DecidablePred Noticed := fun k =>
  inferInstanceAs (Decidable (∀ entry ∈ k.frame.queue, ∀ mq ∈ k.records entry.2, _ ∨ _))

theorem Noticed.stops (noticed : k.Noticed) (inside : k.frame.queue = some (fid, q))
    (here : k.records q = some mq) (deleted : k.Deleted q) : ¬ k.Accesses fid mq := by
  rcases noticed (fid, q) inside mq here with slot | stops
  · exact absurd slot (deleted.2 fid)
  · exact stops

theorem Acted.deserted (acted : k.Acted e n k' a) (consistent : k.Consistent) (noticed : k.Noticed)
    (deserted : k.Deserted) : k'.Deserted := by
  intro q b receives deleted
  by_cases gone : k.Deleted q
  · have empty := deserted q b receives gone
    have kept {woken : Option Addr} {c : Addr} :
        Function.update (freeing woken (k.stance q)) c .elsewhere b ≠ .waits receives := by
      rw [Function.update_apply, freeing_apply]
      split
      · simp
      · split
        · exact Stance.release_ne_waits
        · exact empty
    cases acted.serves (q := q) consistent with
    | passes idle keeps spares records stances =>
        rcases stances with same | ⟨c, target, moved⟩
        · exact same ▸ empty
        · rw [moved, Function.update_apply]
          split
          · simp
          · exact empty
    | opens mq fresh records positive empty flag stances => exact absurd fresh gone.1
    | closes named records stances | resets mq named here records stances =>
        rw [stances]
        exact Stance.release_ne_waits
    | fails f fid mq mq' attempt inside resumed here cause outcome after stood records stances =>
        rw [stances, Function.update_apply]
        split
        · simp
        · exact empty
    | blocks f fid mq attempt inside here full again outcome stood records stances =>
        exfalso
        obtain ⟨fid', q', inside', ⟨resumed, frame⟩ | ⟨-, slot⟩⟩ := attempt_cases attempt
        · obtain ⟨sends, flag, slot⟩ := again resumed
          refine noticed.stops (frame ▸ inside) here gone ⟨slot, flag, fun receives => ?_⟩
          rw [frame, sends] at receives
          cases receives
        · rw [inside] at inside'
          cases inside'
          exact gone.2 fid slot
    | stores fid message mq cell woken attempt here outcome first room again stood records stances
    | takes fid mq cell woken attempt here outcome filled first rest again stood records stances =>
        rw [stances]
        exact kept
  · by_cases named : k.pdeleteQueue e = some q
    · obtain ⟨-, -, -, stances⟩ := acted.pdeletes named
      rw [stances]
      exact Stance.release_ne_waits
    · exact absurd deleted (acted.undeleted gone named)

def Discarded (k : Kernel) : Prop :=
  ∀ q mq, k.Deleted q → k.records q = some mq → k.heap mq.buffer = none

theorem Acted.discarded (acted : k.Acted e n k' a) (consistent : k.Consistent)
    (stocked : k.Stocked) (stocked' : k'.Stocked) (run : k.step e = .ok (k', n))
    (discarded : k.Discarded) : k'.Discarded := by
  intro q mq' deleted there
  cases here : k.records q with
  | none =>
      have kept : ¬ k.Deleted q := fun gone => gone.1 here
      have named : k.pdeleteQueue e = some q := by
        by_contra spared
        exact acted.undeleted kept spared deleted
      have new := (acted.recorded_new here (by simp [there])).1
      cases e with
      | resume | clockInterrupt => cases named
      | call c =>
          cases c with
          | pdelete fid => exact absurd rfl new
          | start | exit | kill | waitpid | chprio | getprio | waitClock | sleep | pcreate
          | preset | pcount | preceive | psend => cases named
  | some mq =>
      have blocks := step_blocks consistent stocked here (by simp [there]) run
      rw [stocked.buffer_eq stocked' here there]
      by_cases named : k.pdeleteQueue e = some q
      · exact (blocks.freed named).2
      · rw [blocks.spared named]
        apply discarded q mq _ here
        by_contra kept
        exact acted.undeleted kept named deleted

end Kernel

open Kernel

variable {history later earlier : History} {t : Step} {k k' : Kernel} {a b q : Addr}
  {receives : Bool}

def Notices (_ : History) (t : Step) : Prop := t.before.Noticed

instance (past : History) (t : Step) : Decidable (Notices past t) :=
  inferInstanceAs (Decidable (Noticed _))

theorem discarded_of_run (run : Reached history k) : k.Discarded := by
  refine run.always (I := fun _ k => k.Discarded) ?_ ?_
  · intro k booted q mq deleted here
    obtain ⟨p, -, -, -, -, -, -, -, -, -, -, records, -⟩ := booted.state
    rw [records] at here
    cases here
  · intro past k e n k' run discarded taken
    obtain ⟨a, acted⟩ := acted_of_run run taken
    exact acted.discarded (consistent_of_run run).1 (stocked_of_run run).1
      (stocked_of_run (.next run taken)).1 taken discarded

theorem deserted_of_run (run : Reached history k) (notices : Meets Notices history) :
    k.Deserted := by
  refine run.invariant (I := fun _ k => k.Deserted) ?_ ?_ notices
  · rintro k booted q b receives ⟨held, -⟩
    obtain ⟨p, -, -, -, -, -, -, -, -, -, -, records, -⟩ := booted.state
    exact absurd (records q) held
  · intro past k e n k' run _ deserted taken noticed
    obtain ⟨a, acted⟩ := acted_of_run run taken
    exact acted.deserted (consistent_of_run run).1 noticed deserted

theorem deleted_of_run (run : Reached (later ++ t :: earlier) k) (deleted : t.after.Deleted q) :
    k.Deleted q := by
  induction later generalizing k with
  | nil =>
      cases run with
      | next run taken => exact deleted
  | cons last others ih =>
      cases run with
      | next run taken =>
          obtain ⟨a, acted⟩ := acted_of_run run taken
          exact acted.deleted (consistent_of_run run).1 (ih run)

theorem due_of_run (run : Reached (later ++ t :: earlier) k)
    (stands : t.after.stance q b = .due receives)
    (rests : ∀ u ∈ later, u.before.processesTable u.before.activePID ≠ some b) :
    (k.stance q b = .due receives ∨ Dormant none (k.procs b)) ∧ b < k.nextBlock := by
  induction later generalizing k with
  | nil =>
      have present : t.after.stance q b ≠ .elsewhere := by simp [stands]
      have consistent := (consistent_of_run run).1
      cases run with
      | next run taken => exact ⟨.inl stands, stance_lt consistent present⟩
  | cons last others ih =>
      cases run with
      | @next _ k₁ _ e o run taken =>
          obtain ⟨consistent, running⟩ := consistent_of_run run
          obtain ⟨a, acted⟩ := acted_of_run run taken
          have other : b ≠ a := by
            rintro rfl
            exact rests _ List.mem_cons_self acted.current
          obtain ⟨stands, old⟩ := ih run fun u member => rests u (List.mem_cons_of_mem _ member)
          refine ⟨?_, old.trans_le (next_le_of_run run taken)⟩
          rcases stands with due | dormant
          · exact acted.due consistent other due taken
          · right
            refine (step_dormant consistent running taken ?_ old dormant).1
            intro time equal
            cases equal

/-- After a `pdelete` its waiters fail when they are next elected, nobody waits in a queue that
is not in the table, and freed buffers stay freed and are not accessed. -/
structure ReleasesForGood (history : History) (k : Kernel) : Prop where
  waiters : ∀ later t earlier q b receives, history = later ++ t :: earlier →
    t.before.pdeleteQueue t.event = some q → t.before.stance q b = .waits receives →
    (∀ u ∈ later, u.before.processesTable u.before.activePID ≠ some b) →
    k.processesTable k.activePID = some b →
      ∃ k', k.step .resume = .ok (k', .ret (-1) none)
  unlinked : ∀ q, k.Deleted q → k.lists (.queue q) = []
  freed : ∀ t ∈ history, ∀ q mq, t.before.pdeleteQueue t.event = some q →
    t.before.records q = some mq → k.heap mq.buffer = none
  spared : ∀ e, k.step e ≠ .error .bufferFreed

/-- In a run in which every call that is resumed on a deleted queue, when its identifier has
been given away, is ended by the state of the queue, `pdelete` releases every waiter for good. -/
theorem pdelete_releases_for_good (run : Reached history k) (notices : Meets Notices history)
    (noticed : k.Noticed) : ReleasesForGood history k := by
  obtain ⟨consistent, running⟩ := consistent_of_run run
  have stocked := (stocked_of_run run).1
  have manned := manned_of_run run
  have deleted {later earlier : History} {t : Step} {q : Addr} (split : history = later ++ t :: earlier)
      (named : t.before.pdeleteQueue t.event = some q) (held : t.before.records q ≠ none) :
      k.Deleted q := by
    obtain ⟨before, taken⟩ := run.split split
    obtain ⟨a, acted⟩ := acted_of_run before taken
    rw [split] at run
    exact deleted_of_run run (acted.deletes (stocked_of_run before).1 held named)
  constructor
  · intro later t earlier q b receives split named waits rests elected
    obtain ⟨before, taken⟩ := run.split split
    obtain ⟨a, acted⟩ := acted_of_run before taken
    obtain ⟨-, -, -, stances⟩ := acted.pdeletes named
    have due : t.after.stance q b = .due receives := by
      rw [stances]
      exact congrArg Stance.release waits
    have stood : t.before.stance q b ≠ .elsewhere := by simp [waits]
    obtain ⟨-, p, here, -⟩ := consistent.table _ _ elected
    have status := running.status elected here
    rw [split] at run
    rcases (due_of_run run due rests).1 with stands | dormant
    · have stays : k.stance q b ≠ .elsewhere := by simp [stands]
      obtain ⟨f, fid, frame, inside, -⟩ := stance_frame stays
      have held : t.before.records q ≠ none := by
        obtain ⟨f, fid, frame, inside, -⟩ := stance_frame stood
        exact ((manned_of_run before).framed b f fid q frame inside).1
      have gone := deleted split named held
      obtain ⟨mq, record⟩ := Option.ne_none_iff_exists'.mp gone.1
      have active := frame_active elected frame
      rw [← active] at inside
      have live : k.procs b ≠ none := by simp [here]
      obtain ⟨k', flag, failed, -⟩ :=
        resume_fails elected live inside record (noticed.stops inside record gone)
      exact ⟨k', failed⟩
    · exact absurd (.inr status) (dormant.not_awake here)
  · intro q gone
    apply List.eq_nil_iff_forall_not_mem.mpr
    intro b member
    obtain ⟨receives, waits⟩ := (stance_member consistent manned).mp member
    exact deserted_of_run run notices q b receives gone waits
  · intro t member q mq named there
    obtain ⟨later, earlier, split⟩ := List.append_of_mem member
    have gone := deleted split named (by simp [there])
    obtain ⟨mq', here⟩ := Option.ne_none_iff_exists'.mp gone.1
    have same := (stocked_of_run (run.split split).1).1.buffer_eq stocked there here
    rw [← same]
    exact discarded_of_run run q mq' gone here
  · intro e
    apply step_clear consistent.linked stocked
    intro fid q mq inside here accesses
    by_cases gone : k.Deleted q
    · exact absurd accesses (noticed.stops inside here gone)
    · obtain ⟨b, p, current, there, status⟩ := running
      have frame : (k.post b).frame = some k.frame := by
        rw [frame_eq current there, post_apply there,
          Proc.post_unblocked (by rw [← frame_eq current there, inside]; simp) (.inr status)]
        rfl
      rw [stocked.queues fid q mq (manned.slot gone frame inside) here]
      exact Option.some_ne_none _

/-- Process 1, of priority 20, sleeps while process 2, of priority 10, blocks in a `psend` on the
full queue 0. It then deletes the queue. -/
def deletedUnderSender : List Event :=
  [.call (.start 512 20 [97] true true), .call (.start 512 10 [98] true true),
    .call (.pcreate 1 true true), .call (.psend 0 7), .call (.waitClock 0), .call (.psend 0 8),
    .resume, .clockInterrupt, .resume, .call (.pdelete 0), .resume]

theorem pdelete_releases_for_good_sender : ∃ history k, Reached history k ∧
    k.frame.queue ≠ none ∧ ReleasesForGood history k := by
  obtain ⟨history, k, run, checked⟩ := reached_by (deletedUnderSender ++ [.call (.waitClock 5)])
    (fun history k => decide (Meets Notices history) && decide k.Noticed &&
      decide (k.frame.queue ≠ none))
    (by decide +kernel)
  simp only [Bool.and_eq_true, decide_eq_true_eq] at checked
  obtain ⟨⟨notices, noticed⟩, inside⟩ := checked
  exact ⟨history, k, run, inside, pdelete_releases_for_good run notices noticed⟩

/-- The `count`-th last step deletes a queue on which the active process was waiting then, this
process has not run since, and it blocks on the deleted queue again. -/
def blocksAgain (count : Nat) (history : History) (k : Kernel) : Bool :=
  match history.drop count with
  | [] => false
  | t :: _ =>
      match t.before.pdeleteQueue t.event, k.processesTable k.activePID with
      | some q, some b =>
          decide (t.before.stance q b = .waits false) &&
          (history.take count).all (fun u : Step =>
            decide (u.before.processesTable u.before.activePID ≠ some b)) &&
          match k.step .resume with
          | .ok (_, n) => decide (n ≠ .ret (-1) none)
          | .error _ => true
      | _, _ => false

/-- The identifier is given to a new queue before the sender runs. -/
theorem reused_identifier_blocks_again : ¬ ∀ history k, Reached history k →
    ReleasesForGood history k := by
  intro releases
  obtain ⟨history, k, run, checked⟩ := reached_by
    (deletedUnderSender ++ [.call (.pcreate 1 true true), .call (.waitClock 5)])
    (blocksAgain 3) (by decide +kernel)
  simp only [blocksAgain] at checked
  split at checked
  · cases checked
  · next t earlier split =>
    split at checked
    · next q b named elected =>
      simp only [Bool.and_eq_true, decide_eq_true_eq, List.all_eq_true] at checked
      obtain ⟨⟨waits, rests⟩, again⟩ := checked
      have parts : history = history.take 3 ++ t :: earlier := by
        rw [← split, List.take_append_drop]
      obtain ⟨k', failed⟩ :=
        (releases history k run).waiters _ t earlier q b false parts named waits rests elected
      rw [failed] at again
      exact of_decide_eq_true again rfl
    · cases checked

end IntelX86Kernel

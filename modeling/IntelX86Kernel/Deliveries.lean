import IntelX86Kernel.Deletions
import IntelX86Kernel.Election
import IntelX86Kernel.Wakeups

/-! The message of a `psend` and the receiver it takes off the list. -/

namespace IntelX86Kernel

open Transition

/-- The message of the `psend` that took process `a` off the list of the queue, when it last
left this list in a `preceive`. -/
def handed (q a : Addr) : History → Option Int
  | [] => none
  | t :: past =>
      if t.before.stance q a = .waits true ∧ t.after.stance q a = .due true then
        match t.before.attempt t.event with
        | some (.psend _ r message) => if r = q then some message else none
        | _ => none
      else handed q a past

def Next.value : Next → Option Int
  | .ret value _ => some value
  | .suspend (.done value _) => some value
  | .suspend _ => none

open Kernel

def Spared (q : Addr) (_ : History) (t : Step) : Prop :=
  t.before.presetQueue t.event ≠ some q ∧ t.before.pdeleteQueue t.event ≠ some q

/-- While a receiver that a `psend` has taken off the list has not run, only this receiver takes
a message out. A receiver taken off the list otherwise does not run on an empty queue. -/
def Undisturbed (q : Addr) (past : History) (t : Step) : Prop :=
  (t.before.supplying q false t.event = true → ∀ b < t.before.nextBlock,
    t.before.stance q b = .due true →
      t.before.processesTable t.before.activePID = some b ∨ handed q b past = none) ∧
  (t.event = .resume → ∀ b ∈ t.before.processesTable t.before.activePID,
    t.before.stance q b = .due true → handed q b past = none → t.before.messages q ≠ 0)

instance (q : Addr) (past : History) (t : Step) : Decidable (Spared q past t) :=
  inferInstanceAs (Decidable (_ ∧ _))

instance (q : Addr) (past : History) (t : Step) : Decidable (Undisturbed q past t) :=
  inferInstanceAs (Decidable ((_ → ∀ b < t.before.nextBlock, _ → _ ∨ _) ∧
    (_ → ∀ b ∈ t.before.processesTable t.before.activePID, _ → _ → _)))

namespace Kernel

structure Delivering (q : Addr) (history : History) (k : Kernel) : Prop where
  flag : k.resetFlag q = 0
  kept : ¬ k.Deleted q
  next : ∀ b m, k.stance q b = .due true → handed q b history = some m →
    (sent q history)[(received q history).length]? = some m

variable {k k' : Kernel} {a b q : Addr} {e : Event} {n : Next} {mq mq' : MessageQueue}
  {past : History} {fid cell : Nat} {message : Int}

theorem handed_before (kept : k'.stance q b = .due true → k.stance q b = .due true) :
    handed q b (⟨k, e, n, k'⟩ :: past) = handed q b past := by
  rw [handed, if_neg]
  rintro ⟨waits, due⟩
  have same := kept due
  rw [waits] at same
  cases same

theorem Delivering.keep (delivering : Delivering q past k) (kept : ¬ k'.Deleted q)
    (records : k'.records q = k.records q)
    (due : ∀ b, k'.stance q b = .due true → k.stance q b = .due true)
    (sends : sent q (⟨k, e, n, k'⟩ :: past) = sent q past)
    (receives : received q (⟨k, e, n, k'⟩ :: past) = received q past) :
    Delivering q (⟨k, e, n, k'⟩ :: past) k' := by
  constructor
  · rw [resetFlag, records]
    exact delivering.flag
  · exact kept
  · intro b m waits given
    rw [handed_before (due b)] at given
    rw [sends, receives]
    exact delivering.next b m (due b waits) given

theorem due_before {woken : Option Addr} {receives : Bool}
    (stances : k'.stance q = Function.update (freeing woken (k.stance q)) a .elsewhere)
    (due : k'.stance q b = .due receives) : b ≠ a ∧
      (k.stance q b = .due receives ∨ woken = some b ∧ k.stance q b = .waits receives) := by
  have other : b ≠ a := by
    rintro rfl
    rw [stances, Function.update_self] at due
    cases due
  refine ⟨other, ?_⟩
  rw [stances, Function.update_of_ne other, freeing_apply] at due
  split at due
  · next woke =>
    cases stood : k.stance q b with
    | elsewhere =>
        rw [stood] at due
        cases due
    | waits receives' =>
        rw [stood] at due
        cases due
        exact .inr ⟨woke, rfl⟩
    | due receives' =>
        rw [stood] at due
        exact .inl due
  · exact .inl due

theorem Delivering.stores {woken : Option Addr} (delivering : Delivering q past k)
    (follows : mq.Follows (sent q past) (received q past)) (kept : ¬ k'.Deleted q)
    (attempt : k.attempt e = some (.psend fid q message)) (here : k.records q = some mq)
    (succeeds : n.succeeds = true) (first : ∀ b, woken = some b → mq.nbMessages = 0)
    (records : k'.records q = some (mq.stored cell message))
    (stances : k'.stance q = Function.update (freeing woken (k.stance q)) a .elsewhere) :
    Delivering q (⟨k, e, n, k'⟩ :: past) k' := by
  obtain ⟨sends, receives⟩ : sent q (⟨k, e, n, k'⟩ :: past) =
        (if q = q then sent q past ++ [message] else sent q past) ∧
      received q (⟨k, e, n, k'⟩ :: past) = received q past :=
    sent_stored attempt succeeds
  rw [if_pos rfl] at sends
  have flag := delivering.flag
  rw [(fields_eq here).2.2] at flag
  constructor
  · rw [(fields_eq records).2.2]
    exact flag
  · exact kept
  · intro b m due given
    rw [sends, receives]
    obtain ⟨-, before | ⟨woke, waits⟩⟩ := due_before stances due
    · rw [handed_before fun _ => before] at given
      have next := delivering.next b m before given
      obtain ⟨inside, -⟩ := List.getElem?_eq_some_iff.mp next
      rw [List.getElem?_append_left inside, next]
    · have given' : message = m := by
        rw [handed, if_pos ⟨waits, due⟩] at given
        simp only [attempt, if_true] at given
        exact Option.some.inj given
      have empty : (received q past).length = (sent q past).length := by
        have fill := follows.fill
        have longer := follows.order.length_le
        rw [first b woke] at fill
        omega
      rw [empty, List.getElem?_concat_length, given']

theorem Delivering.takes {woken : Option Addr} (delivering : Delivering q past k)
    (consistent : k.Consistent) (kept : ¬ k'.Deleted q)
    (current : k.processesTable k.activePID = some a)
    (undisturbed : Undisturbed q past ⟨k, e, n, k'⟩)
    (attempt : k.attempt e = some (.preceive fid q)) (here : k.records q = some mq)
    (filled : mq.nbMessages ≠ 0)
    (records : k'.records q = some mq.taken)
    (stances : k'.stance q = Function.update (freeing woken (k.stance q)) a .elsewhere) :
    Delivering q (⟨k, e, n, k'⟩ :: past) k' := by
  have flag := delivering.flag
  have messages : k.messages q ≠ 0 := by
    rw [(fields_eq here).1]
    exact filled
  have supplies : k.supplying q false e = true := by
    simp only [supplying, attempt]
    simp [messages, flag]
  rw [(fields_eq here).2.2] at flag
  constructor
  · rw [(fields_eq records).2.2]
    exact flag
  · exact kept
  · intro b m due given
    exfalso
    obtain ⟨other, before | ⟨woke, waits⟩⟩ := due_before stances due
    · rw [handed_before fun _ => before] at given
      have present : k.stance q b ≠ .elsewhere := by simp [before]
      rcases undisturbed.1 supplies b (stance_lt consistent present) before with active | absent
      · change k.processesTable k.activePID = some b at active
        rw [current, Option.some.injEq] at active
        exact other active.symm
      · rw [absent] at given
        cases given
    · rw [handed, if_pos ⟨waits, due⟩] at given
      simp only [attempt] at given
      cases given

theorem Delivering.goes_on {f : Frame} (delivering : Delivering q past k)
    (filed : Filed q past k) (acted : k.Acted e n k' a) (manned : k.Manned)
    (undisturbed : Undisturbed q past ⟨k, e, n, k'⟩) (attempt : k.attempt e = some f)
    (inside : f.queue = some (fid, q)) (resumed : e = .resume) (here : k.records q = some mq) :
    ¬ (k.queues fid = none ∨ mq.resetFlag ≠ 0 ∨ f.receives = true ∧ mq.nbMessages = 0) := by
  have stood := acted.stance_attempt (q := q) attempt inside
  rw [if_pos rfl, if_pos resumed] at stood
  rintro (gone | flagged | ⟨receives, empty⟩)
  · rw [acted.slot manned delivering.kept attempt inside] at gone
    cases gone
  · have flag := delivering.flag
    rw [(fields_eq here).2.2] at flag
    exact flagged flag
  · rw [receives] at stood
    cases given : handed q a past with
    | none =>
        have filled := undisturbed.2 resumed a acted.current stood given
        change k.messages q ≠ 0 at filled
        rw [(fields_eq here).1] at filled
        exact filled empty
    | some m =>
        obtain ⟨inside, -⟩ := List.getElem?_eq_some_iff.mp (delivering.next a m stood given)
        have fill := (filed.present mq here).2.fill
        omega

theorem Acted.refused {f : Frame} {value : Int} (acted : k.Acted e n k' a)
    (attempt : k.attempt e = some f) (inside : f.queue = some (fid, q))
    (returns : n.value = some value) (negative : value < 0) : e = .resume ∧ ∃ mq,
      k.records q = some mq ∧
        (k.queues fid = none ∨ mq.resetFlag ≠ 0 ∨ f.receives = true ∧ mq.nbMessages = 0) := by
  have calls (idle : k.attempt e = none) : False := by
    rw [attempt] at idle
    cases idle
  have zero {out : Option Int} (outcome : n = .ret 0 out ∨ n = .suspend (.done 0 out)) : False := by
    rcases outcome with rfl | rfl <;> cases returns <;> exact lt_irrefl 0 negative
  cases acted.traffic with
  | quiet idle keeps spares own posts records queues => exact (calls idle).elim
  | halves idle keeps spares own free posts records queues => exact (calls idle).elim
  | creates named idle keeps spares own free positive posts records queues => exact (calls idle).elim
  | deletes idle keeps named slot own posts records queues => exact (calls idle).elim
  | resets idle named spares own here posts records queues => exact (calls idle).elim
  | fails attempt' inside' resumed here cause outcome after posts records queues =>
      rw [attempt, Option.some.injEq] at attempt'
      subst attempt'
      rw [inside, Option.some.injEq, Prod.mk.injEq] at inside'
      obtain ⟨rfl, rfl⟩ := inside'
      exact ⟨resumed, _, here, cause⟩
  | @blocks f' fid' q' mq attempt' inside' here full again outcome posts records queues =>
      rw [outcome] at returns
      cases f' with
      | done => cases inside'
      | user | start | exit | waitpid | waitForChild | preceive | psend => cases returns
  | stores woken attempt here inside outcome first room again posts records queues =>
      exact (zero outcome).elim
  | takes woken attempt here inside outcome filled first rest again posts records queues =>
      exact (zero outcome).elim

theorem Delivering.step (delivering : Delivering q past k) (filed : Filed q past k)
    (acted : k.Acted e n k' a) (consistent : k.Consistent) (manned : k.Manned)
    (spared : Spared q past ⟨k, e, n, k'⟩) (undisturbed : Undisturbed q past ⟨k, e, n, k'⟩) :
    Delivering q (⟨k, e, n, k'⟩ :: past) k' := by
  have kept : ¬ k'.Deleted q := acted.undeleted delivering.kept spared.2
  cases acted.serves (q := q) consistent with
  | passes idle keeps spares records stances =>
      obtain ⟨sends, receives⟩ : sent q (⟨k, e, n, k'⟩ :: past) = sent q past ∧
        received q (⟨k, e, n, k'⟩ :: past) = received q past := unsent keeps (.inl idle)
      refine delivering.keep kept records (fun b due => ?_) sends receives
      rcases stances with same | ⟨c, -, moved⟩
      · exact same ▸ due
      · rw [moved, Function.update_apply] at due
        split at due
        · cases due
        · exact due
  | opens mq fresh records positive empty flag stances =>
      constructor
      · rw [(fields_eq records).2.2, flag]
      · exact kept
      · intro b m due
        rw [stances] at due
        have present : k.stance q b ≠ .elsewhere := by simp [due]
        obtain ⟨f, fid, frame, inside, -⟩ := stance_frame present
        exact absurd fresh (manned.framed b f fid q frame inside).1
  | closes named records stances => exact absurd named spared.2
  | resets mq named here records stances => exact absurd named spared.1
  | fails f fid mq mq' attempt inside resumed here cause outcome after stood records stances =>
      exact absurd cause
        (delivering.goes_on filed acted manned undisturbed attempt inside resumed here)
  | blocks f fid mq attempt inside here full again outcome stood records stances =>
      have fails : n.succeeds = false := by
        rw [outcome]
        cases f with
        | done => cases inside
        | user | start | exit | waitpid | waitForChild | preceive | psend => rfl
      have keeps : k.presetQueue e ≠ some q := spared.1
      obtain ⟨sends, receives⟩ : sent q (⟨k, e, n, k'⟩ :: past) = sent q past ∧
        received q (⟨k, e, n, k'⟩ :: past) = received q past := unsent keeps (.inr fails)
      refine delivering.keep kept (records.trans here.symm) (fun b due => ?_) sends receives
      rw [stances, Function.update_apply] at due
      split at due
      · cases due
      · exact due
  | stores fid message mq cell woken attempt here outcome first room again stood records stances =>
      have succeeds : n.succeeds = true := by rcases outcome with rfl | rfl <;> rfl
      exact delivering.stores (filed.present mq here).2 kept attempt here succeeds
        (fun b woke => (first b woke).1) records stances
  | takes fid mq cell woken attempt here outcome filled first rest again stood records stances =>
      exact delivering.takes consistent kept acted.current undisturbed attempt here filled records
        stances

theorem wakeWaiter_ok (linked : k.Linked) : ∃ woken k', k.wakeWaiter q = .ok (woken, k') := by
  cases last : (k.lists (.queue q)).getLast? with
  | none =>
      refine ⟨none, k, bind_eq_ok.mpr ⟨(none, k), ?_, rfl⟩⟩
      rw [queueOut, last]
  | some b =>
      obtain ⟨p, here, -⟩ := (linked.mem_iff _ b).mp (List.mem_of_getLast? last)
      obtain ⟨k₁, out⟩ : ∃ k₁, k.queueOut (.queue q) = .ok (some b, k₁) := by
        rw [queueOut, last]
        exact ⟨_, bind_eq_ok.mpr ⟨p, deref_eq_ok.mpr here, rfl⟩⟩
      obtain ⟨-, taken⟩ := queueOut_unlink linked out
      have apart : k₁.Linked := taken ▸ linked.unlink
      have found : (k₁.setStatus b .ready).procs b = some { p with links := none, status := .ready } := by
        rw [taken, setStatus, setProc_procs, if_pos rfl]
        change ((k.unlink b).procs b).map _ = _
        rw [unlink_procs, if_pos rfl, here]
        rfl
      have free : (k₁.setStatus b .ready).Linked := apart.setStatus
      have put := link_ok (h := .ready) free found rfl
      exact ⟨some b, _, bind_eq_ok.mpr ⟨(some b, k₁), out, bind_eq_ok.mpr ⟨_, put, rfl⟩⟩⟩

theorem takeMessage_ok (linked : k.Linked) (slot : k.queues fid = some q)
    (here : k.records q = some mq) (inside : k.bufferCell mq mq.readIndex = .ok cell) :
    ∃ k' n, k.takeMessage fid q = .ok (k', n) ∧ n.succeeds = true ∧ n.out = some (mq.cells cell) ∧
      ∀ b p, k.procs b = some p → p.Awake → ∃ p', k'.procs b = some p' ∧ p'.Awake := by
  have total : ∃ r, k.takeMessage fid q = .ok r := by
    have record := record_eq_ok.mpr here
    have counted (f : MessageQueue → MessageQueue) :
        (k.setRecord q f).countBlockedProcess fid = .ok ((k.lists (.queue q)).length : Int) := by
      apply countBlockedProcess_eq_ok.mpr
      refine ⟨q, f mq, slot, ?_, rfl⟩
      rw [setRecord_records, if_pos rfl, here, Option.map_some]
    simp only [takeMessage, record, inside, counted, bind, Except.bind]
    split
    · obtain ⟨woken, k₁, woke⟩ := wakeWaiter_ok (q := q) (linked.setRecord fun mq' =>
        { mq' with
          readIndex := (mq'.readIndex + 1).tmod mq'.bufferSize
          nbMessages := mq.nbMessages - 1 })
      rw [woke]
      cases woken with
      | none => exact ⟨_, rfl⟩
      | some b => exact ⟨_, rfl⟩
    · exact ⟨_, rfl⟩
  obtain ⟨⟨k', n⟩, run⟩ := total
  obtain ⟨mq', cell', q', found, reads, -, ended⟩ := takeMessage_eq linked run
  rw [here, Option.some.injEq] at found
  subst mq'
  rw [inside, Except.ok.injEq] at reads
  subst cell'
  rcases ended with ⟨rfl, rfl, -⟩ | ⟨c, -, -, rfl, rfl⟩
  · exact ⟨_, _, run, rfl, rfl, fun b p there awake => ⟨p, there, awake⟩⟩
  · refine ⟨_, _, run, rfl, rfl, fun b p there awake => ?_⟩
    rw [relink_procs]
    split
    · next same =>
      subst same
      exact ⟨_, congrArg _ there, .inl rfl⟩
    · exact ⟨p, there, awake⟩

end Kernel

open Kernel

variable {history : History} {k : Kernel} {a q : Addr} {m : Int}

theorem delivering_of_run (run : Reached history k) (spared : Meets (Spared q) history)
    (undisturbed : Meets (Undisturbed q) history) : Delivering q history k := by
  refine run.invariant (I := Delivering q) ?_ ?_ (spared.and undisturbed)
  · intro k booted
    obtain ⟨p, -, -, -, -, -, -, -, -, -, -, records, -⟩ := booted.state
    constructor
    · rw [Kernel.resetFlag, records]
      rfl
    · exact fun deleted => deleted.1 (records q)
    · intro b m due
      rw [booted.unattended b] at due
      cases due
  · intro past k e n k' run _ delivering taken meets
    obtain ⟨a, acted⟩ := acted_of_run run taken
    exact delivering.step (filed_of_run run) acted (consistent_of_run run).1 (manned_of_run run)
      meets.1 meets.2

theorem Kernel.Delivering.delivers (delivering : Delivering q history k) (run : Reached history k)
    (current : k.processesTable k.activePID = some a) (due : k.stance q a = .due true)
    (given : handed q a history = some m) :
    ∃ k' n, k.step .resume = .ok (k', n) ∧ n.succeeds = true ∧ n.out = some m := by
  obtain ⟨consistent, running⟩ := consistent_of_run run
  obtain ⟨stocked, counted⟩ := stocked_of_run run
  have manned := manned_of_run run
  obtain ⟨-, p, there, -⟩ := consistent.table _ _ current
  have status := running.status current there
  have present : k.stance q a ≠ .elsewhere := by simp [due]
  obtain ⟨f, fid, frame, inside, stands⟩ := stance_frame present
  have receives : f.receives = true := by
    rw [due] at stands
    rcases stands with same | same
    · cases same
    · exact (Stance.due.inj same).symm
  obtain ⟨mq, here⟩ := Option.ne_none_iff_exists'.mp (manned.framed a f fid q frame inside).1
  have slot := manned.slot delivering.kept frame inside
  have follows := ((filed_of_run run).present mq here).2
  have next := delivering.next a m due given
  have positive := (stocked.buffers q mq here).2.1
  have filled : mq.nbMessages ≠ 0 := by
    obtain ⟨less, -⟩ := List.getElem?_eq_some_iff.mp next
    have fill := follows.fill
    omega
  have reading : 0 ≤ mq.readIndex ∧ mq.readIndex < mq.bufferSize := by
    have least := Nat.mod_lt (received q history).length (y := mq.bufferSize.toNat) (by omega)
    rw [follows.reads]
    omega
  have cell := bufferCell_inside stocked slot here reading.1 reading.2
  have flag : mq.resetFlag = 0 := (fields_eq here).2.2 ▸ delivering.flag
  obtain ⟨k₁, n, taken, succeeds, out, stays⟩ :=
    takeMessage_ok consistent.linked slot here cell
  obtain ⟨r, able, awake⟩ := stays a p there (.inr status)
  have context : p.context = f := by
    rw [← frame_eq current there, frame_active current frame]
  have segment : k.segment p.context .resume = .ok (k₁, n) := by
    cases f with
    | preceive fid' q' =>
        cases inside
        rw [context]
        refine bind_eq_ok.mpr ⟨mq, record_eq_ok.mpr here, ?_⟩
        rw [if_neg, taken]
        simp [slot, filled, flag]
    | user | done | start | exit | waitpid | waitForChild | psend => cases receives
  obtain ⟨k', step⟩ := step_ok consistent stocked (backed_of_run run) counted current there segment
    able awake
  exact ⟨k', n, step, succeeds, out.trans (congrArg some (follows.first next))⟩

/-- What the calls on a queue that is neither reset nor deleted return. -/
structure Delivers (q : Addr) (history : History) (k : Kernel) : Prop where
  message : ∀ a m, k.processesTable k.activePID = some a → k.stance q a = .due true →
    handed q a history = some m →
      ∃ k' n, k.step .resume = .ok (k', n) ∧ n.succeeds = true ∧ n.out = some m
  valid : ∀ t ∈ history, ∀ f fid value, t.before.attempt t.event = some f →
    f.queue = some (fid, q) → t.outcome.value = some value → 0 ≤ value

/-- In a run that neither resets nor deletes the queue, and in which no message is taken from
under a receiver that waits for its turn to run, a blocked `preceive` gets the message of the
`psend` that unblocks it, and no call on the queue fails. -/
theorem blocked_preceive_gets_its_message (run : Reached history k)
    (spared : Meets (Spared q) history) (undisturbed : Meets (Undisturbed q) history) :
    Delivers q history k := by
  constructor
  · intro a m current due given
    exact (delivering_of_run run spared undisturbed).delivers run current due given
  · intro t member f fid value attempt inside returns
    obtain ⟨later, earlier, split⟩ := List.append_of_mem member
    obtain ⟨before, taken⟩ := run.split split
    obtain ⟨-, spared⟩ := spared.split split
    obtain ⟨calm, undisturbed⟩ := undisturbed.split split
    obtain ⟨a, acted⟩ := acted_of_run before taken
    by_contra negative
    obtain ⟨resumed, mq, here, cause⟩ :=
      acted.refused attempt inside returns (Int.not_le.mp negative)
    exact (delivering_of_run before spared undisturbed).goes_on (filed_of_run before) acted
      (manned_of_run before) calm attempt inside resumed here cause

/-- Process 1 is blocked in a `preceive` when process 0 sends 7. -/
theorem blocked_preceive_gets_its_message_seven : ∃ history k a, Reached history k ∧
    k.processesTable k.activePID = some a ∧ k.stance 3 a = .due true ∧
      handed 3 a history = some 7 ∧ Delivers 3 history k := by
  obtain ⟨history, k, run, checked⟩ := reached_by
    [.call (.pcreate 1 true true), .call (.start 512 10 [97] true true), .call (.preceive 0),
      .resume, .call (.psend 0 7)]
    (fun history k => (k.processesTable k.activePID).any fun a =>
      decide (k.stance 3 a = .due true) && decide (handed 3 a history = some 7) &&
        decide (Meets (Spared 3) history) && decide (Meets (Undisturbed 3) history))
    (by decide +kernel)
  obtain ⟨a, current, checked⟩ := (Option.any_eq_true _ _).mp checked
  simp only [Bool.and_eq_true, decide_eq_true_eq] at checked
  obtain ⟨⟨⟨due, given⟩, spared⟩, undisturbed⟩ := checked
  exact ⟨history, k, a, run, current, due, given,
    blocked_preceive_gets_its_message run spared undisturbed⟩

def Kernel.failsNext (k : Kernel) : Bool :=
  match k.step .resume with
  | .ok (_, n) => !n.succeeds
  | .error _ => true

/-- Process 2 sends 7 to process 1, and takes it back before process 1 runs. -/
theorem sender_takes_its_message_back : ¬ ∀ q history k, Reached history k →
    Meets (Spared q) history → Delivers q history k := by
  intro delivers
  obtain ⟨history, k, run, checked⟩ := reached_by
    [.call (.pcreate 1 true true), .call (.start 512 10 [97] true true), .call (.preceive 0),
      .resume, .call (.start 512 20 [98] true true), .call (.psend 0 7), .resume,
      .call (.preceive 0), .call (.waitClock 5)]
    (fun history k => decide (Meets (Spared 3) history) &&
      ((k.processesTable k.activePID).any fun a =>
        decide (k.stance 3 a = .due true) && decide (handed 3 a history = some 7)) && k.failsNext)
    (by decide +kernel)
  simp only [Bool.and_eq_true, decide_eq_true_eq] at checked
  obtain ⟨⟨spared, checked⟩, fails⟩ := checked
  obtain ⟨a, current, checked⟩ := (Option.any_eq_true _ _).mp checked
  simp only [Bool.and_eq_true, decide_eq_true_eq] at checked
  obtain ⟨k', n, step, succeeds, -⟩ :=
    (delivers 3 history k run spared).message a 7 current checked.1 checked.2
  rw [Kernel.failsNext, step] at fails
  change (!n.succeeds) = true at fails
  rw [succeeds] at fails
  cases fails

end IntelX86Kernel

import IntelX86Kernel.Waiters

/-! Who is in the list of a queue when no process taken off it is still to run. -/

namespace IntelX86Kernel

open Transition Tally

namespace Kernel

def messages (k : Kernel) (q : Addr) : Int := (k.records q).elim 0 MessageQueue.nbMessages

def bufferSize (k : Kernel) (q : Addr) : Int := (k.records q).elim 0 MessageQueue.bufferSize

def resetFlag (k : Kernel) (q : Addr) : Int := (k.records q).elim 0 MessageQueue.resetFlag

/-- What a receiver of the queue uses is a message, and what a sender uses is a free cell. -/
def supply (k : Kernel) (q : Addr) (receives : Bool) : Int :=
  if receives = true then k.messages q else k.bufferSize q - k.messages q

def nextWaiter (k : Kernel) (q : Addr) : Stance :=
  (k.lists (.queue q)).getLast?.elim .elsewhere (k.stance q)

/-- A `psend` that stores a message for the receivers, or a `preceive` that frees a cell for
the senders. -/
def supplying (k : Kernel) (q : Addr) (receives : Bool) (e : Event) : Bool :=
  match k.attempt e with
  | some (.psend _ r _) => decide (receives = true ∧ r = q ∧ k.messages q ≠ k.bufferSize q ∧
      (e = .resume → k.resetFlag q = 0))
  | some (.preceive _ r) => decide (receives = false ∧ r = q ∧ k.messages q ≠ 0 ∧
      (e = .resume → k.resetFlag q = 0))
  | _ => false

def waking (k : Kernel) (q : Addr) (receives : Bool) (e : Event) : Bool :=
  decide (k.supply q receives = 0) && decide (k.nextWaiter q = .waits receives) &&
    (!receives || decide (e ≠ .resume))

/-- A process that has been taken off the list is killed, or `reset_flag` makes its call fail. -/
def losing (k : Kernel) (q : Addr) (receives : Bool) (e : Event) : Bool :=
  (Event.target k e).any (fun b : Addr => decide (k.stance q b = .due receives)) ||
    (decide (e = .resume ∧ k.resetFlag q ≠ 0) &&
      (k.processesTable k.activePID).any fun a : Addr => decide (k.stance q a = .due receives))

/-- While processes of a kind wait and there is no more than each of those taken off the list
will use, a step that adds to it takes one more off the list, and none of these is lost. -/
def Supplied (q : Addr) (k : Kernel) (e : Event) (receives : Bool) : Prop :=
  0 < k.count q (.waits receives) → k.count q (.due receives) ≤ k.supply q receives →
    (k.supplying q receives e = true → k.waking q receives e = true) ∧
      k.losing q receives e = false

instance (q : Addr) (k : Kernel) (e : Event) (receives : Bool) :
    Decidable (Supplied q k e receives) :=
  inferInstanceAs (Decidable (_ → _ → _))

end Kernel

open Kernel

def Matched (q : Addr) (_ : History) (t : Step) : Prop :=
  Supplied q t.before t.event true ∧ Supplied q t.before t.event false

instance (q : Addr) (past : History) (t : Step) : Decidable (Matched q past t) :=
  inferInstanceAs (Decidable (_ ∧ _))

namespace Kernel

/-- Who is in the list of the queue when none of those taken off it is still to run. -/
structure Resting (k : Kernel) (q : Addr) (mq : MessageQueue) : Prop where
  receivers : ∀ a, k.stance q a = .waits true → mq.nbMessages = 0
  senders : ∀ a, k.stance q a = .waits false → mq.nbMessages = mq.bufferSize
  apart : ∀ a ∈ k.lists (.queue q), ∀ b ∈ k.lists (.queue q), k.stance q a = k.stance q b

def Served (q : Addr) (k : Kernel) : Prop :=
  ∀ receives, 0 < k.count q (.waits receives) →
    k.supply q receives ≤ k.count q (.due receives)

variable {k k' : Kernel} {a b q : Addr} {e : Event} {n : Next} {mq mq' : MessageQueue}
  {receives : Bool}

theorem fields_eq (here : k.records q = some mq) :
    k.messages q = mq.nbMessages ∧ k.bufferSize q = mq.bufferSize ∧
      k.resetFlag q = mq.resetFlag := by
  simp only [messages, bufferSize, resetFlag, here, Option.elim_some, and_self]

theorem supply_true (here : k.records q = some mq) : k.supply q true = mq.nbMessages := by
  simp [supply, fields_eq here]

theorem supply_false (here : k.records q = some mq) :
    k.supply q false = mq.bufferSize - mq.nbMessages := by
  simp [supply, fields_eq here]

theorem Served.empty (none : ∀ b receives, k.stance q b ≠ .waits receives) : Served q k := by
  intro receives waiting
  rw [count_empty fun b => none b receives] at waiting
  cases waiting

theorem nextWaiter_eq (last : (k.lists (.queue q)).getLast? = some b) :
    k.nextWaiter q = k.stance q b := by
  rw [nextWaiter, last, Option.elim_some]

theorem losing_killed (target : Event.target k e = some b) (due : k.stance q b = .due receives) :
    k.losing q receives e = true := by
  simp [losing, target, due]

theorem losing_resumed (current : k.processesTable k.activePID = some a)
    (due : k.stance q a = .due receives) (flag : k.resetFlag q ≠ 0) :
    k.losing q receives .resume = true := by
  simp [losing, current, due, flag]

theorem Served.leaves (served : Served q k) (consistent : k.Consistent)
    (later : k.nextBlock ≤ k'.nextBlock) (same : k'.supply q receives = k.supply q receives)
    (moved : k'.stance q = Function.update (k.stance q) b .elsewhere)
    (spared : k.stance q b = .due receives → 0 < k.count q (.waits receives) →
      k.supply q receives < k.count q (.due receives) ∨ k.supply q receives ≤ 0)
    (waiting : 0 < k'.count q (.waits receives)) :
    k'.supply q receives ≤ k'.count q (.due receives) := by
  have waits := count_leave (x := .waits receives) consistent later (by simp) moved
  have due := count_leave (x := .due receives) consistent later (by simp) moved
  have enough := served receives (by omega)
  rw [same]
  by_cases lost : k.stance q b = .due receives
  · have room := spared lost (by omega)
    rw [if_pos lost] at due
    omega
  · rw [if_neg lost] at due
    omega

theorem Served.enters {kind : Bool} (served : Served q k) (consistent : k.Consistent)
    (later : k.nextBlock ≤ k'.nextBlock) (active : a < k.nextBlock)
    (stood : k.stance q a = if e = .resume then .due kind else .elsewhere)
    (moved : k'.stance q = Function.update (k.stance q) a (.waits kind))
    (same : ∀ receives, k'.supply q receives = k.supply q receives)
    (nothing : k.supply q kind = 0) : Served q k' := by
  intro receives waiting
  rw [same]
  by_cases mine : kind = receives
  · rw [← mine, nothing]
    exact Int.natCast_nonneg _
  · have unserved : k.stance q a ≠ .due receives := by
      rw [stood]
      split <;> simp [mine]
    have waits := count_move (x := .waits receives) consistent later (by simp) active moved
    have due := count_move (x := .due receives) consistent later (by simp) active moved
    rw [if_neg (show Stance.waits kind ≠ .waits receives by simp [mine])] at waits
    rw [if_neg unserved, if_neg (by simp)] at due
    have enough := served receives (by omega)
    omega

theorem Served.moves {woken : Option Addr} (served : Served q k) (consistent : k.Consistent)
    (later : k.nextBlock ≤ k'.nextBlock) (active : a < k.nextBlock)
    (stood : k.stance q a = if e = .resume then .due (!receives) else .elsewhere)
    (moved : k'.stance q = Function.update (freeing woken (k.stance q)) a .elsewhere)
    (first : ∀ b, woken = some b → k.supply q receives = 0 ∧
      (k.lists (.queue q)).getLast? = some b ∧ ∃ kind, k.stance q b = .waits kind)
    (more : k'.supply q receives = k.supply q receives + 1)
    (less : k'.supply q (!receives) = k.supply q (!receives) - 1)
    (unwoken : woken = none → k.waking q receives e = false)
    (supplying : k.supplying q receives e = true) (supplied : Supplied q k e receives) :
    Served q k' := by
  have unserved : k.stance q a ≠ .due receives := by
    rw [stood]
    split <;> simp
  have unlisted (kind : Bool) : k.stance q a ≠ .waits kind := by
    rw [stood]
    split <;> simp
  have wanting (waiting : 0 < k.count q (.waits receives))
      (few : (k.count q (.due receives) : Int) ≤ k.supply q receives) :
      k.waking q receives e = true := (supplied waiting few).1 supplying
  intro kind waiting
  cases woken with
  | none =>
      have waits := count_leave (x := .waits kind) consistent later (by simp) moved
      have due := count_leave (x := .due kind) consistent later (by simp) moved
      rw [if_neg (unlisted kind)] at waits
      have enough := served kind (by omega)
      rcases Bool.eq_or_eq_not kind receives with rfl | rfl
      · rw [if_neg unserved] at due
        have asleep := unwoken rfl
        by_contra short
        rw [wanting (by omega) (by omega)] at asleep
        cases asleep
      · have one : (if k.stance q a = .due (!receives) then 1 else 0) ≤ 1 := by split <;> omega
        omega
  | some b =>
      obtain ⟨exhausted, last, other, listed⟩ := first b rfl
      have apart : b ≠ a := by
        rintro rfl
        exact unlisted other listed
      have waits := count_free (x := .waits kind) consistent later (by simp) active listed apart moved
      have due := count_free (x := .due kind) consistent later (by simp) active listed apart moved
      rw [if_neg (unlisted kind), if_neg (show Stance.due other ≠ .waits kind by simp)] at waits
      rw [if_neg (show Stance.waits other ≠ .due kind by simp)] at due
      have enough := served kind (by omega)
      rcases Bool.eq_or_eq_not kind receives with rfl | rfl
      · rw [if_neg unserved] at due
        by_cases served : other = kind
        · rw [if_pos (congrArg Stance.due served)] at due
          omega
        · have passed : Stance.due other ≠ .due kind := by simp [served]
          rw [if_neg passed] at due
          by_contra short
          have woke := wanting (by omega) (by omega)
          rw [waking, nextWaiter_eq last, listed] at woke
          simp [served] at woke
      · have one : (if k.stance q a = .due (!receives) then 1 else 0) ≤ 1 := by split <;> omega
        omega

theorem Served.step (served : Served q k) (acted : k.Acted e n k' a) (consistent : k.Consistent)
    (manned : k.Manned) (stocked : k.Stocked) (later : k.nextBlock ≤ k'.nextBlock)
    (kept : ¬ k.Deleted q) (supplied : ∀ receives, Supplied q k e receives) : Served q k' := by
  have active := acted.active_lt consistent
  cases acted.serves (q := q) consistent with
  | passes idle keeps spares records stances =>
      intro receives waiting
      have same : k'.supply q receives = k.supply q receives := by
        simp only [supply, messages, bufferSize, records]
      rcases stances with stances | ⟨b, target, moved⟩
      · rw [count_keep consistent later (by simp) stances] at waiting ⊢
        rw [same]
        exact served receives waiting
      · refine served.leaves consistent later same moved (fun due waiting => ?_) waiting
        by_contra short
        have lost := (supplied receives waiting (by omega)).2
        rw [losing_killed target due] at lost
        cases lost
  | opens mq fresh records positive empty flag stances =>
      apply Served.empty
      intro b receives waits
      rw [stances] at waits
      obtain ⟨f, fid, frame, inside, -⟩ := stance_frame (k := k) (q := q) (b := b) (by simp [waits])
      exact (manned.framed b f fid q frame inside).1 fresh
  | closes named records stances =>
      apply Served.empty
      intro b receives
      rw [stances]
      exact Stance.release_ne_waits
  | resets mq named here records stances =>
      apply Served.empty
      intro b receives
      rw [stances]
      exact Stance.release_ne_waits
  | fails f fid mq mq' attempt inside resumed here cause outcome after stood records stances =>
      intro receives waiting
      have same : k'.supply q receives = k.supply q receives := by
        have fields : mq'.nbMessages = mq.nbMessages ∧ mq'.bufferSize = mq.bufferSize := by
          rcases after with rfl | ⟨-, -, rfl⟩ <;> exact ⟨rfl, rfl⟩
        simp only [supply, fields_eq here, fields_eq records, fields]
      have slot := acted.slot manned kept attempt inside
      refine served.leaves consistent later same stances (fun due waiting => ?_) waiting
      have mine : f.receives = receives := by
        rw [stood, Stance.due.injEq] at due
        exact due
      rcases cause with gone | flag | ⟨fetches, empty⟩
      · rw [slot] at gone
        cases gone
      · apply Or.inl
        by_contra short
        have lost := (supplied receives waiting (by omega)).2
        rw [← (fields_eq here).2.2] at flag
        rw [resumed, losing_resumed acted.current due flag] at lost
        cases lost
      · apply Or.inr
        rw [← mine, fetches, supply_true here]
        omega
  | blocks f fid mq attempt inside here full again outcome stood records stances =>
      refine served.enters consistent later active stood stances (fun receives => ?_) ?_
      · simp only [supply, fields_eq here, fields_eq records]
      · cases kind : f.receives with
        | true =>
            rw [if_pos kind] at full
            rw [supply_true here, full]
        | false =>
            rw [if_neg (by simp [kind])] at full
            rw [supply_false here]
            omega
  | stores fid message mq cell woken attempt here outcome first room again stood records stances =>
      refine served.moves consistent later active stood stances
        (fun b woke => ?_) ?_ ?_ (fun none => ?_) ?_ (supplied true)
      · obtain ⟨empty, last, -⟩ := first b woke
        rw [supply_true here]
        exact ⟨empty, last, (stance_member consistent manned).mp (List.mem_of_getLast? last)⟩
      · rw [supply_true here, supply_true records]
        rfl
      · rw [Bool.not_true, supply_false here, supply_false records]
        change mq.bufferSize - (mq.nbMessages + 1) = _
        omega
      · rw [waking, supply_true here]
        by_contra woke
        simp only [Bool.and_eq_true, Bool.not_eq_false, decide_eq_true_eq, Bool.not_true,
          Bool.false_or] at woke
        obtain ⟨⟨empty, next⟩, called⟩ := woke
        rw [nextWaiter, (room none).2 called empty] at next
        cases next
      · have open_ : mq.nbMessages ≠ mq.bufferSize := by
          cases woken with
          | none => exact (room rfl).1
          | some b =>
              rw [(first b rfl).1]
              exact Int.ne_of_lt (stocked.buffers q mq here).2.1
        simp only [supplying, attempt, fields_eq here]
        simp only [open_, ne_eq, not_false_eq_true, true_and, decide_eq_true_eq]
        exact fun resumed => (again resumed).1
  | takes fid mq cell woken attempt here outcome filled first rest again stood records stances =>
      have slot := acted.slot manned kept attempt rfl
      refine served.moves consistent later active stood stances
        (fun b woke => ?_) ?_ ?_ (fun none => ?_) ?_ (supplied false)
      · obtain ⟨full, last⟩ := first b woke
        rw [supply_false here, full]
        exact ⟨Int.sub_self _, last,
          (stance_member consistent manned).mp (List.mem_of_getLast? last)⟩
      · rw [supply_false here, supply_false records]
        change mq.bufferSize - (mq.nbMessages - 1) = _
        omega
      · rw [Bool.not_false, supply_true here, supply_true records]
        rfl
      · rw [waking, supply_false here]
        by_contra woke
        simp only [Bool.and_eq_true, Bool.not_eq_false, decide_eq_true_eq] at woke
        obtain ⟨⟨full, next⟩, -⟩ := woke
        have waiting : k.lists (.queue q) ≠ [] := by
          intro nobody
          rw [nextWaiter, nobody] at next
          cases next
        exact rest none q slot waiting waiting (by omega)
      · simp only [supplying, attempt, fields_eq here]
        simp only [filled, ne_eq, not_false_eq_true, true_and, decide_eq_true_eq]
        exact fun resumed => (again resumed).1

end Kernel

open Kernel

variable {history : History} {k : Kernel} {q : Addr} {mq : MessageQueue}

theorem Booted.unattended (booted : Booted k) (b : Addr) : k.stance q b = .elsewhere := by
  obtain ⟨p, -, -, -, -, -, -, -, -, -, -, records, -⟩ := booted.state
  by_contra stands
  obtain ⟨f, fid, frame, inside, -⟩ := stance_frame stands
  apply (booted.manned.framed b f fid q frame inside).1
  rw [records]

theorem served_of_run (run : Reached history k) (matched : Meets (Matched q) history)
    (kept : ¬ k.Deleted q) : Kernel.Served q k := by
  refine run.invariant (I := fun _ k => ¬ k.Deleted q → Kernel.Served q k) ?_ ?_ matched kept
  · intro k booted _
    apply Served.empty
    intro b receives waits
    rw [booted.unattended] at waits
    cases waits
  · intro past k e n k' run _ served taken supplied kept
    obtain ⟨consistent, -⟩ := consistent_of_run run
    obtain ⟨a, acted⟩ := acted_of_run run taken
    have before : ¬ k.Deleted q := fun deleted => kept (acted.deleted consistent deleted)
    refine (served before).step acted consistent (manned_of_run run) (stocked_of_run run).1
      (next_le_of_run run taken) before ?_
    intro receives
    cases receives with
    | true => exact supplied.1
    | false => exact supplied.2

def Kernel.settles (k : Kernel) (q : Addr) : Bool :=
  (List.range k.nextBlock).all fun a =>
    decide (k.stance q a ≠ .due true) && decide (k.stance q a ≠ .due false)

theorem settled_of_run (run : Reached history k) (settles : k.settles q = true) :
    ∀ a receives, k.stance q a ≠ .due receives := by
  intro a receives due
  have inside := stance_lt (consistent_of_run run).1 (q := q) (b := a) (by simp [due])
  have clear := List.all_eq_true.mp settles a (List.mem_range.mpr inside)
  rw [due] at clear
  cases receives <;> simp at clear

/-- Two receivers wait, and the first message takes one of them off the list. Its sender goes
on to send the second, which stays in the buffer while the other receiver sleeps. -/
theorem receiver_sleeps_on_a_message : ∃ (history : History) (k : Kernel) (mq : MessageQueue),
    Reached history k ∧ k.queues 0 = some 3 ∧ k.records 3 = some mq ∧
      (∀ a receives, k.stance 3 a ≠ .due receives) ∧ ¬ Resting k 3 mq := by
  obtain ⟨history, k, run, checked⟩ := reached_by
    [.call (.pcreate 3 true true), .call (.start 400 10 [65] true true), .call (.preceive 0),
      .resume, .call (.start 400 10 [66] true true), .call (.preceive 0), .resume,
      .call (.start 400 20 [67] true true), .call (.psend 0 1), .resume, .call (.psend 0 2),
      .call (.waitClock 100), .resume]
    (fun _ k => decide (k.queues 0 = some 3) && k.settles 3 &&
      decide (k.stance 3 7 = .waits true) &&
      decide (k.messages 3 = 1) && (k.records 3).isSome) (by decide +kernel)
  simp only [Bool.and_eq_true, decide_eq_true_eq, Option.isSome_iff_exists] at checked
  obtain ⟨⟨⟨⟨slot, settles⟩, waits⟩, message⟩, mq, here⟩ := checked
  refine ⟨history, k, mq, run, slot, here, settled_of_run run settles, ?_⟩
  intro resting
  have empty := resting.receivers 7 waits
  rw [(fields_eq here).1, empty] at message
  cases message

theorem queue_loses_no_wakeup {fid : Nat} (run : Reached history k)
    (matched : Meets (Matched q) history) (slot : k.queues fid = some q)
    (here : k.records q = some mq) (settled : ∀ a receives, k.stance q a ≠ .due receives) :
    Resting k q mq := by
  obtain ⟨consistent, -⟩ := consistent_of_run run
  have kept : ¬ k.Deleted q := fun deleted => deleted.2 fid slot
  have served := served_of_run run matched kept
  have none (receives : Bool) : k.count q (.due receives) = 0 :=
    count_empty fun b => settled b receives
  have positive := ((stocked_of_run run).1.buffers q mq here).2.1
  obtain ⟨-, follows⟩ := (filed_of_run run).present mq here
  have filled := follows.fill
  have room := follows.room
  have order := follows.order.length_le
  have receivers (a : Addr) (waits : k.stance q a = .waits true) : mq.nbMessages = 0 := by
    have enough := served true (count_pos consistent (by simp) waits)
    rw [supply_true here, none] at enough
    omega
  have senders (a : Addr) (waits : k.stance q a = .waits false) :
      mq.nbMessages = mq.bufferSize := by
    have enough := served false (count_pos consistent (by simp) waits)
    rw [supply_false here, none] at enough
    omega
  have mixed (a b : Addr) (first : k.stance q a = .waits true) :
      k.stance q b ≠ .waits false := by
    intro second
    have empty := receivers a first
    have full := senders b second
    omega
  refine ⟨receivers, senders, fun a left b right => ?_⟩
  obtain ⟨r, first⟩ := (stance_member consistent (manned_of_run run)).mp left
  obtain ⟨s, second⟩ := (stance_member consistent (manned_of_run run)).mp right
  rw [first, second]
  cases r with
  | true =>
      cases s with
      | true => rfl
      | false => exact absurd second (mixed a b first)
  | false =>
      cases s with
      | true => exact absurd first (mixed b a second)
      | false => rfl

/-- One message, and one of the two receivers goes on waiting. -/
theorem queue_loses_no_wakeup_second : ∃ (history : History) (k : Kernel) (mq : MessageQueue),
    Reached history k ∧ k.stance 3 7 = .waits true ∧ Resting k 3 mq := by
  obtain ⟨history, k, run, checked⟩ := reached_by
    [.call (.pcreate 3 true true), .call (.start 400 10 [65] true true), .call (.preceive 0),
      .resume, .call (.start 400 10 [66] true true), .call (.preceive 0), .resume,
      .call (.psend 0 1), .resume]
    (fun history k => decide (Meets (Matched 3) history) && decide (k.queues 0 = some 3) &&
      k.settles 3 && decide (k.stance 3 7 = .waits true) && (k.records 3).isSome)
    (by decide +kernel)
  simp only [Bool.and_eq_true, decide_eq_true_eq, Option.isSome_iff_exists] at checked
  obtain ⟨⟨⟨⟨matched, slot⟩, settles⟩, waits⟩, mq, here⟩ := checked
  exact ⟨history, k, mq, run, waits,
    queue_loses_no_wakeup run matched slot here (settled_of_run run settles)⟩

end IntelX86Kernel

import IntelX86Kernel.Deliveries

/-! The calls that a `preset` interrupts, and the counter by which they are told. -/

namespace IntelX86Kernel

open Transition Kernel

/-- Process `a` was in the list of the queue when a `preset` of the queue ran, and it has not
run since. -/
def interrupted (q a : Addr) : History → Bool
  | [] => false
  | t :: past =>
      if t.before.processesTable t.before.activePID = some a then false
      else if t.before.presetQueue t.event = some q ∧ a ∈ t.before.lists (.queue q) then true
      else interrupted q a past

def NotDeleted (q : Addr) (_ : History) (t : Step) : Prop := t.before.pdeleteQueue t.event ≠ some q

/-- While an interrupted call has not run, the queue is not reset again, its process is not
killed, and no other call that was taken off the list is resumed. Such a call of `preceive` is
not resumed on the empty queue either. -/
structure Accountable (q : Addr) (past : History) (t : Step) : Prop where
  presets : t.before.presetQueue t.event = some q →
    ∀ b < t.before.nextBlock, interrupted q b past = false
  kills : ∀ b ∈ Event.target t.before t.event, interrupted q b past = false
  resumes : t.event = .resume → ∀ b ∈ t.before.processesTable t.before.activePID,
    interrupted q b past = false → ∀ receives, t.before.stance q b = .due receives →
      (∀ c < t.before.nextBlock, interrupted q c past = false) ∧
        (receives = true → t.before.messages q ≠ 0)

instance (q : Addr) (past : History) (t : Step) : Decidable (NotDeleted q past t) :=
  inferInstanceAs (Decidable (_ ≠ _))

instance (q : Addr) (past : History) (t : Step) : Decidable (Accountable q past t) :=
  decidable_of_iff
    ((t.before.presetQueue t.event = some q →
        ∀ b < t.before.nextBlock, interrupted q b past = false) ∧
      (∀ b ∈ Event.target t.before t.event, interrupted q b past = false) ∧
      (t.event = .resume → ∀ b ∈ t.before.processesTable t.before.activePID,
        interrupted q b past = false → ∀ receives, t.before.stance q b = .due receives →
          (∀ c < t.before.nextBlock, interrupted q c past = false) ∧
            (receives = true → t.before.messages q ≠ 0)))
    ⟨fun ⟨presets, kills, resumes⟩ => ⟨presets, kills, resumes⟩,
      fun ⟨presets, kills, resumes⟩ => ⟨presets, kills, resumes⟩⟩

namespace Kernel

/-- The counter of the queue is the number of the interrupted calls that have not run. -/
structure Interrupts (q : Addr) (history : History) (k : Kernel) (pending : List Addr) : Prop where
  kept : ¬ k.Deleted q
  nodup : pending.Nodup
  members : ∀ b, b ∈ pending ↔ interrupted q b history = true
  due : ∀ b ∈ pending, ∃ receives, k.stance q b = .due receives
  flag : k.resetFlag q = pending.length
  small : pending.length ≤ MAXNPROC

variable {k k' : Kernel} {a b q : Addr} {e : Event} {n : Next} {mq mq' : MessageQueue}
  {past : History} {pending : List Addr} {fid : Nat} {f : Frame}

theorem interrupted_cons (current : k.processesTable k.activePID = some a) :
    interrupted q b (⟨k, e, n, k'⟩ :: past) = true ↔ b ≠ a ∧
      ((k.presetQueue e = some q ∧ b ∈ k.lists (.queue q)) ∨ interrupted q b past = true) := by
  simp only [interrupted, current, Option.some.injEq]
  by_cases same : a = b
  · simp [same]
  · rw [if_neg same]
    by_cases caught : k.presetQueue e = some q ∧ b ∈ k.lists (.queue q)
    · simp [caught, Ne.symm same]
    · rw [if_neg caught]
      simp [caught, Ne.symm same]

theorem Acted.resets_record (acted : k.Acted e n k' a) (named : k.presetQueue e = some q) :
    k.records q ≠ none := by
  have kept (keeps : k.presetQueue e = none) : False := by
    rw [named] at keeps
    cases keeps
  cases acted.traffic with
  | quiet idle keeps spares own posts records queues => exact (kept keeps).elim
  | halves idle keeps spares own free posts records queues => exact (kept keeps).elim
  | creates count idle keeps spares own free positive posts records queues =>
      exact (kept keeps).elim
  | deletes idle keeps deleted slot own posts records queues => exact (kept keeps).elim
  | resets idle named' spares own here posts records queues =>
      rw [named, Option.some.injEq] at named'
      rw [named', here]
      exact Option.some_ne_none _
  | fails attempt inside resumed here cause outcome after posts records queues =>
      exact (kept (attempt_presets attempt)).elim
  | blocks attempt inside here full again outcome posts records queues =>
      exact (kept (attempt_presets attempt)).elim
  | stores woken attempt here inside outcome first room again posts records queues =>
      exact (kept (attempt_presets attempt)).elim
  | takes woken attempt here inside outcome filled first rest again posts records queues =>
      exact (kept (attempt_presets attempt)).elim

theorem Interrupts.runs (interrupts : Interrupts q past k pending) (acted : k.Acted e n k' a)
    (consistent : k.Consistent) (keeps : k.presetQueue e ≠ some q)
    (spares : k.pdeleteQueue e ≠ some q) (accountable : Accountable q past ⟨k, e, n, k'⟩)
    (flag : k'.resetFlag q = (pending.erase a).length) :
    Interrupts q (⟨k, e, n, k'⟩ :: past) k' (pending.erase a) := by
  constructor
  · exact acted.undeleted interrupts.kept spares
  · exact interrupts.nodup.erase a
  · intro b
    rw [interrupts.nodup.mem_erase_iff, interrupted_cons acted.current, interrupts.members b]
    simp [keeps]
  · intro b member
    obtain ⟨other, member⟩ := interrupts.nodup.mem_erase_iff.mp member
    obtain ⟨receives, due⟩ := interrupts.due b member
    refine ⟨receives, acted.stays_due consistent other ?_ due⟩
    intro target
    have spared := accountable.kills b target
    rw [(interrupts.members b).mp member] at spared
    cases spared
  · exact flag
  · exact (List.length_erase_le).trans interrupts.small

theorem Interrupts.idles (interrupts : Interrupts q past k pending) (acted : k.Acted e n k' a)
    (consistent : k.Consistent) (keeps : k.presetQueue e ≠ some q)
    (spares : k.pdeleteQueue e ≠ some q) (accountable : Accountable q past ⟨k, e, n, k'⟩)
    (apart : a ∉ pending) (flag : k'.resetFlag q = k.resetFlag q) :
    ∃ pending', Interrupts q (⟨k, e, n, k'⟩ :: past) k' pending' := by
  refine ⟨pending.erase a, interrupts.runs acted consistent keeps spares accountable ?_⟩
  rw [flag, interrupts.flag, List.erase_of_not_mem apart]

theorem Interrupts.nobody (interrupts : Interrupts q past k pending) (here : k.records q = some mq)
    (zero : mq.resetFlag = 0) : pending = [] := by
  have flag := interrupts.flag
  rw [(fields_eq here).2.2, zero] at flag
  exact List.length_eq_zero_iff.mp (Int.ofNat.inj flag).symm

theorem Interrupts.absent (interrupts : Interrupts q past k pending)
    (free : ∀ b < k.nextBlock, interrupted q b past = false) (consistent : k.Consistent) :
    pending = [] := by
  apply List.eq_nil_iff_forall_not_mem.mpr
  intro b member
  obtain ⟨receives, due⟩ := interrupts.due b member
  have present : k.stance q b ≠ .elsewhere := by simp [due]
  have caught := (interrupts.members b).mp member
  rw [free b (stance_lt consistent present)] at caught
  cases caught

theorem Interrupts.caught (interrupts : Interrupts q past k pending) (acted : k.Acted e n k' a)
    (consistent : k.Consistent) (manned : k.Manned)
    (accountable : Accountable q past ⟨k, e, n, k'⟩) (attempt : k.attempt e = some f)
    (inside : f.queue = some (fid, q)) (resumed : e = .resume) (here : k.records q = some mq)
    (cause : k.queues fid = none ∨ mq.resetFlag ≠ 0 ∨ f.receives = true ∧ mq.nbMessages = 0) :
    a ∈ pending := by
  have stood := acted.stance_attempt (q := q) attempt inside
  rw [if_pos rfl, if_pos resumed] at stood
  by_contra apart
  have free : interrupted q a past = false := by
    rw [← Bool.not_eq_true, ← interrupts.members a]
    exact apart
  obtain ⟨none, filled⟩ := accountable.resumes resumed a acted.current free f.receives stood
  have empty := interrupts.absent none consistent
  have flag := interrupts.flag
  rw [(fields_eq here).2.2, empty] at flag
  rcases cause with gone | flagged | ⟨receives, drained⟩
  · rw [acted.slot manned interrupts.kept attempt inside] at gone
    cases gone
  · exact flagged flag
  · have messages := filled receives
    change k.messages q ≠ 0 at messages
    rw [(fields_eq here).1] at messages
    exact messages drained

theorem Interrupts.presets (interrupts : Interrupts q past k pending) (acted : k.Acted e n k' a)
    (consistent : k.Consistent) (manned : k.Manned) (named : k.presetQueue e = some q)
    (kept : ¬ k'.Deleted q) (accountable : Accountable q past ⟨k, e, n, k'⟩)
    (records : k'.records q = some (mq.cleared (k.lists (.queue q)).length))
    (stances : k'.stance q = fun b => (k.stance q b).release) :
    Interrupts q (⟨k, e, n, k'⟩ :: past) k' (k.lists (.queue q)) := by
  have nobody : pending = [] := interrupts.absent (accountable.presets named) consistent
  have outside : a ∉ k.lists (.queue q) := by
    intro member
    obtain ⟨receives, waits⟩ := (stance_member consistent manned).mp member
    have idle : k.attempt e = none := by
      cases attempt : k.attempt e with
      | none => rfl
      | some f =>
          rw [attempt_presets attempt] at named
          cases named
    rw [acted.stance_idle idle] at waits
    cases waits
  constructor
  · exact kept
  · exact consistent.linked.nodup (.queue q)
  · intro b
    rw [interrupted_cons acted.current, ← interrupts.members b, nobody]
    constructor
    · intro member
      refine ⟨?_, .inl ⟨named, member⟩⟩
      rintro rfl
      exact outside member
    · rintro ⟨-, ⟨-, member⟩ | member⟩
      · exact member
      · cases member
  · intro b member
    obtain ⟨receives, waits⟩ := (stance_member consistent manned).mp member
    refine ⟨receives, ?_⟩
    rw [stances]
    exact congrArg Stance.release waits
  · rw [(fields_eq records).2.2]
    rfl
  · apply consistent.length_le (consistent.linked.nodup (.queue q))
    intro b member
    exact consistent.linked.live member

theorem Interrupts.step (interrupts : Interrupts q past k pending) (acted : k.Acted e n k' a)
    (consistent : k.Consistent) (manned : k.Manned) (spares : k.pdeleteQueue e ≠ some q)
    (accountable : Accountable q past ⟨k, e, n, k'⟩) :
    ∃ pending', Interrupts q (⟨k, e, n, k'⟩ :: past) k' pending' := by
  have apart (stood : k.stance q a = .elsewhere) : a ∉ pending := by
    intro member
    obtain ⟨receives, due⟩ := interrupts.due a member
    rw [stood] at due
    cases due
  have called {f : Frame} (attempt : k.attempt e = some f) : k.presetQueue e ≠ some q := by
    simp [attempt_presets attempt]
  have leaves {f : Frame} {receives : Bool} {mq mq' : MessageQueue}
      (attempt : k.attempt e = some f) (here : k.records q = some mq)
      (again : e = .resume → mq.resetFlag = 0)
      (stood : k.stance q a = if e = .resume then .due receives else .elsewhere)
      (records : k'.records q = some mq') (same : mq'.resetFlag = mq.resetFlag) :
      ∃ pending', Interrupts q (⟨k, e, n, k'⟩ :: past) k' pending' := by
    have outside : a ∉ pending := by
      by_cases resumed : e = .resume
      · rw [interrupts.nobody here (again resumed)]
        exact List.not_mem_nil
      · rw [if_neg resumed] at stood
        exact apart stood
    apply interrupts.idles acted consistent (called attempt) spares accountable outside
    rw [(fields_eq records).2.2, (fields_eq here).2.2, same]
  cases acted.serves (q := q) consistent with
  | passes idle keeps spares records stances =>
      apply interrupts.idles acted consistent keeps spares accountable
        (apart (acted.stance_apart idle))
      rw [resetFlag, records, resetFlag]
  | opens mq fresh records positive empty flag stances =>
      have keeps : k.presetQueue e ≠ some q := fun named => acted.resets_record named fresh
      have before : k.resetFlag q = 0 := by
        rw [resetFlag, fresh]
        rfl
      have outside : a ∉ pending := by
        have counted := interrupts.flag
        rw [before] at counted
        rw [List.length_eq_zero_iff.mp (Int.ofNat.inj counted).symm]
        exact List.not_mem_nil
      apply interrupts.idles acted consistent keeps spares accountable outside
      rw [(fields_eq records).2.2, flag, before]
  | closes named records stances => exact absurd named spares
  | resets mq named here records stances =>
      exact ⟨_, interrupts.presets acted consistent manned named
        (acted.undeleted interrupts.kept spares) accountable records stances⟩
  | fails f fid mq mq' attempt inside resumed here cause outcome after stood records stances =>
      have member := interrupts.caught acted consistent manned accountable attempt inside resumed
        here cause
      refine ⟨_, interrupts.runs acted consistent (called attempt) spares accountable ?_⟩
      have flag := interrupts.flag
      have small : pending.length ≤ 100 := interrupts.small
      have positive := List.length_pos_of_mem member
      rw [(fields_eq here).2.2] at flag
      rw [(fields_eq records).2.2, List.length_erase_of_mem member]
      rcases after with rfl | ⟨gone, -⟩
      · change toSigned (mq.resetFlag - 1) = _
        rw [flag, toSigned_small]
        · omega
        · omega
        · omega
      · rw [acted.slot manned interrupts.kept attempt inside] at gone
        cases gone
  | blocks f fid mq attempt inside here full again outcome stood records stances =>
      exact leaves attempt here (fun resumed => (again resumed).2.1) stood records rfl
  | stores fid message mq cell woken attempt here outcome first room again stood records stances =>
      exact leaves attempt here (fun resumed => (again resumed).1) stood records rfl
  | takes fid mq cell woken attempt here outcome filled first rest again stood records stances =>
      exact leaves attempt here (fun resumed => (again resumed).1) stood records rfl

end Kernel

variable {history : History} {k : Kernel} {q : Addr}

theorem interrupts_of_run (run : Reached history k) (kept : Meets (NotDeleted q) history)
    (accountable : Meets (Accountable q) history) :
    ∃ pending, Interrupts q history k pending := by
  refine run.invariant (I := fun history k => ∃ pending, Interrupts q history k pending) ?_ ?_
    (kept.and accountable)
  · intro k booted
    obtain ⟨p, -, -, -, -, -, -, -, -, -, -, records, -⟩ := booted.state
    refine ⟨[], fun deleted => deleted.1 (records q), List.nodup_nil, ?_, ?_, ?_, Nat.zero_le _⟩
    · intro b
      simp [interrupted]
    · intro b member
      cases member
    · rw [Kernel.resetFlag, records]
      rfl
  · rintro past k e n k' run - ⟨pending, interrupts⟩ taken ⟨spares, accountable⟩
    obtain ⟨a, acted⟩ := acted_of_run run taken
    exact interrupts.step acted (consistent_of_run run).1 (manned_of_run run) spares accountable

/-- The calls that a `preset` interrupts fail, and leave the messages as they are. No other
call on the queue fails. -/
structure FailsInterrupted (q : Addr) (history : History) (k : Kernel) : Prop where
  fails : ∀ b, k.processesTable k.activePID = some b → interrupted q b history = true →
    ∃ mq k' flag, k.records q = some mq ∧ k.step .resume = .ok (k', .ret (-1) none) ∧
      k'.records q = some { mq with resetFlag := flag }
  only : ∀ later t earlier, history = later ++ t :: earlier → ∀ f fid value,
    t.before.attempt t.event = some f → f.queue = some (fid, q) → t.outcome.value = some value →
      value < 0 → t.event = .resume ∧
        ∃ b, t.before.processesTable t.before.activePID = some b ∧ interrupted q b earlier = true

/-- In a run that does not delete the queue and whose steps keep the counter right, `preset`
fails exactly the calls it interrupts. -/
theorem preset_fails_interrupted_calls (run : Reached history k)
    (kept : Meets (NotDeleted q) history) (accountable : Meets (Accountable q) history) :
    FailsInterrupted q history k := by
  constructor
  · intro b current caught
    obtain ⟨pending, interrupts⟩ := interrupts_of_run run kept accountable
    have member := (interrupts.members b).mpr caught
    obtain ⟨receives, due⟩ := interrupts.due b member
    have present : k.stance q b ≠ .elsewhere := by simp [due]
    obtain ⟨f, fid, frame, inside, -⟩ := stance_frame present
    obtain ⟨mq, here⟩ := Option.ne_none_iff_exists'.mp
      ((manned_of_run run).framed b f fid q frame inside).1
    have live : k.procs b ≠ none := by
      intro absent
      rw [stance, post_none absent] at present
      exact present rfl
    have stopped : ¬ k.Accesses fid mq := by
      rintro ⟨-, clear, -⟩
      rw [interrupts.nobody here clear] at member
      cases member
    rw [← frame_active current frame] at inside
    obtain ⟨k', flag, failed, records⟩ := resume_fails current live inside here stopped
    exact ⟨mq, k', flag, here, failed, records⟩
  · intro later t earlier split f fid value attempt inside returns negative
    obtain ⟨before, taken⟩ := run.split split
    obtain ⟨-, kept⟩ := kept.split split
    obtain ⟨accounted, accountable⟩ := accountable.split split
    obtain ⟨a, acted⟩ := acted_of_run before taken
    obtain ⟨pending, interrupts⟩ := interrupts_of_run before kept accountable
    obtain ⟨resumed, mq, here, cause⟩ := acted.refused attempt inside returns negative
    have member := interrupts.caught acted (consistent_of_run before).1 (manned_of_run before)
      accounted attempt inside resumed here cause
    exact ⟨resumed, a, acted.current, (interrupts.members a).mp member⟩

/-- Process 1 is blocked in a `psend` when process 0 resets the queue. -/
theorem preset_fails_interrupted_calls_sender : ∃ history k b, Reached history k ∧
    k.processesTable k.activePID = some b ∧ interrupted 3 b history = true ∧
      FailsInterrupted 3 history k := by
  obtain ⟨history, k, run, checked⟩ := reached_by
    [.call (.pcreate 1 true true), .call (.psend 0 7), .call (.start 512 10 [97] true true),
      .call (.psend 0 8), .resume, .call (.preset 0)]
    (fun history k => ((k.processesTable k.activePID).any fun b => interrupted 3 b history) &&
      decide (Meets (NotDeleted 3) history) && decide (Meets (Accountable 3) history))
    (by decide +kernel)
  simp only [Bool.and_eq_true, decide_eq_true_eq] at checked
  obtain ⟨⟨caught, kept⟩, accountable⟩ := checked
  obtain ⟨b, current, caught⟩ := (Option.any_eq_true _ _).mp caught
  exact ⟨history, k, b, run, current, caught,
    preset_fails_interrupted_calls run kept accountable⟩

/-- Process 2 resets the queue twice before process 1, which was blocked in a `psend`, runs. -/
theorem second_preset_forgets_the_first : ¬ ∀ q history k, Reached history k →
    Meets (NotDeleted q) history → FailsInterrupted q history k := by
  intro fails
  obtain ⟨history, k, run, checked⟩ := reached_by
    [.call (.pcreate 1 true true), .call (.psend 0 7), .call (.start 512 10 [97] true true),
      .call (.psend 0 8), .resume, .call (.start 512 20 [98] true true), .call (.preset 0),
      .resume, .call (.preset 0), .resume, .call (.waitClock 5)]
    (fun history k => ((k.processesTable k.activePID).any fun b => interrupted 3 b history) &&
      decide (Meets (NotDeleted 3) history) && !k.failsNext)
    (by decide +kernel)
  simp only [Bool.and_eq_true, decide_eq_true_eq] at checked
  obtain ⟨⟨caught, kept⟩, succeeds⟩ := checked
  obtain ⟨b, current, caught⟩ := (Option.any_eq_true _ _).mp caught
  obtain ⟨mq, k', flag, -, failed, -⟩ := (fails 3 history k run kept).fails b current caught
  rw [Kernel.failsNext, failed] at succeeds
  cases succeeds

end IntelX86Kernel

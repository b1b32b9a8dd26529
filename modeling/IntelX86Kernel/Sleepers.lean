import IntelX86Kernel.Election
import IntelX86Kernel.Lineage
import IntelX86Kernel.Priority

/-! `wakeup` moves the sleepers whose time is over, and no others. -/

namespace IntelX86Kernel

open Transition

def Proc.woken (p : Proc) : Proc :=
  { p with status := .ready, wakeUpTime := 0, links := some .ready }

namespace Kernel

variable {k k' : Kernel} {a b : Addr} {p : Proc} {h : Head}

theorem wake_ready : (k.wake a).lists .ready =
    (k.setProc a fun p => { p with wakeUpTime := 0 }).place Proc.priority a
      ((k.lists .ready).erase a) := by
  rw [wake, relink_lists, if_pos rfl, setProc_lists]
  rfl

theorem wake_lists (other : h ≠ .ready) : (k.wake a).lists h = (k.lists h).erase a := by
  rw [wake, relink_lists, if_neg other, setProc_lists]

structure Roused (k : Kernel) (l : List Addr) (k' : Kernel) : Prop where
  procs : ∀ a, k'.procs a = if a ∈ l then (k.procs a).map Proc.woken else k.procs a
  ready : ∀ a, a ∈ k'.lists .ready ↔ a ∈ k.lists .ready ∨ a ∈ l
  kept : (k.lists .ready).Sublist (k'.lists .ready)
  asleep : k'.lists .asleep = (k.lists .asleep).filter fun a : Addr => decide (a ∉ l)
  others : ∀ h, h ≠ .ready → h ≠ .asleep → k'.lists h = k.lists h
  sorted : k.InOrder .ready → k'.InOrder .ready
  rest : k' = { k with procs := k'.procs, lists := k'.lists }

theorem Roused.refl : Roused k [] k := by
  constructor
  · intro a
    rw [if_neg List.not_mem_nil]
  · intro a
    simp
  · exact List.Sublist.refl _
  · simp
  · intro h _ _
    rfl
  · exact id
  · rfl

theorem Roused.cons {l : List Addr} (linked : k.Linked) (here : k.procs a = some p)
    (asleep : p.links = some .asleep) (fresh : a ∉ l) (rest : Roused (k.wake a) l k') :
    Roused k (a :: l) k' := by
  have apart (h : Head) (other : h ≠ .asleep) : a ∉ k.lists h := by
    intro member
    have links := (linked.links_iff here).mpr member
    rw [asleep, Option.some.injEq] at links
    exact other links.symm
  have first : (k.lists .ready).erase a = k.lists .ready :=
    List.erase_of_not_mem (apart .ready (by decide))
  constructor
  · intro b
    rw [rest.procs b, wake_procs]
    by_cases same : b = a
    · subst same
      rw [if_neg fresh, if_pos rfl, if_pos List.mem_cons_self]
      rfl
    · simp only [List.mem_cons, same, false_or, if_false]
  · intro b
    rw [rest.ready b, wake_ready, first, mem_place, List.mem_cons]
    constructor
    · rintro ((same | member) | member)
      · exact .inr (.inl same)
      · exact .inl member
      · exact .inr (.inr member)
    · rintro (member | same | member)
      · exact .inl (.inr member)
      · exact .inl (.inl same)
      · exact .inr member
  · have grown : (k.lists .ready).Sublist ((k.wake a).lists .ready) := by
      rw [wake_ready, first]
      exact List.sublist_orderedInsert a _
    exact grown.trans rest.kept
  · rw [rest.asleep, wake_lists (by decide), (linked.nodup .asleep).erase_eq_filter,
      List.filter_filter]
    apply List.filter_congr
    intro b _
    by_cases same : b = a
    · simp [same]
    · simp [same]
  · intro h ready asleep
    rw [rest.others h ready asleep, wake_lists ready, List.erase_of_not_mem (apart h asleep)]
  · intro sorted
    exact rest.sorted (sorted.editRelink linked)
  · exact rest.rest.trans rfl

theorem wakeProcesses_roused {l : List Addr} (linked : k.Linked) (nodup : l.Nodup)
    (asleep : ∀ a ∈ l, a ∈ k.lists .asleep) :
    ∃ k', wakeProcesses l k = .ok k' ∧ Roused k l k' := by
  induction l generalizing k with
  | nil => exact ⟨k, rfl, .refl⟩
  | cons head tail ih =>
      obtain ⟨p, here, links⟩ := (linked.mem_iff _ head).mp (asleep head List.mem_cons_self)
      obtain ⟨fresh, nodup⟩ := List.nodup_cons.mp nodup
      have others : ∀ a ∈ tail, a ∈ (k.wake head).lists .asleep := by
        intro a member
        have other : a ≠ head := fun same => fresh (same ▸ member)
        rw [wake_lists (by decide), List.mem_erase_of_ne other]
        exact asleep a (List.mem_cons_of_mem _ member)
      obtain ⟨k', rest, roused⟩ := ih (linked.wake here) nodup others
      refine ⟨k', ?_, roused.cons linked here links fresh⟩
      exact bind_eq_ok.mpr ⟨_, wakeProcess_ok linked here links, rest⟩

def expired (k : Kernel) : List Addr := (k.lists .asleep).filter k.late

/-- `wakeup` ends, with its temporary array inside its bounds, and moves the expired sleepers. -/
structure WakesExpired (k k' : Kernel) : Prop where
  ends : k.wakeup = .ok k'
  stored : k.toWakeUp (k.lists .asleep) = .ok k.expired
  bounded : k.expired.length ≤ MAXNPROC
  moved : Roused k k.expired k'

theorem wakeup_exact (consistent : k.Consistent) : ∃ k', WakesExpired k k' := by
  have linked := consistent.linked
  have asleep : ∀ a ∈ k.expired, a ∈ k.lists .asleep := fun a member =>
    List.mem_of_mem_filter member
  have nodup : k.expired.Nodup := (linked.nodup .asleep).filter k.late
  have live : ∀ a ∈ k.lists .asleep, k.procs a ≠ none := fun _ member => linked.live member
  have stored : k.toWakeUp (k.lists .asleep) = .ok k.expired := toWakeUp_ok live
  have bounded := consistent.length_le nodup fun a member => live a (asleep a member)
  obtain ⟨k', run, roused⟩ := wakeProcesses_roused linked nodup asleep
  refine ⟨k', bind_eq_ok.mpr ⟨_, stored, ?_⟩, stored, bounded, roused⟩
  rw [if_pos bounded]
  exact run

/-- The state is reached by the history, or in the course of the step that follows it when
`scheduling` is called. -/
def Arises (history : History) (k : Kernel) : Prop :=
  Reached history k ∨ ∃ k₀ e, Reached history k₀ ∧ k₀.Schedules e k

theorem Arises.consistent {history : History} (arises : Arises history k) : k.Consistent := by
  rcases arises with run | ⟨k₀, e, run, a, p, k₁, context, -, -, segment, rfl⟩
  · exact (consistent_of_run run).1
  · exact ((consistent_of_run run).1.segment segment).setContext

end Kernel

open Kernel

variable {history : History} {k : Kernel}

/-- In every state that arises `wakeup` ends. It moves exactly the expired sleepers, keeps
the order of those that sleep on and of the processes that were ready, and keeps the ready
list sorted. -/
theorem wakeup_wakes_exactly_expired (arises : Arises history k) :
    ∃ k', WakesExpired k k' :=
  wakeup_exact arises.consistent

def Kernel.ticking (k : Kernel) (a : Addr) : Kernel :=
  { k with nbInterrupt := (k.nbInterrupt + 1) % 2 ^ 32 }.setContext a .user

/-- One process waits for the end of tick 0, and the first tick is over. -/
theorem wakeup_wakes_exactly_expired_tick : ∃ history k k', Arises history k ∧
    k.expired.length = 1 ∧ WakesExpired k k' := by
  obtain ⟨history, k₀, run, checked⟩ := reached_by
    [.call (.start 512 10 [97] true true), .call (.waitClock 0), .resume]
    (fun _ k => (k.processesTable k.activePID).any fun a => (k.procs a).any fun p : Proc =>
      decide (p.context = .user) && decide ((k.ticking a).expired.length = 1))
    (by decide +kernel)
  obtain ⟨a, current, checked⟩ := (Option.any_eq_true _ _).mp checked
  obtain ⟨p, here, checked⟩ := (Option.any_eq_true _ _).mp checked
  simp only [Bool.and_eq_true, decide_eq_true_eq] at checked
  obtain ⟨user, one⟩ := checked
  have segment : k₀.segment p.context .clockInterrupt = k₀.clockInterrupt := by
    rw [Kernel.segment, if_pos user]
  have arises : Arises history (k₀.ticking a) :=
    .inr ⟨k₀, .clockInterrupt, run, a, p, _, .user, current, here, segment.trans rfl, rfl⟩
  obtain ⟨k', wakes⟩ := wakeup_wakes_exactly_expired arises
  exact ⟨history, k₀.ticking a, k', arises, one, wakes⟩

/-- A process that cannot be elected: it has ended, or it sleeps until the deadline. -/
def Dormant (deadline : Option Nat) (o : Option Proc) : Prop :=
  ∀ p, o = some p → p.status = .zombie ∨ p.status = .dying ∨
    p.status = .asleep ∧ deadline = some p.wakeUpTime

theorem Dormant.map {deadline : Option Nat} {o : Option Proc} {f : Proc → Proc}
    (dormant : Dormant deadline o) (status : ∀ p, (f p).status = p.status)
    (time : ∀ p, (f p).wakeUpTime = p.wakeUpTime) : Dormant deadline (o.map f) := by
  intro p' there
  obtain ⟨p, here, rfl⟩ := Option.map_eq_some_iff.mp there
  rw [status, time]
  exact dormant p here

theorem Dormant.not_awake {deadline : Option Nat} {o : Option Proc} {p : Proc}
    (dormant : Dormant deadline o) (here : o = some p) : ¬ p.Awake := by
  intro awake
  have sleeps := dormant p here
  rcases awake with status | status <;> rw [status] at sleeps <;>
    rcases sleeps with same | same | ⟨same, -⟩ <;> cases same

namespace Kernel

variable {k' : Kernel} {a b q : Addr} {p : Proc} {n : Next} {m : Mover} {e : Event}
  {deadline : Option Nat}

theorem Move.dormant (move : Move m k k') (consistent : k.Consistent) (other : b ≠ m.current)
    (old : b < k.nextBlock) (dormant : Dormant deadline (k.procs b)) :
    Dormant deadline (k'.procs b) := by
  cases move with
  | @relink a p h held here allowed =>
      intro p' there
      rw [relink_procs] at there
      split at there
      · next same =>
        subst same
        rw [here, Option.map_some, Option.some.injEq] at there
        subst p'
        have sleeps := dormant p here
        cases allowed with
        | ends kind own stops => exact absurd own other
        | target kind killed dead =>
            rcases dead with rfl | rfl
            · exact .inl rfl
            · exact .inr (.inl rfl)
        | parent kind blocked =>
            rw [blocked] at sleeps
            rcases sleeps with status | status | ⟨status, -⟩ <;> cases status
        | child kind ended => exact .inr (.inl rfl)
        | waits kind own => exact absurd own other
        | waiter kind links =>
            have status := (consistent.placed b p here).status_of_links links nofun
            rw [status] at sleeps
            rcases sleeps with status | status | ⟨status, -⟩ <;> cases status
      · exact dormant p' there
  | @edit a f kind same =>
      rw [setProc_procs]
      split
      · next equal =>
        rw [← equal]
        exact Dormant.map dormant (fun p => (same p).status) fun p => (same p).wakeUpTime
      · exact dormant
  | @delay p time kind here =>
      rw [relink_procs, if_neg other, setProc_procs, if_neg other]
      exact dormant
  | @resort a p prio h held here sorted stays links kind =>
      intro p' there
      rw [relink_procs] at there
      split at there
      · next equal =>
        subst equal
        rw [setProc_procs, if_pos rfl, here, Option.map_some, Option.map_some, Option.some.injEq] at there
        subst p'
        change h.status = .zombie ∨ h.status = .dying ∨ h.status = .asleep ∧ _
        rw [← stays]
        exact dormant p here
      · next apart =>
        rw [setProc_procs, if_neg apart] at there
        exact dormant p' there
  | @reprioritise a p prio here apart kind =>
      rw [setProc_procs]
      split
      · next equal =>
        rw [← equal]
        exact Dormant.map dormant (fun _ => rfl) fun _ => rfl
      · exact dormant
  | birth small free named status links context stack kept own kind joined =>
      obtain ⟨⟨g, same, procs⟩, -⟩ := birth_procs joined
      rw [procs, if_neg (Nat.ne_of_lt old)]
      exact Dormant.map dormant (fun p => (same b p).status) fun p => (same b p).wakeUpTime
  | store procs lists table current number next records fresh queues quiet =>
      rw [congrFun procs b]
      exact dormant

theorem Moves.dormant (moves : Moves m k k') (consistent : k.Consistent) (other : b ≠ m.current)
    (old : b < k.nextBlock) (dormant : Dormant deadline (k.procs b)) :
    Dormant deadline (k'.procs b) := by
  induction moves with
  | refl => exact dormant
  | tail moves move ih =>
      exact move.dormant (consistent.moves moves) other (old.trans_le (Moves.next_le moves)) ih

theorem Woken.dormant (woken : Woken k k') (consistent : k.Consistent)
    (early : ∀ time, deadline = some time → k.currentClock ≤ time)
    (dormant : Dormant deadline (k.procs b)) : Dormant deadline (k'.procs b) := by
  induction woken with
  | none => exact dormant
  | @sleeper k k' a p here asleep late rest ih =>
      refine ih (consistent.wake here) early ?_
      have apart : b ≠ a := by
        rintro rfl
        have status := (consistent.placed b p here).status_of_links asleep nofun
        have sleeps := dormant p here
        rw [status] at sleeps
        rcases sleeps with same | same | ⟨-, time⟩
        · cases same
        · cases same
        · exact absurd late (Nat.not_lt.mpr (early p.wakeUpTime time))
      rw [wake_procs, if_neg apart]
      exact dormant

theorem Reaped.dormant (reaped : Reaped k k') (dormant : Dormant deadline (k.procs b)) :
    Dormant deadline (k'.procs b) := by
  induction reaped with
  | none => exact dormant
  | process here dying other kept rest ih =>
      apply ih
      rw [reap_procs]
      split
      · intro p' there
        cases there
      · exact dormant

theorem scheduling_dormant (consistent : k.Consistent) (run : k.scheduling = .ok k')
    (early : ∀ time, deadline = some time → k.currentClock ≤ time)
    (dormant : Dormant deadline (k.procs b)) : Dormant deadline (k'.procs b) := by
  obtain ⟨k₁, k₂, k₃, a, c, p, woken, reaped, back, -, -, -, consistent₂, consistent₃,
    last, here, -, rfl⟩ := consistent.phases run
  have dormant₂ : Dormant deadline (k₂.procs b) := reaped.dormant (woken.dormant consistent early dormant)
  have dormant₃ : Dormant deadline (k₃.procs b) := by
    obtain ⟨p₁, there, ⟨-, rfl⟩ | ⟨running, -, rfl⟩ | ⟨running, rfl, -⟩⟩ :=
      putBack_eq consistent₂.linked back
    · exact dormant₂
    · rw [relink_procs]
      split
      · next same =>
        exact absurd (Or.inr running) (dormant₂.not_awake (same ▸ there))
      · exact dormant₂
    · rw [setStatus, setProc_procs]
      split
      · next same =>
        exact absurd (Or.inr running) (dormant₂.not_awake (same ▸ there))
      · exact dormant₂
  rw [elect_procs here]
  split
  · next same =>
    exfalso
    obtain ⟨p₁, there, links⟩ :=
      (consistent₃.linked.mem_iff _ _).mp (List.mem_of_getLast? last)
    rw [here, Option.some.injEq] at there
    subst p₁
    have placed := consistent₃.placed c p here
    rw [Proc.Placed, links] at placed
    have awake : p.Awake := by
      rcases placed with status | ⟨-, status, -⟩
      · exact .inl status
      · exact .inr status
    exact dormant₃.not_awake (same ▸ here) awake
  · exact dormant₃

theorem step_dormant (consistent : k.Consistent) (running : k.Running)
    (run : k.step e = .ok (k', n)) (early : ∀ time, deadline = some time → k'.nbInterrupt ≤ time)
    (old : b < k.nextBlock) (dormant : Dormant deadline (k.procs b)) :
    Dormant deadline (k'.procs b) ∧ b < k'.nextBlock := by
  obtain ⟨a, p, k₁, current, here, segment, finish⟩ := step_eq run
  have other : b ≠ a := by
    rintro rfl
    exact dormant.not_awake here (.inr (running.status current here))
  have moves := segment_moves consistent current segment
  have between := moves.dormant consistent other old dormant
  have old₁ : b < k₁.nextBlock := old.trans_le (Moves.next_le moves)
  have saved (context : Frame) : Dormant deadline ((k₁.setContext a context).procs b) := by
    rw [setContext, setProc_procs, if_neg other]
    exact between
  rcases finish_eq finish with ⟨value, out, rfl, rfl⟩ | ⟨context, rfl, scheduled⟩
  · exact ⟨saved .user, old₁⟩
  · have consistent₁ : (k₁.setContext a context).Consistent :=
      (consistent.segment segment).setContext
    obtain ⟨-, -, next, time, -⟩ := scheduling_same consistent₁ scheduled
    refine ⟨scheduling_dormant consistent₁ scheduled (fun deadline equal => ?_) (saved context), ?_⟩
    · change (k₁.setContext a context).nbInterrupt ≤ deadline
      rw [← time]
      exact early deadline equal
    · rw [next]
      exact old₁

end Kernel

end IntelX86Kernel

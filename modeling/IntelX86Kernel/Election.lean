import IntelX86Kernel.Blocks
import IntelX86Kernel.Idle

/-! `scheduling` always comes to an end: what each of its phases needs, and what it then does. -/

namespace IntelX86Kernel

open Transition

namespace Kernel

variable {k k' : Kernel} {a b : Addr} {p : Proc} {n : Next} {e : Event} {h : Head}

theorem Linked.live (linked : k.Linked) (member : a ∈ k.lists h) : k.procs a ≠ none := by
  obtain ⟨p, here, -⟩ := (linked.mem_iff h a).mp member
  simp [here]

theorem link_ok (linked : k.Linked) (here : k.procs a = some p) (links : p.links = none) :
    k.queueAdd a h h.field = .ok (k.link a h) := by
  obtain ⟨k', run⟩ := queueAdd_ok here links h h.field fun _ member => linked.live member
  rw [run, (queueAdd_link run).2]

def late (k : Kernel) (a : Addr) : Bool :=
  (k.procs a).any fun p : Proc => decide (p.wakeUpTime < k.currentClock)

theorem toWakeUp_ok {l : List Addr} (live : ∀ b ∈ l, k.procs b ≠ none) :
    k.toWakeUp l = .ok (l.filter k.late) := by
  induction l with
  | nil => rfl
  | cons head tail ih =>
      obtain ⟨p, here⟩ := Option.ne_none_iff_exists'.mp (live head (by simp))
      have others := ih fun b member => live b (List.mem_cons_of_mem _ member)
      have decided : k.late head = decide (p.wakeUpTime < k.currentClock) := by simp [late, here]
      apply bind_eq_ok.mpr
      refine ⟨p, deref_eq_ok.mpr here, ?_⟩
      apply bind_eq_ok.mpr
      refine ⟨_, others, ?_⟩
      simp [List.filter_cons, decided]

theorem wakeProcess_ok (linked : k.Linked) (here : k.procs a = some p)
    (asleep : p.links = some .asleep) : k.wakeProcess a = .ok (k.wake a) := by
  have base : (k.setProc a fun p => { p with status := .ready, wakeUpTime := 0 }).Linked :=
    linked.setProc _ fun _ => rfl
  have found : (k.setProc a fun p => { p with status := .ready, wakeUpTime := 0 }).procs a =
      some { p with status := .ready, wakeUpTime := 0 } := setProc_here here
  have del := queueDel_ok base found asleep
  have apart := unlink_procs.trans ((if_pos rfl).trans (congrArg _ found))
  have add := link_ok (h := .ready) base.unlink apart rfl
  have run : k.wakeProcess a = .ok _ := bind_eq_ok.mpr ⟨_, del, add⟩
  rw [run, wakeProcess_eq linked run]

theorem wakeProcesses_ok {l : List Addr} (linked : k.Linked) (nodup : l.Nodup)
    (asleep : ∀ a ∈ l, a ∈ k.lists .asleep) : ∃ k', wakeProcesses l k = .ok k' := by
  induction l generalizing k with
  | nil => exact ⟨k, rfl⟩
  | cons head tail ih =>
      obtain ⟨p, here, links⟩ := (linked.mem_iff _ head).mp (asleep head (by simp))
      obtain ⟨fresh, nodup⟩ := List.nodup_cons.mp nodup
      have others : ∀ a ∈ tail, a ∈ (k.wake head).lists .asleep := by
        intro a member
        have other : a ≠ head := fun same => fresh (same ▸ member)
        change a ∈ (k.lists .asleep).erase head
        rw [List.mem_erase_of_ne other]
        exact asleep a (List.mem_cons_of_mem _ member)
      obtain ⟨k', rest⟩ := ih (linked.wake here) nodup others
      exact ⟨k', bind_eq_ok.mpr ⟨_, wakeProcess_ok linked here links, rest⟩⟩

theorem Consistent.length_le {l : List Addr} (consistent : k.Consistent) (nodup : l.Nodup)
    (live : ∀ a ∈ l, k.procs a ≠ none) : l.length ≤ MAXNPROC := by
  have pids : ∀ a ∈ l, ∃ pid, pid ∈ List.range MAXNPROC ∧ k.processesTable pid = some a := by
    intro a member
    obtain ⟨p, here⟩ := Option.ne_none_iff_exists'.mp (live a member)
    exact ⟨p.pid, List.mem_range.mpr (consistent.live here), consistent.owned a p here⟩
  have within : l.map some ⊆ (List.range MAXNPROC).map k.processesTable := by
    intro entry member
    obtain ⟨a, inside, rfl⟩ := List.mem_map.mp member
    obtain ⟨pid, small, entry⟩ := pids a inside
    exact List.mem_map.mpr ⟨pid, small, entry⟩
  have distinct : (l.map some).Nodup := nodup.map (Option.some_injective _)
  have bounded := (List.subperm_of_subset distinct within).length_le
  simpa using bounded

theorem wakeup_ok (consistent : k.Consistent) : ∃ k', k.wakeup = .ok k' := by
  have linked := consistent.linked
  have asleep : ∀ a ∈ (k.lists .asleep).filter k.late, a ∈ k.lists .asleep :=
    fun a member => List.mem_of_mem_filter member
  have live : ∀ a ∈ k.lists .asleep, k.procs a ≠ none := fun _ member => linked.live member
  have nodup := (linked.nodup .asleep).filter k.late
  have bounded := consistent.length_le nodup fun a member => live a (asleep a member)
  obtain ⟨k', woken⟩ := wakeProcesses_ok linked nodup asleep
  refine ⟨k', bind_eq_ok.mpr ⟨_, toWakeUp_ok live, ?_⟩⟩
  rw [if_pos bounded]
  exact woken

theorem killProcess_ok (linked : k.Linked) (stocked : k.Stocked) (backed : k.Backed)
    (here : k.procs a = some p) (dying : p.links = some .dying) :
    k.killProcess a =
      .ok (k.reap a p (Function.update (Function.update k.heap a none) p.stack none)) := by
  have found : (k.unlink a).procs a = some { p with links := none } :=
    unlink_procs.trans ((if_pos rfl).trans (congrArg _ here))
  obtain ⟨apart, block⟩ := stocked.procs a p here
  obtain ⟨stack, length⟩ := backed.lengths a p here
  have other : p.stack ≠ a := by
    rw [apart]
    exact Nat.succ_ne_self a
  have first : ((k.unlink a).setTable p.pid none).memFree a sizeofProc =
      .ok { (k.unlink a).setTable p.pid none with heap := Function.update k.heap a none } := by
    apply memFree_eq_ok.mpr
    exact .inr ⟨by decide, block, rfl⟩
  have second (k₁ : Kernel) (heap : k₁.heap = Function.update k.heap a none) :
      k₁.memFree p.stack (sizeofInt * p.stackSize % 2 ^ 32) =
        .ok { k₁ with heap := Function.update k₁.heap p.stack none } := by
    apply memFree_eq_ok.mpr
    refine .inr ⟨length, ?_, rfl⟩
    rw [heap, Function.update_of_ne other, stack]
  have run : ∃ k', k.killProcess a = .ok k' ∧
      k'.heap = Function.update (Function.update k.heap a none) p.stack none := by
    refine ⟨_, bind_eq_ok.mpr ⟨_, queueDel_ok linked here dying, bind_eq_ok.mpr
      ⟨_, deref_eq_ok.mpr found, bind_eq_ok.mpr ⟨_, first, bind_eq_ok.mpr ⟨_, second _ rfl, rfl⟩⟩⟩⟩,
      rfl⟩
  obtain ⟨k', run, heap⟩ := run
  obtain ⟨q, heap', there, -, rfl⟩ := killProcess_eq linked run
  rw [here, Option.some.injEq] at there
  subst q
  change heap' = _ at heap
  rw [run, heap]

/-- The processes of a list are gone with their blocks, and nothing else has changed. -/
structure Cleared (k : Kernel) (l : List Addr) (k' : Kernel) : Prop where
  procs : ∀ b, k'.procs b = if b ∈ l then none else k.procs b
  table : ∀ pid, k'.processesTable pid =
    (k.processesTable pid).filter fun b : Addr => decide (b ∉ l)
  heap : ∀ b, k'.heap b = if ∃ a ∈ l, b = a ∨ b = a + 1 then none else k.heap b
  lists : ∀ h, k'.lists h = (k.lists h).filter fun b : Addr => decide (b ∉ l)
  number : k'.nbProc + l.length = k.nbProc
  next : k'.nextBlock = k.nextBlock
  records : k'.records = k.records
  queues : k'.queues = k.queues
  queueCount : k'.queueCount = k.queueCount
  activePID : k'.activePID = k.activePID
  nbInterrupt : k'.nbInterrupt = k.nbInterrupt

theorem Cleared.refl : Cleared k [] k := by
  constructor
  · simp
  · intro pid
    cases k.processesTable pid <;> rfl
  all_goals simp

theorem Counted.reap_number {heap : Addr → Option Nat} (counted : k.Counted)
    (consistent : k.Consistent) : (k.reap a p heap).nbProc + 1 = k.nbProc := by
  have positive := counted.pos consistent
  have bounded : k.nbProc ≤ MAXNPROC := counted ▸ Tally.tally_le
  change (k.nbProc + (2 ^ 32 - 1)) % 2 ^ 32 + 1 = k.nbProc
  rw [MAXNPROC] at bounded
  omega

theorem Cleared.cons {l : List Addr} {heap : Addr → Option Nat} (consistent : k.Consistent)
    (stocked : k.Stocked) (counted : k.Counted) (here : k.procs a = some p)
    (same : heap = Function.update (Function.update k.heap a none) p.stack none)
    (rest : Cleared (k.reap a p heap) l k') : Cleared k (a :: l) k' := by
  have apart := (stocked.procs a p here).1
  have owned := consistent.owned a p here
  constructor
  · intro b
    rw [rest.procs b, reap_procs]
    by_cases first : b = a <;> simp [first]
  · intro pid
    rw [rest.table pid]
    change (Function.update k.processesTable p.pid none pid).filter _ = _
    rw [Function.update_apply]
    split
    · next equal =>
      rw [equal, owned]
      simp [Option.filter]
    · next other =>
      cases entry : k.processesTable pid with
      | none => rfl
      | some b =>
          have different : b ≠ a := by
            rintro rfl
            obtain ⟨-, p', there, pid'⟩ := consistent.table _ _ entry
            rw [here, Option.some.injEq] at there
            subst p'
            exact other pid'.symm
          simp [Option.filter_some, different]
  · intro b
    rw [rest.heap b]
    change (if _ then _ else heap b) = _
    rw [same, apart, Function.update_apply, Function.update_apply]
    by_cases tail : ∃ c ∈ l, b = c ∨ b = c + 1
    · simp [tail]
    · by_cases block : b = a
      · simp [block]
      · by_cases stack : b = a + 1
        · simp [stack]
        · simp [block, stack]
  · intro h
    rw [rest.lists h]
    change ((k.lists h).erase a).filter _ = _
    rw [(consistent.linked.nodup h).erase_eq_filter, List.filter_filter]
    refine List.filter_congr fun b _ => ?_
    by_cases first : b = a <;> simp [first]
  · have before := rest.number
    have one : (k.reap a p heap).nbProc + 1 = k.nbProc := counted.reap_number consistent
    rw [List.length_cons]
    omega
  · exact rest.next
  · exact rest.records
  · exact rest.queues
  · exact rest.queueCount
  · exact rest.activePID
  · exact rest.nbInterrupt

theorem killLoop_ok {l : List Addr} (consistent : k.Consistent) (stocked : k.Stocked)
    (backed : k.Backed) (counted : k.Counted) (nodup : l.Nodup)
    (dying : ∀ a ∈ l, a ∈ k.lists .dying) :
    ∃ k', killLoop l k = .ok k' ∧
      Cleared k (l.takeWhile fun a => decide (k.processesTable k.activePID ≠ some a)) k' := by
  induction l generalizing k with
  | nil => exact ⟨k, rfl, .refl⟩
  | cons head tail ih =>
      by_cases active : k.processesTable k.activePID = some head
      · refine ⟨k, ?_, ?_⟩
        · rw [killLoop, if_pos active]
        · rw [List.takeWhile_cons_of_neg (by simp [active])]
          exact .refl
      · obtain ⟨p, here, links⟩ := (consistent.linked.mem_iff _ head).mp (dying head (by simp))
        obtain ⟨fresh, nodup⟩ := List.nodup_cons.mp nodup
        have first := killProcess_ok consistent.linked stocked backed here links
        have kept : ∀ b, b ≠ head → b ≠ p.stack →
            Function.update (Function.update k.heap head none) p.stack none b = k.heap b := by
          intro b block stack
          rw [Function.update_of_ne stack, Function.update_of_ne block]
        have others : ∀ a ∈ tail, a ∈ (k.lists .dying).erase head := by
          intro a member
          have other : a ≠ head := fun same => fresh (same ▸ member)
          rw [List.mem_erase_of_ne other]
          exact dying a (List.mem_cons_of_mem _ member)
        have consistent' : (k.reap head p (Function.update (Function.update k.heap head none)
            p.stack none)).Consistent := consistent.reap here active
        obtain ⟨k', run, cleared⟩ := ih consistent' (stocked.reap here kept)
          (backed.reap stocked here kept) (counted.reap consistent here) nodup others
        have same : (k.reap head p (Function.update (Function.update k.heap head none) p.stack
            none)).processesTable k.activePID = k.processesTable k.activePID := by
          refine Function.update_of_ne ?_ _ _
          intro equal
          exact active (equal ▸ consistent.owned head p here)
        refine ⟨k', ?_, ?_⟩
        · rw [killLoop, if_neg active]
          exact bind_eq_ok.mpr ⟨_, first, run⟩
        · rw [List.takeWhile_cons_of_pos (by simp [active])]
          refine Cleared.cons consistent stocked counted here rfl ?_
          rw [← same]
          exact cleared

theorem killProcesses_ok (consistent : k.Consistent) (stocked : k.Stocked) (backed : k.Backed)
    (counted : k.Counted) : ∃ k', k.killProcesses = .ok k' ∧
      Cleared k
        ((k.lists .dying).takeWhile fun a => decide (k.processesTable k.activePID ≠ some a)) k' :=
  killLoop_ok consistent stocked backed counted (consistent.linked.nodup _) fun _ member => member

theorem putBack_ok (consistent : k.Consistent)
    (current : k.processesTable k.activePID = some a) : ∃ k', k.putBack a = .ok k' := by
  obtain ⟨-, p, here, pid⟩ := consistent.table _ _ current
  by_cases running : p.status = .elected
  · have base : (k.setStatus a .ready).Linked := consistent.linked.setStatus
    have live : ∀ b ∈ (k.setStatus a .ready).lists .ready, (k.setStatus a .ready).procs b ≠ none :=
      fun _ member => base.live member
    obtain ⟨listed, search⟩ : ∃ listed, (k.setStatus a .ready).anyPid k.activePID
        ((k.setStatus a .ready).lists .ready) = .ok listed := anyPid_ok live
    cases listed with
    | true =>
        refine ⟨k.setStatus a .ready, bind_eq_ok.mpr ⟨p, deref_eq_ok.mpr here, ?_⟩⟩
        rw [if_pos running]
        apply bind_eq_ok.mpr
        exact ⟨true, search, if_pos rfl⟩
    | false =>
        have links : p.links = none := by
          have placed := consistent.placed a p here
          cases linked : p.links with
          | none => rfl
          | some h =>
              rw [Proc.Placed, linked] at placed
              have ready : h = .ready := by
                rcases placed with status | ⟨ready, -⟩
                · rw [running] at status
                  cases h <;> cases status
                · exact ready
              subst ready
              have member := (consistent.linked.links_iff here).mp linked
              obtain ⟨p', there, other⟩ := anyPid_false search a member
              rw [setStatus, setProc_procs, if_pos rfl, here, Option.map_some,
                Option.some.injEq] at there
              subst there
              exact absurd pid other
        have found : (k.setStatus a .ready).procs a = some { p with status := .ready } := by
          simp [setStatus, setProc_procs, here]
        have add := link_ok (h := .ready) base found links
        refine ⟨(k.setStatus a .ready).link a .ready,
          bind_eq_ok.mpr ⟨p, deref_eq_ok.mpr here, ?_⟩⟩
        rw [if_pos running]
        apply bind_eq_ok.mpr
        exact ⟨false, search, add⟩
  · refine ⟨k, bind_eq_ok.mpr ⟨p, deref_eq_ok.mpr here, ?_⟩⟩
    rw [if_neg running]

theorem electNext_ok (consistent : k.Consistent) (waiting : k.lists .ready ≠ []) :
    ∃ b p, (k.lists .ready).getLast? = some b ∧ k.procs b = some p ∧
      k.processesTable p.pid = some b ∧ k.electNext = .ok (k.elect b b p.pid) := by
  obtain ⟨b, last⟩ := Option.ne_none_iff_exists'.mp (mt List.getLast?_eq_none_iff.mp waiting)
  obtain ⟨p, here, -⟩ := (consistent.linked.mem_iff _ b).mp (List.mem_of_getLast? last)
  have owned := consistent.owned b p here
  have out : ∃ k', k.queueOut .ready = .ok (some b, k') := by
    rw [queueOut, last]
    exact ⟨_, bind_eq_ok.mpr ⟨p, deref_eq_ok.mpr here, rfl⟩⟩
  obtain ⟨k₁, out⟩ := out
  obtain ⟨-, taken⟩ := queueOut_unlink consistent.linked out
  have found : k₁.procs b = some { p with links := none } := by
    rw [taken]
    exact unlink_procs.trans ((if_pos rfl).trans (congrArg _ here))
  have table : k₁.processesTable p.pid = some b := by
    rw [taken]
    exact owned
  have run : ∃ k', k.electNext = .ok k' := by
    refine ⟨{ k₁.setStatus b .elected with activePID := p.pid },
      bind_eq_ok.mpr ⟨_, out, bind_eq_ok.mpr ⟨_, deref_eq_ok.mpr found, ?_⟩⟩⟩
    simp only [table]
    exact bind_eq_ok.mpr ⟨_, deref_eq_ok.mpr found, rfl⟩
  obtain ⟨k', run⟩ := run
  obtain ⟨c, q, d, last', here', entry, same⟩ := electNext_eq consistent.linked run
  rw [last, Option.some.injEq] at last'
  subst last'
  rw [here, Option.some.injEq] at here'
  subst here'
  rw [owned, Option.some.injEq] at entry
  subst entry
  exact ⟨b, p, last, here, owned, run.trans (congrArg _ same)⟩

def Schedules (k : Kernel) (e : Event) (k' : Kernel) : Prop :=
  ∃ a p k₁ context, k.processesTable k.activePID = some a ∧ k.procs a = some p ∧
    k.segment p.context e = .ok (k₁, .suspend context) ∧ k' = k₁.setContext a context

theorem Settled.awake_of_awake {p : Proc} {o : Option Proc} (settled : Settled (some p) o)
    (awake : p.Awake) : ∃ p', o = some p' ∧ p'.Awake ∧ p'.pid = p.pid := by
  cases settled with
  | same => exact ⟨p, rfl, awake, rfl⟩
  | @awake _ p' s l t was now rest => exact ⟨p', rfl, now, by rw [rest]⟩
  | freed was => rcases awake with status | status <;> rw [status] at was <;> cases was

/-- Once the running process is put back, a process that can run is in the ready list. -/
theorem ready_ne_nil (here : k.procs a = some p) (awake : p.Awake)
    (settled : Settled (k.procs a) (k'.procs a)) (consistent : k'.Consistent)
    (nobody : ∀ b p, k'.procs b = some p → p.status = .elected → p.links = some .ready) :
    k'.lists .ready ≠ [] := by
  rw [here] at settled
  obtain ⟨p', there, awake', -⟩ := settled.awake_of_awake awake
  have links : p'.links = some .ready := by
    rcases awake' with status | status
    · obtain ⟨h, links, same⟩ := (consistent.placed a p' there).links_of_status (by simp [status])
      rw [status] at same
      cases h <;> cases same
      exact links
    · exact nobody a p' there status
  have member := (consistent.linked.links_iff there).mp links
  exact List.ne_nil_of_mem member

/-- What `scheduling` finds on its way when somebody can run. -/
structure Finds (k k' : Kernel) : Prop where
  phases : ∃ k₁ k₂ a k₃ b p, k.wakeup = .ok k₁ ∧ k₁.killProcesses = .ok k₂ ∧
    k₂.activePID = k.activePID ∧ k₂.processesTable k.activePID = some a ∧
    k₂.putBack a = .ok k₃ ∧ (k₃.lists .ready).getLast? = some b ∧ k₃.procs b = some p ∧
    k₃.processesTable p.pid = some b ∧ k₃.electNext = .ok k' ∧
    k'.activePID = p.pid ∧ k'.processesTable k.activePID = some a
  elected : k'.Running

theorem scheduling_ok (consistent : k.Consistent) (stocked : k.Stocked) (backed : k.Backed)
    (counted : k.Counted) {c : Addr} {r : Proc} (able : k.procs c = some r) (awake : r.Awake) :
    ∃ k', k.scheduling = .ok k' ∧ k.Finds k' := by
  obtain ⟨k₁, woke⟩ := wakeup_ok consistent
  have woken := wakeup_eq consistent.linked woke
  have consistent₁ := consistent.woken woken
  obtain ⟨k₂, killed, -⟩ := killProcesses_ok consistent₁ (stocked.woken woken)
    (backed.still woken.still) (counted.woken woken)
  have reaped := killProcesses_eq consistent₁.linked killed
  have consistent₂ := consistent₁.reaped reaped
  obtain ⟨a, current⟩ := consistent₂.active
  obtain ⟨k₃, back⟩ := putBack_ok consistent₂ current
  obtain ⟨consistent₃, same, nobody⟩ := consistent₂.putBack current back
  have settled (b : Addr) : Settled (k.procs b) (k₃.procs b) :=
    ((woken.settled consistent b).trans (reaped.settled consistent₁ b)).trans
      (putBack_settled consistent₂ back b)
  have waiting := ready_ne_nil able awake (settled c) consistent₃ fun b p there status =>
    (nobody b p there status).2
  obtain ⟨b, p, last, here, owned, next⟩ := electNext_ok consistent₃ waiting
  obtain ⟨-, -, -, -, -, sameWoken, -⟩ := woken.same
  obtain ⟨-, -, -, -, sameReaped, -⟩ := reaped.same
  have unmoved : k₂.activePID = k.activePID := sameReaped.trans sameWoken
  have table : k₃.processesTable = k₂.processesTable := by
    obtain ⟨p, -, ⟨-, rfl⟩ | ⟨-, -, rfl⟩ | ⟨-, rfl, -⟩⟩ := putBack_eq consistent₂.linked back <;> rfl
  refine ⟨k₃.elect b b p.pid, ?_, ?_, Running.elect here owned⟩
  · apply bind_eq_ok.mpr
    refine ⟨k₁, woke, bind_eq_ok.mpr ⟨k₂, killed, bind_eq_ok.mpr ⟨a, active_eq_ok.mpr current, ?_⟩⟩⟩
    exact bind_eq_ok.mpr ⟨k₃, back, next⟩
  · refine ⟨k₁, k₂, a, k₃, b, p, woke, killed, unmoved, unmoved ▸ current, back, last, here, owned,
      next, rfl, ?_⟩
    change k₃.processesTable k.activePID = some a
    rw [table, ← unmoved, current]

theorem step_ok {k₁ : Kernel} {r : Proc} (consistent : k.Consistent) (stocked : k.Stocked)
    (backed : k.Backed) (counted : k.Counted) (current : k.processesTable k.activePID = some a)
    (here : k.procs a = some p) (segment : k.segment p.context e = .ok (k₁, n))
    (able : k₁.procs a = some r) (awake : r.Awake) : ∃ k', k.step e = .ok (k', n) := by
  have consistent₁ := consistent.segment segment
  have stocked₁ := stocked.segment consistent current segment
  have backed₁ := backed.segment stocked consistent segment
  have counted₁ := counted.moves (segment_moves consistent current segment)
  have finished : ∃ k', k₁.finish a n = .ok k' := by
    cases n with
    | ret => exact ⟨_, rfl⟩
    | suspend context =>
        have found : (k₁.setContext a context).procs a = some { r with context := context } := by
          rw [setContext, setProc_procs, if_pos rfl, able, Option.map_some]
        obtain ⟨k', run, -⟩ := scheduling_ok consistent₁.setContext (stocked₁.setProc fun _ => rfl)
          (backed₁.still (.setProc fun _ => rfl)) (counted₁.of_eq rfl rfl) found awake
        exact ⟨k', run⟩
  obtain ⟨k', finish⟩ := finished
  refine ⟨k', ?_⟩
  apply bind_eq_ok.mpr
  refine ⟨a, active_eq_ok.mpr current, bind_eq_ok.mpr ⟨p, deref_eq_ok.mpr here, ?_⟩⟩
  exact bind_eq_ok.mpr ⟨(k₁, n), segment, bind_eq_ok.mpr ⟨k', finish, rfl⟩⟩

end Kernel

open Kernel

variable {history : History} {k k' : Kernel} {e : Event}

/-- Whenever `scheduling` is called there is a process to elect, and it is ELECTED. -/
theorem scheduler_finds_process (run : Reached history k) (starts : Meets IdleStarts history)
    (permitted : k.Permits e) (calls : k.Schedules e k') :
    ∃ k'', k'.scheduling = .ok k'' ∧ k'.Finds k'' := by
  obtain ⟨a, p, k₁, context, current, here, segment, rfl⟩ := calls
  obtain ⟨consistent, -⟩ := consistent_of_run run
  obtain ⟨stocked, counted⟩ := stocked_of_run run
  have backed := backed_of_run run
  obtain ⟨consistent₁, -, saved⟩ :=
    (idle_of_run run starts).saved consistent permitted current here segment
  have backed₁ := backed.segment stocked consistent segment
  have stocked₁ := stocked.segment consistent current segment
  have counted₁ := counted.moves (segment_moves consistent current segment)
  obtain ⟨idle, r, -, able, awake, -⟩ := saved context rfl
  apply scheduling_ok _ _ _ _ able awake
  · exact consistent₁.setContext
  · exact stocked₁.setProc fun _ => rfl
  · exact backed₁.still (.setProc fun _ => rfl)
  · exact counted₁.of_eq rfl rfl

/-- Process 0 starts its first child, which outranks it. -/
theorem scheduler_finds_process_first : ∃ k' k'',
    afterBoot.Schedules (.call (.start 512 128 [97] true true)) k' ∧
      k'.scheduling = .ok k'' ∧ k'.Finds k'' := by
  have calls : ∃ k', afterBoot.Schedules (.call (.start 512 128 [97] true true)) k' :=
    ⟨_, 1, _, _, .start 1, rfl, rfl, rfl, rfl⟩
  obtain ⟨k', calls⟩ := calls
  obtain ⟨k'', run, finds⟩ :=
    scheduler_finds_process (.start afterBoot_booted) trivial (by decide) calls
  exact ⟨k', k'', calls, run, finds⟩

end IntelX86Kernel

import IntelX86Kernel.Assertions
import IntelX86Kernel.Election
import IntelX86Kernel.QueueTable
import IntelX86Kernel.SharedUse

/-! The priorities of the processes, as `getprio` returns them. -/

namespace IntelX86Kernel

open Transition

/-- `start(idle, 1024, 1, "idle", NULL)` of kernel_start has returned. -/
def KernelStarted (k : Kernel) : Prop :=
  k = afterBoot

def IsInt (z : Int) : Prop :=
  -2147483648 ≤ z ∧ z < 2147483648

def Event.PassesInts : Event → Prop
  | .call (.start _ prio _ _ _) => IsInt prio
  | .call (.chprio pid newprio) => IsInt pid ∧ IsInt newprio
  | _ => True

/-- `start`, and `chprio` for pid 0, are given strictly positive priorities. -/
def Event.PassesPositive : Event → Prop
  | .call (.start _ prio _ _ _) => 0 < prio
  | .call (.chprio pid newprio) => pid = 0 → 0 < newprio
  | _ => True

def IntsPassed (_ : History) (t : Step) : Prop :=
  t.event.PassesInts

/-- And no `pcreate` leaves an entry of the table of queues without a list. -/
def PassesPriorities (_ : History) (t : Step) : Prop :=
  t.event.PassesInts ∧ t.event.PassesPositive ∧ t.before.halvesQueue t.event = false

instance IsInt.decidable (z : Int) : Decidable (IsInt z) :=
  inferInstanceAs (Decidable (_ ∧ _))

instance Event.decidablePassesInts (e : Event) : Decidable e.PassesInts := by
  unfold Event.PassesInts
  split <;> infer_instance

instance Event.decidablePassesPositive (e : Event) : Decidable e.PassesPositive := by
  unfold Event.PassesPositive
  split <;> infer_instance

instance IntsPassed.decidable (past : History) (t : Step) : Decidable (IntsPassed past t) :=
  inferInstanceAs (Decidable t.event.PassesInts)

instance PassesPriorities.decidable (past : History) (t : Step) :
    Decidable (PassesPriorities past t) :=
  inferInstanceAs (Decidable (_ ∧ _ ∧ _))

/-- Neither below the priority of the idle process nor the image of a negative number. -/
def Proc.Ranked (p : Proc) : Prop :=
  1 ≤ p.priority ∧ p.priority < 2147483648

/-- Priorities read as ints are strictly positive, no call of `chprio` can change this, a
living process can be given every other priority, and `chprio` always returns. -/
structure Kernel.PrioritiesValid (k : Kernel) : Prop where
  read : ∀ pid a p, k.processesTable pid = some a → k.procs a = some p →
    k.getprio pid = .ok (toSigned p.priority) ∧ 0 < toSigned p.priority
  ranked : ∀ a p, k.procs a = some p → p.Ranked
  refused : ∀ pid newprio : Int, 0 < pid → pid < MAXNPROC → newprio ≤ 0 →
    k.chprio pid newprio = .ok (k, .ret (-1) none)
  changeable : ∀ (pid : Nat) newprio a p, k.processesTable pid = some a → k.procs a = some p →
    p.status ≠ .zombie → 0 < newprio →
      ∃ k', k.chprio pid newprio = .ok (k', .suspend (.done (toSigned p.priority) none)) ∧
        (k'.procs a).map Proc.priority = some (toUnsigned newprio)
  returns : ∀ (pid newprio : Int) a p, 0 ≤ pid → pid < MAXNPROC →
    k.processesTable k.activePID = some a → k.procs a = some p → p.context = .user →
      ∃ k' n, k.step (.call (.chprio pid newprio)) = .ok (k', n)

theorem toUnsigned_int {z : Int} (positive : 0 < z) (int : IsInt z) : toUnsigned z = z.toNat := by
  rw [IsInt] at int
  rw [toUnsigned]
  omega

theorem Proc.Ranked.toSigned {p : Proc} (ranked : p.Ranked) :
    IntelX86Kernel.toSigned p.priority = p.priority := by
  rw [Proc.Ranked] at ranked
  exact toSigned_small (by omega) (by omega)

namespace Kernel

variable {k k' : Kernel} {a b : Addr} {p : Proc} {n : Next} {e : Event}

def Ranked (k : Kernel) : Prop :=
  ∀ a p, k.procs a = some p → p.Ranked

theorem Ranked.still (ranked : k.Ranked) (still : Still k k') : k'.Ranked := by
  intro a p' there
  obtain ⟨p, here, same⟩ := still.before there
  have priority : p.priority = p'.priority := congrArg (fun traits => traits.2.2) same
  have before := ranked a p here
  rw [Proc.Ranked, priority] at before
  exact before

theorem chprio_accepts {pid newprio : Int} (run : k.chprio pid newprio = .ok (k', n)) :
    (k' = k ∧ n = .ret (-1) none) ∨ 0 ≤ pid ∧ (pid ≠ 0 → 0 < newprio) := by
  simp only [chprio, bind_eq_ok] at run
  obtain ⟨oldprio, got, run⟩ := run
  split at run
  · simp only [Except.ok.injEq, Prod.mk.injEq] at run
    exact .inl ⟨run.1.symm, run.2.symm⟩
  · next accepted =>
    have given : 0 ≤ pid := by
      by_contra negative
      rw [getprio, if_pos (.inl (Int.not_le.mp negative)), Except.ok.injEq] at got
      omega
    exact .inr ⟨given, fun other => by omega⟩

theorem chprio_priority {newprio : Int} (linked : k.Linked) (here : k.procs a = some p)
    (moved : (k.setProc a fun p => { p with priority := toUnsigned newprio }).reorder a p =
      .ok k') :
    ∀ b, (k'.procs b).map Proc.priority =
      if b = a then some (toUnsigned newprio) else (k.procs b).map Proc.priority := by
  intro b
  obtain ⟨base, found⟩ := chprio_stored newprio linked here
  have status : ({ p with priority := toUnsigned newprio } : Proc).status = p.status := rfl
  have changed : ((k.setProc a fun p => { p with priority := toUnsigned newprio }).procs b).map
      Proc.priority =
        if b = a then some (toUnsigned newprio) else (k.procs b).map Proc.priority := by
    rw [setProc_procs, here]
    split <;> rfl
  rw [← changed]
  rcases reorder_eq base found status moved with ⟨h, -, -, rfl⟩ | ⟨-, -, rfl, -⟩
  · rw [relink_procs]
    split
    · next same =>
      rw [same, found]
      rfl
    · rfl
  · rfl

theorem Ranked.chprio {pid newprio : Int} (ranked : k.Ranked) (linked : k.Linked)
    (ints : IsInt pid ∧ IsInt newprio) (positive : pid = 0 → 0 < newprio)
    (run : k.chprio pid newprio = .ok (k', n)) : k'.Ranked := by
  rcases chprio_accepts run with ⟨rfl, -⟩ | ⟨-, checked⟩
  · exact ranked
  · rcases chprio_eq run with ⟨rfl, -⟩ | ⟨a, p, -, here, -, moved, -⟩
    · exact ranked
    · have above : 0 < newprio := by
        by_cases zero : pid = 0
        · exact positive zero
        · exact checked zero
      intro b p' there
      have priority := chprio_priority linked here moved b
      rw [there, Option.map_some] at priority
      split at priority
      · rw [Option.some.injEq, toUnsigned_int above ints.2] at priority
        rw [Proc.Ranked, priority]
        have int := ints.2
        rw [IsInt] at int
        omega
      · obtain ⟨p₀, before, same⟩ := Option.map_eq_some_iff.mp priority.symm
        have old := ranked b p₀ before
        rw [Proc.Ranked, same] at old
        exact old

theorem Ranked.start {ssize : Nat} {prio : Int} {name : List UInt8}
    {procGranted stackGranted : Bool} (ranked : k.Ranked) (consistent : k.Consistent)
    (running : k.nbProc ≠ 0 → k.processesTable k.activePID ≠ none) (int : IsInt prio)
    (positive : 0 < prio) (run : k.start ssize prio name procGranted stackGranted = .ok (k', n)) :
    k'.Ranked := by
  rcases start_eq (consistent.fresh _ le_rfl).1 running run with ⟨heap, next, -, -, rfl, -⟩ |
    ⟨pid, stackSize, heap, k₁, -, -, -, yielded, joined⟩
  · exact ranked
  · have born : k₁ = k.born pid (k.created pid stackSize prio name) heap ∨ ∃ b placed,
        k₁ = (k.born pid (k.created pid stackSize prio name) heap).join k.nextBlock b placed := by
      rcases joined with ⟨-, same⟩ | ⟨b, owner, placed, -, -, -, -, same⟩
      · exact .inl same
      · exact .inr ⟨b, placed, same⟩
    obtain ⟨⟨g, same, procs⟩, -⟩ := birth_procs born
    rw [yielded.same]
    intro a p there
    rw [procs] at there
    split at there
    · rw [Option.some.injEq] at there
      subst there
      have priority := (same a (k.created pid stackSize prio name)).priority
      change (g a _).priority = toUnsigned prio at priority
      rw [toUnsigned_int positive int] at priority
      change 1 ≤ (g a _).priority ∧ (g a _).priority < 2147483648
      rw [priority]
      rw [IsInt] at int
      omega
    · obtain ⟨p₀, here, rfl⟩ := Option.map_eq_some_iff.mp there
      have old := ranked a p₀ here
      rw [Proc.Ranked, ← (same a p₀).priority] at old
      exact old

theorem Ranked.segment {context : Frame} (ranked : k.Ranked) (consistent : k.Consistent)
    (ints : e.PassesInts) (positive : e.PassesPositive)
    (run : k.segment context e = .ok (k', n)) : k'.Ranked := by
  by_cases plain : e.unsettles = false
  · exact ranked.still (segment_still consistent.linked plain run)
  · cases e with
    | resume | clockInterrupt => exact absurd rfl plain
    | call c =>
        simp only [Kernel.segment] at run
        split at run
        · cases c with
          | start ssize prio name procGranted stackGranted =>
              obtain ⟨a, current⟩ := consistent.active
              exact ranked.start consistent (fun _ => by simp [current]) ints positive run
          | pcreate count recordGranted bufferGranted =>
              rcases pcreate_eq run with ⟨-, rfl, -⟩ |
                ⟨-, -, -, -, -, -, ⟨-, rfl, -⟩ | ⟨-, rfl, -⟩⟩ <;> exact ranked
          | pdelete fid =>
              rcases pdelete_eq consistent.linked run with ⟨-, rfl, -⟩ |
                ⟨q, mq, k₁, heap, -, -, -, unblocked, -, rfl, -⟩
              · exact ranked
              · exact fun a p there => ranked.still unblocked.still a p there
          | chprio pid newprio => exact ranked.chprio consistent.linked ints positive run
          | exit | kill | waitpid | getprio | waitClock | sleep | preset | pcount | preceive
          | psend => exact absurd rfl plain
        · cases run

theorem Ranked.scheduling (ranked : k.Ranked) (consistent : k.Consistent)
    (run : k.scheduling = .ok k') : k'.Ranked := by
  intro a p' there
  have settled := scheduling_settled consistent run a
  rw [there] at settled
  generalize before : k.procs a = o at settled
  cases settled with
  | same => exact ranked a p' before
  | @awake p p' s l t was now rest =>
      rw [Proc.Ranked, rest]
      exact ranked a p before

theorem Ranked.step (ranked : k.Ranked) (consistent : k.Consistent) (ints : e.PassesInts)
    (positive : e.PassesPositive) (run : k.step e = .ok (k', n)) : k'.Ranked := by
  obtain ⟨a, p, k₁, current, here, segment, finish⟩ := step_eq run
  have ranked₁ := ranked.segment consistent ints positive segment
  have saved (context : Frame) : (k₁.setContext a context).Ranked :=
    ranked₁.still (.setProc fun _ => rfl)
  rcases finish_eq finish with ⟨value, out, -, rfl⟩ | ⟨context, -, finish⟩
  · exact saved .user
  · exact (saved context).scheduling (consistent.segment segment).setContext finish

theorem getprio_ok {pid : Int} (consistent : k.Consistent) (low : 0 ≤ pid)
    (inside : pid < MAXNPROC) : ∃ prio, k.getprio pid = .ok prio := by
  have entry : k.tableAt pid = .ok (k.processesTable pid.toNat) :=
    tableAt_eq_ok.mpr ⟨⟨low, inside⟩, rfl⟩
  rw [getprio, if_neg (by omega), entry]
  cases slot : k.processesTable pid.toNat with
  | none => exact ⟨-1, rfl⟩
  | some a =>
      obtain ⟨-, p, here, -⟩ := consistent.table _ a slot
      refine ⟨toSigned p.priority, bind_eq_ok.mpr ⟨some a, rfl, ?_⟩⟩
      exact bind_eq_ok.mpr ⟨p, deref_eq_ok.mpr here, rfl⟩

theorem resort_ok {g h : Head} (linked : k.Linked) (here : k.procs a = some p)
    (links : p.links = some g) : ∃ k', k.resort a h = .ok k' := by
  have found : (k.unlink a).procs a = some { p with links := none } :=
    unlink_procs.trans ((if_pos rfl).trans (congrArg _ here))
  obtain ⟨k', added⟩ := queueAdd_ok found rfl h Proc.priority fun _ member =>
    linked.unlink.live member
  exact ⟨k', bind_eq_ok.mpr ⟨_, queueDel_ok linked here links, added⟩⟩

/-- The search stops at an entry without a list, and nowhere else. -/
theorem resortInQueues_ok {g : Head} {pid : Nat} {fids : List Nat} (linked : k.Linked)
    (known : ∀ i q, k.queues i = some q → k.records q ≠ none) (here : k.procs a = some p)
    (links : p.links = some g) : ∃ k', k.resortInQueues a pid fids = .ok k' := by
  induction fids with
  | nil => exact ⟨k, rfl⟩
  | cons i rest ih =>
      rw [resortInQueues]
      cases slot : k.queues i with
      | none => exact ih
      | some q =>
          obtain ⟨mq, held⟩ := Option.ne_none_iff_exists'.mp (known i q slot)
          obtain ⟨listed, searched⟩ : ∃ listed, k.anyPid pid (k.lists (.queue q)) = .ok listed :=
            anyPid_ok fun _ member => linked.live member
          simp only [bind_eq_ok, record_eq_ok]
          cases listed with
          | true =>
              obtain ⟨k', sorted⟩ := resort_ok (h := .queue q) linked here links
              exact ⟨k', mq, held, true, searched, sorted⟩
          | false =>
              obtain ⟨k', found⟩ := ih
              exact ⟨k', mq, held, false, searched, found⟩

theorem reorder_ok {p₁ : Proc} (linked : k.Linked)
    (known : ∀ i q, k.queues i = some q → k.records q ≠ none) (here : k.procs a = some p₁)
    (member : p.status ≠ .elected → p₁.links ≠ none) : ∃ k', k.reorder a p = .ok k' := by
  by_cases running : p.status = .elected
  · exact ⟨k, by rw [reorder, running]⟩
  · obtain ⟨g, links⟩ := Option.ne_none_iff_exists'.mp (member running)
    rw [reorder]
    split
    · exact resort_ok linked here links
    · exact resort_ok linked here links
    · exact resortInQueues_ok linked known here links
    · exact ⟨k, rfl⟩

theorem Registered.chprio_accepted {pid oldprio newprio : Int} (registered : k.Registered)
    (consistent : k.Consistent) (inside : 0 ≤ pid ∧ pid < MAXNPROC)
    (got : k.getprio pid = .ok oldprio) (accepted : ¬ (oldprio ≤ 0 ∨ 0 < pid ∧ newprio ≤ 0))
    (slot : k.processesTable pid.toNat = some a) (here : k.procs a = some p)
    (living : p.status ≠ .zombie) :
    ∃ k', (k.setProc a fun p => { p with priority := toUnsigned newprio }).reorder a p = .ok k' ∧
      k.chprio pid newprio = .ok (k', .suspend (.done oldprio none)) := by
  obtain ⟨base, found⟩ := chprio_stored newprio consistent.linked here
  have member : p.status ≠ .elected → p.links ≠ none := consistent.linked_of_status here
  obtain ⟨k', moved⟩ := reorder_ok base registered.known found member
  refine ⟨k', moved, bind_eq_ok.mpr ⟨oldprio, got, ?_⟩⟩
  rw [if_neg accepted]
  apply bind_eq_ok.mpr
  refine ⟨some a, tableAt_eq_ok.mpr ⟨inside, slot⟩, bind_eq_ok.mpr ⟨p, deref_eq_ok.mpr here, ?_⟩⟩
  rw [if_neg living]
  exact bind_eq_ok.mpr ⟨k', moved, rfl⟩

theorem Registered.chprio_ok {pid : Int} (registered : k.Registered) (consistent : k.Consistent)
    (newprio : Int) (inside : 0 ≤ pid ∧ pid < MAXNPROC) :
    ∃ k' n, k.chprio pid newprio = .ok (k', n) := by
  obtain ⟨oldprio, got⟩ := getprio_ok consistent inside.1 inside.2
  by_cases refused : oldprio ≤ 0 ∨ 0 < pid ∧ newprio ≤ 0
  · exact ⟨k, .ret (-1) none, bind_eq_ok.mpr ⟨oldprio, got, if_pos refused⟩⟩
  · rcases getprio_eq got with absent | ⟨a, p, slot, here, -⟩
    · exact absurd (.inl (by omega)) refused
    · by_cases living : p.status = .zombie
      · refine ⟨k, .ret (-1) none, bind_eq_ok.mpr ⟨oldprio, got, ?_⟩⟩
        rw [if_neg refused]
        apply bind_eq_ok.mpr
        refine ⟨some a, tableAt_eq_ok.mpr ⟨inside, slot⟩, ?_⟩
        exact bind_eq_ok.mpr ⟨p, deref_eq_ok.mpr here, if_pos living⟩
      · obtain ⟨k', -, run⟩ :=
          registered.chprio_accepted consistent inside got refused slot here living
        exact ⟨k', _, run⟩

theorem chprio_status {pid newprio : Int} (linked : k.Linked) (there : k.procs b = some p)
    (run : k.chprio pid newprio = .ok (k', n)) :
    ∃ p', k'.procs b = some p' ∧ p'.status = p.status := by
  rcases chprio_eq run with ⟨rfl, -⟩ | ⟨a, r, -, here, -, moved, -⟩
  · exact ⟨p, there, rfl⟩
  · obtain ⟨base, found⟩ := chprio_stored newprio linked here
    have changed : ∃ p', (k.setProc a fun p => { p with priority := toUnsigned newprio }).procs b =
        some p' ∧ p'.status = p.status := by
      rw [setProc_procs]
      split
      · next same =>
        rw [← same, there]
        exact ⟨_, rfl, rfl⟩
      · exact ⟨p, there, rfl⟩
    rcases reorder_eq base found rfl moved with ⟨h, -, -, rfl⟩ | ⟨-, -, rfl, -⟩
    · rw [relink_procs]
      split
      · next same =>
        rw [same, here, Option.some.injEq] at there
        rw [found, ← there]
        exact ⟨_, rfl, rfl⟩
      · exact changed
    · exact changed

theorem Ranked.valid (ranked : k.Ranked) (registered : k.Registered) (consistent : k.Consistent)
    (running : k.Running) (stocked : k.Stocked) (backed : k.Backed) (counted : k.Counted) :
    k.PrioritiesValid := by
  have read (pid : Nat) (a : Addr) (p : Proc) (slot : k.processesTable pid = some a)
      (here : k.procs a = some p) :
      k.getprio pid = .ok (toSigned p.priority) ∧ 0 < toSigned p.priority := by
    have small := (consistent.table pid a slot).1
    rw [MAXNPROC] at small
    constructor
    · rw [getprio, if_neg (by rw [MAXNPROC]; omega), tableAt, if_pos (by rw [MAXNPROC]; omega),
        Int.toNat_natCast, slot]
      change (k.deref a >>= fun p => _) = _
      rw [deref_eq_ok.mpr here]
      rfl
    · have ranked := ranked a p here
      rw [ranked.toSigned]
      exact Int.natCast_pos.mpr ranked.1
  constructor
  · exact read
  · exact ranked
  · intro pid newprio given inside low
    obtain ⟨oldprio, got⟩ := getprio_ok consistent (Int.le_of_lt given) inside
    rw [Kernel.chprio, got]
    exact if_pos (.inr ⟨given, low⟩)
  · intro pid newprio a p slot here living positive
    obtain ⟨got, above⟩ := read pid a p slot here
    have small := (consistent.table pid a slot).1
    have accepted : ¬ (toSigned p.priority ≤ 0 ∨ 0 < (pid : Int) ∧ newprio ≤ 0) := by omega
    obtain ⟨k', moved, run⟩ := registered.chprio_accepted consistent
      ⟨Int.natCast_nonneg pid, Int.ofNat_lt.mpr small⟩ got accepted
      (by rw [Int.toNat_natCast, slot]) here living
    refine ⟨k', run, ?_⟩
    rw [chprio_priority consistent.linked here moved, if_pos rfl]
  · intro pid newprio a p low inside current here user
    obtain ⟨k₁, n, run⟩ := registered.chprio_ok consistent newprio ⟨low, inside⟩
    obtain ⟨p', there, status⟩ := chprio_status consistent.linked here run
    have segment : k.segment p.context (.call (.chprio pid newprio)) = .ok (k₁, n) := by
      rw [Kernel.segment, if_pos user]
      exact run
    obtain ⟨k', step⟩ := step_ok consistent stocked backed counted current here segment there
      (.inr (status.trans (running.status current here)))
    exact ⟨k', n, step⟩

end Kernel

open Kernel

variable {history : History} {k : Kernel}

theorem afterBoot_ranked : afterBoot.Ranked := by
  intro a p there
  obtain ⟨p₀, -, -, -, -, -, -, -, -, -, -, -, -, procs, -⟩ := afterBoot_booted.state
  have only : a = 1 := by
    by_contra other
    rw [procs, if_neg other] at there
    cases there
  subst only
  cases there
  exact ⟨by decide, by decide⟩

theorem run_from (events : List Event) (check : History → Kernel → Bool)
    (checked : reaches Kernel.step afterBoot events check = true) :
    ∃ history k, Run Kernel.step KernelStarted history k ∧ check history k = true := by
  have here : KernelStarted afterBoot := rfl
  exact reaches_run Kernel.step here events check checked

theorem priorities_stay_valid (run : Run Kernel.step KernelStarted history k)
    (passes : Meets PassesPriorities history) : k.PrioritiesValid := by
  have booted : ∀ k, KernelStarted k → Booted k := by
    rintro k rfl
    exact afterBoot_booted
  have ranked : k.Ranked := by
    apply run.invariant (I := fun _ k => k.Ranked) _ _ passes
    · rintro k rfl
      exact afterBoot_ranked
    · intro past k e n k' run _ ranked taken given
      exact ranked.step (consistent_of_run (run.mono booted)).1 given.1 given.2.1 taken
  have reached := run.mono booted
  have registered := registered_of_run reached (passes.imp fun _ _ given => given.2.2)
  obtain ⟨consistent, running⟩ := consistent_of_run reached
  obtain ⟨stocked, counted⟩ := stocked_of_run reached
  exact ranked.valid registered consistent running stocked (backed_of_run reached) counted

/-- A process is started and given other priorities. -/
theorem priorities_stay_valid_changed : ∃ (history : History) (k : Kernel),
    history.length = 4 ∧ k.PrioritiesValid := by
  obtain ⟨history, k, run, checked⟩ := run_from
    [.call (.start 512 5 [97] true true), .call (.chprio 1 2147483647), .resume,
      .call (.chprio 0 7)]
    (fun history _ => decide (history.length = 4) && decide (Meets PassesPriorities history))
    (by decide +kernel)
  rw [Bool.and_eq_true, decide_eq_true_eq, decide_eq_true_eq] at checked
  exact ⟨history, k, checked.1, priorities_stay_valid run checked.2⟩

/-- A negative priority is not refused by `start` and reads as one afterwards. -/
theorem start_takes_negative_priority : ¬ ∀ history k, Run Kernel.step KernelStarted history k →
    Meets IntsPassed history → k.PrioritiesValid := by
  intro valid
  obtain ⟨history, k, run, checked⟩ := run_from
    [.call (.start 512 (-5) [97] true true)]
    (fun history k => decide (Meets IntsPassed history) &&
      (k.procs 3).any fun p : Proc => decide (p.priority = 4294967291))
    (by decide +kernel)
  rw [Bool.and_eq_true, decide_eq_true_eq, Option.any_eq_true] at checked
  obtain ⟨ints, p, here, priority⟩ := checked
  have ranked := (valid history k run ints).ranked 3 p here
  rw [Proc.Ranked, of_decide_eq_true priority] at ranked
  exact absurd ranked.2 (by decide)

end IntelX86Kernel

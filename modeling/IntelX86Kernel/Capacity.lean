import IntelX86Kernel.Pstree
import IntelX86Kernel.Reaping
import IntelX86Kernel.Tally
import IntelX86Kernel.WaitedFor

/-! How many processes there is room for, and when the room of those that have been
waited for can be used again. -/

namespace IntelX86Kernel

open Transition Tally

/-- A call to `start` with arguments it accepts, all its allocations granted. -/
def Event.grantable : Event → Bool
  | .call (.start ssize _ _ procGranted stackGranted) =>
      decide (¬ (Refuses procGranted sizeofProc ∨ 2 ^ 32 ≤ ssize + MIN_SSIZE ∨
        Refuses stackGranted (stackBytes ssize)))
  | _ => false

def launched (t : Step) : Bool :=
  match t.event with
  | .call (.start ..) => decide (t.outcome ≠ .ret (-1) none)
  | _ => false

def fetched (t : Step) : Bool := (waitedPid t).any fun value => decide (0 ≤ value)

namespace Kernel

def full (k : Kernel) : Bool := (List.range MAXNPROC).all fun pid => (k.processesTable pid).isSome

def occupied (k : Kernel) (pid : Nat) : Bool :=
  ((k.processesTable pid).bind k.procs).any fun p => decide (p.status ≠ .dying)

def population (k : Kernel) : Nat := tally (fun taken => taken = true) k.occupied MAXNPROC

end Kernel

/-- `start` is not called when only DYING processes could make room, and no DYING process
is made a ZOMBIE. -/
def Tidy (_ : History) (t : Step) : Prop :=
  (t.event.grantable = true → t.before.full = true → t.before.lists .dying = []) ∧
    t.before.revives t.event = false

instance (past : History) (t : Step) : Decidable (Tidy past t) :=
  inferInstanceAs (Decidable (_ ∧ _))

/-- What a `start` that could be granted owes to those that have been waited for. -/
structure Recovers (past : History) (t : Step) : Prop where
  crowded : t.outcome = .ret (-1) none → ∀ pid < MAXNPROC, ∃ c p,
    t.before.processesTable pid = some c ∧ t.before.procs c = some p ∧ p.pid = pid ∧
      p.status ≠ .dying ∧ Unreported c past
  again : ∀ since before, past = since ++ before →
    since.countP launched < since.countP fetched →
      ∃ pid < MAXNPROC, t.outcome = .suspend (.start pid) ∨ t.outcome = .ret pid none

def Recovered (past : History) (t : Step) : Prop := t.event.grantable = true → Recovers past t

variable {k k' : Kernel} {a b c : Addr} {m mc : Member} {e : Event} {n : Next} {G : Family}
  {past history : History} {pid : Nat} {p : Proc}

theorem Event.of_grantable (granted : e.grantable = true) :
    ∃ ssize prio name procGranted stackGranted,
      e = .call (.start ssize prio name procGranted stackGranted) ∧
        ¬ (Refuses procGranted sizeofProc ∨ 2 ^ 32 ≤ ssize + MIN_SSIZE ∨
          Refuses stackGranted (stackBytes ssize)) := by
  cases e with
  | clockInterrupt | resume => cases granted
  | call call =>
      cases call with
      | start ssize prio name procGranted stackGranted =>
          exact ⟨ssize, prio, name, procGranted, stackGranted, rfl, of_decide_eq_true granted⟩
      | _ => cases granted

namespace Kernel

theorem population_le : k.population ≤ MAXNPROC := tally_le

theorem getNewPid_none : k.getNewPid = none ↔ k.full = true := by
  simp [getNewPid, full, Option.isSome_iff_ne_none]

theorem occupied_iff (consistent : k.Consistent) : k.occupied pid = true ↔
    ∃ c mc, k.family c = some mc ∧ mc.pid = pid ∧ mc.phase ≠ .dying := by
  rw [occupied, Option.any_eq_true]
  constructor
  · rintro ⟨p, found, status⟩
    obtain ⟨c, slot, there⟩ := Option.bind_eq_some_iff.mp found
    obtain ⟨-, p', held, named⟩ := consistent.table _ _ slot
    rw [there, Option.some.injEq] at held
    subst p'
    exact ⟨c, p.member, family_apply there, named,
      mt Status.phase_dying.mp (of_decide_eq_true status)⟩
  · rintro ⟨c, mc, there, named, living⟩
    obtain ⟨p, held, rfl⟩ := of_family there
    have slot := consistent.owned c p held
    rw [show p.pid = pid from named] at slot
    apply Exists.intro p
    rw [slot, Option.bind_some]
    exact ⟨held, decide_eq_true (mt Status.phase_dying.mpr living)⟩

theorem undying_of_ending {value : Int} (spared : k.revives e = false) (here : k.family a = some m)
    (current : k.processesTable k.activePID = some a) (alive : m.phase = .alive)
    (there : k.family c = some mc) (ended : ending c ⟨k, e, n, k'⟩ = some value)
    (parent : k.family.ParentAlive mc) : mc.phase ≠ .dying := by
  intro dying
  rw [ending] at ended
  split at ended
  · split at ended
    · next own =>
      have same : k.processesTable k.activePID = some c := own
      rw [current, Option.some.injEq] at same
      subst same
      rw [here, Option.some.injEq] at there
      rw [← there, alive] at dying
      cases dying
    · cases ended
  · next pid event =>
    change e = _ at event
    split at ended
    · next killed =>
      obtain ⟨positive, slot, -⟩ := killed
      obtain ⟨p, held, rfl⟩ := of_family there
      change k.processesTable pid.toNat = some c at slot
      rw [event, revives, decide_eq_true positive, slot, Option.bind_some, held, Option.any_some,
        decide_eq_true (Status.phase_dying.mp dying), parentStillAlive_alive parent] at spared
      cases spared
    · cases ended
  · cases ended

theorem Acts.undying (acts : k.Acts e n k' a m G) (consistent : k.Consistent)
    (spared : k.revives e = false) {mc' : Member} (there : k'.family c = some mc')
    (kept : mc'.phase ≠ .dying) :
    (c = k.nextBlock ∧ ∃ new, G c = some new ∧ new.pid = mc'.pid) ∨
      ∃ mc, k.family c = some mc ∧ mc.pid = mc'.pid ∧ mc.phase ≠ .dying := by
  obtain ⟨m₁, between, rfl⟩ := Family.of_edit (acts.buried.of_some there)
  have phase : m₁.phase ≠ .dying := by
    split at kept <;> exact kept
  have pid : (if c = a then m₁.saved n else m₁).pid = m₁.pid := by
    split <;> rfl
  rw [pid]
  rcases acts.fate consistent between with ⟨new, -, -⟩ | ⟨mc, before, -, fate⟩
  · exact .inl ⟨new, m₁, between, rfl⟩
  · rcases acts.deed.grown acts.here between with ⟨new, -⟩ | ⟨mb, before', named, -⟩
    · exact .inl ⟨new, m₁, between, rfl⟩
    · rw [before, Option.some.injEq] at before'
      subst mb
      apply Or.inr
      refine ⟨mc, before, named.symm, ?_⟩
      rcases fate with ⟨-, unended⟩ | ⟨ended, dead, -, parent⟩
      · by_cases zombie : m₁.phase = .zombie
        · rw [(unended.zombie zombie).1]
          nofun
        · exact (unended.living (Member.living zombie phase)).not_dying
      · have zombie : m₁.phase = .zombie := by
          by_contra other
          exact dead (Member.living other phase)
        exact undying_of_ending spared acts.here acts.current acts.alive before ended
          (parent zombie)

theorem Acts.launched_of_born (acts : k.Acts e n k' a m G) {new : Member}
    (born : G k.nextBlock = some new) : launched ⟨k, e, n, k'⟩ = true := by
  obtain ⟨rfl | rfl, ssize, prio, name, procGranted, stackGranted, rfl⟩ := acts.started new born
  · rfl
  · change decide (Next.ret (new.pid : Int) none ≠ .ret (-1) none) = true
    apply decide_eq_true
    intro same
    injection same with value
    omega

theorem not_fetched (start : launched ⟨k, e, n, k'⟩ = true) :
    fetched ⟨k, e, n, k'⟩ = false := by
  rw [launched] at start
  split at start
  · next ssize prio name procGranted stackGranted event =>
    change e = _ at event
    subst event
    rw [fetched, waitedPid, returned]
    split
    · next call value out event outcome =>
      cases event
      rfl
    · next event outcome => cases event
    · rfl
  · cases start

/-- Each step adds what it starts and takes off what it waits for. -/
theorem Acts.population (acts : k.Acts e n k' a m G) (consistent : k.Consistent)
    (consistent' : k'.Consistent) (kindred : k.Kindred) (spared : k.revives e = false) :
    k'.population + (if fetched ⟨k, e, n, k'⟩ = true then 1 else 0) ≤
      k.population + if launched ⟨k, e, n, k'⟩ = true then 1 else 0 := by
  have entries (pid : Nat) (after : k'.occupied pid = true) : k.occupied pid = true ∨
      ∃ new, G k.nextBlock = some new ∧ new.pid = pid := by
    obtain ⟨c, mc', there, rfl, living⟩ := (occupied_iff consistent').mp after
    rcases acts.undying consistent spared there living with ⟨rfl, new⟩ | ⟨mc, before, named, was⟩
    · exact .inr new
    · exact .inl ((occupied_iff consistent).mpr ⟨c, mc, before, named, was⟩)
  by_cases start : launched ⟨k, e, n, k'⟩ = true
  · rw [if_pos start, not_fetched start]
    have once : ∃ j, ∀ i, i ≠ j → k'.occupied i = true → k.occupied i = true := by
      cases born : G k.nextBlock with
      | none =>
          apply Exists.intro 0
          intro i _ after
          rcases entries i after with before | ⟨new, there, -⟩
          · exact before
          · rw [born] at there
            cases there
      | some new =>
          apply Exists.intro new.pid
          intro i other after
          rcases entries i after with before | ⟨new', there, named⟩
          · exact before
          · rw [born, Option.some.injEq] at there
            subst new'
            exact absurd named.symm other
    obtain ⟨j, others⟩ := once
    exact tally_gain (P := fun taken => taken = true) fun i _ => others i
  · rw [if_neg start]
    have others (i : Nat) (after : k'.occupied i = true) : k.occupied i = true := by
      rcases entries i after with before | ⟨new, there, -⟩
      · exact before
      · exact absurd (acts.launched_of_born there) start
    by_cases taken : fetched ⟨k, e, n, k'⟩ = true
    · rw [if_pos taken]
      have found := taken
      rw [fetched, Option.any_eq_true] at found
      obtain ⟨value, done, given⟩ := found
      obtain ⟨c, mc, listed, there, ended, rfl, dismissed⟩ :=
        acts.collected kindred done (of_decide_eq_true given)
      have before : k.occupied mc.pid = true :=
        (occupied_iff consistent).mpr ⟨c, mc, there, rfl, by rw [ended]; nofun⟩
      have inside : mc.pid < MAXNPROC := by
        obtain ⟨p, held, rfl⟩ := of_family there
        exact (consistent.table _ _ (consistent.owned c p held)).1
      have after : ¬ k'.occupied mc.pid = true := by
        intro still
        obtain ⟨d, md', there', named, living⟩ := (occupied_iff consistent').mp still
        obtain ⟨m₁, between, rfl⟩ := Family.of_edit (acts.buried.of_some there')
        rw [dismissed] at between
        obtain ⟨md, before', rfl⟩ := Family.of_dismiss between
        have same : d = c := by
          obtain ⟨pd, first, rfl⟩ := of_family before'
          obtain ⟨pc, second, rfl⟩ := of_family there
          refine consistent.unique first second ?_
          split at named <;> exact named
        subst same
        apply living
        split <;> exact if_pos rfl
      exact tally_lose (P := fun taken => taken = true) inside before after fun i _ => others i
    · rw [if_neg taken]
      exact tally_mono (P := fun taken => taken = true) (Q := fun taken => taken = true)
        fun i _ => others i

theorem Acts.unreported (acts : k.Acts e n k' a m G) (consistent : k.Consistent)
    (kindred : k.Kindred) (ledger : Ledger past k.family k.nextBlock)
    (spared : k.revives e = false)
    (before : ∀ c mc, k.family c = some mc → mc.phase ≠ .dying → Unreported c past) {mc' : Member}
    (there : k'.family c = some mc') (kept : mc'.phase ≠ .dying) :
    Unreported c (⟨k, e, n, k'⟩ :: past) := by
  rcases acts.undying consistent spared there kept with ⟨rfl, -⟩ | ⟨mc, here, -, living⟩
  · exact ⟨unborn_report consistent (consistent.fresh _ le_rfl).1, (ledger.unborn _ le_rfl).2⟩
  · refine ⟨?_, before c mc here living⟩
    intro reported
    obtain ⟨md, -, -, dismissed⟩ := acts.reports consistent kindred ledger reported
    obtain ⟨m₁, between, rfl⟩ := Family.of_edit (acts.buried.of_some there)
    rw [dismissed] at between
    obtain ⟨m₂, -, rfl⟩ := Family.of_dismiss between
    apply kept
    split <;> exact if_pos rfl

theorem start_granted {ssize : Nat} {prio : Int} {name : List UInt8}
    {procGranted stackGranted : Bool} (consistent : k.Consistent)
    (accepted : ¬ k.StartFails ssize procGranted stackGranted)
    (run : k.step (.call (.start ssize prio name procGranted stackGranted)) = .ok (k', n)) :
    ∃ pid < MAXNPROC, n = .suspend (.start pid) ∨ n = .ret pid none := by
  obtain ⟨a, p, k₁, current, here, segment, -⟩ := step_eq run
  have consistent₁ := consistent.segment segment
  have user : p.context = .user := by
    by_contra busy
    simp only [Kernel.segment, if_neg busy] at segment
    cases segment
  simp only [Kernel.segment, if_pos user, perform] at segment
  obtain ⟨pid, free, passed⟩ := start_passes prio name accepted
  rw [passed, bind_eq_ok] at segment
  obtain ⟨k₂, filled, linked⟩ := segment
  obtain ⟨k₃, yielded, -⟩ := startLinked_eq linked rfl
  exact ⟨pid, (getNewPid_eq free).1, yielded.outcome consistent₁⟩

end Kernel

open Kernel

theorem population_of_run (run : Reached history k) (tidy : Meets Tidy history) :
    ∀ since before, history = since ++ before →
      k.population + since.countP fetched ≤ MAXNPROC + since.countP launched := by
  refine run.invariant (I := fun history k => ∀ since before, history = since ++ before →
    k.population + since.countP fetched ≤ MAXNPROC + since.countP launched) ?_ ?_ tidy
  · intro k booted since before split
    obtain ⟨rfl, -⟩ := List.append_eq_nil_iff.mp split.symm
    exact population_le
  · intro past k e n k' run tidy ih taken spared since before split
    obtain ⟨consistent, running⟩ := consistent_of_run run
    have kindred := kindred_of_run run
    obtain ⟨a, m, G, acts⟩ := step_acts consistent running kindred.sound taken
    cases since with
    | nil => exact population_le
    | cons t since =>
        rw [List.cons_append, List.cons.injEq] at split
        obtain ⟨rfl, split⟩ := split
        have counted := ih since before split
        have step := acts.population consistent (consistent.step running taken).1 kindred spared.2
        rw [List.countP_cons, List.countP_cons]
        omega

theorem unreported_of_run (run : Reached history k) (tidy : Meets Tidy history) :
    ∀ c mc, k.family c = some mc → mc.phase ≠ .dying → Unreported c history := by
  refine run.invariant (I := fun history k => ∀ c mc, k.family c = some mc →
    mc.phase ≠ .dying → Unreported c history) ?_ ?_ tidy
  · intro k booted c mc _ _
    trivial
  · intro past k e n k' run tidy ih taken spared c mc there kept
    obtain ⟨consistent, running⟩ := consistent_of_run run
    have kindred := kindred_of_run run
    obtain ⟨a, m, G, acts⟩ := step_acts consistent running kindred.sound taken
    exact acts.unreported consistent kindred (ledger_of_run run) spared.2 ih there kept

theorem Kernel.full_of_failed (consistent : k.Consistent) (granted : e.grantable = true)
    (run : k.step e = .ok (k', n)) :
    k.full = true ∨ ∃ pid < MAXNPROC, n = .suspend (.start pid) ∨ n = .ret pid none := by
  obtain ⟨ssize, prio, name, procGranted, stackGranted, rfl, accepted⟩ := Event.of_grantable granted
  by_cases fails : k.StartFails ssize procGranted stackGranted
  · exact .inl (getNewPid_none.mp (fails.resolve_right accepted))
  · exact .inr (start_granted consistent fails run)

theorem Kernel.occupied_of_full (consistent : k.Consistent) (full : k.full = true)
    (none : k.lists .dying = []) (small : pid < MAXNPROC) : ∃ c p, k.processesTable pid = some c ∧
      k.procs c = some p ∧ p.pid = pid ∧ p.status ≠ .dying := by
  rw [Kernel.full, List.all_eq_true] at full
  obtain ⟨c, slot⟩ := Option.isSome_iff_exists.mp (full pid (List.mem_range.mpr small))
  obtain ⟨-, p, here, named⟩ := consistent.table _ _ slot
  refine ⟨c, p, slot, here, named, fun dying => ?_⟩
  have member := consistent.dying_iff.mpr ⟨p, here, dying⟩
  rw [none] at member
  cases member

/-- As long as `start` is not called when only DYING processes could make room and none of
them is made a ZOMBIE, `start` fails only when MAXNPROC processes are in use, and what has
been waited for can be started again. -/
theorem capacity_is_recovered (run : Reached history k) (tidy : Meets Tidy history) :
    Meets Recovered history := by
  induction run with
  | start => trivial
  | @next past k k' e n run taken ih =>
      refine ⟨?_, ih tidy.2⟩
      intro granted
      have consistent := (consistent_of_run run).1
      have cause := full_of_failed consistent granted taken
      constructor
      · intro failed pid small
        have full : k.full = true := by
          rcases cause with full | ⟨pid, -, outcome⟩
          · exact full
          · change n = .ret (-1) none at failed
            rcases outcome with same | same
            · rw [same] at failed
              cases failed
            · rw [same] at failed
              injection failed with value
              omega
        obtain ⟨c, p, slot, here, named, living⟩ :=
          occupied_of_full consistent full (tidy.1.1 granted full) small
        have unreported := unreported_of_run run tidy.2 c p.member (family_apply here)
          (mt Status.phase_dying.mp living)
        exact ⟨c, p, slot, here, named, living, unreported⟩
      · intro since before split fewer
        rcases cause with full | passed
        · have counted := population_of_run run tidy.2 since before split
          have below : k.population < MAXNPROC := by omega
          obtain ⟨pid, small, vacant⟩ := exists_uncounted below
          obtain ⟨c, p, slot, here, named, living⟩ :=
            occupied_of_full consistent full (tidy.1.1 granted full) small
          exfalso
          apply vacant
          exact (occupied_iff consistent).mpr ⟨c, p.member, family_apply here, named,
            mt Status.phase_dying.mp living⟩
        · exact passed

/-- A child has exited, its parent has waited for it and starts another one. -/
theorem capacity_is_recovered_once : ∃ (past : History) (t : Step) (k : Kernel),
    Reached (t :: past) k ∧ past.countP launched = 2 ∧ past.countP fetched = 1 ∧
      t.outcome = .suspend (.start 3) ∧ Recovers past t := by
  obtain ⟨history, k, run, checked⟩ := reached_by
    [.call (.start 512 10 [97] true true), .call (.start 512 20 [98] true true), .call (.exit 7),
      .resume, .call (.waitpid 2 true), .call (.start 512 30 [99] true true)]
    (fun history _ =>
      match history with
      | t :: past => decide (Meets Tidy (t :: past)) && decide (past.countP launched = 2) &&
          decide (past.countP fetched = 1) && decide (t.outcome = .suspend (.start 3)) &&
          t.event.grantable
      | [] => false)
    (by decide +kernel)
  cases history with
  | nil => cases checked
  | cons t past =>
      simp only [Bool.and_eq_true, decide_eq_true_eq] at checked
      obtain ⟨⟨⟨⟨tidy, starts⟩, waits⟩, outcome⟩, granted⟩ := checked
      exact ⟨past, t, k, run, starts, waits, outcome, (capacity_is_recovered run tidy).1 granted⟩

/-- The table is full, a child is killed and waited for, and its place cannot be used yet. -/
theorem dying_child_keeps_its_place : ¬ ∀ history k, Reached history k →
    Meets Recovered history := by
  intro recovers
  obtain ⟨history, k, run, checked⟩ := reached_by
    ([.call (.start 512 200 [97] true true)] ++
      List.replicate 98 (.call (.start 512 128 [98] true true)) ++
      [.call (.kill 5), .resume, .call (.waitpid 5 true), .call (.start 512 128 [99] true true)])
    (fun history _ =>
      match history with
      | t :: _ => t.event.grantable && decide (t.outcome = .ret (-1) none) &&
          decide (((t.before.processesTable 5).bind t.before.procs).map Proc.status = some .dying)
      | [] => false)
    (by decide +kernel)
  cases history with
  | nil => cases checked
  | cons t past =>
      simp only [Bool.and_eq_true, decide_eq_true_eq] at checked
      obtain ⟨⟨granted, failed⟩, dying⟩ := checked
      obtain ⟨c, p, slot, here, -, living, -⟩ :=
        ((recovers _ k run).1 granted).crowded failed 5 (by decide)
      rw [slot, Option.bind_some, here, Option.map_some, Option.some.injEq] at dying
      exact living dying

end IntelX86Kernel

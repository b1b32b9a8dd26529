import IntelX86Kernel.Sleepers

/-! The interrupt counter, and how long a process sleeps. -/

namespace IntelX86Kernel

open Transition

namespace Kernel

variable {k k' : Kernel} {a q : Addr} {n : Next}

theorem Freed.time (freed : Freed a k k') : k'.nbInterrupt = k.nbInterrupt := by
  induction freed with
  | none there empty => rfl
  | zombie there last here ended links rest ih => exact ih
  | alive there last here running rest ih => exact ih

theorem Unblocked.time (unblocked : Unblocked q k k') : k'.nbInterrupt = k.nbInterrupt := by
  induction unblocked with
  | none empty => rfl
  | waiter last rest ih => exact ih

theorem exit_time {retval : Int} (linked : k.Linked) (run : k.exit retval = .ok (k', n)) :
    k'.nbInterrupt = k.nbInterrupt := by
  obtain ⟨a, p, k₁, p₁, -, -, freed, -, -, -, ended⟩ := exit_eq linked run
  have same : k₁.nbInterrupt = k.nbInterrupt := freed.time
  rcases ended with ⟨-, rfl⟩ | ⟨-, b, parent, -, -, ⟨-, rfl⟩ | ⟨-, -, rfl⟩⟩
  · exact same
  · exact same
  · exact same

theorem kill_time {pid : Int} (linked : k.Linked) (run : k.kill pid = .ok (k', n)) :
    k'.nbInterrupt = k.nbInterrupt := by
  rcases kill_eq linked run with ⟨-, rfl, -⟩ |
    ⟨a, p, -, -, -, -, ⟨-, run⟩ | ⟨-, -, -, ⟨-, freed⟩ | ⟨-, freed⟩⟩⟩
  · rfl
  · have marked : (k.setProc a fun p => { p with killed := true }).Linked :=
      linked.setProc _ fun _ => rfl
    exact (exit_time marked run).trans rfl
  · exact freed.time
  · exact freed.time

theorem collect_time {child : Addr} {retvalp : Bool} (linked : k.Linked)
    (run : k.collect child retvalp = .ok (k', n)) : k'.nbInterrupt = k.nbInterrupt := by
  obtain ⟨p, g, parent, owner, -, -, -, -, rfl, -⟩ := collect_eq linked run
  rfl

theorem blockWaiting_time {context : Frame} (linked : k.Linked)
    (run : k.blockWaiting context = .ok (k', n)) : k'.nbInterrupt = k.nbInterrupt := by
  obtain ⟨a, p, -, -, -, rfl, -⟩ := blockWaiting_eq linked run
  rfl

theorem waitpidLoop_time {pid : Nat} {child : Addr} {retvalp : Bool} (linked : k.Linked)
    (run : k.waitpidLoop pid child retvalp = .ok (k', n)) : k'.nbInterrupt = k.nbInterrupt := by
  obtain ⟨p, -, ⟨-, run⟩ | ⟨-, run⟩⟩ := waitpidLoop_eq run
  · exact collect_time linked run
  · exact blockWaiting_time linked run

theorem waitpid_time {pid : Int} {retvalp : Bool} (linked : k.Linked)
    (run : k.waitpid pid retvalp = .ok (k', n)) : k'.nbInterrupt = k.nbInterrupt := by
  rcases waitpid_eq run with ⟨-, run⟩ | ⟨-, rfl, -⟩ | ⟨child, p, a, parent, -, -, -, -, -, -, -, run⟩
  · obtain ⟨a, p, -, -, ⟨-, rfl, -⟩ | ⟨c, -, run⟩ | ⟨-, -, run⟩⟩ := waitForChild_eq run
    · rfl
    · exact collect_time linked run
    · exact blockWaiting_time linked run
  · rfl
  · exact waitpidLoop_time linked run

theorem waitForChildResumed_time {retvalp : Bool} (linked : k.Linked)
    (run : k.waitForChildResumed retvalp = .ok (k', n)) : k'.nbInterrupt = k.nbInterrupt := by
  obtain ⟨a, p, -, -, ⟨c, -, run⟩ | ⟨-, rfl, -⟩⟩ := waitForChildResumed_eq run
  · exact collect_time linked run
  · rfl

theorem waitClock_time {clock : Nat} (linked : k.Linked)
    (run : k.waitClock clock = .ok (k', n)) : k'.nbInterrupt = k.nbInterrupt := by
  obtain ⟨a, p, -, -, -, rfl, -⟩ := waitClock_eq linked run
  rfl

theorem chprio_time {pid newprio : Int} (linked : k.Linked)
    (run : k.chprio pid newprio = .ok (k', n)) : k'.nbInterrupt = k.nbInterrupt := by
  rcases chprio_eq run with ⟨rfl, -⟩ | ⟨a, p, -, here, -, reordered, -⟩
  · rfl
  · obtain ⟨base, found⟩ := chprio_stored newprio linked here
    rcases reorder_eq (p := p) base found rfl reordered with ⟨h, -, -, rfl⟩ | ⟨-, -, rfl, -⟩
    · rfl
    · rfl

theorem start_time {ssize : Nat} {prio : Int} {name : List UInt8}
    {procGranted stackGranted : Bool} (fresh : k.procs k.nextBlock = none)
    (running : k.nbProc ≠ 0 → k.processesTable k.activePID ≠ none)
    (run : k.start ssize prio name procGranted stackGranted = .ok (k', n)) :
    k'.nbInterrupt = k.nbInterrupt := by
  rcases start_eq fresh running run with ⟨heap, next, -, -, rfl, -⟩ |
    ⟨pid, stackSize, heap, k₁, -, -, -, yielded, joined⟩
  · rfl
  · have same : k₁.nbInterrupt = k.nbInterrupt := by
      rcases joined with ⟨-, rfl⟩ | ⟨b, owner, placed, -, -, -, -, rfl⟩
      · rfl
      · rfl
    obtain ⟨current, p, running, -, -, -, ⟨-, rfl, -⟩ | ⟨-, returned⟩⟩ := yielded
    · exact same
    · obtain ⟨a, p, -, -, rfl, -⟩ := startReturn_eq returned
      exact same

theorem blockOnQueue_time {context : Frame} (linked : k.Linked)
    (run : k.blockOnQueue q context = .ok (k', n)) : k'.nbInterrupt = k.nbInterrupt := by
  obtain ⟨a, p, -, -, -, rfl, -⟩ := blockOnQueue_eq linked run
  rfl

theorem storeMessage_time {message : Int} (run : k.storeMessage q message = .ok k') :
    k'.nbInterrupt = k.nbInterrupt := by
  obtain ⟨mq, cell, -, -, rfl⟩ := storeMessage_eq run
  rfl

theorem takeMessage_time {fid : Nat} (linked : k.Linked)
    (run : k.takeMessage fid q = .ok (k', n)) : k'.nbInterrupt = k.nbInterrupt := by
  obtain ⟨mq, cell, q', -, -, -, ⟨rfl, -, -⟩ | ⟨b, -, -, rfl, -⟩⟩ := takeMessage_eq linked run
  · rfl
  · rfl

theorem pcreate_time {count : Int} {recordGranted bufferGranted : Bool}
    (run : k.pcreate count recordGranted bufferGranted = .ok (k', n)) :
    k'.nbInterrupt = k.nbInterrupt := by
  rcases pcreate_eq run with ⟨-, rfl, -⟩ | ⟨-, -, -, -, -, -, ⟨-, rfl, -⟩ | ⟨-, rfl, -⟩⟩
  · rfl
  · rfl
  · rfl

theorem pdelete_time {fid : Int} (linked : k.Linked) (run : k.pdelete fid = .ok (k', n)) :
    k'.nbInterrupt = k.nbInterrupt := by
  rcases pdelete_eq linked run with ⟨-, rfl, -⟩ | ⟨q, mq, k₁, heap, -, -, -, unblocked, -, rfl, -⟩
  · rfl
  · exact unblocked.time

theorem preset_time {fid : Int} (linked : k.Linked) (run : k.preset fid = .ok (k', n)) :
    k'.nbInterrupt = k.nbInterrupt := by
  rcases preset_eq linked run with ⟨-, rfl, -⟩ | ⟨q, mq, -, -, -, unblocked, -⟩
  · rfl
  · exact unblocked.time

theorem preceive_time {fid : Int} (linked : k.Linked) (run : k.preceive fid = .ok (k', n)) :
    k'.nbInterrupt = k.nbInterrupt := by
  rcases preceive_eq run with ⟨-, rfl, -⟩ | ⟨q, mq, -, -, -, ⟨-, run⟩ | ⟨-, run⟩⟩
  · rfl
  · exact blockOnQueue_time linked run
  · exact takeMessage_time linked run

theorem psend_time {fid message : Int} (linked : k.Linked)
    (run : k.psend fid message = .ok (k', n)) : k'.nbInterrupt = k.nbInterrupt := by
  rcases psend_eq linked run with ⟨-, rfl, -⟩ |
    ⟨q, mq, -, -, -, ⟨b, -, -, stored, -⟩ | ⟨-, -, run⟩ | ⟨-, -, stored, -⟩⟩
  · rfl
  · exact (storeMessage_time stored).trans rfl
  · exact blockOnQueue_time linked run
  · exact storeMessage_time stored

theorem perform_time {c : Call} (consistent : k.Consistent) (run : k.perform c = .ok (k', n)) :
    k'.nbInterrupt = k.nbInterrupt := by
  have linked := consistent.linked
  cases c with
  | start ssize prio name procGranted stackGranted =>
      obtain ⟨a, current⟩ := consistent.active
      exact start_time (consistent.fresh _ le_rfl).1 (fun _ => by simp [current]) run
  | exit retval => exact exit_time linked run
  | kill pid => exact kill_time linked run
  | waitpid pid retvalp => exact waitpid_time linked run
  | chprio pid newprio => exact chprio_time linked run
  | getprio pid =>
      simp only [perform, bind_eq_ok, Except.ok.injEq, Prod.mk.injEq] at run
      obtain ⟨-, -, rfl, -⟩ := run
      rfl
  | waitClock clock => exact waitClock_time linked run
  | sleep seconds => exact waitClock_time linked run
  | pcreate count recordGranted bufferGranted => exact pcreate_time run
  | pdelete fid => exact pdelete_time linked run
  | preset fid => exact preset_time linked run
  | pcount fid count =>
      obtain ⟨rfl, -⟩ := pcount_eq run
      rfl
  | preceive fid => exact preceive_time linked run
  | psend fid message => exact psend_time linked run

theorem continueWith_time {context : Frame} (linked : k.Linked)
    (run : k.continueWith context = .ok (k', n)) : k'.nbInterrupt = k.nbInterrupt := by
  cases context with
  | user => cases run
  | done value out =>
      cases run
      rfl
  | start pid =>
      obtain ⟨a, p, -, -, rfl, -⟩ := startReturn_eq run
      rfl
  | exit => cases run
  | waitpid pid child retvalp => exact waitpidLoop_time linked run
  | waitForChild retvalp => exact waitForChildResumed_time linked run
  | preceive fid q =>
      obtain ⟨mq, -, ⟨-, rfl, -⟩ | ⟨-, -, -, run⟩⟩ := preceiveResumed_eq run
      · rfl
      · exact takeMessage_time linked run
  | psend fid q message =>
      obtain ⟨mq, -, ⟨-, rfl, -⟩ | ⟨-, -, rfl, -⟩ | ⟨-, -, -, run⟩ | ⟨-, -, -, stored, -⟩⟩ :=
        psendResumed_eq run
      · rfl
      · rfl
      · exact blockOnQueue_time linked run
      · exact storeMessage_time stored

end Kernel

def ticks (history : History) : Nat :=
  history.countP fun t => decide (t.event = .clockInterrupt)

namespace Kernel

variable {k k' : Kernel} {n : Next} {e : Event}

theorem step_time (consistent : k.Consistent) (run : k.step e = .ok (k', n)) :
    k'.nbInterrupt =
      if e = .clockInterrupt then (k.nbInterrupt + 1) % 2 ^ 32 else k.nbInterrupt := by
  obtain ⟨a, p, k₁, current, here, segment, finish⟩ := step_eq run
  have kept : k'.nbInterrupt = k₁.nbInterrupt := by
    rcases finish_eq finish with ⟨value, out, rfl, rfl⟩ | ⟨context, rfl, scheduled⟩
    · rfl
    · exact (scheduling_same (consistent.segment segment).setContext scheduled).2.2.2.1
  rw [kept]
  cases e with
  | clockInterrupt =>
      simp only [Kernel.segment, clockInterrupt] at segment
      split at segment
      · cases segment
        rfl
      · cases segment
  | resume =>
      rw [if_neg (by intro same; cases same)]
      exact continueWith_time consistent.linked segment
  | call c =>
      simp only [Kernel.segment] at segment
      split at segment
      · rw [if_neg (by intro same; cases same)]
        exact perform_time consistent segment
      · cases segment

end Kernel

open Kernel

variable {history later earlier : History} {t : Step} {k : Kernel} {a b : Addr}
  {deadline : Option Nat}

theorem ticks_cons : ticks (t :: history) =
    ticks history + if t.event = .clockInterrupt then 1 else 0 := by
  simp only [ticks, List.countP_cons, decide_eq_true_eq]

theorem ticks_append : ticks (later ++ earlier) = ticks later + ticks earlier :=
  List.countP_append

theorem clock_of_run (run : Reached history k) : k.nbInterrupt = ticks history % 2 ^ 32 := by
  refine run.always (I := fun history k => k.nbInterrupt = ticks history % 2 ^ 32) ?_ ?_
  · intro k booted
    obtain ⟨p, -, -, -, -, -, -, -, -, -, time, -⟩ := booted.state
    exact time
  · intro past k e n k' run counted taken
    rw [step_time (consistent_of_run run).1 taken, counted, ticks_cons]
    split
    · omega
    · rw [Nat.add_zero]

theorem dormant_of_run (run : Reached history k) (split : history = later ++ t :: earlier)
    (early : ∀ time, deadline = some time →
      ∀ m, m ≤ ticks later → (ticks (t :: earlier) + m) % 2 ^ 32 ≤ time)
    (old : b < t.after.nextBlock) (dormant : Dormant deadline (t.after.procs b)) :
    Dormant deadline (k.procs b) ∧ b < k.nextBlock := by
  induction later generalizing history k with
  | nil =>
      subst split
      cases run with
      | next run taken => exact ⟨dormant, old⟩
  | cons last others ih =>
      subst split
      cases run with
      | @next _ k₁ _ e o run taken =>
          obtain ⟨consistent, running⟩ := consistent_of_run run
          have fewer : ticks others ≤ ticks (⟨k₁, e, o, k⟩ :: others) := by
            rw [ticks_cons]
            exact Nat.le_add_right _ _
          obtain ⟨before, old₁⟩ := ih run rfl fun time equal m within =>
            early time equal m (within.trans fewer)
          refine step_dormant consistent running taken (fun time equal => ?_) old₁ before
          have counted : k.nbInterrupt =
              ticks (⟨k₁, e, o, k⟩ :: (others ++ t :: earlier)) % 2 ^ 32 :=
            clock_of_run (.next run taken)
          have parts : ticks (⟨k₁, e, o, k⟩ :: (others ++ t :: earlier)) =
              ticks (t :: earlier) + ticks (⟨k₁, e, o, k⟩ :: others) := by
            rw [← List.cons_append, ticks_append, Nat.add_comm]
          rw [counted, parts]
          exact early time equal _ le_rfl

theorem sleep_dormant {seconds : Nat} {n : Next} {k' : Kernel} (consistent : k.Consistent)
    (current : k.processesTable k.activePID = some a)
    (run : k.step (.call (.sleep seconds)) = .ok (k', n))
    (early : k.nbInterrupt ≤ (k.nbInterrupt + seconds * 50) % 2 ^ 32) :
    Dormant (some ((k.nbInterrupt + seconds * 50) % 2 ^ 32)) (k'.procs a) ∧
      a < k'.nextBlock := by
  obtain ⟨a', p, k₁, current', here, segment, finish⟩ := step_eq run
  rw [current, Option.some.injEq] at current'
  subst a'
  have consistent₁ := consistent.segment segment
  have old : a < k.nextBlock := by
    by_contra beyond
    rw [(consistent.fresh a (Nat.not_lt.mp beyond)).1] at here
    cases here
  simp only [Kernel.segment] at segment
  split at segment
  · obtain ⟨b, p', current', here', -, rfl, rfl⟩ := waitClock_eq consistent.linked segment
    rw [current, Option.some.injEq] at current'
    subst b
    rcases finish_eq finish with ⟨value, out, same, -⟩ | ⟨context, same, scheduled⟩
    · cases same
    · obtain ⟨-, -, next, -⟩ := scheduling_same consistent₁.setContext scheduled
      refine ⟨scheduling_dormant consistent₁.setContext scheduled (fun time equal => ?_) ?_, ?_⟩
      · cases equal
        exact early
      · intro p₁ there
        rw [setContext, setProc_procs, if_pos rfl, relink_procs, if_pos rfl, setProc_procs,
          if_pos rfl, here] at there
        cases there
        refine .inr (.inr ⟨rfl, ?_⟩)
        rw [Nat.mod_mod]
        rfl
      · rw [next]
        exact old
  · cases segment

/-- The deadline `clock + 50 * seconds` fits in 32 bits, or it is the one time that the
counter never passes. -/
def SleepFits (clock seconds : Nat) : Prop :=
  clock + 50 * seconds < 2 ^ 32 ∨ (clock + 50 * seconds) % 2 ^ 32 = 2 ^ 32 - 1

/-- After a call of `sleep` whose deadline fits, the sleeper is not elected before the clock
has ticked as often as it asked for, whatever the run goes on with. -/
theorem sleep_never_ends_early {seconds : Nat} (run : Reached history k)
    (split : history = later ++ t :: earlier) (sleeps : t.event = .call (.sleep seconds))
    (sleeper : t.before.processesTable t.before.activePID = some a)
    (fits : SleepFits t.before.nbInterrupt seconds)
    (elected : k.processesTable k.activePID = some a) : 50 * seconds ≤ ticks later := by
  by_contra early
  obtain ⟨earlierRun, taken⟩ := run.split split
  rw [sleeps] at taken
  have clock := clock_of_run earlierRun
  have quiet : ticks (t :: earlier) = ticks earlier := by
    rw [ticks_cons, sleeps, if_neg (by intro same; cases same), Nat.add_zero]
  have within : ∀ m, m ≤ ticks later →
      (ticks (t :: earlier) + m) % 2 ^ 32 ≤ (t.before.nbInterrupt + seconds * 50) % 2 ^ 32 := by
    intro m below
    rw [quiet]
    rcases fits with small | last
    · omega
    · rw [Nat.mul_comm seconds 50, last]
      omega
  have now := within 0 (Nat.zero_le _)
  rw [quiet, Nat.add_zero, ← clock] at now
  obtain ⟨dormant, old⟩ := sleep_dormant (consistent_of_run earlierRun).1 sleeper taken now
  obtain ⟨still, -⟩ := dormant_of_run run split (fun time equal => by
    cases equal
    exact within) old dormant
  obtain ⟨a', p, current, here, status⟩ := (consistent_of_run run).2
  rw [elected, Option.some.injEq] at current
  subst a'
  exact still.not_awake here (.inr status)

/-- A history in which the call `count` steps back was `sleep` of the process that is
active now. -/
def sleptBack (count seconds : Nat) (history : History) (k : Kernel) : Bool :=
  (history[count]?).any fun t =>
    decide (t.event = .call (.sleep seconds)) &&
      decide (t.before.processesTable t.before.activePID = k.processesTable k.activePID) &&
      (t.before.processesTable t.before.activePID).isSome

theorem sleptBack_split {count seconds : Nat} (slept : sleptBack count seconds history k = true) :
    ∃ t a, history = history.take count ++ t :: history.drop (count + 1) ∧
      history[count]? = some t ∧ t.event = .call (.sleep seconds) ∧
      t.before.processesTable t.before.activePID = some a ∧
      k.processesTable k.activePID = some a := by
  obtain ⟨t, here, checked⟩ := (Option.any_eq_true _ _).mp slept
  simp only [Bool.and_eq_true, decide_eq_true_eq] at checked
  obtain ⟨⟨sleeps, same⟩, present⟩ := checked
  obtain ⟨a, current⟩ := Option.isSome_iff_exists.mp present
  obtain ⟨inside, found⟩ := List.getElem?_eq_some_iff.mp here
  have split : history = history.take count ++ t :: history.drop (count + 1) := by
    rw [← found, ← List.drop_eq_getElem_cons inside, List.take_append_drop]
  exact ⟨t, a, split, here, sleeps, current, same ▸ current⟩

/-- A process sleeps for one second, and is back after 51 ticks. -/
theorem sleep_never_ends_early_second : ∃ (later earlier : History) (k : Kernel),
    Reached (later ++ earlier) k ∧ ticks later = 51 ∧ 50 * 1 ≤ ticks later := by
  obtain ⟨history, k, run, checked⟩ := reached_by
    (.call (.start 512 10 [97] true true) :: .call (.sleep 1) :: .resume ::
      List.replicate 51 .clockInterrupt)
    (fun history k => sleptBack 52 1 history k && decide (ticks (history.take 52) = 51) &&
      (history[52]?).any fun t : Step => decide (t.before.nbInterrupt = 0))
    (by decide +kernel)
  simp only [Bool.and_eq_true, decide_eq_true_eq] at checked
  obtain ⟨⟨slept, ticked⟩, zero⟩ := checked
  obtain ⟨t, a, split, here, sleeps, sleeper, elected⟩ := sleptBack_split slept
  rw [here] at zero
  have clock : t.before.nbInterrupt = 0 := of_decide_eq_true zero
  have fits : SleepFits t.before.nbInterrupt 1 := .inl (by rw [clock]; decide)
  exact ⟨history.take 52, t :: history.drop 53, k, split ▸ run, ticked,
    sleep_never_ends_early run split sleeps sleeper fits elected⟩

/-- `sleep(85899346)` asks for 4294967300 ticks, of which 32 bits keep 4. -/
theorem sleep_wraps_around : ∃ history later t earlier k a, Reached history k ∧
    history = later ++ t :: earlier ∧ t.event = .call (.sleep 85899346) ∧
    t.before.processesTable t.before.activePID = some a ∧
    k.processesTable k.activePID = some a ∧ ¬ 50 * 85899346 ≤ ticks later := by
  obtain ⟨history, k, run, checked⟩ := reached_by
    (.call (.start 512 10 [97] true true) :: .call (.sleep 85899346) :: .resume ::
      List.replicate 5 .clockInterrupt)
    (fun history k => sleptBack 6 85899346 history k && decide (ticks (history.take 6) = 5))
    (by decide +kernel)
  simp only [Bool.and_eq_true, decide_eq_true_eq] at checked
  obtain ⟨slept, ticked⟩ := checked
  obtain ⟨t, a, split, -, sleeps, sleeper, elected⟩ := sleptBack_split slept
  exact ⟨history, history.take 6, t, history.drop 7, k, a, run, split, sleeps, sleeper, elected,
    by rw [ticked]; decide⟩

end IntelX86Kernel

import IntelX86Kernel.Capacity
import IntelX86Kernel.Pstree

/-! What `start` returns to a process that it has made give way to the new one. -/

namespace IntelX86Kernel

open Transition

/-- Step `t` makes process `c`, with number `pid`, by a call to `start`. -/
structure Creates (t : Step) (pid : Nat) (c : Addr) : Prop where
  call : ∃ ssize prio name procGranted stackGranted,
    t.event = .call (.start ssize prio name procGranted stackGranted)
  fresh : t.before.procs c = none
  slot : t.after.processesTable pid = some c
  there : ∃ p, t.after.procs c = some p ∧ p.pid = pid

/-- A `start` fails or answers with the process it creates, and whoever it has suspended
finds that process again. -/
structure Returns (past : History) (t : Step) : Prop where
  called : ∀ ssize prio name procGranted stackGranted,
    t.event = .call (.start ssize prio name procGranted stackGranted) →
      t.outcome = .ret (-1) none ∨ ∃ pid c, Creates t pid c ∧
        (t.outcome = .ret pid none ∨ t.outcome = .suspend (.start pid))
  kept : ∀ b p pid, t.after.procs b = some p → p.context = .start pid → p.terminated = false →
    ∃ t₀ c pc, lastCall b (t :: past) = some t₀ ∧ Creates t₀ pid c ∧
      t.after.processesTable pid = some c ∧ t.after.procs c = some pc ∧ pc.pid = pid
  resumes : ∀ b p pid, t.after.processesTable t.after.activePID = some b →
    t.after.procs b = some p → p.context = .start pid →
      t.after.step .resume = .ok (t.after.setContext b .user, .ret pid none)

namespace Kernel

/-- The process that process 0 is starting, while `scheduling` keeps it from returning. -/
def beingStarted (k : Kernel) : Option Addr :=
  match (k.processesTable 0).bind k.procs with
  | some p =>
      match p.context with
      | .start pid => if p.terminated then none else k.processesTable pid
      | _ => none
  | none => none

/-- The step calls `scheduling` with the process that process 0 is starting in the dying
list, ahead of the active process. -/
def reapsStarted (k : Kernel) (e : Event) : Bool :=
  match k.beingStarted, k.schedulesIn e with
  | some c, .ok (some k') => decide (c ∈ k'.doomed)
  | _, _ => false

end Kernel

def SparesStarted (_ : History) (t : Step) : Prop := t.before.reapsStarted t.event = false

instance (past : History) (t : Step) : Decidable (SparesStarted past t) :=
  inferInstanceAs (Decidable (_ = _))

variable {k k' : Kernel} {a b c : Addr} {m mb mb' mc : Member} {e : Event} {n : Next} {F G : Family}
  {past history : History} {pid : Nat} {p : Proc} {heir : Option Addr} {next : Addr}

theorem Member.living_roused : ({ m with
    phase := if m.phase = .blocked then .alive else m.phase } : Member).Living ↔ m.Living := by
  rw [Member.Living, Member.Living]
  by_cases blocked : m.phase = .blocked
  · simp [blocked]
  · simp [blocked]

theorem Deed.apart (deed : Deed F heir next a m e n G) (sound : F.Sound next)
    (patient : F.Patient) (here : F a = some m) (alive : m.phase = .alive) (other : b ≠ a)
    (before : F b = some mb) (there : G b = some mb') :
    (mb'.Living → mb.Living ∧ mb'.children = mb.children) ∧
      (mb.pid = 0 → mb.Living → mb'.Living) := by
  have same : F b = some mb' → (mb'.Living → mb.Living ∧ mb'.children = mb.children) ∧
      (mb.pid = 0 → mb.Living → mb'.Living) := by
    intro there
    rw [before, Option.some.injEq] at there
    subst there
    exact ⟨fun living => ⟨living, rfl⟩, fun _ living => living⟩
  have concluded {d : Addr} {s : Phase} {f : Member → Member} {m' : Member}
      (found : (F.edit d f).conclude d s heir b = some m')
      (dead : ∀ m' : Member, m'.phase = s → ¬ m'.Living) (apart : mb.pid = 0 → b ≠ d) :
      (m'.Living → mb.Living ∧ m'.children = mb.children) ∧
        (mb.pid = 0 → mb.Living → m'.Living) := by
    obtain ⟨m₁, edited, cause⟩ := Family.of_conclude found
    obtain ⟨m₂, held, rfl⟩ := Family.of_edit edited
    rw [before, Option.some.injEq] at held
    subst held
    rcases cause with ⟨equal, rfl⟩ | ⟨apart', -, rfl⟩ | ⟨apart', -, rfl⟩
    · exact ⟨fun living => absurd living (dead _ rfl), fun zero => absurd equal (apart zero)⟩
    · rw [if_neg apart']
      refine ⟨fun living => ⟨living.of_orphan.1, rfl⟩, fun _ living => ?_⟩
      have running := living.not_zombie
      rw [Member.Living] at living ⊢
      simpa only [Member.orphan, if_neg running] using living
    · rw [if_neg apart']
      exact ⟨fun living => ⟨living, rfl⟩, fun _ living => living⟩
  have zombie (m' : Member) (phase : m'.phase = .zombie) : ¬ m'.Living :=
    fun living => living.not_zombie phase
  have dying (m' : Member) (phase : m'.phase = .dying) : ¬ m'.Living :=
    fun living => living.not_dying phase
  cases deed with
  | other harmless resumed interrupted left => exact same there
  | failed => exact same there
  | refused given => exact same there
  | childless given none => exact same there
  | missed waiting running => exact same there
  | blocks asks given running =>
      rw [Family.edit_other other] at there
      exact same there
  | @collects e request retvalp d owner md asks admitted found ended siblings =>
      have child := Deed.admitted_child asks (patient a m here (.inl alive)) admitted
      have mine := (sound.owned a m d md here child found).2
      rw [siblings, Option.some.injEq] at mine
      subst mine
      obtain ⟨m₁, held, rfl⟩ := Family.of_dismiss there
      rw [before, Option.some.injEq] at held
      subst held
      by_cases equal : b = d
      · subst equal
        rw [before, Option.some.injEq] at found
        subst found
        exact ⟨fun living => absurd (if_pos rfl) living.not_dying,
          fun _ living => absurd ended living.not_zombie⟩
      · rw [Member.Living, Member.Living]
        dsimp only
        rw [if_neg equal, if_neg other]
        exact ⟨fun living => ⟨living, rfl⟩, fun _ living => living⟩
  | bears left siblings childless phase context parent joined =>
      rcases Family.of_adopt there with ⟨new, -⟩ | ⟨-, m₁, held, rfl⟩
      · rw [new, sound.fresh _ le_rfl] at before
        cases before
      · rw [before, Option.some.injEq] at held
        subst held
        have stranger := fun owner => other (parent b owner)
        dsimp only
        rw [if_neg stranger]
        exact ⟨fun living => ⟨living, rfl⟩, fun _ living => living⟩
  | exits ends owner found high =>
      obtain ⟨m₁, ended, rfl⟩ := Family.of_edit there
      obtain ⟨first, second⟩ := concluded ended zombie fun _ => other
      split
      · rw [Member.living_roused]
        exact ⟨first, second⟩
      · exact ⟨first, second⟩
  | vanishes ends gone => exact concluded there dying fun _ => other
  | @kills pid d md s positive found named apart running sentence =>
      have dead : ∀ m' : Member, m'.phase = s → ¬ m'.Living := by
        rcases sentence with ⟨rfl, -⟩ | ⟨rfl, -⟩
        · exact zombie
        · exact dying
      apply concluded there dead
      rintro zero rfl
      rw [before, Option.some.injEq] at found
      subst found
      omega

theorem Family.conclude_pid {d : Addr} {s : Phase} :
    (F.conclude d s heir c).map Member.pid = (F c).map Member.pid := by
  rw [Family.conclude_eq]
  apply Eq.trans (Family.edit_pid _) Family.disband_pid
  exact fun _ => rfl

theorem Deed.remains (deed : Deed F heir next a m e n G) (fresh : F next = none)
    (there : (F c).map Member.pid = some pid) : (G c).map Member.pid = some pid := by
  have edited {H : Family} {d : Addr} {f : Member → Member}
      (there : (H c).map Member.pid = some pid) (same : ∀ m, (f m).pid = m.pid) :
      (H.edit d f c).map Member.pid = some pid := (Family.edit_pid same).trans there
  cases deed with
  | other harmless resumed interrupted left => exact there
  | failed => exact there
  | refused given => exact there
  | childless given none => exact there
  | missed waiting running => exact there
  | blocks asks given running =>
      exact edited there fun _ => rfl
  | collects asks admitted found ended siblings =>
      rw [Family.dismiss, Option.map_map]
      exact there
  | bears left siblings childless phase context parent joined =>
      have old : c ≠ next := by
        rintro rfl
        rw [fresh] at there
        cases there
      rw [Family.adopt, if_neg old, Option.map_map]
      exact there
  | exits ends owner found other =>
      exact edited (Family.conclude_pid.trans (edited there fun _ => rfl)) fun _ => rfl
  | vanishes ends gone =>
      exact Family.conclude_pid.trans (edited there fun _ => rfl)
  | kills positive found named other running sentence =>
      exact Family.conclude_pid.trans (edited there fun _ => rfl)

namespace Kernel

theorem waitpidLoop_startless {c : Addr} {retvalp : Bool} (linked : k.Linked)
    (run : k.waitpidLoop pid c retvalp = .ok (k', n)) (pid' : Nat) : n ≠ .suspend (.start pid') := by
  rintro rfl
  obtain ⟨p, -, ⟨-, run⟩ | ⟨-, run⟩⟩ := waitpidLoop_eq run
  · obtain ⟨p, g, parent, owner, -, -, -, -, -, ended⟩ := collect_eq linked run
    cases ended
  · obtain ⟨a, p, -, -, -, -, ended⟩ := blockWaiting_eq linked run
    cases ended

theorem waitpid_startless {given : Int} {retvalp : Bool} (linked : k.Linked)
    (run : k.waitpid given retvalp = .ok (k', n)) : n ≠ .suspend (.start pid) := by
  rintro rfl
  rcases waitpid_eq run with ⟨-, run⟩ | ⟨-, -, ended⟩ | ⟨child, p, a, parent, -, -, -, -, -, -, -, run⟩
  · obtain ⟨a, p, -, -, ⟨-, -, ended⟩ | ⟨c, -, run⟩ | ⟨-, -, run⟩⟩ := waitForChild_eq run
    · cases ended
    · obtain ⟨p, g, parent, owner, -, -, -, -, -, ended⟩ := collect_eq linked run
      cases ended
    · obtain ⟨a, p, -, -, -, -, ended⟩ := blockWaiting_eq linked run
      cases ended
  · cases ended
  · exact waitpidLoop_startless linked run pid rfl

theorem blockOnQueue_startless {q : Addr} {context : Frame} (linked : k.Linked)
    (run : k.blockOnQueue q context = .ok (k', .suspend (.start pid))) : context = .start pid := by
  obtain ⟨a, p, -, -, -, -, ended⟩ := blockOnQueue_eq linked run
  cases ended
  rfl

theorem takeMessage_startless {fid : Nat} {q : Addr} (linked : k.Linked)
    (run : k.takeMessage fid q = .ok (k', n)) : n ≠ .suspend (.start pid) := by
  rintro rfl
  obtain ⟨mq, cell, q', -, -, -, ⟨-, ended, -⟩ | ⟨b, -, -, -, ended⟩⟩ := takeMessage_eq linked run
  · cases ended
  · cases ended

theorem perform_startless {call : Call} (linked : k.Linked) (other : call.isStart = false)
    (run : k.perform call = .ok (k', n)) : n ≠ .suspend (.start pid) := by
  rintro rfl
  cases call with
  | start => cases other
  | exit retval =>
      obtain ⟨a, p, k₁, p₁, -, -, -, -, -, ended, -⟩ := exit_eq linked run
      cases ended
  | kill given =>
      rcases kill_eq linked run with ⟨-, -, ended⟩ |
        ⟨a, p, -, -, -, -, ⟨-, run⟩ | ⟨-, -, ended, -⟩⟩
      · cases ended
      · have marked : (k.setProc a fun p => { p with killed := true }).Linked :=
          linked.setProc _ fun _ => rfl
        obtain ⟨a, p, k₁, p₁, -, -, -, -, -, ended, -⟩ := exit_eq marked run
        cases ended
      · cases ended
  | waitpid given retvalp => exact waitpid_startless linked run rfl
  | chprio given newprio =>
      rcases chprio_eq run with ⟨-, ended⟩ | ⟨a, p, -, -, -, -, ended⟩ <;> cases ended
  | getprio given => simp [perform, bind_eq_ok] at run
  | waitClock clock =>
      obtain ⟨a, p, -, -, -, -, ended⟩ := waitClock_eq linked run
      cases ended
  | sleep seconds =>
      obtain ⟨a, p, -, -, -, -, ended⟩ := waitClock_eq linked run
      cases ended
  | pcreate count recordGranted bufferGranted =>
      rcases pcreate_eq run with ⟨-, -, ended⟩ |
        ⟨-, -, -, -, -, -, ⟨-, -, ended⟩ | ⟨-, -, ended⟩⟩ <;> cases ended
  | pdelete fid =>
      rcases pdelete_eq linked run with ⟨-, -, ended⟩ | ⟨q, mq, k₁, heap, -, -, -, -, -, -, ended⟩ <;>
        cases ended
  | preset fid =>
      rcases preset_eq linked run with ⟨-, -, ended⟩ | ⟨q, mq, -, -, -, -, ended⟩ <;> cases ended
  | pcount fid count =>
      obtain ⟨-, value, out, ended⟩ := pcount_eq run
      cases ended
  | preceive fid =>
      rcases preceive_eq run with ⟨-, -, ended⟩ | ⟨q, mq, -, -, -, ⟨-, run⟩ | ⟨-, run⟩⟩
      · cases ended
      · cases blockOnQueue_startless linked run
      · exact takeMessage_startless linked run rfl
  | psend fid message =>
      rcases psend_eq linked run with ⟨-, -, ended⟩ |
        ⟨q, mq, -, -, -, ⟨b, -, -, -, ended⟩ | ⟨-, -, run⟩ | ⟨-, -, -, ended⟩⟩
      · cases ended
      · cases ended
      · cases blockOnQueue_startless linked run
      · cases ended

theorem continueWith_startless {context : Frame} (linked : k.Linked)
    (run : k.continueWith context = .ok (k', n)) : n ≠ .suspend (.start pid) := by
  rintro rfl
  cases context with
  | user | exit => cases run
  | done value out => cases run
  | start pid' =>
      obtain ⟨a, p, -, -, -, ended⟩ := startReturn_eq run
      cases ended
  | waitpid given c retvalp => exact waitpidLoop_startless linked run pid rfl
  | waitForChild retvalp =>
      obtain ⟨a, p, -, -, ⟨c, -, run⟩ | ⟨-, -, ended⟩⟩ := waitForChildResumed_eq run
      · obtain ⟨p, g, parent, owner, -, -, -, -, -, ended⟩ := collect_eq linked run
        cases ended
      · cases ended
  | preceive fid q =>
      obtain ⟨mq, -, ⟨-, -, ended⟩ | ⟨-, -, -, run⟩⟩ := preceiveResumed_eq run
      · cases ended
      · exact takeMessage_startless linked run rfl
  | psend fid q message =>
      obtain ⟨mq, -, ⟨-, -, ended⟩ | ⟨-, -, -, ended⟩ | ⟨-, -, -, run⟩ | ⟨-, -, -, -, ended⟩⟩ :=
        psendResumed_eq run
      · cases ended
      · cases ended
      · cases blockOnQueue_startless linked run
      · cases ended

theorem segment_startless {context : Frame} (linked : k.Linked)
    (run : k.segment context e = .ok (k', .suspend (.start pid))) :
    ∃ ssize prio name procGranted stackGranted,
      e = .call (.start ssize prio name procGranted stackGranted) := by
  cases e with
  | clockInterrupt =>
      simp only [segment, clockInterrupt] at run
      split at run
      · cases run
      · cases run
  | resume => exact absurd rfl (continueWith_startless linked run)
  | call call =>
      simp only [segment] at run
      split at run
      · cases kind : call.isStart with
        | false => exact absurd rfl (perform_startless linked kind run)
        | true =>
            cases call with
            | start ssize prio name procGranted stackGranted =>
                exact ⟨ssize, prio, name, procGranted, stackGranted, rfl⟩
            | _ => cases kind
      · cases run

theorem Woken.dying (woken : Woken k k') (linked : k.Linked) :
    k'.lists .dying = k.lists .dying := by
  induction woken with
  | none => rfl
  | @sleeper k k' a p here asleep late rest ih =>
      have apart : a ∉ k.lists .dying := by
        intro member
        have links := (linked.links_iff here).mpr member
        rw [asleep] at links
        cases links
      rw [ih (linked.wake here)]
      exact List.erase_of_not_mem apart

theorem scheduling_table (consistent : k.Consistent) (stocked : k.Stocked) (backed : k.Backed)
    (counted : k.Counted) (run : k.scheduling = .ok k') (pid : Nat) : k'.processesTable pid =
      (k.processesTable pid).filter fun b : Addr => decide (b ∉ k.doomed) := by
  simp only [Kernel.scheduling, electProc, bind_eq_ok, active_eq_ok] at run
  obtain ⟨k₁, woke, k₂, killed, c, current, k₃, back, next⟩ := run
  have woken := wakeup_eq consistent.linked woke
  have consistent₁ := consistent.woken woken
  obtain ⟨k₂', killed', reaps⟩ := killProcesses_reaps consistent₁ (stocked.woken woken)
    (backed.still woken.still) (counted.woken woken)
  rw [killed, Except.ok.injEq] at killed'
  subst k₂'
  obtain ⟨-, -, -, -, table, active, -⟩ := woken.same
  have doomed : k₁.doomed = k.doomed := by
    rw [Kernel.doomed, Kernel.doomed, woken.dying consistent.linked, table, active]
  have consistent₂ := consistent₁.reaped (killProcesses_eq consistent₁.linked killed)
  obtain ⟨d, q, b, -, -, -, rfl⟩ := electNext_eq (consistent₂.putBack current back).1.linked next
  have kept : k₃.processesTable = k₂.processesTable := by
    obtain ⟨p, -, ⟨-, rfl⟩ | ⟨-, -, rfl⟩ | ⟨-, rfl, -⟩⟩ := putBack_eq consistent₂.linked back <;> rfl
  change k₃.processesTable pid = _
  rw [kept, reaps.cleared.table, table, doomed]

theorem start_creates {ssize : Nat} {prio : Int} {name : List UInt8}
    {procGranted stackGranted : Bool} (consistent : k.Consistent) (running : k.Running)
    (kindred : k.Kindred) (unused : k.heap k.nextBlock = none)
    (run : k.step (.call (.start ssize prio name procGranted stackGranted)) = .ok (k', n)) :
    n = .ret (-1) none ∨ ∃ new, k'.family k.nextBlock = some new ∧ new.phase = .alive ∧
      (k.nbProc ≠ 0 → new.parent = k.processesTable k.activePID) ∧
      Creates ⟨k, .call (.start ssize prio name procGranted stackGranted), n, k'⟩ new.pid
        k.nextBlock ∧ (n = .ret new.pid none ∨ n = .suspend (.start new.pid)) := by
  have consistent' := (consistent.step running run).1
  have fresh := (consistent.fresh _ le_rfl).1
  obtain ⟨a, p, k₁, current, here, segment, finish⟩ := step_eq run
  have status := running.status current here
  have alive : p.status.phase = .alive := by
    rw [status]
    rfl
  have acts := segment_acts consistent kindred.sound current here alive segment finish
  have user : p.context = .user := by
    by_contra busy
    simp only [Kernel.segment, if_neg busy] at segment
    cases segment
  simp only [Kernel.segment, if_pos user, perform] at segment
  by_cases fails : k.StartFails ssize procGranted stackGranted
  · obtain ⟨next, -, failed⟩ := start_fails prio name fresh unused fails
    rw [segment] at failed
    cases failed
    exact .inl rfl
  · apply Or.inr
    have traits := (start_traits fails segment).2 k.nextBlock
    rw [if_pos rfl] at traits
    obtain ⟨q, found, -⟩ := Option.map_eq_some_iff.mp traits
    have there := family_apply found
    have other : k.nextBlock ≠ a := by
      intro same
      rw [← same, fresh] at here
      cases here
    have phase : q.member.phase = .alive := by
      rcases acts.fate consistent there with ⟨-, phase, -⟩ | ⟨mc, before, -⟩
      · exact phase
      · rw [family, fresh] at before
        cases before
    have after : k'.family k.nextBlock = some q.member := by
      apply acts.buried.stays
      · rw [Family.edit_other other]
        exact there
      · rw [phase]
        intro dying
        cases dying
    obtain ⟨p', held, same⟩ := of_family after
    have named : p'.pid = q.member.pid := congrArg Member.pid same
    have slot := consistent'.owned _ p' held
    rw [named] at slot
    refine ⟨q.member, after, phase, fun others => ?_, ?_, ?_⟩
    · rw [acts.parented others q.member there, current]
    · exact ⟨⟨ssize, prio, name, procGranted, stackGranted, rfl⟩, fresh, slot, p', held, named⟩
    · exact (acts.started q.member there).1.symm

def Awaits (history : History) (k : Kernel) : Prop :=
  ∀ b m pid, k.family b = some m → m.Living → m.context = .start pid →
    ∃ t₀ c mc, lastCall b history = some t₀ ∧ Creates t₀ pid c ∧ k.family c = some mc ∧
      mc.pid = pid ∧ (m.pid ≠ 0 → c ∈ m.children)

theorem beingStarted_eq (consistent : k.Consistent) (zero : k.procs b = some p) (first : p.pid = 0)
    (waiting : p.context = .start pid) (living : p.terminated = false) :
    k.beingStarted = k.processesTable pid := by
  have slot := consistent.owned b p zero
  rw [first] at slot
  rw [beingStarted, slot, Option.bind_some, zero]
  dsimp only
  rw [waiting]
  dsimp only
  rw [if_neg (Bool.eq_false_iff.mp living)]

theorem suspended_table {k₁ : Kernel} {context : Frame} (reached : Reached past k)
    (current : k.processesTable k.activePID = some a)
    (segment : k.segment p.context e = .ok (k₁, .suspend context))
    (finish : (k₁.setContext a context).scheduling = .ok k') (pid : Nat) : k'.processesTable pid =
      (k₁.processesTable pid).filter fun b : Addr =>
        decide (b ∉ (k₁.setContext a context).doomed) := by
  obtain ⟨consistent, -⟩ := consistent_of_run reached
  obtain ⟨stocked, counted⟩ := stocked_of_run reached
  have consistent₁ := consistent.segment segment
  have stocked₁ := stocked.segment consistent current segment
  have backed₁ := (backed_of_run reached).segment stocked consistent segment
  have counted₁ := counted.moves (segment_moves consistent current segment)
  have saved : (k₁.setContext a context).Stocked := stocked₁.setProc fun _ => rfl
  have still : Still k₁ (k₁.setContext a context) := .setProc fun _ => rfl
  exact scheduling_table consistent₁.setContext saved (backed₁.still still)
    (counted₁.of_eq rfl rfl) finish pid

theorem spared_remains {k₁ : Kernel} (reached : Reached past k)
    (current : k.processesTable k.activePID = some a)
    (here : k.procs a = some p) (segment : k.segment p.context e = .ok (k₁, n))
    (finish : k₁.finish a n = .ok k') (begun : k.beingStarted = some c)
    (there : (k₁.family c).map Member.pid = some pid) (spared : k.reapsStarted e = false) :
    ∃ mc, k'.family c = some mc ∧ mc.pid = pid := by
  have consistent₁ := (consistent_of_run reached).1.segment segment
  obtain ⟨m₁, held, named⟩ := Option.map_eq_some_iff.mp there
  obtain ⟨q, found, rfl⟩ := of_family held
  have table : k'.processesTable pid = some c := by
    have slot := consistent₁.owned c q found
    rw [show q.pid = pid from named] at slot
    rcases finish_eq finish with ⟨value, out, rfl, rfl⟩ | ⟨context, rfl, finish⟩
    · exact slot
    · rw [reapsStarted, begun, schedulesIn_eq current here segment] at spared
      rw [suspended_table reached current segment finish pid, slot, Option.filter_some,
        if_pos (decide_eq_true (of_decide_eq_false spared))]
  have consistent' : k'.Consistent := by
    rcases finish_eq finish with ⟨value, out, rfl, rfl⟩ | ⟨context, rfl, finish⟩
    · exact consistent₁.setContext
    · exact (consistent₁.setContext.scheduling finish).1
  obtain ⟨-, p', after, pid'⟩ := consistent'.table _ _ table
  exact ⟨p'.member, family_apply after, pid'⟩

theorem Awaits.step (awaits : k.Awaits past) (reached : Reached past k)
    (run : k.step e = .ok (k', n)) (spared : k.reapsStarted e = false) :
    k'.Awaits (⟨k, e, n, k'⟩ :: past) := by
  obtain ⟨consistent, running⟩ := consistent_of_run reached
  have kindred := kindred_of_run reached
  have kindred' := kindred_of_run (.next reached run)
  have fresh := (consistent.fresh _ le_rfl).1
  obtain ⟨a, p, k₁, current, here, segment, finish⟩ := step_eq run
  have alive : p.status.phase = .alive := by
    rw [running.status current here]
    rfl
  have acts := segment_acts consistent kindred.sound current here alive segment finish
  intro b m' pid there living waiting
  obtain ⟨m₁, between, rfl⟩ := Family.of_edit (acts.buried.of_some there)
  by_cases own : b = a
  · subst own
    rw [if_pos rfl] at there living waiting ⊢
    have suspended : n = .suspend (.start pid) := by
      cases n with
      | ret value out => cases waiting
      | suspend context =>
          change context = .start pid at waiting
          rw [waiting]
    subst suspended
    obtain ⟨ssize, prio, name, procGranted, stackGranted, rfl⟩ :=
      segment_startless consistent.linked segment
    have unused := (backed_of_run reached).unused _ le_rfl
    rcases start_creates consistent running kindred unused run with failed |
      ⟨new, after, phase, parent, creates, outcome⟩
    · cases failed
    · have same : new.pid = pid := by
        rcases outcome with ended | ended
        · cases ended
        · cases ended
          rfl
      rw [same] at creates
      refine ⟨_, k.nextBlock, new, lastCall_call current rfl, creates, after, same, fun other => ?_⟩
      have others := (stocked_of_run reached).2.pos consistent
      have owner := (parent others).trans current
      exact kindred'.sound.listed _ new _ _ after (.inl phase) owner there other
  · rw [if_neg own] at there living waiting ⊢
    rcases acts.deed.grown acts.here between with ⟨rfl, -⟩ | ⟨mb, before, number, context, -⟩
    · rcases acts.fate consistent between with ⟨-, -, context⟩ | ⟨mc, before, -⟩
      · rw [context] at waiting
        cases waiting
      · rw [family, fresh] at before
        cases before
    · obtain ⟨steady, -⟩ := acts.deed.apart kindred.sound kindred.patient acts.here acts.alive own
        before between
      obtain ⟨was, children⟩ := steady living
      obtain ⟨t₀, c, mc, called, creates, found, named, child⟩ :=
        awaits b mb pid before was (context.symm.trans waiting)
      have other : actor ⟨k, e, n, k'⟩ ≠ some b := by
        intro same
        change k.processesTable k.activePID = some b at same
        rw [current, Option.some.injEq] at same
        exact own same.symm
      have kept : (k₁.family c).map Member.pid = some pid := by
        apply acts.deed.remains
        · rw [family, fresh]
          rfl
        · rw [found, Option.map_some, named]
      have after : ∃ mc', k'.family c = some mc' ∧ mc'.pid = pid := by
        by_cases zero : m₁.pid = 0
        · obtain ⟨pb, held, rfl⟩ := of_family before
          apply spared_remains reached current here segment finish _ kept spared
          rw [beingStarted_eq consistent held (number.symm.trans zero)
            (context.symm.trans waiting) (Proc.living_iff.mp was)]
          obtain ⟨pc, held', rfl⟩ := of_family found
          have slot := consistent.owned c pc held'
          rw [show pc.pid = pid from named] at slot
          exact slot
        · have listed := child (number ▸ zero)
          obtain ⟨mc', found', -⟩ := kindred'.sound.lasting b m₁ c there zero (children ▸ listed)
          obtain ⟨m₂, between', rfl⟩ := Family.of_edit (acts.buried.of_some found')
          rw [between', Option.map_some, Option.some.injEq] at kept
          refine ⟨_, found', ?_⟩
          split <;> exact kept
      obtain ⟨mc', found', named'⟩ := after
      refine ⟨t₀, c, mc', (lastCall_other other).trans called, creates, found', named', ?_⟩
      intro positive
      rw [children]
      exact child (number ▸ positive)

theorem resume_returns {pc : Proc} (current : k.processesTable k.activePID = some b)
    (here : k.procs b = some p) (waiting : p.context = .start pid)
    (slot : k.processesTable pid = some c) (there : k.procs c = some pc) (named : pc.pid = pid) :
    k.step .resume = .ok (k.setContext b .user, .ret pid none) := by
  rw [Kernel.step, active_eq_ok.mpr current]
  dsimp only [bind, Except.bind]
  rw [deref_eq_ok.mpr here]
  dsimp only
  rw [waiting, Kernel.segment, continueWith, startReturn, slot]
  dsimp only
  rw [deref_eq_ok.mpr there]
  dsimp only [bind, Except.bind]
  rw [named]
  rfl

theorem of_beingStarted (begun : k.beingStarted = some c) : ∃ b p pid,
    k.processesTable 0 = some b ∧ k.procs b = some p ∧ p.context = .start pid ∧
      p.terminated = false ∧ k.processesTable pid = some c := by
  rw [beingStarted] at begun
  split at begun
  · next p found =>
    obtain ⟨b, slot, here⟩ := Option.bind_eq_some_iff.mp found
    split at begun
    · next pid waiting =>
      split at begun
      · cases begun
      · next living => exact ⟨b, p, pid, slot, here, waiting, Bool.eq_false_iff.mpr living, begun⟩
    · cases begun
  · cases begun

theorem of_reapsStarted (reaps : k.reapsStarted e = true) : ∃ c k₂,
    k.beingStarted = some c ∧ k.schedulesIn e = .ok (some k₂) ∧ c ∈ k₂.doomed := by
  rw [reapsStarted] at reaps
  split at reaps
  · next c k₂ begun schedules => exact ⟨c, k₂, begun, schedules, of_decide_eq_true reaps⟩
  · cases reaps

theorem leaves_start {context : Frame} (waiting : context = .start pid)
    (run : k.segment context e = .ok (k', n)) : ∃ value, n = .ret value none := by
  subst waiting
  cases e with
  | call call => cases run
  | clockInterrupt => cases run
  | resume =>
      obtain ⟨c, p, -, -, -, ended⟩ := startReturn_eq run
      exact ⟨p.pid, ended⟩

theorem reaped_entry (reached : Reached past k) (run : k.step e = .ok (k', n))
    (reaps : k.reapsStarted e = true) : ∃ b p pid, k'.procs b = some p ∧ p.context = .start pid ∧
      p.terminated = false ∧ k'.processesTable pid = none := by
  obtain ⟨consistent, running⟩ := consistent_of_run reached
  have kindred := kindred_of_run reached
  have fresh := (consistent.fresh _ le_rfl).1
  obtain ⟨c, k₂, begun, schedules, doomed⟩ := of_reapsStarted reaps
  obtain ⟨b, p, pid, zero, there, waiting, living, slot⟩ := of_beingStarted begun
  obtain ⟨a, q, k₁, current, here, segment, finish⟩ := step_eq run
  have alive : q.status.phase = .alive := by
    rw [running.status current here]
    rfl
  have acts := segment_acts consistent kindred.sound current here alive segment finish
  obtain ⟨context, rfl⟩ : ∃ context, n = .suspend context := by
    cases n with
    | suspend context => exact ⟨context, rfl⟩
    | ret value out =>
        rw [schedulesIn_returned current here segment] at schedules
        cases schedules
  rw [schedulesIn_eq current here segment, Except.ok.injEq, Option.some.injEq] at schedules
  subst k₂
  have other : b ≠ a := by
    rintro rfl
    rw [here, Option.some.injEq] at there
    subst q
    obtain ⟨value, ended⟩ := leaves_start waiting segment
    cases ended
  have absent : k.family k.nextBlock = none := by
    rw [family, fresh]
    rfl
  have kept {d : Addr} {r : Proc} (held : k.procs d = some r) :
      ∃ md, k₁.family d = some md ∧ md.pid = r.pid := by
    apply Option.map_eq_some_iff.mp
    apply acts.deed.remains absent
    rw [family_apply held]
    rfl
  obtain ⟨-, p', there', first⟩ := consistent.table _ _ zero
  rw [there, Option.some.injEq] at there'
  subst p'
  obtain ⟨mb, between, -⟩ := kept there
  have before := family_apply there
  obtain ⟨-, stays⟩ := acts.deed.apart kindred.sound kindred.patient acts.here acts.alive other
    before between
  have lives : mb.Living := stays first (Proc.living_iff.mpr living)
  have saved : mb.context = .start pid := by
    rcases acts.deed.grown acts.here between with ⟨new, -⟩ | ⟨m₀, before', -, same, -⟩
    · rw [new, absent] at before
      cases before
    · rw [before, Option.some.injEq] at before'
      rw [same, ← before']
      exact waiting
  have after : k'.family b = some mb := by
    apply acts.buried.stays
    · rw [Family.edit_other other]
      exact between
    · exact lives.not_dying
  obtain ⟨p', held, rfl⟩ := of_family after
  refine ⟨b, p', pid, held, saved, Proc.living_iff.mp lives, ?_⟩
  have consistent₁ := consistent.segment segment
  have entry : k₁.processesTable pid = some c := by
    obtain ⟨-, pc, found, named⟩ := consistent.table _ _ slot
    obtain ⟨mc, found', same⟩ := kept found
    obtain ⟨pc', held', rfl⟩ := of_family found'
    have owned := consistent₁.owned c pc' held'
    rw [show pc'.pid = pid from same.trans named] at owned
    exact owned
  rw [suspended_table reached current segment finish pid, entry]
  simp [Option.filter, doomed]

end Kernel

open Kernel

theorem awaits_of_run (run : Reached history k) (spares : Meets SparesStarted history) :
    k.Awaits history := by
  refine run.invariant (I := fun history k => k.Awaits history) ?_ ?_ spares
  · intro k booted b m pid there _ waiting
    obtain ⟨p, -, -, -, context, -, -, -, -, -, -, -, -, procs, -⟩ := booted.state
    obtain ⟨p', here, rfl⟩ := of_family there
    rw [procs] at here
    split at here
    · cases here
      change p.context = .start pid at waiting
      rw [context] at waiting
      cases waiting
    · cases here
  · intro past k e n k' reached _ awaits taken spared
    exact awaits.step reached taken spared

/-- Every `start` that does not fail returns the pid of its process, and whoever it has made
give way finds that process again, exactly as long as `scheduling` is not called with the
process that process 0 is starting ahead of the active one in the dying list. -/
theorem start_returns_safely (run : Reached history k) :
    Meets Returns history ↔ Meets SparesStarted history := by
  constructor
  · intro returns
    induction run with
    | start => trivial
    | @next past k k' e n run taken ih =>
        refine ⟨?_, ih returns.2⟩
        change k.reapsStarted e = false
        rw [Bool.eq_false_iff]
        intro reaps
        obtain ⟨b, p, pid, here, waiting, living, empty⟩ := reaped_entry run taken reaps
        obtain ⟨t₀, c, pc, -, -, slot, -⟩ := returns.1.kept b p pid here waiting living
        change k'.processesTable pid = some c at slot
        rw [empty] at slot
        cases slot
  · intro spares
    induction run with
    | start => trivial
    | @next past k k' e n run taken ih =>
        refine ⟨?_, ih spares.2⟩
        have reached : Reached (⟨k, e, n, k'⟩ :: past) k' := .next run taken
        obtain ⟨consistent, running⟩ := consistent_of_run run
        obtain ⟨consistent', running'⟩ := consistent_of_run reached
        have awaits := awaits_of_run reached spares
        have kept (b : Addr) (p : Proc) (pid : Nat) (here : k'.procs b = some p)
            (waiting : p.context = .start pid) (living : p.terminated = false) :
            ∃ t₀ c pc, lastCall b (⟨k, e, n, k'⟩ :: past) = some t₀ ∧ Creates t₀ pid c ∧
              k'.processesTable pid = some c ∧ k'.procs c = some pc ∧ pc.pid = pid := by
          obtain ⟨t₀, c, mc, called, creates, found, named, -⟩ :=
            awaits b p.member pid (family_apply here) (Proc.living_iff.mpr living) waiting
          obtain ⟨pc, held, rfl⟩ := of_family found
          have slot := consistent'.owned c pc held
          rw [show pc.pid = pid from named] at slot
          exact ⟨t₀, c, pc, called, creates, slot, held, named⟩
        constructor
        · intro ssize prio name procGranted stackGranted call
          change e = _ at call
          subst call
          have unused := (backed_of_run run).unused _ le_rfl
          rcases start_creates consistent running (kindred_of_run run) unused taken with failed |
            ⟨new, -, -, -, creates, outcome⟩
          · exact .inl failed
          · exact .inr ⟨new.pid, k.nextBlock, creates, outcome⟩
        · exact kept
        · intro b p pid current here waiting
          have living : p.terminated = false := by
            obtain ⟨b', p', current', here', status⟩ := running'
            change k'.processesTable k'.activePID = some b at current
            rw [current, Option.some.injEq] at current'
            subst b'
            change k'.procs b = some p at here
            rw [here, Option.some.injEq] at here'
            rw [here', Proc.terminated, status]
            rfl
          obtain ⟨t₀, c, pc, -, -, slot, there, named⟩ := kept b p pid here waiting living
          exact resume_returns current here waiting slot there named

/-- The new process of process 0 exits, and process 0 returns from `start`. -/
theorem start_returns_safely_exited : ∃ (history : History) (k : Kernel), Reached history k ∧
    history.map Occurrence.outcome = [.ret 1 none, .suspend .exit, .suspend (.start 1)] ∧
      Meets Returns history := by
  obtain ⟨history, k, run, checked⟩ := reached_by
    [.call (.start 512 128 [97] true true), .call (.exit 7), .resume]
    (fun history _ => decide (Meets SparesStarted history) &&
      decide (history.map Occurrence.outcome =
        [.ret 1 none, .suspend .exit, .suspend (.start 1)]))
    (by decide +kernel)
  simp only [Bool.and_eq_true, decide_eq_true_eq] at checked
  exact ⟨history, k, run, checked.2, (start_returns_safely run).mpr checked.1⟩

/-- The new process of process 0 starts another one and exits, and the other one sleeps:
process 0 finds no process in the table. -/
theorem start_loses_its_process : ¬ ∀ history k, Reached history k → Meets Returns history := by
  intro returns
  obtain ⟨history, k, run, checked⟩ := reached_by
    [.call (.start 512 128 [97] true true), .call (.start 512 100 [98] true true),
      .call (.exit 7), .call (.waitClock 100)]
    (fun history k =>
      match history with
      | t :: _ => decide (t.after.processesTable t.after.activePID = some 1) &&
          ((t.after.procs 1).any fun p : Proc => decide (p.context = .start 1)) &&
          decide (t.after.processesTable 1 = none) &&
          decide ((k.step .resume).toOption.isNone)
      | [] => false)
    (by decide +kernel)
  cases history with
  | nil => cases checked
  | cons t past =>
      simp only [Bool.and_eq_true, decide_eq_true_eq, Option.any_eq_true] at checked
      obtain ⟨⟨⟨current, p, here, waiting⟩, -⟩, failed⟩ := checked
      have resumes := (returns _ k run).1.resumes 1 p 1 current here waiting
      have same : t.after = k := by
        cases run
        rfl
      rw [same] at resumes
      rw [resumes] at failed
      cases failed

end IntelX86Kernel

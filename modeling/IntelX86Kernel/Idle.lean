import IntelX86Kernel.Stability

/-! Runs in which process 0 only starts processes and is interrupted by the clock. -/

namespace IntelX86Kernel

open Transition

def Event.starts : Event → Bool
  | .call (.start ..) => true
  | .call _ => false
  | .clockInterrupt => true
  | .resume => true

/-- Process 0 only calls `start` and takes clock interrupts. -/
def Kernel.Permits (k : Kernel) (e : Event) : Prop :=
  k.activePID = 0 → e.starts = true

def IdleStarts (_ : History) (t : Step) :
    Prop :=
  t.before.Permits t.event

/-- No step so far has called `scheduling`. -/
def Unscheduled (history : History) : Prop :=
  ∀ t ∈ history, ∃ value out, t.outcome = .ret value out

instance (k : Kernel) (e : Event) : Decidable (k.Permits e) :=
  inferInstanceAs (Decidable (_ → _))

instance (past : History) (t : Step) :
    Decidable (IdleStarts past t) :=
  inferInstanceAs (Decidable (t.before.Permits t.event))

theorem Event.starts_cases {e : Event} (starts : e.starts = true) :
    e = .clockInterrupt ∨ e = .resume ∨
      ∃ ssize prio name procGranted stackGranted,
        e = .call (.start ssize prio name procGranted stackGranted) := by
  cases e with
  | clockInterrupt => exact .inl rfl
  | resume => exact .inr (.inl rfl)
  | call c =>
      cases c with
      | start => exact .inr (.inr ⟨_, _, _, _, _, rfl⟩)
      | _ => cases starts

namespace Kernel

variable {k k' : Kernel} {a b : Addr} {p : Proc} {n : Next} {m : Mover}

/-- Process 0 is there, can run, and is ELECTED only while it is the active process. -/
def Idle (k : Kernel) : Prop :=
  ∃ a p, k.processesTable 0 = some a ∧ k.procs a = some p ∧ p.Awake ∧
    (p.context = .user ∨ ∃ pid, p.context = .start pid) ∧
    (p.status = .elected → k.activePID = 0)

def SoleElected (k : Kernel) : Prop :=
  ∀ a p, k.procs a = some p → p.status = .elected → k.processesTable k.activePID = some a

theorem Idle.sole (idle : k.Idle) (consistent : k.Consistent) : k.SoleElected := by
  intro b p' there status
  rcases consistent.elected b p' there status with active | ⟨zero, -⟩
  · exact active
  · obtain ⟨a, p, entry, here, -, -, current⟩ := idle
    have owned := consistent.owned b p' there
    rw [zero, entry, Option.some.injEq] at owned
    subst owned
    rw [here, Option.some.injEq] at there
    rw [current (there ▸ status), entry]

theorem putBack_none (sole : k.SoleElected) (linked : k.Linked)
    (current : k.processesTable k.activePID = some a) (run : k.putBack a = .ok k') (b : Addr)
    (p' : Proc) (there : k'.procs b = some p') : p'.status ≠ .elected := by
  intro status
  obtain ⟨p, here, ⟨off, rfl⟩ | ⟨on, links, rfl⟩ | ⟨on, rfl, -⟩⟩ := putBack_eq linked run
  · have active := sole b p' there status
    rw [current, Option.some.injEq] at active
    subst active
    rw [here, Option.some.injEq] at there
    exact off (there ▸ status)
  · rw [relink_procs] at there
    split at there
    · rw [here, Option.map_some, Option.some.injEq] at there
      subst p'
      cases status
    · next other =>
      have active := sole b p' there status
      rw [current, Option.some.injEq] at active
      exact other active.symm
  · rw [setStatus, setProc_procs] at there
    split at there
    · rw [here, Option.map_some, Option.some.injEq] at there
      subst p'
      cases status
    · next other =>
      have active := sole b p' there status
      rw [current, Option.some.injEq] at active
      exact other active.symm

theorem Woken.sole (woken : Woken k k') (sole : k.SoleElected) : k'.SoleElected := by
  induction woken with
  | none => exact sole
  | @sleeper k k' a p here asleep late rest ih =>
      refine ih fun b p' there status => ?_
      rw [wake_procs] at there
      split at there
      · rw [here, Option.map_some, Option.some.injEq] at there
        subst p'
        cases status
      · exact sole b p' there status

theorem Reaped.sole (reaped : Reaped k k') (consistent : k.Consistent) (sole : k.SoleElected) :
    k'.SoleElected := by
  induction reaped with
  | none => exact sole
  | @process k k' a p heap here dying other kept rest ih =>
      refine ih (consistent.reap here other) fun b p' there status => ?_
      rw [reap_procs] at there
      split at there
      · cases there
      · next apart =>
        have active := sole b p' there status
        have owned := consistent.owned b p' there
        change Function.update k.processesTable p.pid Option.none k.activePID = some b
        rw [Function.update_of_ne, active]
        intro same
        rw [same, consistent.owned a p here, Option.some.injEq] at active
        exact apart active.symm

theorem scheduling_sole (consistent : k.Consistent) (sole : k.SoleElected)
    (run : k.scheduling = .ok k') :
    k'.SoleElected ∧ ∀ b p, k'.procs b = some p → p.status = .elected → p.links = none := by
  obtain ⟨k₁, k₂, k₃, a, c, p, woken, reaped, back, current, -, consistent₁, consistent₂,
    consistent₃, last, here, owned, rfl⟩ := consistent.phases run
  have nobody := putBack_none (reaped.sole consistent₁ (woken.sole sole)) consistent₂.linked
    current back
  have chosen (b : Addr) (p' : Proc) (there : (k₃.elect c c p.pid).procs b = some p')
      (status : p'.status = .elected) : b = c ∧ p'.links = none := by
    rw [elect_procs here] at there
    split at there
    · next same =>
      cases there
      exact ⟨same, rfl⟩
    · exact absurd status (nobody b p' there)
  refine ⟨fun b p' there status => ?_, fun b p' there status => (chosen b p' there status).2⟩
  rw [(chosen b p' there status).1]
  exact owned

theorem Move.activePID (move : Move m k k') : k'.activePID = k.activePID := by
  cases move with
  | relink | edit | delay | resort | reprioritise => rfl
  | birth small free named status links context stack kept own kind joined =>
      obtain ⟨-, -, same, -⟩ := birth_procs joined
      exact same
  | store procs lists table current => exact current

theorem Moves.activePID (moves : Moves m k k') : k'.activePID = k.activePID := by
  induction moves with
  | refl => rfl
  | tail _ move ih => exact move.activePID.trans ih

theorem idle_segment {context : Frame} {e : Event} (consistent : k.Consistent)
    (here : k.procs a = some p) (awake : p.Awake)
    (frame : context = .user ∨ ∃ pid, context = .start pid)
    (starts : e.starts = true)
    (current : k.processesTable k.activePID = some a)
    (run : k.segment context e = .ok (k', n)) :
    (∃ p', k'.procs a = some p' ∧ Proc.Kept p p') ∧
      ((∃ value out, n = .ret value out) ∨ n = .suspend .user ∨
        ∃ pid, n = .suspend (.start pid)) := by
  have fresh := (consistent.fresh k.nextBlock le_rfl).1
  rcases Event.starts_cases starts with rfl | rfl | ⟨ssize, prio, name, procGranted, stackGranted, rfl⟩
  · simp only [segment, clockInterrupt] at run
    split at run
    · cases run
      exact ⟨⟨p, here, .refl p⟩, .inr (.inl rfl)⟩
    · cases run
  · rcases frame with rfl | ⟨pid, rfl⟩
    · cases run
    · obtain ⟨a', p', -, -, rfl, rfl⟩ := startReturn_eq run
      exact ⟨⟨p, here, .refl p⟩, .inl ⟨_, _, rfl⟩⟩
  · simp only [segment] at run
    split at run
    · have running : k.nbProc ≠ 0 → k.processesTable k.activePID ≠ none :=
        fun _ => by simp [current]
      have moves := start_moves (m := ⟨k.nextBlock, none, .family⟩) rfl fresh running run
      have old : a ≠ k.nextBlock := by
        rintro rfl
        rw [fresh] at here
        cases here
      refine ⟨moves.kept consistent here awake old (fun same => by cases same), ?_⟩
      rcases start_eq fresh running run with ⟨heap, next, -, -, -, rfl⟩ |
        ⟨pid, stackSize, heap, k₁, -, -, -, yielded, -⟩
      · exact .inl ⟨_, _, rfl⟩
      · obtain ⟨c, p₁, p₂, -, -, -, ⟨-, -, rfl⟩ | ⟨-, run⟩⟩ := yielded
        · exact .inr (.inr ⟨pid, rfl⟩)
        · obtain ⟨-, -, -, -, -, rfl⟩ := startReturn_eq run
          exact .inl ⟨_, _, rfl⟩
    · cases run

theorem spared_segment {context : Frame} {e : Event} (consistent : k.Consistent)
    (entry : k.processesTable 0 = some b) (here : k.procs b = some p) (awake : p.Awake)
    (current : k.processesTable k.activePID = some a) (other : b ≠ a)
    (run : k.segment context e = .ok (k', n)) :
    ∃ p', k'.procs b = some p' ∧ Proc.Kept p p' := by
  refine (segment_moves consistent current run).kept consistent here awake other fun target => ?_
  change Event.target k e = some b at target
  unfold Event.target at target
  split at target
  · next pid =>
    split at target
    · next positive =>
      obtain ⟨-, p₀, there, first⟩ := consistent.table _ _ entry
      obtain ⟨-, p₁, there', second⟩ := consistent.table _ _ target
      rw [there, Option.some.injEq] at there'
      subst p₁
      omega
    · cases target
  · cases target

theorem Idle.saved {e : Event} {k₁ : Kernel} (idle : k.Idle) (consistent : k.Consistent)
    (starts : k.Permits e) (current : k.processesTable k.activePID = some a)
    (here : k.procs a = some p) (run : k.segment p.context e = .ok (k₁, n)) :
    k₁.Consistent ∧ (∀ value out, n = .ret value out → (k₁.setContext a .user).Idle) ∧
      ∀ context, n = .suspend context → (k₁.setContext a context).Idle := by
  obtain ⟨b, p₀, entry, there, awake, frame, elected⟩ := idle
  have consistent₁ := consistent.segment run
  have sameActive : k₁.activePID = k.activePID :=
    (segment_moves consistent current run).activePID
  by_cases self : b = a
  · subst self
    rw [here, Option.some.injEq] at there
    subst p₀
    have zero : p.pid = 0 := by
      obtain ⟨-, p₁, again, number⟩ := consistent.table _ _ entry
      rw [here, Option.some.injEq] at again
      exact again ▸ number
    have number : k.activePID = 0 := by
      obtain ⟨-, p₁, again, number⟩ := consistent.table _ _ current
      rw [here, Option.some.injEq] at again
      rw [← number, ← again, zero]
    obtain ⟨⟨p₁, after, kept⟩, ended⟩ :=
      idle_segment consistent here awake frame (starts number) current run
    have saved (context : Frame) (frame : context = .user ∨ ∃ pid, context = .start pid) :
        (k₁.setContext b context).Idle := by
      refine ⟨b, { p₁ with context := context }, ?_, ?_, ?_, frame, fun _ => ?_⟩
      · have owned := consistent₁.owned b p₁ after
        rw [kept.pid, zero] at owned
        exact owned
      · rw [setContext, setProc_procs, if_pos rfl, after, Option.map_some]
      · change p₁.status = _ ∨ p₁.status = _
        rw [kept.status]
        exact awake
      · exact sameActive.trans number
    refine ⟨consistent₁, fun _ _ _ => saved .user (.inl rfl), fun context same => ?_⟩
    rcases ended with ⟨value, out, rfl⟩ | rfl | ⟨pid, rfl⟩
    · cases same
    · cases same
      exact saved .user (.inl rfl)
    · cases same
      exact saved (.start pid) (.inr ⟨pid, rfl⟩)
  · obtain ⟨p₁, after, kept⟩ := spared_segment consistent entry there awake current self run
    have saved (context : Frame) : (k₁.setContext a context).Idle := by
      refine ⟨b, p₁, ?_, ?_, ?_, kept.context.symm ▸ frame, fun status => ?_⟩
      · have owned := consistent₁.owned b p₁ after
        obtain ⟨-, p₂, again, number⟩ := consistent.table _ _ entry
        rw [there, Option.some.injEq] at again
        rw [kept.pid, again, number] at owned
        exact owned
      · rw [setContext, setProc_procs, if_neg self, after]
      · rw [Proc.Awake, kept.status]
        exact awake
      · exact sameActive.trans (elected (kept.status ▸ status))
    exact ⟨consistent₁, fun _ _ _ => saved .user, fun context _ => saved context⟩

theorem Idle.scheduling (idle : k.Idle) (consistent : k.Consistent)
    (run : k.scheduling = .ok k') : k'.Idle := by
  obtain ⟨sole, -⟩ := scheduling_sole consistent (idle.sole consistent) run
  obtain ⟨a, p, entry, here, awake, frame, -⟩ := idle
  obtain ⟨consistent', -⟩ := consistent.scheduling run
  have settled := scheduling_settled consistent run a
  rw [here] at settled
  have after : ∃ p', k'.procs a = some p' ∧ p'.Awake ∧ p'.context = p.context ∧
      p'.pid = p.pid := by
    revert settled
    generalize k'.procs a = o
    intro settled
    cases settled with
    | same => exact ⟨p, rfl, awake, rfl, rfl⟩
    | @awake _ p' s l t was now rest => exact ⟨p', rfl, now, by rw [rest], by rw [rest]⟩
    | freed was => rcases awake with status | status <;> rw [status] at was <;> cases was
  obtain ⟨p', there, awake', context, pid⟩ := after
  have zero : p'.pid = 0 := by
    obtain ⟨-, p₁, again, number⟩ := consistent.table _ _ entry
    rw [here, Option.some.injEq] at again
    rw [pid, again, number]
  refine ⟨a, p', ?_, there, awake', context ▸ frame, fun status => ?_⟩
  · rw [← zero]
    exact consistent'.owned a p' there
  · have active := sole a p' there status
    obtain ⟨-, p₁, again, number⟩ := consistent'.table _ _ active
    rw [there, Option.some.injEq] at again
    rw [← number, ← again, zero]

theorem Idle.step {e : Event} (idle : k.Idle) (consistent : k.Consistent)
    (starts : k.Permits e) (run : k.step e = .ok (k', n)) : k'.Idle := by
  obtain ⟨a, p, k₁, current, here, segment, finish⟩ := step_eq run
  obtain ⟨consistent₁, returned, suspended⟩ := idle.saved consistent starts current here segment
  rcases finish_eq finish with ⟨value, out, rfl, rfl⟩ | ⟨context, rfl, finish⟩
  · exact returned value out rfl
  · have saved : (k₁.setContext a context).Consistent :=
      consistent₁.setContext
    exact (suspended context rfl).scheduling saved finish

end Kernel

open Kernel

theorem Booted.idle {k : Kernel} (booted : Booted k) : k.Idle := by
  obtain ⟨p, -, status, -, context, -, -, -, -, current, -, -, -, procs, -, table⟩ :=
    booted.state
  exact ⟨1, p, by rw [table, if_pos rfl], by rw [procs, if_pos rfl], .inr status, .inl context,
    fun _ => current⟩

theorem idle_of_run {history : History} {k : Kernel}
    (run : Reached history k) (starts : Meets IdleStarts history) : k.Idle :=
  run.invariant (I := fun _ k => k.Idle) (fun _ booted => booted.idle)
    (fun _ _ _ _ _ run _ idle taken starts => idle.step (consistent_of_run run).1 starts taken)
    starts

theorem elected_unlinked_of_run {history : History} {k : Kernel}
    (run : Reached history k) (starts : Meets IdleStarts history) :
    Unscheduled history ∨
      ∀ a p, k.procs a = some p → p.status = .elected → p.links = none := by
  refine run.invariant (I := fun history k => Unscheduled history ∨
    ∀ a p, k.procs a = some p → p.status = .elected → p.links = none)
    (fun _ _ => .inl fun _ member => absurd member List.not_mem_nil)
    (fun past k e n k' run starts kept taken start => ?_) starts
  obtain ⟨consistent, running⟩ := consistent_of_run run
  have idle := idle_of_run run starts
  obtain ⟨a, p, k₁, current, here, segment, finish⟩ := step_eq taken
  obtain ⟨consistent₁, returned, suspended⟩ := idle.saved consistent start current here segment
  rcases finish_eq finish with ⟨value, out, rfl, rfl⟩ | ⟨context, rfl, finish⟩
  · rcases kept with unscheduled | unlinked
    · refine .inl fun t member => ?_
      rcases List.mem_cons.mp member with rfl | member
      · exact ⟨value, out, rfl⟩
      · exact unscheduled t member
    · refine .inr fun b p' there status => ?_
      have saved : (k₁.setContext a .user).Consistent :=
      consistent₁.setContext
      have active := (returned value out rfl).sole saved b p' there status
      have status' := running.status current here
      obtain ⟨still, p₁, after, -, links, -⟩ :=
        (segment_returned consistent segment).active consistent current here status'
      change k₁.processesTable k₁.activePID = some b at active
      rw [still, Option.some.injEq] at active
      subst active
      rw [setContext, setProc_procs, if_pos rfl, after, Option.map_some, Option.some.injEq]
        at there
      subst p'
      exact links.trans (unlinked _ p here status')
  · have saved : (k₁.setContext a context).Consistent :=
      consistent₁.setContext
    exact .inr (scheduling_sole saved ((suspended context rfl).sole saved) finish).2

theorem unscheduled_active {history : History} {k : Kernel}
    (run : Reached history k) (early : Unscheduled history) : k.activePID = 0 := by
  induction run with
  | start booted =>
      obtain ⟨p, -, -, -, -, -, -, -, -, current, -⟩ := booted.state
      exact current
  | @next past k k' e n run taken ih =>
      have before := ih fun t member => early t (List.mem_cons_of_mem _ member)
      obtain ⟨value, out, returned⟩ := early _ List.mem_cons_self
      obtain ⟨consistent, -⟩ := consistent_of_run run
      obtain ⟨a, p, k₁, current, here, segment, finish⟩ := step_eq taken
      have same := (segment_moves consistent current segment).activePID
      rcases finish_eq finish with ⟨_, _, -, rfl⟩ | ⟨context, suspended, -⟩
      · exact same.trans before
      · rw [suspended] at returned
        cases returned

end IntelX86Kernel

import IntelX86Kernel.Membership

/-! Which processes the moves of a step and the scheduler leave alone. -/

namespace IntelX86Kernel

/-- A process that can be elected: it waits for nothing but the processor. -/
def Proc.Awake (p : Proc) : Prop :=
  p.status = .ready ∨ p.status = .elected

/-- Nothing has happened to the process that it could notice when it runs. -/
structure Proc.Kept (p p' : Proc) : Prop where
  pid : p'.pid = p.pid
  status : p'.status = p.status
  links : p'.links = p.links
  context : p'.context = p.context

theorem Proc.Kept.refl (p : Proc) : Proc.Kept p p := ⟨rfl, rfl, rfl, rfl⟩

theorem Proc.Kept.trans {p p' p'' : Proc} (first : Proc.Kept p p') (second : Proc.Kept p' p'') :
    Proc.Kept p p'' :=
  ⟨second.pid.trans first.pid, second.status.trans first.status,
    second.links.trans first.links, second.context.trans first.context⟩

theorem Proc.Kept.placed {p p' : Proc} (kept : Proc.Kept p p') (placed : p.Placed) :
    p'.Placed := by
  rw [Proc.Placed, kept.links, kept.status, kept.pid]
  exact placed

theorem Proc.Same.kept {p p' : Proc} (same : Proc.Same p p') : Proc.Kept p p' :=
  ⟨same.pid, same.status, same.links, same.context⟩

namespace Kernel

variable {k k' : Kernel} {a b q : Addr} {p : Proc} {n : Next} {m : Mover}

theorem Mover.bystander {h : Head} (placed : p.Placed) (awake : p.Awake)
    (other : b ≠ m.current) (spared : m.target ≠ some b) : ¬ m.Allows b p h := by
  intro allowed
  cases allowed with
  | ends kind own stops => exact other own
  | target kind killed dead => exact spared killed
  | parent kind blocked =>
      rcases awake with status | status <;> rw [status] at blocked <;> cases blocked
  | child kind ended => rcases awake with status | status <;> rw [status] at ended <;> cases ended
  | waits kind own => exact other own
  | waiter kind links =>
      have status := placed.status_of_links links nofun
      rcases awake with awake | awake <;> rw [awake] at status <;> cases status

theorem Move.kept (move : Move m k k') (here : k.procs b = some p) (placed : p.Placed)
    (awake : p.Awake) (fresh : k.procs k.nextBlock = none) (other : b ≠ m.current)
    (spared : m.target ≠ some b) : ∃ p', k'.procs b = some p' ∧ Proc.Kept p p' := by
  cases move with
  | @relink a p₁ h held there allowed =>
      refine ⟨p, ?_, .refl p⟩
      rw [relink_procs, if_neg, here]
      rintro rfl
      rw [here, Option.some.injEq] at there
      subst p₁
      exact Mover.bystander placed awake other spared allowed
  | @edit a f kind same =>
      rw [setProc_procs]
      by_cases equal : b = a
      · subst equal
        exact ⟨f p, by rw [if_pos rfl, here, Option.map_some], (same p).kept⟩
      · exact ⟨p, by rw [if_neg equal, here], .refl p⟩
  | @delay p₁ time kind there =>
      refine ⟨p, ?_, .refl p⟩
      rw [relink_procs, if_neg other, setProc_procs, if_neg other, here]
  | @resort a p₁ prio h held there sorted stays links kind =>
      by_cases equal : b = a
      · subst equal
        rw [here, Option.some.injEq] at there
        subst p₁
        refine ⟨{ p with priority := prio, status := h.status, links := some h }, ?_,
          rfl, stays.symm, links.symm, rfl⟩
        rw [relink_procs, if_pos rfl, setProc_procs, if_pos rfl, here]
        rfl
      · refine ⟨p, ?_, .refl p⟩
        rw [relink_procs, if_neg equal, setProc_procs, if_neg equal, here]
  | @reprioritise a p₁ prio there apart kind =>
      rw [setProc_procs]
      by_cases equal : b = a
      · subst equal
        exact ⟨{ p with priority := prio }, by rw [if_pos rfl, here, Option.map_some],
          rfl, rfl, rfl, rfl⟩
      · exact ⟨p, by rw [if_neg equal, here], .refl p⟩
  | birth small free named status links context stack kept own kind joined =>
      obtain ⟨⟨g, same, procs⟩, -⟩ := birth_procs joined
      have old : b ≠ k.nextBlock := by
        rintro rfl
        rw [fresh] at here
        cases here
      exact ⟨g b p, by rw [procs, if_neg old, here, Option.map_some], (same b p).kept⟩
  | store procs lists table current number next records fresh queues quiet =>
      exact ⟨p, by rw [procs, here], .refl p⟩

theorem Moves.kept (moves : Moves m k k') (consistent : k.Consistent)
    (here : k.procs b = some p) (awake : p.Awake) (other : b ≠ m.current)
    (spared : m.target ≠ some b) : ∃ p', k'.procs b = some p' ∧ Proc.Kept p p' := by
  induction moves with
  | refl => exact ⟨p, here, .refl p⟩
  | tail moves move ih =>
      obtain ⟨p₁, there, kept⟩ := ih
      have between := consistent.moves moves
      have awake₁ : p₁.Awake := by
        rw [Proc.Awake, kept.status]
        exact awake
      obtain ⟨p₂, after, still⟩ := move.kept there (between.placed b p₁ there) awake₁
        (between.fresh _ le_rfl).1 other spared
      exact ⟨p₂, after, kept.trans still⟩

/-- What `scheduling` may do to a process: one that can run, or a sleeper, ends up READY
or ELECTED, a dying one may be freed, nothing happens to the others. -/
inductive Settled : Option Proc → Option Proc → Prop where
  | same {o : Option Proc} : Settled o o
  | awake {p p' : Proc} {s : Status} {l : Option Head} {t : Nat}
      (was : p.Awake ∨ p.status = .asleep) (now : p'.Awake)
      (rest : p' = { p with status := s, links := l, wakeUpTime := t }) :
      Settled (some p) (some p')
  | freed {p : Proc} (was : p.status = .dying) : Settled (some p) none

theorem Settled.trans {o o' o'' : Option Proc} (first : Settled o o') (second : Settled o' o'') :
    Settled o o'' := by
  cases first with
  | same => exact second
  | @awake p p' s l t was now rest =>
      cases second with
      | same => exact .awake was now rest
      | @awake _ p'' s' l' t' was' now' rest' =>
          refine .awake (s := s') (l := l') (t := t') was now' ?_
          rw [rest', rest]
      | freed was' => rcases now with status | status <;> rw [status] at was' <;> cases was'
  | freed was =>
      cases second with
      | same => exact .freed was

theorem Woken.settled (woken : Woken k k') (consistent : k.Consistent) (b : Addr) :
    Settled (k.procs b) (k'.procs b) := by
  induction woken with
  | none => exact .same
  | @sleeper k k' a p here asleep late rest ih =>
      refine Settled.trans ?_ (ih (consistent.wake here))
      rw [wake_procs]
      split
      · next same =>
        subst same
        have status := (consistent.placed _ _ here).status_of_links asleep nofun
        rw [here, Option.map_some]
        exact .awake (.inr status) (.inl rfl) rfl
      · exact .same

theorem Reaped.settled (reaped : Reaped k k') (consistent : k.Consistent) (b : Addr) :
    Settled (k.procs b) (k'.procs b) := by
  induction reaped with
  | none => exact .same
  | @process k k' a p heap here dying other kept rest ih =>
      refine Settled.trans ?_ (ih (consistent.reap here other))
      rw [reap_procs]
      split
      · next same =>
        subst same
        rw [here]
        exact .freed ((consistent.placed _ _ here).status_of_links dying nofun)
      · exact .same

theorem putBack_settled (consistent : k.Consistent) (run : k.putBack a = .ok k') (b : Addr) :
    Settled (k.procs b) (k'.procs b) := by
  obtain ⟨p, here, ⟨-, rfl⟩ | ⟨on, -, rfl⟩ | ⟨on, rfl, -⟩⟩ := putBack_eq consistent.linked run
  · exact .same
  · rw [relink_procs]
    split
    · next same =>
      subst same
      rw [here, Option.map_some]
      exact .awake (.inl (.inr on)) (.inl rfl) rfl
    · exact .same
  · rw [setStatus, setProc_procs]
    split
    · next same =>
      subst same
      rw [here, Option.map_some]
      exact .awake (.inl (.inr on)) (.inl rfl) rfl
    · exact .same

theorem elect_settled (consistent : k.Consistent) (here : k.procs a = some p)
    (member : a ∈ k.lists .ready) (b : Addr) :
    Settled (k.procs b) ((k.elect a a p.pid).procs b) := by
  rw [elect_procs here]
  split
  · next same =>
    subst same
    obtain ⟨p', there, links⟩ := (consistent.linked.mem_iff _ _).mp member
    rw [here, Option.some.injEq] at there
    subst p'
    have awake : p.Awake := by
      have placed := consistent.placed b p here
      rw [Proc.Placed, links] at placed
      rcases placed with status | ⟨-, status, -⟩
      · exact .inl status
      · exact .inr status
    rw [here]
    exact .awake (.inl awake) (.inr rfl) rfl
  · exact .same

theorem Consistent.phases (consistent : k.Consistent) (run : k.scheduling = .ok k') :
    ∃ k₁ k₂ k₃ a b p, Woken k k₁ ∧ Reaped k₁ k₂ ∧ k₂.putBack a = .ok k₃ ∧
      k₂.processesTable k₂.activePID = some a ∧ k₃.activePID = k₂.activePID ∧
      k₁.Consistent ∧ k₂.Consistent ∧ k₃.Consistent ∧
      (k₃.lists .ready).getLast? = some b ∧ k₃.procs b = some p ∧
      k₃.processesTable p.pid = some b ∧ k' = k₃.elect b b p.pid := by
  obtain ⟨k₁, k₂, k₃, a, woken, reaped, current, back, next⟩ :=
    scheduling_eq consistent.linked run
  have consistent₁ := consistent.woken woken
  have consistent₂ := consistent₁.reaped reaped
  obtain ⟨consistent₃, same, idle⟩ := consistent₂.putBack current back
  obtain ⟨-, b, p, last, here, owned, rfl⟩ := consistent₃.electNext idle next
  exact ⟨k₁, k₂, k₃, a, b, p, woken, reaped, back, current, same, consistent₁, consistent₂,
    consistent₃, last, here, owned, rfl⟩

theorem scheduling_settled (consistent : k.Consistent) (run : k.scheduling = .ok k') (b : Addr) :
    Settled (k.procs b) (k'.procs b) := by
  obtain ⟨k₁, k₂, k₃, a, c, p, woken, reaped, back, -, -, consistent₁, consistent₂, consistent₃,
    last, here, -, rfl⟩ := consistent.phases run
  exact (((woken.settled consistent b).trans (reaped.settled consistent₁ b)).trans
    (putBack_settled consistent₂ back b)).trans
    (elect_settled consistent₃ here (List.mem_of_getLast? last) b)

theorem Woken.same (woken : Woken k k') :
    k'.records = k.records ∧ k'.queues = k.queues ∧ k'.nextBlock = k.nextBlock ∧
      k'.nbInterrupt = k.nbInterrupt ∧ k'.processesTable = k.processesTable ∧
      k'.activePID = k.activePID ∧ k'.heap = k.heap ∧ k'.queueCount = k.queueCount := by
  induction woken with
  | none => exact ⟨rfl, rfl, rfl, rfl, rfl, rfl, rfl, rfl⟩
  | sleeper here asleep late rest ih => exact ih

theorem Reaped.same (reaped : Reaped k k') :
    k'.records = k.records ∧ k'.queues = k.queues ∧ k'.nextBlock = k.nextBlock ∧
      k'.nbInterrupt = k.nbInterrupt ∧ k'.activePID = k.activePID ∧
      k'.queueCount = k.queueCount := by
  induction reaped with
  | none => exact ⟨rfl, rfl, rfl, rfl, rfl, rfl⟩
  | process here dying other kept rest ih => exact ih

theorem putBack_same (linked : k.Linked) (run : k.putBack a = .ok k') :
    k'.records = k.records ∧ k'.queues = k.queues ∧ k'.nextBlock = k.nextBlock ∧
      k'.nbInterrupt = k.nbInterrupt ∧ k'.heap = k.heap ∧ k'.queueCount = k.queueCount := by
  obtain ⟨p, here, ⟨-, rfl⟩ | ⟨on, -, rfl⟩ | ⟨on, rfl, -⟩⟩ := putBack_eq linked run
  · exact ⟨rfl, rfl, rfl, rfl, rfl, rfl⟩
  · exact ⟨rfl, rfl, rfl, rfl, rfl, rfl⟩
  · exact ⟨rfl, rfl, rfl, rfl, rfl, rfl⟩

theorem scheduling_same (consistent : k.Consistent) (run : k.scheduling = .ok k') :
    k'.records = k.records ∧ k'.queues = k.queues ∧ k'.nextBlock = k.nextBlock ∧
      k'.nbInterrupt = k.nbInterrupt ∧ k'.queueCount = k.queueCount := by
  obtain ⟨k₁, k₂, k₃, a, c, p, woken, reaped, back, -, -, -, consistent₂, -, -, -, -, rfl⟩ :=
    consistent.phases run
  obtain ⟨records₁, queues₁, next₁, time₁, -, -, -, count₁⟩ := woken.same
  obtain ⟨records₂, queues₂, next₂, time₂, -, count₂⟩ := reaped.same
  obtain ⟨records₃, queues₃, next₃, time₃, -, count₃⟩ := putBack_same consistent₂.linked back
  exact ⟨records₃.trans (records₂.trans records₁), queues₃.trans (queues₂.trans queues₁),
    next₃.trans (next₂.trans next₁), time₃.trans (time₂.trans time₁),
    count₃.trans (count₂.trans count₁)⟩

end Kernel

end IntelX86Kernel

import IntelX86Kernel.NearlySorted
import IntelX86Kernel.Priority

/-! The order of the ready list in every run, whatever process 0 does.

`start` puts process 0 into it as ELECTED. `chprio` does not move it then, so that the
list is in order but for this one process, and in order again once it has been elected. -/

namespace IntelX86Kernel

open Transition

namespace Kernel

variable {k k' : Kernel} {a b : Addr} {p : Proc} {n : Next} {m : Mover} {s : Status} {h : Head}
  {strays : Addr → Prop} {f : Proc → Proc} {e : Event}

def Stray (k : Kernel) (a : Addr) : Prop :=
  ∃ p, k.procs a = some p ∧ p.status = .elected ∧ p.links = some .ready

/-- The ready list is in order but for one of the given processes. -/
structure Along (strays : Addr → Prop) (k : Kernel) : Prop where
  order : NearlySorted (k.sortKey Proc.priority) strays (k.lists .ready)
  strays : ∀ a, strays a → k.Stray a

/-- Only process 0 is ever a stray. -/
theorem Consistent.stray (consistent : k.Consistent) (stray : k.Stray a) :
    k.processesTable 0 = some a := by
  obtain ⟨p, here, status, links⟩ := stray
  have placed := consistent.placed a p here
  have owned := consistent.owned a p here
  rw [Proc.Placed, links] at placed
  rcases placed with same | ⟨-, -, zero⟩
  · rw [status] at same
    cases same
  · rw [← zero]
    exact owned

theorem Stray.of_procs (stray : k.Stray a) (same : k'.procs a = k.procs a) : k'.Stray a := by
  obtain ⟨p, here, rest⟩ := stray
  exact ⟨p, same.trans here, rest⟩

theorem not_stray (here : k.procs a = some p) (other : p.status ≠ .elected ∨ p.links ≠ some .ready) :
    ¬ k.Stray a := by
  rintro ⟨p', there, status, links⟩
  rw [here, Option.some.injEq] at there
  subst p'
  rcases other with other | other
  · exact other status
  · exact other links

theorem Along.editRelink (along : Along strays k) (linked : k.Linked) (other : ¬ strays a) :
    Along strays ((k.setProc a f).relink a s h) := by
  obtain ⟨order, strayed⟩ := along
  constructor
  · have absent : ∀ b ∈ (k.lists .ready).erase a, b ≠ a := by
      rintro b member rfl
      exact (linked.nodup _).not_mem_erase member
    have rest : NearlySorted ((k.setProc a f).sortKey Proc.priority) strays
        ((k.lists .ready).erase a) :=
      (order.erase other).congr fun b member => sortKey_other f (absent b member)
    have keys (b : Addr) : ((k.setProc a f).relink a s h).sortKey Proc.priority b =
        (k.setProc a f).sortKey Proc.priority b := sortKey_relink (g := .ready)
    rw [relink_lists, setProc_lists]
    split
    · next ready =>
      subst ready
      exact rest.insert.congr fun b _ => keys b
    · exact rest.congr fun b _ => keys b
  · intro b stray
    have apart : b ≠ a := by
      rintro rfl
      exact other stray
    apply (strayed b stray).of_procs
    rw [relink_procs, if_neg apart, setProc_procs, if_neg apart]

theorem Along.relink (along : Along strays k) (linked : k.Linked) (here : k.procs a = some p)
    (other : ¬ strays a) : Along strays (k.relink a s h) := by
  have same : k.setProc a (fun p => p) = k := setProc_id here rfl
  have moved := along.editRelink (f := fun p => p) (s := s) (h := h) linked other
  rw [same] at moved
  exact moved

theorem Along.of_same (along : Along strays k) (lists : k'.lists .ready = k.lists .ready)
    (same : ∀ b p, k.procs b = some p → ∃ p', k'.procs b = some p' ∧ p'.status = p.status ∧
      p'.links = p.links ∧ p'.priority = p.priority)
    (linked : k.Linked) : Along strays k' := by
  obtain ⟨order, strayed⟩ := along
  constructor
  · rw [lists]
    apply order.congr
    intro b member
    obtain ⟨p, here, -⟩ := (linked.mem_iff _ b).mp member
    obtain ⟨p', there, -, -, priority⟩ := same b p here
    rw [sortKey, sortKey, here, there]
    exact priority
  · intro b stray
    obtain ⟨p, here, status, links⟩ := strayed b stray
    obtain ⟨p', there, sameStatus, sameLinks, -⟩ := same b p here
    exact ⟨p', there, sameStatus.trans status, sameLinks.trans links⟩

theorem Along.edit (along : Along strays k) (linked : k.Linked)
    (same : ∀ p, (f p).status = p.status ∧ (f p).links = p.links ∧ (f p).priority = p.priority) :
    Along strays (k.setProc a f) := by
  refine along.of_same rfl (fun b p here => ?_) linked
  by_cases equal : b = a
  · subst equal
    exact ⟨f p, setProc_here here, same p⟩
  · exact ⟨p, by rw [setProc_procs, if_neg equal, here], rfl, rfl, rfl⟩

theorem Along.saved {context : Frame} (along : Along strays k) (linked : k.Linked) :
    Along strays (k.setContext a context) :=
  along.edit (f := fun p => { p with context := context }) linked fun _ => ⟨rfl, rfl, rfl⟩

theorem Along.all (along : Along strays k) : Along k.Stray k :=
  ⟨along.order.imp fun b _ stray => along.strays b stray, fun _ stray => stray⟩

structure Aside (strays : Addr → Prop) (m : Mover) : Prop where
  current : ¬ strays m.current
  target : ∀ a, m.target = some a → ¬ strays a

theorem Aside.allowed (aside : Aside strays m) (along : Along strays k)
    (here : k.procs a = some p) (allowed : m.Allows a p h) : ¬ strays a := by
  intro stray
  obtain ⟨p', there, status, links⟩ := along.strays a stray
  rw [here, Option.some.injEq] at there
  subst p'
  cases allowed with
  | ends kind own stops => exact aside.current (own ▸ stray)
  | target kind killed dead => exact aside.target a killed stray
  | parent kind blocked =>
      rw [status] at blocked
      cases blocked
  | child kind ended =>
      rw [status] at ended
      cases ended
  | waits kind own => exact aside.current (own ▸ stray)
  | waiter kind queued =>
      rw [links] at queued
      cases queued

theorem Along.birth {k₁ : Kernel} {pid : Nat} {heap : Addr → Option Nat}
    (along : Along strays k) (consistent : k.Consistent)
    (joined : k₁ = k.born pid p heap ∨
      ∃ b placed, k₁ = (k.born pid p heap).join k.nextBlock b placed) :
    Along strays (k₁.link k.nextBlock .ready).counted := by
  obtain ⟨⟨g, same, procs⟩, lists, -⟩ := birth_procs joined
  have old (b : Addr) (p : Proc) (here : k.procs b = some p) : b ≠ k.nextBlock := by
    rintro rfl
    rw [(consistent.fresh _ le_rfl).1] at here
    cases here
  have whole (b : Addr) (p : Proc) (here : k.procs b = some p) :
      ∃ p', (k₁.link k.nextBlock .ready).counted.procs b = some p' ∧ Proc.Same p p' :=
    ⟨g b p, by rw [procs, if_neg (old b p here), here, Option.map_some], same b p⟩
  have keys : ∀ b, (k₁.link k.nextBlock .ready).counted.sortKey Proc.priority b =
      k₁.sortKey Proc.priority b := by
    intro b
    apply sortKey_congr
    change ((k₁.link k.nextBlock .ready).procs b).map Proc.priority = _
    rw [link_procs]
    split
    · next equal =>
      rw [equal, Option.map_map]
      rfl
    · rfl
  obtain ⟨order, strayed⟩ := along
  constructor
  · change NearlySorted _ strays ((k₁.link k.nextBlock .ready).lists .ready)
    rw [link_lists, if_pos rfl, lists]
    have before : NearlySorted (k₁.sortKey Proc.priority) strays (k.lists .ready) := by
      apply order.congr
      intro b member
      obtain ⟨p, here, -⟩ := (consistent.linked.mem_iff _ b).mp member
      obtain ⟨p', there, kept⟩ := whole b p here
      rw [← keys b, sortKey, sortKey, here, there]
      exact kept.priority
    exact before.insert.congr fun b _ => keys b
  · intro b stray
    obtain ⟨p, here, status, links⟩ := strayed b stray
    obtain ⟨p', there, kept⟩ := whole b p here
    exact ⟨p', there, kept.status.trans status, kept.links.trans links⟩

theorem Along.rekey (along : Along strays k) (consistent : k.Consistent)
    (stands : k.Stray a → strays a)
    (apart : a ∈ k.lists .ready → k.Stray a)
    (same : ∀ p, (f p).status = p.status ∧ (f p).links = p.links) :
    Along strays (k.setProc a f) := by
  have keys : ∀ b, b ≠ a → (k.setProc a f).sortKey Proc.priority b = k.sortKey Proc.priority b :=
    fun b other => sortKey_other f other
  constructor
  · rw [setProc_lists]
    by_cases member : a ∈ k.lists .ready
    · have stray := apart member
      apply along.order.rekey (consistent.linked.nodup _) _ (stands stray) keys
      intro b _ other
      have first := consistent.stray (along.strays b other)
      rw [consistent.stray stray, Option.some.injEq] at first
      exact first.symm
    · apply along.order.congr
      intro b inside
      apply keys
      rintro rfl
      exact member inside
  · intro b stray
    obtain ⟨p, here, status, links⟩ := along.strays b stray
    by_cases equal : b = a
    · subst equal
      refine ⟨f p, ?_, (same p).1.trans status, (same p).2.trans links⟩
      exact setProc_here here
    · exact ⟨p, by rw [setProc_procs, if_neg equal, here], status, links⟩

theorem Along.move (along : Along strays k) (consistent : k.Consistent) (aside : Aside strays m)
    (complete : m.kind = .priority → ∀ a, k.Stray a → strays a) (move : Move m k k') :
    Along strays k' := by
  have linked := consistent.linked
  cases move with
  | relink held here allowed =>
      exact along.relink linked here (aside.allowed along here allowed)
  | edit kind same =>
      exact along.edit linked fun p => ⟨(same p).status, (same p).links, (same p).priority⟩
  | delay kind here => exact along.editRelink linked aside.current
  | @resort a p prio h held here sorted stays links kind =>
      apply along.editRelink linked
      intro stray
      apply not_stray here (.inl ?_) (along.strays a stray)
      rw [stays]
      exact Head.status_ne_elected h
  | @reprioritise a p prio here apart kind =>
      refine along.rekey consistent (complete kind a) (fun member => ?_) fun _ => ⟨rfl, rfl⟩
      have links := (linked.links_iff here).mpr member
      have placed := consistent.placed a p here
      rw [Proc.Placed, links] at placed
      rcases placed with ready | ⟨-, running, -⟩
      · rw [ready] at apart
        rcases apart with status | status | status | ⟨status, -⟩ <;> cases status
      · exact ⟨p, here, running, links⟩
  | birth small free named status links context stack kept own kind joined =>
      exact along.birth consistent joined
  | store procs lists table current number next records fresh queues quiet =>
      refine along.of_same (by rw [lists]) (fun b p here => ?_) linked
      exact ⟨p, by rw [procs, here], rfl, rfl, rfl⟩

theorem Move.stray (move : Move m k k') (kind : m.kind = .priority) (stray : k'.Stray a) :
    k.Stray a := by
  cases move with
  | relink held here allowed =>
      cases allowed with
      | ends kind' | target kind' | parent kind' | child kind' | waits kind' | waiter kind' =>
          rw [kind] at kind'
          cases kind'
  | edit kind' | delay kind' | birth small free named status links context stack kept own kind' =>
      rw [kind] at kind'
      cases kind'
  | @resort b p prio h held here sorted stays links kind =>
      obtain ⟨p', there, status, ready⟩ := stray
      rw [relink_procs] at there
      split at there
      · obtain ⟨p₀, -, rfl⟩ := Option.map_eq_some_iff.mp there
        exact absurd status (Head.status_ne_elected h)
      · next other =>
        rw [setProc_procs, if_neg other] at there
        exact ⟨p', there, status, ready⟩
  | @reprioritise b p prio here apart kind =>
      obtain ⟨p', there, status, ready⟩ := stray
      rw [setProc_procs] at there
      split at there
      · next same =>
        obtain ⟨p₀, before, rfl⟩ := Option.map_eq_some_iff.mp there
        exact ⟨p₀, same ▸ before, status, ready⟩
      · exact ⟨p', there, status, ready⟩
  | store procs lists table current number next records fresh queues quiet =>
      exact stray.of_procs (by rw [procs])

theorem Along.moves (moves : Moves m k k') (along : Along strays k) (consistent : k.Consistent)
    (aside : Aside strays m) (complete : m.kind = .priority → ∀ a, k.Stray a → strays a) :
    Along strays k' := by
  have kept : Along strays k' ∧ (m.kind = .priority → ∀ a, k'.Stray a → strays a) := by
    induction moves with
    | refl => exact ⟨along, complete⟩
    | tail moves move ih =>
        obtain ⟨along, complete⟩ := ih
        refine ⟨along.move (consistent.moves moves) aside complete move, ?_⟩
        exact fun kind a stray => complete kind a (move.stray kind stray)
  exact kept.1

theorem Woken.along (woken : Woken k k') (consistent : k.Consistent) (along : Along strays k) :
    Along strays k' := by
  induction woken with
  | none => exact along
  | sleeper here asleep late rest ih =>
      apply ih (consistent.wake here)
      apply along.editRelink consistent.linked
      intro stray
      apply not_stray here (.inr ?_) (along.strays _ stray)
      rw [asleep]
      simp

theorem Along.erase (along : Along strays k) (other : ¬ strays a)
    (lists : k'.lists .ready = (k.lists .ready).erase a) (linked : k.Linked)
    (procs : ∀ b, b ≠ a → k'.procs b = k.procs b) : Along strays k' := by
  constructor
  · rw [lists]
    apply (along.order.erase other).congr
    intro b member
    apply sortKey_congr
    rw [procs]
    rintro rfl
    exact (linked.nodup _).not_mem_erase member
  · intro b stray
    apply (along.strays b stray).of_procs
    apply procs
    rintro rfl
    exact other stray

theorem Reaped.along (reaped : Reaped k k') (consistent : k.Consistent)
    (along : Along strays k) : Along strays k' := by
  induction reaped with
  | none => exact along
  | process here dying other kept rest ih =>
      apply ih (consistent.reap here other)
      apply along.erase _ rfl consistent.linked fun b apart => reap_procs.trans (if_neg apart)
      intro stray
      apply not_stray here (.inr ?_) (along.strays _ stray)
      rw [dying]
      simp

theorem Along.putBack (along : Along strays k) (linked : k.Linked)
    (other : ¬ strays a) (run : k.putBack a = .ok k') : Along strays k' := by
  obtain ⟨p, here, ⟨-, rfl⟩ | ⟨-, -, rfl⟩ | ⟨-, rfl, -⟩⟩ := putBack_eq linked run
  · exact along
  · exact along.relink linked here other
  · constructor
    · apply along.order.congr
      intro b _
      exact sortKey_congr (setProc_map _ _ fun _ => rfl)
    · intro b stray
      apply (along.strays b stray).of_procs
      apply (setProc_procs _).trans (if_neg ?_)
      rintro rfl
      exact other stray

theorem Along.elect (along : Along strays k) (linked : k.Linked)
    (last : (k.lists .ready).getLast? = some a) (here : k.procs a = some p) :
    Along (fun b => strays b ∧ b ≠ a) (k.elect a a p.pid) := by
  have lists : (k.elect a a p.pid).lists .ready = (k.lists .ready).dropLast :=
    (dropLast_eq_erase (linked.nodup _) last).symm
  have absent : ∀ b ∈ (k.lists .ready).dropLast, b ≠ a := by
    rw [dropLast_eq_erase (linked.nodup _) last]
    rintro b member rfl
    exact (linked.nodup _).not_mem_erase member
  constructor
  · rw [lists]
    apply (along.order.dropLast.imp fun b member stray => ⟨stray, absent b member⟩).congr
    intro b member
    apply sortKey_congr
    rw [elect_procs here, if_neg (absent b member)]
  · rintro b ⟨stray, other⟩
    apply (along.strays b stray).of_procs
    rw [elect_procs here, if_neg other]

theorem Along.scheduling (along : Along strays k) (consistent : k.Consistent)
    (aside : ∀ a, k.processesTable k.activePID = some a → ¬ strays a)
    (run : k.scheduling = .ok k') :
    ∃ strays, Along strays k' ∧ ∀ a, k'.processesTable k'.activePID = some a → ¬ k'.Stray a := by
  obtain ⟨k₁, k₂, k₃, a, b, p, woken, reaped, back, current, -, consistent₁, consistent₂,
    consistent₃, last, here, owned, rfl⟩ := consistent.phases run
  have along₂ := reaped.along consistent₁ (woken.along consistent along)
  have other : ¬ strays a := by
    intro stray
    obtain ⟨-, -, -, -, tableWoken, activeWoken, -⟩ := woken.same
    obtain ⟨-, -, -, -, activeReaped, -⟩ := reaped.same
    have first := consistent₂.stray (along₂.strays a stray)
    obtain ⟨-, p₀, there, pid⟩ := consistent₂.table _ _ first
    obtain ⟨-, p₁, there', pid'⟩ := consistent₂.table _ _ current
    rw [there, Option.some.injEq] at there'
    subst p₁
    have before := consistent.stray (along.strays a stray)
    rw [← pid, pid', activeReaped, activeWoken] at before
    exact aside a before stray
  have along₃ := along₂.putBack consistent₂.linked other back
  refine ⟨_, along₃.elect consistent₃.linked last here, ?_⟩
  intro c active
  change k₃.processesTable p.pid = some c at active
  rw [owned, Option.some.injEq] at active
  subst active
  apply not_stray ((elect_procs here).trans (if_pos rfl))
  simp

/-- The active process is not in the ready list, which is in order but for a stray. -/
structure Underway (k : Kernel) : Prop where
  along : Along k.Stray k
  free : ∀ a, k.processesTable k.activePID = some a → ¬ k.Stray a

theorem Underway.of_scheduling (along : Along strays k) (consistent : k.Consistent)
    (aside : ∀ a, k.processesTable k.activePID = some a → ¬ strays a)
    (run : k.scheduling = .ok k') : k'.Underway := by
  obtain ⟨strays', along', free⟩ := along.scheduling consistent aside run
  exact ⟨along'.all, free⟩

theorem Underway.aside {context : Frame} (underway : k.Underway) (consistent : k.Consistent)
    (current : k.processesTable k.activePID = some a) : Aside k.Stray (k.mover a context e) := by
  constructor
  · exact underway.free a current
  · intro b target stray
    change Event.target k e = some b at target
    have zero := consistent.stray stray
    unfold Event.target at target
    split at target
    · next pid =>
      split at target
      · next positive =>
        obtain ⟨-, p₀, there, first⟩ := consistent.table _ _ zero
        obtain ⟨-, p₁, there', second⟩ := consistent.table _ _ target
        rw [there, Option.some.injEq] at there'
        subst p₁
        omega
      · cases target
    · cases target

theorem Underway.step (underway : k.Underway) (consistent : k.Consistent) (running : k.Running)
    (run : k.step e = .ok (k', n)) : k'.Underway := by
  obtain ⟨a, p, k₁, current, here, segment, finish⟩ := step_eq run
  have moves := segment_moves consistent current segment
  have consistent₁ := consistent.segment segment
  have along₁ := Along.moves moves underway.along consistent (underway.aside consistent current)
    fun _ _ stray => stray
  have saved (context : Frame) : Along k.Stray (k₁.setContext a context) :=
    along₁.saved consistent₁.linked
  rcases finish_eq finish with ⟨value, out, rfl, rfl⟩ | ⟨context, rfl, finish⟩
  · refine ⟨(saved .user).all, fun b active => ?_⟩
    have status := running.status current here
    obtain ⟨still, p₁, after, sameStatus, sameLinks, -⟩ :=
      (segment_returned consistent segment).active consistent current here status
    change k₁.processesTable k₁.activePID = some b at active
    rw [still, Option.some.injEq] at active
    subst active
    have found : (k₁.setContext a .user).procs a = some { p₁ with context := .user } := by
      rw [setContext, setProc_procs, if_pos rfl, after, Option.map_some]
    apply not_stray found
    by_contra both
    rw [not_or, not_not, not_not] at both
    apply underway.free a current
    exact ⟨p, here, sameStatus ▸ both.1, sameLinks ▸ both.2⟩
  · apply Underway.of_scheduling (saved context) consistent₁.setContext _ finish
    intro b active stray
    change k₁.processesTable k₁.activePID = some b at active
    have zero := consistent₁.stray (along₁.strays b stray)
    obtain ⟨-, p₀, there, first⟩ := consistent₁.table _ _ zero
    obtain ⟨-, p₁, there', second⟩ := consistent₁.table _ _ active
    rw [there, Option.some.injEq] at there'
    subst p₁
    have number : k.activePID = 0 := by rw [← moves.activePID, ← second, first]
    apply underway.free b _ stray
    rw [number]
    exact consistent.stray stray

structure Boot (k : Kernel) : Prop where
  order : k.InOrder .ready
  last : ∃ z p, k.processesTable k.activePID = some z ∧ k.procs z = some p ∧
    p.status = .elected ∧ (k.lists .ready).getLast? = some z
  asleep : k.lists .asleep = []

theorem Along.of_order (order : k.InOrder .ready) : Along (fun _ => False) k :=
  ⟨NearlySorted.of_sorted order, fun _ stray => stray.elim⟩

theorem Along.inOrder (along : Along (fun _ => False) k) : k.InOrder .ready :=
  along.order.sorted fun _ _ stray => stray

theorem erase_getLast? {l : List Addr} (last : l.getLast? = some b) (other : a ≠ b) :
    (l.erase a).getLast? = some b := by
  obtain ⟨front, rfl⟩ := List.getLast?_eq_some_iff.mp last
  by_cases inside : a ∈ front
  · rw [List.erase_append_left _ inside]
    simp
  · rw [List.erase_append_right _ inside, List.erase_cons_tail (by simpa using Ne.symm other)]
    simp

theorem Reaped.last (reaped : Reaped k k') (last : (k.lists .ready).getLast? = some b)
    (here : k.procs b = some p) (status : p.status = .elected) (consistent : k.Consistent) :
    (k'.lists .ready).getLast? = some b ∧ k'.procs b = some p := by
  induction reaped with
  | none => exact ⟨last, here⟩
  | @process k k' a p' heap there dying other kept rest ih =>
      have apart : b ≠ a := by
        rintro rfl
        rw [here, Option.some.injEq] at there
        subst p'
        have same := (consistent.placed b p here).status_of_links dying nofun
        rw [status] at same
        cases same
      apply ih (erase_getLast? last (Ne.symm apart)) _ (consistent.reap there other)
      rw [reap_procs, if_neg apart, here]

/-- Process 0 may have been given any priority: it is the one that is elected. -/
theorem Underway.of_raised (consistent : k.Consistent) (order : Along (fun b => b = a) k)
    (last : (k.lists .ready).getLast? = some a) (asleep : k.lists .asleep = [])
    (current : k.processesTable k.activePID = some a) (run : k.scheduling = .ok k') :
    k'.Underway := by
  obtain ⟨k₁, k₂, k₃, c, b, p, woken, reaped, back, current₂, -, consistent₁, consistent₂,
    consistent₃, last₃, here₃, owned, rfl⟩ := consistent.phases run
  obtain ⟨p₀, here, status, links⟩ := order.strays a rfl
  have nobody : k₁ = k := by
    cases woken with
    | none => rfl
    | @sleeper _ _ d p there links late rest =>
        have member := (consistent.linked.links_iff there).mp links
        rw [asleep] at member
        cases member
  subst nobody
  have along₂ := reaped.along consistent₁ order
  obtain ⟨last₂, here₂⟩ := reaped.last last here status consistent₁
  have same : c = a := by
    have owned₂ := consistent₂.stray (along₂.strays a rfl)
    obtain ⟨-, -, -, -, activeReaped, -⟩ := reaped.same
    have zero : k₁.activePID = 0 := by
      have owned₁ := consistent.stray (order.strays a rfl)
      obtain ⟨-, p₁, there, first⟩ := consistent.table _ _ owned₁
      obtain ⟨-, p₂, there', second⟩ := consistent.table _ _ current
      rw [there, Option.some.injEq] at there'
      subst p₂
      rw [← second, first]
    rw [activeReaped, zero, owned₂, Option.some.injEq] at current₂
    exact current₂.symm
  subst same
  have listed : k₃.lists = k₂.lists ∧ ∀ d, k₃.sortKey Proc.priority d = k₂.sortKey Proc.priority d := by
    obtain ⟨p₁, found, ⟨-, rfl⟩ | ⟨-, unlinked, -⟩ | ⟨-, rfl, -⟩⟩ :=
      putBack_eq consistent₂.linked back
    · exact ⟨rfl, fun _ => rfl⟩
    · rw [here₂, Option.some.injEq] at found
      subst p₁
      rw [links] at unlinked
      cases unlinked
    · exact ⟨rfl, fun d => sortKey_congr (setProc_map _ _ fun _ => rfl)⟩
  obtain ⟨lists, keys⟩ := listed
  rw [lists, last₂, Option.some.injEq] at last₃
  subst last₃
  have shortened : (k₃.elect c c p.pid).lists .ready = (k₂.lists .ready).dropLast := by
    rw [dropLast_eq_erase (consistent₂.linked.nodup _) last₂, ← lists]
    rfl
  have absent : ∀ d ∈ (k₂.lists .ready).dropLast, d ≠ c := by
    rw [dropLast_eq_erase (consistent₂.linked.nodup _) last₂]
    rintro d member rfl
    exact (consistent₂.linked.nodup _).not_mem_erase member
  have sorted : (k₃.elect c c p.pid).InOrder .ready := by
    rw [InOrder, shortened]
    apply NearlySorted.pairwise_keys _ (along₂.order.dropLast.sorted absent)
    intro d member
    rw [← keys d]
    apply sortKey_congr
    rw [elect_procs here₃, if_neg (absent d member)]
  refine ⟨(Along.of_order sorted).all, fun d active => ?_⟩
  change k₃.processesTable p.pid = some d at active
  rw [owned, Option.some.injEq] at active
  subst active
  apply not_stray ((elect_procs here₃).trans (if_pos rfl))
  simp

theorem Boot.returned (boot : k.Boot) (consistent : k.Consistent) (returned : Returned k k')
    (moves : Moves m k k') (kind : m.kind ≠ .priority ∨ k' = k) : k'.Boot := by
  obtain ⟨order, ⟨z, p, current, here, status, last⟩, asleep⟩ := boot
  have order' : k'.InOrder .ready := by
    rcases kind with kind | rfl
    · exact (Along.moves moves (.of_order order) consistent ⟨id, fun _ _ => id⟩
        fun same => absurd same kind).inOrder
    · exact order
  obtain ⟨current', p', here', status', -⟩ := returned.active consistent current here status
  refine ⟨order', ⟨z, p', current', here', status'.trans status, ?_⟩, ?_⟩
  · cases returned with
    | same procs lists table same => rw [lists, last]
    | @collected child parent p₁ there ended =>
        have other : child ≠ z := by
          rintro rfl
          rw [here, Option.some.injEq] at there
          rw [← there, status] at ended
          cases ended
        exact erase_getLast? last other
    | @born k₁ pid p₀ p₁ p₂ d heap free joined active new there lower =>
        obtain ⟨⟨g, same, procs⟩, lists, sameActive, -⟩ := birth_procs joined
        have first : d = z := by
          rw [show k₁.activePID = (k₁.link k.nextBlock .ready).counted.activePID from rfl, current',
            Option.some.injEq] at active
          exact active.symm
        subst first
        have keys (b : Addr) : k₁.sortKey Proc.priority b =
            (k₁.link k.nextBlock .ready).counted.sortKey Proc.priority b := by
          apply Eq.symm
          apply sortKey_congr
          change ((k₁.link k.nextBlock .ready).procs b).map Proc.priority = _
          rw [link_procs]
          split
          · next equal =>
            rw [equal, Option.map_map]
            rfl
          · rfl
        have below : k₁.sortKey Proc.priority k.nextBlock ≤ k₁.sortKey Proc.priority d := by
          rw [keys, keys, sortKey, sortKey, new, there]
          exact lower
        obtain ⟨front, split⟩ := List.getLast?_eq_some_iff.mp last
        change ((k₁.link k.nextBlock .ready).lists .ready).getLast? = some d
        rw [link_lists, if_pos rfl, lists, split]
        change (k₁.place Proc.priority k.nextBlock (front ++ [d])).getLast? = some d
        rw [place, NearlySorted.orderedInsert_append]
        split
        · simp
        · simp [below]
  · cases returned with
    | same procs lists table same => rw [lists, asleep]
    | collected there ended =>
        change (k.lists .asleep).erase _ = []
        rw [asleep]
        rfl
    | @born k₁ pid p₀ p₁ p₂ d heap free joined active new there lower =>
        obtain ⟨-, lists, -⟩ := birth_procs joined
        change (k₁.link k.nextBlock .ready).lists .asleep = []
        rw [link_lists, if_neg Head.noConfusion, lists, asleep]

theorem Boot.saved {context : Frame} (boot : k.Boot) (linked : k.Linked) :
    (k.setContext a context).Boot := by
  obtain ⟨order, ⟨z, p, current, here, status, last⟩, asleep⟩ := boot
  refine ⟨?_, ?_, asleep⟩
  · exact (Along.saved (.of_order order) linked).inOrder
  · have kept : ((k.setContext a context).procs z).map Proc.status = some .elected := by
      rw [setContext, setProc_map (fun p => { p with context := context }) Proc.status
        fun _ => rfl, here, Option.map_some, status]
    obtain ⟨p', there, status'⟩ := Option.map_eq_some_iff.mp kept
    exact ⟨z, p', current, there, status', last⟩

theorem segment_chprio {context : Frame} (kind : e.kind context = .priority)
    (run : k.segment context e = .ok (k', n)) :
    ∃ pid newprio, k.chprio pid newprio = .ok (k', n) := by
  cases e with
  | resume => exact absurd kind context.kind_ne_priority
  | clockInterrupt => cases kind
  | call c =>
      simp only [segment] at run
      split at run
      · cases c with
        | chprio pid newprio => exact ⟨pid, newprio, run⟩
        | _ => cases kind
      · cases run

theorem Boot.chprio {pid newprio : Int} {context : Frame} {k₁ : Kernel} (boot : k.Boot)
    (consistent : k.Consistent) (consistent₁ : k₁.Consistent)
    (current : k.processesTable k.activePID = some a)
    (run : k.chprio pid newprio = .ok (k₁, .suspend context))
    (finish : (k₁.setContext a context).scheduling = .ok k') : k'.Underway := by
  have linked := consistent.linked
  obtain ⟨order, ⟨z, r, entry, there, running, last⟩, asleep⟩ := boot
  rw [current, Option.some.injEq] at entry
  subst entry
  have linked₁ := consistent₁.linked
  rcases chprio_eq run with ⟨-, returned⟩ | ⟨b, p, slot, here, -, moved, -⟩
  · cases returned
  · obtain ⟨base, found⟩ := chprio_stored newprio linked here
    have ordered : Along (fun _ => False) k := .of_order order
    rcases reorder_eq base found rfl moved with ⟨h, -, -, rfl⟩ | ⟨off, -, rfl, -⟩
    · have moved := ordered.editRelink (a := b) (s := p.status) (h := h)
        (f := fun p => { p with priority := toUnsigned newprio }) linked id
      exact .of_scheduling (moved.saved linked₁) consistent₁.setContext (fun _ _ => id) finish
    · have links : r.links = some .ready :=
        (linked.links_iff there).mpr (List.mem_of_getLast? last)
      by_cases self : b = a
      · subst self
        rw [here, Option.some.injEq] at there
        subst r
        have only : Along (fun c => c = b) k := by
          refine ⟨NearlySorted.of_sorted order, ?_⟩
          rintro c rfl
          exact ⟨p, here, running, links⟩
        have raised := only.rekey (a := b) (f := fun p => { p with priority := toUnsigned newprio })
          consistent (fun _ => rfl) (fun _ => ⟨p, here, running, links⟩) fun _ => ⟨rfl, rfl⟩
        exact .of_raised consistent₁.setContext (raised.saved linked₁) last asleep current finish
      · have outside : b ∉ k.lists .ready := by
          intro member
          have placed := consistent.placed b p here
          rw [Proc.Placed, (linked.links_iff here).mpr member] at placed
          rcases placed with ready | ⟨-, elected, -⟩
          · exact off ready
          · have first := consistent.stray ⟨p, here, elected, (linked.links_iff here).mpr member⟩
            have second := consistent.stray ⟨r, there, running, links⟩
            rw [first, Option.some.injEq] at second
            exact self second
        have moved : Along (fun _ => False)
            (k.setProc b fun p => { p with priority := toUnsigned newprio }) :=
          .of_order (InOrder.absent order outside)
        exact .of_scheduling (moved.saved linked₁) consistent₁.setContext (fun _ _ => id) finish

theorem Boot.step (boot : k.Boot) (consistent : k.Consistent) (run : k.step e = .ok (k', n)) :
    k'.Boot ∨ k'.Underway := by
  obtain ⟨a, p, k₁, current, here, segment, finish⟩ := step_eq run
  have moves := segment_moves consistent current segment
  have consistent₁ := consistent.segment segment
  rcases finish_eq finish with ⟨value, out, rfl, rfl⟩ | ⟨context, rfl, finish⟩
  · left
    have returned := segment_returned consistent segment
    apply Boot.saved _ consistent₁.linked
    apply boot.returned consistent returned moves
    by_cases kind : e.kind p.context = .priority
    · obtain ⟨pid, newprio, run⟩ := segment_chprio kind segment
      rcases chprio_eq run with ⟨same, -⟩ | ⟨b, p, -, -, -, -, suspended⟩
      · exact .inr same
      · cases suspended
    · exact .inl kind
  · right
    by_cases kind : e.kind p.context = .priority
    · obtain ⟨pid, newprio, run⟩ := segment_chprio kind segment
      exact boot.chprio consistent consistent₁ current run finish
    · have along₁ := Along.moves moves (.of_order boot.order) consistent ⟨id, fun _ _ => id⟩
        fun same => absurd same kind
      have saved : Along (fun _ => False) (k₁.setContext a context) :=
        along₁.saved consistent₁.linked
      exact .of_scheduling saved consistent₁.setContext (fun _ _ => id) finish

end Kernel

open Kernel

variable {history : History} {k : Kernel}

theorem Booted.boot (booted : Booted k) : k.Boot := by
  obtain ⟨p, -, status, -, -, -, -, -, -, active, -, -, -, procs, lists, table⟩ := booted.state
  constructor
  · rw [Kernel.InOrder, lists, if_pos rfl]
    exact List.pairwise_singleton _ _
  · refine ⟨1, p, ?_, ?_, status, ?_⟩
    · rw [table, active, if_pos rfl]
    · rw [procs, if_pos rfl]
    · rw [lists, if_pos rfl]
      rfl
  · rw [lists, if_neg Head.noConfusion]

theorem underway_of_run (run : Reached history k) : k.Boot ∨ k.Underway := by
  apply run.always (I := fun _ k => k.Boot ∨ k.Underway)
  · exact fun k booted => .inl booted.boot
  · intro history k e n k' run kept taken
    obtain ⟨consistent, running⟩ := consistent_of_run run
    rcases kept with boot | underway
    · exact boot.step consistent taken
    · exact .inr (underway.step consistent running taken)

theorem ready_in_order_of_run (run : Reached history k) (free : ∀ a, ¬ k.Stray a) :
    k.InOrder .ready := by
  rcases underway_of_run run with boot | underway
  · exact boot.order
  · exact underway.along.order.sorted fun a _ => free a

end IntelX86Kernel

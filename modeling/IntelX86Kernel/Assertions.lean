import IntelX86Kernel.Idle

/-! The assertions of `queue_add` and `queue_del` on the `links` field cannot fail. -/

namespace IntelX86Kernel

open Transition

/-- The computation does not end in a failed assertion on `links`. -/
def Unasserted {α : Type} (x : Except Fault α) : Prop :=
  x ≠ .error .linksAssertion

theorem Unasserted.ok {α : Type} (a : α) : Unasserted (.ok a) := nofun

theorem Unasserted.bind {α β : Type} {x : Except Fault α} {f : α → Except Fault β}
    (first : Unasserted x) (rest : ∀ a, x = .ok a → Unasserted (f a)) :
    Unasserted (x >>= f) := by
  cases x with
  | error fault =>
      intro failed
      cases failed
      exact first rfl
  | ok a => exact rest a rfl

namespace Kernel

variable {k k' : Kernel} {a b q : Addr} {p : Proc} {n : Next}

theorem deref_unasserted : Unasserted (k.deref a) := by
  unfold deref
  split <;> nofun

theorem record_unasserted : Unasserted (k.record q) := by
  unfold record
  split <;> nofun

theorem active_unasserted : Unasserted k.active := by
  unfold active
  split <;> nofun

theorem tableAt_unasserted {pid : Int} : Unasserted (k.tableAt pid) := by
  unfold tableAt
  split <;> nofun

theorem memFree_unasserted {zone length : Nat} : Unasserted (k.memFree zone length) := by
  unfold memFree
  split
  · nofun
  · split <;> nofun

theorem touch_unasserted {o : Option Addr} : Unasserted (k.touch o) := by
  cases o with
  | none => exact .ok _
  | some a => exact deref_unasserted.bind fun _ _ => .ok _

theorem insertSorted_unasserted {field : Addr → Option Nat} {prio : Nat} {l : List Addr} :
    Unasserted (insertSorted field a prio l) := by
  induction l with
  | nil => exact .ok _
  | cons cur rest ih =>
      simp only [insertSorted]
      split
      · rintro ⟨⟩
      · split
        · split
          · exact .ok _
          · next fault failed =>
            intro same
            cases same
            exact ih failed
        · exact .ok _

theorem queueAdd_unasserted {h : Head} {field : Proc → Nat}
    (unlinked : ∀ p, k.procs a = some p → p.links = none) : Unasserted (k.queueAdd a h field) := by
  refine deref_unasserted.bind fun p here => ?_
  rw [if_pos (unlinked p (deref_eq_ok.mp here))]
  exact insertSorted_unasserted.bind fun _ _ => .ok _

theorem queueDel_unasserted (linked : ∀ p, k.procs a = some p → p.links ≠ none) :
    Unasserted (k.queueDel a) := by
  refine deref_unasserted.bind fun p here => ?_
  split
  · next unlinked => exact absurd unlinked (linked p (deref_eq_ok.mp here))
  · exact .ok _

theorem queueOut_unasserted {h : Head} : Unasserted (k.queueOut h) := by
  unfold queueOut
  split
  · exact .ok _
  · exact deref_unasserted.bind fun _ _ => .ok _

theorem anyPid_unasserted {pid : Nat} {l : List Addr} : Unasserted (k.anyPid pid l) := by
  induction l with
  | nil => exact .ok _
  | cons head tail ih =>
      refine deref_unasserted.bind fun p _ => ?_
      split
      · exact .ok _
      · exact ih

theorem addSibling_unasserted : Unasserted (k.addSibling a b) := by
  refine deref_unasserted.bind fun p _ => deref_unasserted.bind fun owner _ => ?_
  split
  · exact insertSorted_unasserted.bind fun _ _ => .ok _
  · nofun

theorem delSibling_unasserted : Unasserted (k.delSibling a) := by
  refine deref_unasserted.bind fun p _ => ?_
  split
  · nofun
  · exact deref_unasserted.bind fun owner _ => touch_unasserted.bind fun _ _ =>
      touch_unasserted.bind fun _ _ => .ok _

theorem outSibling_unasserted : Unasserted (k.outSibling a) := by
  refine deref_unasserted.bind fun owner _ => ?_
  split
  · exact .ok _
  · exact deref_unasserted.bind fun _ _ => touch_unasserted.bind fun _ _ => .ok _

theorem readd_unasserted {h : Head} {field : Proc → Nat} (linked : k.Linked)
    (run : k.queueDel a = .ok k') : Unasserted (k'.queueAdd a h field) := by
  obtain ⟨⟨p, g, here, -⟩, rfl⟩ := queueDel_unlink linked run
  refine queueAdd_unasserted fun p' there => ?_
  rw [unlink_procs, if_pos rfl, here, Option.map_some, Option.some.injEq] at there
  rw [← there]

theorem setStatus_links {s : Status} (there : (k.setStatus a s).procs a = some p) :
    ∃ p', k.procs a = some p' ∧ p'.links = p.links := by
  rw [setStatus, setProc_procs, if_pos rfl] at there
  obtain ⟨p', here, rfl⟩ := Option.map_eq_some_iff.mp there
  exact ⟨p', here, rfl⟩

theorem requeue_unasserted {s : Status} {h : Head} (linked : k.Linked)
    (member : ∀ p, k.procs a = some p → p.links ≠ none) : Unasserted (k.requeue a s h) := by
  refine Unasserted.bind (queueDel_unasserted fun p there => ?_)
    fun _ del => readd_unasserted linked.setStatus del
  obtain ⟨p', here, same⟩ := setStatus_links there
  exact same ▸ member p' here

theorem enqueue_unasserted {s : Status} {h : Head}
    (unlinked : ∀ p, k.procs a = some p → p.links = none) : Unasserted (k.enqueue a s h) := by
  refine queueAdd_unasserted fun p there => ?_
  obtain ⟨p', here, same⟩ := setStatus_links there
  exact same ▸ unlinked p' here

theorem resort_unasserted {h : Head} (linked : k.Linked)
    (member : ∀ p, k.procs a = some p → p.links ≠ none) : Unasserted (k.resort a h) :=
  (queueDel_unasserted member).bind fun _ del => readd_unasserted linked del

theorem Consistent.linked_of_status (consistent : k.Consistent) (here : k.procs a = some p)
    (status : p.status ≠ .elected) : p.links ≠ none := by
  obtain ⟨h, links, -⟩ := (consistent.placed a p here).links_of_status status
  rw [links]
  nofun

theorem Linked.links_ne_none {h : Head} (linked : k.Linked) (member : a ∈ k.lists h)
    (here : k.procs a = some p) : p.links ≠ none := by
  obtain ⟨p', there, links⟩ := (linked.mem_iff h a).mp member
  rw [here, Option.some.injEq] at there
  rw [there, links]
  nofun

theorem toWakeUp_unasserted {l : List Addr} : Unasserted (k.toWakeUp l) := by
  induction l with
  | nil => exact .ok _
  | cons head tail ih =>
      exact deref_unasserted.bind fun p _ => ih.bind fun _ _ => .ok _

theorem wakeProcess_unasserted (linked : k.Linked) (member : a ∈ k.lists .asleep) :
    Unasserted (k.wakeProcess a) := by
  have base : (k.setProc a fun p => { p with status := .ready, wakeUpTime := 0 }).Linked :=
    linked.setProc _ fun _ => rfl
  exact (queueDel_unasserted fun p there => base.links_ne_none member there).bind
    fun _ del => readd_unasserted base del

theorem wakeProcesses_unasserted {l : List Addr} (linked : k.Linked) (nodup : l.Nodup)
    (asleep : ∀ a ∈ l, a ∈ k.lists .asleep) : Unasserted (wakeProcesses l k) := by
  induction l generalizing k with
  | nil => exact .ok _
  | cons head tail ih =>
      refine (wakeProcess_unasserted linked (asleep head (by simp))).bind fun k₁ woken => ?_
      obtain rfl := wakeProcess_eq linked woken
      obtain ⟨p, here, -⟩ := (linked.mem_iff _ _).mp (asleep head (by simp))
      obtain ⟨fresh, nodup⟩ := List.nodup_cons.mp nodup
      refine ih (linked.wake here) nodup fun a member => ?_
      change a ∈ (k.lists .asleep).erase head
      have other : a ≠ head := fun same => fresh (same ▸ member)
      rw [List.mem_erase_of_ne other]
      exact asleep a (List.mem_cons_of_mem _ member)

theorem wakeup_unasserted (linked : k.Linked) : Unasserted k.wakeup := by
  refine toWakeUp_unasserted.bind fun expired found => ?_
  obtain ⟨sub, -⟩ := toWakeUp_eq found
  split
  · exact wakeProcesses_unasserted linked ((linked.nodup _).sublist sub)
      fun a member => sub.subset member
  · nofun

theorem killProcess_unasserted (linked : k.Linked) (member : a ∈ k.lists .dying) :
    Unasserted (k.killProcess a) :=
  (queueDel_unasserted fun _ here => linked.links_ne_none member here).bind fun _ _ =>
    deref_unasserted.bind fun _ _ => memFree_unasserted.bind fun _ _ =>
      memFree_unasserted.bind fun _ _ => .ok _

theorem killLoop_unasserted {l : List Addr} (linked : k.Linked) (nodup : l.Nodup)
    (dying : ∀ a ∈ l, a ∈ k.lists .dying) : Unasserted (killLoop l k) := by
  induction l generalizing k with
  | nil => exact .ok _
  | cons head tail ih =>
      simp only [killLoop]
      split
      · exact .ok _
      · refine (killProcess_unasserted linked (dying head (by simp))).bind fun k₁ killed => ?_
        obtain ⟨p, heap, -, -, rfl⟩ := killProcess_eq linked killed
        obtain ⟨fresh, nodup⟩ := List.nodup_cons.mp nodup
        refine ih linked.reap nodup fun a member => ?_
        change a ∈ (k.lists .dying).erase head
        have other : a ≠ head := fun same => fresh (same ▸ member)
        rw [List.mem_erase_of_ne other]
        exact dying a (List.mem_cons_of_mem _ member)

/-- The search in the ready list keeps process 0 from being entered twice. -/
theorem putBack_unasserted (consistent : k.Consistent)
    (current : k.processesTable k.activePID = some a) : Unasserted (k.putBack a) := by
  refine deref_unasserted.bind fun p here => ?_
  rw [deref_eq_ok] at here
  split
  · next running =>
    refine anyPid_unasserted.bind fun listed search => ?_
    split
    · exact .ok _
    · next missing =>
      have missed : listed = false := by simpa using missing
      subst missed
      refine queueAdd_unasserted fun p₁ there => ?_
      obtain ⟨p', here', same⟩ := setStatus_links there
      rw [here, Option.some.injEq] at here'
      subst p'
      rw [← same]
      by_contra linked
      obtain ⟨h, links⟩ := Option.ne_none_iff_exists'.mp linked
      have placed := consistent.placed a p here
      rw [Proc.Placed, links] at placed
      rcases placed with status | ⟨rfl, -, -⟩
      · rw [running] at status
        exact Head.status_ne_elected h status.symm
      · have member : a ∈ k.lists .ready := (consistent.linked.mem_iff _ _).mpr ⟨p, here, links⟩
        obtain ⟨p₂, there₂, other⟩ := anyPid_false search a member
        rw [there, Option.some.injEq] at there₂
        subst p₂
        rw [setStatus, setProc_procs, if_pos rfl, here, Option.map_some, Option.some.injEq] at there
        obtain ⟨-, p₃, here₃, number⟩ := consistent.table _ _ current
        rw [here, Option.some.injEq] at here₃
        subst p₃
        rw [← there] at other
        exact other number
  · exact .ok _

theorem electNext_unasserted : Unasserted k.electNext := by
  refine queueOut_unasserted.bind fun out _ => ?_
  obtain ⟨next, k₁⟩ := out
  cases next with
  | none => nofun
  | some a =>
      refine deref_unasserted.bind fun p _ => ?_
      split
      · nofun
      · exact deref_unasserted.bind fun _ _ => .ok _

theorem scheduling_unasserted (consistent : k.Consistent) : Unasserted k.scheduling := by
  refine (wakeup_unasserted consistent.linked).bind fun k₁ woken => ?_
  have consistent₁ := consistent.woken (wakeup_eq consistent.linked woken)
  refine (killLoop_unasserted consistent₁.linked (consistent₁.linked.nodup _)
    fun _ member => member).bind fun k₂ reaped => ?_
  have consistent₂ := consistent₁.reaped (killProcesses_eq consistent₁.linked reaped)
  refine active_unasserted.bind fun a current => ?_
  exact (putBack_unasserted consistent₂ (active_eq_ok.mp current)).bind
    fun _ _ => electNext_unasserted

theorem freeChildrenLoop_unasserted {fuel : Nat} (consistent : k.Consistent) :
    Unasserted (freeChildrenLoop a fuel k) := by
  induction fuel generalizing k with
  | zero => rintro ⟨⟩
  | succ fuel ih =>
      refine outSibling_unasserted.bind fun out found => ?_
      obtain ⟨child, k₁⟩ := out
      obtain ⟨owner, -, ⟨-, rfl, rfl⟩ | ⟨c, p, -, here, rfl, rfl⟩⟩ := outSibling_eq found
      · exact .ok _
      · have consistent₁ := consistent.moves (m := ⟨a, none, .family⟩)
          (Moves.popSibling .refl rfl (a := c) (b := a))
        refine Unasserted.bind (deref_unasserted.bind fun p₁ there => ?_) fun k₂ freed => ?_
        · split
          · next ended =>
            refine requeue_unasserted consistent₁.linked fun p₂ again => ?_
            rw [deref_eq_ok] at there
            rw [there, Option.some.injEq] at again
            subst p₂
            exact consistent₁.linked_of_status there (by rw [ended]; rintro ⟨⟩)
          · exact .ok _
        · refine ih ?_
          simp only [freeChild, bind_eq_ok, deref_eq_ok] at freed
          obtain ⟨p₁, there, freed⟩ := freed
          split at freed
          · obtain ⟨-, rfl⟩ := requeue_relink consistent₁.linked rfl freed
            exact consistent₁.relink (h := .dying) (fun q same => by cases same) there
          · cases freed
            exact consistent₁.edit fun _ => ⟨rfl, rfl, rfl⟩

theorem freeChildren_unasserted (consistent : k.Consistent) :
    Unasserted (k.freeChildren a) := by
  refine deref_unasserted.bind fun p _ => ?_
  split
  · exact .ok _
  · exact freeChildrenLoop_unasserted consistent

theorem parentStillAlive_unasserted : Unasserted (k.parentStillAlive p) := by
  unfold parentStillAlive
  split
  · exact .ok _
  · exact deref_unasserted.bind fun _ _ => .ok _

theorem Freed.elected {parent : Addr} (freed : Freed parent k k') (here : k.procs a = some p)
    (status : p.status = .elected) :
    ∃ p', k'.procs a = some p' ∧ p'.status = .elected ∧ p'.links = p.links ∧ p'.pid = p.pid := by
  induction freed generalizing p with
  | none there empty => exact ⟨p, here, status, rfl, rfl⟩
  | @zombie k k' owner p₁ c g there last child ended links rest ih =>
      have other : a ≠ c := by
        rintro rfl
        rw [here, Option.some.injEq] at child
        rw [child, ended] at status
        cases status
      obtain ⟨p', after, status', links', pid⟩ := ih
        ((relink_procs.trans (if_neg other)).trans (popSibling_procs.trans (congrArg _ here)))
        status
      exact ⟨p', after, status', links', pid⟩
  | @alive k k' owner p₁ c there last child running rest ih =>
      have still := setProc_procs (k := k.popSibling c parent) (a := c) (b := a)
        fun p => { p with parent := k.processesTable 0 }
      have popped : (k.popSibling c parent).procs a = _ :=
        popSibling_procs.trans (congrArg _ here)
      by_cases same : a = c
      · subst same
        rw [if_pos rfl, popped] at still
        obtain ⟨p', after, status', links', pid⟩ := ih still status
        exact ⟨p', after, status', links', pid⟩
      · rw [if_neg same, popped] at still
        obtain ⟨p', after, status', links', pid⟩ := ih still status
        exact ⟨p', after, status', links', pid⟩

def Unlinked (k : Kernel) : Prop :=
  ∀ a p, k.processesTable k.activePID = some a → k.procs a = some p →
    p.status = .elected ∧ p.links = none

theorem wakeParent_unasserted (consistent : k.Consistent) : Unasserted (k.wakeParent p) := by
  unfold wakeParent
  split
  · nofun
  · refine deref_unasserted.bind fun parent there => ?_
    rw [deref_eq_ok] at there
    split
    · next blocked =>
      refine requeue_unasserted consistent.linked fun p' again => ?_
      rw [there, Option.some.injEq] at again
      subst p'
      exact consistent.linked_of_status there (by rw [blocked]; nofun)
    · exact .ok _

theorem exit_unasserted {retval : Int} (consistent : k.Consistent) (unlinked : k.Unlinked) :
    Unasserted (k.exit retval) := by
  refine active_unasserted.bind fun a current => deref_unasserted.bind fun p here => ?_
  rw [active_eq_ok] at current
  rw [deref_eq_ok] at here
  have consistent₁ : (k.setProc a fun p =>
      { p with retval := retval, killed := false }).Consistent :=
    consistent.edit fun _ => ⟨rfl, rfl, rfl⟩
  refine (freeChildren_unasserted consistent₁).bind fun k₂ freed => ?_
  obtain ⟨status, links⟩ := unlinked a p current here
  have effect := freeChildren_eq consistent₁.linked freed
  have start : (k.setProc a fun p => { p with retval := retval, killed := false }).procs a =
      some { p with retval := retval, killed := false } := setProc_here here
  obtain ⟨p₁, after, -, links₁, -⟩ := effect.elected start status
  have consistent₂ := consistent₁.moves (effect.moves (m := ⟨a, none, .family⟩) rfl .refl)
  have free (p' : Proc) (there : k₂.procs a = some p') : p'.links = none := by
    rw [after, Option.some.injEq] at there
    rw [← there, links₁]
    exact links
  refine deref_unasserted.bind fun p₂ _ => parentStillAlive_unasserted.bind fun alive _ => ?_
  split
  · refine (enqueue_unasserted free).bind fun k₃ put => ?_
    obtain ⟨-, rfl⟩ := enqueue_relink consistent₂.linked rfl put
    have consistent₃ := consistent₂.relink (h := .zombie) nofun after
    exact (wakeParent_unasserted consistent₃).bind fun _ _ => .ok _
  · exact (enqueue_unasserted free).bind fun _ _ => .ok _

theorem kill_unasserted {pid : Int} (consistent : k.Consistent) (unlinked : k.Unlinked)
    (sole : k.SoleElected) : Unasserted (k.kill pid) := by
  refine tableAt_unasserted.bind fun entry slot => ?_
  obtain ⟨-, slot⟩ := tableAt_eq_ok.mp slot
  cases entry with
  | none => exact .ok _
  | some a =>
      refine deref_unasserted.bind fun p here => ?_
      rw [deref_eq_ok] at here
      have consistent₁ : (k.setProc a fun p => { p with killed := true }).Consistent :=
        consistent.edit fun _ => ⟨rfl, rfl, rfl⟩
      have marked : (k.setProc a fun p => { p with killed := true }).procs a =
          some { p with killed := true } := setProc_here here
      split
      · exact .ok _
      · next accepted =>
        simp only [not_or, not_le] at accepted
        dsimp only
        split
        · refine exit_unasserted consistent₁ fun b p' current there => ?_
          rw [setProc_procs] at there
          split at there
          · rw [here, Option.map_some, Option.some.injEq] at there
            subst b p'
            exact unlinked a p current here
          · exact unlinked b p' current there
        · next other =>
          have waiting : p.status ≠ .elected := by
            intro status
            have active := sole a p here status
            obtain ⟨-, p₁, there, first⟩ := consistent.table _ _ active
            obtain ⟨-, p₂, there', second⟩ := consistent.table _ _ slot
            rw [there, Option.some.injEq] at there'
            subst p₂
            have different : pid ≠ k.activePID := other
            omega
          have member (p' : Proc) (there : (k.setProc a fun p =>
              { p with killed := true }).procs a = some p') : p'.links ≠ none := by
            rw [marked, Option.some.injEq] at there
            subst p'
            exact consistent.linked_of_status (p := p) here waiting
          refine parentStillAlive_unasserted.bind fun alive _ => ?_
          split
          · refine (requeue_unasserted consistent₁.linked member).bind fun k₂ moved => ?_
            obtain ⟨-, rfl⟩ := requeue_relink consistent₁.linked rfl moved
            exact (freeChildren_unasserted
              (consistent₁.relink (h := .zombie) nofun marked)).bind fun _ _ => .ok _
          · refine (requeue_unasserted consistent₁.linked member).bind fun k₂ moved => ?_
            obtain ⟨-, rfl⟩ := requeue_relink consistent₁.linked rfl moved
            exact (freeChildren_unasserted
              (consistent₁.relink (h := .dying) nofun marked)).bind fun _ _ => .ok _

theorem firstZombie_unasserted {l : List Addr} : Unasserted (k.firstZombie l) := by
  induction l with
  | nil => exact .ok _
  | cons head tail ih =>
      refine deref_unasserted.bind fun p _ => ?_
      split
      · exact .ok _
      · exact ih

theorem collect_unasserted {child : Addr} {retvalp : Bool} (consistent : k.Consistent)
    (ended : ∀ p, k.procs child = some p → p.status = .zombie) :
    Unasserted (k.collect child retvalp) := by
  refine deref_unasserted.bind fun p here => ?_
  rw [deref_eq_ok] at here
  refine Unasserted.bind (queueDel_unasserted fun p₁ there => ?_) fun k₁ del => ?_
  · obtain ⟨p', here', same⟩ := setStatus_links there
    rw [← same]
    exact consistent.linked_of_status here' (by rw [ended p' here']; nofun)
  · obtain ⟨-, rfl⟩ := queueDel_unlink consistent.linked.setStatus del
    refine delSibling_unasserted.bind fun k₂ out => ?_
    obtain ⟨p₂, parent, owner, found, -, -, rfl⟩ := delSibling_eq out
    refine Unasserted.bind (queueAdd_unasserted fun p₃ there => ?_) fun _ _ => .ok _
    rw [dropSibling_procs, found, Option.map_some, Option.some.injEq] at there
    rw [unlink_procs, if_pos rfl] at found
    obtain ⟨p₄, -, rfl⟩ := Option.map_eq_some_iff.mp found
    rw [← there]

theorem blockWaiting_unasserted {context : Frame} (unlinked : k.Unlinked) :
    Unasserted (k.blockWaiting context) := by
  refine active_unasserted.bind fun a current => ?_
  rw [active_eq_ok] at current
  exact (enqueue_unasserted fun p here => (unlinked a p current here).2).bind fun _ _ => .ok _

theorem waitpidLoop_unasserted {pid : Nat} {child : Addr} {retvalp : Bool}
    (consistent : k.Consistent) (unlinked : k.Unlinked) :
    Unasserted (k.waitpidLoop pid child retvalp) := by
  refine deref_unasserted.bind fun p here => ?_
  rw [deref_eq_ok] at here
  split
  · next ended =>
    refine collect_unasserted consistent fun p' there => ?_
    rw [here, Option.some.injEq] at there
    exact there ▸ ended
  · exact blockWaiting_unasserted unlinked

theorem firstCollect_unasserted {l : List Addr} {c : Addr} {retvalp : Bool}
    (consistent : k.Consistent) (search : k.firstZombie l = .ok (some c)) :
    Unasserted (k.collect c retvalp) := by
  obtain ⟨-, p, here, ended⟩ := firstZombie_some search
  refine collect_unasserted consistent fun p' there => ?_
  rw [here, Option.some.injEq] at there
  exact there ▸ ended

theorem waitForChild_unasserted {retvalp : Bool} (consistent : k.Consistent)
    (unlinked : k.Unlinked) : Unasserted (k.waitForChild retvalp) := by
  refine active_unasserted.bind fun a _ => deref_unasserted.bind fun p _ => ?_
  split
  · exact .ok _
  · refine firstZombie_unasserted.bind fun child search => ?_
    cases child with
    | none => exact blockWaiting_unasserted unlinked
    | some c => exact firstCollect_unasserted consistent search

theorem waitForChildResumed_unasserted {retvalp : Bool} (consistent : k.Consistent) :
    Unasserted (k.waitForChildResumed retvalp) := by
  refine active_unasserted.bind fun a _ => deref_unasserted.bind fun p _ =>
    firstZombie_unasserted.bind fun child search => ?_
  cases child with
  | none => exact .ok _
  | some c => exact firstCollect_unasserted consistent search

theorem waitpid_unasserted {pid : Int} {retvalp : Bool} (consistent : k.Consistent)
    (unlinked : k.Unlinked) : Unasserted (k.waitpid pid retvalp) := by
  unfold waitpid
  split
  · exact waitForChild_unasserted consistent unlinked
  · refine tableAt_unasserted.bind fun entry _ => ?_
    cases entry with
    | none => exact .ok _
    | some child =>
        refine deref_unasserted.bind fun p _ => active_unasserted.bind fun a _ =>
          deref_unasserted.bind fun parent _ => anyPid_unasserted.bind fun listed _ => ?_
        split
        · exact waitpidLoop_unasserted consistent unlinked
        · exact .ok _

theorem waitClock_unasserted {clock : Nat} (unlinked : k.Unlinked) :
    Unasserted (k.waitClock clock) := by
  refine active_unasserted.bind fun a current => ?_
  rw [active_eq_ok] at current
  refine Unasserted.bind (queueAdd_unasserted fun p there => ?_) fun _ _ => .ok _
  rw [setProc_procs, if_pos rfl] at there
  obtain ⟨p', here, rfl⟩ := Option.map_eq_some_iff.mp there
  exact (unlinked a p' current here).2

theorem getprio_unasserted {pid : Int} : Unasserted (k.getprio pid) := by
  unfold getprio
  split
  · exact .ok _
  · refine tableAt_unasserted.bind fun entry _ => ?_
    cases entry with
    | none => exact .ok _
    | some a => exact deref_unasserted.bind fun _ _ => .ok _

theorem resortInQueues_unasserted {pid : Nat} {fids : List Nat} (linked : k.Linked)
    (member : ∀ p, k.procs a = some p → p.links ≠ none) :
    Unasserted (k.resortInQueues a pid fids) := by
  induction fids with
  | nil => exact .ok _
  | cons i rest ih =>
      simp only [resortInQueues]
      split
      · exact ih
      · refine record_unasserted.bind fun _ _ => anyPid_unasserted.bind fun listed _ => ?_
        split
        · exact resort_unasserted linked member
        · exact ih

theorem reorder_unasserted {p₁ : Proc} (linked : k.Linked)
    (member : p₁.status ≠ .elected → ∀ p, k.procs a = some p → p.links ≠ none) :
    Unasserted (k.reorder a p₁) := by
  unfold reorder
  split
  · next status => exact resort_unasserted linked (member (by rw [status]; nofun))
  · next status => exact resort_unasserted linked (member (by rw [status]; nofun))
  · next status => exact resortInQueues_unasserted linked (member (by rw [status]; nofun))
  · exact .ok _

theorem chprio_unasserted {pid newprio : Int} (consistent : k.Consistent) :
    Unasserted (k.chprio pid newprio) := by
  refine getprio_unasserted.bind fun oldprio _ => ?_
  split
  · exact .ok _
  · refine tableAt_unasserted.bind fun entry _ => ?_
    cases entry with
    | none => nofun
    | some a =>
        refine deref_unasserted.bind fun p here => ?_
        rw [deref_eq_ok] at here
        split
        · exact .ok _
        · have base : (k.setProc a fun p =>
              { p with priority := toUnsigned newprio }).Linked :=
            consistent.linked.setProc _ fun _ => rfl
          refine (reorder_unasserted base fun status p' there => ?_).bind fun _ _ => .ok _
          rw [setProc_procs, if_pos rfl, here, Option.map_some, Option.some.injEq] at there
          rw [← there]
          exact consistent.linked_of_status (p := p) here status

theorem bufferCell_unasserted {mq : MessageQueue} {index : Int} :
    Unasserted (k.bufferCell mq index) := by
  unfold bufferCell
  split
  · nofun
  · split <;> nofun

theorem queueAt_unasserted {fid : Int} : Unasserted (k.queueAt fid) := by
  unfold queueAt
  split <;> nofun

theorem checkFidValidity_unasserted {fid : Int} : Unasserted (k.checkFidValidity fid) := by
  unfold checkFidValidity
  split
  · exact .ok _
  · exact queueAt_unasserted

theorem countBlockedProcess_unasserted {fid : Nat} : Unasserted (k.countBlockedProcess fid) := by
  unfold countBlockedProcess
  split
  · nofun
  · exact record_unasserted.bind fun _ _ => .ok _

theorem blockOnQueue_unasserted {context : Frame} (unlinked : k.Unlinked) :
    Unasserted (k.blockOnQueue q context) := by
  refine active_unasserted.bind fun a current => ?_
  rw [active_eq_ok] at current
  exact (enqueue_unasserted fun p here => (unlinked a p current here).2).bind fun _ _ => .ok _

theorem wakeWaiter_unasserted (linked : k.Linked) : Unasserted (k.wakeWaiter q) := by
  refine queueOut_unasserted.bind fun out taken => ?_
  obtain ⟨waiter, k₁⟩ := out
  obtain ⟨-, rfl⟩ := queueOut_unlink linked taken
  cases waiter with
  | none => exact .ok _
  | some a =>
      refine Unasserted.bind (enqueue_unasserted fun p there => ?_) fun _ _ => .ok _
      rw [Option.elim_some, unlink_procs, if_pos rfl] at there
      obtain ⟨p', -, rfl⟩ := Option.map_eq_some_iff.mp there
      rfl

theorem takeMessage_unasserted {fid : Nat} (linked : k.Linked) :
    Unasserted (k.takeMessage fid q) := by
  refine record_unasserted.bind fun mq _ => bufferCell_unasserted.bind fun cell _ => ?_
  refine countBlockedProcess_unasserted.bind fun blocked _ => ?_
  split
  · refine (wakeWaiter_unasserted (linked.setRecord _)).bind fun out _ => ?_
    obtain ⟨waiter, k₁⟩ := out
    cases waiter <;> exact .ok _
  · exact .ok _

theorem storeMessage_unasserted {message : Int} : Unasserted (k.storeMessage q message) :=
  record_unasserted.bind fun _ _ => bufferCell_unasserted.bind fun _ _ => .ok _

theorem preceive_unasserted {fid : Int} (linked : k.Linked) (unlinked : k.Unlinked) :
    Unasserted (k.preceive fid) := by
  refine checkFidValidity_unasserted.bind fun entry _ => ?_
  cases entry with
  | none => exact .ok _
  | some q =>
      refine record_unasserted.bind fun mq _ => ?_
      split
      · exact blockOnQueue_unasserted unlinked
      · exact takeMessage_unasserted linked

theorem preceiveResumed_unasserted {fid : Nat} (linked : k.Linked) :
    Unasserted (k.preceiveResumed fid q) := by
  refine record_unasserted.bind fun mq _ => ?_
  split
  · exact .ok _
  · exact takeMessage_unasserted linked

theorem psend_unasserted {fid message : Int} (linked : k.Linked) (unlinked : k.Unlinked) :
    Unasserted (k.psend fid message) := by
  refine checkFidValidity_unasserted.bind fun entry _ => ?_
  cases entry with
  | none => exact .ok _
  | some q =>
      refine record_unasserted.bind fun mq _ => countBlockedProcess_unasserted.bind
        fun blocked _ => ?_
      split
      · refine (wakeWaiter_unasserted linked).bind fun out _ => ?_
        obtain ⟨waiter, k₁⟩ := out
        refine storeMessage_unasserted.bind fun _ _ => ?_
        cases waiter <;> exact .ok _
      · split
        · exact blockOnQueue_unasserted unlinked
        · exact storeMessage_unasserted.bind fun _ _ => .ok _

theorem psendResumed_unasserted {fid : Nat} {message : Int} (unlinked : k.Unlinked) :
    Unasserted (k.psendResumed fid q message) := by
  refine record_unasserted.bind fun mq _ => ?_
  split
  · exact .ok _
  · split
    · exact .ok _
    · split
      · exact blockOnQueue_unasserted unlinked
      · exact storeMessage_unasserted.bind fun _ _ => .ok _

theorem unblockLoop_unasserted {fuel : Nat} (linked : k.Linked) :
    Unasserted (unblockLoop q fuel k) := by
  induction fuel generalizing k with
  | zero => nofun
  | succ fuel ih =>
      simp only [unblockLoop]
      split
      · exact .ok _
      · next a last =>
        have member := List.mem_of_getLast? last
        refine (queueDel_unasserted fun _ here => linked.links_ne_none member here).bind
          fun k₁ del => (readd_unasserted linked del).bind fun k₂ add => ih ?_
        obtain ⟨⟨p, g, here, -⟩, rfl⟩ := queueDel_unlink linked del
        obtain ⟨-, rfl⟩ := queueAdd_link (h := .ready) add
        rw [setStatus_link, setStatus_unlink, ← relink_eq]
        exact linked.relink here

theorem unblockProcesses_unasserted (linked : k.Linked) : Unasserted (k.unblockProcesses q) :=
  record_unasserted.bind fun _ _ => unblockLoop_unasserted linked

theorem pdelete_unasserted {fid : Int} (linked : k.Linked) : Unasserted (k.pdelete fid) := by
  refine checkFidValidity_unasserted.bind fun entry _ => ?_
  cases entry with
  | none => exact .ok _
  | some q =>
      exact (unblockProcesses_unasserted linked).bind fun _ _ => record_unasserted.bind
        fun _ _ => memFree_unasserted.bind fun _ _ => .ok _

theorem preset_unasserted {fid : Int} (linked : k.Linked) : Unasserted (k.preset fid) := by
  refine checkFidValidity_unasserted.bind fun entry _ => ?_
  cases entry with
  | none => exact .ok _
  | some q =>
      refine record_unasserted.bind fun _ _ => countBlockedProcess_unasserted.bind fun _ _ => ?_
      exact (unblockProcesses_unasserted ((linked.setRecord _).setRecord _)).bind fun _ _ => .ok _

theorem pcount_unasserted {fid : Int} {count : Bool} : Unasserted (k.pcount fid count) := by
  refine checkFidValidity_unasserted.bind fun entry _ => ?_
  cases entry with
  | none => exact .ok _
  | some q =>
      dsimp only
      split
      · exact record_unasserted.bind fun _ _ => countBlockedProcess_unasserted.bind
          fun _ _ => .ok _
      · exact .ok _

theorem pcreate_unasserted {count : Int} {recordGranted bufferGranted : Bool} :
    Unasserted (k.pcreate count recordGranted bufferGranted) := by
  unfold pcreate
  split
  · exact .ok _
  · split
    · exact .ok _
    · dsimp only
      split
      · nofun
      · split <;> exact .ok _

theorem throwStartError_unasserted {pid : Nat} : Unasserted (k.throwStartError pid a) :=
  memFree_unasserted.bind fun _ _ => .ok _

theorem startReturn_unasserted {pid : Nat} : Unasserted (k.startReturn pid) := by
  unfold startReturn
  split
  · nofun
  · exact deref_unasserted.bind fun _ _ => .ok _

theorem startLinked_unasserted {pid : Nat} (here : k.procs a = some p) (links : p.links = none) :
    Unasserted (k.startLinked a pid) := by
  refine Unasserted.bind ?_ fun k₁ filiation => ?_
  · unfold filiationManager
    dsimp only
    split
    · exact .ok _
    · split
      · nofun
      · exact addSibling_unasserted
  · have kept : (k₁.procs a).map Proc.links = some none := by
      unfold filiationManager at filiation
      dsimp only at filiation
      have start : ((k.setProc a fun p =>
          { p with childrenList := [], parent := k.getParentProc }).procs a).map Proc.links =
            some none := by
        rw [setProc_procs, if_pos rfl, here]
        exact congrArg some links
      split at filiation
      · cases filiation
        exact start
      · split at filiation
        · cases filiation
        · obtain ⟨p₁, owner, placed, -, -, -, -, rfl⟩ := addSibling_eq filiation
          rw [join_procs, Option.map_map]
          exact start
    have unlinked (p' : Proc) (there : k₁.procs a = some p') : p'.links = none := by
      rw [there, Option.map_some] at kept
      exact Option.some.inj kept
    refine (queueAdd_unasserted unlinked).bind fun k₂ _ => ?_
    refine active_unasserted.bind fun _ _ => deref_unasserted.bind fun _ _ =>
      deref_unasserted.bind fun _ _ => ?_
    split
    · exact .ok _
    · exact startReturn_unasserted

theorem start_unasserted {ssize : Nat} {prio : Int} {name : List UInt8}
    {procGranted stackGranted : Bool} :
    Unasserted (k.start ssize prio name procGranted stackGranted) := by
  unfold start
  split
  · exact .ok _
  · next pid _ =>
    split
    · exact .ok _
    · next k₁ a first =>
      dsimp only
      split
      · exact throwStartError_unasserted
      · split
        · exact throwStartError_unasserted
        · next k₂ stack second =>
          obtain ⟨-, -, rfl⟩ := memAlloc_eq second
          refine Unasserted.bind ?_ fun k₃ filled => ?_
          · unfold initProc
            split
            · nofun
            · split
              · nofun
              · split <;> nofun
          · obtain rfl := initProc_eq filled
            have zeroed : Function.update k₁.procs a (some Proc.zeroed) a = some Proc.zeroed :=
              Function.update_self _ _ _
            exact startLinked_unasserted
              (((setProc_procs _).trans (if_pos rfl)).trans (congrArg _ zeroed)) rfl

/-- Process 0 calls `start` only, so it is never entered into a list by its own calls. -/
theorem segment_unasserted {context : Frame} {e : Event} (consistent : k.Consistent)
    (sole : k.SoleElected)
    (unlinked : k.Unlinked ∨ (context = .user ∨ ∃ pid, context = .start pid) ∧
      e.starts = true) :
    Unasserted (k.segment context e) := by
  have linked := consistent.linked
  rcases unlinked with unlinked | ⟨frame, starts⟩
  · cases e with
    | clockInterrupt =>
        simp only [segment]
        split
        · exact .ok _
        · rintro ⟨⟩
    | resume =>
        cases context with
        | user => rintro ⟨⟩
        | done value out => exact .ok _
        | start pid => exact startReturn_unasserted
        | exit => rintro ⟨⟩
        | waitpid pid child retvalp => exact waitpidLoop_unasserted consistent unlinked
        | waitForChild retvalp => exact waitForChildResumed_unasserted consistent
        | preceive fid q => exact preceiveResumed_unasserted linked
        | psend fid q message => exact psendResumed_unasserted unlinked
    | call c =>
        simp only [segment]
        split
        · cases c with
          | start ssize prio name procGranted stackGranted => exact start_unasserted
          | exit retval => exact exit_unasserted consistent unlinked
          | kill pid => exact kill_unasserted consistent unlinked sole
          | waitpid pid retvalp => exact waitpid_unasserted consistent unlinked
          | chprio pid newprio => exact chprio_unasserted consistent
          | getprio pid => exact getprio_unasserted.bind fun _ _ => .ok _
          | waitClock clock => exact waitClock_unasserted unlinked
          | sleep seconds => exact waitClock_unasserted unlinked
          | pcreate count recordGranted bufferGranted => exact pcreate_unasserted
          | pdelete fid => exact pdelete_unasserted linked
          | preset fid => exact preset_unasserted linked
          | pcount fid count => exact pcount_unasserted
          | preceive fid => exact preceive_unasserted linked unlinked
          | psend fid message => exact psend_unasserted linked unlinked
        · rintro ⟨⟩
  · rcases Event.starts_cases starts with rfl | rfl | ⟨ssize, prio, name, procGranted, stackGranted, rfl⟩
    · simp only [segment]
      split
      · exact .ok _
      · rintro ⟨⟩
    · rcases frame with rfl | ⟨pid, rfl⟩
      · rintro ⟨⟩
      · exact startReturn_unasserted
    · simp only [segment]
      split
      · exact start_unasserted
      · rintro ⟨⟩

theorem step_unasserted {e : Event} (consistent : k.Consistent) (running : k.Running)
    (idle : k.Idle) (starts : k.Permits e) : Unasserted (k.step e) := by
  refine active_unasserted.bind fun a current => deref_unasserted.bind fun p here => ?_
  rw [active_eq_ok] at current
  rw [deref_eq_ok] at here
  have sole := idle.sole consistent
  refine Unasserted.bind ?_ fun out segment => ?_
  · refine segment_unasserted consistent sole ?_
    by_cases zero : k.activePID = 0
    · obtain ⟨b, p₀, entry, there, -, frame, -⟩ := idle
      rw [zero, entry, Option.some.injEq] at current
      subst b
      rw [here, Option.some.injEq] at there
      subst p₀
      exact .inr ⟨frame, starts zero⟩
    · refine .inl fun b p' active there => ?_
      have status := running.status active there
      refine ⟨status, ?_⟩
      have placed := consistent.placed b p' there
      rw [Proc.Placed] at placed
      cases links : p'.links with
      | none => rfl
      | some h =>
          rw [links] at placed
          rcases placed with same | ⟨-, -, number⟩
          · rw [status] at same
            exact absurd same.symm (Head.status_ne_elected h)
          · obtain ⟨-, p₂, there₂, pid⟩ := consistent.table _ _ active
            rw [there, Option.some.injEq] at there₂
            subst p₂
            exact absurd (pid.symm.trans number) zero
  · obtain ⟨k₁, n⟩ := out
    have consistent₁ := consistent.segment segment
    refine Unasserted.bind ?_ fun _ _ => .ok _
    cases n with
    | ret value out => exact .ok _
    | suspend context =>
        exact scheduling_unasserted consistent₁.setContext

/-- Status, lists and table agree. Before the first call to `scheduling` process 0 is
both ELECTED and in the ready list. -/
structure Agrees (k : Kernel) (unscheduled : Prop) : Prop where
  table : ∀ a p, k.procs a = some p → k.processesTable p.pid = some a
  ready : ∀ a p, k.procs a = some p →
    (p.status = .ready ↔ a ∈ k.lists .ready ∧ ¬ (unscheduled ∧ p.pid = 0))
  asleep : ∀ a p, k.procs a = some p → (p.status = .asleep ↔ a ∈ k.lists .asleep)
  blocked : ∀ a p, k.procs a = some p → (p.status = .blocked ↔ a ∈ k.lists .blocked)
  zombie : ∀ a p, k.procs a = some p → (p.status = .zombie ↔ a ∈ k.lists .zombie)
  dying : ∀ a p, k.procs a = some p → (p.status = .dying ↔ a ∈ k.lists .dying)
  queued : ∀ a p, k.procs a = some p →
    (p.status = .blockedMessageQueue ↔ ∃! q, a ∈ k.lists (.queue q))
  once : ∀ a h, (k.lists h).count a ≤ 1
  oneList : ∀ a g h, a ∈ k.lists g → a ∈ k.lists h → g = h
  elected : ∃ a p, k.procs a = some p ∧ p.status = .elected ∧
    k.processesTable k.activePID = some a ∧
    (∀ b p', k.procs b = some p' → p'.status = .elected → b = a) ∧
    ((∀ h, a ∉ k.lists h) ∨ unscheduled ∧ p.pid = 0)

theorem Consistent.status_iff {h : Head} (consistent : k.Consistent) (here : k.procs a = some p)
    (other : h ≠ .ready) (only : ∀ g : Head, g.status = h.status → g = h) :
    p.status = h.status ↔ a ∈ k.lists h := by
  have placed := consistent.placed a p here
  rw [← consistent.linked.links_iff here]
  constructor
  · intro status
    obtain ⟨g, links, same⟩ :=
      placed.links_of_status (by rw [status]; exact Head.status_ne_elected h)
    rw [links, only g (same.symm.trans status)]
  · exact fun links => placed.status_of_links links other

theorem Consistent.queued_iff (consistent : k.Consistent) (here : k.procs a = some p) :
    p.status = .blockedMessageQueue ↔ ∃! q, a ∈ k.lists (.queue q) := by
  have placed := consistent.placed a p here
  constructor
  · intro status
    obtain ⟨g, links, same⟩ := placed.links_of_status (by rw [status]; nofun)
    rw [status] at same
    cases g with
    | queue q =>
        refine ⟨q, (consistent.linked.links_iff here).mp links, fun q' member => ?_⟩
        have again := (consistent.linked.links_iff here).mpr member
        rw [links] at again
        cases again
        rfl
    | ready | asleep | dying | zombie | blocked => cases same
  · rintro ⟨q, member, -⟩
    exact placed.status_of_links ((consistent.linked.links_iff here).mpr member) nofun

theorem Consistent.agrees {unscheduled : Prop} (consistent : k.Consistent)
    (running : k.Running) (sole : k.SoleElected)
    (first : unscheduled → ∀ a p, k.procs a = some p → p.pid = 0 → p.status = .elected)
    (unlinked : unscheduled ∨
      ∀ a p, k.procs a = some p → p.status = .elected → p.links = none) :
    k.Agrees unscheduled where
  table := consistent.owned
  ready := by
    intro a p here
    rw [← consistent.linked.links_iff here]
    have placed := consistent.placed a p here
    constructor
    · intro status
      obtain ⟨g, links, same⟩ := placed.links_of_status (by rw [status]; nofun)
      rw [status] at same
      refine ⟨?_, fun ⟨early, zero⟩ => ?_⟩
      · cases g with
        | ready => exact links
        | asleep | dying | zombie | blocked | queue => cases same
      · have elected := first early a p here zero
        rw [status] at elected
        cases elected
    · rintro ⟨links, late⟩
      rw [Proc.Placed, links] at placed
      rcases placed with status | ⟨-, status, zero⟩
      · exact status
      · rcases unlinked with early | free
        · exact absurd ⟨early, zero⟩ late
        · rw [free a p here status] at links
          cases links
  asleep := fun _ _ here => consistent.status_iff (h := .asleep) here nofun fun g same => by
    cases g <;> first | rfl | cases same
  blocked := fun _ _ here => consistent.status_iff (h := .blocked) here nofun fun g same => by
    cases g <;> first | rfl | cases same
  zombie := fun _ _ here => consistent.status_iff (h := .zombie) here nofun fun g same => by
    cases g <;> first | rfl | cases same
  dying := fun _ _ here => consistent.status_iff (h := .dying) here nofun fun g same => by
    cases g <;> first | rfl | cases same
  queued := fun _ _ here => consistent.queued_iff here
  once := fun a h => List.nodup_iff_count_le_one.mp (consistent.linked.nodup h) a
  oneList := by
    intro a g h first second
    obtain ⟨p, here, links⟩ := (consistent.linked.mem_iff g a).mp first
    have again := (consistent.linked.links_iff here).mpr second
    rw [links] at again
    exact Option.some.inj again
  elected := by
    obtain ⟨a, p, current, here, status⟩ := running
    refine ⟨a, p, here, status, current, fun b p' there elected => ?_, ?_⟩
    · have active := sole b p' there elected
      rw [current, Option.some.injEq] at active
      exact active.symm
    · cases links : p.links with
      | none =>
          refine .inl fun h member => ?_
          have again := (consistent.linked.links_iff here).mpr member
          rw [links] at again
          cases again
      | some h =>
          have placed := consistent.placed a p here
          rw [Proc.Placed, links] at placed
          rcases placed with same | ⟨-, -, zero⟩
          · rw [status] at same
            exact absurd same.symm (Head.status_ne_elected h)
          · rcases unlinked with early | free
            · exact .inr ⟨early, zero⟩
            · rw [free a p here status] at links
              cases links

end Kernel

open Kernel

/-- In every state reached while process 0 only starts processes, status and lists agree
and no assertion on `links` fails in the next step. -/
theorem status_agrees_with_lists {history : History} {k : Kernel}
    (run : Reached history k) (starts : Meets IdleStarts history) :
    k.Agrees (Unscheduled history) ∧
      ∀ e, k.Permits e → k.step e ≠ .error .linksAssertion := by
  obtain ⟨consistent, running⟩ := consistent_of_run run
  have idle := idle_of_run run starts
  have first (early : Unscheduled history) (a : Addr) (p : Proc) (here : k.procs a = some p)
      (zero : p.pid = 0) : p.status = .elected := by
    have current := unscheduled_active run early
    have owned := consistent.owned a p here
    rw [zero, ← current] at owned
    exact running.status owned here
  exact ⟨consistent.agrees running (idle.sole consistent) first
    (elected_unlinked_of_run run starts),
    fun e permitted => step_unasserted consistent running idle permitted⟩

/-- Three processes, one blocked on a queue, one asleep, and a child that ends. -/
theorem status_agrees_with_lists_mixed : ∃ (history : History) (k : Kernel), history.length = 12 ∧
    k.Agrees (Unscheduled history) ∧ ∀ e, k.Permits e → k.step e ≠ .error .linksAssertion := by
  obtain ⟨history, k, run, checked⟩ := reached_by
    [.call (.start 512 10 [97] true true), .call (.pcreate 2 true true),
      .call (.start 512 20 [98] true true), .call (.preceive 0), .resume,
      .call (.start 512 30 [99] true true), .call (.exit 7), .resume,
      .call (.waitpid (-1) true), .call (.waitClock 3), .resume, .clockInterrupt]
    (fun history _ => decide (history.length = 12) && decide (Meets IdleStarts history))
    (by decide +kernel)
  simp only [Bool.and_eq_true, decide_eq_true_eq] at checked
  exact ⟨history, k, checked.1, status_agrees_with_lists run checked.2⟩

end IntelX86Kernel

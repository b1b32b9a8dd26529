import IntelX86Kernel.Effects

/-! What `scheduling` can do: sleepers are woken, dying processes are given back,
one process is elected. -/

namespace IntelX86Kernel

namespace Kernel

variable {k k' : Kernel} {a b : Addr} {p : Proc}

def wake (k : Kernel) (a : Addr) : Kernel :=
  (k.setProc a fun p => { p with wakeUpTime := 0 }).relink a .ready .ready

/-- The block of `a`, its table entry and its stack are given back. -/
def reap (k : Kernel) (a : Addr) (p : Proc) (heap : Addr → Option Nat) : Kernel :=
  { k with
    heap := heap
    procs := Function.update k.procs a none
    lists := fun h => (k.lists h).erase a
    processesTable := Function.update k.processesTable p.pid none
    nbProc := (k.nbProc + (2 ^ 32 - 1)) % 2 ^ 32 }

def elect (k : Kernel) (a b : Addr) (pid : Nat) : Kernel :=
  { (k.unlink a).setStatus b .elected with activePID := pid }

theorem wake_procs : (k.wake a).procs b =
    if b = a then (k.procs a).map fun p =>
      { p with status := .ready, links := some .ready, wakeUpTime := 0 }
    else k.procs b := by
  simp only [wake, relink_procs, setProc_procs]
  split
  · simp [Function.comp_def]
  · rfl

theorem reap_procs {heap : Addr → Option Nat} :
    (k.reap a p heap).procs b = if b = a then none else k.procs b := by
  simp only [reap, Function.update_apply]

theorem elect_procs {pid : Nat} {c : Addr} (here : k.procs a = some p) :
    (k.elect a a pid).procs c =
      if c = a then some { p with status := .elected, links := none } else k.procs c := by
  simp only [elect, setStatus, setProc_procs, unlink_procs]
  split <;> simp [here]

theorem Linked.wake (linked : k.Linked) (here : k.procs a = some p) : (k.wake a).Linked := by
  have found : (k.setProc a fun p => { p with wakeUpTime := 0 }).procs a =
      some { p with wakeUpTime := 0 } := setProc_here here
  have base : (k.setProc a fun p => { p with wakeUpTime := 0 }).Linked :=
    linked.setProc _ fun _ => rfl
  exact base.relink found

theorem Linked.reap (linked : k.Linked) {heap : Addr → Option Nat} :
    (k.reap a p heap).Linked := by
  refine ⟨fun h => (linked.nodup h).erase a, fun h b => ?_⟩
  change b ∈ (k.lists h).erase a ↔ _
  rw [reap_procs]
  by_cases same : b = a
  · subst b
    have absent := (linked.nodup h).not_mem_erase (a := a)
    simp [absent]
  · simp [same, List.mem_erase_of_ne same, linked.mem_iff h b]

theorem toWakeUp_eq {l expired : List Addr} (run : k.toWakeUp l = .ok expired) :
    expired.Sublist l ∧
      ∀ a ∈ expired, ∃ p, k.procs a = some p ∧ p.wakeUpTime < k.currentClock := by
  induction l generalizing expired with
  | nil =>
      simp only [toWakeUp, Except.ok.injEq] at run
      subst run
      exact ⟨List.Sublist.slnil, by simp⟩
  | cons head tail ih =>
      simp only [toWakeUp, bind_eq_ok, deref_eq_ok, Except.ok.injEq] at run
      obtain ⟨p, here, others, rest, rfl⟩ := run
      obtain ⟨sub, late⟩ := ih rest
      split
      · next expired =>
        refine ⟨sub.cons_cons head, fun a member => ?_⟩
        rcases List.mem_cons.mp member with rfl | member
        · exact ⟨p, here, expired⟩
        · exact late a member
      · exact ⟨sub.cons head, late⟩

theorem wakeProcess_eq (linked : k.Linked) (run : k.wakeProcess a = .ok k') :
    k' = k.wake a := by
  simp only [wakeProcess, bind_eq_ok] at run
  obtain ⟨k₁, del, add⟩ := run
  have base : (k.setProc a fun p => { p with status := .ready, wakeUpTime := 0 }).Linked :=
    linked.setProc _ fun _ => rfl
  obtain ⟨-, rfl⟩ := queueDel_unlink base del
  obtain ⟨-, rfl⟩ := queueAdd_link (h := .ready) add
  rw [wake, relink_eq, setStatus, setProc_setProc]

inductive Woken : Kernel → Kernel → Prop where
  | none {k : Kernel} : Woken k k
  | sleeper {k k' : Kernel} {a : Addr} {p : Proc} (here : k.procs a = some p)
      (asleep : p.links = some .asleep) (late : p.wakeUpTime < k.currentClock)
      (rest : Woken (k.wake a) k') : Woken k k'

theorem wakeProcesses_eq {l : List Addr} (linked : k.Linked) (nodup : l.Nodup)
    (asleep : ∀ a ∈ l, a ∈ k.lists .asleep)
    (late : ∀ a ∈ l, ∃ p, k.procs a = some p ∧ p.wakeUpTime < k.currentClock)
    (run : wakeProcesses l k = .ok k') : Woken k k' := by
  induction l generalizing k with
  | nil =>
      cases run
      exact .none
  | cons head tail ih =>
      simp only [wakeProcesses, bind_eq_ok] at run
      obtain ⟨k₁, first, run⟩ := run
      obtain rfl := wakeProcess_eq linked first
      obtain ⟨p, here, links⟩ := (linked.mem_iff _ head).mp (asleep head (by simp))
      obtain ⟨p', found, time⟩ := late head (by simp)
      rw [here, Option.some.injEq] at found
      subst p'
      obtain ⟨fresh, nodup⟩ := List.nodup_cons.mp nodup
      have other (a : Addr) (member : a ∈ tail) : a ≠ head := fun same => fresh (same ▸ member)
      refine .sleeper here links time
        (ih (linked.wake here) nodup (fun a member => ?_) (fun a member => ?_) run)
      · change a ∈ (k.lists .asleep).erase head
        rw [List.mem_erase_of_ne (other a member)]
        exact asleep a (List.mem_cons_of_mem _ member)
      · rw [wake_procs, if_neg (other a member)]
        exact late a (List.mem_cons_of_mem _ member)

theorem wakeup_eq (linked : k.Linked) (run : k.wakeup = .ok k') : Woken k k' := by
  simp only [wakeup, bind_eq_ok] at run
  obtain ⟨expired, found, run⟩ := run
  obtain ⟨sub, late⟩ := toWakeUp_eq found
  split at run
  · exact wakeProcesses_eq linked ((linked.nodup _).sublist sub)
      (fun a member => sub.subset member) late run
  · cases run

theorem Woken.linked (woken : Woken k k') (linked : k.Linked) : k'.Linked := by
  induction woken with
  | none => exact linked
  | sleeper here asleep late rest ih => exact ih (linked.wake here)

theorem memAlloc_eq {granted : Bool} {length : Nat}
    (run : k.memAlloc granted length = some (k', a)) :
    a = k.nextBlock ∧ length ≠ 0 ∧
      k' = { k with heap := Function.update k.heap k.nextBlock (some length),
                    nextBlock := k.nextBlock + 1 } := by
  unfold memAlloc at run
  dsimp only at run
  split at run
  · cases run
  · next granted =>
    simp only [Option.some.injEq, Prod.mk.injEq] at run
    exact ⟨run.2.symm, fun zero => granted (.inl zero), run.1.symm⟩

theorem memFree_eq {zone length : Nat} (run : k.memFree zone length = .ok k') :
    ∃ heap, k' = { k with heap := heap } ∧ ∀ b, b ≠ zone → heap b = k.heap b := by
  unfold memFree at run
  split at run
  · cases run
    exact ⟨k.heap, rfl, fun _ _ => rfl⟩
  · split at run
    · cases run
      exact ⟨_, rfl, fun b other => Function.update_of_ne other _ _⟩
    · cases run

theorem killProcess_eq (linked : k.Linked) (run : k.killProcess a = .ok k') :
    ∃ p heap, k.procs a = some p ∧ (∀ b, b ≠ a → b ≠ p.stack → heap b = k.heap b) ∧
      k' = k.reap a p heap := by
  simp only [killProcess, bind_eq_ok, deref_eq_ok, Except.ok.injEq] at run
  obtain ⟨k₁, del, p₁, found, k₂, block, k₃, stack, rfl⟩ := run
  obtain ⟨⟨p, g, here, -⟩, rfl⟩ := queueDel_unlink linked del
  rw [unlink_procs, if_pos rfl, here, Option.map_some, Option.some.injEq] at found
  subst found
  obtain ⟨heap₂, rfl, others₂⟩ := memFree_eq block
  obtain ⟨heap₃, rfl, others₃⟩ := memFree_eq stack
  refine ⟨p, heap₃, here, fun b block stack => ?_, ?_⟩
  · rw [others₃ b stack]
    exact others₂ b block
  · refine Kernel.ext rfl rfl ?_ rfl rfl rfl rfl rfl rfl rfl rfl
    simp only [reap, unlink, setTable, Function.update_idem]

inductive Reaped : Kernel → Kernel → Prop where
  | none {k : Kernel} : Reaped k k
  | process {k k' : Kernel} {a : Addr} {p : Proc} {heap : Addr → Option Nat}
      (here : k.procs a = some p) (dying : p.links = some .dying)
      (other : k.processesTable k.activePID ≠ some a)
      (kept : ∀ b, b ≠ a → b ≠ p.stack → heap b = k.heap b)
      (rest : Reaped (k.reap a p heap) k') : Reaped k k'

theorem killLoop_eq {l : List Addr} (linked : k.Linked) (nodup : l.Nodup)
    (dying : ∀ a ∈ l, a ∈ k.lists .dying) (run : killLoop l k = .ok k') : Reaped k k' := by
  induction l generalizing k with
  | nil =>
      cases run
      exact .none
  | cons head tail ih =>
      simp only [killLoop] at run
      split at run
      · cases run
        exact .none
      · next other =>
        simp only [bind_eq_ok] at run
        obtain ⟨k₁, first, run⟩ := run
        obtain ⟨p, heap, here, kept, rfl⟩ := killProcess_eq linked first
        obtain ⟨q, found, links⟩ := (linked.mem_iff _ head).mp (dying head (by simp))
        rw [here, Option.some.injEq] at found
        subst q
        obtain ⟨fresh, nodup⟩ := List.nodup_cons.mp nodup
        refine .process here links other kept (ih linked.reap nodup (fun a member => ?_) run)
        have other : a ≠ head := fun same => fresh (same ▸ member)
        change a ∈ (k.lists .dying).erase head
        rw [List.mem_erase_of_ne other]
        exact dying a (List.mem_cons_of_mem _ member)

theorem killProcesses_eq (linked : k.Linked) (run : k.killProcesses = .ok k') : Reaped k k' :=
  killLoop_eq linked (linked.nodup _) (fun _ member => member) run

theorem anyPid_true {pid : Nat} {l : List Addr} (run : k.anyPid pid l = .ok true) :
    ∃ a ∈ l, ∃ p, k.procs a = some p ∧ p.pid = pid := by
  induction l with
  | nil => cases run
  | cons head tail ih =>
      simp only [anyPid, bind_eq_ok, deref_eq_ok] at run
      obtain ⟨p, here, run⟩ := run
      split at run
      · next same => exact ⟨head, by simp, p, here, same⟩
      · obtain ⟨a, member, found⟩ := ih run
        exact ⟨a, List.mem_cons_of_mem _ member, found⟩

theorem anyPid_false {pid : Nat} {l : List Addr} (run : k.anyPid pid l = .ok false) :
    ∀ a ∈ l, ∃ p, k.procs a = some p ∧ p.pid ≠ pid := by
  induction l with
  | nil => simp
  | cons head tail ih =>
      simp only [anyPid, bind_eq_ok, deref_eq_ok] at run
      obtain ⟨p, here, run⟩ := run
      split at run
      · cases run
      · next other =>
        intro a member
        rcases List.mem_cons.mp member with rfl | member
        · exact ⟨p, here, other⟩
        · exact ih run a member

theorem anyPid_ok {pid : Nat} {l : List Addr} (present : ∀ c ∈ l, k.procs c ≠ none) :
    ∃ listed, k.anyPid pid l = .ok listed := by
  induction l with
  | nil => exact ⟨false, rfl⟩
  | cons c rest ih =>
      obtain ⟨p, held⟩ := Option.ne_none_iff_exists'.mp (present c (by simp))
      obtain ⟨listed, searched⟩ := ih fun d member => present d (List.mem_cons_of_mem c member)
      rw [anyPid, deref_eq_ok.mpr held]
      change ∃ listed, (if p.pid = pid then .ok true else k.anyPid pid rest) = .ok listed
      split
      · exact ⟨true, rfl⟩
      · exact ⟨listed, searched⟩

/-- `elect_proc` puts a running process back, unless it is found in the ready list. -/
theorem putBack_eq (linked : k.Linked) (run : k.putBack a = .ok k') :
    ∃ p, k.procs a = some p ∧
      ((p.status ≠ .elected ∧ k' = k) ∨
        (p.status = .elected ∧ p.links = none ∧ k' = k.relink a .ready .ready) ∨
        (p.status = .elected ∧ k' = k.setStatus a .ready ∧
          ∃ b ∈ k.lists .ready, ∃ p', k.procs b = some p' ∧ p'.pid = k.activePID)) := by
  simp only [putBack, bind_eq_ok, deref_eq_ok] at run
  obtain ⟨p, here, run⟩ := run
  refine ⟨p, here, ?_⟩
  split at run
  · next running =>
    simp only [bind_eq_ok] at run
    obtain ⟨listed, search, run⟩ := run
    split at run
    · next found =>
      subst found
      cases run
      obtain ⟨b, member, p₁, found, pid⟩ := anyPid_true search
      refine .inr (.inr ⟨running, rfl, b, member, ?_⟩)
      simp only [setStatus, setProc_procs] at found
      split at found
      · next same =>
        subst same
        rw [here, Option.map_some, Option.some.injEq] at found
        subst found
        exact ⟨p, here, pid⟩
      · exact ⟨p₁, found, pid⟩
    · obtain ⟨⟨p₁, found, links⟩, rfl⟩ := queueAdd_link (h := .ready) run
      rw [setStatus, setProc_procs, if_pos rfl, here, Option.map_some, Option.some.injEq] at found
      subst found
      refine .inr (.inl ⟨running, links, ?_⟩)
      have stays : (k.setStatus a .ready).procs a = some { p with status := .ready } := by
        simp [setStatus, setProc_procs, here]
      rw [relink_eq, unlink_self linked.setStatus stays links]
  · next other =>
    cases run
    exact .inl ⟨other, rfl⟩

theorem electNext_eq (linked : k.Linked) (run : k.electNext = .ok k') :
    ∃ a p b, (k.lists .ready).getLast? = some a ∧ k.procs a = some p ∧
      k.processesTable p.pid = some b ∧ k' = k.elect a b p.pid := by
  simp only [electNext, bind_eq_ok, Prod.exists] at run
  obtain ⟨next, k₁, taken, run⟩ := run
  obtain ⟨last, rfl⟩ := queueOut_unlink linked taken
  cases next with
  | none => cases run
  | some a =>
      simp only [Option.elim_some, bind_eq_ok, deref_eq_ok] at run
      obtain ⟨p₁, found, run⟩ := run
      have member : a ∈ k.lists .ready := List.mem_of_getLast? last.symm
      obtain ⟨p, here, -⟩ := (linked.mem_iff _ a).mp member
      rw [unlink_procs, if_pos rfl, here, Option.map_some, Option.some.injEq] at found
      subst found
      split at run
      · cases run
      · next b entry =>
        simp only [bind_eq_ok, Except.ok.injEq] at run
        obtain ⟨-, -, rfl⟩ := run
        exact ⟨a, p, b, last.symm, here, entry, rfl⟩

theorem scheduling_eq (linked : k.Linked) (run : k.scheduling = .ok k') :
    ∃ k₁ k₂ k₃ a, Woken k k₁ ∧ Reaped k₁ k₂ ∧ k₂.processesTable k₂.activePID = some a ∧
      k₂.putBack a = .ok k₃ ∧ k₃.electNext = .ok k' := by
  simp only [scheduling, electProc, bind_eq_ok, active_eq_ok] at run
  obtain ⟨k₁, first, k₂, second, a, current, k₃, third, fourth⟩ := run
  have woken := wakeup_eq linked first
  exact ⟨k₁, k₂, k₃, a, woken, killProcesses_eq (woken.linked linked) second, current, third, fourth⟩

end Kernel

end IntelX86Kernel

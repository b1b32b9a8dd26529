import IntelX86Kernel.SchedulerCalls

/-! What each call of processManager.c can do up to its call to `scheduling`. -/

namespace IntelX86Kernel

namespace Kernel

variable {k k' : Kernel} {a b c : Addr} {p : Proc} {n : Next}

def join (k : Kernel) (elem parent : Addr) (placed : List Addr) : Kernel :=
  (k.setProc parent fun p => { p with childrenList := placed }).setProc elem
    fun p => { p with siblings := some parent }

theorem addSibling_eq {elem parent : Addr} (run : k.addSibling elem parent = .ok k') :
    ∃ p owner placed, k.procs elem = some p ∧ k.procs parent = some owner ∧
      p.siblings = none ∧ placed.Perm (elem :: owner.childrenList) ∧
      k' = k.join elem parent placed := by
  simp only [addSibling, bind_eq_ok, deref_eq_ok] at run
  obtain ⟨p, here, owner, there, run⟩ := run
  split at run
  · next unlinked =>
    simp only [bind_eq_ok, Except.ok.injEq] at run
    obtain ⟨placed, inserted, rfl⟩ := run
    have own : (k.procs elem).map Proc.priority = some p.priority := by simp [here]
    refine ⟨p, owner, placed, here, there, unlinked, ?_, rfl⟩
    rw [insertSorted_eq own inserted]
    exact List.perm_orderedInsert _ _ _
  · cases run

def dropSibling (k : Kernel) (elem parent : Addr) : Kernel :=
  (k.setProc parent fun p => { p with childrenList := p.childrenList.erase elem }).setProc elem
    fun p => { p with siblings := none }

theorem delSibling_eq {elem : Addr} (run : k.delSibling elem = .ok k') :
    ∃ p parent owner, k.procs elem = some p ∧ p.siblings = some parent ∧
      k.procs parent = some owner ∧ k' = k.dropSibling elem parent := by
  simp only [delSibling, bind_eq_ok, deref_eq_ok] at run
  obtain ⟨p, here, run⟩ := run
  cases siblings : p.siblings with
  | none => simp [siblings] at run
  | some parent =>
      simp only [siblings, bind_eq_ok, deref_eq_ok, Except.ok.injEq] at run
      obtain ⟨owner, there, -, -, -, -, rfl⟩ := run
      exact ⟨p, parent, owner, here, siblings, there, rfl⟩

def popSibling (k : Kernel) (elem parent : Addr) : Kernel :=
  (k.setProc parent fun p => { p with childrenList := p.childrenList.dropLast }).setProc elem
    fun p => { p with siblings := none }

theorem outSibling_eq {parent : Addr} {out : Option Addr}
    (run : k.outSibling parent = .ok (out, k')) :
    ∃ owner, k.procs parent = some owner ∧
      ((owner.childrenList = [] ∧ out = none ∧ k' = k) ∨
        (∃ elem p, owner.childrenList.getLast? = some elem ∧ k.procs elem = some p ∧
          out = some elem ∧ k' = k.popSibling elem parent)) := by
  simp only [outSibling, bind_eq_ok, deref_eq_ok] at run
  obtain ⟨owner, there, run⟩ := run
  refine ⟨owner, there, ?_⟩
  cases last : owner.childrenList.getLast? with
  | none =>
      simp only [last, Except.ok.injEq, Prod.mk.injEq] at run
      exact .inl ⟨List.getLast?_eq_none_iff.mp last, run.1.symm, run.2.symm⟩
  | some elem =>
      simp only [last, bind_eq_ok, deref_eq_ok, Except.ok.injEq, Prod.mk.injEq] at run
      obtain ⟨p, here, -, -, rfl, rfl⟩ := run
      exact .inr ⟨elem, p, rfl, here, rfl, rfl⟩

theorem dropSibling_procs {elem parent : Addr} : (k.dropSibling elem parent).procs b =
    (k.procs b).map fun p =>
      { p with
        childrenList := if b = parent then p.childrenList.erase elem else p.childrenList
        siblings := if b = elem then none else p.siblings } := by
  simp only [dropSibling, setProc_procs]
  by_cases first : b = elem
  · subst b
    by_cases second : elem = parent
    · subst second
      cases k.procs elem <;> simp
    · cases k.procs elem <;> simp [second]
  · by_cases second : b = parent
    · subst second
      cases k.procs b <;> simp [first]
    · cases k.procs b <;> simp [first, second]

theorem popSibling_procs {elem parent : Addr} : (k.popSibling elem parent).procs b =
    (k.procs b).map fun p =>
      { p with
        childrenList := if b = parent then p.childrenList.dropLast else p.childrenList
        siblings := if b = elem then none else p.siblings } := by
  simp only [popSibling, setProc_procs]
  by_cases first : b = elem
  · subst b
    by_cases second : elem = parent
    · subst second
      cases k.procs elem <;> simp
    · cases k.procs elem <;> simp [second]
  · by_cases second : b = parent
    · subst second
      cases k.procs b <;> simp [first]
    · cases k.procs b <;> simp [first, second]

theorem join_procs {elem parent : Addr} {placed : List Addr} :
    (k.join elem parent placed).procs b =
      (k.procs b).map fun p =>
        { p with
          childrenList := if b = parent then placed else p.childrenList
          siblings := if b = elem then some parent else p.siblings } := by
  simp only [join, setProc_procs]
  by_cases first : b = elem
  · subst b
    by_cases second : elem = parent
    · subst second
      cases k.procs elem <;> simp
    · cases k.procs elem <;> simp [second]
  · by_cases second : b = parent
    · subst second
      cases k.procs b <;> simp [first]
    · cases k.procs b <;> simp [first, second]

theorem dropSibling_unlink {elem parent : Addr} {s : Status} :
    ((k.setStatus elem s).unlink elem).dropSibling elem parent =
      ((k.dropSibling elem parent).setStatus elem s).unlink elem := by
  refine Kernel.ext rfl rfl (funext fun b => ?_) rfl rfl rfl rfl rfl rfl rfl rfl
  simp only [dropSibling_procs, unlink_procs, setStatus, setProc_procs]
  by_cases same : b = elem
  · subst b
    cases k.procs elem <;> simp
  · cases k.procs b <;> simp [same]

theorem Linked.popSibling (linked : k.Linked) {elem parent : Addr} :
    (k.popSibling elem parent).Linked := by
  refine Linked.setProc (Linked.setProc linked _ ?_) _ ?_ <;> exact fun _ => rfl

inductive Freed (parent : Addr) : Kernel → Kernel → Prop where
  | none {k : Kernel} {owner : Proc} (there : k.procs parent = some owner)
      (empty : owner.childrenList = []) : Freed parent k k
  | zombie {k k' : Kernel} {owner p : Proc} {c : Addr} {g : Head}
      (there : k.procs parent = some owner) (last : owner.childrenList.getLast? = some c)
      (here : k.procs c = some p) (ended : p.status = .zombie) (links : p.links = some g)
      (rest : Freed parent ((k.popSibling c parent).relink c .dying .dying) k') :
      Freed parent k k'
  | alive {k k' : Kernel} {owner p : Proc} {c : Addr}
      (there : k.procs parent = some owner) (last : owner.childrenList.getLast? = some c)
      (here : k.procs c = some p) (running : p.status ≠ .zombie)
      (rest : Freed parent ((k.popSibling c parent).setProc c
        fun p => { p with parent := k.processesTable 0 }) k') :
      Freed parent k k'

theorem freeChildrenLoop_eq {fuel : Nat} (linked : k.Linked)
    (run : freeChildrenLoop a fuel k = .ok k') : Freed a k k' := by
  induction fuel generalizing k with
  | zero => cases run
  | succ fuel ih =>
      simp only [freeChildrenLoop, bind_eq_ok, Prod.exists] at run
      obtain ⟨child, k₁, out, run⟩ := run
      obtain ⟨owner, there, found⟩ := outSibling_eq out
      rcases found with ⟨empty, rfl, rfl⟩ | ⟨c, p, last, here, rfl, rfl⟩
      · cases run
        exact .none there empty
      · simp only [freeChild, bind_eq_ok, deref_eq_ok] at run
        obtain ⟨k₂, ⟨p₁, found, run₁⟩, run₂⟩ := run
        have status : p₁.status = p.status := by
          rw [popSibling_procs, here, Option.map_some, Option.some.injEq] at found
          rw [← found]
        rw [status] at run₁
        split at run₁
        · next ended =>
          obtain ⟨⟨p₂, g, found', links⟩, rfl⟩ := requeue_relink linked.popSibling rfl run₁
          have same : p₂.links = p.links := by
            rw [popSibling_procs, here, Option.map_some, Option.some.injEq] at found'
            rw [← found']
          exact .zombie there last here ended (same ▸ links)
            (ih (linked.popSibling.relink found) run₂)
        · next running =>
          cases run₁
          exact .alive there last here running
            (ih (linked.popSibling.setProc _ fun _ => rfl) run₂)

theorem freeChildren_eq (linked : k.Linked) (run : k.freeChildren a = .ok k') :
    Freed a k k' := by
  simp only [freeChildren, bind_eq_ok, deref_eq_ok] at run
  obtain ⟨owner, there, run⟩ := run
  split at run
  · next empty =>
    cases run
    exact .none there empty
  · exact freeChildrenLoop_eq linked run

theorem Freed.linked (freed : Freed a k k') (linked : k.Linked) : k'.Linked := by
  induction freed with
  | none there empty => exact linked
  | zombie there last here ended links rest ih =>
      exact ih (linked.popSibling.relink (popSibling_procs.trans (congrArg _ here)))
  | alive there last here running rest ih => exact ih (linked.popSibling.setProc _ fun _ => rfl)

/-- What `exit` and `kill` look at to decide between ZOMBIE and DYING. -/
def ParentAlive (k : Kernel) (p : Proc) : Prop :=
  ∃ b parent, p.parent = some b ∧ k.procs b = some parent ∧ parent.pid ≠ 0

def ParentGone (k : Kernel) (p : Proc) : Prop :=
  ∀ b, p.parent = some b → ∃ parent, k.procs b = some parent ∧ parent.pid = 0

theorem ParentAlive.of_pids (alive : k'.ParentAlive p)
    (same : ∀ b, (k'.procs b).map Proc.pid = (k.procs b).map Proc.pid) : k.ParentAlive p := by
  obtain ⟨b, parent, owner, there, other⟩ := alive
  have pid : (k.procs b).map Proc.pid = some parent.pid := by rw [← same, there, Option.map_some]
  obtain ⟨parent', here, equal⟩ := Option.map_eq_some_iff.mp pid
  exact ⟨b, parent', owner, here, equal ▸ other⟩

theorem ParentGone.of_pids (gone : k'.ParentGone p)
    (same : ∀ b, (k'.procs b).map Proc.pid = (k.procs b).map Proc.pid) : k.ParentGone p := by
  intro b owner
  obtain ⟨parent, there, zero⟩ := gone b owner
  have pid : (k.procs b).map Proc.pid = some 0 := by rw [← same, there, Option.map_some, zero]
  exact Option.map_eq_some_iff.mp pid

theorem parentStillAlive_eq {alive : Bool} (run : k.parentStillAlive p = .ok alive) :
    (alive = true ∧ k.ParentAlive p) ∨ (alive = false ∧ k.ParentGone p) := by
  unfold parentStillAlive at run
  cases parent : p.parent with
  | none =>
      simp only [parent, Except.ok.injEq] at run
      exact .inr ⟨run.symm, fun b same => by simp [parent] at same⟩
  | some b =>
      simp only [parent, bind_eq_ok, deref_eq_ok, Except.ok.injEq] at run
      obtain ⟨owner, there, rfl⟩ := run
      by_cases zero : owner.pid = 0
      · refine .inr ⟨by simp [zero], fun c same => ?_⟩
        rw [parent, Option.some.injEq] at same
        exact ⟨owner, same ▸ there, zero⟩
      · exact .inl ⟨by simp [zero], b, owner, parent, there, zero⟩

theorem exit_eq {retval : Int} (linked : k.Linked) (run : k.exit retval = .ok (k', n)) :
    ∃ a p k₁ p₁, k.processesTable k.activePID = some a ∧ k.procs a = some p ∧
      Freed a (k.setProc a fun p => { p with retval := retval, killed := false }) k₁ ∧
      k₁.procs a = some p₁ ∧ p₁.links = none ∧ n = .suspend .exit ∧
      ((k₁.ParentGone p₁ ∧ k' = k₁.relink a .dying .dying) ∨
        (k₁.ParentAlive p₁ ∧ ∃ b parent, p₁.parent = some b ∧
          (k₁.relink a .zombie .zombie).procs b = some parent ∧
          ((parent.status ≠ .blocked ∧ k' = k₁.relink a .zombie .zombie) ∨
            (parent.status = .blocked ∧ (∃ g, parent.links = some g) ∧
              k' = (k₁.relink a .zombie .zombie).relink b .ready .ready)))) := by
  simp only [exit, bind_eq_ok, active_eq_ok, deref_eq_ok] at run
  obtain ⟨a, current, p, here, k₁, freed, p₁, found, alive, parent, run⟩ := run
  have base : (k.setProc a fun p => { p with retval := retval, killed := false }).Linked :=
    linked.setProc _ fun _ => rfl
  have effect := freeChildren_eq base freed
  have linked₁ := effect.linked base
  refine ⟨a, p, k₁, p₁, current, here, effect, found, ?_⟩
  rcases parentStillAlive_eq parent with ⟨rfl, alive⟩ | ⟨rfl, gone⟩
  · rw [if_pos rfl] at run
    simp only [bind_eq_ok, Except.ok.injEq, Prod.mk.injEq] at run
    obtain ⟨k₂, put, k₃, woken, rfl, rfl⟩ := run
    obtain ⟨⟨p₂, again, links⟩, rfl⟩ := enqueue_relink linked₁ rfl put
    rw [found, Option.some.injEq] at again
    subst p₂
    refine ⟨links, rfl, .inr ⟨alive, ?_⟩⟩
    unfold wakeParent at woken
    cases owner : p₁.parent with
    | none => simp [owner] at woken
    | some b =>
        simp only [owner, bind_eq_ok, deref_eq_ok] at woken
        obtain ⟨parent, there, woken⟩ := woken
        refine ⟨b, parent, rfl, there, ?_⟩
        split at woken
        · next blocked =>
          obtain ⟨⟨p₃, g, again, waiting⟩, rfl⟩ :=
            requeue_relink (linked₁.relink found) rfl woken
          rw [there, Option.some.injEq] at again
          subst p₃
          exact .inr ⟨blocked, ⟨g, waiting⟩, rfl⟩
        · next other =>
          cases woken
          exact .inl ⟨other, rfl⟩
  · rw [if_neg Bool.false_ne_true] at run
    simp only [bind_eq_ok, Except.ok.injEq, Prod.mk.injEq] at run
    obtain ⟨k₂, put, rfl, rfl⟩ := run
    obtain ⟨⟨p₂, again, links⟩, rfl⟩ := enqueue_relink linked₁ rfl put
    rw [found, Option.some.injEq] at again
    subst p₂
    exact ⟨links, rfl, .inl ⟨gone, rfl⟩⟩

theorem kill_eq {pid : Int} (linked : k.Linked) (run : k.kill pid = .ok (k', n)) :
    ((0 < pid → ∀ a p, k.processesTable pid.toNat = some a → k.procs a = some p →
        p.status = .zombie) ∧ k' = k ∧ n = .ret (-1) none) ∨
      ∃ a p, 0 < pid ∧ k.processesTable pid.toNat = some a ∧ k.procs a = some p ∧
        p.status ≠ .zombie ∧
        ((pid = k.activePID ∧
            (k.setProc a fun p => { p with killed := true }).exit 0 = .ok (k', n)) ∨
          (pid ≠ k.activePID ∧ (∃ g, p.links = some g) ∧ n = .suspend (.done 0 none) ∧
            ((k.ParentAlive p ∧ Freed a
                ((k.setProc a fun p => { p with killed := true }).relink a .zombie .zombie) k') ∨
              (k.ParentGone p ∧ Freed a
                ((k.setProc a fun p => { p with killed := true }).relink a .dying .dying)
                k')))) := by
  simp only [kill, bind_eq_ok, tableAt_eq_ok] at run
  obtain ⟨entry, ⟨-, slot⟩, run⟩ := run
  cases entry with
  | none =>
      simp only [Except.ok.injEq, Prod.mk.injEq] at run
      refine .inl ⟨fun _ a p entry => ?_, run.1.symm, run.2.symm⟩
      rw [slot] at entry
      cases entry
  | some a =>
      simp only [bind_eq_ok, deref_eq_ok] at run
      obtain ⟨p, here, run⟩ := run
      split at run
      · next refused =>
        simp only [Except.ok.injEq, Prod.mk.injEq] at run
        refine .inl ⟨fun positive b p' entry there => ?_, run.1.symm, run.2.symm⟩
        rw [slot, Option.some.injEq] at entry
        subst entry
        rw [here, Option.some.injEq] at there
        rw [← there]
        exact refused.resolve_left (Int.not_le.mpr positive)
      · next allowed =>
        simp only [not_or, not_le] at allowed
        refine .inr ⟨a, p, allowed.1, slot, here, allowed.2, ?_⟩
        split at run
        · next self => exact .inl ⟨self, run⟩
        · next other =>
          simp only [bind_eq_ok] at run
          obtain ⟨alive, parent, run⟩ := run
          have base : (k.setProc a fun p => { p with killed := true }).Linked :=
            linked.setProc _ fun _ => rfl
          have marked : (k.setProc a fun p => { p with killed := true }).procs a =
              some { p with killed := true } := setProc_here here
          have pids (b : Addr) : ((k.setProc a fun p => { p with killed := true }).procs b).map
              Proc.pid = (k.procs b).map Proc.pid := setProc_map _ _ fun _ => rfl
          rcases parentStillAlive_eq parent with ⟨rfl, alive⟩ | ⟨rfl, gone⟩
          · rw [if_pos rfl] at run
            simp only [bind_eq_ok, Except.ok.injEq, Prod.mk.injEq] at run
            obtain ⟨k₁, moved, k₂, freed, rfl, rfl⟩ := run
            obtain ⟨⟨p₁, g, again, links⟩, rfl⟩ := requeue_relink base rfl moved
            rw [marked, Option.some.injEq] at again
            subst p₁
            exact .inr ⟨other, ⟨g, links⟩, rfl, .inl ⟨alive.of_pids pids,
              freeChildren_eq (base.relink marked) freed⟩⟩
          · rw [if_neg Bool.false_ne_true] at run
            simp only [bind_eq_ok, Except.ok.injEq, Prod.mk.injEq] at run
            obtain ⟨k₁, moved, k₂, freed, rfl, rfl⟩ := run
            obtain ⟨⟨p₁, g, again, links⟩, rfl⟩ := requeue_relink base rfl moved
            rw [marked, Option.some.injEq] at again
            subst p₁
            exact .inr ⟨other, ⟨g, links⟩, rfl, .inr ⟨gone.of_pids pids,
              freeChildren_eq (base.relink marked) freed⟩⟩

theorem firstZombie_some {l : List Addr} (run : k.firstZombie l = .ok (some c)) :
    c ∈ l ∧ ∃ p, k.procs c = some p ∧ p.status = .zombie := by
  induction l with
  | nil => cases run
  | cons head tail ih =>
      simp only [firstZombie, bind_eq_ok, deref_eq_ok] at run
      obtain ⟨p, here, run⟩ := run
      split at run
      · next ended =>
        cases run
        exact ⟨by simp, p, here, ended⟩
      · obtain ⟨member, found⟩ := ih run
        exact ⟨List.mem_cons_of_mem _ member, found⟩

theorem firstZombie_none {l : List Addr} (run : k.firstZombie l = .ok none) :
    ∀ c ∈ l, ∃ p, k.procs c = some p ∧ p.status ≠ .zombie := by
  induction l with
  | nil => simp
  | cons head tail ih =>
      simp only [firstZombie, bind_eq_ok, deref_eq_ok] at run
      obtain ⟨p, here, run⟩ := run
      split at run
      · cases run
      · next running =>
        intro c member
        rcases List.mem_cons.mp member with rfl | member
        · exact ⟨p, here, running⟩
        · exact ih run c member

def reported (p : Proc) (retvalp : Bool) : Option Int :=
  if retvalp then some (if p.killed then 0 else p.retval) else none

theorem collect_eq {child : Addr} {retvalp : Bool} (linked : k.Linked)
    (run : k.collect child retvalp = .ok (k', n)) :
    ∃ p g parent owner, k.procs child = some p ∧ p.links = some g ∧
      p.siblings = some parent ∧ k.procs parent = some owner ∧
      k' = (k.dropSibling child parent).relink child .dying .dying ∧
      n = .ret p.pid (reported p retvalp) := by
  simp only [collect, bind_eq_ok, deref_eq_ok, Except.ok.injEq, Prod.mk.injEq] at run
  obtain ⟨p, here, k₁, del, k₂, out, k₃, add, rfl, rfl⟩ := run
  obtain ⟨⟨p₁, g, found, links⟩, rfl⟩ := queueDel_unlink linked.setStatus del
  obtain ⟨p₂, parent, owner₂, found₂, siblings, there, rfl⟩ := delSibling_eq out
  obtain ⟨-, rfl⟩ := queueAdd_link (h := .dying) add
  rw [setStatus, setProc_procs, if_pos rfl, here, Option.map_some, Option.some.injEq] at found
  rw [unlink_procs, if_pos rfl, setStatus, setProc_procs, if_pos rfl, here, Option.map_some,
    Option.map_some, Option.some.injEq] at found₂
  have owner : ∃ owner, k.procs parent = some owner := by
    have some : ((k.setStatus child .dying).unlink child).procs parent ≠ none := by simp [there]
    simp only [unlink_procs, setStatus, setProc_procs] at some
    by_cases same : parent = child
    · exact ⟨p, same ▸ here⟩
    · rw [if_neg same, if_neg same] at some
      exact Option.ne_none_iff_exists'.mp some
  obtain ⟨owner, there⟩ := owner
  subst found found₂
  refine ⟨p, g, parent, owner, here, links, siblings, there, ?_, rfl⟩
  rw [dropSibling_unlink, ← relink_eq]

theorem blockWaiting_eq {context : Frame} (linked : k.Linked)
    (run : k.blockWaiting context = .ok (k', n)) :
    ∃ a p, k.processesTable k.activePID = some a ∧ k.procs a = some p ∧ p.links = none ∧
      k' = k.relink a .blocked .blocked ∧ n = .suspend context := by
  simp only [blockWaiting, bind_eq_ok, active_eq_ok, Except.ok.injEq, Prod.mk.injEq] at run
  obtain ⟨a, current, k₁, put, rfl, rfl⟩ := run
  obtain ⟨⟨p, here, links⟩, rfl⟩ := enqueue_relink linked rfl put
  exact ⟨a, p, current, here, links, rfl, rfl⟩

theorem waitpidLoop_eq {pid : Nat} {child : Addr} {retvalp : Bool}
    (run : k.waitpidLoop pid child retvalp = .ok (k', n)) :
    ∃ p, k.procs child = some p ∧
      ((p.status = .zombie ∧ k.collect child retvalp = .ok (k', n)) ∨
        (p.status ≠ .zombie ∧
          k.blockWaiting (.waitpid pid child retvalp) = .ok (k', n))) := by
  simp only [waitpidLoop, bind_eq_ok, deref_eq_ok] at run
  obtain ⟨p, here, run⟩ := run
  refine ⟨p, here, ?_⟩
  split at run
  · next ended => exact .inl ⟨ended, run⟩
  · next running => exact .inr ⟨running, run⟩

theorem waitForChild_eq {retvalp : Bool} (run : k.waitForChild retvalp = .ok (k', n)) :
    ∃ a p, k.processesTable k.activePID = some a ∧ k.procs a = some p ∧
      ((p.childrenList = [] ∧ k' = k ∧ n = .ret (-1) none) ∨
        (∃ c, k.firstZombie p.childrenList = .ok (some c) ∧
          k.collect c retvalp = .ok (k', n)) ∨
        (p.childrenList ≠ [] ∧ k.firstZombie p.childrenList = .ok none ∧
          k.blockWaiting (.waitForChild retvalp) = .ok (k', n))) := by
  simp only [waitForChild, bind_eq_ok, active_eq_ok, deref_eq_ok] at run
  obtain ⟨a, current, p, here, run⟩ := run
  refine ⟨a, p, current, here, ?_⟩
  split at run
  · next childless =>
    simp only [Except.ok.injEq, Prod.mk.injEq] at run
    exact .inl ⟨childless, run.1.symm, run.2.symm⟩
  · next children =>
    simp only [bind_eq_ok] at run
    obtain ⟨child, search, run⟩ := run
    cases child with
    | none => exact .inr (.inr ⟨children, search, run⟩)
    | some c => exact .inr (.inl ⟨c, search, run⟩)

theorem waitForChildResumed_eq {retvalp : Bool}
    (run : k.waitForChildResumed retvalp = .ok (k', n)) :
    ∃ a p, k.processesTable k.activePID = some a ∧ k.procs a = some p ∧
      ((∃ c, k.firstZombie p.childrenList = .ok (some c) ∧
          k.collect c retvalp = .ok (k', n)) ∨
        (k.firstZombie p.childrenList = .ok none ∧ k' = k ∧ n = .ret (-1) none)) := by
  simp only [waitForChildResumed, bind_eq_ok, active_eq_ok, deref_eq_ok] at run
  obtain ⟨a, current, p, here, child, search, run⟩ := run
  refine ⟨a, p, current, here, ?_⟩
  cases child with
  | none =>
      simp only [Except.ok.injEq, Prod.mk.injEq] at run
      exact .inr ⟨search, run.1.symm, run.2.symm⟩
  | some c => exact .inl ⟨c, search, run⟩

theorem waitpid_eq {pid : Int} {retvalp : Bool} (run : k.waitpid pid retvalp = .ok (k', n)) :
    (pid < 0 ∧ k.waitForChild retvalp = .ok (k', n)) ∨
      (0 ≤ pid ∧ k' = k ∧ n = .ret (-1) none) ∨
      (∃ child p a parent, 0 ≤ pid ∧ pid < MAXNPROC ∧
        k.processesTable pid.toNat = some child ∧ k.procs child = some p ∧
        k.processesTable k.activePID = some a ∧ k.procs a = some parent ∧
        k.anyPid p.pid parent.childrenList = .ok true ∧
        k.waitpidLoop pid.toNat child retvalp = .ok (k', n)) := by
  unfold waitpid at run
  split at run
  · next negative => exact .inl ⟨negative, run⟩
  · next given =>
    simp only [bind_eq_ok, tableAt_eq_ok] at run
    obtain ⟨entry, ⟨⟨low, high⟩, slot⟩, run⟩ := run
    cases entry with
    | none =>
        simp only [Except.ok.injEq, Prod.mk.injEq] at run
        exact .inr (.inl ⟨low, run.1.symm, run.2.symm⟩)
    | some child =>
        simp only [bind_eq_ok, active_eq_ok, deref_eq_ok] at run
        obtain ⟨p, here, a, current, parent, there, listed, search, run⟩ := run
        split at run
        · next found =>
          subst found
          exact .inr (.inr ⟨child, p, a, parent, low, high, slot, here, current, there, search,
            run⟩)
        · simp only [Except.ok.injEq, Prod.mk.injEq] at run
          exact .inr (.inl ⟨low, run.1.symm, run.2.symm⟩)

theorem waitClock_eq {clock : Nat} (linked : k.Linked)
    (run : k.waitClock clock = .ok (k', n)) :
    ∃ a p, k.processesTable k.activePID = some a ∧ k.procs a = some p ∧ p.links = none ∧
      k' = (k.setProc a fun p => { p with wakeUpTime := clock % 2 ^ 32 }).relink a
        .asleep .asleep ∧ n = .suspend (.done 0 none) := by
  simp only [waitClock, bind_eq_ok, active_eq_ok, Except.ok.injEq, Prod.mk.injEq] at run
  obtain ⟨a, current, k₁, add, rfl, rfl⟩ := run
  obtain ⟨⟨p₁, found, links⟩, rfl⟩ := queueAdd_link (h := .asleep) add
  have base : (k.setProc a fun p =>
      { p with wakeUpTime := clock % 2 ^ 32, status := .asleep }).Linked :=
    linked.setProc _ fun _ => rfl
  have alone := unlink_self base found links
  rw [setProc_procs, if_pos rfl] at found
  obtain ⟨p, here, rfl⟩ := Option.map_eq_some_iff.mp found
  refine ⟨a, p, current, here, links, ?_, rfl⟩
  rw [relink_eq, setStatus, setProc_setProc, alone]

theorem getprio_eq {pid prio : Int} (run : k.getprio pid = .ok prio) :
    prio = -1 ∨ ∃ a p, k.processesTable pid.toNat = some a ∧ k.procs a = some p ∧
      prio = toSigned p.priority := by
  unfold getprio at run
  split at run
  · exact .inl (Except.ok.inj run).symm
  · simp only [bind_eq_ok, tableAt_eq_ok] at run
    obtain ⟨entry, ⟨-, slot⟩, run⟩ := run
    cases entry with
    | none => exact .inl (Except.ok.inj run).symm
    | some a =>
        simp only [bind_eq_ok, deref_eq_ok, Except.ok.injEq] at run
        obtain ⟨p, here, rfl⟩ := run
        exact .inr ⟨a, p, slot, here, rfl⟩

theorem resortInQueues_eq {pid : Nat} {fids : List Nat} (linked : k.Linked)
    (run : k.resortInQueues a pid fids = .ok k') :
    (k' = k ∧ ∀ i ∈ fids, ∀ q, k.queues i = some q →
        ∀ b ∈ k.lists (.queue q), ∃ p, k.procs b = some p ∧ p.pid ≠ pid) ∨
      ∃ i q, k.queues i = some q ∧ (∃ mq, k.records q = some mq) ∧
        (∃ b ∈ k.lists (.queue q), ∃ p, k.procs b = some p ∧ p.pid = pid) ∧
        ∃ p g, k.procs a = some p ∧ p.links = some g ∧
          k' = k.relink a p.status (.queue q) := by
  induction fids with
  | nil =>
      cases run
      exact .inl ⟨rfl, by simp⟩
  | cons i rest ih =>
      simp only [resortInQueues] at run
      cases slot : k.queues i with
      | none =>
          simp only [slot] at run
          rcases ih run with ⟨same, absent⟩ | found
          · refine .inl ⟨same, fun j member q entry => ?_⟩
            rcases List.mem_cons.mp member with rfl | member
            · simp [slot] at entry
            · exact absent j member q entry
          · exact .inr found
      | some q =>
          simp only [slot, bind_eq_ok, record_eq_ok] at run
          obtain ⟨mq, held, listed, search, run⟩ := run
          split at run
          · next found =>
            subst found
            obtain ⟨p, g, here, links, moved⟩ := resort_relink linked rfl run
            exact .inr ⟨i, q, slot, ⟨mq, held⟩, anyPid_true search, p, g, here, links, moved⟩
          · next missing =>
            have missed : listed = false := by simpa using missing
            subst missed
            rcases ih run with ⟨same, absent⟩ | found
            · refine .inl ⟨same, fun j member q' entry => ?_⟩
              rcases List.mem_cons.mp member with rfl | member
              · rw [slot, Option.some.injEq] at entry
                subst q'
                exact anyPid_false search
              · exact absent j member q' entry
            · exact .inr found

theorem reorder_eq {p₁ : Proc} (linked : k.Linked) (here : k.procs a = some p₁)
    (status : p₁.status = p.status) (run : k.reorder a p = .ok k') :
    (∃ h, (p.status = .ready ∧ h = .ready ∨ p.status = .blocked ∧ h = .blocked ∨
        p.status = .blockedMessageQueue ∧ ∃ i q, k.queues i = some q ∧ h = .queue q ∧
          (∃ mq, k.records q = some mq) ∧
          ∃ b ∈ k.lists h, ∃ p', k.procs b = some p' ∧ p'.pid = p.pid) ∧
        (∃ g, p₁.links = some g) ∧ k' = k.relink a p.status h) ∨
      (p.status ≠ .ready ∧ p.status ≠ .blocked ∧ k' = k ∧
        (p.status = .blockedMessageQueue → ∀ i < NBQUEUE, ∀ q, k.queues i = some q →
          ∀ b ∈ k.lists (.queue q), ∃ p', k.procs b = some p' ∧ p'.pid ≠ p.pid)) := by
  have moved {h : Head} (sorted : h.field = Proc.priority) (run : k.resort a h = .ok k') :
      (∃ g, p₁.links = some g) ∧ k' = k.relink a p.status h := by
    obtain ⟨p₂, g, found, links, rfl⟩ := resort_relink linked sorted run
    rw [here, Option.some.injEq] at found
    subst p₂
    exact ⟨⟨g, links⟩, by rw [status]⟩
  unfold reorder at run
  cases old : p.status with
  | ready =>
      simp only [old] at run moved
      exact .inl ⟨.ready, .inl ⟨rfl, rfl⟩, moved rfl run⟩
  | blocked =>
      simp only [old] at run moved
      exact .inl ⟨.blocked, .inr (.inl ⟨rfl, rfl⟩), moved rfl run⟩
  | blockedMessageQueue =>
      simp only [old] at run moved
      rcases resortInQueues_eq linked run with
        ⟨same, absent⟩ | ⟨i, q, slot, held, waiting, p₂, g, found, links, rfl⟩
      · refine .inr ⟨by simp, by simp, same, fun _ i small q slot => ?_⟩
        exact absent i (List.mem_range.mpr small) q slot
      · rw [here, Option.some.injEq] at found
        subst p₂
        rw [status, old]
        exact .inl ⟨.queue q, .inr (.inr ⟨rfl, i, q, slot, rfl, held, waiting⟩), ⟨g, links⟩,
          rfl⟩
  | elected | asleep | dying | zombie =>
      simp only [old, Except.ok.injEq] at run
      exact .inr ⟨by simp, by simp, run.symm, by simp⟩

theorem chprio_eq {pid newprio : Int} (run : k.chprio pid newprio = .ok (k', n)) :
    (k' = k ∧ n = .ret (-1) none) ∨
      ∃ a p, k.processesTable pid.toNat = some a ∧ k.procs a = some p ∧ p.status ≠ .zombie ∧
        (k.setProc a fun p => { p with priority := toUnsigned newprio }).reorder a p = .ok k' ∧
        n = .suspend (.done (toSigned p.priority) none) := by
  simp only [chprio, bind_eq_ok] at run
  obtain ⟨oldprio, got, run⟩ := run
  split at run
  · simp only [Except.ok.injEq, Prod.mk.injEq] at run
    exact .inl ⟨run.1.symm, run.2.symm⟩
  · next accepted =>
    simp only [bind_eq_ok, tableAt_eq_ok] at run
    obtain ⟨entry, ⟨-, slot⟩, run⟩ := run
    cases entry with
    | none => cases run
    | some a =>
        simp only [bind_eq_ok, deref_eq_ok] at run
        obtain ⟨p, here, run⟩ := run
        split at run
        · simp only [Except.ok.injEq, Prod.mk.injEq] at run
          exact .inl ⟨run.1.symm, run.2.symm⟩
        · next running =>
          simp only [bind_eq_ok, Except.ok.injEq, Prod.mk.injEq] at run
          obtain ⟨k₁, moved, rfl, rfl⟩ := run
          refine .inr ⟨a, p, slot, here, running, moved, ?_⟩
          rcases getprio_eq got with refused | ⟨a', p', slot', here', value⟩
          · simp [refused] at accepted
          · rw [slot, Option.some.injEq] at slot'
            subst a'
            rw [here, Option.some.injEq] at here'
            rw [value, here']

/-- What `reorder` finds: the lists as they were, and the process with its new priority. -/
theorem chprio_stored (newprio : Int) (linked : k.Linked) (here : k.procs a = some p) :
    (k.setProc a fun p => { p with priority := toUnsigned newprio }).Linked ∧
      (k.setProc a fun p => { p with priority := toUnsigned newprio }).procs a =
        some { p with priority := toUnsigned newprio } :=
  ⟨linked.setProc _ fun _ => rfl, setProc_here here⟩

def created (k : Kernel) (pid stackSize : Nat) (prio : Int) (name : List UInt8) : Proc :=
  { Proc.zeroed with
    pid := pid
    name := name
    status := if pid = 0 then .elected else .ready
    stack := k.nextBlock + 1
    stackSize := stackSize
    priority := toUnsigned prio
    parent := k.getParentProc }

/-- Block `k.nextBlock` becomes process `p`, with its table entry and its stack. -/
def born (k : Kernel) (pid : Nat) (p : Proc) (heap : Addr → Option Nat) : Kernel :=
  { k with
    heap := heap
    nextBlock := k.nextBlock + 2
    procs := Function.update k.procs k.nextBlock (some p)
    processesTable := Function.update k.processesTable pid (some k.nextBlock) }

theorem born_procs {pid : Nat} {heap : Addr → Option Nat} : (k.born pid p heap).procs b =
    if b = k.nextBlock then some p else k.procs b := by
  simp only [born, Function.update_apply]

/-- The parent of the new process is the running one, also once the table has changed. -/
theorem getParentProc_born {pid : Nat} {entry : Option Addr}
    (free : k.processesTable pid = none)
    (running : k.nbProc ≠ 0 → k.processesTable k.activePID ≠ none)
    (table : k'.processesTable = Function.update k.processesTable pid entry)
    (activePID : k'.activePID = k.activePID) (nbProc : k'.nbProc = k.nbProc) :
    k'.getParentProc = k.getParentProc := by
  unfold getParentProc
  rw [nbProc, table, activePID]
  split
  · rfl
  · next others =>
    refine Function.update_of_ne (fun same => ?_) _ _
    exact running others (same ▸ free)

theorem getNewPid_eq {pid : Nat} (run : k.getNewPid = some pid) :
    pid < MAXNPROC ∧ k.processesTable pid = none := by
  have member := List.mem_of_find?_eq_some run
  have free := List.find?_some run
  exact ⟨List.mem_range.mp member, by simpa using free⟩

theorem startReturn_eq {pid : Nat} (run : k.startReturn pid = .ok (k', n)) :
    ∃ a p, k.processesTable pid = some a ∧ k.procs a = some p ∧ k' = k ∧
      n = .ret p.pid none := by
  unfold startReturn at run
  cases slot : k.processesTable pid with
  | none => simp [slot] at run
  | some a =>
      simp only [slot, bind_eq_ok, deref_eq_ok, Except.ok.injEq, Prod.mk.injEq] at run
      obtain ⟨p, here, rfl, rfl⟩ := run
      exact ⟨a, p, rfl, here, rfl, rfl⟩

/-- A failed `start` gives back what it took: only the allocator has moved on. -/
theorem throwStartError_eq {pid : Nat} {heap : Addr → Option Nat} {next : Nat}
    (free : k.processesTable pid = none) (fresh : k.procs k.nextBlock = none)
    (kept : ∀ b < k.nextBlock, heap b = k.heap b)
    (run : ({ k with heap := heap, nextBlock := next,
                     procs := Function.update k.procs k.nextBlock (some Proc.zeroed),
                     processesTable := Function.update k.processesTable pid
                       (some k.nextBlock) } : Kernel).throwStartError pid k.nextBlock =
      .ok (k', n)) :
    ∃ heap, k' = { k with heap := heap, nextBlock := next } ∧
      (∀ b < k.nextBlock, heap b = k.heap b) ∧ n = .ret (-1) none := by
  simp only [throwStartError, bind_eq_ok, Except.ok.injEq, Prod.mk.injEq] at run
  obtain ⟨k₁, freed, rfl, rfl⟩ := run
  obtain ⟨heap', rfl, others⟩ := memFree_eq freed
  refine ⟨heap', Kernel.ext rfl rfl ?_ rfl rfl ?_ rfl rfl rfl rfl rfl, fun b old => ?_, rfl⟩
  · simp only [setTable, Function.update_idem]
    rw [← fresh, Function.update_eq_self]
  · simp only [setTable, Function.update_idem]
    rw [← free, Function.update_eq_self]
  · rw [others b (Nat.ne_of_lt old)]
    exact kept b old

def counted (k : Kernel) : Kernel :=
  { k with nbProc := (k.nbProc + 1) % 2 ^ 32 }

def Yielded (k : Kernel) (a : Addr) (pid : Nat) (k' : Kernel) (n : Next) : Prop :=
  ∃ current p running, k.processesTable k.activePID = some current ∧ k.procs a = some p ∧
    k.procs current = some running ∧
    ((running.priority < p.priority ∧ k' = k ∧ n = .suspend (.start pid)) ∨
      (p.priority ≤ running.priority ∧ k.startReturn pid = .ok (k', n)))

theorem startLinked_eq {k₀ : Kernel} {pid : Nat} (run : k.startLinked a pid = .ok (k', n))
    (base : k₀ = k.setProc a fun p => { p with childrenList := [], parent := k.getParentProc }) :
    ∃ k₁, (k₁.link a .ready).counted.Yielded a pid k' n ∧
      ((k.nbProc = 0 ∧ k₁ = k₀) ∨
        ∃ b owner placed, k.nbProc ≠ 0 ∧ k.getParentProc = some b ∧ k₀.procs b = some owner ∧
          placed.Perm (a :: owner.childrenList) ∧ k₁ = k₀.join a b placed) := by
  simp only [startLinked, bind_eq_ok, active_eq_ok, deref_eq_ok] at run
  obtain ⟨k₁, filiation, k₂, put, current, entry, p₁, found, running, there, run⟩ := run
  obtain ⟨-, rfl⟩ := queueAdd_link (h := .ready) put
  have yielded : (k₁.link a .ready).counted.Yielded a pid k' n := by
    refine ⟨current, p₁, running, entry, found, there, ?_⟩
    split at run
    · next higher =>
      simp only [Except.ok.injEq, Prod.mk.injEq] at run
      exact .inl ⟨higher, run.1.symm, run.2.symm⟩
    · next lower => exact .inr ⟨Nat.not_lt.mp lower, run⟩
  unfold filiationManager at filiation
  dsimp only at filiation
  subst base
  refine ⟨k₁, yielded, ?_⟩
  split at filiation
  · next first =>
    cases filiation
    exact .inl ⟨first, rfl⟩
  · next others =>
    cases owner : k.getParentProc with
    | none => simp [owner] at filiation
    | some b =>
        simp only [owner] at filiation
        obtain ⟨p₂, parent, placed, -, held, -, perm, rfl⟩ := addSibling_eq filiation
        exact .inr ⟨b, parent, placed, others, rfl, held, perm, rfl⟩

theorem initProc_eq {pid stack stackSize : Nat} {prio : Int} {name : List UInt8}
    (run : k.initProc a pid stack stackSize prio name = .ok k') :
    k' = k.setProc a fun p =>
      { p with
        status := if pid = 0 then .elected else .ready
        pid := pid
        name := name
        priority := toUnsigned prio
        wakeUpTime := 0
        stack := stack
        stackSize := stackSize
        context := .user } := by
  unfold initProc at run
  split at run
  · cases run
  · split at run
    · cases run
    · split at run
      · cases run
      · exact (Except.ok.inj run).symm

/-- Either nothing but the allocator has changed, or a new process has joined. -/
theorem start_eq {ssize : Nat} {prio : Int} {name : List UInt8} {procGranted stackGranted : Bool}
    (fresh : k.procs k.nextBlock = none)
    (running : k.nbProc ≠ 0 → k.processesTable k.activePID ≠ none)
    (run : k.start ssize prio name procGranted stackGranted = .ok (k', n)) :
    (∃ heap next, k.nextBlock ≤ next ∧ (∀ b < k.nextBlock, heap b = k.heap b) ∧
        k' = { k with heap := heap, nextBlock := next } ∧ n = .ret (-1) none) ∨
      ∃ pid stackSize heap k₁, k.getNewPid = some pid ∧
        (∀ b < k.nextBlock, heap b = k.heap b) ∧ heap k.nextBlock = some sizeofProc ∧
        (k₁.link k.nextBlock .ready).counted.Yielded k.nextBlock pid k' n ∧
        ((k.nbProc = 0 ∧ k₁ = k.born pid (k.created pid stackSize prio name) heap) ∨
          ∃ b owner placed, k.nbProc ≠ 0 ∧ k.processesTable k.activePID = some b ∧
            (k.born pid (k.created pid stackSize prio name) heap).procs b = some owner ∧
            placed.Perm (k.nextBlock :: owner.childrenList) ∧
            k₁ = (k.born pid (k.created pid stackSize prio name) heap).join
              k.nextBlock b placed) := by
  unfold start at run
  cases newPid : k.getNewPid with
  | none =>
      simp only [newPid, Except.ok.injEq, Prod.mk.injEq] at run
      exact .inl ⟨k.heap, k.nextBlock, le_rfl, fun _ _ => rfl, run.1.symm, run.2.symm⟩
  | some pid =>
      obtain ⟨-, free⟩ := getNewPid_eq newPid
      cases first : k.memAlloc procGranted sizeofProc with
      | none =>
          simp only [newPid, first, Except.ok.injEq, Prod.mk.injEq] at run
          exact .inl ⟨k.heap, k.nextBlock, le_rfl, fun _ _ => rfl, run.1.symm, run.2.symm⟩
      | some block =>
          obtain ⟨k₁, a⟩ := block
          obtain ⟨rfl, -, rfl⟩ := memAlloc_eq first
          simp only [newPid, first] at run
          have kept₁ (b : Addr) (old : b < k.nextBlock) :
              Function.update k.heap k.nextBlock (some sizeofProc) b = k.heap b :=
            Function.update_of_ne (Nat.ne_of_lt old) _ _
          split at run
          · obtain ⟨heap, same, kept, ended⟩ := throwStartError_eq free fresh kept₁ run
            exact .inl ⟨heap, _, Nat.le_succ _, kept, same, ended⟩
          · split at run
            · obtain ⟨heap, same, kept, ended⟩ := throwStartError_eq free fresh kept₁ run
              exact .inl ⟨heap, _, Nat.le_succ _, kept, same, ended⟩
            · next k₂ stack second =>
              obtain ⟨rfl, -, rfl⟩ := memAlloc_eq second
              simp only [bind_eq_ok] at run
              obtain ⟨k₃, filled, run⟩ := run
              have same := initProc_eq filled
              have parent : k₃.getParentProc = k.getParentProc := by
                subst same
                exact getParentProc_born free running rfl rfl rfl
              have complete : k.born pid
                  (k.created pid (max (ssize + MIN_SSIZE) DEFAULT_SSIZE) prio name) k₃.heap =
                  k₃.setProc k.nextBlock fun p =>
                    { p with childrenList := [], parent := k₃.getParentProc } := by
                rw [parent, same]
                refine Kernel.ext rfl rfl ?_ rfl rfl rfl rfl rfl rfl rfl rfl
                simp only [born, setProc, Function.update_self, Function.update_idem,
                  Option.map_some]
                rfl
              have kept (b : Addr) (old : b < k.nextBlock) : k₃.heap b = k.heap b := by
                rw [same]
                exact (Function.update_of_ne (Nat.ne_of_lt (Nat.lt_succ_of_lt old)) _ _).trans
                  (kept₁ b old)
              have own : k₃.heap k.nextBlock = some sizeofProc := by
                rw [same]
                exact (Function.update_of_ne (Nat.ne_of_lt (Nat.lt_succ_self _)) _ _).trans
                  (Function.update_self _ _ _)
              obtain ⟨k₁, yielded, joined⟩ := startLinked_eq run complete
              refine .inr ⟨pid, max (ssize + MIN_SSIZE) DEFAULT_SSIZE, k₃.heap, k₁, rfl, kept,
                own, yielded, ?_⟩
              have count : k₃.nbProc = k.nbProc := by rw [same]; rfl
              rw [count, parent] at joined
              rcases joined with ⟨first, eq⟩ | ⟨b, owner, placed, others, entry, there, perm, eq⟩
              · exact .inl ⟨first, eq⟩
              · rw [getParentProc, if_neg others] at entry
                exact .inr ⟨b, owner, placed, others, entry, there, perm, eq⟩

end Kernel

end IntelX86Kernel

import IntelX86Kernel.Allocation
import IntelX86Kernel.Forest
import IntelX86Kernel.Tree

/-! The lists of children, and `pstree` that follows them from process 0. -/

namespace IntelX86Kernel

open Transition

def Proc.terminated (p : Proc) : Bool := decide (p.status = .zombie ∨ p.status = .dying)

theorem Proc.living_iff {p : Proc} : p.member.Living ↔ p.terminated = false := by
  rw [Member.Living, Proc.terminated, decide_eq_false_iff_not]
  cases status : p.status <;> simp [Proc.member, Status.phase, status]

namespace Kernel

variable {k k' : Kernel} {a b c : Addr} {p : Proc} {m mc : Member} {e : Event} {n : Next}

/-- The process a call is about to end. -/
def ended (k : Kernel) : Event → Option Addr
  | .call (.exit _) => k.processesTable k.activePID
  | .call (.kill pid) =>
      if 0 < pid then
        (k.processesTable pid.toNat).filter fun c =>
          decide ((k.procs c).map Proc.status ≠ some .zombie)
      else none
  | _ => none

def endsIdleChild (k : Kernel) (e : Event) : Bool :=
  (k.ended e).any fun c => (k.processesTable 0).any fun z => decide (c ∈ k.childrenOf z)

/-- The event ends a process with a child that has not terminated. -/
def endsParent (k : Kernel) (e : Event) : Bool :=
  (k.ended e).any fun b => (k.childrenOf b).any fun c =>
    (k.procs c).any fun p => !p.terminated

/-- The event is a `kill` that makes a DYING process a ZOMBIE. -/
def revives (k : Kernel) : Event → Bool
  | .call (.kill pid) => decide (0 < pid) &&
      ((k.processesTable pid.toNat).bind k.procs).any fun p =>
        decide (p.status = .dying) && decide ((k.parentStillAlive p).toOption = some true)
  | _ => false

theorem parentStillAlive_alive (alive : k.family.ParentAlive p.member) :
    k.parentStillAlive p = .ok true := by
  obtain ⟨b, parent, owner, there, other⟩ := alive
  obtain ⟨pb, held, rfl⟩ := of_family there
  have found : k.deref b = .ok pb := deref_eq_ok.mpr held
  rw [parentStillAlive, show p.parent = some b from owner]
  dsimp only
  rw [found]
  exact congrArg Except.ok (decide_eq_true other)

theorem ended_eq (consistent : k.Consistent) (current : k.processesTable k.activePID = some a)
    (here : k.family a = some m) (alive : m.phase = .alive) (there : k.family c = some mc)
    (ends : EndOf a m e c mc) : k.ended e = some c := by
  have killed (pid : Int) (positive : 0 < pid) (b : Addr) (p : Proc) (held : k.procs b = some p)
      (named : p.pid = pid.toNat) (running : p.status ≠ .zombie) :
      k.ended (.call (.kill pid)) = some b := by
    have slot := consistent.owned b p held
    rw [named] at slot
    simp only [ended, if_pos positive, slot, Option.filter_some, held, Option.map_some, ne_eq,
      Option.some.injEq, running, not_false_eq_true, decide_true, if_true]
  rcases ends with ⟨rfl, value, rfl | ⟨pid, rfl, positive, named, -⟩⟩ |
    ⟨pid, rfl, positive, named, running⟩
  · exact current
  · obtain ⟨p, held, rfl⟩ := of_family here
    refine killed pid positive _ p held ?_ ?_
    · change pid = (p.pid : Int) at named
      omega
    · intro zombie
      have ended := Status.phase_zombie.mpr zombie
      exact (Member.Living.not_zombie (.inl alive)) ended
  · obtain ⟨p, held, rfl⟩ := of_family there
    exact killed pid positive _ p held named (mt Status.phase_zombie.mpr running)

/-- Every child in a list is still there, knows its parent, and no traversal fails. -/
structure ChildrenLive (k : Kernel) : Prop where
  live : ∀ b p c, k.procs b = some p → c ∈ p.childrenList → ∃ pc, k.procs c = some pc ∧
    k.heap c = some sizeofProc ∧ k.processesTable pc.pid = some c ∧ pc.parent = some b
  placed : ∀ b p, k.procs b = some p → ∀ (field : Proc → Nat) (elem : Addr) (prio : Nat),
    ∃ l, insertSorted (fun a => (k.procs a).map field) elem prio p.childrenList = .ok l
  searched : ∀ b p, k.procs b = some p → ∀ pid, ∃ listed, k.anyPid pid p.childrenList = .ok listed
  printed : ∀ b p, k.procs b = some p → ∀ depth level, k.nextBlock ≤ b + depth →
    ∃ lines, k.psHierarchy depth b level = .ok lines

/-- Every process but process 0 that has not terminated is linked once in the list of a
living parent. -/
def Parented (k : Kernel) : Prop :=
  ∀ c p, k.procs c = some p → p.terminated = false → 0 < p.pid →
    ∃ b parent, p.parent = some b ∧ k.procs b = some parent ∧
      k.processesTable parent.pid = some b ∧ parent.terminated = false ∧
      parent.childrenList.count c = 1

/-- `pstree` prints every process that has not terminated once. -/
def Printed (k : Kernel) : Prop :=
  ∃ lines, k.pstree = .ok lines ∧ ∀ c p, k.procs c = some p → p.terminated = false →
    (lines.map Line.pid).count p.pid = 1

/-- Every ZOMBIE is in the list of a living parent that can wait for it, and the DYING
are in the list of those to be freed. -/
structure Reapable (k : Kernel) : Prop where
  zombies : ∀ c p, k.procs c = some p → p.status = .zombie →
    ∃ b parent, p.parent = some b ∧ k.procs b = some parent ∧
      k.processesTable parent.pid = some b ∧ parent.terminated = false ∧ 0 < parent.pid ∧
      c ∈ parent.childrenList
  collected : ∀ c p b, k.procs c = some p → p.status = .zombie → p.parent = some b →
    k.processesTable k.activePID = some b → ∀ retvalp, ∃ k' out,
      k.waitpid p.pid retvalp = .ok (k', .ret p.pid out) ∧
        (k'.procs c).map Proc.status = some .dying ∧ c ∈ k'.lists .dying
  dying : ∀ c p, k.procs c = some p → p.status = .dying → c ∈ k.lists .dying

def pidOf (k : Kernel) (a : Addr) : Nat :=
  match k.procs a with
  | some p => p.pid
  | none => 0

theorem printEach_ok {body : Addr → Except Fault (List Line)} {visited : Addr → List Addr}
    {l : List Addr} (each : ∀ c ∈ l, ∃ lines, body c = .ok lines ∧
      lines.map Line.pid = (visited c).map k.pidOf) :
    ∃ lines, printEach body l = .ok lines ∧
      lines.map Line.pid = (l.flatMap visited).map k.pidOf := by
  induction l with
  | nil => exact ⟨[], rfl, rfl⟩
  | cons c rest ih =>
      obtain ⟨lines, first, pids⟩ := each c (by simp)
      obtain ⟨others, second, pids'⟩ := ih fun d member => each d (List.mem_cons_of_mem c member)
      refine ⟨lines ++ others, ?_, ?_⟩
      · rw [printEach, first, second]
        rfl
      · rw [List.map_append, pids, pids', List.flatMap_cons, List.map_append]

theorem psHierarchy_eq (ordered : Forest.Ordered k.childrenOf k.nextBlock)
    (present : ∀ b p c, k.procs b = some p → c ∈ p.childrenList → k.procs c ≠ none)
    {depth level : Nat} (here : k.procs b = some p) (enough : k.nextBlock ≤ b + depth)
    (used : b < k.nextBlock) : ∃ lines, k.psHierarchy depth b level = .ok lines ∧
      lines.map Line.pid = (Forest.preorder k.childrenOf depth b).map k.pidOf := by
  induction depth generalizing b p level with
  | zero => exact absurd used (Nat.not_lt.mpr enough)
  | succ depth ih =>
      have below : ∀ c ∈ p.childrenList, ∃ lines, k.psHierarchy depth c (level + 1) = .ok lines ∧
          lines.map Line.pid = (Forest.preorder k.childrenOf depth c).map k.pidOf := by
        intro c child
        obtain ⟨pc, there⟩ := Option.ne_none_iff_exists'.mp (present b p c here child)
        obtain ⟨younger, used⟩ := ordered.younger (childrenOf_apply here ▸ child)
        have closer : b + depth + 1 ≤ c + depth := by
          rw [Nat.add_right_comm]
          exact Nat.add_le_add_right younger depth
        exact ih there (enough.trans closer) used
      obtain ⟨lines, printed, pids⟩ := printEach_ok below
      refine ⟨⟨level, p.pid, p.name⟩ :: lines, ?_, ?_⟩
      · rw [psHierarchy, deref_eq_ok.mpr here]
        change (do
          let lines ← printEach (fun c => k.psHierarchy depth c (level + 1)) p.childrenList
          .ok (⟨level, p.pid, p.name⟩ :: lines)) = (.ok _ : Except Fault _)
        rw [printed]
        rfl
      · rw [List.map_cons, pids, Forest.preorder, List.map_cons, childrenOf_apply here, pidOf, here]

theorem Kindred.ordered (kindred : k.Kindred) (lasting : k.family.Lasting) :
    Forest.Ordered k.childrenOf k.nextBlock := by
  have known (b : Addr) (c : Addr) (child : c ∈ k.childrenOf b) :
      ∃ m, k.family b = some m ∧ c ∈ m.children := by
    rw [childrenOf] at child
    split at child
    · next p here => exact ⟨p.member, family_apply here, child⟩
    · cases child
  constructor
  · intro b c child
    obtain ⟨m, here, child⟩ := known b c child
    exact kindred.sound.elder b m here c child
  · intro b
    rw [childrenOf]
    split
    · next p here => exact kindred.sound.nodup b p.member (family_apply here)
    · exact List.nodup_nil
  · intro a b c first second
    obtain ⟨m, here, child⟩ := known a c first
    obtain ⟨m', here', child'⟩ := known b c second
    obtain ⟨mc, there, -⟩ := lasting a m c here child
    exact kindred.sound.unique here here' child child' there

theorem ChildrenLive.of_lasting (lasting : k.family.Lasting) (consistent : k.Consistent)
    (stocked : k.Stocked) (kindred : k.Kindred) : k.ChildrenLive := by
  have live (b : Addr) (p : Proc) (c : Addr) (here : k.procs b = some p)
      (child : c ∈ p.childrenList) : ∃ pc, k.procs c = some pc ∧ k.heap c = some sizeofProc ∧
        k.processesTable pc.pid = some c ∧ pc.parent = some b := by
    obtain ⟨mc, there, -⟩ := lasting b p.member c (family_apply here) child
    have owner := (kindred.sound.owned b p.member c mc (family_apply here) child there).1
    obtain ⟨pc, held, rfl⟩ := of_family there
    exact ⟨pc, held, (stocked.procs c pc held).2, consistent.owned c pc held, owner⟩
  have present (b : Addr) (p : Proc) (c : Addr) (here : k.procs b = some p)
      (child : c ∈ p.childrenList) : k.procs c ≠ none := by
    obtain ⟨pc, held, -⟩ := live b p c here child
    rw [held]
    nofun
  refine ⟨live, fun b p here field elem prio => ?_, fun b p here pid => ?_,
    fun b p here depth level enough => ?_⟩
  · exact insertSorted_ok _ _ _ fun c child => by simp [present b p c here child]
  · exact anyPid_ok fun c child => present b p c here child
  · have used : b < k.nextBlock := by
      by_contra beyond
      rw [(consistent.fresh b (Nat.not_lt.mp beyond)).1] at here
      cases here
    obtain ⟨lines, printed, -⟩ := psHierarchy_eq (kindred.ordered lasting) present here enough used
    exact ⟨lines, printed⟩

theorem Parented.of_rooted (rooted : k.family.Rooted) (consistent : k.Consistent)
    (kindred : k.Kindred) : k.Parented := by
  intro c p here running positive
  obtain ⟨b, pid, owner, mb, there, -, alive, child⟩ := rooted c p.member (family_apply here)
    (Proc.living_iff.mpr running) (Nat.pos_iff_ne_zero.mp positive)
  obtain ⟨parent, held, rfl⟩ := of_family there
  have once := List.count_eq_one_of_mem (kindred.sound.nodup b parent.member there) child
  exact ⟨b, parent, owner, held, consistent.owned b parent held, Proc.living_iff.mp alive, once⟩

theorem Parented.descends (parented : k.Parented) (consistent : k.Consistent)
    (kindred : k.Kindred) (running : k.Running) : ∃ z, k.processesTable 0 = some z ∧
      ∀ c p, k.procs c = some p → p.terminated = false →
        Forest.Descends k.childrenOf z c := by
  have up (c : Addr) (kind : ∃ p, k.procs c = some p ∧ p.terminated = false)
      (other : k.processesTable 0 ≠ some c) : ∃ b, b < c ∧
        (∃ p, k.procs b = some p ∧ p.terminated = false) ∧ c ∈ k.childrenOf b := by
    obtain ⟨p, here, alive⟩ := kind
    have positive : 0 < p.pid := by
      rw [Nat.pos_iff_ne_zero]
      intro zero
      exact other (zero ▸ consistent.owned c p here)
    obtain ⟨b, parent, -, held, -, living, once⟩ := parented c p here alive positive
    have child : c ∈ parent.childrenList := List.count_pos_iff.mp (once ▸ Nat.one_pos)
    have younger := (kindred.sound.elder b parent.member (family_apply held) c child).1
    exact ⟨b, younger, ⟨parent, held, living⟩, childrenOf_apply held ▸ child⟩
  obtain ⟨a, p, -, here, elected⟩ := running
  have alive : p.terminated = false := by simp [Proc.terminated, elected]
  obtain ⟨z, slot⟩ : ∃ z, k.processesTable 0 = some z := by
    by_contra absent
    rw [not_exists] at absent
    have descends := Forest.descends_root k.nextBlock
      (fun c kind _ => up c kind (absent c)) a ⟨p, here, alive⟩
    have fresh := (consistent.fresh k.nextBlock le_rfl).1
    rcases Relation.ReflTransGen.cases_head descends with same | ⟨c, child, -⟩
    · rw [← same, fresh] at here
      cases here
    · rw [childrenOf, fresh] at child
      cases child
  refine ⟨z, slot, fun c pc there living => ?_⟩
  refine Forest.descends_root _ (fun c kind other => up c kind fun same => ?_) c ⟨pc, there, living⟩
  rw [slot, Option.some.injEq] at same
  exact other same.symm

theorem Printed.of_parented (parented : k.Parented) (lasting : k.family.Lasting)
    (consistent : k.Consistent) (kindred : k.Kindred) (running : k.Running) : k.Printed := by
  obtain ⟨z, slot, descends⟩ := parented.descends consistent kindred running
  obtain ⟨-, root, here, -⟩ := consistent.table 0 z slot
  have ordered := kindred.ordered lasting
  have present (b : Addr) (p : Proc) (c : Addr) (here : k.procs b = some p)
      (child : c ∈ p.childrenList) : k.procs c ≠ none := by
    obtain ⟨mc, there, -⟩ := lasting b p.member c (family_apply here) child
    obtain ⟨pc, held, -⟩ := of_family there
    rw [held]
    nofun
  have used : z < k.nextBlock := by
    by_contra beyond
    rw [(consistent.fresh z (Nat.not_lt.mp beyond)).1] at here
    cases here
  have enough : k.nextBlock ≤ z + k.nextBlock := Nat.le_add_left _ _
  obtain ⟨lines, printed, pids⟩ := psHierarchy_eq ordered present here enough used
  refine ⟨lines, ?_, fun c p there alive => ?_⟩
  · rw [pstree, slot]
    exact printed
  · have below (d : Addr) (visited : d ∈ Forest.preorder k.childrenOf k.nextBlock z) :
        ∃ pd, k.procs d = some pd := by
      rw [← Option.ne_none_iff_exists']
      have down := (Forest.mem_preorder ordered enough used).mp visited
      rcases Relation.ReflTransGen.cases_tail down with same | ⟨b, -, child⟩
      · rw [same, here]
        nofun
      · rw [childrenOf] at child
        split at child
        · next p held => exact present b p d held child
        · cases child
    have distinct : (lines.map Line.pid).Nodup := by
      rw [pids]
      refine List.Nodup.map_on (fun d first e second same => ?_)
        (Forest.preorder_nodup ordered enough used)
      obtain ⟨pd, held⟩ := below d first
      obtain ⟨pe, held'⟩ := below e second
      rw [pidOf, held, pidOf, held'] at same
      exact consistent.unique held held' same
    have visited := (Forest.mem_preorder ordered enough used).mpr (descends c p there alive)
    refine List.count_eq_one_of_mem distinct (pids ▸ List.mem_map.mpr ⟨c, visited, ?_⟩)
    rw [pidOf, there]

theorem anyPid_listed {l : List Addr} (present : ∀ d ∈ l, k.procs d ≠ none)
    (here : k.procs c = some p) (member : c ∈ l) : k.anyPid p.pid l = .ok true := by
  induction l with
  | nil => cases member
  | cons d rest ih =>
      obtain ⟨pd, held⟩ := Option.ne_none_iff_exists'.mp (present d (by simp))
      rw [anyPid, deref_eq_ok.mpr held]
      change (if pd.pid = p.pid then Except.ok true else k.anyPid p.pid rest) = .ok true
      split
      · rfl
      · next other =>
        rcases List.mem_cons.mp member with rfl | member
        · rw [here, Option.some.injEq] at held
          exact absurd (congrArg Proc.pid held.symm) other
        · exact ih (fun d member => present d (List.mem_cons_of_mem _ member)) member

theorem touch_ok {o : Option Addr} (present : ∀ d, o = some d → k.procs d ≠ none) :
    k.touch o = .ok () := by
  cases o with
  | none => rfl
  | some d =>
      obtain ⟨p, held⟩ := Option.ne_none_iff_exists'.mp (present d rfl)
      rw [touch, deref_eq_ok.mpr held]
      rfl

theorem delSibling_ok {owner : Proc} (here : k.procs c = some p) (siblings : p.siblings = some b)
    (there : k.procs b = some owner) (present : ∀ d ∈ owner.childrenList, k.procs d ≠ none) :
    k.delSibling c = .ok (k.dropSibling c b) := by
  have neighbour (i : Nat) (d : Addr) (held : owner.childrenList[i]? = some d) :
      k.procs d ≠ none :=
    present d (List.mem_of_getElem? held)
  have previous : k.touch (if owner.childrenList.idxOf c = 0 then none
      else owner.childrenList[owner.childrenList.idxOf c - 1]?) = .ok () :=
    touch_ok fun d held => by
      split at held
      · cases held
      · exact neighbour _ d held
  have following : k.touch owner.childrenList[owner.childrenList.idxOf c + 1]? = .ok () :=
    touch_ok fun d held => neighbour _ d held
  rw [delSibling, deref_eq_ok.mpr here]
  dsimp only [bind, Except.bind]
  rw [siblings]
  dsimp only
  rw [deref_eq_ok.mpr there]
  dsimp only
  rw [previous]
  dsimp only
  rw [following]
  rfl

theorem collect_ok {owner : Proc} {h : Head} (retvalp : Bool) (linked : k.Linked)
    (here : k.procs c = some p) (links : p.links = some h) (siblings : p.siblings = some b)
    (there : k.procs b = some owner) (present : ∀ d ∈ owner.childrenList, k.procs d ≠ none) :
    ∃ k' out, k.collect c retvalp = .ok (k', .ret p.pid out) := by
  let k₁ := (k.setStatus c .dying).unlink c
  have procs (d : Addr) : k₁.procs d = if d = c then
      (k.procs c).map fun p => { p with status := .dying, links := none } else k.procs d := by
    change ((k.setStatus c .dying).unlink c).procs d = _
    rw [unlink_procs, setStatus, setProc_procs, setProc_procs, if_pos rfl, Option.map_map]
    split <;> rfl
  have held (d : Addr) (before : k.procs d ≠ none) : k₁.procs d ≠ none := by
    rw [procs]
    split
    · simp [here]
    · exact before
  have mine : k₁.procs c = some { p with status := .dying, links := none } := by
    rw [procs, if_pos rfl, here, Option.map_some]
  have deleted : (k.setStatus c .dying).queueDel c = .ok k₁ := by
    refine queueDel_ok (p := { p with status := .dying }) linked.setStatus ?_ links
    rw [setStatus, setProc_procs, if_pos rfl, here, Option.map_some]
  obtain ⟨owner', there', children⟩ : ∃ owner', k₁.procs b = some owner' ∧
      owner'.childrenList = owner.childrenList := by
    rw [procs]
    split
    · next same =>
      rw [same, here, Option.some.injEq] at there
      exact ⟨_, congrArg (Option.map _) here, by rw [there]⟩
    · exact ⟨owner, there, rfl⟩
  have taken : k₁.delSibling c = .ok (k₁.dropSibling c b) :=
    delSibling_ok mine siblings there' fun d member => held d (present d (children ▸ member))
  have linkless : ∃ p', (k₁.dropSibling c b).procs c = some p' ∧ p'.links = none :=
    ⟨_, dropSibling_procs.trans (congrArg (Option.map _) mine), rfl⟩
  obtain ⟨p', after, unlinked⟩ := linkless
  obtain ⟨k', added⟩ := queueAdd_ok after unlinked .dying Proc.priority
    fun d member => by
      have listed : d ∈ k.lists .dying := List.mem_of_mem_erase member
      obtain ⟨pd, before, -⟩ := (linked.mem_iff .dying d).mp listed
      have kept := held d (by simp [before])
      rw [dropSibling_procs]
      simpa using kept
  refine ⟨k', if retvalp then some (if p.killed then 0 else p.retval) else none, ?_⟩
  rw [collect, deref_eq_ok.mpr here]
  dsimp only [bind, Except.bind]
  rw [deleted]
  dsimp only
  rw [taken]
  dsimp only
  rw [added]

theorem Reapable.of_tended (tended : k.family.Tended) (consistent : k.Consistent)
    (kindred : k.Kindred) : k.Reapable := by
  constructor
  · intro c p here zombie
    have there := family_apply here
    have ended : p.member.phase = .zombie := Status.phase_zombie.mpr zombie
    obtain ⟨b, mb, owner, found, other⟩ := tended.reapable c p.member there ended
    have stays : p.member.phase ≠ .dying := by
      rw [ended]
      nofun
    obtain ⟨mb', found', pid, living, child⟩ :=
      tended.guarded c p.member b mb there stays owner found other
    obtain ⟨parent, held, rfl⟩ := of_family found'
    have positive : 0 < parent.pid := Nat.pos_of_ne_zero (ne_of_eq_of_ne pid other)
    exact ⟨b, parent, owner, held, consistent.owned b parent held, Proc.living_iff.mp living,
      positive, child⟩
  · intro c p b here zombie owner current retvalp
    have there := family_apply here
    have ended : p.member.phase = .zombie := Status.phase_zombie.mpr zombie
    have stays : p.member.phase ≠ .dying := by
      rw [ended]
      nofun
    obtain ⟨b', mb, owner', found, other⟩ := tended.reapable c p.member there ended
    obtain rfl : b = b' := Option.some.inj (owner.symm.trans owner')
    obtain ⟨mb', found', pid, -, child⟩ :=
      tended.guarded c p.member b mb there stays owner found other
    obtain ⟨parent, held, rfl⟩ := of_family found'
    have present : ∀ d ∈ parent.childrenList, k.procs d ≠ none := by
      intro d grand
      obtain ⟨md, kept, -⟩ :=
        kindred.sound.lasting b parent.member d found' (ne_of_eq_of_ne pid other) grand
      obtain ⟨pd, before, -⟩ := of_family kept
      rw [before]
      nofun
    have siblings := (kindred.sound.owned b parent.member c p.member found' child there).2
    have asleep : p.status ≠ .elected := by
      rw [zombie]
      nofun
    obtain ⟨h, links, -⟩ := (consistent.placed c p here).links_of_status asleep
    have linked := consistent.linked
    obtain ⟨k', out, collected⟩ :=
      collect_ok retvalp linked here links siblings held present
    have small := consistent.live here
    have slot := consistent.owned c p here
    have search := anyPid_listed present here child
    refine ⟨k', out, ?_, ?_⟩
    · rw [waitpid, if_neg (by omega), tableAt, if_pos ⟨by omega, by omega⟩]
      dsimp only [bind, Except.bind]
      rw [Int.toNat_natCast, slot]
      dsimp only
      rw [deref_eq_ok.mpr here]
      dsimp only
      rw [active_eq_ok.mpr current]
      dsimp only
      rw [deref_eq_ok.mpr held]
      dsimp only
      rw [search]
      dsimp only
      rw [if_pos rfl, waitpidLoop, deref_eq_ok.mpr here]
      dsimp only [bind, Except.bind]
      rw [if_pos zombie]
      exact collected
    · obtain ⟨p', g, parent', owner'', here', -, -, -, rfl, -⟩ := collect_eq linked collected
      rw [relink_procs, if_pos rfl, dropSibling_procs, here, relink_lists, if_pos rfl]
      exact ⟨rfl, mem_place.mpr (.inl rfl)⟩
  · intro c p here dying
    have running : p.status ≠ .elected := by
      rw [dying]
      decide
    obtain ⟨h, links, status⟩ := (consistent.placed c p here).links_of_status running
    have same : h = .dying := by
      rw [dying] at status
      cases h <;> first | rfl | cases status
    exact (consistent.linked.links_iff here).mp (same ▸ links)

end Kernel

open Kernel

def SparesIdleChildren (_ : History) (t : Step) : Prop := t.before.endsIdleChild t.event = false

def KeepsParents (_ : History) (t : Step) : Prop := t.before.endsParent t.event = false

def SparesDying (_ : History) (t : Step) : Prop := t.before.revives t.event = false

instance (past : History) (t : Step) : Decidable (SparesIdleChildren past t) :=
  inferInstanceAs (Decidable (_ = _))

instance (past : History) (t : Step) : Decidable (KeepsParents past t) :=
  inferInstanceAs (Decidable (_ = _))

instance (past : History) (t : Step) : Decidable (SparesDying past t) :=
  inferInstanceAs (Decidable (_ = _))

variable {k : Kernel} {history : History}

theorem Booted.alone (booted : Booted k) (b : Addr) (m : Member) (here : k.family b = some m) :
    m.pid = 0 ∧ m.children = [] ∧ m.phase = .alive := by
  obtain ⟨p, pid, status, -, -, -, children, -, -, -, -, -, -, procs, -⟩ := booted.state
  obtain ⟨p', held, rfl⟩ := of_family here
  rw [procs] at held
  split at held
  · cases held
    exact ⟨pid, children, congrArg Status.phase status⟩
  · cases held

theorem lasting_of_run (run : Reached history k) (spares : Meets SparesIdleChildren history) :
    k.family.Lasting := by
  refine run.invariant (I := fun _ k => k.family.Lasting) (fun k booted => ?_)
    (fun past k e n k' run spares lasting taken spared => ?_) spares
  · intro b m c here child
    rw [(booted.alone b m here).2.1] at child
    cases child
  · obtain ⟨consistent, running⟩ := consistent_of_run run
    have kindred := kindred_of_run run
    obtain ⟨a, m, G, acts⟩ := step_acts consistent running kindred.sound taken
    refine (acts.deed.lasting kindred.sound kindred.patient lasting acts.here acts.alive
      fun c mc there ends b mb held zero child => ?_).buried acts.buried
    have ended := ended_eq consistent acts.current acts.here acts.alive there ends
    obtain ⟨p, here, rfl⟩ := of_family held
    have slot := consistent.owned b p here
    rw [show p.pid = 0 from zero] at slot
    change k.endsIdleChild e = false at spared
    rw [endsIdleChild, ended, slot, Option.any_some, Option.any_some, childrenOf_apply here,
      decide_eq_false_iff_not] at spared
    exact spared child

theorem rooted_of_run (run : Reached history k) (keeps : Meets KeepsParents history) :
    k.family.Rooted := by
  refine run.invariant (I := fun _ k => k.family.Rooted) (fun k booted => ?_)
    (fun past k e n k' run keeps rooted taken kept => ?_) keeps
  · intro c mc here _ other
    exact absurd (booted.alone c mc here).1 other
  · obtain ⟨consistent, running⟩ := consistent_of_run run
    have kindred := kindred_of_run run
    have counted := (stocked_of_run run).2
    obtain ⟨a, m, G, acts⟩ := step_acts consistent running kindred.sound taken
    refine (acts.deed.rooted kindred.sound rooted acts.here acts.alive
      (fun c mc there ends d child md held living => ?_)
      (acts.parented (counted.pos consistent))).buried acts.buried
    have ended := ended_eq consistent acts.current acts.here acts.alive there ends
    obtain ⟨p, here, rfl⟩ := of_family held
    change k.endsParent e = false at kept
    rw [endsParent, ended, Option.any_some, childrenOf_eq there, List.any_eq_false] at kept
    have dead := kept d child
    rw [here, Option.any_some, Proc.living_iff.mp living] at dead
    exact dead rfl

theorem tended_of_run (run : Reached history k) (spares : Meets SparesDying history) :
    k.family.Tended := by
  refine run.invariant (I := fun _ k => k.family.Tended) (fun k booted => ?_)
    (fun past k e n k' run spares tended taken spared => ?_) spares
  · constructor
    · intro c mc b mb _ _ _ held other
      exact absurd (booted.alone b mb held).1 other
    · intro c mc here zombie
      rw [(booted.alone c mc here).2.2] at zombie
      cases zombie
  · obtain ⟨consistent, running⟩ := consistent_of_run run
    have kindred := kindred_of_run run
    obtain ⟨a, m, G, acts⟩ := step_acts consistent running kindred.sound taken
    refine (acts.deed.tended kindred.sound tended acts.here acts.alive
      (fun z slot => (consistent.zero z slot).2)
      fun pid c mc kill positive there named parent dying => ?_).buried acts.buried
    obtain ⟨p, here, rfl⟩ := of_family there
    have slot := consistent.owned c p here
    rw [show p.pid = pid.toNat from named] at slot
    change k.revives e = false at spared
    rw [kill, revives, decide_eq_true positive, slot, Option.bind_some, here, Option.any_some,
      decide_eq_true (Status.phase_dying.mp dying), parentStillAlive_alive parent] at spared
    cases spared

/-- As long as no process in the list of process 0 ends, the lists of children hold only
processes that are there. -/
theorem children_lists_hold_live (run : Reached history k)
    (spares : Meets SparesIdleChildren history) : k.ChildrenLive :=
  .of_lasting (lasting_of_run run spares) (consistent_of_run run).1 (stocked_of_run run).1
    (kindred_of_run run)

/-- A child of process 1 ends, is waited for and freed. -/
theorem children_lists_hold_live_waited : ∃ (history : History) (k : Kernel),
    history.length = 7 ∧ k.procs 5 = none ∧ k.ChildrenLive := by
  obtain ⟨history, k, run, checked⟩ := reached_by
    [.call (.start 512 10 [97] true true), .call (.start 512 20 [98] true true), .call (.exit 7),
      .resume, .call (.waitpid 2 true), .call (.waitClock 0), .resume]
    (fun history k => decide (history.length = 7) && (k.procs 5).isNone &&
      decide (Meets SparesIdleChildren history))
    (by decide +kernel)
  simp only [Bool.and_eq_true, decide_eq_true_eq, Option.isNone_iff_eq_none] at checked
  exact ⟨history, k, checked.1.1, checked.1.2, children_lists_hold_live run checked.2⟩

/-- A child of process 0 exits and is freed, but stays in its list. -/
theorem children_list_keeps_freed : ¬ ∀ history k, Reached history k → k.ChildrenLive := by
  intro lives
  obtain ⟨history, k, run, checked⟩ := reached_by
    [.call (.start 512 10 [97] true true), .call (.exit 7), .resume, .clockInterrupt]
    (fun _ k => (k.procs 1).any (fun p : Proc => decide (3 ∈ p.childrenList)) && (k.procs 3).isNone)
    (by decide +kernel)
  rw [Bool.and_eq_true, Option.any_eq_true, Option.isNone_iff_eq_none] at checked
  obtain ⟨⟨p, here, child⟩, gone⟩ := checked
  obtain ⟨pc, there, -⟩ := (lives history k run).live 1 p 3 here (of_decide_eq_true child)
  rw [gone] at there
  cases there

/-- As long as no process ends before its children, each process that has not terminated is
in the list of its parent, and `pstree` reaches it if no child of process 0 ends either. -/
theorem tree_covers_live_processes (run : Reached history k)
    (keeps : Meets KeepsParents history) :
    k.Parented ∧ (Meets SparesIdleChildren history → k.Printed) := by
  obtain ⟨consistent, running⟩ := consistent_of_run run
  have kindred := kindred_of_run run
  have parented := Parented.of_rooted (rooted_of_run run keeps) consistent kindred
  exact ⟨parented, fun spares =>
    .of_parented parented (lasting_of_run run spares) consistent kindred running⟩

/-- Process 1 has two children, one of which exits. -/
theorem tree_covers_live_processes_three : ∃ (history : History) (k : Kernel),
    history.length = 5 ∧ k.Parented ∧ k.Printed := by
  obtain ⟨history, k, run, checked⟩ := reached_by
    [.call (.start 512 10 [97] true true), .call (.start 512 5 [98] true true),
      .call (.start 512 20 [99] true true), .call (.exit 7), .resume]
    (fun history _ => decide (history.length = 5) && decide (Meets KeepsParents history) &&
      decide (Meets SparesIdleChildren history))
    (by decide +kernel)
  simp only [Bool.and_eq_true, decide_eq_true_eq] at checked
  obtain ⟨parented, printed⟩ := tree_covers_live_processes run checked.1.2
  exact ⟨history, k, checked.1.1, parented, printed checked.2⟩

/-- Process 1 exits before its child, which is then in no list. -/
theorem tree_loses_orphan : ∃ (history : History) (k : Kernel), Reached history k ∧
    ¬ k.Parented ∧ ¬ k.Printed := by
  obtain ⟨history, k, run, checked⟩ := reached_by
    [.call (.start 512 10 [97] true true), .call (.start 512 5 [98] true true), .call (.exit 7)]
    (fun _ k =>
      (k.procs 5).any (fun p : Proc => decide (p.parent = some 1) && decide (p.terminated = false) &&
        decide (0 < p.pid) &&
        k.pstree.toOption.any fun lines : List Line => decide ((lines.map Line.pid).count p.pid = 0)) &&
      (k.procs 1).any fun z : Proc => decide (5 ∉ z.childrenList))
    (by decide +kernel)
  simp only [Bool.and_eq_true, decide_eq_true_eq, Option.any_eq_true] at checked
  obtain ⟨⟨p, here, ⟨⟨owner, alive⟩, positive⟩, lines, printed, missed⟩, z, there, unlisted⟩ :=
    checked
  refine ⟨history, k, run, fun parented => ?_, fun covered => ?_⟩
  · obtain ⟨b, parent, owner', held, -, -, once⟩ := parented 5 p here alive positive
    rw [owner, Option.some.injEq] at owner'
    subst b
    rw [there, Option.some.injEq] at held
    subst parent
    rw [List.count_eq_zero_of_not_mem unlisted] at once
    cases once
  · obtain ⟨lines', printed', once⟩ := covered
    rw [printed', Except.toOption, Option.some.injEq] at printed
    subst lines'
    have again := once 5 p here alive
    rw [missed] at again
    cases again

/-- As long as no DYING process is made a ZOMBIE by `kill`, every ZOMBIE has a parent that can
wait for it. -/
theorem zombies_stay_reapable (run : Reached history k) (spares : Meets SparesDying history) :
    k.Reapable :=
  .of_tended (tended_of_run run spares) (consistent_of_run run).1 (kindred_of_run run)

/-- One child has exited, the other is killed. -/
theorem zombies_stay_reapable_mixed : ∃ (history : History) (k : Kernel),
    history.length = 6 ∧ k.Reapable := by
  obtain ⟨history, k, run, checked⟩ := reached_by
    [.call (.start 512 10 [97] true true), .call (.start 512 5 [98] true true),
      .call (.start 512 20 [99] true true), .call (.exit 7), .resume, .call (.kill 2)]
    (fun history _ => decide (history.length = 6) && decide (Meets SparesDying history))
    (by decide +kernel)
  simp only [Bool.and_eq_true, decide_eq_true_eq] at checked
  exact ⟨history, k, checked.1, zombies_stay_reapable run checked.2⟩

/-- A child that has been waited for is killed before it is freed: it is a ZOMBIE again,
but no child of its parent any more. -/
theorem zombie_lost_by_kill : ¬ ∀ history k, Reached history k → k.Reapable := by
  intro reapable
  obtain ⟨history, k, run, checked⟩ := reached_by
    [.call (.start 512 10 [97] true true), .call (.start 512 5 [98] true true), .call (.kill 2),
      .resume, .call (.waitpid 2 true), .call (.kill 2)]
    (fun _ k =>
      (k.procs 5).any (fun p : Proc => decide (p.status = .zombie) && decide (p.parent = some 3)) &&
        (k.procs 3).any fun parent : Proc => decide (5 ∉ parent.childrenList))
    (by decide +kernel)
  simp only [Bool.and_eq_true, decide_eq_true_eq, Option.any_eq_true] at checked
  obtain ⟨⟨p, here, zombie, owner⟩, parent, there, unlisted⟩ := checked
  obtain ⟨b, parent', owner', held, -, -, -, child⟩ :=
    (reapable history k run).zombies 5 p here zombie
  rw [owner, Option.some.injEq] at owner'
  subst b
  rw [there, Option.some.injEq] at held
  subst parent'
  exact unlisted child

end IntelX86Kernel

import IntelX86Kernel.Moves

/-! Status, lists and table of the processes agree in every state of every run. -/

namespace IntelX86Kernel

namespace Kernel

variable {k k' : Kernel} {a b q : Addr} {p : Proc} {n : Next} {m : Mover}

/-- The active process is ELECTED: the state between two steps. -/
def Running (k : Kernel) : Prop :=
  ∃ a p, k.processesTable k.activePID = some a ∧ k.procs a = some p ∧ p.status = .elected

theorem Running.status (running : k.Running) (current : k.processesTable k.activePID = some a)
    (here : k.procs a = some p) : p.status = .elected := by
  obtain ⟨b, r, active, there, status⟩ := running
  rw [current, Option.some.injEq] at active
  subst b
  rw [here, Option.some.injEq] at there
  rw [there, status]

theorem Consistent.change {p₁ : Proc} (consistent : k.Consistent)
    (here : k.procs a = some p) (linked : k'.Linked)
    (procs : ∀ b, k'.procs b = if b = a then some p₁ else k.procs b)
    (table : k'.processesTable = k.processesTable) (records : k'.records = k.records)
    (next : k'.nextBlock = k.nextBlock)
    (held : ∀ q, k.records q = none → k'.lists (.queue q) = []) (pid : p₁.pid = p.pid)
    (placed : p₁.Placed)
    (elected : ∀ b p', k'.procs b = some p' → p'.status = .elected →
      k.processesTable k'.activePID = some b ∨ p'.pid = 0 ∧ p'.links = some .ready)
    (active : ∃ b, k.processesTable k'.activePID = some b) : k'.Consistent where
  linked := linked
  placed := by
    intro b p' there
    rw [procs] at there
    split at there
    · cases there
      exact placed
    · exact consistent.placed b p' there
  table := by
    intro number b entry
    rw [table] at entry
    obtain ⟨small, p', there, named⟩ := consistent.table number b entry
    refine ⟨small, ?_⟩
    by_cases same : b = a
    · subst b
      rw [here, Option.some.injEq] at there
      subst p'
      exact ⟨p₁, by rw [procs, if_pos rfl], pid.trans named⟩
    · exact ⟨p', by rw [procs, if_neg same, there], named⟩
  owned := by
    intro b p' there
    rw [procs] at there
    rw [table]
    split at there
    · next same =>
      cases there
      rw [pid, same]
      exact consistent.owned a p here
    · exact consistent.owned b p' there
  fresh := by
    intro b later
    rw [next] at later
    obtain ⟨absent, free⟩ := consistent.fresh b later
    refine ⟨?_, records ▸ free⟩
    have other : b ≠ a := by
      rintro rfl
      rw [here] at absent
      cases absent
    rw [procs, if_neg other, absent]
  held := fun q free => held q (records ▸ free)
  elected := table ▸ elected
  active := table ▸ active

theorem Consistent.still_elected {p₁ : Proc} (consistent : k.Consistent)
    (procs : ∀ b, k'.procs b = if b = a then some p₁ else k.procs b)
    (running : p₁.status = .elected → k.processesTable k.activePID = some a ∨
      p₁.pid = 0 ∧ p₁.links = some .ready) (b : Addr) (p' : Proc)
    (there : k'.procs b = some p') (status : p'.status = .elected) :
    k.processesTable k.activePID = some b ∨ p'.pid = 0 ∧ p'.links = some .ready := by
  rw [procs] at there
  split at there
  · next same =>
    cases there
    rw [same]
    exact running status
  · exact consistent.elected b p' there status

theorem Head.status_ne_elected (h : Head) : h.status ≠ .elected := by
  cases h <;> simp [Head.status]

theorem relink_held {h : Head} (consistent : k.Consistent) (held : h.Held k) {s : Status} :
    ∀ q, k.records q = none → (k.relink a s h).lists (.queue q) = [] := by
  intro q free
  rw [relink_lists]
  split
  · next same =>
    obtain ⟨mq, found⟩ := held q same.symm
    rw [free] at found
    cases found
  · rw [consistent.held q free, List.erase_nil]

theorem Consistent.relink {h : Head} (consistent : k.Consistent) (held : h.Held k)
    (here : k.procs a = some p) : (k.relink a h.status h).Consistent := by
  have procs (b : Addr) : (k.relink a h.status h).procs b =
      if b = a then some { p with status := h.status, links := some h } else k.procs b := by
    rw [relink_procs, here, Option.map_some]
  exact consistent.change here
    (consistent.linked.relink here) procs rfl rfl rfl (relink_held consistent held)
    rfl (.inl rfl) (consistent.still_elected procs fun status =>
      absurd status (Head.status_ne_elected h)) consistent.active

theorem Consistent.edit {f : Proc → Proc} (consistent : k.Consistent)
    (same : ∀ p, (f p).pid = p.pid ∧ (f p).status = p.status ∧ (f p).links = p.links) :
    (k.setProc a f).Consistent := by
  cases here : k.procs a with
  | none =>
      have nothing : k.setProc a f = k := by
        rw [setProc, here, Option.map_none, ← here, Function.update_eq_self]
      rw [nothing]
      exact consistent
  | some p =>
      obtain ⟨pid, status, links⟩ := same p
      have procs (b : Addr) : (k.setProc a f).procs b =
          if b = a then some (f p) else k.procs b := by
        rw [setProc_procs, here, Option.map_some]
      refine consistent.change here (consistent.linked.setProc _ fun p => (same p).2.2)
        procs rfl rfl rfl consistent.held pid ?_ (consistent.still_elected procs fun running => ?_)
        consistent.active
      · have placed := consistent.placed a p here
        rw [Proc.Placed, links, status, pid]
        exact placed
      · rw [pid, links]
        exact consistent.elected a p here (status ▸ running)

theorem Consistent.editRelink {f : Proc → Proc} {h : Head} (consistent : k.Consistent)
    (same : ∀ p, (f p).pid = p.pid ∧ (f p).status = p.status ∧ (f p).links = p.links)
    (held : h.Held k) (here : k.procs a = some p) :
    ((k.setProc a f).relink a h.status h).Consistent := by
  refine (consistent.edit same).relink held (p := f p) ?_
  exact setProc_here here

theorem Consistent.store (consistent : k.Consistent) (procs : k'.procs = k.procs)
    (lists : k'.lists = k.lists) (table : k'.processesTable = k.processesTable)
    (current : k'.activePID = k.activePID) (next : k.nextBlock ≤ k'.nextBlock)
    (records : ∀ q mq, k.records q = some mq → ∃ mq', k'.records q = some mq')
    (fresh : ∀ q, k'.nextBlock ≤ q → k.records q = none → k'.records q = none) :
    k'.Consistent where
  linked := consistent.linked.of_eq lists fun _ => by rw [procs]
  placed := procs ▸ consistent.placed
  table := by
    rw [table, procs]
    exact consistent.table
  owned := by
    rw [table, procs]
    exact consistent.owned
  fresh := by
    intro a later
    obtain ⟨absent, free⟩ := consistent.fresh a (next.trans later)
    exact ⟨procs ▸ absent, fresh a later free⟩
  held := by
    intro q free
    rw [lists]
    refine consistent.held q ?_
    cases before : k.records q with
    | none => rfl
    | some mq =>
        obtain ⟨mq', after⟩ := records q mq before
        rw [free] at after
        cases after
  elected := by
    rw [table, procs, current]
    exact consistent.elected
  active := by
    rw [table, current]
    exact consistent.active

theorem birth_procs {k₁ : Kernel} {pid : Nat} {heap : Addr → Option Nat}
    (joined : k₁ = k.born pid p heap ∨
      ∃ b placed, k₁ = (k.born pid p heap).join k.nextBlock b placed) :
    (∃ g : Addr → Proc → Proc, (∀ c p, Proc.Same p (g c p)) ∧
      ∀ c, (k₁.link k.nextBlock .ready).counted.procs c =
        if c = k.nextBlock then some { g c p with links := some .ready }
        else (k.procs c).map (g c)) ∧
      k₁.lists = k.lists ∧ k₁.activePID = k.activePID ∧ k₁.records = k.records ∧
      k₁.nextBlock = k.nextBlock + 2 ∧
      k₁.processesTable = Function.update k.processesTable pid (some k.nextBlock) := by
  rcases joined with rfl | ⟨b, placed, rfl⟩
  · refine ⟨⟨fun _ p => p, fun _ _ => ⟨rfl, rfl, rfl, rfl, rfl, rfl, rfl⟩, fun c => ?_⟩, rfl, rfl, rfl, rfl,
      rfl⟩
    change ((k.born pid p heap).link k.nextBlock .ready).procs c = _
    rw [link_procs, born_procs, born_procs, if_pos rfl]
    split
    · rfl
    · simp
  · refine ⟨⟨fun c p => { p with
        childrenList := if c = b then placed else p.childrenList
        siblings := if c = k.nextBlock then some b else p.siblings },
      fun _ _ => ⟨rfl, rfl, rfl, rfl, rfl, rfl, rfl⟩, fun c => ?_⟩, rfl, rfl, rfl, rfl, rfl⟩
    change (((k.born pid p heap).join k.nextBlock b placed).link k.nextBlock .ready).procs c = _
    rw [link_procs, join_procs, join_procs, born_procs, born_procs, if_pos rfl]
    by_cases same : c = k.nextBlock
    · rw [if_pos same, if_pos same, same, Option.map_some, Option.map_some]
    · rw [if_neg same, if_neg same, if_neg same]

theorem birth_lists {k₁ : Kernel} {h : Head} (lists : k₁.lists = k.lists) :
    (k₁.link k.nextBlock .ready).counted.lists h =
      if h = .ready then k₁.place Head.ready.field k.nextBlock (k.lists .ready)
      else k.lists h := by
  change (k₁.link k.nextBlock .ready).lists h = _
  rw [link_lists, lists]

theorem Consistent.birth_linked {k₁ : Kernel} {g : Addr → Proc → Proc} (consistent : k.Consistent)
    (same : ∀ c p, Proc.Same p (g c p)) (lists : k₁.lists = k.lists)
    (procs : ∀ c, (k₁.link k.nextBlock .ready).counted.procs c =
      if c = k.nextBlock then some { g c p with links := some .ready }
      else (k.procs c).map (g c)) : (k₁.link k.nextBlock .ready).counted.Linked := by
  have outside (h : Head) : k.nextBlock ∉ k.lists h := by
    intro member
    obtain ⟨p', there, -⟩ := (consistent.linked.mem_iff h _).mp member
    rw [(consistent.fresh k.nextBlock le_rfl).1] at there
    cases there
  refine ⟨fun h => ?_, fun h c => ?_⟩
  · rw [birth_lists lists]
    split
    · exact (place_perm _).nodup_iff.mpr
        (List.nodup_cons.mpr ⟨outside _, consistent.linked.nodup _⟩)
    · exact consistent.linked.nodup h
  · rw [birth_lists lists, procs]
    by_cases equal : c = k.nextBlock
    · subst c
      rw [if_pos rfl]
      by_cases head : h = .ready
      · simp [head, mem_place]
      · simp [head, outside h, Ne.symm head]
    · rw [if_neg equal]
      have others : c ∈ k.lists h ↔
          ∃ p', (k.procs c).map (g c) = some p' ∧ p'.links = some h := by
        rw [consistent.linked.mem_iff h c]
        cases k.procs c <;> simp [(same c _).links]
      by_cases head : h = .ready
      · subst head
        simp only [if_pos, mem_place, equal, false_or]
        exact others
      · rw [if_neg head]
        exact others

theorem Consistent.birth {k₁ : Kernel} {pid : Nat} {heap : Addr → Option Nat}
    (consistent : k.Consistent) (small : pid < MAXNPROC) (free : k.processesTable pid = none)
    (named : p.pid = pid) (status : p.status = if pid = 0 then .elected else .ready)
    (joined : k₁ = k.born pid p heap ∨
      ∃ b placed, k₁ = (k.born pid p heap).join k.nextBlock b placed) :
    (k₁.link k.nextBlock .ready).counted.Consistent := by
  obtain ⟨⟨g, same, procs⟩, lists, current, records, next, table⟩ := birth_procs joined
  obtain ⟨absent, -⟩ := consistent.fresh k.nextBlock le_rfl
  have newTable : (k₁.link k.nextBlock .ready).counted.processesTable =
      Function.update k.processesTable pid (some k.nextBlock) := table
  obtain ⟨own, running⟩ := consistent.active
  have otherPid : k.activePID ≠ pid := by
    intro equal
    rw [equal, free] at running
    cases running
  have newActive : (k₁.link k.nextBlock .ready).counted.processesTable
      (k₁.link k.nextBlock .ready).counted.activePID = k.processesTable k.activePID := by
    change k₁.processesTable k₁.activePID = _
    rw [table, current, Function.update_of_ne otherPid]
  constructor
  · exact consistent.birth_linked same lists procs
  · intro c p' there
    rw [procs] at there
    split at there
    · next equal =>
      cases there
      change (g c p).status = _ ∨ _ ∧ (g c p).status = _ ∧ (g c p).pid = 0
      rw [(same c p).status, (same c p).pid, status, named]
      by_cases zero : pid = 0
      · exact .inr ⟨rfl, if_pos zero, zero⟩
      · exact .inl (if_neg zero)
    · obtain ⟨p₀, before, rfl⟩ := Option.map_eq_some_iff.mp there
      have placed := consistent.placed c p₀ before
      rw [Proc.Placed, (same c p₀).links, (same c p₀).status, (same c p₀).pid]
      exact placed
  · intro number c entry
    rw [newTable, Function.update_apply] at entry
    split at entry
    · next equal =>
      cases entry
      refine ⟨equal ▸ small, _, (procs _).trans (if_pos rfl), ?_⟩
      exact (same _ p).pid.trans (named.trans equal.symm)
    · obtain ⟨low, p', there, pid'⟩ := consistent.table number c entry
      have other : c ≠ k.nextBlock := by
        rintro rfl
        rw [absent] at there
        cases there
      refine ⟨low, g c p', ?_, (same c p').pid.trans pid'⟩
      rw [procs, if_neg other, there, Option.map_some]
  · intro c p' there
    rw [procs] at there
    rw [newTable, Function.update_apply]
    split at there
    · next equal =>
      cases there
      rw [if_pos ((same c p).pid.trans named), equal]
    · obtain ⟨p₀, before, rfl⟩ := Option.map_eq_some_iff.mp there
      have owned := consistent.owned c p₀ before
      have other : (g c p₀).pid ≠ pid := by
        intro equal
        rw [(same c p₀).pid] at equal
        rw [equal, free] at owned
        cases owned
      rw [if_neg other, (same c p₀).pid]
      exact owned
  · intro c later
    have later' : k.nextBlock + 2 ≤ c := next ▸ later
    have bound : k.nextBlock < c := Nat.lt_of_lt_of_le (Nat.lt_add_of_pos_right Nat.two_pos) later'
    obtain ⟨gone, unset⟩ := consistent.fresh c (Nat.le_of_lt bound)
    refine ⟨?_, records ▸ unset⟩
    rw [procs, if_neg (Nat.ne_of_gt bound), gone, Option.map_none]
  · intro q unset
    rw [birth_lists lists, if_neg Head.noConfusion]
    exact consistent.held q (records ▸ unset)
  · intro c p' there elected
    rw [newActive]
    rw [procs] at there
    split at there
    · next equal =>
      cases there
      refine .inr ⟨?_, rfl⟩
      change (g c p).status = .elected at elected
      change (g c p).pid = 0
      rw [(same c p).status, status] at elected
      rw [(same c p).pid, named]
      by_contra other
      rw [if_neg other] at elected
      cases elected
    · obtain ⟨p₀, before, rfl⟩ := Option.map_eq_some_iff.mp there
      rw [(same c p₀).status] at elected
      rw [(same c p₀).pid, (same c p₀).links]
      exact consistent.elected c p₀ before elected
  · exact ⟨own, newActive.trans running⟩

theorem Consistent.move (consistent : k.Consistent) (move : Move m k k') : k'.Consistent := by
  cases move with
  | relink held here allowed => exact consistent.relink held here
  | edit kind same => exact consistent.edit fun p => ⟨(same p).pid, (same p).status, (same p).links⟩
  | delay kind here => exact consistent.editRelink (h := .asleep) (fun _ => ⟨rfl, rfl, rfl⟩) nofun here
  | resort held here sorted stays links kind =>
      exact consistent.editRelink (fun _ => ⟨rfl, rfl, rfl⟩) held here
  | reprioritise here apart kind => exact consistent.edit fun _ => ⟨rfl, rfl, rfl⟩
  | birth small free named status links context stack kept own kind joined =>
      exact consistent.birth small free named status joined
  | store procs lists table current number next records fresh queues quiet =>
      exact consistent.store procs lists table current next records fresh

theorem Consistent.moves (consistent : k.Consistent) (moves : Moves m k k') : k'.Consistent := by
  induction moves with
  | refl => exact consistent
  | tail _ move ih => exact ih.move move

theorem Consistent.wake (consistent : k.Consistent) (here : k.procs a = some p) :
    (k.wake a).Consistent :=
  consistent.editRelink (h := .ready) (fun _ => ⟨rfl, rfl, rfl⟩) nofun here

theorem Consistent.woken (consistent : k.Consistent) (woken : Woken k k') : k'.Consistent := by
  induction woken with
  | none => exact consistent
  | sleeper here asleep late rest ih => exact ih (consistent.wake here)

theorem Consistent.reap {heap : Addr → Option Nat} (consistent : k.Consistent)
    (here : k.procs a = some p) (other : k.processesTable k.activePID ≠ some a) :
    (k.reap a p heap).Consistent := by
  have owned := consistent.owned a p here
  have procs (b : Addr) (p' : Proc) (there : (k.reap a p heap).procs b = some p') :
      b ≠ a ∧ k.procs b = some p' := by
    rw [reap_procs] at there
    split at there
    · cases there
    · next different => exact ⟨different, there⟩
  have table (number : Nat) : (k.reap a p heap).processesTable number =
      if number = p.pid then none else k.processesTable number := by
    simp only [Kernel.reap, Function.update_apply]
  have active : k.activePID ≠ p.pid := by
    intro same
    exact other (same ▸ owned)
  constructor
  · exact consistent.linked.reap
  · intro b p' there
    exact consistent.placed b p' (procs b p' there).2
  · intro number b entry
    rw [table] at entry
    split at entry
    · cases entry
    · next different =>
      obtain ⟨small, p', there, pid⟩ := consistent.table number b entry
      refine ⟨small, p', ?_, pid⟩
      have apart : b ≠ a := by
        rintro rfl
        rw [here, Option.some.injEq] at there
        exact different (there ▸ pid.symm)
      rw [reap_procs, if_neg apart, there]
  · intro b p' there
    obtain ⟨different, before⟩ := procs b p' there
    have apart : p'.pid ≠ p.pid := fun same => different (consistent.unique before here same)
    rw [table, if_neg apart]
    exact consistent.owned b p' before
  · intro b later
    obtain ⟨absent, free⟩ := consistent.fresh b later
    refine ⟨?_, free⟩
    rw [reap_procs]
    split
    · rfl
    · exact absent
  · intro q free
    change (k.lists (.queue q)).erase a = []
    rw [consistent.held q free, List.erase_nil]
  · intro b p' there status
    rw [table]
    change (if k.activePID = p.pid then none else k.processesTable k.activePID) = _ ∨ _
    rw [if_neg active]
    exact consistent.elected b p' (procs b p' there).2 status
  · rw [table]
    change ∃ b, (if k.activePID = p.pid then none else k.processesTable k.activePID) = some b
    rw [if_neg active]
    exact consistent.active

theorem Consistent.reaped (consistent : k.Consistent) (reaped : Reaped k k') :
    k'.Consistent := by
  induction reaped with
  | none => exact consistent
  | process here dying other kept rest ih => exact ih (consistent.reap here other)

/-- After `putBack` no process is ELECTED but process 0, waiting in the ready list. -/
theorem Consistent.putBack (consistent : k.Consistent)
    (current : k.processesTable k.activePID = some a) (run : k.putBack a = .ok k') :
    k'.Consistent ∧ k'.activePID = k.activePID ∧
      ∀ b p', k'.procs b = some p' → p'.status = .elected →
        p'.pid = 0 ∧ p'.links = some .ready := by
  obtain ⟨p, here, ⟨off, rfl⟩ | ⟨on, links, rfl⟩ | ⟨on, rfl, b, member, p', there, pid⟩⟩ :=
    putBack_eq consistent.linked run
  · refine ⟨consistent, rfl, fun b p' there status => ?_⟩
    rcases consistent.elected b p' there status with entry | waiting
    · rw [current, Option.some.injEq] at entry
      subst b
      rw [here, Option.some.injEq] at there
      exact absurd (there ▸ status) off
    · exact waiting
  · refine ⟨consistent.relink (h := .ready) (fun q same => by cases same) here, rfl, fun b p' there status => ?_⟩
    rw [relink_procs] at there
    split at there
    · rw [here, Option.map_some, Option.some.injEq] at there
      subst p'
      cases status
    · next different =>
      rcases consistent.elected b p' there status with entry | waiting
      · rw [current, Option.some.injEq] at entry
        exact absurd entry.symm different
      · exact waiting
  · have owned := consistent.owned b p' there
    rw [pid, current, Option.some.injEq] at owned
    subst b
    rw [here, Option.some.injEq] at there
    subst p'
    have links : p.links = some .ready := by
      obtain ⟨p', found, links⟩ := (consistent.linked.mem_iff _ _).mp member
      rw [here, Option.some.injEq] at found
      exact found ▸ links
    have procs (b : Addr) : (k.setStatus a .ready).procs b =
        if b = a then some { p with status := .ready } else k.procs b := by
      rw [setStatus, setProc_procs, here, Option.map_some]
    refine ⟨?_, rfl, fun b p' there status => ?_⟩
    · refine consistent.change here
        consistent.linked.setStatus procs rfl rfl rfl consistent.held rfl ?_
        (consistent.still_elected procs (fun status => by cases status)) consistent.active
      rw [Proc.Placed, links]
      exact .inl rfl
    · rw [procs] at there
      split at there
      · cases there
        cases status
      · next different =>
        rcases consistent.elected b p' there status with entry | waiting
        · rw [current, Option.some.injEq] at entry
          exact absurd entry.symm different
        · exact waiting

theorem Consistent.electNext (consistent : k.Consistent)
    (idle : ∀ b p, k.procs b = some p → p.status = .elected → p.pid = 0 ∧ p.links = some .ready)
    (run : k.electNext = .ok k') :
    k'.Consistent ∧ ∃ a p, (k.lists .ready).getLast? = some a ∧ k.procs a = some p ∧
      k.processesTable p.pid = some a ∧ k' = k.elect a a p.pid := by
  obtain ⟨a, p, b, last, here, entry, rfl⟩ := electNext_eq consistent.linked run
  have owned := consistent.owned a p here
  rw [owned, Option.some.injEq] at entry
  subst b
  have procs (b : Addr) : (k.elect a a p.pid).procs b =
      if b = a then some { p with status := .elected, links := none } else k.procs b :=
    elect_procs here
  refine ⟨?_, a, p, last, here, owned, rfl⟩
  refine consistent.change here
    ?_ procs rfl rfl rfl (fun q free => ?_) rfl rfl (fun b p' there status => ?_) ⟨a, owned⟩
  · exact consistent.linked.unlink.setStatus.of_eq rfl fun _ => rfl
  · change (k.lists (.queue q)).erase a = []
    rw [consistent.held q free, List.erase_nil]
  · change k.processesTable p.pid = some b ∨ _
    rw [procs] at there
    split at there
    · next same => exact .inl (same ▸ owned)
    · exact .inr (idle b p' there status)

theorem Running.elect (here : k.procs a = some p) (owned : k.processesTable p.pid = some a) :
    (k.elect a a p.pid).Running :=
  ⟨a, _, owned, (elect_procs here).trans (if_pos rfl), rfl⟩

theorem Consistent.scheduling (consistent : k.Consistent) (run : k.scheduling = .ok k') :
    k'.Consistent ∧ k'.Running := by
  obtain ⟨k₁, k₂, k₃, a, woken, reaped, current, back, next⟩ :=
    scheduling_eq consistent.linked run
  have consistent₂ := (consistent.woken woken).reaped reaped
  obtain ⟨consistent₃, -, idle⟩ := consistent₂.putBack current back
  obtain ⟨consistent₄, b, p, -, here, owned, rfl⟩ := consistent₃.electNext idle next
  exact ⟨consistent₄, Running.elect here owned⟩


theorem Consistent.segment {context : Frame} {e : Event} (consistent : k.Consistent)
    (run : k.segment context e = .ok (k', n)) : k'.Consistent := by
  obtain ⟨a, current⟩ := consistent.active
  exact consistent.moves (segment_moves consistent current run)

theorem Returned.active (returned : Returned k k') (consistent : k.Consistent)
    (current : k.processesTable k.activePID = some a) (here : k.procs a = some p)
    (status : p.status = .elected) :
    k'.processesTable k'.activePID = some a ∧
      ∃ p', k'.procs a = some p' ∧ p'.status = p.status ∧ p'.links = p.links ∧
        p'.priority = p.priority := by
  cases returned with
  | same procs lists table same =>
      exact ⟨by rw [table, same, current], p, by rw [procs, here], rfl, rfl, rfl⟩
  | @collected child parent p' there ended =>
      have other : a ≠ child := by
        rintro rfl
        rw [here, Option.some.injEq] at there
        rw [there, ended] at status
        cases status
      exact ⟨current, _, (relink_procs.trans (if_neg other)).trans
        (dropSibling_procs.trans (congrArg _ here)), rfl, rfl, rfl⟩
  | @born k₁ pid p₀ p₁ p₂ c heap free joined active new there lower =>
      obtain ⟨⟨g, same, procs⟩, -, sameActive, -, -, table⟩ := birth_procs joined
      have other : a ≠ k.nextBlock := by
        rintro rfl
        rw [(consistent.fresh _ le_rfl).1] at here
        cases here
      have otherPid : k.activePID ≠ pid := by
        intro equal
        rw [equal, free] at current
        cases current
      refine ⟨?_, g a p, ?_, (same a p).status, (same a p).links, (same a p).priority⟩
      · change k₁.processesTable k₁.activePID = some a
        rw [table, sameActive, Function.update_of_ne otherPid, current]
      · rw [procs, if_neg other, here, Option.map_some]

theorem Running.returned (running : k.Running) (consistent : k.Consistent)
    (returned : Returned k k') : k'.Running := by
  obtain ⟨a, p, current, here, status⟩ := running
  obtain ⟨current', p', here', status', -⟩ := returned.active consistent current here status
  exact ⟨a, p', current', here', status'.trans status⟩

theorem Running.edit {f : Proc → Proc} (running : k.Running)
    (same : ∀ p, (f p).status = p.status) : (k.setProc b f).Running := by
  obtain ⟨a, p, current, here, status⟩ := running
  have kept : ((k.setProc b f).procs a).map Proc.status = some p.status := by
    rw [setProc_map _ _ same, here, Option.map_some]
  obtain ⟨p', there, equal⟩ := Option.map_eq_some_iff.mp kept
  exact ⟨a, p', current, there, equal.trans status⟩

theorem Consistent.setContext {context : Frame} (consistent : k.Consistent) :
    (k.setContext a context).Consistent :=
  consistent.edit fun _ => ⟨rfl, rfl, rfl⟩

theorem Consistent.step {e : Event} (consistent : k.Consistent) (running : k.Running)
    (run : k.step e = .ok (k', n)) : k'.Consistent ∧ k'.Running := by
  obtain ⟨a, p, k₁, current, here, segment, finish⟩ := step_eq run
  have consistent₁ := consistent.segment segment
  rcases finish_eq finish with ⟨value, out, rfl, rfl⟩ | ⟨context, rfl, finish⟩
  · have returned := segment_returned consistent segment
    exact ⟨consistent₁.setContext, (running.returned consistent returned).edit fun _ => rfl⟩
  · exact consistent₁.setContext.scheduling finish

end Kernel

open Kernel Transition

/-- After `start(idle, ...)` process 0 is alone, ELECTED and in the ready list. -/
theorem Booted.state {k : Kernel} (booted : Booted k) :
    ∃ p, p.pid = 0 ∧ p.status = .elected ∧ p.links = some .ready ∧ p.context = .user ∧
      p.parent = none ∧ p.childrenList = [] ∧ p.siblings = none ∧ k.nextBlock = 3 ∧
      k.activePID = 0 ∧ k.nbInterrupt = 0 ∧ (∀ q, k.records q = none) ∧
      (∀ i, k.queues i = none) ∧
      (∀ a, k.procs a = if a = 1 then some p else none) ∧
      (∀ h, k.lists h = if h = .ready then [1] else []) ∧
      ∀ pid, k.processesTable pid = if pid = 0 then some 1 else none := by
  obtain ⟨ssize, prio, name, run⟩ := booted
  rcases start_eq rfl (fun zero => absurd rfl zero) run with ⟨heap, next, -, -, -, ended⟩ |
    ⟨pid, stackSize, heap, k₁, newPid, -, -, yielded, joined⟩
  · cases ended
  · have first : pid = 0 := by
      cases newPid
      rfl
    subst first
    rcases joined with ⟨-, rfl⟩ | ⟨b, owner, placed, others, -⟩
    · obtain rfl := yielded.same
      refine ⟨{ Kernel.booting.created 0 stackSize prio name with links := some .ready },
        rfl, rfl, rfl, rfl, rfl, rfl, rfl, rfl, rfl, rfl, fun _ => rfl, fun _ => rfl,
        fun a => ?_, fun h => ?_, fun pid => ?_⟩
      · change ((Kernel.booting.born 0 _ heap).link 1 .ready).procs a = _
        rw [link_procs, born_procs, born_procs]
        split
        · rfl
        · next other => exact if_neg other
      · change ((Kernel.booting.born 0 _ heap).link 1 .ready).lists h = _
        rw [link_lists]
        split <;> rfl
      · change Function.update (fun _ => none) 0 (some 1) pid = _
        rw [Function.update_apply]
    · exact absurd rfl others

theorem Booted.consistent {k : Kernel} (booted : Booted k) : k.Consistent ∧ k.Running := by
  obtain ⟨p, pid, status, links, -, -, -, -, next, current, -, records, -, procs, lists, table⟩ :=
    booted.state
  have only (a : Addr) (p' : Proc) (there : k.procs a = some p') : a = 1 ∧ p' = p := by
    rw [procs] at there
    split at there
    · next same =>
      cases there
      exact ⟨same, rfl⟩
    · cases there
  have here : k.procs 1 = some p := by rw [procs, if_pos rfl]
  have running : k.processesTable k.activePID = some 1 := by rw [table, current, if_pos rfl]
  refine ⟨⟨⟨fun h => ?_, fun h a => ?_⟩, ?_, ?_, ?_, ?_, ?_, ?_, ⟨1, running⟩⟩,
    ⟨1, p, running, here, status⟩⟩
  · rw [lists]
    split <;> simp
  · rw [lists, procs]
    by_cases one : a = 1
    · subst a
      by_cases ready : h = .ready
      · simp [ready, links]
      · simp [ready, links, Ne.symm ready]
    · by_cases ready : h = .ready
      · simp [ready, one]
      · simp [ready, one]
  · intro a p' there
    obtain ⟨-, rfl⟩ := only a p' there
    rw [Proc.Placed, links]
    exact .inr ⟨rfl, status, pid⟩
  · intro number a entry
    rw [table] at entry
    split at entry
    · next zero =>
      cases entry
      exact ⟨by rw [zero]; decide, p, here, by rw [pid, zero]⟩
    · cases entry
  · intro a p' there
    obtain ⟨rfl, rfl⟩ := only a p' there
    rw [table, pid, if_pos rfl]
  · intro a later
    rw [next] at later
    have other : a ≠ 1 := by
      rintro rfl
      exact absurd later (by decide)
    exact ⟨by rw [procs, if_neg other], records a⟩
  · intro q _
    rw [lists, if_neg Head.noConfusion]
  · intro a p' there _
    obtain ⟨rfl, -⟩ := only a p' there
    exact .inl running

theorem consistent_of_run {history : History} {k : Kernel}
    (run : Reached history k) : k.Consistent ∧ k.Running :=
  run.stateInvariant (I := fun k => k.Consistent ∧ k.Running) (fun _ booted => booted.consistent)
    fun _ _ _ _ kept taken => kept.1.step kept.2 taken

end IntelX86Kernel

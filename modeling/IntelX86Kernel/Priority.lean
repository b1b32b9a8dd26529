import IntelX86Kernel.Idle
import Mathlib.Order.Defs.LinearOrder

/-! The lists stay in order, and the active process has the highest priority. -/

namespace IntelX86Kernel

open Transition

namespace Kernel

variable {k k' : Kernel} {a b q : Addr} {p : Proc} {n : Next} {m : Mover} {g h : Head}

/-- The list under `h` is non-decreasing from `head->next` to `head->prev`. -/
def InOrder (k : Kernel) (h : Head) : Prop :=
  (k.lists h).Pairwise fun a b => k.sortKey h.field a ≤ k.sortKey h.field b

/-- The lists whose order matters: the dying list and the lists of queues that are no
longer in the table may be out of order after `chprio`. -/
def Ordered (k : Kernel) (h : Head) : Prop :=
  h = .ready ∨ h = .asleep ∨ h = .blocked ∨ h = .zombie ∨
    ∃ i q, i < NBQUEUE ∧ k.queues i = some q ∧ h = .queue q

def Sorted (k : Kernel) : Prop :=
  ∀ h, k.Ordered h → k.InOrder h

theorem pairwise_congr {field : Proc → Nat} {l : List Addr}
    (sorted : l.Pairwise fun a b => k.sortKey field a ≤ k.sortKey field b)
    (same : ∀ a ∈ l, k'.sortKey field a = k.sortKey field a) :
    l.Pairwise fun a b => k'.sortKey field a ≤ k'.sortKey field b := by
  refine sorted.imp_of_mem fun left right below => ?_
  rw [same _ left, same _ right]
  exact below

theorem pairwise_place {field : Proc → Nat} {l : List Addr}
    (sorted : l.Pairwise fun a b => k.sortKey field a ≤ k.sortKey field b) :
    (k.place field a l).Pairwise fun a b => k.sortKey field a ≤ k.sortKey field b := by
  have total : Std.Total fun x y => k.sortKey field x ≤ k.sortKey field y :=
    ⟨fun x y => Nat.le_total _ _⟩
  have trans : IsTrans Addr fun x y => k.sortKey field x ≤ k.sortKey field y :=
    ⟨fun x y z => Nat.le_trans⟩
  exact List.Pairwise.orderedInsert a l sorted

theorem sortKey_congr {field : Proc → Nat} (same : (k'.procs a).map field = (k.procs a).map field) :
    k'.sortKey field a = k.sortKey field a := by
  rw [sortKey, sortKey, same]

theorem sortKey_other {field : Proc → Nat} (f : Proc → Proc) (other : b ≠ a) :
    (k.setProc a f).sortKey field b = k.sortKey field b :=
  sortKey_congr (by rw [setProc_procs, if_neg other])

theorem sortKey_relink {s : Status} :
    (k.relink a s h).sortKey g.field b = k.sortKey g.field b := by
  refine sortKey_congr ?_
  rw [relink_procs]
  split
  · next same =>
    subst same
    rw [Option.map_map]
    cases g <;> rfl
  · rfl

/-- A process may be changed in any way while it is moved: it leaves all lists first. -/
theorem InOrder.editRelink {f : Proc → Proc} {s : Status} (linked : k.Linked)
    (sorted : k.InOrder g) : ((k.setProc a f).relink a s h).InOrder g := by
  have rest : ((k.lists g).erase a).Pairwise fun x y =>
      (k.setProc a f).sortKey g.field x ≤ (k.setProc a f).sortKey g.field y := by
    refine pairwise_congr (k := k) (List.Pairwise.sublist List.erase_sublist sorted)
      fun b member => sortKey_other f ?_
    rintro rfl
    exact (linked.nodup g).not_mem_erase member
  have moved : (((k.setProc a f).relink a s h).lists g).Pairwise fun x y =>
      (k.setProc a f).sortKey g.field x ≤ (k.setProc a f).sortKey g.field y := by
    rw [relink_lists, setProc_lists]
    split
    · next same =>
      subst same
      exact pairwise_place rest
    · exact rest
  exact pairwise_congr moved fun b _ => sortKey_relink

theorem InOrder.edit {f : Proc → Proc} (sorted : k.InOrder g)
    (same : ∀ p, (f p).priority = p.priority ∧ (f p).wakeUpTime = p.wakeUpTime) :
    (k.setProc a f).InOrder g := by
  refine pairwise_congr (k := k) sorted fun b _ => sortKey_congr (setProc_map f _ fun p => ?_)
  cases g with
  | asleep => exact (same p).2
  | ready | dying | zombie | blocked | queue => exact (same p).1

theorem InOrder.absent {f : Proc → Proc} (sorted : k.InOrder g) (absent : a ∉ k.lists g) :
    (k.setProc a f).InOrder g := by
  refine pairwise_congr (k := k) sorted fun b member => sortKey_other f ?_
  rintro rfl
  exact absent member

theorem InOrder.erase (sorted : k.InOrder g) (linked : k.Linked)
    (lists : k'.lists g = (k.lists g).erase a)
    (procs : ∀ b, b ≠ a → k'.procs b = k.procs b) : k'.InOrder g := by
  rw [InOrder, lists]
  refine pairwise_congr (k := k) (List.Pairwise.sublist List.erase_sublist sorted)
    fun b member => sortKey_congr ?_
  rw [procs]
  rintro rfl
  exact (linked.nodup g).not_mem_erase member

def Loose (k : Kernel) : Prop :=
  (∃ a, k.processesTable 0 = some a) ∧
    ∀ a p, k.procs a = some p → p.status = .elected → p.links = none

theorem Loose.move (loose : k.Loose) (move : Move m k k') : k'.Loose := by
  obtain ⟨⟨idle, entry⟩, unlinked⟩ := loose
  cases move with
  | @relink a p h held here allowed =>
      refine ⟨⟨idle, entry⟩, fun b p' there status => ?_⟩
      rw [relink_procs] at there
      split at there
      · rw [here, Option.map_some, Option.some.injEq] at there
        subst p'
        exact absurd status (Head.status_ne_elected h)
      · exact unlinked b p' there status
  | @edit a f kind same =>
      refine ⟨⟨idle, entry⟩, fun b p' there status => ?_⟩
      rw [setProc_procs] at there
      split at there
      · obtain ⟨p, here, rfl⟩ := Option.map_eq_some_iff.mp there
        rw [(same p).links]
        exact unlinked a p here ((same p).status ▸ status)
      · exact unlinked b p' there status
  | @delay p time kind here =>
      refine ⟨⟨idle, entry⟩, fun b p' there status => ?_⟩
      rw [relink_procs] at there
      split at there
      · obtain ⟨p, -, rfl⟩ := Option.map_eq_some_iff.mp there
        cases status
      · next other =>
        rw [setProc_procs, if_neg other] at there
        exact unlinked b p' there status
  | @resort a p prio h held here sorted stays links kind =>
      refine ⟨⟨idle, entry⟩, fun b p' there status => ?_⟩
      rw [relink_procs] at there
      split at there
      · obtain ⟨p, -, rfl⟩ := Option.map_eq_some_iff.mp there
        exact absurd status (Head.status_ne_elected h)
      · next other =>
        rw [setProc_procs, if_neg other] at there
        exact unlinked b p' there status
  | @reprioritise a p prio here apart kind =>
      refine ⟨⟨idle, entry⟩, fun b p' there status => ?_⟩
      rw [setProc_procs] at there
      split at there
      · obtain ⟨p, here, rfl⟩ := Option.map_eq_some_iff.mp there
        exact unlinked a p here status
      · exact unlinked b p' there status
  | @birth k₁ pid p heap small free named status links context stack kept own kind joined =>
      obtain ⟨⟨g, same, procs⟩, -, -, -, -, table⟩ := birth_procs joined
      have other : (0 : Nat) ≠ pid := by
        rintro rfl
        rw [free] at entry
        cases entry
      refine ⟨⟨idle, ?_⟩, fun b p' there elected => ?_⟩
      · change k₁.processesTable 0 = some idle
        rw [table, Function.update_of_ne other, entry]
      · rw [procs] at there
        split at there
        · cases there
          change (g b p).status = .elected at elected
          rw [(same b p).status, status, if_neg (Ne.symm other)] at elected
          cases elected
        · obtain ⟨p₀, before, rfl⟩ := Option.map_eq_some_iff.mp there
          rw [(same b p₀).links]
          exact unlinked b p₀ before ((same b p₀).status ▸ elected)
  | store procs lists table current =>
      rw [Loose, procs, table]
      exact ⟨⟨idle, entry⟩, unlinked⟩

theorem Sorted.reprioritise {prio : Nat} (sorted : k.Sorted) (consistent : k.Consistent)
    (loose : k.Loose) (here : k.procs a = some p)
    (apart : p.status = .elected ∨ p.status = .asleep ∨ p.status = .dying ∨
      p.status = .blockedMessageQueue ∧ ∀ i < NBQUEUE, ∀ q, k.queues i = some q →
        ∀ b ∈ k.lists (.queue q), ∃ p', k.procs b = some p' ∧ p'.pid ≠ p.pid) :
    (k.setProc a fun p => { p with priority := prio }).Sorted := by
  have linked := consistent.linked
  intro g ordered
  by_cases asleep : g = .asleep
  · subst asleep
    exact pairwise_congr (k := k) (sorted _ ordered) fun b _ =>
      sortKey_congr (setProc_map _ _ fun _ => rfl)
  · refine (sorted g ordered).absent fun member => ?_
    have links := (linked.links_iff here).mpr member
    have placed := consistent.placed a p here
    rcases apart with status | status | status | ⟨status, absent⟩
    · rw [loose.2 a p here status] at links
      cases links
    · rw [Proc.Placed, links, status] at placed
      rcases placed with same | ⟨-, same, -⟩
      · cases g with
        | asleep => exact asleep rfl
        | ready | dying | zombie | blocked | queue => cases same
      · cases same
    · rw [Proc.Placed, links, status] at placed
      rcases placed with same | ⟨-, same, -⟩
      · cases g with
        | dying =>
            rcases ordered with same | same | same | same | ⟨i, q, -, -, same⟩ <;> cases same
        | ready | asleep | zombie | blocked | queue => cases same
      · cases same
    · rw [Proc.Placed, links, status] at placed
      rcases placed with same | ⟨-, same, -⟩
      · rcases ordered with rfl | rfl | rfl | rfl | ⟨i, q, small, slot, rfl⟩
        · cases same
        · cases same
        · cases same
        · cases same
        · obtain ⟨p', there, other⟩ := absent i small q slot a member
          rw [here, Option.some.injEq] at there
          exact other (there ▸ rfl)
      · cases same

theorem Sorted.birth {k₁ : Kernel} {pid : Nat} {heap : Addr → Option Nat} (sorted : k.Sorted)
    (consistent : k.Consistent)
    (joined : k₁ = k.born pid p heap ∨
      ∃ b placed, k₁ = (k.born pid p heap).join k.nextBlock b placed) :
    (k₁.link k.nextBlock .ready).counted.Sorted := by
  obtain ⟨⟨r, same, procs⟩, lists, -⟩ := birth_procs joined
  intro g ordered
  have queues : (k₁.link k.nextBlock .ready).counted.queues = k.queues := by
    rcases joined with rfl | ⟨b, placed, rfl⟩ <;> rfl
  have keys (b : Addr) (other : b ≠ k.nextBlock) :
      (k₁.link k.nextBlock .ready).counted.sortKey g.field b = k.sortKey g.field b := by
    refine sortKey_congr ?_
    rw [procs, if_neg other, Option.map_map]
    cases k.procs b with
    | none => rfl
    | some p =>
        cases g with
        | asleep => exact congrArg some (same b p).wakeUpTime
        | ready | dying | zombie | blocked | queue => exact congrArg some (same b p).priority
  have old (h : Head) (b : Addr) (member : b ∈ k.lists h) : b ≠ k.nextBlock := by
    rintro rfl
    obtain ⟨p', there, -⟩ := (consistent.linked.mem_iff h _).mp member
    rw [(consistent.fresh _ le_rfl).1] at there
    cases there
  have before : k.InOrder g := sorted g (by rw [Ordered, queues] at ordered; exact ordered)
  have linkKeys (b : Addr) : k₁.sortKey g.field b =
      (k₁.link k.nextBlock .ready).counted.sortKey g.field b := by
    refine (sortKey_congr ?_).symm
    change ((k₁.link k.nextBlock .ready).procs b).map g.field = _
    rw [link_procs]
    split
    · next equal =>
      rw [equal, Option.map_map]
      cases g <;> rfl
    · rfl
  change ((k₁.link k.nextBlock .ready).lists g).Pairwise _
  rw [link_lists, lists]
  split
  · next ready =>
    subst ready
    refine pairwise_congr (k := k₁) (pairwise_place ?_) fun b _ => (linkKeys b).symm
    exact pairwise_congr before fun b member => (linkKeys b).trans (keys b (old _ b member))
  · exact pairwise_congr before fun b member => keys b (old _ b member)

theorem Sorted.move (sorted : k.Sorted) (consistent : k.Consistent)
    (loose : m.kind = .priority → k.Loose) (move : Move m k k') : k'.Sorted := by
  have linked := consistent.linked
  cases move with
  | @relink a p h held here allowed =>
      intro g ordered
      have same : k.setProc a (fun p => p) = k := setProc_id here rfl
      have result := (sorted g ordered).editRelink (a := a) (f := fun p => p) (s := h.status)
        (h := h) linked
      rw [same] at result
      exact result
  | edit kind same =>
      exact fun g ordered => (sorted g ordered).edit
        fun p => ⟨(same p).priority, (same p).wakeUpTime⟩
  | delay kind here => exact fun g ordered => (sorted g ordered).editRelink linked
  | resort held here => exact fun g ordered => (sorted g ordered).editRelink linked
  | reprioritise here apart kind => exact sorted.reprioritise consistent (loose kind) here apart
  | birth small free named status links context stack kept own kind joined =>
      exact sorted.birth consistent joined
  | store procs lists table current number next records fresh queues quiet =>
      intro g ordered
      have same (b : Addr) : k'.sortKey g.field b = k.sortKey g.field b :=
        sortKey_congr (by rw [procs])
      rw [InOrder, lists]
      rcases ordered with ready | asleep | blocked | zombie | ⟨i, q, small, slot, rfl⟩
      · exact pairwise_congr (sorted g (.inl ready)) fun b _ => same b
      · exact pairwise_congr (sorted g (.inr (.inl asleep))) fun b _ => same b
      · exact pairwise_congr (sorted g (.inr (.inr (.inl blocked)))) fun b _ => same b
      · exact pairwise_congr (sorted g (.inr (.inr (.inr (.inl zombie))))) fun b _ => same b
      · rcases queues i q slot with before | empty
        · exact pairwise_congr (sorted _ (.inr (.inr (.inr (.inr ⟨i, q, small, before, rfl⟩)))))
            fun b _ => same b
        · rw [empty]
          exact .nil

theorem Sorted.moves (moves : Moves m k k') (sorted : k.Sorted) (consistent : k.Consistent)
    (loose : m.kind = .priority → k.Loose) : k'.Sorted := by
  have kept : k'.Sorted ∧ (m.kind = .priority → k'.Loose) := by
    induction moves with
    | refl => exact ⟨sorted, loose⟩
    | tail moves move ih =>
        obtain ⟨sorted, loose⟩ := ih
        exact ⟨sorted.move (consistent.moves moves) loose move,
          fun kind => (loose kind).move move⟩
  exact kept.1

theorem Sorted.woken (woken : Woken k k') (consistent : k.Consistent) (sorted : k.Sorted) :
    k'.Sorted := by
  induction woken with
  | none => exact sorted
  | sleeper here asleep late rest ih =>
      exact ih (consistent.wake here) fun g ordered =>
        (sorted g ordered).editRelink consistent.linked

theorem Sorted.reaped (reaped : Reaped k k') (consistent : k.Consistent) (sorted : k.Sorted) :
    k'.Sorted := by
  induction reaped with
  | none => exact sorted
  | process here dying other kept rest ih =>
      refine ih (consistent.reap here other) fun g ordered => ?_
      exact (sorted g ordered).erase consistent.linked rfl fun b apart =>
        reap_procs.trans (if_neg apart)

theorem Sorted.putBack (sorted : k.Sorted) (linked : k.Linked) (run : k.putBack a = .ok k') :
    k'.Sorted := by
  obtain ⟨p, here, ⟨-, rfl⟩ | ⟨-, -, rfl⟩ | ⟨-, rfl, -⟩⟩ := putBack_eq linked run
  · exact sorted
  · intro g ordered
    have same : k.setProc a (fun p => p) = k := setProc_id here rfl
    have result := (sorted g ordered).editRelink (a := a) (f := fun p => p) (s := .ready)
      (h := .ready) linked
    rw [same] at result
    exact result
  · exact fun g ordered => (sorted g ordered).edit fun _ => ⟨rfl, rfl⟩

theorem Sorted.elect (sorted : k.Sorted) (linked : k.Linked) (here : k.procs a = some p) :
    (k.elect a a p.pid).Sorted := by
  intro g ordered
  exact (sorted g ordered).erase linked rfl fun b other =>
    (elect_procs here).trans (if_neg other)

/-- No READY process outranks the active one. -/
def Top (k : Kernel) : Prop :=
  ∀ a p b p', k.processesTable k.activePID = some a → k.procs a = some p →
    k.procs b = some p' → p'.status = .ready → p'.priority ≤ p.priority

theorem last_highest {field : Proc → Nat} {l : List Addr}
    (sorted : l.Pairwise fun a b => k.sortKey field a ≤ k.sortKey field b)
    (last : l.getLast? = some a) (member : b ∈ l) : k.sortKey field b ≤ k.sortKey field a := by
  obtain ⟨front, rfl⟩ := List.getLast?_eq_some_iff.mp last
  rcases List.mem_append.mp member with before | same
  · exact (List.pairwise_append.mp sorted).2.2 b before a (by simp)
  · rw [List.mem_singleton.mp same]

theorem scheduling_top (consistent : k.Consistent) (sorted : k.Sorted)
    (run : k.scheduling = .ok k') : k'.Sorted ∧ k'.Top := by
  obtain ⟨k₁, k₂, k₃, a, c, p, woken, reaped, back, -, -, consistent₁, consistent₂, consistent₃,
    last, here, owned, rfl⟩ := consistent.phases run
  have sorted₁ := sorted.woken woken consistent
  have sorted₂ := sorted₁.reaped reaped consistent₁
  have sorted₃ := sorted₂.putBack consistent₂.linked back
  refine ⟨sorted₃.elect consistent₃.linked here, fun a' p₁ b p' active there other ready => ?_⟩
  have self : a' = c := by
    rw [show (k₃.elect c c p.pid).processesTable (k₃.elect c c p.pid).activePID =
      k₃.processesTable p.pid from rfl, owned, Option.some.injEq] at active
    exact active.symm
  subst self
  rw [elect_procs here, if_pos rfl, Option.some.injEq] at there
  subst p₁
  rw [elect_procs here] at other
  split at other
  · cases other
    cases ready
  · obtain ⟨g, links, status⟩ :=
      (consistent₃.placed b p' other).links_of_status (by rw [ready]; nofun)
    rw [ready] at status
    have head : g = .ready := by
      cases g with
      | ready => rfl
      | asleep | dying | zombie | blocked | queue => cases status
    subst head
    have member := (consistent₃.linked.links_iff other).mp links
    have below := last_highest (sorted₃ .ready (.inl rfl)) last member
    rw [sortKey, sortKey, other, here] at below
    exact below

theorem Top.returned (top : k.Top) (consistent : k.Consistent) (running : k.Running)
    (returned : Returned k k') : k'.Top := by
  obtain ⟨c, r, current, here, status⟩ := running
  obtain ⟨current', r', here', -, -, priority⟩ :=
    returned.active consistent current here status
  intro a p b p' active there other ready
  rw [current', Option.some.injEq] at active
  subst active
  rw [here', Option.some.injEq] at there
  subst there
  rw [priority]
  cases returned with
  | same procs lists table same =>
      rw [procs] at other
      exact top c r b p' current here other ready
  | @collected child parent p₀ found ended =>
      rw [relink_procs] at other
      split at other
      · obtain ⟨p₁, -, rfl⟩ := Option.map_eq_some_iff.mp other
        cases ready
      · rw [dropSibling_procs] at other
        obtain ⟨p₁, before, rfl⟩ := Option.map_eq_some_iff.mp other
        exact top c r b p₁ current here before ready
  | @born k₁ pid p₀ p₁ p₂ d heap free joined active₁ new there₁ lower =>
      obtain ⟨⟨g, same, procs⟩, -, sameActive, -, -, table⟩ := birth_procs joined
      by_cases self : b = k.nextBlock
      · subst self
        rw [new, Option.some.injEq] at other
        subst p'
        have whole : k₁.activePID = (k₁.link k.nextBlock .ready).counted.activePID := rfl
        rw [whole, current', Option.some.injEq] at active₁
        subst active₁
        rw [here', Option.some.injEq] at there₁
        rw [← there₁, priority] at lower
        exact lower
      · rw [procs, if_neg self] at other
        obtain ⟨p₃, before, rfl⟩ := Option.map_eq_some_iff.mp other
        rw [(same b p₃).priority]
        exact top c r b p₃ current here before ((same b p₃).status ▸ ready)

theorem Sorted.saved {context : Frame} (sorted : k.Sorted) :
    (k.setContext a context).Sorted :=
  fun g ordered => (sorted g ordered).edit fun _ => ⟨rfl, rfl⟩

theorem Top.saved {context : Frame} (top : k.Top) : (k.setContext a context).Top := by
  intro b p c p' active there other ready
  rw [Kernel.setContext, setProc_procs] at there other
  have same (d : Addr) (p : Proc) (found : (if d = a then (k.procs a).map fun p =>
      { p with context := context } else k.procs d) = some p) :
      ∃ p₀, k.procs d = some p₀ ∧ p.priority = p₀.priority ∧ p.status = p₀.status := by
    split at found
    · next equal =>
      obtain ⟨p₀, before, rfl⟩ := Option.map_eq_some_iff.mp found
      exact ⟨p₀, equal ▸ before, rfl, rfl⟩
    · exact ⟨p, found, rfl, rfl⟩
  obtain ⟨p₁, before, priority, -⟩ := same b p there
  obtain ⟨p₂, before', priority', status⟩ := same c p' other
  rw [priority, priority']
  exact top b p₁ c p₂ active before before' (status ▸ ready)

end Kernel

open Kernel

theorem Booted.sorted {k : Kernel} (booted : Booted k) : k.Sorted ∧ k.Top := by
  obtain ⟨p, -, status, -, -, -, -, -, -, -, -, -, -, procs, lists, -⟩ := booted.state
  refine ⟨fun g _ => ?_, fun a p' b p₁ _ _ there ready => ?_⟩
  · rw [Kernel.InOrder, lists]
    split
    · exact List.pairwise_singleton _ _
    · exact .nil
  · rw [procs] at there
    split at there
    · cases there
      rw [status] at ready
      cases ready
    · cases there

/-- In every state reached while process 0 only starts processes, no READY process has a
higher priority than the active one, and the lists are in order. -/
theorem active_has_highest_priority {history : History} {k : Kernel}
    (run : Reached history k) (starts : Meets IdleStarts history) : k.Sorted ∧ k.Top := by
  refine run.invariant (I := fun _ k => k.Sorted ∧ k.Top) (fun _ booted => booted.sorted)
    (fun past k e n k' run starts kept taken start => ?_) starts
  obtain ⟨sorted, top⟩ := kept
  obtain ⟨consistent, running⟩ := consistent_of_run run
  obtain ⟨a, p, k₁, current, here, segment, finish⟩ := step_eq taken
  have loose (kind : (k.mover a p.context e).kind = .priority) : k.Loose := by
    obtain ⟨idle, p₀, entry, -⟩ := idle_of_run run starts
    refine ⟨⟨idle, entry⟩, ?_⟩
    rcases elected_unlinked_of_run run starts with early | unlinked
    · have allowed := start (unscheduled_active run early)
      change e.starts = true at allowed
      rcases Event.starts_cases allowed with rfl | rfl | ⟨ssize, prio, name, g, s, rfl⟩
      · cases kind
      · exact absurd kind p.context.kind_ne_priority
      · cases kind
    · exact unlinked
  have consistent₁ := consistent.segment segment
  have sorted₁ := sorted.moves (segment_moves consistent current segment) consistent loose
  rcases finish_eq finish with ⟨value, out, rfl, rfl⟩ | ⟨context, rfl, finish⟩
  · exact ⟨sorted₁.saved,
      (top.returned consistent running (segment_returned consistent segment)).saved⟩
  · exact scheduling_top consistent₁.setContext sorted₁.saved finish

/-- A child raises its parent above itself, which then sleeps. -/
theorem active_has_highest_priority_raised : ∃ (history : History) (k : Kernel),
    history.length = 8 ∧ k.Sorted ∧ k.Top := by
  obtain ⟨history, k, run, checked⟩ := reached_by
    [.call (.start 512 10 [97] true true), .call (.start 512 20 [98] true true),
      .call (.start 512 5 [99] true true), .call (.chprio 1 30), .resume,
      .call (.waitClock 3), .resume, .clockInterrupt]
    (fun history _ => decide (history.length = 8) && decide (Meets IdleStarts history))
    (by decide +kernel)
  simp only [Bool.and_eq_true, decide_eq_true_eq] at checked
  exact ⟨history, k, checked.1, active_has_highest_priority run checked.2⟩

end IntelX86Kernel

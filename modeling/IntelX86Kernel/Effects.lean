import IntelX86Kernel.System

/-! What the list operations do to a kernel whose lists and link fields agree.

`relink` is the common normal form of every move of a process between two lists. -/

namespace IntelX86Kernel

theorem bind_eq_ok {φ α β : Type} {x : Except φ α} {f : α → Except φ β} {r : β} :
    (x >>= f) = .ok r ↔ ∃ a, x = .ok a ∧ f a = .ok r := by
  cases x with
  | error fault => simp [bind, Except.bind]
  | ok a => simp [bind, Except.bind]

/-- The field a list is sorted by: only the sleepers are ordered by `wake_up_time`. -/
def Head.field : Head → Proc → Nat
  | .asleep => Proc.wakeUpTime
  | _ => Proc.priority

namespace Kernel

variable {k k' : Kernel} {a b : Addr} {p : Proc} {s : Status} {g h : Head}
  {field : Proc → Nat}

def sortKey (k : Kernel) (field : Proc → Nat) (a : Addr) : Nat :=
  ((k.procs a).map field).getD 0

def place (k : Kernel) (field : Proc → Nat) (a : Addr) (l : List Addr) : List Addr :=
  l.orderedInsert (fun x y => k.sortKey field x ≤ k.sortKey field y) a

/-- Process `a` leaves the list it is in, joins the list under `h` and gets status `s`. -/
def relink (k : Kernel) (a : Addr) (s : Status) (h : Head) : Kernel :=
  { k with
    procs := Function.update k.procs a
      ((k.procs a).map fun p => { p with status := s, links := some h })
    lists := fun g =>
      if g = h then k.place h.field a ((k.lists h).erase a) else (k.lists g).erase a }

def unlink (k : Kernel) (a : Addr) : Kernel :=
  { k with
    procs := Function.update k.procs a ((k.procs a).map fun p => { p with links := none })
    lists := fun g => (k.lists g).erase a }

def link (k : Kernel) (a : Addr) (h : Head) : Kernel :=
  { k with
    procs := Function.update k.procs a ((k.procs a).map fun p => { p with links := some h })
    lists := Function.update k.lists h (k.place h.field a (k.lists h)) }

theorem deref_eq_ok : k.deref a = .ok p ↔ k.procs a = some p := by
  unfold deref
  split <;> simp_all

theorem record_eq_ok {q : Addr} {mq : MessageQueue} :
    k.record q = .ok mq ↔ k.records q = some mq := by
  unfold record
  split <;> simp_all

theorem active_eq_ok : k.active = .ok a ↔ k.processesTable k.activePID = some a := by
  unfold active
  split <;> simp_all

theorem tableAt_eq_ok {pid : Int} {entry : Option Addr} :
    k.tableAt pid = .ok entry ↔
      (0 ≤ pid ∧ pid < MAXNPROC) ∧ k.processesTable pid.toNat = entry := by
  unfold tableAt
  split <;> simp_all

theorem setProc_procs (f : Proc → Proc) :
    (k.setProc a f).procs b = if b = a then (k.procs a).map f else k.procs b := by
  simp only [setProc, Function.update_apply]

theorem setProc_here {f : Proc → Proc} (here : k.procs a = some p) :
    (k.setProc a f).procs a = some (f p) := by
  rw [setProc_procs, if_pos rfl, here, Option.map_some]

theorem setProc_map {β : Type} (f : Proc → Proc) (g : Proc → β) (keeps : ∀ p, g (f p) = g p) :
    ((k.setProc a f).procs b).map g = (k.procs b).map g := by
  rw [setProc_procs]
  split
  · subst b
    cases k.procs a <;> simp [keeps]
  · rfl

@[simp] theorem setProc_lists (f : Proc → Proc) : (k.setProc a f).lists = k.lists := rfl
@[simp] theorem setProc_processesTable (f : Proc → Proc) :
    (k.setProc a f).processesTable = k.processesTable := rfl
@[simp] theorem setProc_activePID (f : Proc → Proc) :
    (k.setProc a f).activePID = k.activePID := rfl
@[simp] theorem setProc_records (f : Proc → Proc) : (k.setProc a f).records = k.records := rfl
@[simp] theorem setProc_queues (f : Proc → Proc) : (k.setProc a f).queues = k.queues := rfl
@[simp] theorem setProc_heap (f : Proc → Proc) : (k.setProc a f).heap = k.heap := rfl
@[simp] theorem setProc_nextBlock (f : Proc → Proc) :
    (k.setProc a f).nextBlock = k.nextBlock := rfl
@[simp] theorem setProc_nbProc (f : Proc → Proc) : (k.setProc a f).nbProc = k.nbProc := rfl
@[simp] theorem setProc_nbInterrupt (f : Proc → Proc) :
    (k.setProc a f).nbInterrupt = k.nbInterrupt := rfl

theorem relink_procs : (k.relink a s h).procs b =
    if b = a then (k.procs a).map fun p => { p with status := s, links := some h }
    else k.procs b := by
  simp only [relink, Function.update_apply]

theorem relink_lists : (k.relink a s h).lists g =
    if g = h then k.place h.field a ((k.lists h).erase a) else (k.lists g).erase a := rfl

@[simp] theorem relink_processesTable :
    (k.relink a s h).processesTable = k.processesTable := rfl
@[simp] theorem relink_activePID : (k.relink a s h).activePID = k.activePID := rfl
@[simp] theorem relink_records : (k.relink a s h).records = k.records := rfl
@[simp] theorem relink_queues : (k.relink a s h).queues = k.queues := rfl
@[simp] theorem relink_heap : (k.relink a s h).heap = k.heap := rfl
@[simp] theorem relink_nextBlock : (k.relink a s h).nextBlock = k.nextBlock := rfl
@[simp] theorem relink_nbProc : (k.relink a s h).nbProc = k.nbProc := rfl
@[simp] theorem relink_nbInterrupt : (k.relink a s h).nbInterrupt = k.nbInterrupt := rfl

theorem mem_place {l : List Addr} : b ∈ k.place field a l ↔ b = a ∨ b ∈ l :=
  List.mem_orderedInsert _

theorem place_perm (l : List Addr) : (k.place field a l).Perm (a :: l) :=
  List.perm_orderedInsert _ a l

/-- The link fields and the lists agree, and no list visits a process twice. -/
structure Linked (k : Kernel) : Prop where
  nodup : ∀ h, (k.lists h).Nodup
  mem_iff : ∀ h a, a ∈ k.lists h ↔ ∃ p, k.procs a = some p ∧ p.links = some h

theorem Linked.links_iff {h : Head} (linked : k.Linked) (here : k.procs a = some p) :
    p.links = some h ↔ a ∈ k.lists h := by
  rw [linked.mem_iff]
  constructor
  · exact fun links => ⟨p, here, links⟩
  · rintro ⟨p', there, links⟩
    rw [here, Option.some.injEq] at there
    exact there ▸ links

theorem Linked.of_eq (linked : k.Linked) (lists : k'.lists = k.lists)
    (links : ∀ a, (k'.procs a).map Proc.links = (k.procs a).map Proc.links) : k'.Linked := by
  refine ⟨fun h => lists ▸ linked.nodup h, fun h a => ?_⟩
  rw [lists, linked.mem_iff]
  have same := links a
  cases left : k.procs a <;> cases right : k'.procs a <;> simp_all

theorem Linked.setProc (linked : k.Linked) (f : Proc → Proc) (keeps : ∀ p, (f p).links = p.links) :
    (k.setProc a f).Linked := by
  refine linked.of_eq rfl fun b => ?_
  rw [setProc_procs]
  split
  · subst b
    cases k.procs a <;> simp [keeps]
  · rfl

theorem Linked.relink (linked : k.Linked) (here : k.procs a = some p) :
    (k.relink a s h).Linked := by
  constructor
  · intro g
    rw [relink_lists]
    split
    · subst g
      refine (place_perm _).nodup_iff.mpr (List.nodup_cons.mpr ⟨?_, (linked.nodup h).erase a⟩)
      exact fun member => (linked.nodup h).not_mem_erase member
    · exact (linked.nodup g).erase a
  · intro g b
    rw [relink_lists, relink_procs]
    by_cases same : b = a
    · subst b
      by_cases head : g = h
      · simp [head, mem_place, here]
      · have absent := (linked.nodup g).not_mem_erase (a := a)
        simp [head, absent, here, Ne.symm head]
    · have others := linked.mem_iff g b
      by_cases head : g = h
      · subst g
        simp [mem_place, same, List.mem_erase_of_ne same, others]
      · simp [head, same, List.mem_erase_of_ne same, others]

theorem insertSorted_eq {key : Addr → Option Nat} {prio : Nat} {l placed : List Addr}
    (own : key a = some prio) (run : insertSorted key a prio l = .ok placed) :
    placed = l.orderedInsert (fun x y => (key x).getD 0 ≤ (key y).getD 0) a := by
  induction l generalizing placed with
  | nil =>
      simp only [insertSorted, Except.ok.injEq] at run
      simp [← run]
  | cons cur rest ih =>
      simp only [insertSorted] at run
      cases value : key cur with
      | none => simp [value] at run
      | some n =>
          simp only [value] at run
          split at run
          · next below =>
            cases tail : insertSorted key a prio rest with
            | error fault => simp [tail] at run
            | ok done =>
                simp only [tail, Except.ok.injEq] at run
                have stop : ¬ prio ≤ n := by omega
                simp [← run, own, value, stop, ← ih tail]
          · next above =>
            simp only [Except.ok.injEq] at run
            have stop : prio ≤ n := by omega
            simp [← run, own, value, stop]

theorem queueAdd_eq (run : k.queueAdd a h field = .ok k') :
    ∃ p, k.procs a = some p ∧ p.links = none ∧
      k' = (k.setList h (k.place field a (k.lists h))).setProc a
        fun p => { p with links := some h } := by
  simp only [queueAdd, bind_eq_ok, deref_eq_ok] at run
  obtain ⟨p, here, run⟩ := run
  split at run
  · next unlinked =>
    simp only [bind_eq_ok, Except.ok.injEq] at run
    obtain ⟨placed, inserted, rfl⟩ := run
    have own : (k.procs a).map field = some (field p) := by simp [here]
    have sorted := insertSorted_eq own inserted
    exact ⟨p, here, unlinked, by rw [sorted]; rfl⟩
  · cases run

theorem queueDel_eq (run : k.queueDel a = .ok k') :
    ∃ p g, k.procs a = some p ∧ p.links = some g ∧
      k' = (k.setList g ((k.lists g).erase a)).setProc a fun p => { p with links := none } := by
  simp only [queueDel, bind_eq_ok, deref_eq_ok] at run
  obtain ⟨p, here, run⟩ := run
  cases links : p.links with
  | none => simp [links] at run
  | some g =>
      simp only [links, Except.ok.injEq] at run
      exact ⟨p, g, here, links, run.symm⟩

theorem sortKey_setProc (f : Proc → Proc) (keeps : ∀ p, field (f p) = field p) :
    (k.setProc a f).sortKey field b = k.sortKey field b := by
  simp only [sortKey, setProc_procs]
  split
  · subst b
    cases k.procs a <;> simp [keeps]
  · rfl

theorem place_congr (same : ∀ b, k'.sortKey field b = k.sortKey field b) (l : List Addr) :
    k'.place field a l = k.place field a l := by
  simp only [place, same]

theorem Linked.erase_other (linked : k.Linked) (here : k.procs a = some p)
    (other : p.links ≠ some g) : (k.lists g).erase a = k.lists g := by
  refine List.erase_of_not_mem fun member => ?_
  obtain ⟨q, found, links⟩ := (linked.mem_iff g a).mp member
  rw [here, Option.some.injEq] at found
  exact other (found ▸ links)

theorem setProc_setProc (f f' : Proc → Proc) :
    (k.setProc a f).setProc a f' = k.setProc a fun p => f' (f p) := by
  simp [setProc, Function.comp_def]

theorem setProc_id {f : Proc → Proc} (here : k.procs a = some p) (same : f p = p) :
    k.setProc a f = k := by
  rw [setProc, here, Option.map_some, same, ← here, Function.update_eq_self]

theorem unlink_procs : (k.unlink a).procs b =
    if b = a then (k.procs a).map fun p => { p with links := none } else k.procs b := by
  simp only [unlink, Function.update_apply]

theorem link_procs : (k.link a h).procs b =
    if b = a then (k.procs a).map fun p => { p with links := some h } else k.procs b := by
  simp only [link, Function.update_apply]

theorem unlink_lists : (k.unlink a).lists g = (k.lists g).erase a := rfl

theorem link_lists : (k.link a h).lists g =
    if g = h then k.place h.field a (k.lists h) else k.lists g := by
  simp only [link, Function.update_apply]

theorem sortKey_unlink : (k.unlink a).sortKey h.field b = k.sortKey h.field b :=
  sortKey_setProc (k := k) (a := a) (fun p => { p with links := none })
    fun p => by cases h <;> rfl

theorem Linked.unlink (linked : k.Linked) : (k.unlink a).Linked := by
  refine ⟨fun g => (linked.nodup g).erase a, fun g b => ?_⟩
  rw [unlink_lists, unlink_procs]
  by_cases same : b = a
  · subst b
    have absent := (linked.nodup g).not_mem_erase (a := a)
    cases k.procs a <;> simp [absent]
  · simp [same, List.mem_erase_of_ne same, linked.mem_iff g b]

theorem setStatus_unlink : (k.unlink a).setStatus a s = (k.setStatus a s).unlink a := by
  simp only [setStatus, setProc, unlink, Function.update_self, Function.update_idem,
    Option.map_map]
  rfl

theorem setStatus_link : (k.link a h).setStatus a s = (k.setStatus a s).link a h := by
  have keys (b : Addr) : (k.setStatus a s).sortKey h.field b = k.sortKey h.field b :=
    sortKey_setProc _ fun p => by cases h <;> rfl
  simp only [link, place_congr keys]
  simp only [setStatus, setProc, Function.update_self, Function.update_idem, Option.map_map]
  rfl

theorem relink_eq : k.relink a s h = ((k.setStatus a s).unlink a).link a h := by
  have keys (b : Addr) : ((k.setStatus a s).unlink a).sortKey h.field b = k.sortKey h.field b :=
    sortKey_unlink.trans (sortKey_setProc _ fun p => by cases h <;> rfl)
  simp only [link, place_congr keys]
  refine Kernel.ext rfl rfl ?_ rfl ?_ rfl rfl rfl rfl rfl rfl
  · simp only [relink, setStatus, setProc, unlink, Function.update_self, Function.update_idem,
      Option.map_map]
    rfl
  · funext g
    simp only [relink_lists, Function.update_apply, unlink_lists]
    rfl

theorem unlink_self (linked : k.Linked) (here : k.procs a = some p) (links : p.links = none) :
    k.unlink a = k := by
  refine Kernel.ext rfl rfl ?_ rfl ?_ rfl rfl rfl rfl rfl rfl
  · have same : { p with links := none } = p := by rw [← links]
    rw [unlink, here, Option.map_some, same, ← here, Function.update_eq_self]
  · funext g
    exact linked.erase_other here (by simp [links])

theorem relink_unlink (linked : k.Linked) (here : k.procs a = some p) :
    (k.unlink a).relink a s h = k.relink a s h := by
  have unlinked : (k.unlink a).procs a = some { p with links := none } := by
    simp [unlink_procs, here]
  rw [relink_eq, setStatus_unlink, relink_eq]
  rw [← setStatus_unlink, ← setStatus_unlink, unlink_self linked.unlink unlinked rfl]

theorem queueDel_unlink (linked : k.Linked) (run : k.queueDel a = .ok k') :
    (∃ p g, k.procs a = some p ∧ p.links = some g) ∧ k' = k.unlink a := by
  obtain ⟨p, g, here, links, rfl⟩ := queueDel_eq run
  refine ⟨⟨p, g, here, links⟩, Kernel.ext rfl rfl rfl rfl ?_ rfl rfl rfl rfl rfl rfl⟩
  funext f
  simp only [setProc_lists, setList, Function.update_apply, unlink_lists]
  split
  · next source => rw [source]
  · next source =>
    have other : p.links ≠ some f := fun same => source (Option.some.inj (same.symm.trans links))
    exact (linked.erase_other here other).symm

theorem queueAdd_link (run : k.queueAdd a h h.field = .ok k') :
    (∃ p, k.procs a = some p ∧ p.links = none) ∧ k' = k.link a h := by
  obtain ⟨p, here, links, rfl⟩ := queueAdd_eq run
  exact ⟨⟨p, here, links⟩, rfl⟩

theorem dropLast_eq_erase {l : List Addr} (nodup : l.Nodup) (last : l.getLast? = some a) :
    l.dropLast = l.erase a := by
  obtain ⟨front, rfl⟩ := List.getLast?_eq_some_iff.mp last
  have absent : a ∉ front := by
    intro member
    exact (List.nodup_append.mp nodup).2.2 a member a (by simp) rfl
  rw [List.dropLast_concat, List.erase_append_right [a] absent]
  simp

theorem queueOut_unlink (linked : k.Linked) {out : Option Addr}
    (run : k.queueOut h = .ok (out, k')) :
    out = (k.lists h).getLast? ∧
      k' = out.elim k k.unlink := by
  unfold queueOut at run
  cases last : (k.lists h).getLast? with
  | none =>
      simp only [last, Except.ok.injEq, Prod.mk.injEq] at run
      obtain ⟨rfl, rfl⟩ := run
      exact ⟨rfl, rfl⟩
  | some a =>
      simp only [last, bind_eq_ok, deref_eq_ok, Except.ok.injEq, Prod.mk.injEq] at run
      obtain ⟨p, here, rfl, rfl⟩ := run
      refine ⟨rfl, Kernel.ext rfl rfl rfl rfl ?_ rfl rfl rfl rfl rfl rfl⟩
      have member : a ∈ k.lists h := List.mem_of_getLast? last
      obtain ⟨q, found, links⟩ := (linked.mem_iff h a).mp member
      funext f
      simp only [Option.elim_some, setProc_lists, setList, Function.update_apply, unlink_lists]
      split
      · next source => rw [source, dropLast_eq_erase (linked.nodup h) last]
      · next source =>
        have other : q.links ≠ some f :=
          fun same => source (Option.some.inj (same.symm.trans links))
        exact (linked.erase_other found other).symm

theorem Linked.setStatus (linked : k.Linked) : (k.setStatus a s).Linked :=
  linked.setProc _ fun _ => rfl

theorem requeue_relink (linked : k.Linked) (sorted : h.field = Proc.priority)
    (run : k.requeue a s h = .ok k') :
    (∃ p g, k.procs a = some p ∧ p.links = some g) ∧ k' = k.relink a s h := by
  simp only [requeue, bind_eq_ok, ← sorted] at run
  obtain ⟨k₁, del, add⟩ := run
  obtain ⟨⟨p₁, g, here, links⟩, rfl⟩ := queueDel_unlink linked.setStatus del
  obtain ⟨-, rfl⟩ := queueAdd_link add
  refine ⟨?_, relink_eq.symm⟩
  simp only [Kernel.setStatus, setProc_procs, if_pos] at here
  obtain ⟨p, found, rfl⟩ := Option.map_eq_some_iff.mp here
  exact ⟨p, g, found, links⟩

theorem enqueue_relink (linked : k.Linked) (sorted : h.field = Proc.priority)
    (run : k.enqueue a s h = .ok k') :
    (∃ p, k.procs a = some p ∧ p.links = none) ∧ k' = k.relink a s h := by
  simp only [enqueue, ← sorted] at run
  obtain ⟨⟨p₁, here, links⟩, rfl⟩ := queueAdd_link run
  rw [relink_eq, unlink_self linked.setStatus here links]
  refine ⟨?_, rfl⟩
  simp only [Kernel.setStatus, setProc_procs, if_pos] at here
  obtain ⟨p, found, rfl⟩ := Option.map_eq_some_iff.mp here
  exact ⟨p, found, links⟩

theorem resort_relink (linked : k.Linked) (sorted : h.field = Proc.priority)
    (run : k.resort a h = .ok k') :
    ∃ p g, k.procs a = some p ∧ p.links = some g ∧ k' = k.relink a p.status h := by
  simp only [resort, bind_eq_ok, ← sorted] at run
  obtain ⟨k₁, del, add⟩ := run
  obtain ⟨⟨p, g, here, links⟩, rfl⟩ := queueDel_unlink linked del
  obtain ⟨-, rfl⟩ := queueAdd_link add
  have same : k.setStatus a p.status = k := setProc_id here rfl
  exact ⟨p, g, here, links, by rw [relink_eq, same]⟩

theorem wakeWaiter_relink (linked : k.Linked) {q : Addr} {out : Option Addr}
    (run : k.wakeWaiter q = .ok (out, k')) :
    out = (k.lists (.queue q)).getLast? ∧
      k' = out.elim k fun a => k.relink a .ready .ready := by
  simp only [wakeWaiter, bind_eq_ok, Prod.exists] at run
  obtain ⟨waiter, k₁, taken, run⟩ := run
  obtain ⟨rfl, rfl⟩ := queueOut_unlink linked taken
  cases last : (k.lists (.queue q)).getLast? with
  | none =>
      simp only [last, Except.ok.injEq, Prod.mk.injEq] at run
      obtain ⟨rfl, rfl⟩ := run
      exact ⟨rfl, rfl⟩
  | some a =>
      simp only [last, bind_eq_ok, Except.ok.injEq, Prod.mk.injEq] at run
      obtain ⟨k₂, put, rfl, rfl⟩ := run
      obtain ⟨-, rfl⟩ := enqueue_relink linked.unlink rfl put
      refine ⟨rfl, ?_⟩
      have member : a ∈ k.lists (.queue q) := List.mem_of_getLast? last
      obtain ⟨p, here, -⟩ := (linked.mem_iff _ a).mp member
      exact relink_unlink linked here

theorem insertSorted_ok (field : Addr → Option Nat) (elem : Addr) (prio : Nat) {l : List Addr}
    (present : ∀ c ∈ l, field c ≠ none) : ∃ placed, insertSorted field elem prio l = .ok placed := by
  induction l with
  | nil => exact ⟨[elem], rfl⟩
  | cons c rest ih =>
      obtain ⟨value, held⟩ := Option.ne_none_iff_exists'.mp (present c (by simp))
      obtain ⟨placed, inserted⟩ := ih fun d member => present d (List.mem_cons_of_mem c member)
      simp only [insertSorted, held, inserted]
      split <;> exact ⟨_, rfl⟩

theorem queueDel_ok (linked : k.Linked) (here : k.procs a = some p) {h : Head}
    (links : p.links = some h) : k.queueDel a = .ok (k.unlink a) := by
  have run : k.queueDel a = .ok ((k.setList h ((k.lists h).erase a)).setProc a
      fun p => { p with links := none }) := by
    rw [queueDel, deref_eq_ok.mpr here]
    dsimp only [bind, Except.bind]
    rw [links]
  rw [run, (queueDel_unlink linked run).2]

theorem queueAdd_ok (here : k.procs a = some p) (links : p.links = none) (h : Head)
    (field : Proc → Nat) (present : ∀ d ∈ k.lists h, k.procs d ≠ none) :
    ∃ k', k.queueAdd a h field = .ok k' := by
  obtain ⟨placed, inserted⟩ := insertSorted_ok (fun d => (k.procs d).map field) a (field p)
    fun d member => by simpa using present d member
  refine ⟨(k.setList h placed).setProc a fun p => { p with links := some h }, ?_⟩
  rw [queueAdd, deref_eq_ok.mpr here]
  dsimp only [bind, Except.bind]
  rw [if_pos links, inserted]

end Kernel

end IntelX86Kernel

import IntelX86Kernel.Election
import IntelX86Kernel.ReadyOrder

/-! Processes of equal priority are elected in turn. -/

namespace IntelX86Kernel

open Transition

/-- A call of `scheduling`: the clock it reads, and where its caller goes on afterwards. -/
structure Turn where
  clock : Nat
  context : Frame

instance (p : Proc) : Decidable p.Awake := inferInstanceAs (Decidable (_ ∨ _))

namespace Kernel

variable {k k' k'' : Kernel} {a b c x y : Addr} {p : Proc} {low rest init : List Addr} {t : Turn}
  {ts us vs : List Turn} {prio : Nat}

def turn (k : Kernel) (t : Turn) : Except Fault Kernel := do
  let a ← k.active
  ({ k with nbInterrupt := t.clock }).finish a (.suspend t.context)

def turns : List Turn → Kernel → Except Fault (List Nat × Kernel)
  | [], k => .ok ([], k)
  | t :: ts, k => do
      let k ← k.turn t
      let (pids, k') ← turns ts k
      .ok (k.activePID :: pids, k')

def contenders (k : Kernel) (prio : Nat) : List Nat :=
  (List.range MAXNPROC).filter fun pid => (k.processesTable pid).any fun a : Addr =>
    (k.procs a).any fun p : Proc => decide (p.Awake ∧ p.priority = prio)

theorem mem_contenders {pid : Nat} (consistent : k.Consistent) :
    pid ∈ k.contenders prio ↔ ∃ a p, k.processesTable pid = some a ∧ k.procs a = some p ∧
      p.Awake ∧ p.priority = prio := by
  rw [contenders, List.mem_filter, List.mem_range]
  constructor
  · rintro ⟨-, passes⟩
    cases entry : k.processesTable pid with
    | none =>
        rw [entry] at passes
        cases passes
    | some a =>
        obtain ⟨-, p, here, -⟩ := consistent.table pid a entry
        rw [entry, Option.any_some, here, Option.any_some] at passes
        exact ⟨a, p, rfl, here, of_decide_eq_true passes⟩
  · rintro ⟨a, p, entry, here, both⟩
    refine ⟨(consistent.table _ _ entry).1, ?_⟩
    simp [entry, here, both]

theorem Reaped.keeps (reaped : Reaped k k') :
    (∀ b p, k.procs b = some p → p.links ≠ some .dying → k'.procs b = some p) ∧
      (∀ b p, k'.procs b = some p → k.procs b = some p) ∧
      (∀ pid b, k'.processesTable pid = some b → k.processesTable pid = some b) := by
  induction reaped with
  | none => exact ⟨fun _ _ here _ => here, fun _ _ here => here, fun _ _ entry => entry⟩
  | @process k k' a p heap here dying other kept rest ih =>
      obtain ⟨live, back, table⟩ := ih
      refine ⟨fun b p' there links => ?_, fun b p' there => ?_, fun pid b entry => ?_⟩
      · have apart : b ≠ a := by
          rintro rfl
          rw [here, Option.some.injEq] at there
          exact links (there ▸ dying)
        apply live b p' _ links
        rw [reap_procs, if_neg apart, there]
      · have before := back b p' there
        rw [reap_procs] at before
        split at before
        · cases before
        · exact before
      · have before := table pid b entry
        change Function.update k.processesTable p.pid Option.none pid = some b at before
        rw [Function.update_apply] at before
        split at before
        · cases before
        · exact before

theorem Reaped.ready (reaped : Reaped k k') (linked : k.Linked) :
    k'.lists .ready = k.lists .ready := by
  induction reaped with
  | none => rfl
  | process here dying other kept rest ih =>
      refine (ih linked.reap).trans ?_
      exact linked.erase_other here (by simp [dying])

theorem Woken.nobody (woken : Woken k k')
    (early : ∀ a p, k.procs a = some p → p.links = some .asleep → k.nbInterrupt ≤ p.wakeUpTime) :
    k' = k := by
  cases woken with
  | none => rfl
  | sleeper here asleep late rest => exact absurd late (Nat.not_lt.mpr (early _ _ here asleep))

theorem place_between (below : ∀ a ∈ low, k.sortKey Proc.priority a < k.sortKey Proc.priority x)
    (equal : ∀ a ∈ rest, k.sortKey Proc.priority a = k.sortKey Proc.priority x) :
    k.place Proc.priority x (low ++ rest) = low ++ x :: rest := by
  rw [place, NearlySorted.orderedInsert_append, if_neg]
  · congr 1
    cases rest with
    | nil => rfl
    | cons y rest => rw [List.orderedInsert_cons, if_pos (equal y List.mem_cons_self).ge]
  · rintro ⟨a, member, above⟩
    exact absurd (below a member) (Nat.not_lt.mpr above)

/-- The running process `x`, then those of its priority in the ready list, behind lower
ones. No sleeper is late for any of the calls `ts`. -/
structure Rotating (ts : List Turn) (prio : Nat) (low : List Addr) (round : List Addr)
    (k : Kernel) : Prop where
  consistent : k.Consistent
  stocked : k.Stocked
  backed : k.Backed
  counted : k.Counted
  active : ∃ x rest p, round = x :: rest ∧ k.processesTable k.activePID = some x ∧
    k.procs x = some p ∧ p.status = .elected ∧ p.links = none ∧ k.lists .ready = low ++ rest
  free : ∀ a, ¬ k.Stray a
  below : ∀ a ∈ low, k.sortKey Proc.priority a < prio
  equal : ∀ a ∈ round, k.sortKey Proc.priority a = prio
  early : ∀ t ∈ ts, ∀ a p, k.procs a = some p → p.links = some .asleep → t.clock ≤ p.wakeUpTime

def calling (k : Kernel) (x : Addr) (t : Turn) : Kernel :=
  { k with nbInterrupt := t.clock }.setContext x t.context

theorem calling_procs (found : (k.calling x t).procs b = some p) :
    ∃ p₀, k.procs b = some p₀ ∧ p = if b = x then { p₀ with context := t.context } else p₀ := by
  rw [calling, setContext, setProc_procs] at found
  split at found
  · next equal =>
    obtain ⟨p₀, before, rfl⟩ := Option.map_eq_some_iff.mp found
    exact ⟨p₀, equal ▸ before, by rw [if_pos equal]⟩
  · next other => exact ⟨p, found, by rw [if_neg other]⟩

theorem Rotating.called (rotating : Rotating ts prio low (x :: rest) k) :
    k.turn t = (k.calling x t).scheduling ∧ (k.calling x t).Consistent ∧
      (k.calling x t).Stocked ∧ (k.calling x t).Backed ∧ (k.calling x t).Counted ∧
      ∃ p, (k.calling x t).procs x = some p ∧ p.status = .elected ∧ p.links = none := by
  obtain ⟨y, others, p, same, current, here, status, links, -⟩ := rotating.active
  rw [List.cons.injEq] at same
  obtain ⟨rfl, -⟩ := same
  have consistent : { k with nbInterrupt := t.clock }.Consistent :=
    rotating.consistent.store rfl rfl rfl rfl le_rfl (fun q mq found => ⟨mq, found⟩)
      fun _ _ absent => absent
  have timed : Still k { k with nbInterrupt := t.clock } := ⟨fun _ => rfl, rfl, rfl⟩
  have layout : Layout k { k with nbInterrupt := t.clock } :=
    ⟨fun _ => rfl, fun _ => rfl, rfl, rfl, fun _ _ => rfl, le_rfl⟩
  refine ⟨?_, consistent.setContext, ?_, ?_, rotating.counted.of_eq rfl rfl, ?_⟩
  · rw [turn, active_eq_ok.mpr current]
    rfl
  · exact (layout.stocked rotating.stocked).setProc fun _ => rfl
  · apply (rotating.backed.still timed).still
    exact .setProc fun _ => rfl
  · refine ⟨{ p with context := t.context }, ?_, status, links⟩
    rw [calling, setContext, setProc_procs, if_pos rfl]
    exact congrArg (Option.map _) here

theorem elect_sortKey (here : k.procs a = some p) :
    (k.elect a a p.pid).sortKey Proc.priority b = k.sortKey Proc.priority b := by
  apply sortKey_congr
  rw [elect_procs here]
  split
  · next equal =>
    rw [equal, here]
    rfl
  · rfl

theorem scheduling_relinks (consistent : k.Consistent)
    (current : k.processesTable k.activePID = some x) (here : k.procs x = some p)
    (status : p.status = .elected) (links : p.links = none)
    (early : ∀ a p, k.procs a = some p → p.links = some .asleep → k.nbInterrupt ≤ p.wakeUpTime)
    (run : k.scheduling = .ok k') :
    ∃ k₁ b q, Reaped k k₁ ∧ ((k₁.relink x .ready .ready).lists .ready).getLast? = some b ∧
      (k₁.relink x .ready .ready).procs b = some q ∧ k₁.processesTable q.pid = some b ∧
      (k₁.relink x .ready .ready).Consistent ∧ k' = (k₁.relink x .ready .ready).elect b b q.pid := by
  obtain ⟨k₀, k₁, k₂, c, b, q, woken, reaped, back, current₁, -, -, consistent₁, consistent₂, last,
    here₂, owned, rfl⟩ := consistent.phases run
  obtain rfl := woken.nobody early
  obtain ⟨live, -, table⟩ := reaped.keeps
  have here₁ : k₁.procs x = some p := live x p here (by simp [links])
  have same : c = x := by
    obtain ⟨-, -, -, -, active, -⟩ := reaped.same
    have before := table _ _ current₁
    rw [active, current, Option.some.injEq] at before
    exact before.symm
  subst same
  obtain ⟨p', there, ⟨off, -⟩ | ⟨-, -, rfl⟩ | ⟨-, -, d, member, p₂, found, pid⟩⟩ :=
    putBack_eq consistent₁.linked back
  · rw [here₁, Option.some.injEq] at there
    subst p'
    exact absurd status off
  · exact ⟨k₁, b, q, reaped, last, here₂, owned, consistent₂, rfl⟩
  · have owned₁ := consistent₁.owned d p₂ found
    rw [pid, current₁, Option.some.injEq] at owned₁
    subst owned₁
    have ready := (consistent₁.linked.links_iff here₁).mpr member
    rw [links] at ready
    cases ready

theorem Rotating.relinked (rotating : Rotating ts prio low (x :: rest) k)
    (reaped : Reaped (k.calling x t) k') :
    (k'.relink x .ready .ready).lists .ready = low ++ x :: rest ∧
      ∀ a ∈ low ++ x :: rest, (k'.relink x .ready .ready).sortKey Proc.priority a =
        k.sortKey Proc.priority a := by
  obtain ⟨-, consistent, -, -, -, p, here, -, links⟩ := rotating.called (t := t)
  obtain ⟨x', others, -, equal, -, -, -, -, lists⟩ := rotating.active
  rw [List.cons.injEq] at equal
  obtain ⟨rfl, rfl⟩ := equal
  obtain ⟨live, -, -⟩ := reaped.keeps
  have ready : k'.lists .ready = low ++ rest := (reaped.ready consistent.linked).trans lists
  have absent : x ∉ low ++ rest := by
    intro member
    have linked := (consistent.linked.links_iff here).mpr (lists ▸ member)
    rw [links] at linked
    cases linked
  have keys : ∀ a ∈ low ++ x :: rest,
      k'.sortKey Proc.priority a = k.sortKey Proc.priority a := by
    intro a member
    have found : ∃ p, (k.calling x t).procs a = some p ∧ p.links ≠ some .dying := by
      by_cases self : a = x
      · subst self
        exact ⟨p, here, by simp [links]⟩
      · have inside : a ∈ (k.calling x t).lists .ready := by
          change a ∈ k.lists .ready
          rw [lists]
          simpa [self] using member
        obtain ⟨p, found, linked⟩ := (consistent.linked.mem_iff _ a).mp inside
        exact ⟨p, found, by simp [linked]⟩
    obtain ⟨p, found, linked⟩ := found
    obtain ⟨p₀, before, same⟩ := calling_procs found
    rw [sortKey, sortKey, live a p found linked, before, same]
    split <;> rfl
  constructor
  · rw [relink_lists, if_pos rfl, ready, List.erase_of_not_mem absent]
    apply place_between
    · intro a member
      rw [keys a (List.mem_append_left _ member), keys x (by simp),
        rotating.equal x List.mem_cons_self]
      exact rotating.below a member
    · intro a member
      rw [keys a (by simp [member]), keys x (by simp), rotating.equal x List.mem_cons_self]
      exact rotating.equal a (List.mem_cons_of_mem _ member)
  · intro a member
    exact (sortKey_relink (g := .ready)).trans (keys a member)

theorem elected_origin {q : Proc}
    (back : ∀ b p, k'.procs b = some p → (k.calling x t).procs b = some p)
    (there : (k'.relink x .ready .ready).procs b = some q)
    (found : ((k'.relink x .ready .ready).elect b b q.pid).procs a = some p) :
    p.links = none ∨ (p.links = some .ready ∧ p.status = .ready) ∨
      ∃ p₀, k.procs a = some p₀ ∧ p.status = p₀.status ∧ p.links = p₀.links ∧
        p.wakeUpTime = p₀.wakeUpTime := by
  rw [elect_procs there] at found
  split at found
  · cases found
    exact .inl rfl
  · rw [relink_procs] at found
    split at found
    · obtain ⟨p₁, -, rfl⟩ := Option.map_eq_some_iff.mp found
      exact .inr (.inl ⟨rfl, rfl⟩)
    · obtain ⟨p₀, before, rfl⟩ := calling_procs (back a p found)
      refine .inr (.inr ⟨p₀, before, ?_⟩)
      split <;> exact ⟨rfl, rfl, rfl⟩

theorem Rotating.turn (rotating : Rotating ts prio low (x :: rest) k) (called : t ∈ ts)
    (split : x :: rest = init ++ [y]) :
    ∃ k', k.turn t = .ok k' ∧ Rotating ts prio low (y :: init) k' ∧
      ∀ pid a, k'.processesTable pid = some a → k.processesTable pid = some a := by
  obtain ⟨same, consistent, stocked, backed, counted, p, here, status, links⟩ :=
    rotating.called (t := t)
  obtain ⟨x', others, -, equal, current, -⟩ := rotating.active
  rw [List.cons.injEq] at equal
  obtain ⟨rfl, rfl⟩ := equal
  obtain ⟨k', run, -⟩ := scheduling_ok consistent stocked backed counted here (.inr status)
  have early : ∀ a p, (k.calling x t).procs a = some p → p.links = some .asleep →
      (k.calling x t).nbInterrupt ≤ p.wakeUpTime := by
    intro a q found asleep
    obtain ⟨q₀, before, rfl⟩ := calling_procs found
    have sleeper : q₀.links = some .asleep := by
      split at asleep <;> exact asleep
    have time := rotating.early t called a q₀ before sleeper
    split <;> exact time
  obtain ⟨k₁, b, q, reaped, last, there, owned, consistent₁, final⟩ :=
    scheduling_relinks consistent current here status links early run
  obtain ⟨-, back, table⟩ := reaped.keeps
  obtain ⟨relinked, keys⟩ := rotating.relinked reaped
  have elected : b = y := by
    rw [relinked, split, ← List.append_assoc, List.getLast?_concat, Option.some.injEq] at last
    exact last.symm
  subst elected
  have listed : k'.lists .ready = low ++ init := by
    rw [final]
    change ((k₁.relink x .ready .ready).lists .ready).erase b = _
    rw [← dropLast_eq_erase (consistent₁.linked.nodup _) last, relinked, split,
      ← List.append_assoc, List.dropLast_concat]
  have keys' : ∀ a ∈ low ++ x :: rest,
      k'.sortKey Proc.priority a = k.sortKey Proc.priority a := by
    intro a member
    rw [final, elect_sortKey there, keys a member]
  refine ⟨k', same.trans run, ⟨?_, ?_, ?_, ?_, ?_, ?_, ?_, ?_, ?_⟩, ?_⟩
  · exact (consistent.scheduling run).1
  · exact stocked.scheduling consistent run
  · exact backed.scheduling stocked consistent run
  · exact counted.scheduling consistent run
  · refine ⟨b, init, { q with status := .elected, links := none }, rfl, ?_, ?_, rfl, rfl, listed⟩
    · rw [final]
      exact owned
    · rw [final, elect_procs there, if_pos rfl]
  · rintro a ⟨p', found, running, linked⟩
    rw [final] at found
    rcases elected_origin back there found with free | ⟨-, status⟩ | ⟨p₀, before, status, links, -⟩
    · rw [free] at linked
      cases linked
    · rw [status] at running
      cases running
    · exact rotating.free a ⟨p₀, before, status ▸ running, links ▸ linked⟩
  · intro a member
    rw [keys' a (List.mem_append_left _ member)]
    exact rotating.below a member
  · intro a member
    have inside : a ∈ x :: rest := by
      rw [split]
      simpa [or_comm] using member
    rw [keys' a (List.mem_append_right _ inside)]
    exact rotating.equal a inside
  · intro t' called' a p' found asleep
    rw [final] at found
    rcases elected_origin back there found with free | ⟨ready, -⟩ | ⟨p₀, before, -, links, time⟩
    · rw [free] at asleep
      cases asleep
    · rw [ready] at asleep
      cases asleep
    · rw [time]
      exact rotating.early t' called' a p₀ before (links ▸ asleep)
  · intro pid a entry
    rw [final] at entry
    exact table pid a entry

theorem turns_append {pids pids' : List Nat} (first : turns us k = .ok (pids, k'))
    (second : turns vs k' = .ok (pids', k'')) :
    turns (us ++ vs) k = .ok (pids ++ pids', k'') := by
  induction us generalizing k pids with
  | nil =>
      cases first
      exact second
  | cons u us ih =>
      simp only [turns, bind_eq_ok, Prod.exists, Except.ok.injEq, Prod.mk.injEq] at first
      obtain ⟨k₁, called, others, k₂, rest, rfl, rfl⟩ := first
      exact bind_eq_ok.mpr ⟨k₁, called, bind_eq_ok.mpr ⟨_, ih rest, rfl⟩⟩

theorem turns_single (called : k.turn t = .ok k') : turns [t] k = .ok ([k'.activePID], k') :=
  bind_eq_ok.mpr ⟨k', called, rfl⟩

/-- As many calls as there are processes behind the running one: they have all had their
turn, the last one of the list first. -/
theorem Rotating.turns {first others : List Addr}
    (rotating : Rotating ts prio low (x :: (first ++ others)) k) (calls : ∀ t ∈ us, t ∈ ts)
    (number : us.length = others.length) :
    ∃ pids k', Kernel.turns us k = .ok (pids, k') ∧
      Rotating ts prio low (others ++ x :: first) k' ∧
      pids.map k.processesTable = others.reverse.map some ∧
      ∀ pid a, k'.processesTable pid = some a → k.processesTable pid = some a := by
  induction others using List.reverseRecOn generalizing us x first k with
  | nil =>
      obtain rfl := List.length_eq_zero_iff.mp number
      refine ⟨[], k, rfl, ?_, rfl, fun _ _ entry => entry⟩
      simpa using rotating
  | append_singleton others y ih =>
      cases us with
      | nil => simp at number
      | cons t us =>
          have split : x :: (first ++ (others ++ [y])) = (x :: first ++ others) ++ [y] := by simp
          obtain ⟨k₁, called, turned, table₁⟩ :=
            rotating.turn (calls t List.mem_cons_self) split
          have behind' : Rotating ts prio low (y :: ((x :: first) ++ others)) k₁ := turned
          have fewer : us.length = others.length := by simpa using number
          obtain ⟨pids, k', rest, rotating', elected, table'⟩ :=
            ih behind' (fun t member => calls t (List.mem_cons_of_mem _ member)) fewer
          obtain ⟨z, behind, p, same, current, -⟩ := turned.active
          rw [List.cons.injEq] at same
          obtain ⟨rfl, -⟩ := same
          have known : ∀ pid ∈ pids, k₁.processesTable pid = k.processesTable pid := by
            intro pid member
            have inside : k₁.processesTable pid ∈ others.reverse.map some :=
              elected ▸ List.mem_map_of_mem member
            obtain ⟨a, -, entry⟩ := List.mem_map.mp inside
            rw [← entry, table₁ pid a entry.symm]
          refine ⟨k₁.activePID :: pids, k', ?_, ?_, ?_, fun pid a entry => table₁ _ _ (table' _ _ entry)⟩
          · exact bind_eq_ok.mpr ⟨k₁, called, bind_eq_ok.mpr ⟨_, rest, rfl⟩⟩
          · simpa using rotating'
          · rw [List.map_cons, table₁ _ _ current, ← List.map_congr_left known, elected]
            simp

theorem Rotating.round (rotating : Rotating ts prio low (x :: rest) k)
    (number : ts.length = rest.length + 1) :
    ∃ pids k', Kernel.turns ts k = .ok (pids, k') ∧ Rotating ts prio low (x :: rest) k' ∧
      pids.map k.processesTable = (rest.reverse ++ [x]).map some := by
  obtain ⟨us, t, rfl⟩ : ∃ us t, ts = us ++ [t] := by
    cases ts using List.reverseRecOn with
    | nil => simp at number
    | append_singleton us t => exact ⟨us, t, rfl⟩
  have fewer : us.length = rest.length := by simpa using number
  have opening : Rotating (us ++ [t]) prio low (x :: ([] ++ rest)) k := rotating
  obtain ⟨pids, k₁, first, rotating₁, elected, table₁⟩ :=
    opening.turns (fun t member => List.mem_append_left _ member) fewer
  obtain ⟨y, others, p, split, -⟩ := rotating₁.active
  rw [split] at rotating₁
  obtain ⟨k', last, rotating', table'⟩ :=
    rotating₁.turn (t := t) (by simp) split.symm
  obtain ⟨z, behind, p', same, current, -⟩ := rotating'.active
  rw [List.cons.injEq] at same
  obtain ⟨rfl, -⟩ := same
  refine ⟨pids ++ [k'.activePID], k', turns_append first (turns_single last), rotating', ?_⟩
  rw [List.map_append, elected, List.map_append, List.map_singleton, List.map_singleton,
    table₁ _ _ (table' _ _ current)]

theorem split_greatest {l : List Addr} (sorted : k.InOrder .ready) (same : l = k.lists .ready)
    (greatest : ∀ a ∈ l, k.sortKey Proc.priority a ≤ prio) :
    ∃ low rest, l = low ++ rest ∧ (∀ a ∈ low, k.sortKey Proc.priority a < prio) ∧
      ∀ a ∈ rest, k.sortKey Proc.priority a = prio := by
  have ordered : l.Pairwise fun a b => k.sortKey Proc.priority a ≤ k.sortKey Proc.priority b :=
    same ▸ sorted
  clear same sorted
  induction l with
  | nil => exact ⟨[], [], rfl, by simp, by simp⟩
  | cons a l ih =>
      obtain ⟨above, ordered⟩ := List.pairwise_cons.mp ordered
      by_cases below : k.sortKey Proc.priority a < prio
      · obtain ⟨low, rest, rfl, first, second⟩ :=
          ih (fun b member => greatest b (List.mem_cons_of_mem _ member)) ordered
        refine ⟨a :: low, rest, rfl, ?_, second⟩
        intro b member
        rcases List.mem_cons.mp member with rfl | member
        · exact below
        · exact first b member
      · refine ⟨[], a :: l, rfl, by simp, ?_⟩
        intro b member
        apply Nat.le_antisymm (greatest b member)
        rcases List.mem_cons.mp member with rfl | member
        · exact Nat.le_of_not_lt below
        · exact (Nat.le_of_not_lt below).trans (above b member)

theorem Consistent.pid_unique {pid pid' : Nat} (consistent : k.Consistent)
    (first : k.processesTable pid = some a) (second : k.processesTable pid' = some a) :
    pid = pid' := by
  obtain ⟨-, p, here, same⟩ := consistent.table _ _ first
  obtain ⟨-, p', there, same'⟩ := consistent.table _ _ second
  rw [here, Option.some.injEq] at there
  rw [← same, there, same']

theorem Consistent.mem_of_map {pids : List Nat} {pid : Nat} {l : List Addr}
    (consistent : k.Consistent) (entries : pids.map k.processesTable = l.map some) :
    pid ∈ pids ↔ ∃ a ∈ l, k.processesTable pid = some a := by
  constructor
  · intro member
    have inside : k.processesTable pid ∈ l.map some := entries ▸ List.mem_map_of_mem member
    obtain ⟨a, member, entry⟩ := List.mem_map.mp inside
    exact ⟨a, member, entry.symm⟩
  · rintro ⟨a, member, entry⟩
    have inside : some a ∈ pids.map k.processesTable := entries ▸ List.mem_map_of_mem member
    obtain ⟨pid', member', entry'⟩ := List.mem_map.mp inside
    rw [consistent.pid_unique entry entry']
    exact member'

theorem Rotating.contends (rotating : Rotating ts prio low (x :: rest) k) {pid : Nat} :
    pid ∈ k.contenders prio ↔ ∃ a ∈ x :: rest, k.processesTable pid = some a := by
  have consistent := rotating.consistent
  obtain ⟨y, others, p, same, current, here, status, links, lists⟩ := rotating.active
  rw [List.cons.injEq] at same
  obtain ⟨rfl, rfl⟩ := same
  rw [mem_contenders consistent]
  constructor
  · rintro ⟨a, q, entry, there, awake, equal⟩
    refine ⟨a, ?_, entry⟩
    by_cases linked : q.links = some .ready
    · have member := (consistent.linked.links_iff there).mp linked
      rw [lists] at member
      rcases List.mem_append.mp member with before | behind
      · have below := rotating.below a before
        rw [sortKey, there] at below
        exact absurd equal (Nat.ne_of_lt below)
      · exact List.mem_cons_of_mem _ behind
    · have running : q.status = .elected := by
        rcases awake with ready | running
        · obtain ⟨h, links, same⟩ :=
            (consistent.placed a q there).links_of_status (by simp [ready])
          rw [ready] at same
          cases h <;> cases same
          exact absurd links linked
        · exact running
      rcases consistent.elected a q there running with active | ⟨-, ready⟩
      · rw [current, Option.some.injEq] at active
        rw [active]
        exact List.mem_cons_self
      · exact absurd ready linked
  · rintro ⟨a, member, entry⟩
    have equal := rotating.equal a member
    obtain ⟨-, q, there, -⟩ := consistent.table _ _ entry
    rw [sortKey, there] at equal
    refine ⟨a, q, entry, there, ?_, equal⟩
    rcases List.mem_cons.mp member with rfl | behind
    · rw [here, Option.some.injEq] at there
      exact .inr (there ▸ status)
    · have linked : q.links = some .ready :=
        (consistent.linked.links_iff there).mpr (lists ▸ List.mem_append_right _ behind)
      have placed := consistent.placed a q there
      rw [Proc.Placed, linked] at placed
      rcases placed with ready | ⟨-, running, -⟩
      · exact .inl ready
      · exact .inr running

theorem Rotating.nodup (rotating : Rotating ts prio low (x :: rest) k) : (x :: rest).Nodup := by
  have linked := rotating.consistent.linked
  obtain ⟨y, others, p, same, -, here, -, links, lists⟩ := rotating.active
  rw [List.cons.injEq] at same
  obtain ⟨rfl, rfl⟩ := same
  apply List.nodup_cons.mpr
  constructor
  · intro member
    have ready := (linked.links_iff here).mpr (lists ▸ List.mem_append_right low member)
    rw [links] at ready
    cases ready
  · have nodup := linked.nodup .ready
    rw [lists] at nodup
    exact (List.nodup_append.mp nodup).2.1

theorem Rotating.number (rotating : Rotating ts prio low (x :: rest) k) :
    (k.contenders prio).length = rest.length + 1 := by
  have consistent := rotating.consistent
  obtain ⟨y, others, p, same, current, here, status, links, lists⟩ := rotating.active
  rw [List.cons.injEq] at same
  obtain ⟨rfl, rfl⟩ := same
  have distinct : ((k.contenders prio).map k.processesTable).Nodup := by
    refine List.Nodup.map_on (fun pid first pid' second equal => ?_) (List.nodup_range.filter _)
    obtain ⟨a, -, entry⟩ := rotating.contends.mp first
    exact consistent.pid_unique entry (equal ▸ entry)
  have apart : ((x :: rest).map some).Nodup := rotating.nodup.map (Option.some_injective _)
  have same : ((k.contenders prio).map k.processesTable).Perm ((x :: rest).map some) := by
    apply (List.perm_ext_iff_of_nodup distinct apart).mpr
    intro entry
    rw [List.mem_map, List.mem_map]
    constructor
    · rintro ⟨pid, member, rfl⟩
      obtain ⟨a, inside, found⟩ := rotating.contends.mp member
      exact ⟨a, inside, found.symm⟩
    · rintro ⟨a, member, rfl⟩
      have live : ∃ q, k.procs a = some q := by
        rcases List.mem_cons.mp member with rfl | behind
        · exact ⟨p, here⟩
        · obtain ⟨q, there, -⟩ := (consistent.linked.mem_iff .ready a).mp
            (lists ▸ List.mem_append_right low behind)
          exact ⟨q, there⟩
      obtain ⟨q, there⟩ := live
      have owned := consistent.owned a q there
      exact ⟨q.pid, rotating.contends.mpr ⟨a, member, owned⟩, owned⟩
  simpa using same.length_eq

end Kernel

open Kernel

variable {history : History} {k : Kernel} {c : Addr} {p : Proc} {ts : List Turn}

/-- While no sleeper is late, as many calls of `scheduling` as there are processes of the
greatest priority elect each of them once, the caller last. -/
theorem equals_take_turns (run : Reached history k)
    (current : k.processesTable k.activePID = some c) (here : k.procs c = some p)
    (free : ∀ a q, k.procs a = some q → q.status = .elected → q.links = none)
    (greatest : ∀ a q, k.procs a = some q → q.status = .ready → q.priority ≤ p.priority)
    (calls : ts.length = (k.contenders p.priority).length)
    (early : ∀ t ∈ ts, ∀ a q, k.procs a = some q → q.status = .asleep → t.clock ≤ q.wakeUpTime) :
    ∃ pids k', turns ts k = .ok (pids, k') ∧ pids.Nodup ∧
      (∀ pid, pid ∈ pids ↔ pid ∈ k.contenders p.priority) ∧
      pids.getLast? = some k.activePID ∧ k'.lists .ready = k.lists .ready := by
  obtain ⟨consistent, a, p₀, current', here', status⟩ := consistent_of_run run
  obtain ⟨stocked, counted⟩ := stocked_of_run run
  rw [current, Option.some.injEq] at current'
  subst current'
  rw [here, Option.some.injEq] at here'
  subst here'
  have links := free c p here status
  have unstrayed : ∀ a, ¬ k.Stray a := by
    rintro a ⟨q, there, running, ready⟩
    rw [free a q there running] at ready
    cases ready
  have ready : ∀ a ∈ k.lists .ready, k.sortKey Proc.priority a ≤ p.priority := by
    intro a member
    obtain ⟨q, there, linked⟩ := (consistent.linked.mem_iff _ a).mp member
    rw [sortKey, there]
    apply greatest a q there
    have placed := consistent.placed a q there
    rw [Proc.Placed, linked] at placed
    rcases placed with status | ⟨-, running, -⟩
    · exact status
    · exact absurd ⟨q, there, running, linked⟩ (unstrayed a)
  obtain ⟨low, rest, split, below, equal⟩ :=
    split_greatest (ready_in_order_of_run run unstrayed) rfl ready
  have rotating : Rotating ts p.priority low (c :: rest) k := by
    refine ⟨consistent, stocked, backed_of_run run, counted, ?_, unstrayed, below, ?_, ?_⟩
    · exact ⟨c, rest, p, rfl, current, here, status, links, split⟩
    · intro a member
      rcases List.mem_cons.mp member with rfl | member
      · rw [sortKey, here]
        rfl
      · exact equal a member
    · intro t called a q there asleep
      exact early t called a q there
        ((consistent.placed a q there).status_of_links asleep (by simp))
  rw [rotating.number] at calls
  obtain ⟨pids, k', called, rotating', entries⟩ := rotating.round calls
  refine ⟨pids, k', called, ?_, fun pid => ?_, ?_, ?_⟩
  · apply List.Nodup.of_map k.processesTable
    rw [entries]
    apply List.Nodup.map (Option.some_injective _)
    rw [← List.reverse_cons]
    exact List.nodup_reverse.mpr rotating.nodup
  · rw [rotating.contends, consistent.mem_of_map entries]
    simp [or_comm]
  · have last : (pids.map k.processesTable).getLast? = some (some c) := by
      rw [entries]
      simp
    rw [List.getLast?_map] at last
    obtain ⟨pid, found, entry⟩ := Option.map_eq_some_iff.mp last
    rw [found, consistent.pid_unique entry current]
  · obtain ⟨x, others, q, same, -, -, -, -, lists⟩ := rotating'.active
    rw [List.cons.injEq] at same
    rw [lists, split, same.2]

/-- Three processes of one priority, a sleeper that outranks them, and process 0. -/
theorem equals_take_turns_three : ∃ (history : History) (k : Kernel) (pids : List Nat)
    (k' : Kernel), Reached history k ∧ turns (List.replicate 3 ⟨5, .user⟩) k = .ok (pids, k') ∧
      pids.Nodup ∧ (∀ pid, pid ∈ pids ↔ pid ∈ k.contenders 128) ∧
      pids.getLast? = some k.activePID ∧ k'.lists .ready = k.lists .ready := by
  obtain ⟨history, k, run, checked⟩ := reached_by
    [.call (.start 512 200 [97] true true), .call (.start 512 128 [98] true true),
      .call (.start 512 128 [99] true true), .call (.start 512 128 [100] true true),
      .call (.waitClock 5)]
    (fun _ k => decide (k.activePID = 2) && decide ((k.contenders 128).length = 3) &&
      (List.range k.nextBlock).all fun a => (k.procs a).all fun p : Proc =>
        decide (p.status = .elected → p.links = none) &&
        decide (p.status = .ready → p.priority ≤ 128) &&
        decide (p.status = .asleep → 5 ≤ p.wakeUpTime) &&
        decide (p.pid = 2 → p.priority = 128))
    (by decide +kernel)
  simp only [Bool.and_eq_true, decide_eq_true_eq, List.all_eq_true, List.mem_range] at checked
  obtain ⟨⟨active, number⟩, each⟩ := checked
  obtain ⟨consistent, -⟩ := consistent_of_run run
  have facts (a : Addr) (p : Proc) (here : k.procs a = some p) :
      (p.status = .elected → p.links = none) ∧ (p.status = .ready → p.priority ≤ 128) ∧
        (p.status = .asleep → 5 ≤ p.wakeUpTime) ∧ (p.pid = 2 → p.priority = 128) := by
    have old : a < k.nextBlock := by
      by_contra beyond
      rw [(consistent.fresh a (Nat.not_lt.mp beyond)).1] at here
      cases here
    have passes := each a old
    rw [here, Option.all_some] at passes
    simp only [Bool.and_eq_true, decide_eq_true_eq] at passes
    exact ⟨passes.1.1.1, passes.1.1.2, passes.1.2, passes.2⟩
  obtain ⟨c, current⟩ := consistent.active
  obtain ⟨-, p, here, pid⟩ := consistent.table _ _ current
  have prio : p.priority = 128 := (facts c p here).2.2.2 (pid.trans active)
  have calls : (List.replicate 3 (⟨5, .user⟩ : Turn)).length =
      (k.contenders p.priority).length := by
    rw [prio, number]
    rfl
  have early : ∀ t ∈ List.replicate 3 (⟨5, .user⟩ : Turn), ∀ a q, k.procs a = some q →
      q.status = .asleep → t.clock ≤ q.wakeUpTime := by
    intro t member a q there asleep
    rw [List.eq_of_mem_replicate member]
    exact (facts a q there).2.2.1 asleep
  obtain ⟨pids, k', called, distinct, elected, last, lists⟩ :=
    equals_take_turns run current here (fun a q there => (facts a q there).1)
      (fun a q there status => prio ▸ (facts a q there).2.1 status) calls early
  exact ⟨history, k, pids, k', run, called, distinct, prio ▸ elected, last, lists⟩

end IntelX86Kernel

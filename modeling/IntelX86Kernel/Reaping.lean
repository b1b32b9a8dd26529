import IntelX86Kernel.Election
import Mathlib.Data.List.TakeWhile

/-! Which processes `kill_processes` gives back, and which blocks are passed to `mem_free`. -/

namespace IntelX86Kernel

open Transition

namespace Kernel

variable {k k' : Kernel} {a b c : Addr} {p : Proc} {n : Next} {e : Event} {l : List Addr}

/-- The loop of `kill_processes` as it is written: each turn begins at the head of the
list as it is then. -/
def killRounds : Nat → Kernel → Except Fault Kernel
  | 0, _ => .error .hang
  | n + 1, k =>
      match (k.lists .dying).head? with
      | none => .ok k
      | some a =>
          if k.processesTable k.activePID = some a then .ok k
          else do
            let k ← k.killProcess a
            killRounds n k

theorem killRounds_eq {turns : Nat} (linked : k.Linked)
    (enough : (k.lists .dying).length < turns) : killRounds turns k = k.killProcesses := by
  induction turns generalizing k with
  | zero => cases enough
  | succ turns ih =>
      rw [killProcesses]
      cases list : k.lists .dying with
      | nil => simp [killRounds, killLoop, list]
      | cons a rest =>
          simp only [killRounds, killLoop, list, List.head?_cons]
          by_cases active : k.processesTable k.activePID = some a
          · rw [if_pos active, if_pos active]
          · rw [if_neg active, if_neg active]
            cases first : k.killProcess a with
            | error fault => rfl
            | ok k₁ =>
                obtain ⟨p, heap, -, -, rfl⟩ := killProcess_eq linked first
                have shorter : (k.reap a p heap).lists .dying = rest := by
                  change (k.lists .dying).erase a = rest
                  rw [list, List.erase_cons_head]
                have fewer : ((k.reap a p heap).lists .dying).length < turns := by
                  rw [shorter]
                  rw [list] at enough
                  exact Nat.lt_of_succ_lt_succ enough
                have same := ih linked.reap fewer
                rw [killProcesses, shorter] at same
                exact same

def doomed (k : Kernel) : List Addr :=
  (k.lists .dying).takeWhile fun a => decide (k.processesTable k.activePID ≠ some a)

/-- What `kill_processes` does. -/
structure Reaps (k k' : Kernel) : Prop where
  loop : ∀ turns, (k.lists .dying).length < turns → killRounds turns k = .ok k'
  dying : ∀ a, a ∈ k.lists .dying ↔ ∃ p, k.procs a = some p ∧ p.status = .dying
  spared : ∀ a, k.processesTable k.activePID = some a →
    a ∉ k.doomed ∧ k'.processesTable k'.activePID = some a ∧ k'.procs a = k.procs a
  all : ∀ a p, k.processesTable k.activePID = some a → k.procs a = some p → p.status ≠ .dying →
    k.doomed = k.lists .dying
  cleared : Cleared k k.doomed k'

theorem Consistent.dying_iff (consistent : k.Consistent) :
    a ∈ k.lists .dying ↔ ∃ p, k.procs a = some p ∧ p.status = .dying := by
  rw [consistent.linked.mem_iff]
  constructor
  · rintro ⟨p, here, links⟩
    exact ⟨p, here, (consistent.placed a p here).status_of_links links (by simp)⟩
  · rintro ⟨p, here, status⟩
    obtain ⟨h, links, same⟩ := (consistent.placed a p here).links_of_status (by simp [status])
    rw [status] at same
    cases h <;> cases same
    exact ⟨p, here, links⟩

theorem not_doomed (current : k.processesTable k.activePID = some a) : a ∉ k.doomed := by
  intro member
  have passes := List.mem_takeWhile_imp member
  simp [current] at passes

theorem doomed_dying (member : a ∈ k.doomed) : a ∈ k.lists .dying :=
  (List.takeWhile_sublist _).subset member

theorem killProcesses_reaps (consistent : k.Consistent) (stocked : k.Stocked)
    (backed : k.Backed) (counted : k.Counted) :
    ∃ k', k.killProcesses = .ok k' ∧ k.Reaps k' := by
  obtain ⟨k', run, cleared⟩ := killProcesses_ok consistent stocked backed counted
  change Cleared k k.doomed k' at cleared
  refine ⟨k', run, ?_, fun a => consistent.dying_iff, ?_, ?_, cleared⟩
  · intro turns enough
    rw [killRounds_eq consistent.linked enough, run]
  · intro a current
    have spared := not_doomed current
    refine ⟨spared, ?_, ?_⟩
    · rw [cleared.activePID, cleared.table, current]
      simp [Option.filter, spared]
    · rw [cleared.procs, if_neg spared]
  · intro a p current here status
    apply List.takeWhile_eq_self_iff.mpr
    intro b member
    obtain ⟨p', there, dying⟩ := consistent.dying_iff.mp member
    apply decide_eq_true
    intro same
    rw [current, Option.some.injEq] at same
    subst same
    rw [here, Option.some.injEq] at there
    exact status (there ▸ dying)

def procBlocks (k : Kernel) (a : Addr) : List (Addr × Nat) :=
  match k.procs a with
  | none => []
  | some p => [(a, sizeofProc), (p.stack, sizeofInt * p.stackSize % 2 ^ 32)]

def killFrees : List Addr → Kernel → List (Addr × Nat)
  | [], _ => []
  | a :: rest, k =>
      if k.processesTable k.activePID = some a then []
      else
        match k.killProcess a with
        | .ok k' => k.procBlocks a ++ killFrees rest k'
        | .error _ => k.procBlocks a

def startFrees (k : Kernel) (ssize : Nat) (procGranted stackGranted : Bool) :
    List (Addr × Nat) :=
  if k.getNewPid = none ∨ Refuses procGranted sizeofProc then []
  else if 2 ^ 32 ≤ ssize + MIN_SSIZE ∨ Refuses stackGranted (stackBytes ssize) then
    [(k.nextBlock, sizeofProc)]
  else []

def pdeleteFrees (k : Kernel) (fid : Int) : List (Addr × Nat) :=
  match k.checkFidValidity fid with
  | .ok (some q) =>
      match k.records q with
      | some mq => [(mq.buffer, sizeofInt * mq.bufferSize.toNat % 2 ^ 32)]
      | none => []
  | _ => []

def schedulesIn (k : Kernel) (e : Event) : Except Fault (Option Kernel) := do
  let a ← k.active
  let p ← k.deref a
  let (k, next) ← k.segment p.context e
  match next with
  | .ret _ _ => .ok none
  | .suspend context => .ok (some (k.setContext a context))

def callFrees (k : Kernel) : Event → List (Addr × Nat)
  | .call (.start ssize _ _ procGranted stackGranted) =>
      k.startFrees ssize procGranted stackGranted
  | .call (.pdelete fid) => k.pdeleteFrees fid
  | _ => []

/-- The calls of `mem_free` in a step: block and length. -/
def frees (k : Kernel) (e : Event) : List (Addr × Nat) :=
  k.callFrees e ++
    match k.schedulesIn e with
    | .ok (some k) =>
        match k.wakeup with
        | .ok k => killFrees (k.lists .dying) k
        | .error _ => []
    | _ => []

theorem killFrees_eq (consistent : k.Consistent) (stocked : k.Stocked) (backed : k.Backed)
    (nodup : l.Nodup) (dying : ∀ a ∈ l, a ∈ k.lists .dying) :
    killFrees l k = (l.takeWhile fun a => decide (k.processesTable k.activePID ≠ some a)).flatMap
      k.procBlocks := by
  induction l generalizing k with
  | nil => rfl
  | cons head tail ih =>
      by_cases active : k.processesTable k.activePID = some head
      · rw [killFrees, if_pos active, List.takeWhile_cons_of_neg (by simp [active])]
        rfl
      · obtain ⟨p, here, links⟩ := (consistent.linked.mem_iff _ head).mp (dying head (by simp))
        obtain ⟨fresh, nodup⟩ := List.nodup_cons.mp nodup
        have first := killProcess_ok consistent.linked stocked backed here links
        have kept : ∀ b, b ≠ head → b ≠ p.stack →
            Function.update (Function.update k.heap head none) p.stack none b = k.heap b := by
          intro b block stack
          rw [Function.update_of_ne stack, Function.update_of_ne block]
        have others : ∀ a ∈ tail, a ∈ (k.lists .dying).erase head := by
          intro a member
          have other : a ≠ head := fun same => fresh (same ▸ member)
          rw [List.mem_erase_of_ne other]
          exact dying a (List.mem_cons_of_mem _ member)
        have rest := ih (consistent.reap here active) (stocked.reap here kept)
          (backed.reap stocked here kept) nodup others
        have same : (k.reap head p (Function.update (Function.update k.heap head none) p.stack
            none)).processesTable k.activePID = k.processesTable k.activePID := by
          refine Function.update_of_ne ?_ _ _
          intro equal
          exact active (equal ▸ consistent.owned head p here)
        have blocks : ∀ a ∈ tail, (k.reap head p (Function.update (Function.update k.heap head none)
            p.stack none)).procBlocks a = k.procBlocks a := by
          intro a member
          have other : a ≠ head := fun same => fresh (same ▸ member)
          rw [procBlocks, procBlocks, reap_procs, if_neg other]
        rw [killFrees, if_neg active, first, List.takeWhile_cons_of_pos (by simp [active]),
          List.flatMap_cons]
        dsimp only
        rw [rest]
        change _ ++ (tail.takeWhile fun a =>
          decide ((k.reap head p _).processesTable k.activePID ≠ some a)).flatMap _ = _
        rw [same]
        congr 1
        apply List.flatMap_congr
        intro a member
        exact blocks a ((List.takeWhile_sublist _).subset member)

theorem segment_sizes {context : Frame} (linked : k.Linked) (fresh : k.procs k.nextBlock = none)
    (unused : k.heap k.nextBlock = none) (old : b < k.nextBlock)
    (run : k.segment context e = .ok (k', n)) :
    (k'.procs b).map Proc.stackSize = (k.procs b).map Proc.stackSize := by
  have of_traits (same : (k'.procs b).map Proc.traits = (k.procs b).map Proc.traits) :
      (k'.procs b).map Proc.stackSize = (k.procs b).map Proc.stackSize := by
    have sizes := congrArg (Option.map fun traits => traits.2.1) same
    rw [Option.map_map, Option.map_map] at sizes
    exact sizes
  by_cases plain : e.unsettles = false
  · exact of_traits ((segment_still linked plain run).traits b)
  · cases e with
    | resume | clockInterrupt => exact absurd rfl plain
    | call c =>
        simp only [segment] at run
        split at run
        · cases c with
          | start ssize prio name procGranted stackGranted =>
              by_cases fails : k.StartFails ssize procGranted stackGranted
              · obtain ⟨next, -, failed⟩ := start_fails prio name fresh unused fails
                rw [show k.start ssize prio name procGranted stackGranted = _ from run] at failed
                cases failed
                rfl
              · have traits := (start_traits fails run).2 b
                rw [if_neg (Nat.ne_of_lt old)] at traits
                exact of_traits traits
          | pcreate count recordGranted bufferGranted =>
              rcases pcreate_eq run with ⟨-, rfl, -⟩ | ⟨-, -, -, -, -, -, ⟨-, rfl, -⟩ | ⟨-, rfl, -⟩⟩
              · rfl
              · rfl
              · rfl
          | pdelete fid =>
              rcases pdelete_eq linked run with ⟨-, rfl, -⟩ |
                ⟨q, mq, k₁, heap, -, -, -, unblocked, -, rfl, -⟩
              · rfl
              · exact of_traits (unblocked.still.traits b)
          | chprio pid newprio =>
              rcases chprio_eq run with ⟨rfl, -⟩ | ⟨a, p, -, here, -, moved, -⟩
              · rfl
              · obtain ⟨base, found⟩ := chprio_stored newprio linked here
                have sizes : ((k.setProc a fun p =>
                    { p with priority := toUnsigned newprio }).procs b).map Proc.stackSize =
                    (k.procs b).map Proc.stackSize := setProc_map _ _ fun _ => rfl
                rcases reorder_eq base found rfl moved with ⟨h, -, -, rfl⟩ | ⟨-, -, rfl, -⟩
                · rw [← sizes, relink_procs]
                  split
                  · next same =>
                    rw [same, Option.map_map]
                    rfl
                  · rfl
                · exact sizes
          | exit | kill | waitpid | getprio | waitClock | sleep | preset | pcount | preceive
          | psend => exact absurd rfl plain
        · cases run

theorem segment_absent {context : Frame} (consistent : k.Consistent)
    (old : b < k.nextBlock) (run : k.segment context e = .ok (k', n)) :
    k.nextBlock ≤ k'.nextBlock ∧ (k.records b = none → k'.records b = none) := by
  obtain ⟨a, current⟩ := consistent.active
  by_cases kind : e.kind context = .queues
  · cases segment_supply consistent.linked kind run with
    | same layout =>
        refine ⟨layout.next, fun absent => ?_⟩
        have same := layout.buffers b
        rw [absent, Option.map_none, Option.map_eq_none_iff] at same
        exact same
    | @deleted fid q mq k₁ heap slot here before kept same =>
        subst same
        refine ⟨before.next, fun absent => ?_⟩
        have same := before.buffers b
        rw [absent, Option.map_none, Option.map_eq_none_iff] at same
        exact same
    | half halved small free same =>
        subst same
        exact ⟨Nat.le_succ _, id⟩
    | created positive bounded small free same =>
        subst same
        refine ⟨Nat.le_add_right _ 2, fun absent => ?_⟩
        exact (Function.update_of_ne (Nat.ne_of_lt old) _ _).trans absent
  · have moves := segment_moves consistent current run
    have other : (k.mover a context e).kind ≠ .queues := kind
    clear run kind current
    generalize k.mover a context e = m at moves other
    induction moves with
    | refl => exact ⟨le_rfl, id⟩
    | tail moves move ih =>
        obtain ⟨next, records⟩ := ih
        cases move with
        | relink | edit | delay | resort | reprioritise => exact ⟨next, records⟩
        | birth small free named status links context stack kept own kind joined =>
            obtain ⟨-, -, -, sameRecords, grown, -⟩ := birth_procs joined
            constructor
            · refine Nat.le_trans next ?_
              exact (Nat.le_add_right _ 2).trans grown.ge
            · intro absent
              exact (congrFun sameRecords b).trans (records absent)
        | store procs lists table current number next' records' fresh queues quiet =>
            obtain ⟨same, -⟩ := quiet other
            exact ⟨Nat.le_trans next next', fun absent => (congrFun same b).trans (records absent)⟩

structure Lone (k : Kernel) (a : Addr) : Prop where
  used : a + 1 < k.nextBlock
  record : k.records a = none
  apart : ∀ b, k.Holds b → a ≠ b + 1 ∧ b ≠ a + 1

theorem Lone.of_live (stocked : k.Stocked) (here : k.procs a = some p) : k.Lone a := by
  refine ⟨stocked.room a (.inl ⟨p, here⟩), ?_, fun b holds => ?_⟩
  · cases found : k.records a with
    | none => rfl
    | some mq => exact (stocked.kinds a p mq here found).elim
  · exact ⟨stocked.apart b a holds (.inl ⟨p, here⟩), stocked.apart a b (.inl ⟨p, here⟩) holds⟩

theorem Lone.kept (lone : k.Lone a) (next : k.nextBlock ≤ k'.nextBlock)
    (records : k.records a = none → k'.records a = none)
    (holds : ∀ b, k'.Holds b → k.Holds b ∨ k.nextBlock ≤ b) : k'.Lone a := by
  refine ⟨Nat.lt_of_lt_of_le lone.used next, records lone.record, fun b held => ?_⟩
  rcases holds b held with before | later
  · exact lone.apart b before
  · have below := Nat.lt_of_lt_of_le lone.used later
    exact ⟨Nat.ne_of_lt (Nat.lt_of_succ_lt (Nat.lt_of_lt_of_le below (Nat.le_succ b))),
      Nat.ne_of_gt below⟩

theorem Lone.segment {context : Frame} (lone : k.Lone a) (consistent : k.Consistent)
    (backed : k.Backed) (run : k.segment context e = .ok (k', n)) : k'.Lone a := by
  have old : a < k.nextBlock := Nat.lt_of_succ_lt lone.used
  obtain ⟨next, records⟩ := segment_absent consistent old run
  refine lone.kept next records fun b held => ?_
  by_cases known : b < k.nextBlock
  · left
    rcases held with ⟨p, there⟩ | ⟨mq, there⟩
    · have sizes := segment_sizes consistent.linked (consistent.fresh _ le_rfl).1
        (backed.unused _ le_rfl) known run
      rw [there, Option.map_some] at sizes
      obtain ⟨p₀, before, -⟩ := Option.map_eq_some_iff.mp sizes.symm
      exact .inl ⟨p₀, before⟩
    · cases before : k.records b with
      | none =>
          rw [(segment_absent consistent known run).2 before] at there
          cases there
      | some mq₀ => exact .inr ⟨mq₀, before⟩
  · exact .inr (Nat.le_of_not_lt known)

theorem Lone.of_settled (lone : k.Lone a) (settled : ∀ b, Settled (k.procs b) (k'.procs b))
    (records : k'.records = k.records) (next : k'.nextBlock = k.nextBlock) : k'.Lone a := by
  refine lone.kept next.ge (fun absent => records ▸ absent) fun b held => .inl ?_
  rcases held with ⟨p, there⟩ | ⟨mq, there⟩
  · cases before : k.procs b with
    | none =>
        have same := settled b
        rw [before, there] at same
        cases same
    | some p₀ => exact .inl ⟨p₀, before⟩
  · exact .inr ⟨mq, records ▸ there⟩

theorem flatMap_single {β : Type} {l : List Addr} {f : Addr → List β} (nodup : l.Nodup)
    (others : ∀ b ∈ l, b ≠ a → f b = []) : l.flatMap f = if a ∈ l then f a else [] := by
  induction l with
  | nil => rfl
  | cons b l ih =>
      obtain ⟨fresh, nodup⟩ := List.nodup_cons.mp nodup
      have rest := ih nodup fun c member => others c (List.mem_cons_of_mem _ member)
      rw [List.flatMap_cons, rest]
      by_cases same : b = a
      · subst same
        simp [fresh]
      · rw [others b List.mem_cons_self same]
        simp [Ne.symm same]

theorem procBlocks_eq (stocked : k.Stocked) (here : k.procs a = some p) :
    k.procBlocks a = [(a, sizeofProc), (a + 1, sizeofInt * p.stackSize % 2 ^ 32)] := by
  simp only [procBlocks, here, (stocked.procs a p here).1]

def concerning (a : Addr) (calls : List (Addr × Nat)) : List (Addr × Nat) :=
  calls.filter fun call => decide (call.1 = a ∨ call.1 = a + 1)

theorem concerning_append {first second : List (Addr × Nat)} :
    concerning a (first ++ second) = concerning a first ++ concerning a second :=
  List.filter_append ..

theorem concerning_eq_nil {calls : List (Addr × Nat)}
    (others : ∀ call ∈ calls, call.1 ≠ a ∧ call.1 ≠ a + 1) : concerning a calls = [] := by
  apply List.filter_eq_nil_iff.mpr
  intro call member
  simpa using others call member

theorem killFrees_concerning (consistent : k.Consistent) (stocked : k.Stocked)
    (backed : k.Backed) (lone : k.Lone a) :
    concerning a (killFrees (k.lists .dying) k) = if a ∈ k.doomed then k.procBlocks a else [] := by
  have nodup := consistent.linked.nodup .dying
  have run := killFrees_eq consistent stocked backed nodup fun _ member => member
  change _ = k.doomed.flatMap k.procBlocks at run
  have distinct : k.doomed.Nodup := nodup.sublist (List.takeWhile_sublist _)
  have others : ∀ b ∈ k.doomed, b ≠ a → concerning a (k.procBlocks b) = [] := by
    intro b member other
    obtain ⟨p, here, -⟩ := (consistent.linked.mem_iff _ b).mp (doomed_dying member)
    obtain ⟨before, after⟩ := lone.apart b (.inl ⟨p, here⟩)
    have stack : b + 1 ≠ a + 1 := fun same => other (Nat.succ.inj same)
    apply concerning_eq_nil
    rw [procBlocks_eq stocked here]
    intro call inside
    simp only [List.mem_cons, List.not_mem_nil, or_false] at inside
    rcases inside with rfl | rfl
    · exact ⟨other, after⟩
    · exact ⟨Ne.symm before, stack⟩
  rw [run, concerning, List.filter_flatMap]
  refine (flatMap_single distinct others).trans ?_
  split
  · next member =>
    obtain ⟨p, here, -⟩ := (consistent.linked.mem_iff _ a).mp (doomed_dying member)
    rw [procBlocks_eq stocked here]
    simp [concerning]
  · rfl

/-- What has become of the two blocks of a process, and the calls that have concerned them. -/
inductive Fate (a : Addr) (bytes : Nat) (k : Kernel) (calls : List (Addr × Nat)) : Prop where
  | held {p : Proc} (here : k.procs a = some p)
      (length : sizeofInt * p.stackSize % 2 ^ 32 = bytes) (none : concerning a calls = [])
  | given (absent : k.procs a = none) (lone : k.Lone a)
      (both : concerning a calls = [(a, sizeofProc), (a + 1, bytes)])

theorem Fate.lone {bytes : Nat} {calls : List (Addr × Nat)} (fate : Fate a bytes k calls)
    (stocked : k.Stocked) : k.Lone a := by
  cases fate with
  | held here length none => exact .of_live stocked here
  | given absent lone both => exact lone

/-- In step `e` process `a` is DYING when `kill_processes` is called, and not the active one. -/
def Ended (k : Kernel) (e : Event) (a : Addr) : Prop :=
  ∃ k₁ k₂ p, k.Schedules e k₁ ∧ k₁.wakeup = .ok k₂ ∧ k₂.procs a = some p ∧
    p.status = .dying ∧ k₂.processesTable k₂.activePID ≠ some a

theorem schedulesIn_eq {context : Frame} (current : k.processesTable k.activePID = some a)
    (here : k.procs a = some p) (segment : k.segment p.context e = .ok (k', .suspend context)) :
    k.schedulesIn e = .ok (some (k'.setContext a context)) := by
  apply bind_eq_ok.mpr
  refine ⟨a, active_eq_ok.mpr current, bind_eq_ok.mpr ⟨p, deref_eq_ok.mpr here, ?_⟩⟩
  exact bind_eq_ok.mpr ⟨_, segment, rfl⟩

theorem schedulesIn_returned {value : Int} {out : Option Int}
    (current : k.processesTable k.activePID = some a) (here : k.procs a = some p)
    (segment : k.segment p.context e = .ok (k', .ret value out)) :
    k.schedulesIn e = .ok none := by
  apply bind_eq_ok.mpr
  refine ⟨a, active_eq_ok.mpr current, bind_eq_ok.mpr ⟨p, deref_eq_ok.mpr here, ?_⟩⟩
  exact bind_eq_ok.mpr ⟨_, segment, rfl⟩

theorem Fate.scheduling {bytes : Nat} {calls : List (Addr × Nat)} (fate : Fate a bytes k calls)
    (consistent : k.Consistent) (stocked : k.Stocked) (backed : k.Backed) (counted : k.Counted)
    (run : k.scheduling = .ok k') :
    ∃ k₁, k.wakeup = .ok k₁ ∧
      Fate a bytes k' (killFrees (k₁.lists .dying) k₁ ++ calls) ∧
      ∀ call ∈ concerning a (killFrees (k₁.lists .dying) k₁), ∃ p, k₁.procs a = some p ∧
        p.status = .dying ∧ k₁.processesTable k₁.activePID ≠ some a := by
  have settled := scheduling_settled consistent run a
  have lone' : k'.Lone a := by
    obtain ⟨records, -, next, -⟩ := scheduling_same consistent run
    exact (fate.lone stocked).of_settled (scheduling_settled consistent run) records next
  simp only [Kernel.scheduling, electProc, bind_eq_ok, active_eq_ok] at run
  obtain ⟨k₁, woke, k₂, killed, c, current, k₃, back, next⟩ := run
  have woken := wakeup_eq consistent.linked woke
  have consistent₁ := consistent.woken woken
  have stocked₁ := stocked.woken woken
  have backed₁ := backed.still woken.still
  obtain ⟨k₂', killed', reaps⟩ :=
    killProcesses_reaps consistent₁ stocked₁ backed₁ (counted.woken woken)
  rw [killed, Except.ok.injEq] at killed'
  subst k₂'
  have lone₁ : k₁.Lone a := by
    obtain ⟨records, -, next, -⟩ := woken.same
    exact (fate.lone stocked).of_settled (fun b => woken.settled consistent b) records next
  have calls₁ := killFrees_concerning consistent₁ stocked₁ backed₁ lone₁
  have consistent₂ := consistent₁.reaped (killProcesses_eq consistent₁.linked killed)
  have traits : (k'.procs a).map Proc.traits = (k₂.procs a).map Proc.traits := by
    obtain ⟨d, q, b, -, -, -, rfl⟩ :=
      electNext_eq (consistent₂.putBack current back).1.linked next
    exact ((putBack_still consistent₂.linked back).trans elect_still).traits a
  refine ⟨k₁, woke, ?_, ?_⟩
  · by_cases doomed : a ∈ k₁.doomed
    · have gone : k'.procs a = none := by
        rw [reaps.cleared.procs, if_pos doomed, Option.map_none, Option.map_eq_none_iff] at traits
        exact traits
      refine .given gone lone' ?_
      obtain ⟨p₁, here₁, -⟩ := (reaps.dying a).mp (doomed_dying doomed)
      rw [concerning_append, calls₁, if_pos doomed, procBlocks_eq stocked₁ here₁]
      cases fate with
      | @held p here length none =>
          have same := woken.still.traits a
          rw [here, here₁, Option.map_some, Option.map_some, Option.some.injEq] at same
          have size : p₁.stackSize = p.stackSize := congrArg (fun traits => traits.2.1) same
          rw [none, size, length]
          rfl
      | given absent =>
          have same := woken.still.traits a
          rw [absent, here₁] at same
          cases same
    · have none : concerning a (killFrees (k₁.lists .dying) k₁) = [] := by
        rw [calls₁, if_neg doomed]
      cases fate with
      | @held p here length noCalls =>
          have kept : (k'.procs a).map Proc.traits = some p.traits := by
            rw [traits, reaps.cleared.procs, if_neg doomed, woken.still.traits, here,
              Option.map_some]
          obtain ⟨p', there, same⟩ := Option.map_eq_some_iff.mp kept
          have size : p'.stackSize = p.stackSize := congrArg (fun traits => traits.2.1) same
          refine .held there (size ▸ length) ?_
          rw [concerning_append, none, noCalls]
          rfl
      | given absent lone both =>
          rw [absent] at settled
          have gone : k'.procs a = Option.none := by
            generalize k'.procs a = o at settled
            cases settled
            rfl
          refine .given gone lone' ?_
          rw [concerning_append, none, both]
          rfl
  · intro call member
    rw [calls₁] at member
    split at member
    · next doomed =>
      obtain ⟨p, here, status⟩ := (reaps.dying a).mp (doomed_dying doomed)
      exact ⟨p, here, status, fun current => not_doomed current doomed⟩
    · cases member

theorem callFrees_concerning (lone : k.Lone a) (stocked : k.Stocked) :
    concerning a (k.callFrees e) = [] := by
  apply concerning_eq_nil
  intro call member
  unfold callFrees at member
  split at member
  · rw [startFrees] at member
    split at member
    · cases member
    · split at member
      · rw [List.mem_singleton.mp member]
        exact ⟨Nat.ne_of_gt (Nat.lt_of_succ_lt lone.used), Nat.ne_of_gt lone.used⟩
      · cases member
  · rw [pdeleteFrees] at member
    split at member
    · next q valid =>
      split at member
      · next mq here =>
        obtain ⟨before, -⟩ := lone.apart q (.inr ⟨mq, here⟩)
        rw [List.mem_singleton.mp member, (stocked.buffers q mq here).1]
        refine ⟨Ne.symm before, fun same => ?_⟩
        obtain rfl := Nat.succ.inj same
        rw [lone.record] at here
        cases here
      · cases member
    · cases member
  · cases member

theorem Fate.start {ssize : Nat} {prio : Int} {name : List UInt8}
    {procGranted stackGranted : Bool} (accepted : ¬ k.StartFails ssize procGranted stackGranted)
    (run : k.start ssize prio name procGranted stackGranted = .ok (k', n)) :
    Fate k.nextBlock (stackBytes ssize) k' [] := by
  have traits := (start_traits accepted run).2 k.nextBlock
  rw [if_pos rfl] at traits
  obtain ⟨p, there, same⟩ := Option.map_eq_some_iff.mp traits
  have size : p.stackSize = realStackSize ssize := congrArg (fun traits => traits.2.1) same
  refine .held there ?_ rfl
  rw [size, stackBytes, Nat.mul_comm]

theorem Fate.segment {bytes : Nat} {calls : List (Addr × Nat)} {context : Frame}
    (fate : Fate a bytes k calls) (consistent : k.Consistent) (stocked : k.Stocked)
    (backed : k.Backed) (run : k.segment context e = .ok (k', n)) : Fate a bytes k' calls := by
  have lone := fate.lone stocked
  have sizes := segment_sizes consistent.linked (consistent.fresh _ le_rfl).1
    (backed.unused _ le_rfl) (Nat.lt_of_succ_lt lone.used) run
  cases fate with
  | held here length none =>
      rw [here, Option.map_some] at sizes
      obtain ⟨p', there, same⟩ := Option.map_eq_some_iff.mp sizes
      exact .held there (same ▸ length) none
  | given absent _ both =>
      rw [absent, Option.map_none, Option.map_eq_none_iff] at sizes
      exact .given sizes (lone.segment consistent backed run) both

theorem Fate.saved {bytes : Nat} {calls : List (Addr × Nat)} {context : Frame}
    (fate : Fate a bytes k calls) : Fate a bytes (k.setContext b context) calls := by
  have sizes : ((k.setContext b context).procs a).map Proc.stackSize =
      (k.procs a).map Proc.stackSize := setProc_map _ _ fun _ => rfl
  cases fate with
  | held here length none =>
      rw [here, Option.map_some] at sizes
      obtain ⟨p', there, same⟩ := Option.map_eq_some_iff.mp sizes
      exact .held there (same ▸ length) none
  | given absent lone both =>
      rw [absent, Option.map_none, Option.map_eq_none_iff] at sizes
      refine .given sizes ⟨lone.used, lone.record, fun c holds => lone.apart c ?_⟩ both
      rcases holds with ⟨p, there⟩ | known
      · have kept : ((k.setContext b context).procs c).map Proc.stackSize =
            (k.procs c).map Proc.stackSize := setProc_map _ _ fun _ => rfl
        rw [there, Option.map_some] at kept
        obtain ⟨p₀, before, -⟩ := Option.map_eq_some_iff.mp kept.symm
        exact .inl ⟨p₀, before⟩
      · exact .inr known

theorem Fate.finish {bytes : Nat} {calls : List (Addr × Nat)} {k₁ : Kernel}
    (current : k.processesTable k.activePID = some b) (here : k.procs b = some p)
    (segment : k.segment p.context e = .ok (k₁, n)) (fate : Fate a bytes k₁ calls)
    (quiet : concerning a (k.callFrees e) = []) (consistent : k₁.Consistent)
    (stocked : k₁.Stocked) (backed : k₁.Backed) (counted : k₁.Counted)
    (finish : k₁.finish b n = .ok k') :
    Fate a bytes k' (k.frees e ++ calls) ∧
      ∀ call ∈ concerning a (k.frees e), k.Ended e a := by
  rcases finish_eq finish with ⟨value, out, rfl, rfl⟩ | ⟨context, rfl, finish⟩
  · have none : concerning a (k.frees e) = [] := by
      rw [frees, schedulesIn_returned current here segment, concerning_append, quiet]
      rfl
    rw [none]
    refine ⟨?_, by simp⟩
    have kept : Fate a bytes (k₁.setContext b .user) calls := fate.saved
    cases kept with
    | held here' length before =>
        refine .held here' length ?_
        rw [concerning_append, none, before]
        rfl
    | given absent lone both =>
        refine .given absent lone ?_
        rw [concerning_append, none, both]
        rfl
  · have saved : (k₁.setContext b context).Stocked := stocked.setProc fun _ => rfl
    have still : Still k₁ (k₁.setContext b context) := .setProc fun _ => rfl
    have kept : Fate a bytes (k₁.setContext b context) calls := fate.saved
    obtain ⟨k₂, woke, fate', ended⟩ := kept.scheduling
      consistent.setContext saved (backed.still still) (counted.of_eq rfl rfl) finish
    have listed : k.frees e = k.callFrees e ++ killFrees (k₂.lists .dying) k₂ := by
      rw [frees, schedulesIn_eq current here segment]
      dsimp only
      rw [woke]
    rw [listed]
    constructor
    · cases fate' with
      | held here' length before =>
          refine .held here' length ?_
          rw [List.append_assoc, concerning_append, quiet, before]
          rfl
      | given absent lone both =>
          refine .given absent lone ?_
          rw [List.append_assoc, concerning_append, quiet, both]
          rfl
    · intro call member
      rw [concerning_append, quiet] at member
      obtain ⟨p', there, status, other⟩ := ended call member
      exact ⟨_, k₂, p', ⟨b, p, k₁, context, current, here, segment, rfl⟩, woke, there, status,
        other⟩

end Kernel

open Kernel

variable {history earlier later : History} {k : Kernel} {t : Step} {ssize : Nat} {prio : Int}
  {name : List UInt8} {procGranted stackGranted : Bool}

def freed (history : History) : List (Addr × Nat) :=
  history.flatMap fun t => t.before.frees t.event

theorem Kernel.Fate.step {a : Addr} {bytes : Nat} {calls : List (Addr × Nat)} {k' : Kernel} {e : Event}
    {n : Next} (fate : Fate a bytes k calls) (run : Reached history k)
    (taken : k.step e = .ok (k', n)) :
    Fate a bytes k' (k.frees e ++ calls) ∧ ∀ call ∈ concerning a (k.frees e), k.Ended e a := by
  obtain ⟨consistent, -⟩ := consistent_of_run run
  obtain ⟨stocked, counted⟩ := stocked_of_run run
  have backed := backed_of_run run
  obtain ⟨b, p, k₁, current, here, segment, finish⟩ := step_eq taken
  exact (fate.segment consistent stocked backed segment).finish current here segment
    (callFrees_concerning (fate.lone stocked) stocked) (consistent.segment segment)
    (stocked.segment consistent current segment) (backed.segment stocked consistent segment)
    (counted.moves (segment_moves consistent current segment)) finish

theorem fate_of_run (accepted : ¬ t.before.StartFails ssize procGranted stackGranted)
    (event : t.event = .call (.start ssize prio name procGranted stackGranted))
    (run : Reached (later ++ t :: earlier) k) :
    Fate t.before.nextBlock (stackBytes ssize) k (freed (later ++ [t])) ∧
      ∀ u ∈ later ++ [t], ∀ call ∈ concerning t.before.nextBlock (u.before.frees u.event),
        u.before.Ended u.event t.before.nextBlock := by
  induction later generalizing k with
  | nil =>
      cases run with
      | @next _ s _ e n run taken =>
        dsimp only at accepted event ⊢
        subst event
        obtain ⟨consistent, -⟩ := consistent_of_run run
        obtain ⟨stocked, counted⟩ := stocked_of_run run
        have backed := backed_of_run run
        obtain ⟨b, p, k₁, current, here, segment, finish⟩ := step_eq taken
        have started : s.start ssize prio name procGranted stackGranted = .ok (k₁, n) := by
          simp only [Kernel.segment] at segment
          split at segment
          · exact segment
          · cases segment
        have quiet : concerning s.nextBlock
            (s.callFrees (.call (.start ssize prio name procGranted stackGranted))) = [] := by
          rw [StartFails, not_or, not_or] at accepted
          rw [callFrees, startFrees, if_neg (not_or.mpr ⟨accepted.1, accepted.2.1⟩),
            if_neg accepted.2.2]
          rfl
        obtain ⟨fate, ended⟩ := (Fate.start accepted started).finish current here segment quiet
          (consistent.segment segment) (stocked.segment consistent current segment)
          (backed.segment stocked consistent segment)
          (counted.moves (segment_moves consistent current segment)) finish
        constructor
        · simpa [freed] using fate
        · intro u member call inside
          rw [List.nil_append, List.mem_singleton] at member
          subst member
          exact ended call inside
  | cons u later ih =>
      cases run with
      | @next _ s _ e n run taken =>
        obtain ⟨fate, before⟩ := ih run
        obtain ⟨fate', ended⟩ := fate.step run taken
        constructor
        · simpa [freed] using fate'
        · intro v member call inside
          rcases List.mem_cons.mp member with rfl | member
          · exact ended call inside
          · exact before v member call inside

theorem fate_of_boot {k₀ : Kernel}
    (boot : booting.start ssize prio name true true = .ok (k₀, .ret 0 none))
    (run : Transition.Run step (fun s => s = k₀) history k) :
    Fate booting.nextBlock (stackBytes ssize) k (freed history) ∧
      ∀ u ∈ history, ∀ call ∈ concerning booting.nextBlock (u.before.frees u.event),
        u.before.Ended u.event booting.nextBlock := by
  have booted : ∀ s, s = k₀ → Booted s := by
    intro s same
    exact ⟨ssize, prio, name, same ▸ boot⟩
  induction run with
  | start same =>
      subst same
      have accepted : ¬ booting.StartFails ssize true true := by
        intro fails
        obtain ⟨next, -, failed⟩ := start_fails prio name rfl rfl fails
        rw [boot] at failed
        cases failed
      refine ⟨Fate.start accepted boot, ?_⟩
      intro u member
      cases member
  | next run taken ih =>
      obtain ⟨fate, before⟩ := ih
      obtain ⟨fate', ended⟩ := fate.step (run.mono booted) taken
      refine ⟨fate', ?_⟩
      intro v member call inside
      rcases List.mem_cons.mp member with rfl | member
      · exact ended call inside
      · exact before v member call inside

/-- `nb_proc` counts the table, `kill_processes` frees the dying processes ahead of the active
one, and the two blocks that a successful `start` takes, the first `start` of all included,
are given back together, once, with their lengths, after the end of their process. -/
theorem reaping_is_exact (run : Reached history k) :
    k.nbProc = (List.range MAXNPROC).countP (fun pid => (k.processesTable pid).isSome) ∧
      (∀ e k₁, k.Schedules e k₁ → ∃ k₂ k₃, k₁.wakeup = .ok k₂ ∧ k₂.killProcesses = .ok k₃ ∧
        k₂.Reaps k₃) ∧
      (∀ k₀ ssize prio name, booting.start ssize prio name true true = .ok (k₀, .ret 0 none) →
        Transition.Run step (fun s => s = k₀) history k →
        (concerning booting.nextBlock (freed history) = [] ∨
          concerning booting.nextBlock (freed history) =
            [(booting.nextBlock, sizeofProc), (booting.nextBlock + 1, stackBytes ssize)]) ∧
        ∀ u ∈ history, ∀ call ∈ concerning booting.nextBlock (u.before.frees u.event),
          u.before.Ended u.event booting.nextBlock) ∧
      ∀ later t earlier ssize prio name procGranted stackGranted,
        history = later ++ t :: earlier →
        t.event = .call (.start ssize prio name procGranted stackGranted) →
        ¬ t.before.StartFails ssize procGranted stackGranted →
        (concerning t.before.nextBlock (freed (later ++ [t])) = [] ∨
          concerning t.before.nextBlock (freed (later ++ [t])) =
            [(t.before.nextBlock, sizeofProc), (t.before.nextBlock + 1, stackBytes ssize)]) ∧
        ∀ u ∈ later ++ [t], ∀ call ∈ concerning t.before.nextBlock (u.before.frees u.event),
          u.before.Ended u.event t.before.nextBlock := by
  obtain ⟨consistent, -⟩ := consistent_of_run run
  obtain ⟨stocked, counted⟩ := stocked_of_run run
  have backed := backed_of_run run
  refine ⟨?_, ?_, ?_, ?_⟩
  · rw [counted, Tally.tally_eq_countP]
    simp
  · rintro e k₁ ⟨a, p, k₀, context, current, here, segment, rfl⟩
    have consistent₁ : (k₀.setContext a context).Consistent :=
      (consistent.segment segment).setContext
    have stocked₁ : (k₀.setContext a context).Stocked :=
      (stocked.segment consistent current segment).setProc fun _ => rfl
    have backed₁ : (k₀.setContext a context).Backed :=
      (backed.segment stocked consistent segment).still (.setProc fun _ => rfl)
    have counted₁ : (k₀.setContext a context).Counted :=
      (counted.moves (segment_moves consistent current segment)).of_eq rfl rfl
    obtain ⟨k₂, woke⟩ := wakeup_ok consistent₁
    have woken := wakeup_eq consistent₁.linked woke
    obtain ⟨k₃, killed, reaps⟩ := killProcesses_reaps (consistent₁.woken woken)
      (stocked₁.woken woken) (backed₁.still woken.still) (counted₁.woken woken)
    exact ⟨k₂, k₃, woke, killed, reaps⟩
  · intro k₀ ssize prio name boot run
    obtain ⟨fate, ended⟩ := fate_of_boot boot run
    refine ⟨?_, ended⟩
    cases fate with
    | held here length none => exact .inl none
    | given absent lone both => exact .inr both
  · rintro later t earlier ssize prio name procGranted stackGranted rfl event accepted
    obtain ⟨fate, ended⟩ := fate_of_run accepted event run
    refine ⟨?_, ended⟩
    cases fate with
    | held here length none => exact .inl none
    | given absent lone both => exact .inr both

/-- A process of priority 200 exits and is reaped at the next clock interrupt. -/
theorem reaping_is_exact_exit : ∃ (history : History) (k : Kernel), Reached history k ∧
    k.nbProc = (List.range MAXNPROC).countP (fun pid => (k.processesTable pid).isSome) ∧
    k.nbProc = 1 ∧
    concerning 3 (freed history) = [(3, sizeofProc), (4, stackBytes 512)] := by
  obtain ⟨history, k, run, checked⟩ := reached_by
    [.call (.start 512 200 [97] true true), .call (.exit 7), .resume, .clockInterrupt]
    (fun history k => decide (k.nbProc = 1) &&
      decide (concerning 3 (freed history) = [(3, sizeofProc), (4, stackBytes 512)]))
    (by decide +kernel)
  simp only [Bool.and_eq_true, decide_eq_true_eq] at checked
  exact ⟨history, k, run, (reaping_is_exact run).1, checked⟩

end IntelX86Kernel

import IntelX86Kernel.ProcessCalls
import IntelX86Kernel.QueueCalls
import Mathlib.Logic.Relation

/-! Every step is made of a few kinds of moves before it calls `scheduling`. An
invariant of processes and lists has to be checked against these moves only. -/

namespace IntelX86Kernel

def Head.status : Head → Status
  | .ready => .ready
  | .asleep => .asleep
  | .dying => .dying
  | .zombie => .zombie
  | .blocked => .blocked
  | .queue _ => .blockedMessageQueue

/-- Only the list of a queue whose record is set up can be joined. -/
def Head.Held (h : Head) (k : Kernel) : Prop :=
  ∀ q, h = .queue q → ∃ mq, k.records q = some mq

/-- The status of a process is the one of the list it is in. Process 0 alone may be
ELECTED and in the ready list, where `start` puts it. -/
def Proc.Placed (p : Proc) : Prop :=
  match p.links with
  | none => p.status = .elected
  | some h => p.status = h.status ∨ (h = .ready ∧ p.status = .elected ∧ p.pid = 0)

theorem Proc.Placed.status_of_links {p : Proc} {h : Head} (placed : p.Placed)
    (links : p.links = some h) (other : h ≠ .ready) : p.status = h.status := by
  rw [Proc.Placed, links] at placed
  rcases placed with status | ⟨ready, -⟩
  · exact status
  · exact absurd ready other

theorem Proc.Placed.links_of_status {p : Proc} (placed : p.Placed)
    (status : p.status ≠ .elected) : ∃ h, p.links = some h ∧ p.status = h.status := by
  rw [Proc.Placed] at placed
  cases links : p.links with
  | none =>
      rw [links] at placed
      exact absurd placed status
  | some h =>
      rw [links] at placed
      rcases placed with same | ⟨-, running, -⟩
      · exact ⟨h, rfl, same⟩
      · exact absurd running status

/-- What the lists, the election and the context switch read of a process is unchanged. -/
structure Proc.Same (p p' : Proc) : Prop where
  pid : p'.pid = p.pid
  status : p'.status = p.status
  links : p'.links = p.links
  context : p'.context = p.context
  priority : p'.priority = p.priority
  wakeUpTime : p'.wakeUpTime = p.wakeUpTime
  stack : p'.stack = p.stack

/-- What a step is concerned with. -/
inductive Kind where
  | plain | family | queues | priority
  deriving DecidableEq

/-- The process taking a step, the target of a `kill`, and the kind of the step. -/
structure Mover where
  current : Addr
  target : Option Addr
  kind : Kind

inductive Mover.Allows (m : Mover) (a : Addr) (p : Proc) : Head → Prop where
  | ends {h : Head} (kind : m.kind = .family) (own : a = m.current)
      (stops : h = .zombie ∨ h = .dying ∨ h = .blocked) : m.Allows a p h
  | target {h : Head} (kind : m.kind = .family) (killed : m.target = some a)
      (dead : h = .zombie ∨ h = .dying) : m.Allows a p h
  | parent (kind : m.kind = .family) (blocked : p.status = .blocked) : m.Allows a p .ready
  | child (kind : m.kind = .family) (ended : p.status = .zombie) : m.Allows a p .dying
  | waits {q : Addr} (kind : m.kind = .queues) (own : a = m.current) : m.Allows a p (.queue q)
  | waiter {q : Addr} (kind : m.kind = .queues) (links : p.links = some (.queue q)) :
      m.Allows a p .ready

def Call.kind : Call → Kind
  | .start .. | .exit _ | .kill _ | .waitpid .. => .family
  | .chprio .. => .priority
  | .getprio _ | .waitClock _ | .sleep _ => .plain
  | .pcreate .. | .pdelete _ | .preset _ | .pcount .. | .preceive _ | .psend .. => .queues

def Frame.kind : Frame → Kind
  | .waitpid .. | .waitForChild _ => .family
  | .preceive .. | .psend .. => .queues
  | .user | .done .. | .start _ | .exit => .plain

theorem Frame.kind_ne_priority (context : Frame) : context.kind ≠ .priority := by
  cases context <;> nofun

def Event.kind (context : Frame) : Event → Kind
  | .call c => c.kind
  | .clockInterrupt => .plain
  | .resume => context.kind

def Event.target (k : Kernel) : Event → Option Addr
  | .call (.kill pid) => if 0 < pid then k.processesTable pid.toNat else none
  | _ => none

namespace Kernel

variable {k k' : Kernel} {a b q : Addr} {p : Proc} {n : Next} {m : Mover}

structure Consistent (k : Kernel) : Prop where
  linked : k.Linked
  placed : ∀ a p, k.procs a = some p → p.Placed
  table : ∀ pid a, k.processesTable pid = some a →
    pid < MAXNPROC ∧ ∃ p, k.procs a = some p ∧ p.pid = pid
  owned : ∀ a p, k.procs a = some p → k.processesTable p.pid = some a
  fresh : ∀ a, k.nextBlock ≤ a → k.procs a = none ∧ k.records a = none
  held : ∀ q, k.records q = none → k.lists (.queue q) = []
  elected : ∀ a p, k.procs a = some p → p.status = .elected →
    k.processesTable k.activePID = some a ∨ p.pid = 0 ∧ p.links = some .ready
  active : ∃ a, k.processesTable k.activePID = some a

theorem Consistent.live (consistent : k.Consistent) (here : k.procs a = some p) :
    p.pid < MAXNPROC :=
  (consistent.table _ _ (consistent.owned a p here)).1

theorem Consistent.unique (consistent : k.Consistent) {p' : Proc} (here : k.procs a = some p)
    (there : k.procs b = some p') (same : p.pid = p'.pid) : a = b := by
  have first := consistent.owned a p here
  have second := consistent.owned b p' there
  rw [same, second] at first
  exact (Option.some.inj first).symm

theorem Consistent.unused (consistent : k.Consistent) :
    ∀ q, k.nextBlock ≤ q → k.lists (.queue q) = [] :=
  fun q later => consistent.held q (consistent.fresh q later).2

inductive Move (m : Mover) : Kernel → Kernel → Prop where
  | relink {k : Kernel} {a : Addr} {p : Proc} {h : Head} (held : h.Held k)
      (here : k.procs a = some p) (allowed : m.Allows a p h) : Move m k (k.relink a h.status h)
  | edit {k : Kernel} {a : Addr} {f : Proc → Proc} (kind : m.kind = .family)
      (same : ∀ p, Proc.Same p (f p)) : Move m k (k.setProc a f)
  | delay {k : Kernel} {p : Proc} {time : Nat} (kind : m.kind = .plain)
      (here : k.procs m.current = some p) :
      Move m k ((k.setProc m.current fun p => { p with wakeUpTime := time }).relink m.current .asleep
        .asleep)
  | resort {k : Kernel} {a : Addr} {p : Proc} {prio : Nat} {h : Head}
      (held : h.Held k) (here : k.procs a = some p) (sorted : h.field = Proc.priority)
      (stays : p.status = h.status) (links : p.links = some h) (kind : m.kind = .priority) :
      Move m k ((k.setProc a fun p => { p with priority := prio }).relink a h.status h)
  | reprioritise {k : Kernel} {a : Addr} {p : Proc} {prio : Nat} (here : k.procs a = some p)
      (apart : p.status = .elected ∨ p.status = .asleep ∨ p.status = .dying ∨
        p.status = .blockedMessageQueue ∧ ∀ i < NBQUEUE, ∀ q, k.queues i = some q →
          ∀ b ∈ k.lists (.queue q), ∃ p', k.procs b = some p' ∧ p'.pid ≠ p.pid)
      (kind : m.kind = .priority) : Move m k (k.setProc a fun p => { p with priority := prio })
  | birth {k k₁ : Kernel} {pid : Nat} {p : Proc} {heap : Addr → Option Nat}
      (small : pid < MAXNPROC) (free : k.processesTable pid = none) (named : p.pid = pid)
      (status : p.status = if pid = 0 then .elected else .ready) (links : p.links = none)
      (context : p.context = .user) (stack : p.stack = k.nextBlock + 1)
      (kept : ∀ b < k.nextBlock, heap b = k.heap b) (own : heap k.nextBlock = some sizeofProc)
      (kind : m.kind = .family)
      (joined : k₁ = k.born pid p heap ∨
        ∃ b placed, k₁ = (k.born pid p heap).join k.nextBlock b placed) :
      Move m k (k₁.link k.nextBlock .ready).counted
  | store {k k' : Kernel} (procs : k'.procs = k.procs) (lists : k'.lists = k.lists)
      (table : k'.processesTable = k.processesTable) (current : k'.activePID = k.activePID)
      (number : k'.nbProc = k.nbProc) (next : k.nextBlock ≤ k'.nextBlock)
      (records : ∀ q mq, k.records q = some mq → ∃ mq', k'.records q = some mq')
      (fresh : ∀ q, k'.nextBlock ≤ q → k.records q = none → k'.records q = none)
      (queues : ∀ i q, k'.queues i = some q → k.queues i = some q ∨ k.lists (.queue q) = [])
      (quiet : m.kind ≠ .queues → k'.records = k.records ∧ k'.queues = k.queues ∧
        k'.queueCount = k.queueCount ∧ ∀ b < k.nextBlock, k'.heap b = k.heap b) :
      Move m k k'

abbrev Moves (m : Mover) : Kernel → Kernel → Prop := Relation.ReflTransGen (Move m)

theorem Moves.relink {h : Head} (moves : Moves m k k') (held : h.Held k')
    (here : k'.procs a = some p) (allowed : m.Allows a p h) :
    Moves m k (k'.relink a h.status h) :=
  moves.tail (.relink held here allowed)

theorem Moves.edit {f : Proc → Proc} (moves : Moves m k k') (kind : m.kind = .family)
    (same : ∀ p, Proc.Same p (f p)) : Moves m k (k'.setProc a f) :=
  moves.tail (.edit kind same)

theorem Moves.setRecord (moves : Moves m k k') (kind : m.kind = .queues)
    (f : MessageQueue → MessageQueue) : Moves m k (k'.setRecord q f) := by
  refine moves.tail (.store rfl rfl rfl rfl rfl le_rfl (fun b mq here => ?_) (fun b _ absent => ?_)
    (fun _ _ slot => .inl slot) fun other => absurd kind other)
  · rw [setRecord_records]
    split
    · next same => exact ⟨f mq, by rw [← same, here, Option.map_some]⟩
    · exact ⟨mq, here⟩
  · rw [setRecord_records]
    split
    · next same => rw [← same, absent, Option.map_none]
    · exact absent

theorem Moves.popSibling (moves : Moves m k k') (kind : m.kind = .family) :
    Moves m k (k'.popSibling a b) := by
  refine Moves.edit (Moves.edit moves kind ?_) kind ?_ <;>
    exact fun _ => ⟨rfl, rfl, rfl, rfl, rfl, rfl, rfl⟩

theorem Moves.dropSibling (moves : Moves m k k') (kind : m.kind = .family) :
    Moves m k (k'.dropSibling a b) := by
  refine Moves.edit (Moves.edit moves kind ?_) kind ?_ <;>
    exact fun _ => ⟨rfl, rfl, rfl, rfl, rfl, rfl, rfl⟩

theorem Freed.moves {k₀ : Kernel} (freed : Freed a k k') (kind : m.kind = .family)
    (before : Moves m k₀ k) : Moves m k₀ k' := by
  induction freed with
  | none there empty => exact before
  | zombie there last here ended links rest ih =>
      refine ih ((before.popSibling kind).relink (h := .dying) nofun
        (popSibling_procs.trans (congrArg _ here)) ?_)
      exact .child kind ended
  | alive there last here running rest ih =>
      exact ih ((before.popSibling kind).edit kind fun _ => ⟨rfl, rfl, rfl, rfl, rfl, rfl, rfl⟩)

theorem Unblocked.moves {k₀ : Kernel} (unblocked : Unblocked q k k') (linked : k.Linked)
    (kind : m.kind = .queues) (before : Moves m k₀ k) : Moves m k₀ k' := by
  induction unblocked with
  | none empty => exact before
  | waiter last rest ih =>
      obtain ⟨p, here, links⟩ := (linked.mem_iff _ _).mp (List.mem_of_getLast? last)
      exact ih (linked.relink here)
        (before.relink (h := .ready) nofun here (.waiter kind links))

theorem exit_moves {k₀ : Kernel} {retval : Int} (linked : k.Linked) (kind : m.kind = .family)
    (current : k.processesTable k.activePID = some m.current) (before : Moves m k₀ k)
    (run : k.exit retval = .ok (k', n)) : Moves m k₀ k' := by
  obtain ⟨a, p, k₁, p₁, active, -, freed, here, -, -, ended⟩ := exit_eq linked run
  rw [current, Option.some.injEq] at active
  subst a
  have between : Moves m k₀ k₁ :=
    freed.moves kind (before.edit kind fun _ => ⟨rfl, rfl, rfl, rfl, rfl, rfl, rfl⟩)
  rcases ended with ⟨-, rfl⟩ | ⟨-, b, parent, -, there, ⟨-, rfl⟩ | ⟨blocked, -, rfl⟩⟩
  · exact between.relink (h := .dying) nofun here (.ends kind rfl (.inr (.inl rfl)))
  · exact between.relink (h := .zombie) nofun here (.ends kind rfl (.inl rfl))
  · have ended := between.relink (h := .zombie) nofun here (.ends kind rfl (.inl rfl))
    exact ended.relink (h := .ready) nofun there (.parent kind blocked)

theorem kill_moves {pid : Int} (linked : k.Linked) (kind : m.kind = .family)
    (current : k.processesTable k.activePID = some m.current)
    (target : 0 < pid → m.target = k.processesTable pid.toNat) (run : k.kill pid = .ok (k', n)) :
    Moves m k k' := by
  rcases kill_eq linked run with ⟨-, rfl, -⟩ | ⟨a, p, positive, slot, here, -, ended⟩
  · exact .refl
  · have marked : Moves m k (k.setProc a fun p => { p with killed := true }) :=
      Moves.edit .refl kind fun _ => ⟨rfl, rfl, rfl, rfl, rfl, rfl, rfl⟩
    have found : (k.setProc a fun p => { p with killed := true }).procs a =
        some { p with killed := true } := setProc_here here
    have target := target positive
    rw [slot] at target
    rcases ended with ⟨-, run⟩ | ⟨-, -, -, ⟨-, freed⟩ | ⟨-, freed⟩⟩
    · have base : (k.setProc a fun p => { p with killed := true }).Linked :=
        linked.setProc _ fun _ => rfl
      exact exit_moves base kind current marked run
    · exact freed.moves kind (marked.relink (h := .zombie) nofun found
        (.target kind target (.inl rfl)))
    · exact freed.moves kind (marked.relink (h := .dying) nofun found
        (.target kind target (.inr rfl)))

theorem collect_moves {child : Addr} {retvalp : Bool} (linked : k.Linked)
    (kind : m.kind = .family) (here : k.procs child = some p) (ended : p.status = .zombie)
    (run : k.collect child retvalp = .ok (k', n)) : Moves m k k' := by
  obtain ⟨p', g, parent, owner, -, -, -, -, rfl, -⟩ := collect_eq linked run
  have dropped : (k.dropSibling child parent).procs child = _ :=
    dropSibling_procs.trans (congrArg _ here)
  exact (Moves.dropSibling .refl kind).relink (h := .dying) nofun dropped (.child kind ended)

theorem firstZombie_moves {children : List Addr} {c : Addr} {retvalp : Bool}
    (linked : k.Linked) (kind : m.kind = .family)
    (search : k.firstZombie children = .ok (some c))
    (run : k.collect c retvalp = .ok (k', n)) : Moves m k k' := by
  obtain ⟨-, p, here, ended⟩ := firstZombie_some search
  exact collect_moves linked kind here ended run

theorem blockWaiting_moves {context : Frame} (linked : k.Linked) (kind : m.kind = .family)
    (current : k.processesTable k.activePID = some m.current)
    (run : k.blockWaiting context = .ok (k', n)) : Moves m k k' := by
  obtain ⟨a, p, active, here, -, rfl, -⟩ := blockWaiting_eq linked run
  rw [current, Option.some.injEq] at active
  exact Moves.relink .refl (h := .blocked) nofun here
    (.ends kind active.symm (.inr (.inr rfl)))

theorem waitpidLoop_moves {pid : Nat} {child : Addr} {retvalp : Bool} (linked : k.Linked)
    (kind : m.kind = .family) (current : k.processesTable k.activePID = some m.current)
    (run : k.waitpidLoop pid child retvalp = .ok (k', n)) : Moves m k k' := by
  obtain ⟨p, here, ⟨ended, run⟩ | ⟨-, run⟩⟩ := waitpidLoop_eq run
  · exact collect_moves linked kind here ended run
  · exact blockWaiting_moves linked kind current run

theorem waitForChild_moves {retvalp : Bool} (linked : k.Linked) (kind : m.kind = .family)
    (current : k.processesTable k.activePID = some m.current)
    (run : k.waitForChild retvalp = .ok (k', n)) : Moves m k k' := by
  obtain ⟨a, p, -, -, ⟨-, rfl, -⟩ | ⟨c, search, run⟩ | ⟨-, -, run⟩⟩ := waitForChild_eq run
  · exact .refl
  · exact firstZombie_moves linked kind search run
  · exact blockWaiting_moves linked kind current run

theorem waitpid_moves {pid : Int} {retvalp : Bool} (linked : k.Linked)
    (kind : m.kind = .family) (current : k.processesTable k.activePID = some m.current)
    (run : k.waitpid pid retvalp = .ok (k', n)) : Moves m k k' := by
  rcases waitpid_eq run with ⟨-, run⟩ | ⟨-, rfl, -⟩ |
    ⟨child, p, a, parent, -, -, -, -, -, -, -, run⟩
  · exact waitForChild_moves linked kind current run
  · exact .refl
  · exact waitpidLoop_moves linked kind current run

theorem waitClock_moves {clock : Nat} (linked : k.Linked) (kind : m.kind = .plain)
    (current : k.processesTable k.activePID = some m.current)
    (run : k.waitClock clock = .ok (k', n)) : Moves m k k' := by
  obtain ⟨a, p, active, here, -, rfl, -⟩ := waitClock_eq linked run
  rw [current, Option.some.injEq] at active
  subst active
  exact .single (.delay kind here)

theorem Consistent.in_list {h : Head} (consistent : k.Consistent) (here : k.procs a = some p)
    (found : ∃ b ∈ k.lists h, ∃ p', k.procs b = some p' ∧ p'.pid = p.pid) :
    p.links = some h := by
  obtain ⟨b, member, p', there, pid⟩ := found
  obtain rfl := consistent.unique there here pid
  exact (consistent.linked.links_iff here).mpr member

theorem chprio_moves {pid newprio : Int} (consistent : k.Consistent)
    (kind : m.kind = .priority) (run : k.chprio pid newprio = .ok (k', n)) : Moves m k k' := by
  rcases chprio_eq run with ⟨rfl, -⟩ | ⟨a, p, -, here, alive, run, -⟩
  · exact .refl
  · obtain ⟨base, found⟩ := chprio_stored newprio consistent.linked here
    have pids {b : Addr} {p' : Proc} (there : (k.setProc a fun p =>
        { p with priority := toUnsigned newprio }).procs b = some p') :
        ∃ p₂, k.procs b = some p₂ ∧ p₂.pid = p'.pid := by
      have same := setProc_map (k := k) (a := a) (b := b)
        (fun p => { p with priority := toUnsigned newprio }) Proc.pid fun _ => rfl
      rw [there, Option.map_some] at same
      exact Option.map_eq_some_iff.mp same.symm
    have placed := consistent.placed a p here
    rcases reorder_eq (p := p) base found rfl run with
      ⟨h, place, -, rfl⟩ | ⟨idle, awake, rfl, absent⟩
    · have fits : h.Held k ∧ h.field = Proc.priority ∧ p.status = h.status ∧
          p.links = some h := by
        rcases place with ⟨status, rfl⟩ | ⟨status, rfl⟩ |
          ⟨status, i, q, -, rfl, held, b, member, p', there, pid⟩
        · obtain ⟨g, links, same⟩ := placed.links_of_status (by simp [status])
          rw [status] at same
          cases g with
          | ready => exact ⟨nofun, rfl, status, links⟩
          | asleep | dying | zombie | blocked | queue => cases same
        · obtain ⟨g, links, same⟩ := placed.links_of_status (by simp [status])
          rw [status] at same
          cases g with
          | blocked => exact ⟨nofun, rfl, status, links⟩
          | asleep | dying | zombie | ready | queue => cases same
        · obtain ⟨p₂, there, same⟩ := pids there
          refine ⟨fun q' same => ?_, rfl, status,
            consistent.in_list here ⟨b, member, p₂, there, same.trans pid⟩⟩
          cases same
          exact held
      obtain ⟨held, sorted, status, links⟩ := fits
      rw [status]
      exact .single (.resort held here sorted status links kind)
    · refine .single (.reprioritise here ?_ kind)
      cases status : p.status with
      | elected => exact .inl rfl
      | ready => exact absurd status idle
      | blockedMessageQueue =>
          refine .inr (.inr (.inr ⟨rfl, fun i small q slot b member => ?_⟩))
          obtain ⟨p', there, other⟩ := absent status i small q slot b member
          obtain ⟨p₂, same, pid⟩ := pids there
          exact ⟨p₂, same, pid ▸ other⟩
      | asleep => exact .inr (.inl rfl)
      | dying => exact .inr (.inr (.inl rfl))
      | zombie => exact absurd status alive
      | blocked => exact absurd status awake

theorem allocated_moves {heap : Addr → Option Nat} {next : Nat} (later : k.nextBlock ≤ next)
    (kept : ∀ b < k.nextBlock, heap b = k.heap b) :
    Moves m k { k with heap := heap, nextBlock := next } :=
  .single (.store rfl rfl rfl rfl rfl later (fun _ mq here => ⟨mq, here⟩) (fun _ _ absent => absent)
    (fun _ _ slot => .inl slot) fun _ => ⟨rfl, rfl, rfl, kept⟩)

theorem Yielded.same {pid : Nat} (yielded : k.Yielded a pid k' n) : k' = k := by
  obtain ⟨current, p, running, -, -, -, ⟨-, same, -⟩ | ⟨-, run⟩⟩ := yielded
  · exact same
  · obtain ⟨b, p', -, -, same, -⟩ := startReturn_eq run
    exact same

theorem entered {k₀ k₁ : Kernel} (joined : (k.nbProc = 0 ∧ k₁ = k₀) ∨
    ∃ b owner placed, k.nbProc ≠ 0 ∧ k.processesTable k.activePID = some b ∧
      k₀.procs b = some owner ∧ placed.Perm (k.nextBlock :: owner.childrenList) ∧
      k₁ = k₀.join k.nextBlock b placed) :
    k₁ = k₀ ∨ ∃ b placed, k₁ = k₀.join k.nextBlock b placed := by
  rcases joined with ⟨-, same⟩ | ⟨b, owner, placed, -, -, -, -, same⟩
  · exact .inl same
  · exact .inr ⟨b, placed, same⟩

theorem start_moves {ssize : Nat} {prio : Int} {name : List UInt8}
    {procGranted stackGranted : Bool} (kind : m.kind = .family) (fresh : k.procs k.nextBlock = none)
    (running : k.nbProc ≠ 0 → k.processesTable k.activePID ≠ none)
    (run : k.start ssize prio name procGranted stackGranted = .ok (k', n)) : Moves m k k' := by
  rcases start_eq fresh running run with ⟨heap, next, later, kept, rfl, -⟩ |
    ⟨pid, stackSize, heap, k₁, newPid, kept, own, yielded, joined⟩
  · exact allocated_moves later kept
  · obtain ⟨small, free⟩ := getNewPid_eq newPid
    rw [yielded.same]
    exact .single (.birth small free rfl rfl rfl rfl rfl kept own kind (entered joined))

theorem pcreate_moves {count : Int} {recordGranted bufferGranted : Bool}
    (kind : m.kind = .queues)
    (fresh : ∀ q, k.nextBlock ≤ q → k.lists (.queue q) = [])
    (run : k.pcreate count recordGranted bufferGranted = .ok (k', n)) : Moves m k k' := by
  have slots (i : Nat) (q : Addr) (j : Nat)
      (slot : Function.update k.queues j (some k.nextBlock) i = some q) :
      k.queues i = some q ∨ k.lists (.queue q) = [] := by
    rw [Function.update_apply] at slot
    split at slot
    · exact .inr (Option.some.inj slot ▸ fresh _ le_rfl)
    · exact .inl slot
  rcases pcreate_eq run with ⟨-, rfl, -⟩ | ⟨-, -, -, -, -, -, ⟨-, rfl, -⟩ | ⟨-, rfl, -⟩⟩
  · exact .refl
  · exact .single (.store rfl rfl rfl rfl rfl (Nat.le_succ _) (fun _ mq here => ⟨mq, here⟩)
      (fun _ _ absent => absent) (fun i q => slots i q _) fun other => absurd kind other)
  · refine .single (.store rfl ?_ rfl rfl rfl (Nat.le_add_right _ 2) (fun q mq here => ?_)
      (fun q later absent => ?_) (fun i q => slots i q _) fun other => absurd kind other)
    · change Function.update k.lists (.queue k.nextBlock) [] = k.lists
      rw [← fresh _ le_rfl, Function.update_eq_self]
    · by_cases same : q = k.nextBlock
      · subst same
        exact ⟨_, Function.update_self _ _ _⟩
      · exact ⟨mq, (Function.update_of_ne same _ _).trans here⟩
    · have other : q ≠ k.nextBlock := by
        intro same
        subst same
        exact Nat.not_succ_le_self _ (Nat.le_of_succ_le later)
      exact (Function.update_of_ne other _ _).trans absent

theorem takeMessage_moves {fid : Nat} (linked : k.Linked) (kind : m.kind = .queues)
    (run : k.takeMessage fid q = .ok (k', n)) : Moves m k k' := by
  obtain ⟨mq, cell, q', -, -, -, ⟨rfl, -, -⟩ | ⟨b, last, -, rfl, -⟩⟩ := takeMessage_eq linked run
  · exact Moves.setRecord .refl kind _
  · obtain ⟨p, here, links⟩ := (linked.mem_iff _ _).mp (List.mem_of_getLast? last)
    exact (Moves.setRecord .refl kind _).relink (h := .ready) nofun here (.waiter kind links)

theorem blockOnQueue_moves {context : Frame} {mq : MessageQueue} (linked : k.Linked)
    (kind : m.kind = .queues) (current : k.processesTable k.activePID = some m.current)
    (held : k.records q = some mq) (run : k.blockOnQueue q context = .ok (k', n)) :
    Moves m k k' := by
  obtain ⟨a, p, active, here, -, rfl, -⟩ := blockOnQueue_eq linked run
  rw [current, Option.some.injEq] at active
  refine Moves.relink .refl (h := .queue q) (fun q' same => ⟨mq, ?_⟩) here
    (.waits kind active.symm)
  cases same
  exact held

theorem storeMessage_moves {k₀ : Kernel} {message : Int} (kind : m.kind = .queues)
    (before : Moves m k₀ k) (run : k.storeMessage q message = .ok k') : Moves m k₀ k' := by
  obtain ⟨mq, cell, -, -, rfl⟩ := storeMessage_eq run
  exact before.setRecord kind _

theorem preceive_moves {fid : Int} (linked : k.Linked) (kind : m.kind = .queues)
    (current : k.processesTable k.activePID = some m.current)
    (run : k.preceive fid = .ok (k', n)) : Moves m k k' := by
  rcases preceive_eq run with ⟨-, rfl, -⟩ | ⟨q, mq, -, -, held, ⟨-, run⟩ | ⟨-, run⟩⟩
  · exact .refl
  · exact blockOnQueue_moves linked kind current held run
  · exact takeMessage_moves linked kind run

theorem preceiveResumed_moves {fid : Nat} (linked : k.Linked) (kind : m.kind = .queues)
    (run : k.preceiveResumed fid q = .ok (k', n)) : Moves m k k' := by
  obtain ⟨mq, -, ⟨-, rfl, -⟩ | ⟨-, -, -, run⟩⟩ := preceiveResumed_eq run
  · exact Moves.setRecord .refl kind _
  · exact takeMessage_moves linked kind run

theorem psend_moves {fid message : Int} (linked : k.Linked) (kind : m.kind = .queues)
    (current : k.processesTable k.activePID = some m.current)
    (run : k.psend fid message = .ok (k', n)) : Moves m k k' := by
  rcases psend_eq linked run with ⟨-, rfl, -⟩ |
    ⟨q, mq, -, -, held, ⟨b, -, last, run, -⟩ | ⟨-, -, run⟩ | ⟨-, -, run, -⟩⟩
  · exact .refl
  · obtain ⟨p, here, links⟩ := (linked.mem_iff _ _).mp (List.mem_of_getLast? last)
    exact storeMessage_moves kind
      (Moves.relink .refl (h := .ready) nofun here (.waiter kind links)) run
  · exact blockOnQueue_moves linked kind current held run
  · exact storeMessage_moves kind .refl run

theorem psendResumed_moves {fid : Nat} {message : Int} (linked : k.Linked)
    (kind : m.kind = .queues) (current : k.processesTable k.activePID = some m.current)
    (run : k.psendResumed fid q message = .ok (k', n)) : Moves m k k' := by
  obtain ⟨mq, held, ⟨-, rfl, -⟩ | ⟨-, -, rfl, -⟩ | ⟨-, -, -, run⟩ | ⟨-, -, -, run, -⟩⟩ :=
    psendResumed_eq run
  · exact .refl
  · exact Moves.setRecord .refl kind _
  · exact blockOnQueue_moves linked kind current held run
  · exact storeMessage_moves kind .refl run

theorem preset_moves {fid : Int} (linked : k.Linked) (kind : m.kind = .queues)
    (run : k.preset fid = .ok (k', n)) : Moves m k k' := by
  rcases preset_eq linked run with ⟨-, rfl, -⟩ | ⟨q, mq, -, -, -, unblocked, -⟩
  · exact .refl
  · exact unblocked.moves (linked.setRecord _) kind (Moves.setRecord .refl kind _)

theorem pdelete_moves {fid : Int} (linked : k.Linked) (kind : m.kind = .queues)
    (run : k.pdelete fid = .ok (k', n)) : Moves m k k' := by
  rcases pdelete_eq linked run with ⟨-, rfl, -⟩ | ⟨q, mq, k₁, heap, -, -, -, unblocked, -, rfl, -⟩
  · exact .refl
  · refine (unblocked.moves linked kind .refl).tail (.store rfl rfl rfl rfl rfl le_rfl
      (fun _ mq here => ⟨mq, here⟩) (fun _ _ absent => absent) (fun i q slot => .inl ?_)
      fun other => absurd kind other)
    obtain ⟨-, queues, -⟩ := unblocked.same
    change Function.update k.queues fid.toNat none i = some q at slot
    rw [Function.update_apply] at slot
    split at slot
    · cases slot
    · exact queues ▸ slot

def mover (k : Kernel) (a : Addr) (context : Frame) (e : Event) : Mover where
  current := a
  target := Event.target k e
  kind := e.kind context

theorem resume_moves {context : Frame} (linked : k.Linked)
    (current : k.processesTable k.activePID = some a)
    (run : k.continueWith context = .ok (k', n)) : Moves (k.mover a context .resume) k k' := by
  cases context with
  | user => cases run
  | done value out =>
      cases run
      exact .refl
  | start pid =>
      obtain ⟨a, p, -, -, rfl, -⟩ := startReturn_eq run
      exact .refl
  | exit => cases run
  | waitpid pid child retvalp => exact waitpidLoop_moves linked rfl current run
  | waitForChild retvalp =>
      obtain ⟨b, p, -, -, ⟨c, search, run⟩ | ⟨-, rfl, -⟩⟩ := waitForChildResumed_eq run
      · exact firstZombie_moves linked rfl search run
      · exact .refl
  | preceive fid q => exact preceiveResumed_moves linked rfl run
  | psend fid q message => exact psendResumed_moves linked rfl current run

theorem perform_moves {c : Call} {context : Frame} (consistent : k.Consistent)
    (current : k.processesTable k.activePID = some a)
    (run : k.perform c = .ok (k', n)) : Moves (k.mover a context (.call c)) k k' := by
  have linked := consistent.linked
  cases c with
  | start ssize prio name procGranted stackGranted =>
      exact start_moves rfl (consistent.fresh _ le_rfl).1 (fun _ => by simp [current]) run
  | exit retval => exact exit_moves linked rfl current .refl run
  | kill pid => exact kill_moves linked rfl current (fun positive => if_pos positive) run
  | waitpid pid retvalp => exact waitpid_moves linked rfl current run
  | chprio pid newprio => exact chprio_moves consistent rfl run
  | getprio pid =>
      simp only [perform, bind_eq_ok, Except.ok.injEq, Prod.mk.injEq] at run
      obtain ⟨-, -, rfl, -⟩ := run
      exact .refl
  | waitClock clock => exact waitClock_moves linked rfl current run
  | sleep seconds => exact waitClock_moves linked rfl current run
  | pcreate count recordGranted bufferGranted => exact pcreate_moves rfl consistent.unused run
  | pdelete fid => exact pdelete_moves linked rfl run
  | preset fid => exact preset_moves linked rfl run
  | pcount fid count =>
      obtain ⟨rfl, -⟩ := pcount_eq run
      exact .refl
  | preceive fid => exact preceive_moves linked rfl current run
  | psend fid message => exact psend_moves linked rfl current run

theorem segment_moves {context : Frame} {e : Event} (consistent : k.Consistent)
    (current : k.processesTable k.activePID = some a)
    (run : k.segment context e = .ok (k', n)) : Moves (k.mover a context e) k k' := by
  cases e with
  | clockInterrupt =>
      simp only [segment, clockInterrupt] at run
      split at run
      · cases run
        exact .single (.store rfl rfl rfl rfl rfl le_rfl (fun _ mq here => ⟨mq, here⟩)
          (fun _ _ absent => absent) (fun _ _ slot => .inl slot)
          fun _ => ⟨rfl, rfl, rfl, fun _ _ => rfl⟩)
      · cases run
  | resume => exact resume_moves consistent.linked current run
  | call c =>
      simp only [segment] at run
      split at run
      · exact perform_moves consistent current run
      · cases run

/-- A step that does not call `scheduling`: it moves no process but a ZOMBIE it collects
or a new one that does not outrank the active process. -/
inductive Returned : Kernel → Kernel → Prop where
  | same {k k' : Kernel} (procs : k'.procs = k.procs) (lists : k'.lists = k.lists)
      (table : k'.processesTable = k.processesTable) (current : k'.activePID = k.activePID) :
      Returned k k'
  | collected {k : Kernel} {child parent : Addr} {p : Proc} (here : k.procs child = some p)
      (ended : p.status = .zombie) :
      Returned k ((k.dropSibling child parent).relink child .dying .dying)
  | born {k k₁ : Kernel} {pid : Nat} {p p₁ running : Proc} {current : Addr}
      {heap : Addr → Option Nat} (free : k.processesTable pid = none)
      (joined : k₁ = k.born pid p heap ∨
        ∃ b placed, k₁ = (k.born pid p heap).join k.nextBlock b placed)
      (active : (k₁.link k.nextBlock .ready).counted.processesTable k₁.activePID = some current)
      (new : (k₁.link k.nextBlock .ready).counted.procs k.nextBlock = some p₁)
      (there : (k₁.link k.nextBlock .ready).counted.procs current = some running)
      (lower : p₁.priority ≤ running.priority) :
      Returned k (k₁.link k.nextBlock .ready).counted

theorem collect_returned {child : Addr} {retvalp : Bool} (linked : k.Linked)
    (here : k.procs child = some p) (ended : p.status = .zombie)
    (run : k.collect child retvalp = .ok (k', n)) : Returned k k' := by
  obtain ⟨p', g, parent, owner, -, -, -, -, rfl, -⟩ := collect_eq linked run
  exact .collected here ended

theorem waitpidLoop_returned {pid : Nat} {child : Addr} {retvalp : Bool} {value : Int}
    {out : Option Int} (linked : k.Linked)
    (run : k.waitpidLoop pid child retvalp = .ok (k', .ret value out)) : Returned k k' := by
  obtain ⟨p, here, ⟨ended, run⟩ | ⟨-, run⟩⟩ := waitpidLoop_eq run
  · exact collect_returned linked here ended run
  · obtain ⟨a, p, -, -, -, -, ended⟩ := blockWaiting_eq linked run
    cases ended

theorem firstZombie_returned {children : List Addr} {c : Addr} {retvalp : Bool}
    (linked : k.Linked) (search : k.firstZombie children = .ok (some c))
    (run : k.collect c retvalp = .ok (k', n)) : Returned k k' := by
  obtain ⟨-, p, here, ended⟩ := firstZombie_some search
  exact collect_returned linked here ended run

theorem waitForChild_returned {retvalp : Bool} {value : Int} {out : Option Int}
    (linked : k.Linked) (run : k.waitForChild retvalp = .ok (k', .ret value out)) :
    Returned k k' := by
  obtain ⟨a, p, -, -, ⟨-, rfl, -⟩ | ⟨c, search, run⟩ | ⟨-, -, run⟩⟩ := waitForChild_eq run
  · exact .same rfl rfl rfl rfl
  · exact firstZombie_returned linked search run
  · obtain ⟨a, p, -, -, -, -, ended⟩ := blockWaiting_eq linked run
    cases ended

theorem start_returned {ssize : Nat} {prio value : Int} {name : List UInt8} {out : Option Int}
    {procGranted stackGranted : Bool} (fresh : k.procs k.nextBlock = none)
    (running : k.nbProc ≠ 0 → k.processesTable k.activePID ≠ none)
    (run : k.start ssize prio name procGranted stackGranted = .ok (k', .ret value out)) :
    Returned k k' := by
  rcases start_eq fresh running run with ⟨heap, next, -, -, rfl, -⟩ |
    ⟨pid, stackSize, heap, k₁, newPid, -, -, yielded, joined⟩
  · exact .same rfl rfl rfl rfl
  · rw [yielded.same]
    obtain ⟨current, p₁, p, active, new, there, ⟨-, -, ended⟩ | ⟨lower, -⟩⟩ := yielded
    · cases ended
    · exact .born (getNewPid_eq newPid).2 (entered joined) active new there lower

theorem takeMessage_returned {fid : Nat} {value : Int} {out : Option Int} (linked : k.Linked)
    (run : k.takeMessage fid q = .ok (k', .ret value out)) : Returned k k' := by
  obtain ⟨mq, cell, q', -, -, -, ⟨rfl, -, -⟩ | ⟨b, -, -, -, ended⟩⟩ := takeMessage_eq linked run
  · exact .same rfl rfl rfl rfl
  · cases ended

theorem storeMessage_returned {message : Int} (run : k.storeMessage q message = .ok k') :
    Returned k k' := by
  obtain ⟨mq, cell, -, -, rfl⟩ := storeMessage_eq run
  exact .same rfl rfl rfl rfl

theorem blockOnQueue_suspends {context : Frame} {value : Int} {out : Option Int}
    (linked : k.Linked) (run : k.blockOnQueue q context = .ok (k', .ret value out)) :
    False := by
  obtain ⟨a, p, -, -, -, -, ended⟩ := blockOnQueue_eq linked run
  cases ended

theorem exit_suspends {retval value : Int} {out : Option Int} (linked : k.Linked)
    (run : k.exit retval = .ok (k', .ret value out)) : False := by
  obtain ⟨a, p, k₁, p₁, -, -, -, -, -, ended, -⟩ := exit_eq linked run
  cases ended

theorem resume_returned {context : Frame} {value : Int} {out : Option Int} (linked : k.Linked)
    (run : k.continueWith context = .ok (k', .ret value out)) : Returned k k' := by
  cases context with
  | user => cases run
  | done value out =>
      cases run
      exact .same rfl rfl rfl rfl
  | start pid =>
      obtain ⟨a, p, -, -, rfl, -⟩ := startReturn_eq run
      exact .same rfl rfl rfl rfl
  | exit => cases run
  | waitpid pid child retvalp => exact waitpidLoop_returned linked run
  | waitForChild retvalp =>
      obtain ⟨a, p, -, -, ⟨c, search, run⟩ | ⟨-, rfl, -⟩⟩ := waitForChildResumed_eq run
      · exact firstZombie_returned linked search run
      · exact .same rfl rfl rfl rfl
  | preceive fid q =>
      obtain ⟨mq, -, ⟨-, rfl, -⟩ | ⟨-, -, -, run⟩⟩ := preceiveResumed_eq run
      · exact .same rfl rfl rfl rfl
      · exact takeMessage_returned linked run
  | psend fid q message =>
      obtain ⟨mq, -, ⟨-, rfl, -⟩ | ⟨-, -, rfl, -⟩ | ⟨-, -, -, run⟩ | ⟨-, -, -, run, -⟩⟩ :=
        psendResumed_eq run
      · exact .same rfl rfl rfl rfl
      · exact .same rfl rfl rfl rfl
      · exact (blockOnQueue_suspends linked run).elim
      · exact storeMessage_returned run

theorem perform_returned {c : Call} {value : Int} {out : Option Int}
    (consistent : k.Consistent) (run : k.perform c = .ok (k', .ret value out)) :
    Returned k k' := by
  have linked := consistent.linked
  cases c with
  | start ssize prio name procGranted stackGranted =>
      obtain ⟨a, current⟩ := consistent.active
      exact start_returned (consistent.fresh _ le_rfl).1 (fun _ => by simp [current]) run
  | exit retval => exact (exit_suspends linked run).elim
  | kill pid =>
      rcases kill_eq linked run with ⟨-, rfl, -⟩ | ⟨a, p, -, -, -, -, ⟨-, run⟩ | ⟨-, -, ended, -⟩⟩
      · exact .same rfl rfl rfl rfl
      · have base : (k.setProc a fun p => { p with killed := true }).Linked :=
          linked.setProc _ fun _ => rfl
        exact (exit_suspends base run).elim
      · cases ended
  | waitpid pid retvalp =>
      rcases waitpid_eq run with ⟨-, run⟩ | ⟨-, rfl, -⟩ |
        ⟨child, p, a, parent, -, -, -, -, -, -, -, run⟩
      · exact waitForChild_returned linked run
      · exact .same rfl rfl rfl rfl
      · exact waitpidLoop_returned linked run
  | chprio pid newprio =>
      rcases chprio_eq run with ⟨rfl, -⟩ | ⟨a, p, -, -, -, -, ended⟩
      · exact .same rfl rfl rfl rfl
      · cases ended
  | getprio pid =>
      simp only [perform, bind_eq_ok, Except.ok.injEq, Prod.mk.injEq] at run
      obtain ⟨-, -, rfl, -⟩ := run
      exact .same rfl rfl rfl rfl
  | waitClock clock =>
      obtain ⟨a, p, -, -, -, -, ended⟩ := waitClock_eq linked run
      cases ended
  | sleep seconds =>
      obtain ⟨a, p, -, -, -, -, ended⟩ := waitClock_eq linked run
      cases ended
  | pcreate count recordGranted bufferGranted =>
      rcases pcreate_eq run with ⟨-, rfl, -⟩ | ⟨-, -, -, -, -, -, ⟨-, rfl, -⟩ | ⟨-, rfl, -⟩⟩
      · exact .same rfl rfl rfl rfl
      · exact .same rfl rfl rfl rfl
      · refine .same rfl ?_ rfl rfl
        change Function.update k.lists (.queue k.nextBlock) [] = k.lists
        rw [← consistent.unused _ le_rfl, Function.update_eq_self]
  | pdelete fid =>
      rcases pdelete_eq linked run with ⟨-, rfl, -⟩ | ⟨q, mq, k₁, heap, -, -, -, -, -, -, ended⟩
      · exact .same rfl rfl rfl rfl
      · cases ended
  | preset fid =>
      rcases preset_eq linked run with ⟨-, rfl, -⟩ | ⟨q, mq, -, -, -, -, ended⟩
      · exact .same rfl rfl rfl rfl
      · cases ended
  | pcount fid count =>
      obtain ⟨rfl, -⟩ := pcount_eq run
      exact .same rfl rfl rfl rfl
  | preceive fid =>
      rcases preceive_eq run with ⟨-, rfl, -⟩ | ⟨q, mq, -, -, -, ⟨-, run⟩ | ⟨-, run⟩⟩
      · exact .same rfl rfl rfl rfl
      · exact (blockOnQueue_suspends linked run).elim
      · exact takeMessage_returned linked run
  | psend fid message =>
      rcases psend_eq linked run with ⟨-, rfl, -⟩ |
        ⟨q, mq, -, -, -, ⟨b, -, -, -, ended⟩ | ⟨-, -, run⟩ | ⟨-, -, run, -⟩⟩
      · exact .same rfl rfl rfl rfl
      · cases ended
      · exact (blockOnQueue_suspends linked run).elim
      · exact storeMessage_returned run

theorem segment_returned {context : Frame} {e : Event} {value : Int} {out : Option Int}
    (consistent : k.Consistent) (run : k.segment context e = .ok (k', .ret value out)) : Returned k k' := by
  cases e with
  | clockInterrupt =>
      simp only [segment, clockInterrupt] at run
      split at run <;> cases run
  | resume => exact resume_returned consistent.linked run
  | call c =>
      simp only [segment] at run
      split at run
      · exact perform_returned consistent run
      · cases run

theorem step_eq {e : Event} (run : k.step e = .ok (k', n)) :
    ∃ a p k₁, k.processesTable k.activePID = some a ∧ k.procs a = some p ∧
      k.segment p.context e = .ok (k₁, n) ∧ k₁.finish a n = .ok k' := by
  simp only [step, bind_eq_ok, active_eq_ok, deref_eq_ok, Except.ok.injEq, Prod.mk.injEq,
    Prod.exists] at run
  obtain ⟨a, current, p, here, k₁, n', segment, k₂, finish, rfl, rfl⟩ := run
  exact ⟨a, p, k₁, current, here, segment, finish⟩

theorem finish_eq (run : k.finish a n = .ok k') :
    (∃ value out, n = .ret value out ∧ k' = k.setContext a .user) ∨
      ∃ context, n = .suspend context ∧ (k.setContext a context).scheduling = .ok k' := by
  cases n with
  | ret value out => exact .inl ⟨value, out, rfl, (Except.ok.inj run).symm⟩
  | suspend context => exact .inr ⟨context, rfl, run⟩

end Kernel

end IntelX86Kernel

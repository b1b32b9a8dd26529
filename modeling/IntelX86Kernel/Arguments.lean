import IntelX86Kernel.Assertions
import IntelX86Kernel.Posts

/-! Process and queue identifiers as the calls receive them: which ones are used as an
index of a table, and which calls refuse the others. -/

namespace IntelX86Kernel

open Transition

def Indexed {α : Type} (x : Except Fault α) : Prop :=
  x ≠ .error .outOfBounds

theorem Indexed.ok {α : Type} (a : α) : Indexed (.ok a) := by
  intro failed
  cases failed

theorem Indexed.bind {α β : Type} {x : Except Fault α} {f : α → Except Fault β}
    (first : Indexed x) (rest : ∀ a, x = .ok a → Indexed (f a)) : Indexed (x >>= f) := by
  cases x with
  | error fault =>
      intro failed
      cases failed
      exact first rfl
  | ok a => exact rest a rfl

namespace Kernel

variable {k k' : Kernel} {a b q : Addr} {p : Proc} {h : Head} {n : Next}

theorem deref_indexed : Indexed (k.deref a) := by
  unfold deref
  split
  · exact .ok _
  · intro failed
    cases failed

theorem record_indexed : Indexed (k.record q) := by
  unfold record
  split
  · exact .ok _
  · intro failed
    cases failed

theorem active_indexed : Indexed k.active := by
  unfold active
  split
  · exact .ok _
  · intro failed
    cases failed

theorem memFree_indexed {zone length : Nat} : Indexed (k.memFree zone length) := by
  unfold memFree
  split
  · exact .ok _
  · split
    · exact .ok _
    · intro failed
      cases failed

theorem touch_indexed {o : Option Addr} : Indexed (k.touch o) := by
  cases o with
  | none => exact .ok _
  | some a => exact deref_indexed.bind fun _ _ => .ok _

theorem insertSorted_indexed {field : Addr → Option Nat} {prio : Nat} {l : List Addr} :
    Indexed (insertSorted field a prio l) := by
  induction l with
  | nil => exact .ok _
  | cons cur rest ih =>
      simp only [insertSorted]
      split
      · intro failed
        cases failed
      · split
        · split
          · exact .ok _
          · next fault failed =>
            intro same
            cases same
            exact ih failed
        · exact .ok _

theorem queueAdd_indexed {field : Proc → Nat} : Indexed (k.queueAdd a h field) := by
  apply deref_indexed.bind
  intro p _
  split
  · exact insertSorted_indexed.bind fun _ _ => .ok _
  · intro failed
    cases failed

theorem queueDel_indexed : Indexed (k.queueDel a) := by
  apply deref_indexed.bind
  intro p _
  split
  · intro failed
    cases failed
  · exact .ok _

theorem queueOut_indexed : Indexed (k.queueOut h) := by
  unfold queueOut
  split
  · exact .ok _
  · exact deref_indexed.bind fun _ _ => .ok _

theorem anyPid_indexed {pid : Nat} {l : List Addr} : Indexed (k.anyPid pid l) := by
  induction l with
  | nil => exact .ok _
  | cons head tail ih =>
      apply deref_indexed.bind
      intro p _
      split
      · exact .ok _
      · exact ih

theorem delSibling_indexed : Indexed (k.delSibling a) := by
  apply deref_indexed.bind
  intro p _
  split
  · intro failed
    cases failed
  · exact deref_indexed.bind fun owner _ => touch_indexed.bind fun _ _ =>
      touch_indexed.bind fun _ _ => .ok _

theorem outSibling_indexed : Indexed (k.outSibling a) := by
  apply deref_indexed.bind
  intro owner _
  split
  · exact .ok _
  · exact deref_indexed.bind fun _ _ => touch_indexed.bind fun _ _ => .ok _

theorem resort_indexed : Indexed (k.resort a h) :=
  queueDel_indexed.bind fun _ _ => queueAdd_indexed

theorem requeue_indexed {s : Status} : Indexed (k.requeue a s h) :=
  queueDel_indexed.bind fun _ _ => queueAdd_indexed

theorem enqueue_indexed {s : Status} : Indexed (k.enqueue a s h) := queueAdd_indexed

theorem freeChildrenLoop_indexed {fuel : Nat} : Indexed (freeChildrenLoop a fuel k) := by
  induction fuel generalizing k with
  | zero =>
      intro failed
      cases failed
  | succ fuel ih =>
      apply outSibling_indexed.bind
      intro out _
      obtain ⟨child, k₁⟩ := out
      cases child with
      | none => exact .ok _
      | some c =>
          have freed : Indexed (k₁.freeChild c) := by
            apply deref_indexed.bind
            intro p _
            split
            · exact requeue_indexed
            · exact .ok _
          exact freed.bind fun _ _ => ih

theorem freeChildren_indexed : Indexed (k.freeChildren a) := by
  apply deref_indexed.bind
  intro p _
  split
  · exact .ok _
  · exact freeChildrenLoop_indexed

theorem parentStillAlive_indexed : Indexed (k.parentStillAlive p) := by
  unfold parentStillAlive
  split
  · exact .ok _
  · exact deref_indexed.bind fun _ _ => .ok _

theorem wakeParent_indexed : Indexed (k.wakeParent p) := by
  unfold wakeParent
  split
  · intro failed
    cases failed
  · apply deref_indexed.bind
    intro parent _
    split
    · exact requeue_indexed
    · exact .ok _

theorem exit_indexed {retval : Int} : Indexed (k.exit retval) := by
  apply active_indexed.bind
  intro a _
  apply deref_indexed.bind
  intro p _
  apply freeChildren_indexed.bind
  intro k₁ _
  apply deref_indexed.bind
  intro p₁ _
  apply parentStillAlive_indexed.bind
  intro alive _
  split
  · exact enqueue_indexed.bind fun _ _ => wakeParent_indexed.bind fun _ _ => .ok _
  · exact enqueue_indexed.bind fun _ _ => .ok _

theorem tableAt_ok {pid : Int} (inside : 0 ≤ pid ∧ pid < MAXNPROC) :
    k.tableAt pid = .ok (k.processesTable pid.toNat) := if_pos inside

theorem tableAt_outside {pid : Int} (outside : ¬ (0 ≤ pid ∧ pid < MAXNPROC)) :
    k.tableAt pid = .error .outOfBounds := if_neg outside

theorem kill_indexed {pid : Int} (inside : 0 ≤ pid ∧ pid < MAXNPROC) :
    Indexed (k.kill pid) := by
  unfold kill
  rw [tableAt_ok inside]
  apply (Indexed.ok _).bind
  intro entry _
  cases entry with
  | none => exact .ok _
  | some a =>
      apply deref_indexed.bind
      intro p _
      split
      · exact .ok _
      · dsimp only
        split
        · exact exit_indexed
        · apply parentStillAlive_indexed.bind
          intro alive _
          split
          · exact requeue_indexed.bind fun _ _ => freeChildren_indexed.bind fun _ _ => .ok _
          · exact requeue_indexed.bind fun _ _ => freeChildren_indexed.bind fun _ _ => .ok _

theorem firstZombie_indexed {l : List Addr} : Indexed (k.firstZombie l) := by
  induction l with
  | nil => exact .ok _
  | cons head tail ih =>
      apply deref_indexed.bind
      intro p _
      split
      · exact .ok _
      · exact ih

theorem collect_indexed {child : Addr} {retvalp : Bool} : Indexed (k.collect child retvalp) :=
  deref_indexed.bind fun _ _ => queueDel_indexed.bind fun _ _ => delSibling_indexed.bind
    fun _ _ => queueAdd_indexed.bind fun _ _ => .ok _

theorem blockWaiting_indexed {context : Frame} : Indexed (k.blockWaiting context) :=
  active_indexed.bind fun _ _ => enqueue_indexed.bind fun _ _ => .ok _

theorem waitpidLoop_indexed {pid : Nat} {child : Addr} {retvalp : Bool} :
    Indexed (k.waitpidLoop pid child retvalp) := by
  apply deref_indexed.bind
  intro p _
  split
  · exact collect_indexed
  · exact blockWaiting_indexed

theorem waitForChild_indexed {retvalp : Bool} : Indexed (k.waitForChild retvalp) := by
  apply active_indexed.bind
  intro a _
  apply deref_indexed.bind
  intro p _
  split
  · exact .ok _
  · apply firstZombie_indexed.bind
    intro child _
    cases child with
    | none => exact blockWaiting_indexed
    | some c => exact collect_indexed

theorem waitpid_indexed {pid : Int} {retvalp : Bool} (below : pid < MAXNPROC) :
    Indexed (k.waitpid pid retvalp) := by
  unfold waitpid
  split
  · exact waitForChild_indexed
  · next given =>
    rw [tableAt_ok ⟨not_lt.mp given, below⟩]
    apply (Indexed.ok _).bind
    intro entry _
    cases entry with
    | none => exact .ok _
    | some child =>
        apply deref_indexed.bind
        intro p _
        apply active_indexed.bind
        intro a _
        apply deref_indexed.bind
        intro parent _
        apply anyPid_indexed.bind
        intro listed _
        split
        · exact waitpidLoop_indexed
        · exact .ok _

theorem getprio_indexed {pid : Int} (other : pid ≠ MAXNPROC) : Indexed (k.getprio pid) := by
  unfold getprio
  split
  · exact .ok _
  · next given =>
    have inside : 0 ≤ pid ∧ pid < MAXNPROC := by omega
    rw [tableAt_ok inside]
    apply (Indexed.ok _).bind
    intro entry _
    cases entry with
    | none => exact .ok _
    | some a => exact deref_indexed.bind fun _ _ => .ok _

theorem resortInQueues_indexed {pid : Nat} {fids : List Nat} :
    Indexed (k.resortInQueues a pid fids) := by
  induction fids with
  | nil => exact .ok _
  | cons i rest ih =>
      simp only [resortInQueues]
      split
      · exact ih
      · apply record_indexed.bind
        intro mq _
        apply anyPid_indexed.bind
        intro listed _
        split
        · exact resort_indexed
        · exact ih

theorem reorder_indexed : Indexed (k.reorder a p) := by
  unfold reorder
  split
  · exact resort_indexed
  · exact resort_indexed
  · exact resortInQueues_indexed
  · exact .ok _

/-- `chprio` asks `getprio` first, which answers -1 for the numbers that it refuses. -/
theorem chprio_indexed {pid newprio : Int} (other : pid ≠ MAXNPROC) :
    Indexed (k.chprio pid newprio) := by
  by_cases given : pid < 0 ∨ (MAXNPROC : Int) < pid
  · unfold chprio getprio
    rw [if_pos given]
    apply (Indexed.ok _).bind
    intro oldprio asked
    cases asked
    rw [if_pos (Or.inl (by decide))]
    exact .ok _
  · apply (getprio_indexed other).bind
    intro oldprio _
    split
    · exact .ok _
    · have inside : 0 ≤ pid ∧ pid < MAXNPROC := by omega
      rw [tableAt_ok inside]
      apply (Indexed.ok _).bind
      intro entry _
      cases entry with
      | none =>
          intro failed
          cases failed
      | some a =>
          apply deref_indexed.bind
          intro p _
          split
          · exact .ok _
          · exact reorder_indexed.bind fun _ _ => .ok _

def InOwnCode (k : Kernel) : Prop :=
  ∃ a p, k.processesTable k.activePID = some a ∧ k.procs a = some p ∧ p.context = .user

def Refused (k : Kernel) (c : Call) : Prop :=
  ∃ value, value < 0 ∧ k.step (.call c) = .ok (k, .ret value none)

theorem refused_of_perform {c : Call} {value : Int} (own : k.InOwnCode) (negative : value < 0)
    (run : k.perform c = .ok (k, .ret value none)) : k.Refused c := by
  obtain ⟨a, p, current, here, user⟩ := own
  refine ⟨value, negative, ?_⟩
  have finish : k.finish a (.ret value none) = .ok k := by
    have same : k.setContext a .user = k := setProc_id here (by rw [← user])
    rw [finish, same]
  have segment : k.segment p.context (.call c) = .ok (k, .ret value none) := by
    rw [Kernel.segment, if_pos user, run]
  simp only [step, bind_eq_ok, active_eq_ok, deref_eq_ok, Except.ok.injEq, Prod.mk.injEq,
    Prod.exists]
  exact ⟨a, current, p, here, k, _, segment, k, finish, rfl, rfl⟩

def NoProcess (k : Kernel) (pid : Int) : Prop :=
  pid < 0 ∨ (MAXNPROC : Int) ≤ pid ∨ k.processesTable pid.toNat = none

def NoQueue (k : Kernel) (fid : Int) : Prop :=
  fid < 0 ∨ (NBQUEUE : Int) ≤ fid ∨ k.queues fid.toNat = none

end Kernel

def Call.processId : Call → Option Int
  | .getprio pid => some pid
  | .chprio pid _ => some pid
  | .kill pid => some pid
  | .waitpid pid _ => some pid
  | _ => none

def Call.anyChild : Call → Bool
  | .waitpid pid _ => decide (pid < 0)
  | _ => false

/-- The numbers with which the call stays inside `processes_table`: `getprio` and `chprio`
compare with `>`, `kill` reads the entry before it tests the number, and `waitpid` has no
upper bound. -/
def Call.processInside : Call → Prop
  | .getprio pid => pid ≠ MAXNPROC
  | .chprio pid _ => pid ≠ MAXNPROC
  | .kill pid => 0 ≤ pid ∧ pid < MAXNPROC
  | .waitpid pid _ => pid < MAXNPROC
  | _ => True

namespace Kernel

variable {k : Kernel} {c : Call} {pid fid : Int}

structure ChecksProcess (k : Kernel) (c : Call) (pid : Int) : Prop where
  indexed : Indexed (k.perform c)
  refused : k.NoProcess pid → c.anyChild = false → k.Refused c

theorem getprio_refused (unknown : k.NoProcess pid) (other : pid ≠ MAXNPROC) :
    k.getprio pid = .ok (-1) := by
  unfold getprio
  split
  · rfl
  · next given =>
    have inside : 0 ≤ pid ∧ pid < MAXNPROC := by omega
    have empty : k.processesTable pid.toNat = none := by
      rcases unknown with low | high | empty
      · omega
      · omega
      · exact empty
    rw [tableAt_ok inside, empty]
    rfl

theorem chprio_refused {newprio : Int} (unknown : k.NoProcess pid) (other : pid ≠ MAXNPROC) :
    k.chprio pid newprio = .ok (k, .ret (-1) none) := by
  unfold chprio
  rw [getprio_refused unknown other]
  rfl

theorem kill_refused (unknown : k.NoProcess pid) (inside : 0 ≤ pid ∧ pid < MAXNPROC) :
    k.kill pid = .ok (k, .ret (-1) none) := by
  have empty : k.processesTable pid.toNat = none := by
    rcases unknown with low | high | empty
    · omega
    · omega
    · exact empty
  unfold kill
  rw [tableAt_ok inside, empty]
  rfl

theorem waitpid_refused {retvalp : Bool} (unknown : k.NoProcess pid) (given : 0 ≤ pid)
    (below : pid < MAXNPROC) : k.waitpid pid retvalp = .ok (k, .ret (-1) none) := by
  have empty : k.processesTable pid.toNat = none := by
    rcases unknown with low | high | empty
    · omega
    · omega
    · exact empty
  unfold waitpid
  rw [if_neg (not_lt.mpr given), tableAt_ok ⟨given, below⟩, empty]
  rfl

theorem perform_outside (named : c.processId = some pid) (outside : ¬ c.processInside) :
    k.perform c = .error .outOfBounds := by
  cases c with
  | getprio number =>
      have equal : number = MAXNPROC := not_not.mp outside
      subst equal
      rfl
  | chprio number newprio =>
      have equal : number = MAXNPROC := not_not.mp outside
      subst equal
      rfl
  | kill number =>
      change k.kill number = _
      unfold kill
      rw [tableAt_outside outside]
      rfl
  | waitpid number retvalp =>
      have above : (MAXNPROC : Int) ≤ number := not_lt.mp outside
      change k.waitpid number retvalp = _
      unfold waitpid
      rw [if_neg (by omega), tableAt_outside (by omega)]
      rfl
  | start | exit | waitClock | sleep | pcreate | pdelete | preset | pcount | preceive | psend =>
      cases named

theorem perform_inside (named : c.processId = some pid) (inside : c.processInside)
    (own : k.InOwnCode) : k.ChecksProcess c pid := by
  have negative : (-1 : Int) < 0 := by decide
  cases c with
  | getprio number =>
      cases named
      refine ⟨(getprio_indexed inside).bind fun _ _ => .ok _, fun unknown _ => ?_⟩
      apply refused_of_perform own negative
      simp only [perform, getprio_refused unknown inside]
      rfl
  | chprio number newprio =>
      cases named
      refine ⟨chprio_indexed inside, fun unknown _ => ?_⟩
      exact refused_of_perform own negative (chprio_refused unknown inside)
  | kill number =>
      cases named
      refine ⟨kill_indexed inside, fun unknown _ => ?_⟩
      exact refused_of_perform own negative (kill_refused unknown inside)
  | waitpid number retvalp =>
      cases named
      refine ⟨waitpid_indexed inside, fun unknown named => ?_⟩
      have given : 0 ≤ pid := not_lt.mp (of_decide_eq_false named)
      exact refused_of_perform own negative (waitpid_refused unknown given inside)
  | start | exit | waitClock | sleep | pcreate | pdelete | preset | pcount | preceive | psend =>
      cases named

end Kernel

open Kernel

variable {k : Kernel} {c : Call} {pid fid : Int}

/-- In every state, a call that names a process checks the number exactly when it is not
`getprio` or `chprio` of MAXNPROC, `kill` of a number outside the table or `waitpid` of one
above it. -/
theorem bad_process_ids_refused (own : k.InOwnCode) (named : c.processId = some pid) :
    k.ChecksProcess c pid ↔ c.processInside := by
  constructor
  · intro checks
    by_contra outside
    exact checks.indexed (perform_outside named outside)
  · intro inside
    exact perform_inside named inside own

theorem bad_process_ids_refused_kill : afterBoot.InOwnCode ∧
    (afterBoot.ChecksProcess (.kill 7) 7 ↔ (Call.kill 7).processInside) := by
  have own : afterBoot.InOwnCode := ⟨1, _, rfl, rfl, rfl⟩
  exact ⟨own, bad_process_ids_refused own rfl⟩

/-- Right after boot the idle process calls `kill(-1)`. -/
theorem kill_reads_before_table : Reached [] afterBoot ∧ afterBoot.InOwnCode ∧
    ¬ afterBoot.ChecksProcess (.kill (-1)) (-1) :=
  ⟨.start afterBoot_booted, ⟨1, _, rfl, rfl, rfl⟩, fun checks => checks.indexed rfl⟩

namespace Kernel

variable {k k' : Kernel} {q : Addr} {fid : Int} {number : Nat}

theorem bufferCell_indexed {mq : MessageQueue} {index : Int} :
    Indexed (k.bufferCell mq index) := by
  unfold bufferCell
  split
  · intro failed
    cases failed
  · split
    · exact .ok _
    · intro failed
      cases failed

theorem countBlockedProcess_indexed : Indexed (k.countBlockedProcess number) := by
  unfold countBlockedProcess
  split
  · intro failed
    cases failed
  · exact record_indexed.bind fun _ _ => .ok _

theorem blockOnQueue_indexed {context : Frame} : Indexed (k.blockOnQueue q context) :=
  active_indexed.bind fun _ _ => enqueue_indexed.bind fun _ _ => .ok _

theorem wakeWaiter_indexed : Indexed (k.wakeWaiter q) := by
  apply queueOut_indexed.bind
  intro out _
  obtain ⟨waiter, k₁⟩ := out
  cases waiter with
  | none => exact .ok _
  | some a => exact enqueue_indexed.bind fun _ _ => .ok _

theorem takeMessage_indexed : Indexed (k.takeMessage number q) := by
  apply record_indexed.bind
  intro mq _
  apply bufferCell_indexed.bind
  intro cell _
  apply countBlockedProcess_indexed.bind
  intro blocked _
  split
  · apply wakeWaiter_indexed.bind
    intro out _
    obtain ⟨waiter, k₁⟩ := out
    cases waiter with
    | none => exact .ok _
    | some a => exact .ok _
  · exact .ok _

theorem storeMessage_indexed {message : Int} : Indexed (k.storeMessage q message) :=
  record_indexed.bind fun _ _ => bufferCell_indexed.bind fun _ _ => .ok _

theorem unblockLoop_indexed {fuel : Nat} : Indexed (unblockLoop q fuel k) := by
  induction fuel generalizing k with
  | zero =>
      intro failed
      cases failed
  | succ fuel ih =>
      simp only [unblockLoop]
      split
      · exact .ok _
      · exact queueDel_indexed.bind fun _ _ => queueAdd_indexed.bind fun _ _ => ih

theorem unblockProcesses_indexed : Indexed (k.unblockProcesses q) :=
  record_indexed.bind fun _ _ => unblockLoop_indexed

theorem checkFidValidity_indexed (below : fid < NBQUEUE) : Indexed (k.checkFidValidity fid) := by
  unfold checkFidValidity
  split
  · exact .ok _
  · next given =>
    rw [queueAt, if_pos ⟨not_lt.mp given, below⟩]
    exact .ok _

theorem checkFidValidity_outside (above : (NBQUEUE : Int) ≤ fid) :
    k.checkFidValidity fid = .error .outOfBounds := by
  have given : ¬ fid < 0 := by omega
  have outside : ¬ (0 ≤ fid ∧ fid < NBQUEUE) := by omega
  rw [checkFidValidity, if_neg given, queueAt, if_neg outside]

theorem checkFidValidity_refused (unknown : k.NoQueue fid) (below : fid < NBQUEUE) :
    k.checkFidValidity fid = .ok none := by
  unfold checkFidValidity
  split
  · rfl
  · next given =>
    rcases unknown with low | high | empty
    · exact absurd low given
    · omega
    · rw [queueAt, if_pos ⟨not_lt.mp given, below⟩, empty]

/-- A call that is suspended keeps a number of the table, which it reads again when it goes on. -/
def Keeps (x : Except Fault (Kernel × Next)) : Prop :=
  ∀ k' context number q, x = .ok (k', .suspend context) →
    context.queue = some (number, q) → number < NBQUEUE

theorem keeps_ret {value : Int} {out : Option Int} : Keeps (.ok (k, .ret value out)) := by
  intro k' context number q run
  cases run

theorem keeps_done {value : Int} {out : Option Int} :
    Keeps (.ok (k, .suspend (.done value out))) := by
  intro k' context number q run inside
  cases run
  cases inside

theorem keeps_bind {α : Type} {x : Except Fault α} {f : α → Except Fault (Kernel × Next)}
    (rest : ∀ a, x = .ok a → Keeps (f a)) : Keeps (x >>= f) := by
  intro k' context number q run
  obtain ⟨a, first, run⟩ := bind_eq_ok.mp run
  exact rest a first k' context number q run

theorem blockOnQueue_keeps {context : Frame}
    (inside : context.queue = some (number, q)) (below : number < NBQUEUE) :
    Keeps (k.blockOnQueue q context) := by
  apply keeps_bind
  intro a _
  apply keeps_bind
  intro k₁ _ k' context' number' q' run inside'
  cases run
  rw [inside] at inside'
  cases inside'
  exact below

theorem takeMessage_keeps : Keeps (k.takeMessage number q) := by
  apply keeps_bind
  intro mq _
  apply keeps_bind
  intro cell _
  apply keeps_bind
  intro blocked _
  split
  · apply keeps_bind
    intro out _
    obtain ⟨waiter, k₁⟩ := out
    cases waiter with
    | none => exact keeps_ret
    | some a => exact keeps_done
  · exact keeps_ret

end Kernel

def Call.queueId : Call → Option Int
  | .pdelete fid => some fid
  | .preset fid => some fid
  | .pcount fid _ => some fid
  | .preceive fid => some fid
  | .psend fid _ => some fid
  | _ => none

namespace Kernel

variable {k : Kernel} {c : Call} {fid : Int}

/-- The call indexes the table of queues only inside, also when it goes on after it was
suspended, and refuses a number without a queue. -/
structure ChecksQueue (k : Kernel) (c : Call) (fid : Int) : Prop where
  indexed : Indexed (k.perform c)
  keeps : Keeps (k.perform c)
  refused : k.NoQueue fid → k.Refused c

theorem perform_validity (named : c.queueId = some fid) :
    ∃ body : Option Addr → Except Fault (Kernel × Next),
      k.perform c = k.checkFidValidity fid >>= body ∧ body none = .ok (k, .ret (-1) none) ∧
        ∀ q, Indexed (body (some q)) ∧ (fid.toNat < NBQUEUE → Keeps (body (some q))) := by
  cases c with
  | pdelete number =>
      cases named
      refine ⟨_, rfl, rfl, fun q => ⟨?_, fun _ => ?_⟩⟩
      · exact unblockProcesses_indexed.bind fun _ _ => record_indexed.bind fun _ _ =>
          memFree_indexed.bind fun _ _ => .ok _
      · exact keeps_bind fun _ _ => keeps_bind fun _ _ => keeps_bind fun _ _ => keeps_done
  | preset number =>
      cases named
      refine ⟨_, rfl, rfl, fun q => ⟨?_, fun _ => ?_⟩⟩
      · exact record_indexed.bind fun _ _ => countBlockedProcess_indexed.bind fun _ _ =>
          unblockProcesses_indexed.bind fun _ _ => .ok _
      · exact keeps_bind fun _ _ => keeps_bind fun _ _ => keeps_bind fun _ _ => keeps_done
  | pcount number count =>
      cases named
      refine ⟨_, rfl, rfl, fun q => ⟨?_, fun _ => ?_⟩⟩
      · dsimp only
        split
        · exact record_indexed.bind fun _ _ => countBlockedProcess_indexed.bind fun _ _ => .ok _
        · exact .ok _
      · dsimp only
        split
        · exact keeps_bind fun _ _ => keeps_bind fun _ _ => keeps_ret
        · exact keeps_ret
  | preceive number =>
      cases named
      refine ⟨_, rfl, rfl, fun q => ⟨?_, fun below => ?_⟩⟩
      · apply record_indexed.bind
        intro mq _
        split
        · exact blockOnQueue_indexed
        · exact takeMessage_indexed
      · apply keeps_bind
        intro mq _
        split
        · exact blockOnQueue_keeps rfl below
        · exact takeMessage_keeps
  | psend number message =>
      cases named
      refine ⟨_, rfl, rfl, fun q => ⟨?_, fun below => ?_⟩⟩
      · apply record_indexed.bind
        intro mq _
        apply countBlockedProcess_indexed.bind
        intro blocked _
        split
        · apply wakeWaiter_indexed.bind
          intro out _
          obtain ⟨waiter, k₁⟩ := out
          apply storeMessage_indexed.bind
          intro k₂ _
          cases waiter with
          | none => exact .ok _
          | some a => exact .ok _
        · split
          · exact blockOnQueue_indexed
          · exact storeMessage_indexed.bind fun _ _ => .ok _
      · apply keeps_bind
        intro mq _
        apply keeps_bind
        intro blocked _
        split
        · apply keeps_bind
          intro out _
          obtain ⟨waiter, k₁⟩ := out
          apply keeps_bind
          intro k₂ _
          cases waiter with
          | none => exact keeps_ret
          | some a => exact keeps_done
        · split
          · exact blockOnQueue_keeps rfl below
          · exact keeps_bind fun _ _ => keeps_ret
  | start | exit | kill | waitpid | chprio | getprio | waitClock | sleep | pcreate =>
      cases named

theorem perform_queue_outside (named : c.queueId = some fid) (above : (NBQUEUE : Int) ≤ fid) :
    k.perform c = .error .outOfBounds := by
  obtain ⟨body, same, -, -⟩ := perform_validity (k := k) named
  rw [same, checkFidValidity_outside above]
  rfl

theorem perform_queue_inside (named : c.queueId = some fid) (below : fid < NBQUEUE)
    (own : k.InOwnCode) : k.ChecksQueue c fid := by
  obtain ⟨body, same, absent, rest⟩ := perform_validity (k := k) named
  constructor
  · rw [same]
    apply (checkFidValidity_indexed below).bind
    intro entry _
    cases entry with
    | none =>
        rw [absent]
        exact .ok _
    | some q => exact (rest q).1
  · rw [same]
    apply keeps_bind
    intro entry _
    cases entry with
    | none =>
        rw [absent]
        exact keeps_ret
    | some q =>
        have positive : 0 < NBQUEUE := by decide
        exact (rest q).2 (by omega)
  · intro unknown
    apply refused_of_perform own (by decide : (-1 : Int) < 0)
    rw [same, checkFidValidity_refused unknown below]
    exact absent

end Kernel

variable {k : Kernel} {c : Call} {fid : Int}

/-- In every state, a call that names a queue checks the number exactly when it is not one
above the table, which `check_fid_validity` uses as an index. -/
theorem bad_queue_ids_refused (own : k.InOwnCode) (named : c.queueId = some fid) :
    k.ChecksQueue c fid ↔ fid < NBQUEUE := by
  constructor
  · intro checks
    by_contra above
    exact checks.indexed (perform_queue_outside named (not_lt.mp above))
  · intro below
    exact perform_queue_inside named below own

theorem bad_queue_ids_refused_psend : afterBoot.InOwnCode ∧
    (afterBoot.ChecksQueue (.psend 3 7) 3 ↔ (3 : Int) < NBQUEUE) := by
  have own : afterBoot.InOwnCode := ⟨1, _, rfl, rfl, rfl⟩
  exact ⟨own, bad_queue_ids_refused own rfl⟩

/-- `pcount` compares with NBQUEUE, after the entry has been read. -/
theorem pcount_reads_before_bound : Reached [] afterBoot ∧ afterBoot.InOwnCode ∧
    ¬ afterBoot.ChecksQueue (.pcount 256 true) 256 :=
  ⟨.start afterBoot_booted, ⟨1, _, rfl, rfl, rfl⟩, fun checks => checks.indexed rfl⟩

end IntelX86Kernel

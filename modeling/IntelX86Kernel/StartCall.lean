import IntelX86Kernel.ProcessCalls

/-! What `start` asks the allocator for, where it writes, and what it leaves when it fails. -/

namespace IntelX86Kernel

def realStackSize (ssize : Nat) : Nat :=
  max (ssize + MIN_SSIZE) DEFAULT_SSIZE

def stackBytes (ssize : Nat) : Nat :=
  realStackSize ssize * sizeofInt % 2 ^ 32

def Refuses (granted : Bool) (length : Nat) : Prop :=
  length = 0 ∨ ((length + 3) % 2 ^ 32 / 4 + 4) * 4 % 2 ^ 32 ≤ length ∨ granted = false

instance Refuses.decidable (granted : Bool) (length : Nat) : Decidable (Refuses granted length) :=
  inferInstanceAs (Decidable (_ ∨ _))

/-- One of the steps of `start` fails: the search for a pid, the allocation of the `Proc`,
the addition, the allocation of the stack. -/
def Kernel.StartFails (k : Kernel) (ssize : Nat) (procGranted stackGranted : Bool) : Prop :=
  k.getNewPid = none ∨ Refuses procGranted sizeofProc ∨ 2 ^ 32 ≤ ssize + MIN_SSIZE ∨
    Refuses stackGranted (stackBytes ssize)

instance Kernel.startFailsDecidable (k : Kernel) (ssize : Nat) (procGranted stackGranted : Bool) :
    Decidable (k.StartFails ssize procGranted stackGranted) :=
  inferInstanceAs (Decidable (_ ∨ _))

/-- Bytes `offset` to `offset + width` of a block or an array of `limit` bytes. -/
structure Access where
  limit : Nat
  offset : Nat
  width : Nat
  deriving DecidableEq

def Access.Inside (access : Access) : Prop :=
  access.offset + access.width ≤ access.limit

instance Access.insideDecidable (access : Access) : Decidable access.Inside :=
  inferInstanceAs (Decidable (_ ≤ _))

/-- `stack[real_stack_size - i] = ...` -/
def stackAccess (ssize i : Nat) : Access :=
  ⟨stackBytes ssize, stackOffset (realStackSize ssize) i, sizeofInt⟩

/-- The writes of `start` whose place depends on its arguments: the copy of the name with
its terminating zero, and the three words at the top of the stack. -/
def startAccesses (ssize : Nat) (name : List UInt8) : List Access :=
  [⟨SIZE_NAME, 0, name.length + 1⟩, stackAccess ssize 1, stackAccess ssize 2, stackAccess ssize 3]

/-- The length allocated is the length recorded, and all writes stay inside. -/
structure StaysInside (ssize : Nat) (name : List UInt8) : Prop where
  bytes : stackBytes ssize = 4 * realStackSize ssize
  inside : ∀ access ∈ startAccesses ssize name, access.Inside

theorem stackBytes_eq {ssize : Nat} :
    stackBytes ssize = 4 * realStackSize ssize ↔ ssize + MIN_SSIZE < 2 ^ 30 := by
  simp only [stackBytes, realStackSize, sizeofInt, MIN_SSIZE, DEFAULT_SSIZE]
  omega

theorem staysInside_iff {ssize : Nat} {name : List UInt8} :
    StaysInside ssize name ↔ ssize + MIN_SSIZE < 2 ^ 30 ∧ name.length < SIZE_NAME := by
  constructor
  · intro stays
    have copy := stays.inside ⟨SIZE_NAME, 0, name.length + 1⟩ (by simp [startAccesses])
    change 0 + (name.length + 1) ≤ SIZE_NAME at copy
    exact ⟨stackBytes_eq.mp stays.bytes, by omega⟩
  · rintro ⟨small, short⟩
    have bytes := stackBytes_eq.mpr small
    have words : DEFAULT_SSIZE ≤ realStackSize ssize := Nat.le_max_right _ _
    rw [DEFAULT_SSIZE] at words
    refine ⟨bytes, fun access member => ?_⟩
    simp only [startAccesses, stackAccess, List.mem_cons, List.not_mem_nil, or_false] at member
    rcases member with rfl | rfl | rfl | rfl
    · exact (Nat.zero_add _).trans_le short
    all_goals
      simp only [Access.Inside, bytes, stackOffset, sizeofInt]
      omega

/-- Of the three words one is outside exactly when fewer than three words were allocated. -/
theorem stackOffset_outside {ssize : Nat} :
    (∃ i ∈ [1, 2, 3], stackBytes ssize < stackOffset (realStackSize ssize) i + sizeofInt) ↔
      stackBytes ssize < 3 * sizeofInt := by
  have words : DEFAULT_SSIZE ≤ realStackSize ssize := Nat.le_max_right _ _
  rw [DEFAULT_SSIZE] at words
  simp only [stackBytes, stackOffset, sizeofInt]
  constructor
  · rintro ⟨i, member, outside⟩
    have top : 1 ≤ i ∧ i ≤ 3 := by
      simp only [List.mem_cons, List.not_mem_nil, or_false] at member
      omega
    omega
  · intro few
    refine ⟨3, by decide, ?_⟩
    omega

namespace Kernel

variable {k k' : Kernel} {a b : Addr} {n : Next} {ssize : Nat} {prio : Int} {name : List UInt8}
  {procGranted stackGranted : Bool}

theorem memAlloc_refuses {granted : Bool} {length : Nat} :
    k.memAlloc granted length =
      if Refuses granted length then none
      else some ({ k with heap := Function.update k.heap k.nextBlock (some length),
                          nextBlock := k.nextBlock + 1 }, k.nextBlock) := rfl

theorem memFree_eq_ok {zone length : Nat} :
    k.memFree zone length = .ok k' ↔
      length = 0 ∧ k' = k ∨ length ≠ 0 ∧ k.heap zone = some length ∧
        k' = { k with heap := Function.update k.heap zone none } := by
  unfold memFree
  split
  · next zero => simp [zero, eq_comm]
  · next other =>
    split
    · next held => simp [other, held, eq_comm]
    · next missing => simp [other, missing]

def claimed (k : Kernel) (pid : Nat) (heap : Addr → Option Nat) (next : Addr) : Kernel :=
  { k with
    heap := heap
    nextBlock := next
    procs := Function.update k.procs k.nextBlock (some Proc.zeroed)
    processesTable := Function.update k.processesTable pid (some k.nextBlock) }

theorem claimed_procs {pid : Nat} {heap : Addr → Option Nat} {next : Addr} :
    (k.claimed pid heap next).procs b = if b = k.nextBlock then some Proc.zeroed else k.procs b := by
  simp only [claimed, Function.update_apply]

theorem throwStartError_claimed {pid : Nat} {next : Addr} (free : k.processesTable pid = none)
    (fresh : k.procs k.nextBlock = none) (unused : k.heap k.nextBlock = none) :
    (k.claimed pid (Function.update k.heap k.nextBlock (some sizeofProc)) next).throwStartError pid
        k.nextBlock =
      .ok ({ k with nextBlock := next }, .ret (-1) none) := by
  have released : ((k.claimed pid (Function.update k.heap k.nextBlock (some sizeofProc))
        next).setTable pid none).memFree k.nextBlock sizeofProc =
      .ok { (k.claimed pid (Function.update k.heap k.nextBlock (some sizeofProc)) next).setTable pid
        none with heap := k.heap } := by
    refine memFree_eq_ok.mpr (.inr ⟨by decide, Function.update_self _ _ _, ?_⟩)
    simp only [setTable, claimed, Function.update_idem]
    rw [← unused, Function.update_eq_self]
  rw [throwStartError, released]
  refine congrArg (fun k => Except.ok (k, Next.ret (-1) none)) ?_
  refine Kernel.ext rfl rfl ?_ rfl rfl ?_ rfl rfl rfl rfl rfl
  · simp only [setTable, claimed, Function.update_idem]
    rw [← fresh, Function.update_eq_self]
  · simp only [setTable, claimed, Function.update_idem]
    rw [← free, Function.update_eq_self]

theorem start_claims {pid : Nat} (newPid : k.getNewPid = some pid)
    (granted : ¬ Refuses procGranted sizeofProc) :
    k.start ssize prio name procGranted stackGranted =
      if 2 ^ 32 ≤ ssize + MIN_SSIZE ∨ Refuses stackGranted (stackBytes ssize) then
        (k.claimed pid (Function.update k.heap k.nextBlock (some sizeofProc))
          (k.nextBlock + 1)).throwStartError pid k.nextBlock
      else
        (k.claimed pid
          (Function.update (Function.update k.heap k.nextBlock (some sizeofProc)) (k.nextBlock + 1)
            (some (stackBytes ssize))) (k.nextBlock + 2)).initProc k.nextBlock pid
          (k.nextBlock + 1) (realStackSize ssize) prio name >>= fun k₁ =>
            k₁.startLinked k.nextBlock pid := by
  unfold start
  rw [newPid]
  dsimp only
  rw [memAlloc_refuses, if_neg granted]
  dsimp only
  by_cases overflow : 2 ^ 32 ≤ ssize + MIN_SSIZE
  · rw [if_pos overflow, if_pos (.inl overflow)]
    rfl
  · rw [if_neg overflow, memAlloc_refuses]
    have same : stackBytes ssize = max (ssize + MIN_SSIZE) DEFAULT_SSIZE * sizeofInt % 2 ^ 32 := rfl
    rw [same]
    by_cases refused : Refuses stackGranted
        (max (ssize + MIN_SSIZE) DEFAULT_SSIZE * sizeofInt % 2 ^ 32)
    · have joined : 2 ^ 32 ≤ ssize + MIN_SSIZE ∨ Refuses stackGranted
          (max (ssize + MIN_SSIZE) DEFAULT_SSIZE * sizeofInt % 2 ^ 32) := .inr refused
      rw [if_pos refused, if_pos joined]
      rfl
    · have neither : ¬ (2 ^ 32 ≤ ssize + MIN_SSIZE ∨ Refuses stackGranted
          (max (ssize + MIN_SSIZE) DEFAULT_SSIZE * sizeofInt % 2 ^ 32)) := not_or.mpr ⟨overflow, refused⟩
      rw [if_neg refused, if_neg neither]
      rfl

theorem start_fails (prio : Int) (name : List UInt8) (fresh : k.procs k.nextBlock = none) (unused : k.heap k.nextBlock = none)
    (fails : k.StartFails ssize procGranted stackGranted) :
    ∃ next, k.nextBlock ≤ next ∧ k.start ssize prio name procGranted stackGranted =
      .ok ({ k with nextBlock := next }, .ret (-1) none) := by
  cases newPid : k.getNewPid with
  | none =>
      refine ⟨k.nextBlock, le_rfl, ?_⟩
      rw [start, newPid]
  | some pid =>
      by_cases refused : Refuses procGranted sizeofProc
      · refine ⟨k.nextBlock, le_rfl, ?_⟩
        rw [start, newPid]
        dsimp only
        rw [memAlloc_refuses, if_pos refused]
      · refine ⟨k.nextBlock + 1, Nat.le_succ _, ?_⟩
        have later : 2 ^ 32 ≤ ssize + MIN_SSIZE ∨ Refuses stackGranted (stackBytes ssize) := by
          rcases fails with none | first | rest
          · rw [newPid] at none
            cases none
          · exact absurd first refused
          · exact rest
        rw [start_claims newPid refused, if_pos later]
        exact throwStartError_claimed (getNewPid_eq newPid).2 fresh unused

theorem start_passes (prio : Int) (name : List UInt8)
    (accepted : ¬ k.StartFails ssize procGranted stackGranted) :
    ∃ pid, k.getNewPid = some pid ∧ k.start ssize prio name procGranted stackGranted =
      (k.claimed pid
        (Function.update (Function.update k.heap k.nextBlock (some sizeofProc)) (k.nextBlock + 1)
          (some (stackBytes ssize))) (k.nextBlock + 2)).initProc k.nextBlock pid
        (k.nextBlock + 1) (realStackSize ssize) prio name >>= fun k₁ =>
          k₁.startLinked k.nextBlock pid := by
  rw [StartFails, not_or, not_or] at accepted
  obtain ⟨given, granted, rest⟩ := accepted
  obtain ⟨pid, newPid⟩ := Option.ne_none_iff_exists'.mp given
  exact ⟨pid, newPid, by rw [start_claims newPid granted, if_neg rest]⟩

theorem bind_eq_error {φ α β : Type} {x : Except φ α} {f : α → Except φ β} {fault : φ} :
    (x >>= f) = .error fault ↔ x = .error fault ∨ ∃ a, x = .ok a ∧ f a = .error fault := by
  cases x with
  | error other => simp [bind, Except.bind]
  | ok a => simp [bind, Except.bind]

theorem deref_inside : k.deref a ≠ .error .outOfBounds := by
  unfold deref
  split <;> simp

theorem insertSorted_inside {field : Addr → Option Nat} {prio : Nat} {l : List Addr} :
    insertSorted field a prio l ≠ .error .outOfBounds := by
  induction l with
  | nil => simp [insertSorted]
  | cons cur rest ih =>
      simp only [insertSorted]
      split
      · simp
      · split
        · split
          · simp
          · next fault failed =>
            rintro ⟨⟩
            exact ih failed
        · simp

theorem queueAdd_inside {h : Head} {field : Proc → Nat} :
    k.queueAdd a h field ≠ .error .outOfBounds := by
  rw [queueAdd, ne_eq, bind_eq_error, not_or]
  refine ⟨deref_inside, ?_⟩
  rintro ⟨p, -, run⟩
  split at run
  · rw [bind_eq_error] at run
    rcases run with run | ⟨placed, -, run⟩
    · exact insertSorted_inside run
    · cases run
  · cases run

theorem filiationManager_inside : k.filiationManager a ≠ .error .outOfBounds := by
  unfold filiationManager
  dsimp only
  split
  · simp
  · split
    · simp
    · rw [addSibling, ne_eq, bind_eq_error, not_or]
      refine ⟨deref_inside, ?_⟩
      rintro ⟨p, -, run⟩
      rw [bind_eq_error] at run
      rcases run with run | ⟨owner, -, run⟩
      · exact deref_inside run
      · split at run
        · rw [bind_eq_error] at run
          rcases run with run | ⟨placed, -, run⟩
          · exact insertSorted_inside run
          · cases run
        · cases run

theorem startReturn_inside {pid : Nat} : k.startReturn pid ≠ .error .outOfBounds := by
  unfold startReturn
  split
  · simp
  · rw [ne_eq, bind_eq_error, not_or]
    exact ⟨deref_inside, by simp⟩

theorem startLinked_inside {pid : Nat} : k.startLinked a pid ≠ .error .outOfBounds := by
  intro run
  rw [startLinked, bind_eq_error] at run
  rcases run with run | ⟨k₁, -, run⟩
  · exact filiationManager_inside run
  rw [bind_eq_error] at run
  rcases run with run | ⟨k₂, -, run⟩
  · exact queueAdd_inside run
  simp only [bind_eq_error] at run
  rcases run with run | ⟨current, -, run | ⟨p, -, run | ⟨running, -, run⟩⟩⟩
  · unfold active at run
    split at run <;> cases run
  · exact deref_inside run
  · exact deref_inside run
  · split at run
    · cases run
    · exact startReturn_inside run

/-- Once the allocations have succeeded, `start` stays inside what it got exactly when the
name is short and there is room for three words on the stack. -/
theorem start_outOfBounds_iff (accepted : ¬ k.StartFails ssize procGranted stackGranted) :
    k.start ssize prio name procGranted stackGranted = .error .outOfBounds ↔
      SIZE_NAME ≤ name.length ∨ stackBytes ssize < 3 * sizeofInt := by
  obtain ⟨pid, -, run⟩ := start_passes prio name accepted
  have block : (k.claimed pid
      (Function.update (Function.update k.heap k.nextBlock (some sizeofProc)) (k.nextBlock + 1)
        (some (stackBytes ssize))) (k.nextBlock + 2)).heap (k.nextBlock + 1) =
      some (stackBytes ssize) := Function.update_self _ _ _
  rw [run, bind_eq_error, initProc, block]
  by_cases long : SIZE_NAME ≤ name.length
  · rw [if_pos long]
    simp [long]
  · rw [if_neg long]
    dsimp only
    by_cases few : stackBytes ssize < 3 * sizeofInt
    · rw [if_pos (stackOffset_outside.mpr few)]
      exact ⟨fun _ => .inr few, fun _ => .inl rfl⟩
    · rw [if_neg (mt stackOffset_outside.mp few)]
      constructor
      · rintro (failed | ⟨k₁, -, failed⟩)
        · cases failed
        · exact absurd failed startLinked_inside
      · rintro (name | stack)
        · exact absurd name long
        · exact absurd stack few

end Kernel

open Kernel

variable {k : Kernel} {ssize : Nat} {prio : Int} {name : List UInt8}
  {procGranted stackGranted : Bool}

theorem start_stays_inside (accepted : ¬ k.StartFails ssize procGranted stackGranted) :
    (StaysInside ssize name ∧
        k.start ssize prio name procGranted stackGranted ≠ .error .outOfBounds) ↔
      ssize + MIN_SSIZE < 2 ^ 30 ∧ name.length < SIZE_NAME := by
  rw [staysInside_iff, ne_eq, start_outOfBounds_iff accepted, and_iff_left_iff_imp]
  rintro ⟨small, short⟩ (long | few)
  · exact absurd short (Nat.not_lt_of_le long)
  · have words : DEFAULT_SSIZE ≤ realStackSize ssize := Nat.le_max_right _ _
    rw [stackBytes_eq.mpr small] at few
    rw [DEFAULT_SSIZE] at words
    simp only [sizeofInt] at few
    omega

/-- The longest name there is room for. -/
theorem start_stays_inside_longest :
    (StaysInside 512 (List.replicate 19 97) ∧
        afterBoot.start 512 128 (List.replicate 19 97) true true ≠ .error .outOfBounds) ↔
      512 + MIN_SSIZE < 2 ^ 30 ∧ (List.replicate 19 (97 : UInt8)).length < SIZE_NAME :=
  start_stays_inside (by decide +kernel)

/-- A size whose fourfold wraps around: one word is allocated, and the two other words
are written in front of it. -/
theorem start_writes_outside : ¬ ∀ history k, Reached history k →
    ∀ ssize < 2 ^ 32, ∀ prio name procGranted stackGranted,
      ¬ k.StartFails ssize procGranted stackGranted →
      StaysInside ssize name ∧
        k.start ssize prio name procGranted stackGranted ≠ .error .outOfBounds := by
  intro inside
  have start := inside [] afterBoot (.start afterBoot_booted) 1073741822 (by decide) 128 [97] true
    true (by decide +kernel)
  have few : stackBytes 1073741822 < 3 * sizeofInt := by decide
  exact start.2 ((start_outOfBounds_iff (by decide +kernel)).mpr (.inr few))

end IntelX86Kernel

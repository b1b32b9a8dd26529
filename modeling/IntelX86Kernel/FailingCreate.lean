import IntelX86Kernel.Effects
import IntelX86Kernel.SharedUse

/-! `shm_create` when memory is wanting. -/

namespace IntelX86Kernel

open HashTable

namespace SharedMemory

/-- The states of the shared memory: after `shm_config`, after a call, and after whatever else
the kernel does to the heap. -/
inductive Attained : SharedMemory → Prop where
  | configured {s : SharedMemory} (configured : s.Configured) : Attained s
  | called {s s' : SharedMemory} {c : ShmCall} {answer : ShmAnswer} (attained : Attained s)
      (run : s.call c = .ok (s', answer)) : Attained s'
  | elsewhere {s : SharedMemory} {kernel : Kernel} (attained : Attained s)
      (positive : 0 < kernel.nextBlock)
      (fresh : ∀ a, kernel.nextBlock ≤ a → kernel.heap a = none) :
      Attained { s with kernel := kernel }

def CreateFails (s : SharedMemory) (key : Option CString)
    (pageGranted recordGranted tableGranted : Bool) : Prop :=
  ∃ name, key = some name ∧ s.memTable.hashIsset name = .ok false ∧
    ¬ s.Afforded (.create (some name) pageGranted recordGranted tableGranted)

/-- The call follows no null pointer, undoes all when something fails, and hands out no page
that the key is not bound to. -/
structure CreatesCleanly (s : SharedMemory) (key : Option CString)
    (pageGranted recordGranted tableGranted : Bool) : Prop where
  safe : s.shmCreate key pageGranted recordGranted tableGranted ≠ .error .nullDeref
  undone : s.CreateFails key pageGranted recordGranted tableGranted →
    ∃ s', s.shmCreate key pageGranted recordGranted tableGranted = .ok (s', 0) ∧
      (∀ name, key = some name → s'.memTable.hashIsset name = .ok false) ∧
      s'.kernel.heap = s.kernel.heap
  bound : ∀ s' add, s.shmCreate key pageGranted recordGranted tableGranted = .ok (s', add) →
    add ≠ 0 → ∃ name record page, key = some name ∧ s'.memTable.hashGet name 0 = .ok record ∧
      s'.pages record = some page ∧ page.add = add

/-- What every call keeps, failed or not. The table may be full. -/
structure Orderly (s : SharedMemory) : Prop where
  table : ∃ k, s.memTable.Sound hashStringHfunc hashStringCmp k
  positive : 0 < s.kernel.nextBlock
  fresh : ∀ a, s.kernel.nextBlock ≤ a → s.kernel.heap a = none

variable {s s' s₁ : SharedMemory} {key : Option CString} {name : CString} {add record : Addr}
  {pageGranted recordGranted tableGranted granted : Bool} {length status : Nat}

theorem allocate_false : s.allocate false length = (s, 0) := by
  rw [allocate, Kernel.memAlloc, if_pos (.inr (.inr rfl))]

theorem allocate_true (positive : 0 < length) (small : length < 2 ^ 31) :
    s.allocate true length = ({ s with kernel := { s.kernel with
      heap := Function.update s.kernel.heap s.kernel.nextBlock (some length)
      nextBlock := s.kernel.nextBlock + 1 } }, s.kernel.nextBlock) := by
  rw [allocate, memAlloc_small positive small]

theorem allocate_table : (s.allocate granted length).1.memTable = s.memTable := by
  rw [allocate]
  split <;> rfl

theorem Orderly.allocate (orderly : s.Orderly) (positive : 0 < length) (small : length < 2 ^ 31) :
    (s.allocate granted length).1.Orderly := by
  cases granted with
  | false =>
      rw [allocate_false]
      exact orderly
  | true =>
      rw [allocate_true positive small]
      constructor
      · exact orderly.table
      · exact Nat.succ_pos _
      · intro a later
        change Function.update s.kernel.heap s.kernel.nextBlock (some length) a = none
        change s.kernel.nextBlock + 1 ≤ a at later
        rw [Function.update_of_ne (Nat.ne_of_gt later)]
        exact orderly.fresh a (Nat.le_of_succ_le later)

theorem unbound_slot {map : HashTable CString Addr} (unbound : map.hashIsset name = .ok false) :
    ∃ i, map.hashLookup name (map.hfunc name) = .ok i ∧ ¬ (map.table i).Active := by
  rw [hashIsset] at unbound
  cases ended : map.hashLookup name (map.hfunc name) with
  | error fault =>
      rw [ended] at unbound
      cases unbound
  | ok i =>
      rw [ended] at unbound
      cases mode : decide ((map.table i).mode = .active) with
      | false => exact ⟨i, rfl, of_decide_eq_false mode⟩
      | true =>
          change Except.ok (decide ((map.table i).mode = .active)) = _ at unbound
          rw [mode] at unbound
          cases unbound

theorem Orderly.set (orderly : s.Orderly) (unbound : s.memTable.hashIsset name = .ok false)
    (record : Addr) (granted : Bool) :
    ∃ table status, s.memTable.hashSet name record granted = .ok (table, status) ∧
      (∃ k, table.Sound hashStringHfunc hashStringCmp k) ∧
      (status ≠ -1 → table.hashGet name 0 = .ok record) := by
  obtain ⟨k, sound⟩ := orderly.table
  obtain ⟨i, ended, free⟩ := unbound_slot unbound
  obtain ⟨table, status, k', set, sound', binds, room⟩ := sound.hashSet hashString_compares
    hashString_agrees record granted ended free
  refine ⟨table, status, set, ⟨k', sound'⟩, fun success => ?_⟩
  exact sound'.hashGet hashString_compares hashString_agrees (room success) binds 0

theorem shmCreate_recorded {table : HashTable CString Addr} {status : Int} (orderly : s.Orderly)
    (unbound : s.memTable.hashIsset name = .ok false)
    (allocated : s.allocate pageGranted PAGE_SIZE = (s₁, add))
    (set : s.memTable.hashSet name s₁.kernel.nextBlock tableGranted = .ok (table, status)) :
    s.shmCreate (some name) pageGranted true tableGranted = .ok
      ({ kernel := { s₁.kernel with
           heap := Function.update s₁.kernel.heap s₁.kernel.nextBlock (some sizeofSharedPage)
           nextBlock := s₁.kernel.nextBlock + 1 }
         memTable := table
         pages := Function.update s₁.pages s₁.kernel.nextBlock (some ⟨add, 0⟩) }, add) := by
  have orderly₁ : s₁.Orderly := by
    have kept : (s.allocate pageGranted PAGE_SIZE).1.Orderly :=
      orderly.allocate (by decide) (by decide)
    rw [allocated] at kept
    exact kept
  have same : s₁.memTable = s.memTable := by
    have kept : (s.allocate pageGranted PAGE_SIZE).1.memTable = s.memTable := allocate_table
    rw [allocated] at kept
    exact kept
  rw [shmCreate]
  dsimp only
  rw [unbound]
  dsimp only [bind, Except.bind]
  rw [if_neg Bool.false_ne_true, allocated]
  dsimp only
  rw [allocate_true (by decide) (by decide)]
  dsimp only
  rw [if_neg (Nat.ne_of_gt orderly₁.positive), setPage]
  dsimp only
  rw [same, set]

theorem shmCreate_unrecorded (unbound : s.memTable.hashIsset name = .ok false) :
    s.shmCreate (some name) pageGranted false tableGranted = .error .nullDeref := by
  rw [shmCreate]
  dsimp only
  rw [unbound]
  dsimp only [bind, Except.bind]
  rw [if_neg Bool.false_ne_true]
  cases allocated : s.allocate pageGranted PAGE_SIZE with
  | mk s₁ add =>
      dsimp only
      rw [allocate_false]
      exact if_pos rfl

theorem shmCreate_early (early : s.memTable.hashIsset name ≠ .ok false) :
    s.shmCreate (some name) pageGranted recordGranted tableGranted = .ok (s, 0) ∨
      s.shmCreate (some name) pageGranted recordGranted tableGranted = .error .hang := by
  rw [shmCreate]
  dsimp only
  cases found : s.memTable.hashIsset name with
  | ok isset =>
      cases isset with
      | false => exact absurd found early
      | true => exact .inl rfl
  | error fault =>
      right
      rw [hashIsset] at found
      cases ended : s.memTable.hashLookup name (s.memTable.hfunc name) with
      | ok i =>
          rw [ended] at found
          cases found
      | error fault' =>
          rw [ended] at found
          cases found
          rw [hashLookupLoop_hangs ended]
          rfl

theorem Orderly.create (orderly : s.Orderly)
    (run : s.shmCreate key pageGranted recordGranted tableGranted = .ok (s', add)) : s'.Orderly := by
  cases key with
  | none =>
      cases run
      exact orderly
  | some name =>
      by_cases unbound : s.memTable.hashIsset name = .ok false
      · cases recordGranted with
        | false =>
            rw [shmCreate_unrecorded unbound] at run
            cases run
        | true =>
            cases allocated : s.allocate pageGranted PAGE_SIZE with
            | mk s₁ page =>
                obtain ⟨table, status, set, sound, -⟩ :=
                  orderly.set unbound s₁.kernel.nextBlock tableGranted
                have kept : (s.allocate pageGranted PAGE_SIZE).1.Orderly :=
                  orderly.allocate (by decide) (by decide)
                rw [allocated] at kept
                rw [shmCreate_recorded orderly unbound allocated set] at run
                cases run
                constructor
                · exact sound
                · exact Nat.succ_pos _
                · intro a later
                  change s₁.kernel.nextBlock + 1 ≤ a at later
                  change Function.update s₁.kernel.heap _ _ a = none
                  rw [Function.update_of_ne (Nat.ne_of_gt later)]
                  exact kept.fresh a (Nat.le_of_succ_le later)
      · rcases shmCreate_early unbound with done | hangs
        · rw [done] at run
          cases run
          exact orderly
        · rw [hangs] at run
          cases run

theorem Orderly.setPage (orderly : s.Orderly) (page : SharedPage) :
    (s.setPage record page).Orderly :=
  ⟨orderly.table, orderly.positive, orderly.fresh⟩

theorem Orderly.memFree {kernel : Kernel} {zone : Addr} (orderly : s.Orderly)
    (run : s.kernel.memFree zone length = .ok kernel) : Orderly { s with kernel := kernel } := by
  rw [Kernel.memFree] at run
  split at run
  · cases run
    exact orderly
  · split at run
    · cases run
      constructor
      · exact orderly.table
      · exact orderly.positive
      · intro a later
        change Function.update s.kernel.heap zone none a = none
        rw [Function.update_apply]
        split
        · rfl
        · exact orderly.fresh a later
    · cases run

theorem Orderly.call {c : ShmCall} {answer : ShmAnswer} (orderly : s.Orderly)
    (run : s.call c = .ok (s', answer)) : s'.Orderly := by
  cases c with
  | create key pageGranted recordGranted tableGranted =>
      simp only [SharedMemory.call, bind_eq_ok] at run
      obtain ⟨⟨s₁, add⟩, made, run⟩ := run
      cases run
      exact orderly.create made
  | acquire key =>
      simp only [SharedMemory.call, shmAcquire, bind_eq_ok] at run
      obtain ⟨⟨s₁, add⟩, ⟨record, -, page, -, made⟩, run⟩ := run
      cases made
      cases run
      exact orderly.setPage _
  | release key =>
      simp only [SharedMemory.call, shmRelease, unreference, bind_eq_ok] at run
      obtain ⟨⟨s₁, freed⟩, ⟨⟨s₂, freed'⟩, ⟨record, -, page, -, counted⟩, made⟩, run⟩ := run
      cases counted
      cases run
      have counted : (s.setPage record
          { page with references := toSigned (page.references - 1) }).Orderly :=
        orderly.setPage _
      split at made
      · cases made
        exact counted
      · obtain ⟨kernel, freed, made⟩ := bind_eq_ok.mp made
        cases made
        exact counted.memFree freed

theorem Attained.orderly (attained : s.Attained) : s.Orderly := by
  induction attained with
  | configured configured =>
      obtain ⟨initialised, positive, fresh, -⟩ := configured
      obtain ⟨k, sound, -⟩ := (Initialised.stores initialised).sound
      exact ⟨⟨k, sound⟩, positive, fresh⟩
  | called attained run orderly => exact orderly.call run
  | elsewhere attained positive fresh orderly => exact ⟨orderly.table, positive, fresh⟩

theorem Orderly.created (orderly : s.Orderly)
    (succeeds : ¬ s.CreateFails key pageGranted recordGranted tableGranted) :
    s.CreatesCleanly key pageGranted recordGranted tableGranted := by
  cases key with
  | none =>
      constructor
      · intro null
        cases null
      · exact fun fails => absurd fails succeeds
      · intro s' add run nonzero
        cases run
        exact absurd rfl nonzero
  | some name =>
      by_cases unbound : s.memTable.hashIsset name = .ok false
      · have afforded : s.Afforded (.create (some name) pageGranted recordGranted tableGranted) := by
          by_contra fails
          exact succeeds ⟨name, rfl, unbound, fails⟩
        obtain ⟨rfl, rfl, kept⟩ := afforded
        obtain ⟨table, status, set, -, bound⟩ :=
          orderly.set unbound (s.kernel.nextBlock + 1) tableGranted
        rw [set, setFails, decide_eq_false_iff_not] at kept
        have run := shmCreate_recorded orderly unbound (allocate_true (by decide) (by decide)) set
        constructor
        · rw [run]
          intro null
          cases null
        · exact fun fails => absurd fails succeeds
        · intro s' add made _
          rw [run] at made
          cases made
          exact ⟨name, s.kernel.nextBlock + 1, ⟨s.kernel.nextBlock, 0⟩, rfl, bound kept,
            Function.update_self _ _ _, rfl⟩
      · constructor
        · intro null
          rcases shmCreate_early unbound with done | hangs
          · rw [done] at null
            cases null
          · rw [hangs] at null
            cases null
        · exact fun fails => absurd fails succeeds
        · intro s' add made nonzero
          rcases shmCreate_early unbound with done | hangs
          · rw [done] at made
            cases made
            exact absurd rfl nonzero
          · rw [hangs] at made
            cases made

theorem Orderly.dirty (orderly : s.Orderly)
    (fails : s.CreateFails key pageGranted recordGranted tableGranted) :
    ¬ s.CreatesCleanly key pageGranted recordGranted tableGranted := by
  intro clean
  obtain ⟨s', run, -, heap⟩ := clean.undone fails
  obtain ⟨name, rfl, unbound, wanting⟩ := fails
  cases recordGranted with
  | false =>
      rw [shmCreate_unrecorded unbound] at run
      cases run
  | true =>
      cases pageGranted with
      | false =>
          obtain ⟨table, status, set, -⟩ := orderly.set unbound s.kernel.nextBlock tableGranted
          rw [shmCreate_recorded orderly unbound allocate_false set] at run
          cases run
          have block := congrFun heap s.kernel.nextBlock
          change Function.update s.kernel.heap _ _ s.kernel.nextBlock = _ at block
          rw [Function.update_self, orderly.fresh _ le_rfl] at block
          cases block
      | true =>
          obtain ⟨table, status, set, -⟩ :=
            orderly.set unbound (s.kernel.nextBlock + 1) tableGranted
          rw [shmCreate_recorded orderly unbound (allocate_true (by decide) (by decide)) set] at run
          have null := (Prod.mk.inj (Except.ok.inj run)).2
          exact absurd null (Nat.ne_of_gt orderly.positive)

end SharedMemory

open SharedMemory

variable {s : SharedMemory} {key : Option CString} {pageGranted recordGranted tableGranted : Bool}

/-- A call of `shm_create` is clean in every state, for every key, if and only if it does not
come to a failing allocation. -/
theorem failing_create_leaves_traces (attained : s.Attained) :
    s.CreatesCleanly key pageGranted recordGranted tableGranted ↔
      ¬ s.CreateFails key pageGranted recordGranted tableGranted :=
  ⟨fun clean fails => attained.orderly.dirty fails clean, attained.orderly.created⟩

theorem failing_create_leaves_traces_first :
    initial.CreatesCleanly (some default) true true true := by
  apply (failing_create_leaves_traces (.configured initial_configured)).mpr
  rintro ⟨name, same, -, wanting⟩
  cases same
  apply wanting
  decide +kernel

/-- Without memory for the record, its fields are written through the null pointer. -/
theorem unrecorded_create_follows_null : ¬ ∀ s key pageGranted recordGranted tableGranted,
    Attained s → s.CreatesCleanly key pageGranted recordGranted tableGranted := by
  intro clean
  apply (clean initial (some default) true false true (.configured initial_configured)).safe
  apply shmCreate_unrecorded
  decide +kernel

end IntelX86Kernel

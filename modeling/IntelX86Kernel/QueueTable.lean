import IntelX86Kernel.Allocation

/-! The table of message queues, its count, and what `pcreate` does to both. -/

namespace IntelX86Kernel

open Transition

namespace Kernel

variable {k k' : Kernel} {a q : Addr} {e : Event} {n : Next} {m : Mover} {i : Nat}

def usedQueues (k : Kernel) : Nat :=
  Tally.tally (fun entry : Option Addr => entry.isSome) k.queues NBQUEUE

/-- The count is right and every entry has been initialised. -/
structure Registered (k : Kernel) : Prop where
  counted : k.queueCount = k.usedQueues
  known : ∀ i q, k.queues i = some q → k.records q ≠ none

theorem Registered.of_eq (registered : k.Registered) (queues : k'.queues = k.queues)
    (count : k'.queueCount = k.queueCount)
    (records : ∀ q, k.records q ≠ none → k'.records q ≠ none) : k'.Registered := by
  constructor
  · rw [count, usedQueues, queues]
    exact registered.counted
  · intro i q slot
    rw [queues] at slot
    exact records q (registered.known i q slot)

theorem Layout.known (layout : Layout k k') (known : k.records q ≠ none) :
    k'.records q ≠ none := by
  intro absent
  have same := layout.buffers q
  rw [absent, Option.map_none, eq_comm, Option.map_eq_none_iff] at same
  exact known same

theorem Layout.registered (layout : Layout k k') (registered : k.Registered) : k'.Registered :=
  registered.of_eq layout.queues layout.queueCount fun _ => layout.known

theorem usedQueues_update {entry : Option Addr} (inside : i < NBQUEUE)
    (queues : k'.queues = Function.update k.queues i entry) :
    k'.usedQueues + (if (k.queues i).isSome then 1 else 0) =
      k.usedQueues + if entry.isSome then 1 else 0 := by
  rw [usedQueues, queues]
  exact Tally.tally_update inside

theorem Supply.registered (supply : Supply e k k') (whole : k.halvesQueue e = false)
    (registered : k.Registered) (stocked : k.Stocked) : k'.Registered := by
  cases supply with
  | same layout => exact layout.registered registered
  | @deleted fid q mq k₁ heap slot here before kept same =>
      have queues : k'.queues = Function.update k.queues fid none := by rw [same]
      have inside := (stocked.known fid q slot).1
      have change := usedQueues_update inside queues
      rw [slot] at change
      constructor
      · have count : k'.queueCount = k.queueCount - 1 := by rw [same]
        rw [count, registered.counted]
        simp at change
        omega
      · intro i q' held
        have records : k'.records = k₁.records := by rw [same]
        rw [queues, Function.update_apply] at held
        rw [records]
        split at held
        · cases held
        · exact before.known (registered.known i q' held)
  | half halved => exact absurd halved (Bool.eq_false_iff.mp whole)
  | @created count positive bounded small free same =>
      have queues : k'.queues = Function.update k.queues k.firstFreeFid (some k.nextBlock) := by
        rw [same]
      have change := usedQueues_update small queues
      rw [free] at change
      constructor
      · have count : k'.queueCount = k.queueCount + 1 := by rw [same]
        rw [count, registered.counted]
        simp at change
        omega
      · intro i q held
        have records : k'.records = Function.update k.records k.nextBlock (some
            { bufferSize := count, buffer := k.nextBlock + 1, cells := fun _ => 0,
              readIndex := 0, writeIndex := 0, nbMessages := 0, resetFlag := 0 }) := by
          rw [same]
        rw [queues, Function.update_apply] at held
        rw [records, Function.update_apply]
        split at held
        · next here =>
          rw [Option.some.injEq] at held
          rw [if_pos held.symm]
          nofun
        · split
          · nofun
          · exact registered.known i q held

theorem Registered.moves (registered : k.Registered) (other : m.kind ≠ .queues)
    (moves : Moves m k k') : k'.Registered := by
  induction moves with
  | refl => exact registered
  | tail moves move ih =>
      cases move with
      | relink | edit | delay | resort | reprioritise =>
          exact ih.of_eq rfl rfl fun _ => id
      | birth small free named status links context stack kept own kind joined =>
          rcases joined with rfl | ⟨b, placed, rfl⟩ <;> exact ih.of_eq rfl rfl fun _ => id
      | store procs lists table current number next records fresh queues quiet =>
          obtain ⟨records, queues, count, -⟩ := quiet other
          exact ih.of_eq queues count fun q known => records ▸ known

theorem Registered.step (registered : k.Registered) (consistent : k.Consistent)
    (stocked : k.Stocked) (whole : k.halvesQueue e = false) (run : k.step e = .ok (k', n)) :
    k'.Registered := by
  obtain ⟨a, p, k₁, current, here, segment, finish⟩ := step_eq run
  have registered₁ : k₁.Registered := by
    by_cases kind : e.kind p.context = .queues
    · exact (segment_supply consistent.linked kind segment).registered whole registered stocked
    · exact registered.moves kind (segment_moves consistent current segment)
  have saved (context : Frame) : (k₁.setContext a context).Registered :=
    registered₁.of_eq rfl rfl fun _ => id
  rcases finish_eq finish with ⟨value, out, -, rfl⟩ | ⟨context, -, finish⟩
  · exact saved .user
  · obtain ⟨records, queues, -, -, count⟩ :=
      scheduling_same (consistent.segment segment).setContext finish
    exact (saved context).of_eq queues count fun q known => records ▸ known

/-- Every entry of the table is a queue ready for use, the count is right, and `pcreate`
never writes beyond the table. -/
structure Tabled (k : Kernel) : Prop where
  counted : k.queueCount = k.usedQueues
  initialised : ∀ i q, k.queues i = some q → i < NBQUEUE ∧ ∃ mq, k.records q = some mq ∧
    1 ≤ mq.bufferSize ∧ mq.buffer ≠ 0 ∧ k.heap mq.buffer = some (4 * mq.bufferSize.toNat) ∧
    (k.lists (.queue q)).Nodup ∧
    ∀ a ∈ k.lists (.queue q), ∃ p, k.procs a = some p ∧ p.links = some (.queue q)
  bounded : ∀ count recordGranted bufferGranted,
    k.pcreate count recordGranted bufferGranted ≠ .error .outOfBounds

theorem firstFreeFid_found (inside : i < NBQUEUE) (free : k.queues i = none) :
    k.firstFreeFid ≠ NBQUEUE := by
  intro missing
  unfold firstFreeFid at missing
  cases found : (List.range NBQUEUE).find? fun fid => (k.queues fid).isNone with
  | none =>
      have busy := List.find?_eq_none.mp found i (List.mem_range.mpr inside)
      rw [free] at busy
      exact busy rfl
  | some fid =>
      have member := List.mem_range.mp (List.mem_of_find?_eq_some found)
      rw [found, Option.getD_some] at missing
      exact absurd member (missing ▸ Nat.lt_irrefl fid)

theorem Registered.bounded (registered : k.Registered) {count : Int}
    {recordGranted bufferGranted : Bool} :
    k.pcreate count recordGranted bufferGranted ≠ .error .outOfBounds := by
  unfold pcreate
  split
  · nofun
  · next accepted =>
    split
    · nofun
    · next k₁ q first =>
      obtain ⟨-, -, rfl⟩ := memAlloc_eq first
      have below : k.usedQueues < NBQUEUE := by
        have counted := registered.counted
        omega
      obtain ⟨i, inside, free⟩ := Tally.exists_uncounted below
      have found := firstFreeFid_found (k := k) inside (by simpa using free)
      dsimp only
      split
      · next missing => exact absurd missing found
      · split <;> nofun

theorem Registered.tabled (registered : k.Registered) (consistent : k.Consistent)
    (stocked : k.Stocked) : k.Tabled := by
  refine ⟨registered.counted, fun i q slot => ⟨(stocked.known i q slot).1, ?_⟩,
    fun _ _ _ => registered.bounded⟩
  obtain ⟨mq, here⟩ := Option.ne_none_iff_exists'.mp (registered.known i q slot)
  obtain ⟨block, positive, -⟩ := stocked.buffers q mq here
  refine ⟨mq, here, positive, ?_, stocked.queues i q mq slot here,
    consistent.linked.nodup (.queue q), fun a member => (consistent.linked.mem_iff _ a).mp member⟩
  rw [block]
  exact Nat.succ_ne_zero q

end Kernel

open Kernel

def WholeQueues (_ : History) (t : Step) : Prop := t.before.halvesQueue t.event = false

instance (past : History) (t : Step) : Decidable (WholeQueues past t) :=
  inferInstanceAs (Decidable (_ = _))

/-- The table is in order after the step, and a `pcreate` has failed without a trace or
filled an entry that was null. -/
def Accounted (_ : History) (t : Step) : Prop :=
  t.after.Tabled ∧ ∀ count recordGranted bufferGranted,
    t.event = .call (.pcreate count recordGranted bufferGranted) →
      ∃ value out, t.outcome = .ret value out ∧ ((value = -1 ∧ t.after = t.before) ∨
        (0 ≤ value ∧ value < NBQUEUE ∧ t.before.queues value.toNat = none ∧
          t.after.queues value.toNat ≠ none))

variable {k k' : Kernel} {history : History} {n : Next}

theorem registered_of_run (run : Reached history k) (whole : Meets WholeQueues history) :
    k.Registered := by
  refine run.invariant (I := fun _ k => k.Registered) (fun k booted => ?_)
    (fun past k e n k' run whole registered taken kept => ?_) whole
  · obtain ⟨ssize, prio, name, run⟩ := booted
    rcases start_eq rfl (fun zero => absurd rfl zero) run with ⟨heap, next, -, -, -, ended⟩ |
      ⟨pid, stackSize, heap, k₁, newPid, kept, own, yielded, joined⟩
    · cases ended
    · have none : Kernel.booting.usedQueues = 0 := Tally.tally_eq_zero.mpr fun _ _ => nofun
      have empty : Kernel.booting.Registered := ⟨by rw [none]; rfl, nofun⟩
      rw [yielded.same]
      rcases joined with ⟨-, rfl⟩ | ⟨b, owner, placed, others, -⟩
      · exact empty.of_eq rfl rfl fun _ => id
      · exact absurd rfl others
  · exact registered.step (consistent_of_run run).1 (stocked_of_run run).1 kept taken

theorem Kernel.pcreate_step {count : Int} {recordGranted bufferGranted : Bool}
    (run : k.step (.call (.pcreate count recordGranted bufferGranted)) = .ok (k', n)) :
    (n = .ret (-1) none ∧ k' = k ∧
        k.halvesQueue (.call (.pcreate count recordGranted bufferGranted)) = false) ∨
      (n = .ret (-1) none ∧ k'.queues ≠ k.queues ∧
        k.halvesQueue (.call (.pcreate count recordGranted bufferGranted)) = true) ∨
      (n = .ret k.firstFreeFid none ∧ k.firstFreeFid < NBQUEUE ∧
        k.queues k.firstFreeFid = none ∧ k'.queues k.firstFreeFid ≠ none ∧
        k.halvesQueue (.call (.pcreate count recordGranted bufferGranted)) = false) := by
  obtain ⟨a, p, k₁, current, here, segment, finish⟩ := step_eq run
  have user : p.context = .user := by
    by_contra other
    simp [Kernel.segment, other] at segment
  rw [Kernel.segment, if_pos user] at segment
  rcases pcreate_eq segment with ⟨refused, rfl, rfl⟩ |
    ⟨positive, bounded, room, first, small, free, ⟨second, same, rfl⟩ | ⟨second, same, rfl⟩⟩
  · cases finish
    refine .inl ⟨rfl, setProc_id here (by rw [← user]), ?_⟩
    rw [halvesQueue, Bool.and_eq_false_iff, Bool.and_eq_false_iff]
    by_cases accepted : 0 < count ∧ count ≤ 536870911 ∧ k₁.queueCount < NBQUEUE
    · exact .inl (.inr (refused accepted.1 accepted.2.1 accepted.2.2))
    · exact .inl (.inl (decide_eq_false accepted))
  · cases finish
    refine .inr (.inl ⟨rfl, fun equal => ?_, ?_⟩)
    · have filled : k₁.queues k.firstFreeFid = some k.nextBlock := by
        rw [same]
        exact Function.update_self _ _ _
      change k₁.queues = k.queues at equal
      rw [equal, free] at filled
      cases filled
    · simp [halvesQueue, positive, bounded, room, first, second]
  · cases finish
    refine .inr (.inr ⟨rfl, small, free, ?_, ?_⟩)
    · have filled : k₁.queues k.firstFreeFid = some k.nextBlock := by
        rw [same]
        exact Function.update_self _ _ _
      change k₁.queues k.firstFreeFid ≠ none
      rw [filled]
      exact Option.some_ne_none _
    · rw [halvesQueue, second, Bool.not_true, Bool.and_false]

/-- The table of queues is accounted for in a run exactly when no `pcreate` of it gets its
first block and is refused its second. -/
theorem queue_table_accounted (run : Reached history k) :
    Meets WholeQueues history ↔ Meets Accounted history ∧ k.Tabled := by
  have tabled {history : History} {k : Kernel} (run : Reached history k)
      (whole : Meets WholeQueues history) : k.Tabled :=
    (registered_of_run run whole).tabled (consistent_of_run run).1 (stocked_of_run run).1
  constructor
  · intro whole
    refine ⟨?_, tabled run whole⟩
    induction run with
    | start => trivial
    | @next past k k' e n run taken ih =>
        refine ⟨⟨tabled (run.next taken) whole, fun count recordGranted bufferGranted event => ?_⟩,
          ih whole.2⟩
        change e = _ at event
        subst event
        rcases pcreate_step taken with ⟨outcome, same, -⟩ | ⟨-, -, halved⟩ |
          ⟨outcome, small, free, filled, -⟩
        · exact ⟨-1, none, outcome, .inl ⟨rfl, same⟩⟩
        · exact absurd halved (Bool.eq_false_iff.mp whole.1)
        · refine ⟨k.firstFreeFid, none, outcome, .inr ⟨Int.natCast_nonneg _, ?_, ?_, ?_⟩⟩
          · exact Int.ofNat_lt.mpr small
          · rw [Int.toNat_natCast]
            exact free
          · rw [Int.toNat_natCast]
            exact filled
  · rintro ⟨accounted, -⟩
    induction run with
    | start => trivial
    | @next past k k' e n run taken ih =>
        refine ⟨?_, ih accounted.2⟩
        change k.halvesQueue e = false
        by_contra halved
        rw [Bool.not_eq_false] at halved
        cases e with
        | resume | clockInterrupt => cases halved
        | call c =>
            cases c with
            | pcreate count recordGranted bufferGranted =>
                rcases pcreate_step taken with ⟨-, -, whole⟩ | ⟨outcome, changed, -⟩ |
                  ⟨-, -, -, -, whole⟩
                · rw [whole] at halved
                  cases halved
                · obtain ⟨value, out, returned, ⟨-, same⟩ | ⟨low, -⟩⟩ :=
                    accounted.1.2 count recordGranted bufferGranted rfl
                  · exact changed (congrArg Kernel.queues same)
                  · change n = .ret value out at returned
                    rw [outcome] at returned
                    cases returned
                    exact absurd low (by decide)
                · rw [whole] at halved
                  cases halved
            | _ => cases halved

/-- A `pcreate` without memory, one with it, a `pdelete` and another `pcreate`. -/
theorem queue_table_accounted_reused : ∃ (history : History) (k : Kernel),
    history.length = 5 ∧ k.queueCount = 1 ∧ Meets Accounted history ∧ k.Tabled := by
  obtain ⟨history, k, run, checked⟩ := reached_by
    [.call (.pcreate 3 false true), .call (.pcreate 3 true true), .call (.pdelete 0),
      .resume, .call (.pcreate 1 true true)]
    (fun history k => decide (history.length = 5) && decide (k.queueCount = 1) &&
      decide (Meets WholeQueues history))
    (by decide +kernel)
  simp only [Bool.and_eq_true, decide_eq_true_eq] at checked
  exact ⟨history, k, checked.1.1, checked.1.2, (queue_table_accounted run).mp checked.2⟩

/-- The buffer is refused: `pcreate` returns -1 and leaves an entry without a queue. -/
theorem queue_table_drifts : ¬ ∀ history k, Reached history k →
    Meets Accounted history ∧ k.Tabled := by
  intro accounted
  obtain ⟨history, k, run, checked⟩ := reached_by [.call (.pcreate 3 true false)]
    (fun _ k => decide (k.queueCount = 0) && (k.queues 0).isSome)
    (by decide +kernel)
  simp only [Bool.and_eq_true, decide_eq_true_eq] at checked
  obtain ⟨empty, filled⟩ := checked
  have counted := (accounted history k run).2.counted
  have used : 0 < k.usedQueues := Tally.tally_pos (by decide) filled
  omega

end IntelX86Kernel

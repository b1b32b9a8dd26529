import IntelX86Kernel.HashCalls
import IntelX86Kernel.SharedMemory

/-! The shared pages by key, and what the three calls do to them. -/

namespace IntelX86Kernel

open Transition

theorem strcmp_eq_zero {first second : List (BitVec 8)} (zero : 0 ∉ first) (zero' : 0 ∉ second) :
    strcmp first second = 0 ↔ first = second := by
  have positive {c : BitVec 8} {chars : List (BitVec 8)} (noZero : 0 ∉ c :: chars) : c.toNat ≠ 0 := by
    intro null
    have same : c = 0 := BitVec.eq_of_toNat_eq null
    exact noZero (same ▸ List.mem_cons_self)
  induction first generalizing second with
  | nil =>
      cases second with
      | nil => simp [strcmp]
      | cons d second =>
          have other := positive zero'
          rw [strcmp]
          simp
          omega
  | cons c first ih =>
      cases second with
      | nil =>
          have other := positive zero
          rw [strcmp]
          simp
          omega
      | cons d second =>
          have rest := ih (fun member => zero (List.mem_cons_of_mem c member))
            (fun member => zero' (List.mem_cons_of_mem d member))
          rw [strcmp]
          split
          · next differ =>
            refine ⟨fun same => absurd same differ, fun same => ?_⟩
            rw [List.cons.injEq] at same
            rw [same.1, Int.sub_self] at differ
            exact absurd rfl differ
          · next equal =>
            have same : c = d := BitVec.eq_of_toNat_eq (by omega)
            rw [List.cons.injEq]
            exact rest.trans ⟨fun tails => ⟨same, tails⟩, And.right⟩

theorem hashStringCmp_eq {a b : CString} : hashStringCmp a b = true ↔ a = b := by
  rw [hashStringCmp, decide_eq_true_eq, strcmp_eq_zero a.noZero b.noZero]
  obtain ⟨chars, noZero⟩ := a
  obtain ⟨chars', noZero'⟩ := b
  rw [CString.mk.injEq]

theorem hashString_compares : Bindings.Compares hashStringCmp where
  refl _ := hashStringCmp_eq.mpr rfl
  symm equal := hashStringCmp_eq.mpr (hashStringCmp_eq.mp equal).symm
  trans first second :=
    hashStringCmp_eq.mpr ((hashStringCmp_eq.mp first).trans (hashStringCmp_eq.mp second))

theorem hashString_agrees : HashTable.Agrees hashStringHfunc hashStringCmp := by
  intro a b equal
  rw [hashStringCmp_eq.mp equal]

variable {s s' : SharedMemory} {key other : CString} {page : SharedPage} {add record : Addr}
  {view : CString → Option SharedPage} {pageGranted recordGranted tableGranted : Bool}
  {records : CString → Option Addr} {table table' : HashTable CString Addr} {status : Int}

def Tabled (table : HashTable CString Addr) (records : CString → Option Addr) : Prop :=
  ∃ m : Bindings CString Addr hashStringCmp, table.Stores hashStringHfunc m ∧
    ∀ key, m.get key = records key

theorem Tabled.isset (tabled : Tabled table records) :
    table.hashIsset key = .ok (records key).isSome := by
  obtain ⟨m, stores, same⟩ := tabled
  rw [stores.hashIsset hashString_compares hashString_agrees, same]

theorem Tabled.get (tabled : Tabled table records) :
    table.hashGet key add = .ok ((records key).getD add) := by
  obtain ⟨m, stores, same⟩ := tabled
  rw [stores.hashGet hashString_compares hashString_agrees, same]

theorem Tabled.set (tabled : Tabled table records) (key : CString) (record : Addr)
    (tableGranted : Bool) :
    ∃ table' status, table.hashSet key record tableGranted = .ok (table', status) ∧
      (status ≠ -1 → Tabled table' (Function.update records key (some record))) := by
  obtain ⟨m, stores, same⟩ := tabled
  rcases stores.hashSet key record tableGranted
    hashString_compares hashString_agrees with ⟨table', failed, -⟩ | ⟨table', done, stores', -⟩
  · exact ⟨table', -1, failed, fun success => absurd rfl success⟩
  · refine ⟨table', 0, done, fun _ => ⟨_, stores', fun other => ?_⟩⟩
    rw [Bindings.get_insert hashString_compares, Function.update_apply, same]
    by_cases equal : key = other
    · rw [if_pos (hashStringCmp_eq.mpr equal), if_pos equal.symm]
    · rw [if_neg (mt hashStringCmp_eq.mp equal), if_neg (Ne.symm equal)]

namespace SharedMemory

/-- The keys are bound to records of their own, and these to pages of their own. -/
structure Linked (s : SharedMemory) (records : CString → Option Addr)
    (view : CString → Option SharedPage) : Prop where
  tabled : Tabled s.memTable records
  bound : ∀ key, view key = (records key).bind s.pages
  placed : ∀ key record, records key = some record →
    record ≠ 0 ∧ record < s.kernel.nextBlock ∧ s.pages record ≠ none
  apart : ∀ a b record, records a = some record → records b = some record → a = b
  null : s.pages 0 = none
  pages : ∀ key page, view key = some page → page.add ≠ 0 ∧ page.add < s.kernel.nextBlock
  distinct : ∀ a b p q, view a = some p → view b = some q → p.add = q.add → a = b
  fresh : ∀ a, s.kernel.nextBlock ≤ a → s.kernel.heap a = none
  positive : 0 < s.kernel.nextBlock

def Shares (s : SharedMemory) (view : CString → Option SharedPage) : Prop :=
  ∃ records, s.Linked records view

theorem Configured.shares (configured : s.Configured) : s.Shares fun _ => none := by
  obtain ⟨initialised, positive, fresh, blank⟩ := configured
  refine ⟨fun _ => none, ⟨.empty, Initialised.stores initialised, fun _ => rfl⟩, fun _ => rfl,
    nofun, nofun, blank 0, nofun, nofun, fresh, positive⟩

theorem Linked.found (linked : s.Linked records view) (here : view key = some page) :
    ∃ record, records key = some record ∧ s.pages record = some page ∧
      s.lookup (some key) = .ok record ∧ s.page record = .ok page := by
  rw [linked.bound] at here
  obtain ⟨record, placed, stored⟩ := Option.bind_eq_some_iff.mp here
  refine ⟨record, placed, stored, ?_, ?_⟩
  · rw [lookup, linked.tabled.get, placed]
    rfl
  · rw [SharedMemory.page, stored]

theorem Linked.absent (linked : s.Linked records view) (none : view key = .none) :
    records key = .none := by
  cases placed : records key with
  | none => rfl
  | some record =>
      have stored := (linked.placed key record placed).2.2
      rw [linked.bound, placed] at none
      exact absurd none stored

theorem Linked.setPage (linked : s.Linked records view) (placed : records key = some record)
    (here : view key = some page) (references : Int) :
    (s.setPage record { page with references := references }).Linked records
      (Function.update view key (some { page with references := references })) := by
  have adds {a : CString} {p : SharedPage}
      (seen : Function.update view key (some { page with references := references }) a = some p) :
      ∃ q, view a = some q ∧ q.add = p.add := by
    rw [Function.update_apply] at seen
    split at seen
    · next same =>
      rw [Option.some.injEq] at seen
      exact ⟨page, same ▸ here, by rw [← seen]⟩
    · exact ⟨p, seen, rfl⟩
  refine ⟨linked.tabled, fun other => ?_, fun other record' placed' => ?_, linked.apart, ?_,
    fun other p seen => ?_, fun a b p q seen seen' same => ?_, linked.fresh, linked.positive⟩
  · change _ = (records other).bind (Function.update s.pages record _)
    rw [Function.update_apply]
    split
    · next same =>
      rw [same, placed, Option.bind_some, Function.update_self]
    · next differ =>
      rw [linked.bound]
      cases placed' : records other with
      | none => rfl
      | some record' =>
          have other : record' ≠ record := by
            rintro rfl
            exact differ (linked.apart other key record' placed' placed)
          rw [Option.bind_some, Option.bind_some, Function.update_of_ne other]
  · obtain ⟨nonzero, below, stored⟩ := linked.placed other record' placed'
    refine ⟨nonzero, below, ?_⟩
    change Function.update s.pages record _ record' ≠ none
    rw [Function.update_apply]
    split
    · nofun
    · exact stored
  · change Function.update s.pages record _ 0 = none
    rw [Function.update_of_ne (linked.placed key record placed).1.symm]
    exact linked.null
  · obtain ⟨q, seen, same⟩ := adds seen
    rw [← same]
    exact linked.pages other q seen
  · obtain ⟨p', seen, here⟩ := adds seen
    obtain ⟨q', seen', there⟩ := adds seen'
    exact linked.distinct a b p' q' seen seen' (by rw [here, there, same])

theorem memAlloc_small {k : Kernel} {length : Nat} (positive : 0 < length) (small : length < 2 ^ 31) :
    k.memAlloc true length = some ({ k with
      heap := Function.update k.heap k.nextBlock (some length), nextBlock := k.nextBlock + 1 },
      k.nextBlock) := by
  rw [Kernel.memAlloc]
  refine if_neg ?_
  rintro (zero | wrapped | refused)
  · omega
  · omega
  · cases refused

/-- `hash_set` could not move the table to a larger block. -/
def setFails : Except Fault (HashTable CString Addr × Int) → Bool
  | .ok (_, status) => decide (status = -1)
  | .error _ => false

/-- None of the allocations of the call fails. -/
def Afforded (s : SharedMemory) : ShmCall → Prop
  | .create (some key) pageGranted recordGranted tableGranted =>
      pageGranted = true ∧ recordGranted = true ∧
        setFails (s.memTable.hashSet key (s.kernel.nextBlock + 1) tableGranted) = false
  | .create none .. | .acquire _ | .release _ => True

instance : ∀ c, Decidable (s.Afforded c)
  | .create (some _) .. => inferInstanceAs (Decidable (_ ∧ _ ∧ _))
  | .create none .. | .acquire _ | .release _ => .isTrue trivial

theorem Linked.create_bound (linked : s.Linked records view) (here : view key = some page)
    (pageGranted recordGranted tableGranted : Bool) :
    s.shmCreate (some key) pageGranted recordGranted tableGranted = .ok (s, 0) := by
  obtain ⟨record, placed, -⟩ := linked.found here
  rw [shmCreate]
  dsimp only
  rw [linked.tabled.isset, placed]
  rfl

theorem Linked.extend (linked : s.Linked records view) (kernel : Kernel)
    (tabled : Tabled table (Function.update records key (some (s.kernel.nextBlock + 1))))
    (next : kernel.nextBlock = s.kernel.nextBlock + 2)
    (heap : kernel.heap = Function.update (Function.update s.kernel.heap s.kernel.nextBlock
      (some PAGE_SIZE)) (s.kernel.nextBlock + 1) (some sizeofSharedPage)) :
    Linked ⟨kernel, table, Function.update s.pages (s.kernel.nextBlock + 1)
        (some ⟨s.kernel.nextBlock, 0⟩)⟩
      (Function.update records key (some (s.kernel.nextBlock + 1)))
      (Function.update view key (some ⟨s.kernel.nextBlock, 0⟩)) := by
  have old {other : CString} {record : Addr} (placed : records other = some record) :
      record ≠ s.kernel.nextBlock + 1 :=
    Nat.ne_of_lt (Nat.lt_succ_of_lt (linked.placed other record placed).2.1)
  have recorded {other : CString} {record : Addr}
      (placed : Function.update records key (some (s.kernel.nextBlock + 1)) other = some record) :
      (other = key ∧ record = s.kernel.nextBlock + 1) ∨ records other = some record := by
    rw [Function.update_apply] at placed
    split at placed
    · next same => exact .inl ⟨same, (Option.some.inj placed).symm⟩
    · exact .inr placed
  have viewed {other : CString} {p : SharedPage}
      (seen : Function.update view key (some ⟨s.kernel.nextBlock, 0⟩) other = some p) :
      (other = key ∧ p.add = s.kernel.nextBlock) ∨
        (view other = some p ∧ p.add < s.kernel.nextBlock) := by
    rw [Function.update_apply] at seen
    split at seen
    · next same => exact .inl ⟨same, by rw [← Option.some.inj seen]⟩
    · exact .inr ⟨seen, (linked.pages other p seen).2⟩
  constructor
  · exact tabled
  · intro other
    dsimp only
    by_cases same : other = key
    · rw [same, Function.update_self, Function.update_self, Option.bind_some,
        Function.update_self]
    · rw [Function.update_of_ne same, Function.update_of_ne same, linked.bound]
      cases placed : records other with
      | none => rfl
      | some record => rw [Option.bind_some, Option.bind_some, Function.update_of_ne (old placed)]
  · intro other record placed
    dsimp only
    rw [next]
    rcases recorded placed with ⟨-, rfl⟩ | placed
    · refine ⟨Nat.succ_ne_zero _, Nat.lt_succ_self _, ?_⟩
      rw [Function.update_self]
      nofun
    · obtain ⟨nonzero, below, stored⟩ := linked.placed other record placed
      refine ⟨nonzero, Nat.lt_add_right 2 below, ?_⟩
      rw [Function.update_of_ne (old placed)]
      exact stored
  · intro a b record placed placed'
    rcases recorded placed with ⟨rfl, rfl⟩ | placed
    · rcases recorded placed' with ⟨rfl, -⟩ | placed'
      · rfl
      · exact absurd rfl (old placed')
    · rcases recorded placed' with ⟨-, rfl⟩ | placed'
      · exact absurd rfl (old placed)
      · exact linked.apart a b record placed placed'
  · dsimp only
    rw [Function.update_of_ne (Nat.succ_ne_zero _).symm]
    exact linked.null
  · intro other p seen
    dsimp only
    rw [next]
    rcases viewed seen with ⟨-, here⟩ | ⟨seen, below⟩
    · rw [here]
      exact ⟨Nat.ne_of_gt linked.positive, Nat.lt_add_of_pos_right Nat.two_pos⟩
    · exact ⟨(linked.pages other p seen).1, Nat.lt_add_right 2 below⟩
  · intro a b p q seen seen' same
    rcases viewed seen with ⟨rfl, here⟩ | ⟨seen, below⟩
    · rcases viewed seen' with ⟨rfl, -⟩ | ⟨-, below⟩
      · rfl
      · exact absurd (same.symm.trans here) (Nat.ne_of_lt below)
    · rcases viewed seen' with ⟨-, here⟩ | ⟨seen', -⟩
      · exact absurd (same.trans here) (Nat.ne_of_lt below)
      · exact linked.distinct a b p q seen seen' same
  · intro a above
    dsimp only at above ⊢
    rw [next] at above
    rw [heap, Function.update_of_ne, Function.update_of_ne]
    · exact linked.fresh a (Nat.le_trans (Nat.le_add_right _ 2) above)
    · exact Nat.ne_of_gt (Nat.lt_of_lt_of_le (Nat.lt_add_of_pos_right Nat.two_pos) above)
    · exact Nat.ne_of_gt (Nat.lt_of_lt_of_le (Nat.lt_succ_self _) above)
  · dsimp only
    rw [next]
    exact Nat.succ_pos _

theorem Linked.create_new (linked : s.Linked records view) (free : view key = none)
    (afforded : s.Afforded (.create (some key) pageGranted recordGranted tableGranted)) :
    ∃ s', s.shmCreate (some key) pageGranted recordGranted tableGranted =
        .ok (s', s.kernel.nextBlock) ∧
      s'.Shares (Function.update view key (some ⟨s.kernel.nextBlock, 0⟩)) ∧
      s'.kernel.nextBlock = s.kernel.nextBlock + 2 ∧
      s'.kernel.heap = Function.update (Function.update s.kernel.heap s.kernel.nextBlock
        (some PAGE_SIZE)) (s.kernel.nextBlock + 1) (some sizeofSharedPage) := by
  obtain ⟨rfl, rfl, kept⟩ := afforded
  obtain ⟨table', status, set, tabled'⟩ := linked.tabled.set key
    (s.kernel.nextBlock + 1) tableGranted
  rw [set, setFails, decide_eq_false_iff_not] at kept
  have isset : s.memTable.hashIsset key = .ok false := by
    rw [linked.tabled.isset, linked.absent free]
    rfl
  let k₁ : Kernel := { s.kernel with
    heap := Function.update s.kernel.heap s.kernel.nextBlock (some PAGE_SIZE)
    nextBlock := s.kernel.nextBlock + 1 }
  let k₂ : Kernel := { k₁ with
    heap := Function.update k₁.heap k₁.nextBlock (some sizeofSharedPage)
    nextBlock := k₁.nextBlock + 1 }
  have first : s.allocate true PAGE_SIZE = ({ s with kernel := k₁ }, s.kernel.nextBlock) := by
    rw [allocate, memAlloc_small (by decide) (by decide)]
  have second : { s with kernel := k₁ }.allocate true sizeofSharedPage =
      ({ s with kernel := k₂ }, s.kernel.nextBlock + 1) := by
    rw [allocate, memAlloc_small (by decide) (by decide)]
  refine ⟨_, ?_, ⟨_, linked.extend k₂ (tabled' kept) rfl rfl⟩, rfl, rfl⟩
  rw [shmCreate]
  dsimp only
  rw [isset]
  dsimp only [bind, Except.bind]
  rw [if_neg Bool.false_ne_true, first]
  dsimp only
  rw [second]
  dsimp only
  rw [if_neg (Nat.succ_ne_zero _)]
  change (s.memTable.hashSet key (s.kernel.nextBlock + 1) tableGranted >>= _) = _
  rw [set]
  rfl

theorem Linked.setKernel (linked : s.Linked records view) {kernel : Kernel}
    (next : kernel.nextBlock = s.kernel.nextBlock)
    (fresh : ∀ a, kernel.nextBlock ≤ a → kernel.heap a = none) :
    Linked { s with kernel := kernel } records view := by
  refine ⟨linked.tabled, linked.bound, fun key record placed => ?_, linked.apart, linked.null,
    fun key page seen => ?_, linked.distinct, fresh, ?_⟩
  · dsimp only
    rw [next]
    exact linked.placed key record placed
  · dsimp only
    rw [next]
    exact linked.pages key page seen
  · dsimp only
    rw [next]
    exact linked.positive

theorem Linked.acquire (linked : s.Linked records view) (here : view key = some page) :
    ∃ s', s.shmAcquire (some key) = .ok (s', page.add) ∧ s'.Linked records
        (Function.update view key (some { page with references := toSigned (page.references + 1) })) ∧
      s'.kernel = s.kernel := by
  obtain ⟨record, placed, -, found, held⟩ := linked.found here
  refine ⟨_, ?_, linked.setPage placed here _, rfl⟩
  rw [shmAcquire, found]
  change (s.page record >>= _) = _
  rw [held]
  rfl

theorem Linked.unreference (linked : s.Linked records view) (here : view key = some page) :
    ∃ s', s.unreference (some key) = .ok (s',
        if toSigned (page.references - 1) ≤ 0 then some page.add else none) ∧ s'.Linked records
        (Function.update view key (some { page with references := toSigned (page.references - 1) })) ∧
      s'.kernel = s.kernel := by
  obtain ⟨record, placed, -, found, held⟩ := linked.found here
  refine ⟨_, ?_, linked.setPage placed here _, rfl⟩
  rw [SharedMemory.unreference, found]
  change (s.page record >>= _) = _
  rw [held]
  rfl

theorem Linked.unknown (linked : s.Linked records view) (none : view key = .none) :
    s.shmAcquire (some key) = .error .nullDeref ∧ s.unreference (some key) = .error .nullDeref := by
  have unbound := linked.absent none
  have found : s.lookup (some key) = .ok 0 := by
    rw [lookup, linked.tabled.get, unbound]
    rfl
  have missing : s.page 0 = .error .nullDeref := by
    rw [SharedMemory.page, linked.null]
  constructor
  · rw [shmAcquire, found]
    change (s.page 0 >>= _) = _
    rw [missing]
    rfl
  · rw [SharedMemory.unreference, found]
    change (s.page 0 >>= _) = _
    rw [missing]
    rfl

end SharedMemory

end IntelX86Kernel

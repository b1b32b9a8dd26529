import IntelX86Kernel.SharedPages

/-! Who holds a shared page, and when it is freed. -/

namespace IntelX86Kernel

open Transition

def SharedMemory.initial : SharedMemory where
  kernel := .booting
  memTable := ⟨0, 0, 7, fun _ => .cleared .empty, hashStringHfunc, hashStringCmp⟩
  pages _ := none

theorem SharedMemory.initial_configured : SharedMemory.initial.Configured :=
  ⟨⟨initial.memTable, true, rfl⟩, Nat.one_pos, fun _ _ => rfl, fun _ => rfl⟩

structure ShmEvent where
  pid : Nat
  call : ShmCall
  deriving DecidableEq

abbrev ShmStep := Occurrence SharedMemory ShmEvent ShmAnswer

def SharedMemory.step (s : SharedMemory) (e : ShmEvent) :
    Except Fault (SharedMemory × ShmAnswer) :=
  s.call e.call

abbrev Sharing (history : List ShmStep) (s : SharedMemory) : Prop :=
  Run SharedMemory.step SharedMemory.Configured history s

structure Holding where
  pid : Nat
  key : CString
  page : Addr
  deriving DecidableEq

/-- Without one holding of the process under the key. -/
def without (pid : Nat) (key : CString) (holdings : List Holding) : List Holding :=
  holdings.eraseP fun h => h.pid = pid ∧ h.key = key

def holdings : List ShmStep → List Holding
  | [] => []
  | t :: past =>
      match t.event.call, t.outcome with
      | .create (some key) .., .page add | .acquire (some key), .page add =>
          if add = 0 then holdings past else ⟨t.event.pid, key, add⟩ :: holdings past
      | .release (some key), _ => without t.event.pid key (holdings past)
      | _, _ => holdings past

def Owned (held : List Holding) (pid : Nat) : ShmCall → Prop
  | .release (some key) => ∃ h ∈ held, h.pid = pid ∧ h.key = key
  | .release none | .create .. | .acquire _ => True

instance (held : List Holding) (pid : Nat) : ∀ c, Decidable (Owned held pid c)
  | .release (some _) => inferInstanceAs (Decidable (∃ h ∈ held, _))
  | .release none | .create .. | .acquire _ => .isTrue trivial

def Disciplined (past : List ShmStep) (t : ShmStep) : Prop :=
  t.before.Afforded t.event.call ∧ Owned (holdings past) t.event.pid t.event.call

instance (past : List ShmStep) (t : ShmStep) : Decidable (Disciplined past t) :=
  inferInstanceAs (Decidable (_ ∧ _))

/-- The release frees the page of the holding when nothing else holds it, and no page that
something else holds. -/
def FreesLast (s : SharedMemory) (h : Holding) (rest : List Holding) : Prop :=
  ∃ s' freed, s.unreference (some h.key) = .ok (s', freed) ∧
    (∀ add, freed = some add → ∀ other ∈ rest, other.page ≠ add) ∧
    ((∀ other ∈ rest, other.page ≠ h.page) → freed = some h.page)

variable {history past : List ShmStep} {s s' : SharedMemory} {h : Holding} {key : CString}
  {pid : Nat} {view : CString → Option SharedPage} {e : ShmEvent} {answer : ShmAnswer}

theorem toSigned_add (a b : Int) : toSigned (toSigned a + b) = toSigned (a + b) := by
  rw [toSigned, toSigned, toSigned]
  exact Int.bmod_add_bmod

def holders (key : CString) (holdings : List Holding) : Nat := holdings.countP fun h => h.key = key

theorem holders_cons (h : Holding) (held : List Holding) :
    holders key (h :: held) = holders key held + if h.key = key then 1 else 0 := by
  rw [holders, List.countP_cons, ← holders]
  simp only [decide_eq_true_eq]

theorem holders_without {held : List Holding} (member : ∃ h ∈ held, h.pid = pid ∧ h.key = key)
    (other : CString) :
    holders other (without pid key held) + (if key = other then 1 else 0) = holders other held := by
  obtain ⟨h, member, same⟩ := member
  obtain ⟨gone, before, after, -, matched, split, erased⟩ := List.exists_of_eraseP
    (p := fun h : Holding => h.pid = pid ∧ h.key = key) member (decide_eq_true same)
  have named := (of_decide_eq_true matched).2
  rw [holders, holders, without, erased, split, List.countP_append, List.countP_append,
    List.countP_cons, named]
  simp only [decide_eq_true_eq]
  omega

theorem mem_without {held : List Holding} (member : h ∈ without pid key held) : h ∈ held :=
  List.mem_of_mem_eraseP member

/-- The counter of a page is one less than the number of its holdings. -/
structure Counted (held : List Holding) (view : CString → Option SharedPage) : Prop where
  references : ∀ key page, view key = some page →
    page.references = toSigned ((holders key held : Int) - 1)
  held : ∀ h ∈ held, ∃ page, view h.key = some page ∧ page.add = h.page

theorem Counted.create {held : List Holding} {add : Addr} (counted : Counted held view)
    (free : view key = none) :
    Counted (⟨pid, key, add⟩ :: held) (Function.update view key (some ⟨add, 0⟩)) := by
  have unheld : holders key held = 0 := by
    refine List.countP_eq_zero.mpr fun h member => ?_
    rw [decide_eq_true_eq]
    rintro rfl
    obtain ⟨page, seen, -⟩ := counted.held h member
    rw [free] at seen
    cases seen
  constructor
  · intro other page seen
    rw [Function.update_apply] at seen
    rw [holders_cons]
    split at seen
    · next same =>
      subst same
      rw [Option.some.injEq] at seen
      rw [← seen, unheld, if_pos rfl]
      exact (toSigned_small (z := 0) (by decide) (by decide)).symm
    · next differ =>
      rw [if_neg (Ne.symm differ)]
      exact counted.references other page seen
  · intro h member
    rcases List.mem_cons.mp member with rfl | member
    · exact ⟨_, Function.update_self _ _ _, rfl⟩
    · obtain ⟨page, seen, same⟩ := counted.held h member
      refine ⟨page, ?_, same⟩
      rw [Function.update_of_ne]
      · exact seen
      · intro equal
        rw [equal, free] at seen
        cases seen

theorem Counted.recount {held held' : List Holding} {page : SharedPage} {references : Int}
    (counted : Counted held view) (here : view key = some page)
    (same : references = toSigned ((holders key held' : Int) - 1))
    (others : ∀ other, key ≠ other → holders other held' = holders other held)
    (known : ∀ h ∈ held', h ∈ held ∨ (h.key = key ∧ h.page = page.add)) :
    Counted held' (Function.update view key (some { page with references := references })) := by
  constructor
  · intro other p seen
    rw [Function.update_apply] at seen
    split at seen
    · next equal =>
      rw [Option.some.injEq] at seen
      rw [← seen, equal]
      exact same
    · next differ =>
      rw [others other (Ne.symm differ)]
      exact counted.references other p seen
  · intro h member
    rw [Function.update_apply]
    rcases known h member with member | ⟨named, paged⟩
    · obtain ⟨p, seen, paged⟩ := counted.held h member
      split
      · next equal =>
        rw [equal, here, Option.some.injEq] at seen
        exact ⟨_, rfl, by rw [← paged, ← seen]⟩
      · exact ⟨p, seen, paged⟩
    · rw [if_pos named]
      exact ⟨_, rfl, paged.symm⟩

theorem SharedMemory.Linked.release {records : CString → Option Addr} {freed : Option Addr}
    (linked : s.Linked records view) (released : s.shmRelease (some key) = .ok (s', freed)) :
    ∃ page, view key = some page ∧
      freed = (if toSigned (page.references - 1) ≤ 0 then some page.add else none) ∧
      s'.Linked records (Function.update view key
        (some { page with references := toSigned (page.references - 1) })) ∧
      s'.kernel.nextBlock = s.kernel.nextBlock ∧
      ((freed = none ∧ s'.kernel.heap = s.kernel.heap) ∨
        (freed = some page.add ∧ s.kernel.heap page.add = some PAGE_SIZE ∧
          s'.kernel.heap = Function.update s.kernel.heap page.add none)) := by
  rw [SharedMemory.shmRelease] at released
  cases here : view key with
  | none =>
      rw [(linked.unknown here).2] at released
      cases released
  | some page =>
      obtain ⟨s₁, counted, linked₁, same⟩ := linked.unreference here
      rw [counted] at released
      refine ⟨page, rfl, ?_⟩
      dsimp only [bind, Except.bind] at released
      split at released
      · next unfreed =>
        cases released
        exact ⟨unfreed.symm, linked₁, by rw [same], .inl ⟨rfl, by rw [same]⟩⟩
      · next add last =>
        have paged : add = page.add := by
          split at last
          · exact (Option.some.inj last).symm
          · cases last
        subst paged
        rw [same, Kernel.memFree, if_neg (by decide)] at released
        by_cases held : s.kernel.heap page.add = some PAGE_SIZE
        · rw [if_pos held] at released
          cases released
          refine ⟨last.symm, linked₁.setKernel (by rw [same]) fun a above => ?_, rfl,
            .inr ⟨rfl, held, rfl⟩⟩
          dsimp only at above ⊢
          rw [Function.update_apply]
          split
          · rfl
          · exact linked.fresh a above
        · rw [if_neg held] at released
          cases released

theorem Counted.step (shares : s.Shares view) (counted : Counted (holdings past) view)
    (taken : s.step e = .ok (s', answer)) (disciplined : Disciplined past ⟨s, e, answer, s'⟩) :
    ∃ view', s'.Shares view' ∧ Counted (holdings (⟨s, e, answer, s'⟩ :: past)) view' := by
  obtain ⟨records, linked⟩ := shares
  obtain ⟨pid, c⟩ := e
  obtain ⟨afforded, owned⟩ := disciplined
  rw [SharedMemory.step] at taken
  cases c with
  | create key pageGranted recordGranted tableGranted =>
      rw [SharedMemory.call] at taken
      cases key with
      | none =>
          cases taken
          exact ⟨view, ⟨records, linked⟩, counted⟩
      | some key =>
          cases here : view key with
          | some page =>
              rw [linked.create_bound here] at taken
              cases taken
              exact ⟨view, ⟨records, linked⟩, counted⟩
          | none =>
              obtain ⟨s₁, created, shares₁, -⟩ := linked.create_new here afforded
              rw [created] at taken
              cases taken
              refine ⟨_, shares₁, ?_⟩
              have positive := Nat.ne_of_gt linked.positive
              change Counted (if s.kernel.nextBlock = 0 then holdings past
                else ⟨pid, key, s.kernel.nextBlock⟩ :: holdings past) _
              rw [if_neg positive]
              exact counted.create here
  | acquire key =>
      rw [SharedMemory.call] at taken
      cases key with
      | none => cases taken
      | some key =>
          cases here : view key with
          | none =>
              rw [(linked.unknown here).1] at taken
              cases taken
          | some page =>
              obtain ⟨s₁, acquired, linked₁, -⟩ := linked.acquire here
              rw [acquired] at taken
              cases taken
              refine ⟨_, ⟨records, linked₁⟩, ?_⟩
              change Counted (if page.add = 0 then holdings past
                else ⟨pid, key, page.add⟩ :: holdings past) _
              rw [if_neg (linked.pages key page here).1]
              refine counted.recount here ?_ (fun other apart => ?_) fun h member => ?_
              · rw [counted.references key page here, toSigned_add, holders_cons, if_pos rfl]
                congr 1
                omega
              · rw [holders_cons, if_neg apart]
                rfl
              · rcases List.mem_cons.mp member with rfl | member
                · exact .inr ⟨rfl, rfl⟩
                · exact .inl member
  | release key =>
      rw [SharedMemory.call] at taken
      cases key with
      | none => cases taken
      | some key =>
          cases released : s.shmRelease (some key) with
          | error fault =>
              rw [released] at taken
              cases taken
          | ok result =>
              obtain ⟨s₁, freed⟩ := result
              rw [released] at taken
              cases taken
              obtain ⟨page, here, -, linked₁, -⟩ := linked.release released
              have left := holders_without owned
              refine ⟨_, ⟨records, linked₁⟩, ?_⟩
              change Counted (without pid key (holdings past)) _
              refine counted.recount here ?_ (fun other apart => ?_)
                fun h member => .inl (mem_without member)
              · have one := left key
                rw [if_pos rfl] at one
                rw [counted.references key page here, sub_eq_add_neg, toSigned_add]
                congr 1
                dsimp only at one ⊢
                omega
              · have same := left other
                rw [if_neg apart] at same
                exact same

theorem sharing_counted (run : Sharing history s) (disciplined : Meets Disciplined history) :
    ∃ view, s.Shares view ∧ Counted (holdings history) view :=
  run.invariant (I := fun past s => ∃ view, s.Shares view ∧ Counted (holdings past) view)
    (fun _ configured => ⟨fun _ => none, configured.shares, ⟨nofun, nofun⟩⟩)
    (fun _ _ _ _ _ _ _ kept taken disciplined => by
      obtain ⟨view, shares, counted⟩ := kept
      exact counted.step shares taken disciplined) disciplined

def others (h : Holding) (held : List Holding) : Nat :=
  (without h.pid h.key held).countP fun other => other.page = h.page

/-- The release of a holding frees the page when it should, and only then, exactly when it
does not leave a single holding, nor so many that the counter has wrapped around. -/
theorem page_freed_with_last_holding (run : Sharing history s)
    (disciplined : Meets Disciplined history) (member : h ∈ holdings history) :
    FreesLast s h (without h.pid h.key (holdings history)) ↔
      others h (holdings history) = 0 ∨ 0 < toSigned (others h (holdings history) - 1) := by
  obtain ⟨view, ⟨records, linked⟩, counted⟩ := sharing_counted run disciplined
  obtain ⟨page, here, paged⟩ := counted.held h member
  obtain ⟨s₁, counting, -⟩ := linked.unreference here
  have sharing {other : Holding} (member : other ∈ holdings history) :
      other.page = h.page ↔ other.key = h.key := by
    obtain ⟨page', there, paged'⟩ := counted.held other member
    rw [← paged, ← paged']
    constructor
    · exact fun same => linked.distinct other.key h.key page' page there here same
    · intro same
      rw [same, here, Option.some.injEq] at there
      rw [there]
  have left : others h (holdings history) =
      holders h.key (without h.pid h.key (holdings history)) := by
    refine List.countP_congr fun other member => ?_
    rw [decide_eq_true_eq, decide_eq_true_eq]
    exact sharing (mem_without member)
  have last : (∀ other ∈ without h.pid h.key (holdings history), other.page ≠ h.page) ↔
      others h (holdings history) = 0 := by
    rw [others, List.countP_eq_zero]
    simp only [decide_eq_true_eq, ne_eq]
  have references : toSigned (page.references - 1) =
      toSigned ((others h (holdings history) : Int) - 1) := by
    have one := holders_without ⟨h, member, rfl, rfl⟩ h.key
    rw [if_pos rfl] at one
    rw [counted.references h.key page here, sub_eq_add_neg, toSigned_add, left]
    congr 1
    omega
  rw [references, paged] at counting
  rw [FreesLast, counting]
  constructor
  · rintro ⟨s', freed, same, unheld, -⟩
    cases same
    rcases Nat.eq_zero_or_pos (others h (holdings history)) with none | some
    · exact .inl none
    · refine .inr (Int.not_le.mp fun low => ?_)
      have all := unheld h.page (if_pos low)
      exact Nat.ne_of_gt some (last.mp all)
  · intro when
    refine ⟨_, _, rfl, fun add freed => ?_, fun unheld => ?_⟩
    · split at freed
      · next low =>
        cases freed
        rcases when with none | high
        · exact last.mpr none
        · exact absurd low (Int.not_le.mpr high)
      · cases freed
    · refine if_pos ?_
      rw [last.mp unheld]
      rw [toSigned_small (by decide) (by decide)]
      decide

/-- Three holders: the release by the creator leaves the page alone. -/
theorem page_freed_with_last_holding_three : ∃ history s,
    Sharing history s ∧ history.length = 3 ∧ FreesLast s ⟨1, default, 1⟩
      (without 1 default (holdings history)) := by
  obtain ⟨history, s, run, checked⟩ := reaches_run SharedMemory.step SharedMemory.initial_configured
    [⟨1, .create (some default) true true true⟩, ⟨2, .acquire (some default)⟩,
      ⟨3, .acquire (some default)⟩]
    (fun history _ => decide (history.length = 3) &&
      decide (Meets Disciplined history) && decide (⟨1, default, 1⟩ ∈ holdings history) &&
      decide (others ⟨1, default, 1⟩ (holdings history) = 2))
    (by decide +kernel)
  simp only [Bool.and_eq_true, decide_eq_true_eq] at checked
  obtain ⟨⟨⟨length, disciplined⟩, member⟩, left⟩ := checked
  refine ⟨history, s, run, length, (page_freed_with_last_holding run disciplined member).mpr ?_⟩
  rw [left, toSigned_small (by decide) (by decide)]
  exact .inr (by decide)

/-- The creator and another process hold the page. The release by one of them frees it. -/
theorem page_freed_while_held : ¬ ∀ history s, Sharing history s →
    Meets Disciplined history → ∀ h ∈ holdings history,
      FreesLast s h (without h.pid h.key (holdings history)) := by
  intro last
  obtain ⟨history, s, run, checked⟩ := reaches_run SharedMemory.step SharedMemory.initial_configured
    [⟨1, .create (some default) true true true⟩, ⟨2, .acquire (some default)⟩]
    (fun history s => decide (Meets Disciplined history) &&
      decide (holdings history = [⟨2, default, 1⟩, ⟨1, default, 1⟩]) &&
      match s.unreference (some default) with
      | .ok (_, freed) => decide (freed = some 1)
      | .error _ => false)
    (by decide +kernel)
  simp only [Bool.and_eq_true, decide_eq_true_eq] at checked
  obtain ⟨⟨disciplined, held⟩, freed⟩ := checked
  obtain ⟨s', page, counted, unheld, -⟩ := last history s run disciplined ⟨2, default, 1⟩
    (by rw [held]; decide)
  dsimp only at counted
  rw [counted] at freed
  rw [held] at unheld
  exact unheld 1 (of_decide_eq_true freed) ⟨1, default, 1⟩ (by decide) rfl

end IntelX86Kernel

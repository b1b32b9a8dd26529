import IntelX86Kernel.SharedUse

/-! Which page a key stands for in the course of a run, and when the calls agree. -/

namespace IntelX86Kernel

open Transition

abbrev KeyStep := Occurrence SharedMemory ShmCall ShmAnswer

abbrev Keyed (history : List KeyStep) (s : SharedMemory) : Prop :=
  Run SharedMemory.call SharedMemory.Configured history s

def ShmCall.key : ShmCall → Option CString
  | .create key .. | .acquire key | .release key => key

def boundPage (key : CString) : List KeyStep → Option Addr
  | [] => none
  | t :: past =>
      if t.event.key = some key then
        match t.event, t.outcome with
        | .create .., .page add => if add = 0 then boundPage key past else some add
        | .release _, .released (some _) => none
        | _, _ => boundPage key past
      else boundPage key past

def freedPages : List KeyStep → List Addr
  | [] => []
  | t :: past =>
      match t.outcome with
      | .released (some add) => add :: freedPages past
      | .released none | .page _ => freedPages past

def Freed (key : CString) (past : List KeyStep) : Prop :=
  ∃ t ∈ past, t.event = .release (some key) ∧ t.outcome ≠ .released none

instance (key : CString) (past : List KeyStep) : Decidable (Freed key past) :=
  inferInstanceAs (Decidable (∃ t ∈ past, _))

def Affords (_ : List KeyStep) (t : KeyStep) : Prop := t.before.Afforded t.event

instance (past : List KeyStep) (t : KeyStep) : Decidable (Affords past t) :=
  inferInstanceAs (Decidable (t.before.Afforded t.event))

/-- No page of the key has been freed, and unless the call creates one there is a page. -/
def Usable (past : List KeyStep) : ShmCall → Prop
  | .create (some key) .. => ¬ Freed key past
  | .acquire (some key) | .release (some key) => ¬ Freed key past ∧ boundPage key past ≠ none
  | .create none .. | .acquire none | .release none => True

instance (past : List KeyStep) : ∀ c, Decidable (Usable past c)
  | .create (some _) .. => inferInstanceAs (Decidable (¬ _))
  | .acquire (some _) | .release (some _) => inferInstanceAs (Decidable (_ ∧ _))
  | .create none .. | .acquire none | .release none => .isTrue trivial

/-- What the call does is what a map from keys to pages does. -/
def Conforms (past : List KeyStep) (s : SharedMemory) : ShmCall → Prop
  | .create (some key) pageGranted recordGranted tableGranted =>
      ∃ s' add, s.shmCreate (some key) pageGranted recordGranted tableGranted = .ok (s', add) ∧
        (boundPage key past = none → add ≠ 0 ∧ ∀ t ∈ past, t.outcome ≠ .page add) ∧
        (boundPage key past ≠ none → add = 0)
  | .acquire (some key) =>
      ∃ s', s.shmAcquire (some key) = .ok (s', (boundPage key past).getD 0)
  | .release (some key) =>
      ∃ s' freed, s.shmRelease (some key) = .ok (s', freed) ∧
        (boundPage key past = none → s' = s) ∧
        ∀ add, freed = some add → boundPage key past = some add ∧ add ∉ freedPages past
  | .create none .. | .acquire none | .release none => True

variable {history past : List KeyStep} {s s' : SharedMemory} {key other : CString} {c : ShmCall}
  {view : CString → Option SharedPage} {answer : ShmAnswer} {page : SharedPage}
  {records : CString → Option Addr}

structure Accounts (past : List KeyStep) (s : SharedMemory) (view : CString → Option SharedPage) :
    Prop where
  live : ∀ key, ¬ Freed key past → boundPage key past = (view key).map SharedPage.add ∧
    ∀ page, view key = some page → s.kernel.heap page.add = some PAGE_SIZE
  gone : ∀ key, Freed key past → boundPage key past = none ∧
    ∃ page, view key = some page ∧ s.kernel.heap page.add = none
  freed : ∀ add ∈ freedPages past, add < s.kernel.nextBlock ∧ s.kernel.heap add = none
  given : ∀ t ∈ past, ∀ add, t.outcome = .page add → add < s.kernel.nextBlock

theorem toSigned_step (z : Int) : z ≠ toSigned (z - 1) := by
  intro same
  have residue : toSigned (z - 1) % 2 ^ 32 = (z - 1) % 2 ^ 32 := Int.bmod_emod
  rw [← same] at residue
  omega

theorem SharedMemory.Linked.releases (linked : s.Linked records view) (here : view key = some page)
    (held : s.kernel.heap page.add = some PAGE_SIZE) :
    ∃ s' freed, s.shmRelease (some key) = .ok (s', freed) := by
  obtain ⟨s₁, counted, -, same⟩ := linked.unreference here
  rw [SharedMemory.shmRelease, counted]
  dsimp only [bind, Except.bind]
  by_cases last : toSigned (page.references - 1) ≤ 0
  · rw [if_pos last, same]
    dsimp only
    rw [Kernel.memFree, if_neg (by decide), if_pos held]
    exact ⟨_, _, rfl⟩
  · rw [if_neg last]
    exact ⟨_, _, rfl⟩

theorem freed_cons {t : KeyStep} (apart : t.event ≠ .release (some key) ∨ t.outcome = .released none) :
    Freed key (t :: past) ↔ Freed key past := by
  constructor
  · rintro ⟨u, member, event, outcome⟩
    rcases List.mem_cons.mp member with rfl | member
    · rcases apart with other | unfreed
      · exact absurd event other
      · exact absurd unfreed outcome
    · exact ⟨u, member, event, outcome⟩
  · rintro ⟨u, member, freed⟩
    exact ⟨u, List.mem_cons_of_mem t member, freed⟩

theorem Accounts.next {view' : CString → Option SharedPage} (accounts : Accounts past s view)
    (named : c.key = some key) (others : ∀ other, other ≠ key → view' other = view other)
    (heap : ∀ other page, other ≠ key → view other = some page →
      s'.kernel.heap page.add = s.kernel.heap page.add)
    (live : ¬ Freed key (⟨s, c, answer, s'⟩ :: past) →
      boundPage key (⟨s, c, answer, s'⟩ :: past) = (view' key).map SharedPage.add ∧
        ∀ page, view' key = some page → s'.kernel.heap page.add = some PAGE_SIZE)
    (gone : Freed key (⟨s, c, answer, s'⟩ :: past) →
      boundPage key (⟨s, c, answer, s'⟩ :: past) = none ∧
        ∃ page, view' key = some page ∧ s'.kernel.heap page.add = none)
    (freed : ∀ add ∈ freedPages (⟨s, c, answer, s'⟩ :: past),
      add < s'.kernel.nextBlock ∧ s'.kernel.heap add = none)
    (more : s.kernel.nextBlock ≤ s'.kernel.nextBlock)
    (given : ∀ add, answer = .page add → add < s'.kernel.nextBlock) :
    Accounts (⟨s, c, answer, s'⟩ :: past) s' view' := by
  have unbound {other : CString} (apart : other ≠ key) :
      boundPage other (⟨s, c, answer, s'⟩ :: past) = boundPage other past := by
    refine if_neg ?_
    change c.key ≠ some other
    rw [named]
    exact fun same => apart (Option.some.inj same).symm
  have unfreed {other : CString} (apart : other ≠ key) :
      Freed other (⟨s, c, answer, s'⟩ :: past) ↔ Freed other past := by
    refine freed_cons (.inl ?_)
    rintro same
    change c = .release (some other) at same
    rw [same] at named
    exact apart (Option.some.inj named)
  refine ⟨fun other => ?_, fun other => ?_, freed, fun t member add outcome => ?_⟩
  · by_cases apart : other = key
    · rw [apart]
      exact live
    · intro kept
      rw [unfreed apart] at kept
      obtain ⟨bound, held⟩ := accounts.live other kept
      rw [unbound apart, others other apart]
      refine ⟨bound, fun page seen => ?_⟩
      rw [heap other page apart seen]
      exact held page seen
  · by_cases apart : other = key
    · rw [apart]
      exact gone
    · intro lost
      rw [unfreed apart] at lost
      obtain ⟨bound, page, seen, free⟩ := accounts.gone other lost
      rw [unbound apart, others other apart]
      refine ⟨bound, page, seen, ?_⟩
      rw [heap other page apart seen]
      exact free
  · rcases List.mem_cons.mp member with rfl | member
    · exact given add outcome
    · exact Nat.lt_of_lt_of_le (accounts.given t member add outcome) more

variable {pageGranted recordGranted tableGranted : Bool} {add : Addr}

theorem boundPage_create :
    boundPage key (⟨s, .create (some key) pageGranted recordGranted tableGranted, .page add, s'⟩ ::
      past) = if add = 0 then boundPage key past else some add :=
  if_pos rfl

theorem boundPage_acquire :
    boundPage key (⟨s, .acquire (some key), answer, s'⟩ :: past) = boundPage key past :=
  if_pos rfl

theorem boundPage_release {freed : Option Addr} :
    boundPage key (⟨s, .release (some key), .released freed, s'⟩ :: past) =
      if freed = none then boundPage key past else none := by
  cases freed with
  | none => exact if_pos rfl
  | some add => exact if_pos rfl

def Carries (past : List KeyStep) (s : SharedMemory) (c : ShmCall) : Prop :=
  Conforms past s c ∧ ∃ s' answer view', s.call c = .ok (s', answer) ∧ s'.Shares view' ∧
    Accounts (⟨s, c, answer, s'⟩ :: past) s' view'

theorem Accounts.create (accounts : Accounts past s view) (linked : s.Linked records view)
    (kept : ¬ Freed key past)
    (afforded : s.Afforded (.create (some key) pageGranted recordGranted tableGranted)) :
    Carries past s (.create (some key) pageGranted recordGranted tableGranted) := by
  obtain ⟨bound, held⟩ := accounts.live key kept
  have unfreed {answer : ShmAnswer} {s' : SharedMemory} : ¬ Freed key
      (⟨s, .create (some key) pageGranted recordGranted tableGranted, answer, s'⟩ :: past) :=
    fun lost => kept ((freed_cons (.inl (by simp))).mp lost)
  have old {add : Addr} (member : add ∈ freedPages past) :
      add ≠ s.kernel.nextBlock ∧ add ≠ s.kernel.nextBlock + 1 := by
    have below := (accounts.freed add member).1
    exact ⟨Nat.ne_of_lt below, Nat.ne_of_lt (Nat.lt_succ_of_lt below)⟩
  cases here : view key with
  | some page =>
      have made := linked.create_bound here pageGranted recordGranted tableGranted
      rw [here] at bound
      refine ⟨⟨s, 0, made, fun none => ?_, fun _ => rfl⟩, s, .page 0, view, ?_,
        ⟨records, linked⟩, accounts.next rfl (fun _ _ => rfl) (fun _ _ _ _ => rfl)
          (fun _ => ⟨?_, held⟩) (fun lost => absurd lost unfreed) accounts.freed (Nat.le_refl _) ?_⟩
      · rw [bound] at none
        cases none
      · rw [SharedMemory.call, made]
        rfl
      · rw [boundPage_create, if_pos rfl, here]
        exact bound
      · intro add same
        cases same
        exact linked.positive
  | none =>
      obtain ⟨s', made, shares, next, heap⟩ := linked.create_new here afforded
      rw [here] at bound
      have nonzero := Nat.ne_of_gt linked.positive
      refine ⟨⟨s', s.kernel.nextBlock, made, fun _ => ⟨nonzero, fun t member same => ?_⟩,
        fun some => absurd bound some⟩, s', .page s.kernel.nextBlock, _, ?_, shares,
        accounts.next rfl (fun other apart => Function.update_of_ne apart _ _)
          (fun other page apart seen => ?_) (fun _ => ⟨?_, fun page seen => ?_⟩)
          (fun lost => absurd lost unfreed) (fun add member => ?_) ?_ ?_⟩
      · exact Nat.lt_irrefl _ (accounts.given t member _ same)
      · rw [SharedMemory.call, made]
        rfl
      · have below := (linked.pages other page seen).2
        rw [heap, Function.update_of_ne, Function.update_of_ne]
        · exact Nat.ne_of_lt below
        · exact Nat.ne_of_lt (Nat.lt_succ_of_lt below)
      · rw [boundPage_create, if_neg nonzero, Function.update_self]
        rfl
      · rw [Function.update_self, Option.some.injEq] at seen
        rw [← seen, heap, Function.update_of_ne (Nat.ne_of_lt (Nat.lt_succ_self _)),
          Function.update_self]
      · change add ∈ freedPages past at member
        obtain ⟨below, free⟩ := accounts.freed add member
        rw [next, heap, Function.update_of_ne (old member).2, Function.update_of_ne (old member).1]
        exact ⟨Nat.lt_add_right 2 below, free⟩
      · rw [next]
        exact Nat.le_add_right _ 2
      · intro add same
        cases same
        rw [next]
        exact Nat.lt_add_of_pos_right Nat.two_pos

theorem Accounts.acquire (accounts : Accounts past s view) (linked : s.Linked records view)
    (kept : ¬ Freed key past) (created : boundPage key past ≠ none) :
    Carries past s (.acquire (some key)) := by
  obtain ⟨bound, held⟩ := accounts.live key kept
  have unfreed {answer : ShmAnswer} {s' : SharedMemory} : ¬ Freed key
      (⟨s, .acquire (some key), answer, s'⟩ :: past) :=
    fun lost => kept ((freed_cons (.inl (by simp))).mp lost)
  cases here : view key with
  | none =>
      rw [here] at bound
      exact absurd bound created
  | some page =>
      rw [here] at bound
      obtain ⟨s', acquired, linked', same⟩ := linked.acquire here
      refine ⟨⟨s', ?_⟩, s', .page page.add, _, ?_, ⟨records, linked'⟩,
        accounts.next rfl (fun other apart => Function.update_of_ne apart _ _)
          (fun _ _ _ _ => by rw [same]) (fun _ => ⟨?_, fun p seen => ?_⟩)
          (fun lost => absurd lost unfreed) ?_ ?_ ?_⟩
      · rw [bound]
        exact acquired
      · rw [SharedMemory.call, acquired]
        rfl
      · rw [boundPage_acquire, Function.update_self]
        exact bound
      · rw [Function.update_self, Option.some.injEq] at seen
        rw [← seen, same]
        exact held page here
      · rw [same]
        exact accounts.freed
      · rw [same]
      · intro add given
        cases given
        rw [same]
        exact (linked.pages key page here).2

theorem Accounts.release (accounts : Accounts past s view) (linked : s.Linked records view)
    (kept : ¬ Freed key past) (created : boundPage key past ≠ none) :
    Carries past s (.release (some key)) := by
  obtain ⟨bound, held⟩ := accounts.live key kept
  cases here : view key with
  | none =>
      rw [here] at bound
      exact absurd bound created
  | some page =>
      rw [here] at bound
      obtain ⟨s', freed, released⟩ := linked.releases here (held page here)
      obtain ⟨page', here', -, linked', next, heaps⟩ := linked.release released
      rw [here, Option.some.injEq] at here'
      subst here'
      have call : s.call (.release (some key)) = .ok (s', .released freed) := by
        rw [SharedMemory.call, released]
        rfl
      rcases heaps with ⟨unfreed, heap⟩ | ⟨freed', -, heap⟩
      · subst unfreed
        have still : ¬ Freed key (⟨s, .release (some key), .released none, s'⟩ :: past) :=
          fun lost => kept ((freed_cons (.inr rfl)).mp lost)
        refine ⟨⟨s', none, released, fun none => absurd none created, fun add none => by cases none⟩, s', _, _, call,
          ⟨records, linked'⟩, accounts.next rfl (fun other apart => Function.update_of_ne apart _ _)
            (fun _ _ _ _ => by rw [heap]) (fun _ => ⟨?_, fun p seen => ?_⟩)
            (fun lost => absurd lost still) ?_ (Nat.le_of_eq next.symm) (fun add given => by cases given)⟩
        · rw [boundPage_release, if_pos rfl, Function.update_self]
          exact bound
        · rw [Function.update_self, Option.some.injEq] at seen
          rw [← seen, heap]
          exact held page here
        · rw [next, heap]
          exact accounts.freed
      · subst freed'
        have lost : Freed key (⟨s, .release (some key), .released (some page.add), s'⟩ :: past) :=
          ⟨_, List.mem_cons_self, rfl, fun none => by cases none⟩
        have once : page.add ∉ freedPages past := by
          intro member
          have free := (accounts.freed page.add member).2
          rw [held page here] at free
          cases free
        refine ⟨⟨s', some page.add, released, fun none => absurd none created, fun add same => ?_⟩,
          s', _, _, call, ⟨records, linked'⟩,
          accounts.next rfl (fun other apart => Function.update_of_ne apart _ _)
            (fun other p apart seen => ?_) (fun still => absurd lost still)
            (fun _ => ⟨?_, _, Function.update_self _ _ _, ?_⟩) (fun add member => ?_)
            (Nat.le_of_eq next.symm) (fun add given => by cases given)⟩
        · rw [← Option.some.inj same]
          exact ⟨bound, once⟩
        · rw [heap, Function.update_of_ne]
          exact fun same => apart (linked.distinct other key p page seen here same)
        · rw [boundPage_release]
          exact if_neg fun same => by cases same
        · rw [heap]
          exact Function.update_self _ _ _
        · rw [next, heap]
          rcases List.mem_cons.mp member with rfl | member
          · exact ⟨(linked.pages key page here).2, Function.update_self _ _ _⟩
          · obtain ⟨below, free⟩ := accounts.freed add member
            refine ⟨below, ?_⟩
            rw [Function.update_apply, free, ite_self]

theorem Accounts.null (accounts : Accounts past s view) (linked : s.Linked records view) :
    Accounts (⟨s, .create none pageGranted recordGranted tableGranted, .page 0, s⟩ :: past) s
      view := by
  have unbound (key : CString) : boundPage key
      (⟨s, .create none pageGranted recordGranted tableGranted, .page 0, s⟩ :: past) =
        boundPage key past := if_neg nofun
  have unfreed (key : CString) : Freed key
      (⟨s, .create none pageGranted recordGranted tableGranted, .page 0, s⟩ :: past) ↔
        Freed key past := freed_cons (.inl (by simp))
  refine ⟨fun key kept => ?_, fun key lost => ?_, accounts.freed, fun t member add outcome => ?_⟩
  · rw [unbound]
    exact accounts.live key (fun lost => kept ((unfreed key).mpr lost))
  · rw [unbound]
    exact accounts.gone key ((unfreed key).mp lost)
  · rcases List.mem_cons.mp member with rfl | member
    · cases outcome
      exact linked.positive
    · exact accounts.given t member add outcome

theorem Accounts.carries (accounts : Accounts past s view) (linked : s.Linked records view)
    (usable : Usable past c) (afforded : s.Afforded c) (named : c.key = some key) :
    Carries past s c := by
  cases c with
  | create key' pageGranted recordGranted tableGranted =>
      change key' = some key at named
      subst named
      exact accounts.create linked usable afforded
  | acquire key' =>
      change key' = some key at named
      subst named
      exact accounts.acquire linked usable.1 usable.2
  | release key' =>
      change key' = some key at named
      subst named
      exact accounts.release linked usable.1 usable.2

theorem Accounts.freed_breaks (accounts : Accounts past s view) (linked : s.Linked records view)
    (lost : Freed key past) (named : c.key = some key) : ¬ Conforms past s c := by
  obtain ⟨unbound, page, here, -⟩ := accounts.gone key lost
  cases c with
  | create key' pageGranted recordGranted tableGranted =>
      change key' = some key at named
      subst named
      rintro ⟨s', add, made, fresh, -⟩
      rw [linked.create_bound here] at made
      cases made
      exact (fresh unbound).1 rfl
  | acquire key' =>
      change key' = some key at named
      subst named
      rintro ⟨s', acquired⟩
      obtain ⟨s₁, stale, -⟩ := linked.acquire here
      rw [stale, unbound, Except.ok.injEq, Prod.mk.injEq] at acquired
      exact (linked.pages key page here).1 acquired.2
  | release key' =>
      change key' = some key at named
      subst named
      rintro ⟨s', freed, released, same, -⟩
      obtain ⟨page', here', -, linked', -⟩ := linked.release released
      rw [same unbound] at linked'
      have counted := linked'.bound key
      rw [Function.update_self, ← linked.bound, here', Option.some.injEq] at counted
      exact toSigned_step page'.references (congrArg SharedPage.references counted).symm

theorem Accounts.unknown_breaks (accounts : Accounts past s view) (linked : s.Linked records view)
    (kept : ¬ Freed key past) (unbound : boundPage key past = none)
    (calls : c = .acquire (some key) ∨ c = .release (some key)) : ¬ Conforms past s c := by
  have none : view key = .none := by
    have bound := (accounts.live key kept).1
    rw [unbound] at bound
    exact Option.map_eq_none_iff.mp bound.symm
  obtain ⟨acquire, unreference⟩ := linked.unknown none
  rcases calls with rfl | rfl
  · rintro ⟨s', acquired⟩
    rw [acquire] at acquired
    cases acquired
  · rintro ⟨s', freed, released, -⟩
    rw [SharedMemory.shmRelease, unreference] at released
    cases released

theorem Accounts.conforms_iff (accounts : Accounts past s view) (linked : s.Linked records view)
    (afforded : s.Afforded c) : Conforms past s c ↔ Usable past c := by
  cases named : c.key with
  | none =>
      cases c <;> (change _ = none at named; subst named; exact Iff.rfl)
  | some key =>
      refine ⟨fun conforms => ?_, fun usable => (accounts.carries linked usable afforded named).1⟩
      have kept : ¬ Freed key past := fun lost => accounts.freed_breaks linked lost named conforms
      cases c with
      | create key' pageGranted recordGranted tableGranted =>
          change key' = some key at named
          subst named
          exact kept
      | acquire key' =>
          change key' = some key at named
          subst named
          exact ⟨kept, fun unbound =>
            accounts.unknown_breaks linked kept unbound (.inl rfl) conforms⟩
      | release key' =>
          change key' = some key at named
          subst named
          exact ⟨kept, fun unbound =>
            accounts.unknown_breaks linked kept unbound (.inr rfl) conforms⟩

def Uses (past : List KeyStep) (t : KeyStep) : Prop := Usable past t.event

instance (past : List KeyStep) (t : KeyStep) : Decidable (Uses past t) :=
  inferInstanceAs (Decidable (Usable past t.event))

def Conforming (past : List KeyStep) (t : KeyStep) : Prop := Conforms past t.before t.event

theorem keyed_accounts (run : Keyed history s) (affords : Meets Affords history)
    (uses : Meets Uses history) : ∃ view, s.Shares view ∧ Accounts history s view := by
  induction run with
  | start configured =>
      refine ⟨fun _ => none, configured.shares, ?_, ?_, ?_, ?_⟩
      · exact fun key kept => ⟨rfl, fun page seen => absurd seen.symm (Option.some_ne_none page)⟩
      · rintro key ⟨t, member, -⟩
        exact absurd member List.not_mem_nil
      · exact fun add member => absurd member List.not_mem_nil
      · exact fun t member => absurd member List.not_mem_nil
  | @next past s s' c answer run taken ih =>
      obtain ⟨view, ⟨records, linked⟩, accounts⟩ := ih affords.2 uses.2
      cases named : c.key with
      | none =>
          cases c with
          | create key pageGranted recordGranted tableGranted =>
              change key = none at named
              subst named
              cases taken
              exact ⟨view, ⟨records, linked⟩, accounts.null linked⟩
          | acquire key | release key =>
              change key = none at named
              subst named
              cases taken
      | some key =>
          obtain ⟨-, s₁, answer₁, view', called, shares, accounts'⟩ :=
            accounts.carries linked uses.1 affords.1 named
          rw [called] at taken
          cases taken
          exact ⟨view', shares, accounts'⟩

/-- Every call of a run does what a map from keys to pages does exactly when none of them is
about a key whose page has been freed, or acquires or releases under a key without a page;
and after such a run this holds of the next call. -/
theorem shared_keys_conform (run : Keyed history s) (affords : Meets Affords history) :
    (Meets Conforming history ↔ Meets Uses history) ∧
      (Meets Uses history → ∀ c, s.Afforded c → (Conforms history s c ↔ Usable history c)) := by
  have next {history : List KeyStep} {s : SharedMemory} (run : Keyed history s)
      (affords : Meets Affords history) (uses : Meets Uses history) {c : ShmCall}
      (afforded : s.Afforded c) : Conforms history s c ↔ Usable history c := by
    obtain ⟨view, ⟨records, linked⟩, accounts⟩ := keyed_accounts run affords uses
    exact accounts.conforms_iff linked afforded
  refine ⟨?_, fun uses c afforded => next run affords uses afforded⟩
  induction run with
  | start => exact Iff.rfl
  | @next past s s' c answer run taken ih =>
      rw [Meets, Meets, ih affords.2]
      refine and_congr_left fun uses => ?_
      exact next run affords.2 uses affords.1

/-- Two keys, one of whose pages is freed. -/
theorem shared_keys_conform_two : ∃ history s, Keyed history s ∧ history.length = 6 ∧
    freedPages history = [3] ∧ Meets Conforming history := by
  let other : CString := ⟨[97, 98], by decide⟩
  obtain ⟨history, s, run, checked⟩ := reaches_run SharedMemory.call SharedMemory.initial_configured
    [.create (some default) true true true, .acquire (some default),
      .acquire (some default), .create (some other) true true true, .release (some default),
      .release (some other)]
    (fun history _ => decide (history.length = 6) && decide (freedPages history = [3]) &&
      decide (Meets Affords history) && decide (Meets Uses history))
    (by decide +kernel)
  simp only [Bool.and_eq_true, decide_eq_true_eq] at checked
  obtain ⟨⟨⟨length, freed⟩, affords⟩, uses⟩ := checked
  exact ⟨history, s, run, length, freed, (shared_keys_conform run affords).1.mpr uses⟩

/-- The key stays bound to the page that its last release has freed: it cannot be created
again. -/
theorem freed_key_stays_bound : ¬ ∀ history s, Keyed history s → Meets Affords history →
    ∀ c, s.Afforded c → Conforms history s c := by
  intro conforms
  obtain ⟨history, s, run, checked⟩ := reaches_run SharedMemory.call SharedMemory.initial_configured
    [.create (some default) true true true, .release (some default)]
    (fun history s => decide (Meets Affords history) &&
      decide (s.Afforded (.create (some default) true true true)) &&
      decide (boundPage default history = none) &&
      match s.shmCreate (some default) true true true with
      | .ok (_, add) => decide (add = 0)
      | .error _ => false)
    (by decide +kernel)
  simp only [Bool.and_eq_true, decide_eq_true_eq] at checked
  obtain ⟨⟨⟨affords, afforded⟩, unbound⟩, null⟩ := checked
  obtain ⟨s', add, made, fresh, -⟩ := conforms history s run affords _ afforded
  rw [made] at null
  exact (fresh unbound).1 (of_decide_eq_true null)

end IntelX86Kernel

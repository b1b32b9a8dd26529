import IntelX86Kernel.System

/-! Families of processes: who is whose child, who has ended, who waits for whom.

Lists, priorities and the election are left out. A deed is what one step of a process
does to the families; burying is what `scheduling` does to them. -/

namespace IntelX86Kernel

/-- How far a process is in its life. -/
inductive Phase where
  | alive | blocked | zombie | dying
  deriving DecidableEq

def Status.phase : Status → Phase
  | .elected | .ready | .blockedMessageQueue | .asleep => .alive
  | .blocked => .blocked
  | .zombie => .zombie
  | .dying => .dying

theorem Status.phase_zombie {s : Status} : s.phase = .zombie ↔ s = .zombie := by
  cases s <;> simp [Status.phase]

theorem Status.phase_blocked {s : Status} : s.phase = .blocked ↔ s = .blocked := by
  cases s <;> simp [Status.phase]

theorem Status.phase_dying {s : Status} : s.phase = .dying ↔ s = .dying := by
  cases s <;> simp [Status.phase]

structure Member where
  pid : Nat
  phase : Phase
  context : Frame
  parent : Option Addr
  children : List Addr
  siblings : Option Addr
  retval : Int
  killed : Bool

def Proc.member (p : Proc) : Member where
  pid := p.pid
  phase := p.status.phase
  context := p.context
  parent := p.parent
  children := p.childrenList
  siblings := p.siblings
  retval := p.retval
  killed := p.killed

abbrev Family := Addr → Option Member

def Kernel.family (k : Kernel) : Family := fun a => (k.procs a).map Proc.member

namespace Member

def Living (m : Member) : Prop := m.phase = .alive ∨ m.phase = .blocked

/-- A child whose parent has ended: a ZOMBIE is given up, any other gets a new parent. -/
def orphan (heir : Option Addr) (m : Member) : Member :=
  { m with
    siblings := none
    phase := if m.phase = .zombie then .dying else m.phase
    parent := if m.phase = .zombie then m.parent else heir }

def saved (n : Next) (m : Member) : Member :=
  { m with
    context := match n with
      | .ret _ _ => .user
      | .suspend context => context }

def verdict (m : Member) : Int := if m.killed then 0 else m.retval

theorem Living.of_orphan {heir : Option Addr} {m : Member} (living : (m.orphan heir).Living) :
    m.Living ∧ (m.orphan heir).phase = m.phase ∧ (m.orphan heir).parent = heir := by
  by_cases ended : m.phase = .zombie
  · rcases living with phase | phase <;> simp [orphan, ended] at phase
  · rw [Living] at living
    simp only [orphan, ended, if_false] at living ⊢
    exact ⟨living, trivial, trivial⟩

theorem living {m : Member} (running : m.phase ≠ .zombie) (kept : m.phase ≠ .dying) :
    m.Living := by
  cases phase : m.phase with
  | alive => exact .inl phase
  | blocked => exact .inr phase
  | zombie => exact absurd phase running
  | dying => exact absurd phase kept

theorem Living.not_zombie {m : Member} (living : m.Living) : m.phase ≠ .zombie := by
  rcases living with phase | phase <;> rw [phase] <;> nofun

theorem Living.not_dying {m : Member} (living : m.Living) : m.phase ≠ .dying := by
  rcases living with phase | phase <;> rw [phase] <;> nofun

end Member

namespace Family

variable (F : Family)

def edit (a : Addr) (f : Member → Member) : Family := Function.update F a ((F a).map f)

def children (a : Addr) : List Addr :=
  match F a with
  | some m => m.children
  | none => []

def conclude (c : Addr) (s : Phase) (heir : Option Addr) : Family := fun b =>
  if b = c then (F c).map fun m => { m with children := [], phase := s }
  else if b ∈ F.children c then (F b).map (Member.orphan heir)
  else F b

def disband (a : Addr) (heir : Option Addr) : Family := fun b =>
  if b = a then (F a).map fun m => { m with children := [] }
  else if b ∈ F.children a then (F b).map (Member.orphan heir)
  else F b

def dismiss (c parent : Addr) : Family := fun b => (F b).map fun m =>
  { m with
    children := if b = parent then m.children.erase c else m.children
    siblings := if b = c then none else m.siblings
    phase := if b = c then .dying else m.phase }

def rouse (b : Addr) : Family :=
  F.edit b fun m => { m with phase := if m.phase = .blocked then .alive else m.phase }

/-- `new` joins at `d`, and the children of its parent are then `placed`. -/
def adopt (d : Addr) (new : Member) (placed : List Addr) : Family := fun b =>
  if b = d then some new
  else (F b).map fun m =>
    { m with children := if new.parent = some b then placed else m.children }

def Buried (F F' : Family) : Prop :=
  ∀ a, F' a = F a ∨ F' a = none ∧ ∃ m, F a = some m ∧ m.phase = .dying

def ParentAlive (m : Member) : Prop :=
  ∃ b parent, m.parent = some b ∧ F b = some parent ∧ parent.pid ≠ 0

def ParentGone (m : Member) : Prop :=
  ∀ b, m.parent = some b → ∃ parent, F b = some parent ∧ parent.pid = 0

def Sentence (m : Member) (s : Phase) : Prop :=
  (s = .zombie ∧ F.ParentAlive m) ∨ (s = .dying ∧ F.ParentGone m)

variable {F} {F' : Family} {a b c d : Addr} {m mc : Member} {s : Phase} {heir : Option Addr}
  {f : Member → Member} {next : Addr}

theorem edit_apply : F.edit a f b = if b = a then (F a).map f else F b := by
  simp only [edit, Function.update_apply]

theorem edit_self (here : F a = some m) : F.edit a f a = some (f m) := by
  rw [edit_apply, if_pos rfl, here, Option.map_some]

theorem edit_other (other : b ≠ a) : F.edit a f b = F b := by
  rw [edit_apply, if_neg other]

theorem children_eq (here : F a = some m) : F.children a = m.children := by
  rw [children, here]

theorem of_edit {m' : Member} (there : F.edit a f b = some m') :
    ∃ m, F b = some m ∧ m' = if b = a then f m else m := by
  rw [edit_apply] at there
  split at there
  · next same =>
    obtain ⟨m, here, rfl⟩ := Option.map_eq_some_iff.mp there
    exact ⟨m, same ▸ here, (if_pos same).symm⟩
  · next other => exact ⟨m', there, (if_neg other).symm⟩

theorem of_conclude {m' : Member} (there : F.conclude c s heir b = some m') :
    ∃ m, F b = some m ∧
      ((b = c ∧ m' = { m with children := [], phase := s }) ∨
        (b ≠ c ∧ b ∈ F.children c ∧ m' = m.orphan heir) ∨
        (b ≠ c ∧ b ∉ F.children c ∧ m' = m)) := by
  rw [conclude] at there
  split at there
  · next same =>
    obtain ⟨m, here, rfl⟩ := Option.map_eq_some_iff.mp there
    exact ⟨m, same ▸ here, .inl ⟨same, rfl⟩⟩
  · next other =>
    split at there
    · next child =>
      obtain ⟨m, here, rfl⟩ := Option.map_eq_some_iff.mp there
      exact ⟨m, here, .inr (.inl ⟨other, child, rfl⟩)⟩
    · next stranger => exact ⟨m', there, .inr (.inr ⟨other, stranger, rfl⟩)⟩

theorem of_dismiss {m' : Member} (there : F.dismiss c d b = some m') :
    ∃ m, F b = some m ∧ m' = { m with
      children := if b = d then m.children.erase c else m.children
      siblings := if b = c then none else m.siblings
      phase := if b = c then .dying else m.phase } := by
  obtain ⟨m, here, rfl⟩ := Option.map_eq_some_iff.mp there
  exact ⟨m, here, rfl⟩

theorem of_adopt {m' new : Member} {placed : List Addr} (there : F.adopt d new placed b = some m') :
    (b = d ∧ m' = new) ∨ (b ≠ d ∧ ∃ m, F b = some m ∧
      m' = { m with children := if new.parent = some b then placed else m.children }) := by
  rw [adopt] at there
  split at there
  · next same => exact .inl ⟨same, (Option.some.inj there).symm⟩
  · next other =>
    obtain ⟨m, here, rfl⟩ := Option.map_eq_some_iff.mp there
    exact .inr ⟨other, m, here, rfl⟩

theorem disband_childless (here : F a = some m) (childless : m.children = []) :
    F.disband a heir = F := by
  funext b
  rw [disband, children_eq here, childless, if_neg List.not_mem_nil]
  split
  · next same =>
    rw [same, here, Option.map_some, ← childless]
  · rfl

theorem disband_last (here : F a = some m) (last : m.children.getLast? = some c)
    (nodup : m.children.Nodup) (apart : a ∉ m.children)
    (step : ∀ b, F' b = if b = c then (F b).map (Member.orphan heir)
      else if b = a then (F a).map fun m => { m with children := m.children.dropLast }
      else F b) :
    F' a = some { m with children := m.children.dropLast } ∧
      F'.disband a heir = F.disband a heir := by
  have split := List.dropLast_append_getLast? c last
  rw [← split] at nodup apart
  obtain ⟨-, -, alone⟩ := List.nodup_append.mp nodup
  have early : c ∉ m.children.dropLast := fun member => alone c member c (by simp) rfl
  have other : a ≠ c := fun equal => apart (by simp [equal])
  have left : F' a = some { m with children := m.children.dropLast } := by
    rw [step, if_neg other, if_pos rfl, here, Option.map_some]
  refine ⟨left, funext fun b => ?_⟩
  rw [disband, disband, children_eq left, children_eq here]
  by_cases self : b = a
  · rw [if_pos self, if_pos self, left, here, Option.map_some, Option.map_some]
  · rw [if_neg self, if_neg self, step]
    by_cases same : b = c
    · have member : b ∈ m.children := by
        rw [← split, same]
        simp
      rw [if_neg (same ▸ early), if_pos member, if_pos same]
    · have member : b ∈ m.children ↔ b ∈ m.children.dropLast := by
        conv_lhs => rw [← split]
        simp [same]
      simp only [member, if_neg same, if_neg self]

theorem edit_pid (same : ∀ m, (f m).pid = m.pid) :
    (F.edit a f b).map Member.pid = (F b).map Member.pid := by
  rw [edit_apply]
  split
  · next equal =>
    subst equal
    cases F b <;> simp [same]
  · rfl

theorem disband_pid : (F.disband a heir b).map Member.pid = (F b).map Member.pid := by
  rw [disband]
  split
  · next equal =>
    subst equal
    cases F b <;> rfl
  · split
    · cases F b <;> rfl
    · rfl

theorem conclude_eq : F.conclude c s heir =
    (F.disband c heir).edit c fun m => { m with phase := s } := by
  funext b
  rw [edit_apply, conclude, disband, disband, if_pos rfl, Option.map_map]
  split <;> rfl

theorem conclude_early : F.conclude c s heir =
    (F.edit c fun m => { m with phase := s }).disband c heir := by
  have same : (F.edit c fun m => { m with phase := s }).children c = F.children c := by
    rw [children, children, edit_apply, if_pos rfl]
    cases F c <;> rfl
  funext b
  rw [conclude, disband, same, edit_apply, edit_apply, if_pos rfl, Option.map_map]
  by_cases equal : b = c
  · rw [if_pos equal, if_pos equal]
    rfl
  · rw [if_neg equal, if_neg equal, if_neg equal]

theorem Buried.refl (F : Family) : Buried F F := fun _ => .inl rfl

theorem Buried.of_some (buried : Buried F F') (there : F' b = some m) : F b = some m := by
  rcases buried b with same | ⟨gone, -⟩
  · rw [← same, there]
  · rw [there] at gone
    cases gone

theorem Buried.stays (buried : Buried F F') (here : F b = some m) (phase : m.phase ≠ .dying) :
    F' b = some m := by
  rcases buried b with same | ⟨-, m', there, dying⟩
  · rw [same, here]
  · rw [here, Option.some.injEq] at there
    exact absurd (there ▸ dying) phase

/-- The structure of the families that every step keeps. `next` bounds the addresses in
use. Children of process 0 may be dead or gone. -/
structure Sound (F : Family) (next : Addr) : Prop where
  fresh : ∀ a, next ≤ a → F a = none
  elder : ∀ b m, F b = some m → ∀ c ∈ m.children, b < c ∧ c < next
  nodup : ∀ b m, F b = some m → m.children.Nodup
  owned : ∀ b m c mc, F b = some m → c ∈ m.children → F c = some mc →
    mc.parent = some b ∧ mc.siblings = some b
  listed : ∀ c mc b m, F c = some mc → mc.Living → mc.parent = some b → F b = some m →
    m.pid ≠ 0 → c ∈ m.children
  lasting : ∀ b m c, F b = some m → m.pid ≠ 0 → c ∈ m.children →
    ∃ mc, F c = some mc ∧ mc.phase ≠ .dying
  parents : ∀ c mc b, F c = some mc → mc.parent = some b → b < next

namespace Sound

theorem later {next' : Addr} (sound : F.Sound next) (later : next ≤ next') : F.Sound next' where
  fresh := fun a beyond => sound.fresh a (later.trans beyond)
  elder := fun b m here c child =>
    ⟨(sound.elder b m here c child).1, (sound.elder b m here c child).2.trans_le later⟩
  nodup := sound.nodup
  owned := sound.owned
  listed := sound.listed
  lasting := sound.lasting
  parents := fun c mc b there parent => (sound.parents c mc b there parent).trans_le later

theorem unique {m' : Member} (sound : F.Sound next) (here : F a = some m)
    (other : F b = some m') (first : c ∈ m.children) (second : c ∈ m'.children)
    (there : F c = some mc) : a = b := by
  have one := (sound.owned a m c mc here first there).2
  have two := (sound.owned b m' c mc other second there).2
  rw [one, Option.some.injEq] at two
  exact two

theorem not_own (sound : F.Sound next) (here : F a = some m) : a ∉ m.children :=
  fun child => Nat.lt_irrefl a (sound.elder a m here a child).1

theorem edit (sound : F.Sound next)
    (same : ∀ m, F a = some m → (f m).pid = m.pid ∧ (f m).parent = m.parent ∧
      (f m).children = m.children ∧ (f m).siblings = m.siblings ∧
      ((f m).Living → m.Living) ∧ ((f m).phase = .dying → m.phase = .dying)) :
    (F.edit a f).Sound next := by
  have back (b : Addr) (m' : Member) (there : F.edit a f b = some m') :
      ∃ m, F b = some m ∧ m'.pid = m.pid ∧ m'.parent = m.parent ∧ m'.children = m.children ∧
        m'.siblings = m.siblings ∧ (m'.Living → m.Living) ∧
        (m'.phase = .dying → m.phase = .dying) := by
    obtain ⟨m, here, rfl⟩ := of_edit there
    refine ⟨m, here, ?_⟩
    split
    · next equal => exact same m (equal ▸ here)
    · exact ⟨rfl, rfl, rfl, rfl, id, id⟩
  have forth (b : Addr) (m : Member) (here : F b = some m) : ∃ m', F.edit a f b = some m' := by
    rw [edit_apply]
    split
    · next equal => exact ⟨f m, by rw [← equal, here, Option.map_some]⟩
    · exact ⟨m, here⟩
  constructor
  · intro b beyond
    have absent := sound.fresh b beyond
    rw [edit_apply]
    split
    · next equal => rw [← equal, absent, Option.map_none]
    · exact absent
  · intro b m' there
    obtain ⟨m, here, -, -, children, -⟩ := back b m' there
    exact children ▸ sound.elder b m here
  · intro b m' there
    obtain ⟨m, here, -, -, children, -⟩ := back b m' there
    exact children ▸ sound.nodup b m here
  · intro b m' c mc' there child found
    obtain ⟨m, here, -, -, children, -⟩ := back b m' there
    obtain ⟨mc, held, -, parent, -, siblings, -⟩ := back c mc' found
    rw [parent, siblings]
    exact sound.owned b m c mc here (children ▸ child) held
  · intro c mc' b m' found living owner there other
    obtain ⟨m, here, pid, -, children, -⟩ := back b m' there
    obtain ⟨mc, held, -, parent, -, -, alive, -⟩ := back c mc' found
    rw [children]
    exact sound.listed c mc b m held (alive living) (parent ▸ owner) here (pid ▸ other)
  · intro b m' c there other child
    obtain ⟨m, here, pid, -, children, -⟩ := back b m' there
    obtain ⟨mc, held, phase⟩ := sound.lasting b m c here (pid ▸ other) (children ▸ child)
    obtain ⟨mc', found⟩ := forth c mc held
    obtain ⟨mc₁, again, -, -, -, -, -, dying⟩ := back c mc' found
    rw [held, Option.some.injEq] at again
    subst mc₁
    exact ⟨mc', found, fun dead => phase (dying dead)⟩
  · intro c mc' b found owner
    obtain ⟨mc, held, -, parent, -⟩ := back c mc' found
    exact sound.parents c mc b held (parent ▸ owner)

theorem conclude (sound : F.Sound next) (here : F c = some m)
    (sentence : F.Sentence m s)
    (zero : ∀ z, heir = some z → z < next ∧ ∀ mz, F z = some mz → mz.pid = 0) :
    (F.conclude c s heir).Sound next := by
  have back (b : Addr) (m' : Member) (there : F.conclude c s heir b = some m') :
      ∃ m, F b = some m ∧ m'.pid = m.pid ∧ ((b = c ∧ m'.children = []) ∨
        b ≠ c ∧ m'.children = m.children) := by
    obtain ⟨m, here, ⟨same, rfl⟩ | ⟨other, -, rfl⟩ | ⟨other, -, rfl⟩⟩ := of_conclude there
    · exact ⟨m, here, rfl, .inl ⟨same, rfl⟩⟩
    · exact ⟨m, here, rfl, .inr ⟨other, rfl⟩⟩
    · exact ⟨m', here, rfl, .inr ⟨other, rfl⟩⟩
  have stranger (b d : Addr) (m₁ md : Member) (owner : F b = some m₁) (other : b ≠ c)
      (child : d ∈ m₁.children) (there : F d = some md) : d ∉ F.children c := by
    intro both
    rw [children_eq here] at both
    exact other (sound.unique owner here child both there)
  constructor
  · intro b beyond
    have absent := sound.fresh b beyond
    have other : b ≠ c := by
      rintro rfl
      rw [here] at absent
      cases absent
    rw [Family.conclude, if_neg other, absent, Option.map_none, ite_self]
  · intro b m' there
    obtain ⟨m, before, -, ⟨-, children⟩ | ⟨-, children⟩⟩ := back b m' there
    · rw [children]
      exact fun d child => absurd child List.not_mem_nil
    · exact children ▸ sound.elder b m before
  · intro b m' there
    obtain ⟨m, before, -, ⟨-, children⟩ | ⟨-, children⟩⟩ := back b m' there
    · rw [children]
      exact List.nodup_nil
    · exact children ▸ sound.nodup b m before
  · intro b m' d md' there child found
    obtain ⟨m, before, -, ⟨-, children⟩ | ⟨other, children⟩⟩ := back b m' there
    · rw [children] at child
      cases child
    · rw [children] at child
      obtain ⟨md, held, ⟨-, rfl⟩ | ⟨-, both, -⟩ | ⟨-, -, rfl⟩⟩ := of_conclude found
      · exact sound.owned b m d md before child held
      · exact absurd both (stranger b d m md before other child held)
      · exact sound.owned b m d md' before child held
  · intro d md' b m' found living owner there pid
    obtain ⟨m₁, before, same, place⟩ := back b m' there
    rw [same] at pid
    obtain ⟨md, held, ⟨-, rfl⟩ | ⟨-, both, rfl⟩ | ⟨-, apart, rfl⟩⟩ := of_conclude found
    · rcases sentence with ⟨rfl, -⟩ | ⟨rfl, -⟩
      · exact absurd rfl living.not_zombie
      · exact absurd rfl living.not_dying
    · rw [living.of_orphan.2.2] at owner
      exact absurd ((zero b owner).2 m₁ before) pid
    · have child := sound.listed d md' b m₁ held living owner before pid
      rcases place with ⟨equal, -⟩ | ⟨-, children⟩
      · subst equal
        exact absurd (children_eq before ▸ child) apart
      · exact children ▸ child
  · intro b m' d there pid child
    obtain ⟨m₁, before, same, ⟨-, children⟩ | ⟨other, children⟩⟩ := back b m' there
    · rw [children] at child
      cases child
    · rw [children] at child
      rw [same] at pid
      obtain ⟨md, held, phase⟩ := sound.lasting b m₁ d before pid child
      by_cases equal : d = c
      · subst equal
        rw [here, Option.some.injEq] at held
        subst md
        refine ⟨{ m with children := [], phase := s }, ?_, ?_⟩
        · rw [Family.conclude, if_pos rfl, here, Option.map_some]
        · rcases sentence with ⟨rfl, -⟩ | ⟨-, gone⟩
          · exact fun equal => nomatch equal
          · have parent := (sound.owned b m₁ d m before child here).1
            obtain ⟨m₂, again, zero⟩ := gone b parent
            rw [before, Option.some.injEq] at again
            exact absurd (again ▸ zero) pid
      · refine ⟨md, ?_, phase⟩
        rw [Family.conclude, if_neg equal, if_neg (stranger b d m₁ md before other child held),
          held]
  · intro d md' b found owner
    obtain ⟨md, held, ⟨-, rfl⟩ | ⟨-, -, rfl⟩ | ⟨-, -, rfl⟩⟩ := of_conclude found
    · exact sound.parents d md b held owner
    · by_cases ended : md.phase = .zombie
      · simp only [Member.orphan, ended, if_true] at owner
        exact sound.parents d md b held owner
      · simp only [Member.orphan, ended, if_false] at owner
        exact (zero b owner).1
    · exact sound.parents d md' b held owner

theorem dismiss (sound : F.Sound next) (here : F a = some m) (child : c ∈ m.children)
    (there : F c = some mc) : (F.dismiss c a).Sound next := by
  have kept (b : Addr) (mb : Member) (held : F b = some mb) (d : Addr)
      (found : d ∈ (if b = a then mb.children.erase c else mb.children)) :
      d ≠ c ∧ d ∈ mb.children := by
    split at found
    · next same =>
      subst same
      rw [here, Option.some.injEq] at held
      subst mb
      exact ((sound.nodup b m here).mem_erase_iff).mp found
    · next other =>
      refine ⟨?_, found⟩
      rintro rfl
      exact other (sound.unique held here found child there)
  constructor
  · intro b beyond
    rw [Family.dismiss, sound.fresh b beyond, Option.map_none]
  · intro b m' found d grand
    obtain ⟨mb, held, rfl⟩ := of_dismiss found
    exact sound.elder b mb held d (kept b mb held d grand).2
  · intro b m' found
    obtain ⟨mb, held, rfl⟩ := of_dismiss found
    have nodup := sound.nodup b mb held
    dsimp only
    split
    · exact nodup.erase c
    · exact nodup
  · intro b m' d md' found grand found'
    obtain ⟨mb, held, rfl⟩ := of_dismiss found
    obtain ⟨md, held', rfl⟩ := of_dismiss found'
    obtain ⟨other, grand⟩ := kept b mb held d grand
    obtain ⟨parent, siblings⟩ := sound.owned b mb d md held grand held'
    exact ⟨parent, (if_neg other).trans siblings⟩
  · intro d md' b m' found' living owner found pid
    obtain ⟨mb, held, rfl⟩ := of_dismiss found
    obtain ⟨md, held', rfl⟩ := of_dismiss found'
    have other : d ≠ c := by
      rintro rfl
      exact living.not_dying (if_pos rfl)
    rw [Member.Living] at living
    dsimp only at living owner
    rw [if_neg other] at living
    have grand := sound.listed d md b mb held' living owner held pid
    dsimp only
    split
    · exact (List.mem_erase_of_ne other).mpr grand
    · exact grand
  · intro b m' d found pid grand
    obtain ⟨mb, held, rfl⟩ := of_dismiss found
    obtain ⟨other, grand⟩ := kept b mb held d grand
    obtain ⟨md, held', phase⟩ := sound.lasting b mb d held pid grand
    refine ⟨_, (congrArg (Option.map _) held' : F.dismiss c a d = _), ?_⟩
    dsimp only
    rw [if_neg other]
    exact phase
  · intro d md' b found owner
    obtain ⟨md, held, rfl⟩ := of_dismiss found
    exact sound.parents d md b held owner

theorem adopt {next' : Addr} {new : Member} {placed : List Addr} (sound : F.Sound next)
    (later : next < next') (siblings : new.siblings = new.parent) (childless : new.children = [])
    (phase : new.phase = .alive)
    (joined : ∀ b, new.parent = some b → ∃ m, F b = some m ∧ placed.Perm (next :: m.children)) :
    (F.adopt next new placed).Sound next' := by
  have old (b : Addr) (m : Member) (here : F b = some m) : b < next := by
    by_contra beyond
    rw [sound.fresh b (Nat.not_lt.mp beyond)] at here
    cases here
  have kept (b : Addr) (m : Member) (here : F b = some m) (d : Addr) :
      d ∈ (if new.parent = some b then placed else m.children) ↔
        (d = next ∧ new.parent = some b) ∨ d ∈ m.children := by
    split
    · next parent =>
      obtain ⟨m', again, perm⟩ := joined b parent
      rw [here, Option.some.injEq] at again
      subst m'
      rw [perm.mem_iff, List.mem_cons]
      simp [parent]
    · next apart => simp [apart]
  constructor
  · intro b beyond
    have other : b ≠ next := Nat.ne_of_gt (later.trans_le beyond)
    rw [Family.adopt, if_neg other, sound.fresh b (later.le.trans beyond), Option.map_none]
  · intro b m' found d child
    rcases of_adopt found with ⟨-, rfl⟩ | ⟨-, m, here, rfl⟩
    · rw [childless] at child
      cases child
    · rcases (kept b m here d).mp child with ⟨rfl, -⟩ | child
      · exact ⟨old b m here, later⟩
      · obtain ⟨younger, used⟩ := sound.elder b m here d child
        exact ⟨younger, used.trans later⟩
  · intro b m' found
    rcases of_adopt found with ⟨-, rfl⟩ | ⟨-, m, here, rfl⟩
    · rw [childless]
      exact List.nodup_nil
    · have nodup := sound.nodup b m here
      dsimp only
      split
      · next parent =>
        obtain ⟨m', again, perm⟩ := joined b parent
        rw [here, Option.some.injEq] at again
        subst m'
        refine perm.nodup_iff.mpr (List.nodup_cons.mpr ⟨fun child => ?_, nodup⟩)
        exact Nat.lt_irrefl next (sound.elder b m here next child).2
      · exact nodup
  · intro b m' d md' found child found'
    rcases of_adopt found with ⟨-, rfl⟩ | ⟨-, m, here, rfl⟩
    · rw [childless] at child
      cases child
    · rcases of_adopt found' with ⟨rfl, rfl⟩ | ⟨other, md, there, rfl⟩
      · rcases (kept b m here d).mp child with ⟨-, parent⟩ | child
        · exact ⟨parent, siblings.trans parent⟩
        · exact absurd (sound.elder b m here d child).2 (Nat.lt_irrefl d)
      · rcases (kept b m here d).mp child with ⟨equal, -⟩ | child
        · exact absurd equal other
        · exact sound.owned b m d md here child there
  · intro d md' b m' found' living owner found pid
    rcases of_adopt found with ⟨rfl, rfl⟩ | ⟨-, m, here, rfl⟩
    · rcases of_adopt found' with ⟨-, rfl⟩ | ⟨-, md, there, rfl⟩
      · obtain ⟨m, here, -⟩ := joined b owner
        exact absurd (old b m here) (Nat.lt_irrefl b)
      · exact absurd (sound.parents d md b there owner) (Nat.lt_irrefl b)
    · rcases of_adopt found' with ⟨rfl, rfl⟩ | ⟨-, md, there, rfl⟩
      · exact (kept b m here d).mpr (.inl ⟨rfl, owner⟩)
      · exact (kept b m here d).mpr (.inr (sound.listed d md b m there living owner here pid))
  · intro b m' d found pid child
    rcases of_adopt found with ⟨-, rfl⟩ | ⟨-, m, here, rfl⟩
    · rw [childless] at child
      cases child
    · rcases (kept b m here d).mp child with ⟨rfl, -⟩ | child
      · exact ⟨new, if_pos rfl, fun dying => by rw [phase] at dying; cases dying⟩
      · obtain ⟨md, held, phase⟩ := sound.lasting b m d here pid child
        have other : d ≠ next := Nat.ne_of_lt (old d md held)
        refine ⟨_, (if_neg other).trans (congrArg (Option.map _) held), phase⟩
  · intro d md' b found owner
    rcases of_adopt found with ⟨-, rfl⟩ | ⟨-, md, there, rfl⟩
    · obtain ⟨m, here, -⟩ := joined b owner
      exact (old b m here).trans later
    · exact (sound.parents d md b there owner).trans later

theorem buried (sound : F.Sound next) (buried : Buried F F') : F'.Sound next where
  fresh := by
    intro b beyond
    rcases buried b with same | ⟨gone, -⟩
    · rw [same, sound.fresh b beyond]
    · exact gone
  elder := fun b m there => sound.elder b m (buried.of_some there)
  nodup := fun b m there => sound.nodup b m (buried.of_some there)
  owned := fun b m c mc there child found =>
    sound.owned b m c mc (buried.of_some there) child (buried.of_some found)
  listed := fun c mc b m found living owner there pid =>
    sound.listed c mc b m (buried.of_some found) living owner (buried.of_some there) pid
  lasting := by
    intro b m c there pid child
    obtain ⟨mc, held, phase⟩ := sound.lasting b m c (buried.of_some there) pid child
    exact ⟨mc, buried.stays held phase, phase⟩
  parents := fun c mc b found owner => sound.parents c mc b (buried.of_some found) owner

end Sound

end Family

end IntelX86Kernel

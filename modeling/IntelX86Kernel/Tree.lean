import IntelX86Kernel.Lineage

/-! The tree of the processes: who is held by a parent, and who is not. -/

namespace IntelX86Kernel

namespace Family

variable {F G : Family} {a b c d : Addr} {m m' mb mc : Member} {heir : Option Addr} {s : Phase}
  {next next' : Addr} {pid : Nat} {f : Member → Member}

/-- Process `b`, of number `pid`, has not ended and has `c` among its children. -/
def Attached (F : Family) (c b : Addr) (pid : Nat) : Prop :=
  ∃ mb, F b = some mb ∧ mb.pid = pid ∧ mb.Living ∧ c ∈ mb.children

theorem Attached.edit (attached : F.Attached c b pid)
    (same : ∀ m, F a = some m → (f m).pid = m.pid ∧ (f m).children = m.children ∧
      (m.Living → (f m).Living)) : (F.edit a f).Attached c b pid := by
  obtain ⟨mb, here, named, living, child⟩ := attached
  by_cases equal : b = a
  · subst equal
    obtain ⟨pid', children, alive⟩ := same mb here
    exact ⟨f mb, edit_self here, pid'.trans named, alive living, children ▸ child⟩
  · exact ⟨mb, (edit_other equal).trans here, named, living, child⟩

theorem Attached.conclude (attached : F.Attached c b pid) (other : b ≠ d) :
    (F.conclude d s heir).Attached c b pid := by
  obtain ⟨mb, here, named, living, child⟩ := attached
  by_cases grand : b ∈ F.children d
  · refine ⟨mb.orphan heir, ?_, named, ?_, child⟩
    · rw [Family.conclude, if_neg other, if_pos grand, here, Option.map_some]
    · rw [Member.Living, Member.orphan, if_neg living.not_zombie]
      exact living
  · refine ⟨mb, ?_, named, living, child⟩
    rw [Family.conclude, if_neg other, if_neg grand, here]

theorem Attached.dismiss (attached : F.Attached c b pid) (other : c ≠ d) (alive : b ≠ d) :
    (F.dismiss d a).Attached c b pid := by
  obtain ⟨mb, here, named, living, child⟩ := attached
  refine ⟨_, congrArg (Option.map _) here, named, ?_, ?_⟩
  · rw [Member.Living]
    dsimp only
    rw [if_neg alive]
    exact living
  · dsimp only
    split
    · exact (List.mem_erase_of_ne other).mpr child
    · exact child

theorem Attached.adopt {new : Member} {placed : List Addr} (attached : F.Attached c b pid)
    (fresh : F d = none)
    (joined : ∀ b, new.parent = some b → ∃ m, F b = some m ∧ placed.Perm (d :: m.children)) :
    (F.adopt d new placed).Attached c b pid := by
  obtain ⟨mb, here, named, living, child⟩ := attached
  have old : b ≠ d := by
    rintro rfl
    rw [fresh] at here
    cases here
  refine ⟨_, (if_neg old).trans (congrArg (Option.map _) here), named, living, ?_⟩
  dsimp only
  split
  · next parent =>
    obtain ⟨m, again, perm⟩ := joined b parent
    rw [here, Option.some.injEq] at again
    subst m
    exact perm.mem_iff.mpr (List.mem_cons_of_mem _ child)
  · exact child

theorem Attached.buried (attached : F.Attached c b pid) (buried : Buried F G) :
    G.Attached c b pid := by
  obtain ⟨mb, here, named, living, child⟩ := attached
  exact ⟨mb, buried.stays here living.not_dying, named, living, child⟩

/-- Every process that has not ended, but for process 0, is held by its parent. -/
def Rooted (F : Family) : Prop :=
  ∀ c mc, F c = some mc → mc.Living → mc.pid ≠ 0 →
    ∃ b pid, mc.parent = some b ∧ F.Attached c b pid

/-- Every child in a list is there, and not on its way out. -/
def Lasting (F : Family) : Prop :=
  ∀ b m c, F b = some m → c ∈ m.children → ∃ mc, F c = some mc ∧ mc.phase ≠ .dying

/-- A parent other than process 0 holds its children, and every ZOMBIE has such a parent. -/
structure Tended (F : Family) : Prop where
  guarded : ∀ c mc b mb, F c = some mc → mc.phase ≠ .dying → mc.parent = some b →
    F b = some mb → mb.pid ≠ 0 → F.Attached c b mb.pid
  reapable : ∀ c mc, F c = some mc → mc.phase = .zombie →
    ∃ b mb, mc.parent = some b ∧ F b = some mb ∧ mb.pid ≠ 0

def Mild (F : Family) (a : Addr) (f : Member → Member) : Prop :=
  ∀ m, F a = some m → (f m).pid = m.pid ∧ (f m).parent = m.parent ∧
    (f m).children = m.children ∧ ((f m).Living ↔ m.Living) ∧
    ((f m).phase = .dying ↔ m.phase = .dying) ∧ ((f m).phase = .zombie ↔ m.phase = .zombie)

theorem Mild.of_edit (mild : F.Mild a f) (there : F.edit a f b = some m') :
    ∃ m, F b = some m ∧ m'.pid = m.pid ∧ m'.parent = m.parent ∧ m'.children = m.children ∧
      (m'.Living ↔ m.Living) ∧ (m'.phase = .dying ↔ m.phase = .dying) ∧
      (m'.phase = .zombie ↔ m.phase = .zombie) := by
  obtain ⟨m, here, rfl⟩ := Family.of_edit there
  refine ⟨m, here, ?_⟩
  split
  · next equal => exact mild m (equal ▸ here)
  · exact ⟨rfl, rfl, rfl, .rfl, .rfl, .rfl⟩

theorem Mild.forth (mild : F.Mild a f) (here : F b = some m) :
    ∃ m', F.edit a f b = some m' ∧ (m'.phase = .dying ↔ m.phase = .dying) := by
  by_cases equal : b = a
  · subst equal
    exact ⟨f m, edit_self here, (mild m here).2.2.2.2.1⟩
  · exact ⟨m, (edit_other equal).trans here, .rfl⟩

theorem Mild.attached (mild : F.Mild a f) (attached : F.Attached c b pid) :
    (F.edit a f).Attached c b pid :=
  attached.edit fun m here => by
    obtain ⟨pid, -, children, living, -⟩ := mild m here
    exact ⟨pid, children, living.mpr⟩

theorem Rooted.edit (rooted : F.Rooted) (mild : F.Mild a f) : (F.edit a f).Rooted := by
  intro c mc' there living other
  obtain ⟨mc, here, pid, parent, -, alive, -⟩ := mild.of_edit there
  obtain ⟨b, number, owner, attached⟩ := rooted c mc here (alive.mp living) (pid ▸ other)
  exact ⟨b, number, parent.trans owner, mild.attached attached⟩

theorem Lasting.edit (lasting : F.Lasting) (mild : F.Mild a f) : (F.edit a f).Lasting := by
  intro b m' c there child
  obtain ⟨m, here, -, -, children, -⟩ := mild.of_edit there
  obtain ⟨mc, held, phase⟩ := lasting b m c here (children ▸ child)
  obtain ⟨mc', found, dying⟩ := mild.forth held
  exact ⟨mc', found, mt dying.mp phase⟩

theorem Tended.edit (tended : F.Tended) (mild : F.Mild a f) : (F.edit a f).Tended where
  guarded := by
    intro c mc' b mb' there phase owner found other
    obtain ⟨mc, here, -, parent, -, -, dying, -⟩ := mild.of_edit there
    obtain ⟨mb, held, pid, -⟩ := mild.of_edit found
    rw [pid] at other ⊢
    exact mild.attached (tended.guarded c mc b mb here (mt dying.mpr phase) (parent ▸ owner) held other)
  reapable := by
    intro c mc' there ended
    obtain ⟨mc, here, -, parent, -, -, -, zombie⟩ := mild.of_edit there
    obtain ⟨b, mb, owner, held, other⟩ := tended.reapable c mc here (zombie.mp ended)
    by_cases equal : b = a
    · subst equal
      exact ⟨b, f mb, parent.trans owner, edit_self held, (mild mb held).1 ▸ other⟩
    · exact ⟨b, mb, parent.trans owner, (edit_other equal).trans held, other⟩

theorem Rooted.conclude (rooted : F.Rooted) (here : F c = some mc)
    (dead : s = .zombie ∨ s = .dying)
    (ended : ∀ d ∈ mc.children, ∀ md, F d = some md → ¬ md.Living) :
    (F.conclude c s heir).Rooted := by
  intro d md' there living other
  have kept (md : Member) (held : F d = some md) (alive : md.Living) (pid : md.pid ≠ 0)
      (parent : md'.parent = md.parent) :
      ∃ b pid, md'.parent = some b ∧ (F.conclude c s heir).Attached d b pid := by
    obtain ⟨b, number, owner, attached⟩ := rooted d md held alive pid
    have apart : b ≠ c := by
      rintro rfl
      obtain ⟨mb, again, -, -, child⟩ := attached
      rw [here, Option.some.injEq] at again
      exact ended d (again ▸ child) md held alive
    exact ⟨b, number, parent.trans owner, attached.conclude apart⟩
  obtain ⟨md, held, ⟨-, rfl⟩ | ⟨-, grand, rfl⟩ | ⟨-, -, rfl⟩⟩ := of_conclude there
  · rcases dead with rfl | rfl
    · exact absurd rfl living.not_zombie
    · exact absurd rfl living.not_dying
  · rw [children_eq here] at grand
    exact absurd living.of_orphan.1 (ended d grand md held)
  · exact kept md' held living other rfl

theorem Lasting.conclude (lasting : F.Lasting) (sound : F.Sound next) (here : F c = some mc)
    (kept : s = .dying → ∀ b m, F b = some m → c ∉ m.children) :
    (F.conclude c s heir).Lasting := by
  intro b m' d there child
  have stays (m : Member) (held : F b = some m) (other : b ≠ c) (grand : d ∈ m.children) :
      ∃ md, F.conclude c s heir d = some md ∧ md.phase ≠ .dying := by
    obtain ⟨md, found, phase⟩ := lasting b m d held grand
    by_cases same : d = c
    · subst same
      refine ⟨{ mc with children := [], phase := s }, ?_, fun dying => kept dying b m held grand⟩
      rw [Family.conclude, if_pos rfl, here, Option.map_some]
    · refine ⟨md, ?_, phase⟩
      have stranger : d ∉ F.children c := by
        intro both
        rw [children_eq here] at both
        exact other (sound.unique held here grand both found)
      rw [Family.conclude, if_neg same, if_neg stranger, found]
  obtain ⟨m, held, ⟨-, rfl⟩ | ⟨other, -, rfl⟩ | ⟨other, -, rfl⟩⟩ := of_conclude there
  · cases child
  · exact stays m held other child
  · exact stays m' held other child

theorem Tended.conclude (tended : F.Tended) (sound : F.Sound next) (here : F c = some mc)
    (kept : s = .zombie → mc.phase ≠ .dying) (sentence : F.Sentence mc s)
    (zero : ∀ z, heir = some z → ∀ mz, F z = some mz → mz.pid = 0) :
    (F.conclude c s heir).Tended := by
  have back (b : Addr) (m' : Member) (there : F.conclude c s heir b = some m') :
      ∃ m, F b = some m ∧ m'.pid = m.pid := by
    obtain ⟨m, held, ⟨-, rfl⟩ | ⟨-, -, rfl⟩ | ⟨-, -, rfl⟩⟩ := of_conclude there
    · exact ⟨m, held, rfl⟩
    · exact ⟨m, held, rfl⟩
    · exact ⟨m', held, rfl⟩
  have forth (b : Addr) (m : Member) (held : F b = some m) :
      ∃ m', F.conclude c s heir b = some m' ∧ m'.pid = m.pid := by
    rw [Family.conclude]
    split
    · next same =>
      exact ⟨{ m with children := [], phase := s }, by rw [← same, held, Option.map_some], rfl⟩
    · split
      · exact ⟨m.orphan heir, by rw [held, Option.map_some], rfl⟩
      · exact ⟨m, held, rfl⟩
  have elsewhere (d b : Addr) (md mb : Member) (held : F d = some md)
      (phase : md.phase ≠ .dying) (owner : md.parent = some b) (found : F b = some mb)
      (other : mb.pid ≠ 0) (stranger : d = c ∨ d ∉ F.children c) :
      (F.conclude c s heir).Attached d b mb.pid := by
    have attached := tended.guarded d md b mb held phase owner found other
    refine attached.conclude ?_
    rintro rfl
    obtain ⟨mb', again, -, -, child⟩ := attached
    rw [here, Option.some.injEq] at again
    subst mb'
    rcases stranger with rfl | stranger
    · exact sound.not_own here child
    · exact stranger (children_eq here ▸ child)
  constructor
  · intro d md' b mb' there phase owner found other
    obtain ⟨mb, held', pid⟩ := back b mb' found
    rw [pid] at other ⊢
    obtain ⟨md, held, ⟨same, rfl⟩ | ⟨apart, grand, rfl⟩ | ⟨apart, stranger, rfl⟩⟩ :=
      of_conclude there
    · subst same
      rw [here, Option.some.injEq] at held
      subst md
      rcases sentence with ⟨ended, -⟩ | ⟨gone, -⟩
      · exact elsewhere d b mc mb here (kept ended) owner held' other (.inl rfl)
      · exact absurd gone phase
    · by_cases ended : md.phase = .zombie
      · simp [Member.orphan, ended] at phase
      · simp only [Member.orphan, if_neg ended] at owner
        exact absurd (zero b owner mb held') other
    · exact elsewhere d b md' mb held phase owner held' other (.inr stranger)
  · intro d md' there ended
    obtain ⟨md, held, ⟨same, rfl⟩ | ⟨apart, grand, rfl⟩ | ⟨apart, stranger, rfl⟩⟩ :=
      of_conclude there
    · subst same
      rw [here, Option.some.injEq] at held
      subst md
      rcases sentence with ⟨-, b, parent, owner, found, other⟩ | ⟨rfl, -⟩
      · obtain ⟨mb, found', pid⟩ := forth b parent found
        exact ⟨b, mb, owner, found', pid ▸ other⟩
      · cases ended
    · simp only [Member.orphan] at ended
      split at ended
      · cases ended
      · next running => exact absurd ended running
    · obtain ⟨b, mb, owner, found, other⟩ := tended.reapable d md' held ended
      obtain ⟨mb', found', pid⟩ := forth b mb found
      exact ⟨b, mb', owner, found', pid ▸ other⟩

theorem Rooted.dismiss (rooted : F.Rooted) (here : F c = some mc) (ended : mc.phase = .zombie) :
    (F.dismiss c a).Rooted := by
  intro d md' there living other
  obtain ⟨md, held, rfl⟩ := of_dismiss there
  have apart : d ≠ c := by
    rintro rfl
    exact living.not_dying (if_pos rfl)
  rw [Member.Living] at living
  dsimp only at living
  rw [if_neg apart] at living
  obtain ⟨b, number, owner, attached⟩ := rooted d md held living other
  refine ⟨b, number, owner, attached.dismiss apart ?_⟩
  rintro rfl
  obtain ⟨mb, again, -, alive, -⟩ := attached
  rw [here, Option.some.injEq] at again
  exact alive.not_zombie (again ▸ ended)

theorem Lasting.dismiss (lasting : F.Lasting) (sound : F.Sound next) (here : F a = some m)
    (child : c ∈ m.children) (there : F c = some mc) : (F.dismiss c a).Lasting := by
  intro b m' d found grand
  obtain ⟨mb, held, rfl⟩ := of_dismiss found
  have kept : d ≠ c ∧ d ∈ mb.children := by
    dsimp only at grand
    split at grand
    · exact ((sound.nodup b mb held).mem_erase_iff).mp grand
    · next other =>
      refine ⟨?_, grand⟩
      rintro rfl
      exact other (sound.unique held here grand child there)
  obtain ⟨md, found', phase⟩ := lasting b mb d held kept.2
  refine ⟨_, congrArg (Option.map _) found', ?_⟩
  dsimp only
  rw [if_neg kept.1]
  exact phase

theorem Tended.dismiss (tended : F.Tended) (here : F c = some mc) (ended : mc.phase = .zombie) :
    (F.dismiss c a).Tended where
  guarded := by
    intro d md' b mb' there phase owner found other
    obtain ⟨md, held, rfl⟩ := of_dismiss there
    obtain ⟨mb, held', rfl⟩ := of_dismiss found
    have apart : d ≠ c := by
      rintro rfl
      exact phase (if_pos rfl)
    dsimp only at phase
    rw [if_neg apart] at phase
    have attached := tended.guarded d md b mb held phase owner held' other
    refine attached.dismiss apart ?_
    rintro rfl
    obtain ⟨m, again, -, alive, -⟩ := attached
    rw [here, Option.some.injEq] at again
    exact alive.not_zombie (again ▸ ended)
  reapable := by
    intro d md' there zombie
    obtain ⟨md, held, rfl⟩ := of_dismiss there
    dsimp only at zombie
    split at zombie
    · cases zombie
    · obtain ⟨b, mb, owner, found, other⟩ := tended.reapable d md held zombie
      exact ⟨b, _, owner, congrArg (Option.map _) found, other⟩

theorem Rooted.adopt {new : Member} {placed : List Addr} (rooted : F.Rooted)
    (sound : F.Sound next) (here : F a = some m) (alive : m.Living) (parent : new.parent = some a)
    (joined : placed.Perm (next :: m.children)) : (F.adopt next new placed).Rooted := by
  have old : a ≠ next := by
    rintro rfl
    rw [sound.fresh a le_rfl] at here
    cases here
  intro c mc' there living other
  rcases of_adopt there with ⟨rfl, rfl⟩ | ⟨-, mc, held, rfl⟩
  · refine ⟨a, m.pid, parent, _, (if_neg old).trans (congrArg (Option.map _) here), rfl, alive, ?_⟩
    dsimp only
    rw [if_pos parent]
    exact joined.mem_iff.mpr (by simp)
  · obtain ⟨b, number, owner, attached⟩ := rooted c mc held living other
    refine ⟨b, number, owner, attached.adopt (sound.fresh next le_rfl) fun b owner => ?_⟩
    rw [parent, Option.some.injEq] at owner
    exact ⟨m, owner ▸ here, joined⟩

theorem Lasting.adopt {new : Member} {placed : List Addr} (lasting : F.Lasting)
    (sound : F.Sound next) (childless : new.children = []) (phase : new.phase = .alive)
    (joined : ∀ b, new.parent = some b → ∃ m, F b = some m ∧ placed.Perm (next :: m.children)) :
    (F.adopt next new placed).Lasting := by
  have kept (c : Addr) (mc : Member) (held : F c = some mc) (stays : mc.phase ≠ .dying) :
      ∃ mc', F.adopt next new placed c = some mc' ∧ mc'.phase ≠ .dying := by
    have old : c ≠ next := by
      rintro rfl
      rw [sound.fresh c le_rfl] at held
      cases held
    exact ⟨_, (if_neg old).trans (congrArg (Option.map _) held), stays⟩
  intro b m' c there child
  rcases of_adopt there with ⟨-, rfl⟩ | ⟨-, m, held, rfl⟩
  · rw [childless] at child
    cases child
  · dsimp only at child
    split at child
    · next parent =>
      obtain ⟨m₁, again, perm⟩ := joined b parent
      rw [held, Option.some.injEq] at again
      subst m₁
      rcases List.mem_cons.mp (perm.mem_iff.mp child) with rfl | child
      · exact ⟨new, if_pos rfl, by rw [phase]; nofun⟩
      · obtain ⟨mc, found, stays⟩ := lasting b m c held child
        exact kept c mc found stays
    · obtain ⟨mc, found, stays⟩ := lasting b m c held child
      exact kept c mc found stays

theorem Tended.adopt {new : Member} {placed : List Addr} (tended : F.Tended)
    (sound : F.Sound next) (here : F a = some m) (alive : m.Living) (phase : new.phase = .alive)
    (parent : ∀ b, new.parent = some b → b = a)
    (joined : new.parent = some a → placed.Perm (next :: m.children)) :
    (F.adopt next new placed).Tended := by
  have fresh := sound.fresh next le_rfl
  have joined' (b : Addr) (owner : new.parent = some b) :
      ∃ m, F b = some m ∧ placed.Perm (next :: m.children) := by
    obtain rfl := parent b owner
    exact ⟨m, here, joined owner⟩
  have old : a ≠ next := by
    rintro rfl
    rw [fresh] at here
    cases here
  constructor
  · intro c mc' b mb' there stays owner found other
    rcases of_adopt there with ⟨rfl, rfl⟩ | ⟨-, mc, held, rfl⟩
    · obtain rfl := parent b owner
      rcases of_adopt found with ⟨same, -⟩ | ⟨-, mb, held, rfl⟩
      · exact absurd same old
      · rw [here, Option.some.injEq] at held
        subst mb
        refine ⟨_, (if_neg old).trans (congrArg (Option.map _) here), rfl, alive, ?_⟩
        dsimp only
        rw [if_pos owner]
        exact (joined owner).mem_iff.mpr (by simp)
    · rcases of_adopt found with ⟨rfl, -⟩ | ⟨-, mb, held', rfl⟩
      · exact absurd (sound.parents c mc b held owner) (Nat.lt_irrefl b)
      · exact (tended.guarded c mc b mb held stays owner held' other).adopt fresh joined'
  · intro c mc' there ended
    rcases of_adopt there with ⟨-, rfl⟩ | ⟨-, mc, held, rfl⟩
    · rw [phase] at ended
      cases ended
    · obtain ⟨b, mb, owner, found, other⟩ := tended.reapable c mc held ended
      have apart : b ≠ next := by
        rintro rfl
        rw [fresh] at found
        cases found
      exact ⟨b, _, owner, (if_neg apart).trans (congrArg (Option.map _) found), other⟩

theorem Rooted.buried (rooted : F.Rooted) (buried : Buried F G) : G.Rooted := by
  intro c mc there living other
  obtain ⟨b, number, owner, attached⟩ := rooted c mc (buried.of_some there) living other
  exact ⟨b, number, owner, attached.buried buried⟩

theorem Lasting.buried (lasting : F.Lasting) (buried : Buried F G) : G.Lasting := by
  intro b m c there child
  obtain ⟨mc, held, phase⟩ := lasting b m c (buried.of_some there) child
  exact ⟨mc, buried.stays held phase, phase⟩

theorem Tended.buried (tended : F.Tended) (buried : Buried F G) : G.Tended where
  guarded := fun c mc b mb there phase owner found other =>
    (tended.guarded c mc b mb (buried.of_some there) phase owner (buried.of_some found)
      other).buried buried
  reapable := by
    intro c mc there ended
    have held := buried.of_some there
    obtain ⟨b, mb, owner, found, other⟩ := tended.reapable c mc held ended
    have stays : mc.phase ≠ .dying := by rw [ended]; nofun
    obtain ⟨mb', found', pid, -⟩ := (tended.guarded c mc b mb held stays owner found
      other).buried buried
    exact ⟨b, mb', owner, found', pid ▸ other⟩

theorem Mild.saved (n : Next) : F.Mild a (Member.saved n) :=
  fun _ _ => ⟨rfl, rfl, rfl, .rfl, .rfl, .rfl⟩

theorem Mild.of_same (same : ∀ m, (f m).pid = m.pid ∧ (f m).parent = m.parent ∧
    (f m).children = m.children ∧ (f m).phase = m.phase) : F.Mild a f := by
  intro m _
  obtain ⟨pid, parent, children, phase⟩ := same m
  rw [Member.Living, Member.Living, phase]
  exact ⟨pid, parent, children, .rfl, .rfl, .rfl⟩

theorem Mild.blocks (here : F a = some m) (alive : m.phase = .alive) :
    F.Mild a fun m => { m with phase := .blocked } := by
  intro m' there
  rw [here, Option.some.injEq] at there
  subst m'
  simp [Member.Living, alive]

theorem Mild.rouse : F.Mild b
    fun m => { m with phase := if m.phase = .blocked then .alive else m.phase } := by
  intro m _
  cases phase : m.phase <;> simp [Member.Living, phase]

end Family

/-- Event `e` of process `a`, known as `m`, is the end of `c`, known as `mc`. -/
def EndOf (a : Addr) (m : Member) (e : Event) (c : Addr) (mc : Member) : Prop :=
  (c = a ∧ ∃ value, Ends m value e) ∨
    ∃ pid : Int, e = .call (.kill pid) ∧ 0 < pid ∧ mc.pid = pid.toNat ∧ mc.phase ≠ .zombie

namespace Deed

open Family

variable {F G : Family} {a b c : Addr} {m mc : Member} {heir : Option Addr} {next : Addr}
  {e : Event} {n : Next}

theorem rooted (deed : Deed F heir next a m e n G) (sound : F.Sound next) (rooted : F.Rooted)
    (here : F a = some m) (alive : m.phase = .alive)
    (spared : ∀ c mc, F c = some mc → EndOf a m e c mc →
      ∀ d ∈ mc.children, ∀ md, F d = some md → ¬ md.Living)
    (parented : ∀ new, G next = some new → new.parent = some a) :
    (G.edit a (Member.saved n)).Rooted := by
  refine Rooted.edit ?_ (.saved n)
  have concluded {c : Addr} {mc : Member} {s : Phase} {f : Member → Member}
      (there : F c = some mc) (ends : EndOf a m e c mc) (dead : s = .zombie ∨ s = .dying)
      (same : ∀ m, (f m).pid = m.pid ∧ (f m).parent = m.parent ∧ (f m).children = m.children ∧
        (f m).phase = m.phase) : ((F.edit c f).conclude c s heir).Rooted := by
    refine (rooted.edit (.of_same same)).conclude (edit_self there) dead fun d child md' held => ?_
    rw [(same mc).2.2.1] at child
    obtain ⟨md, before, -, -, -, living, -⟩ := (Mild.of_same same).of_edit held
    exact mt living.mp (spared c mc there ends d child md before)
  cases deed with
  | other harmless resumed interrupted left => exact rooted
  | failed => exact rooted
  | refused given => exact rooted
  | childless given none => exact rooted
  | missed waiting running => exact rooted
  | blocks asks given running => exact rooted.edit (.blocks here alive)
  | collects asks admitted there ended siblings => exact rooted.dismiss there ended
  | @bears n new placed ssize prio name procGranted stackGranted left siblings childless phase
      context parent joined =>
      have owned := parented new (if_pos rfl)
      exact rooted.adopt sound here (.inl alive) owned (joined owned)
  | @exits e value b parent ends owner there other =>
      have ended := concluded (f := fun m => { m with retval := value, killed := false }) here
        (.inl ⟨rfl, value, ends⟩) (.inl rfl) fun _ => ⟨rfl, rfl, rfl, rfl⟩
      exact ended.edit .rouse
  | vanishes ends gone =>
      exact concluded here (.inl ⟨rfl, _, ends⟩) (.inr rfl) fun _ => ⟨rfl, rfl, rfl, rfl⟩
  | @kills pid c mc s positive there named other running sentence =>
      have dead : s = .zombie ∨ s = .dying := by
        rcases sentence with ⟨phase, -⟩ | ⟨phase, -⟩
        · exact .inl phase
        · exact .inr phase
      exact concluded there (.inr ⟨pid, rfl, positive, named, running⟩) dead
        fun _ => ⟨rfl, rfl, rfl, rfl⟩

theorem lasting (deed : Deed F heir next a m e n G) (sound : F.Sound next)
    (patient : F.Patient) (lasting : F.Lasting) (here : F a = some m) (alive : m.phase = .alive)
    (spared : ∀ c mc, F c = some mc → EndOf a m e c mc →
      ∀ b mb, F b = some mb → mb.pid = 0 → c ∉ mb.children) :
    (G.edit a (Member.saved n)).Lasting := by
  refine Lasting.edit ?_ (.saved n)
  have concluded {c : Addr} {mc : Member} {s : Phase} {f : Member → Member}
      (there : F c = some mc) (ends : EndOf a m e c mc) (sentence : F.Sentence mc s)
      (same : ∀ m, (f m).pid = m.pid ∧ (f m).parent = m.parent ∧ (f m).children = m.children ∧
        (f m).siblings = m.siblings ∧ (f m).phase = m.phase) :
      ((F.edit c f).conclude c s heir).Lasting := by
    have sound' : (F.edit c f).Sound next := by
      refine sound.edit fun m _ => ?_
      obtain ⟨pid, parent, children, siblings, phase⟩ := same m
      rw [Member.Living, Member.Living, phase]
      exact ⟨pid, parent, children, siblings, id, id⟩
    have mild : F.Mild c f :=
      .of_same fun m => ⟨(same m).1, (same m).2.1, (same m).2.2.1, (same m).2.2.2.2⟩
    refine (lasting.edit mild).conclude sound' (edit_self there) fun dying b mb' found child => ?_
    obtain ⟨mb, held, -, -, children, -⟩ := mild.of_edit found
    rw [children] at child
    rcases sentence with ⟨zombie, -⟩ | ⟨-, gone⟩
    · rw [zombie] at dying
      cases dying
    · obtain ⟨parent, again, zero⟩ := gone b (sound.owned b mb c mc held child there).1
      rw [held, Option.some.injEq] at again
      exact spared c mc there ends b mb held (again ▸ zero) child
  cases deed with
  | other harmless resumed interrupted left => exact lasting
  | failed => exact lasting
  | refused given => exact lasting
  | childless given none => exact lasting
  | missed waiting running => exact lasting
  | blocks asks given running => exact lasting.edit (.blocks here alive)
  | @collects e request retvalp c owner mc asks admitted there ended siblings =>
      have child := admitted_child asks (patient a m here (.inl alive)) admitted
      have mine := (sound.owned a m c mc here child there).2
      rw [siblings, Option.some.injEq] at mine
      subst mine
      exact lasting.dismiss sound here child there
  | @bears n new placed ssize prio name procGranted stackGranted left siblings childless phase
      context parent joined =>
      refine lasting.adopt sound childless phase fun b owner => ?_
      obtain rfl := parent b owner
      exact ⟨m, here, joined owner⟩
  | @exits e value b parent ends owner there other =>
      have ended := concluded (f := fun m => { m with retval := value, killed := false }) here
        (.inl ⟨rfl, value, ends⟩) (.inl ⟨rfl, b, parent, owner, there, other⟩)
        fun _ => ⟨rfl, rfl, rfl, rfl, rfl⟩
      exact ended.edit .rouse
  | vanishes ends gone =>
      exact concluded here (.inl ⟨rfl, _, ends⟩) (.inr ⟨rfl, gone⟩)
        fun _ => ⟨rfl, rfl, rfl, rfl, rfl⟩
  | @kills pid c mc s positive there named other running sentence =>
      exact concluded there (.inr ⟨pid, rfl, positive, named, running⟩) sentence
        fun _ => ⟨rfl, rfl, rfl, rfl, rfl⟩

theorem tended (deed : Deed F heir next a m e n G) (sound : F.Sound next) (tended : F.Tended)
    (here : F a = some m) (alive : m.phase = .alive)
    (zero : ∀ z, heir = some z → ∀ mz, F z = some mz → mz.pid = 0)
    (spared : ∀ pid c mc, e = .call (.kill pid) → 0 < pid → F c = some mc → mc.pid = pid.toNat →
      F.ParentAlive mc → mc.phase ≠ .dying) : (G.edit a (Member.saved n)).Tended := by
  refine Tended.edit ?_ (.saved n)
  have concluded {c : Addr} {mc : Member} {s : Phase} {f : Member → Member}
      (there : F c = some mc) (kept : s = .zombie → mc.phase ≠ .dying)
      (sentence : F.Sentence mc s)
      (same : ∀ m, (f m).pid = m.pid ∧ (f m).parent = m.parent ∧ (f m).children = m.children ∧
        (f m).siblings = m.siblings ∧ (f m).phase = m.phase) :
      ((F.edit c f).conclude c s heir).Tended := by
    have sound' : (F.edit c f).Sound next := by
      refine sound.edit fun m _ => ?_
      obtain ⟨pid, parent, children, siblings, phase⟩ := same m
      rw [Member.Living, Member.Living, phase]
      exact ⟨pid, parent, children, siblings, id, id⟩
    have mild : F.Mild c f :=
      .of_same fun m => ⟨(same m).1, (same m).2.1, (same m).2.2.1, (same m).2.2.2.2⟩
    refine (tended.edit mild).conclude sound' (edit_self there) ?_
      (sentence_edit sentence (same mc).2.1 fun m => (same m).1) fun z owner mz' found => ?_
    · rw [(same mc).2.2.2.2]
      exact kept
    · obtain ⟨mz, held, pid, -⟩ := mild.of_edit found
      exact pid.trans (zero z owner mz held)
  have running : m.phase ≠ .dying := by
    intro same
    rw [alive] at same
    cases same
  cases deed with
  | other harmless resumed interrupted left => exact tended
  | failed => exact tended
  | refused given => exact tended
  | childless given none => exact tended
  | missed waiting running => exact tended
  | blocks asks given running => exact tended.edit (.blocks here alive)
  | collects asks admitted there ended siblings => exact tended.dismiss there ended
  | bears left siblings childless phase context parent joined =>
      exact tended.adopt sound here (.inl alive) phase parent joined
  | @exits e value b parent ends owner there other =>
      have ended := concluded (f := fun m => { m with retval := value, killed := false }) here
        (fun _ => running) (.inl ⟨rfl, b, parent, owner, there, other⟩)
        fun _ => ⟨rfl, rfl, rfl, rfl, rfl⟩
      exact ended.edit .rouse
  | vanishes ends gone =>
      exact concluded here (fun _ => running) (.inr ⟨rfl, gone⟩) fun _ =>
        ⟨rfl, rfl, rfl, rfl, rfl⟩
  | @kills pid c mc s positive there named other unended sentence =>
      refine concluded there (fun ended => ?_) sentence fun _ => ⟨rfl, rfl, rfl, rfl, rfl⟩
      rcases sentence with ⟨-, parent⟩ | ⟨gone, -⟩
      · exact spared pid c mc rfl positive there named parent
      · rw [ended] at gone
        cases gone

end Deed

end IntelX86Kernel

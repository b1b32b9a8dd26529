import IntelX86Kernel.Family

/-! Deeds: what one step of a process does to the families, and what a process that
waits for its children can rely on. -/

namespace IntelX86Kernel

inductive Request where
  | child (pid : Nat) (c : Addr)
  | any

def Request.frame (retvalp : Bool) : Request → Frame
  | .child pid c => .waitpid pid c retvalp
  | .any => .waitForChild retvalp

def Request.Admits (children : List Addr) : Request → Addr → Prop
  | .child _ c, d => d = c
  | .any, d => d ∈ children

def Frame.waits : Frame → Bool
  | .waitpid .. | .waitForChild _ => true
  | _ => false

def Harmless (F : Family) : Event → Prop
  | .call (.exit _) | .call (.waitpid ..) | .call (.start ..) => False
  | .call (.kill pid) =>
      0 < pid → ∀ c mc, F c = some mc → mc.pid = pid.toNat → mc.phase = .zombie
  | _ => True

/-- A step is part of a `waitpid`: its call, or its continuation. -/
inductive Asks (F : Family) (m : Member) : Event → Request → Bool → Prop where
  | child {pid : Int} {c : Addr} {mc : Member} {retvalp : Bool} (given : 0 ≤ pid)
      (listed : c ∈ m.children) (there : F c = some mc) (named : mc.pid = pid.toNat) :
      Asks F m (.call (.waitpid pid retvalp)) (.child pid.toNat c) retvalp
  | any {pid : Int} {retvalp : Bool} (given : pid < 0) :
      Asks F m (.call (.waitpid pid retvalp)) .any retvalp
  | again {request : Request} {retvalp : Bool} (waiting : m.context = request.frame retvalp) :
      Asks F m .resume request retvalp

def Ends (m : Member) (value : Int) (e : Event) : Prop :=
  e = .call (.exit value) ∨ ∃ pid : Int, e = .call (.kill pid) ∧ 0 < pid ∧ pid = m.pid ∧ value = 0

/-- What the step of process `a`, known as `m`, does to the families. `next` is the
address of the next process. -/
inductive Deed (F : Family) (heir : Option Addr) (next a : Addr) (m : Member) :
    Event → Next → Family → Prop where
  | other {e : Event} {n : Next} (harmless : Harmless F e)
      (resumed : e = .resume → m.context.waits = false ∧ m.context ≠ .user)
      (interrupted : e = .clockInterrupt → n = .suspend .user)
      (left : ∀ context, n = .suspend context → context.waits = false) :
      Deed F heir next a m e n F
  | failed {value : Int} {ssize : Nat} {prio : Int} {name : List UInt8}
      {procGranted stackGranted : Bool} :
      Deed F heir next a m (.call (.start ssize prio name procGranted stackGranted))
        (.ret value none) F
  | refused {pid : Int} {retvalp : Bool} (given : 0 ≤ pid) :
      Deed F heir next a m (.call (.waitpid pid retvalp)) (.ret (-1) none) F
  | childless {pid : Int} {retvalp : Bool} (given : pid < 0) (none : m.children = []) :
      Deed F heir next a m (.call (.waitpid pid retvalp)) (.ret (-1) Option.none) F
  | missed {retvalp : Bool} (waiting : m.context = .waitForChild retvalp)
      (running : ∀ c ∈ m.children, ∃ mc, F c = some mc ∧ mc.phase ≠ .zombie) :
      Deed F heir next a m .resume (.ret (-1) none) F
  | blocks {e : Event} {request : Request} {retvalp : Bool} (asks : Asks F m e request retvalp)
      (given : e ≠ .resume → request = .any → m.children ≠ [])
      (running : ∀ c, request.Admits m.children c → ∃ mc, F c = some mc ∧ mc.phase ≠ .zombie) :
      Deed F heir next a m e (.suspend (request.frame retvalp))
        (F.edit a fun m => { m with phase := .blocked })
  | collects {e : Event} {request : Request} {retvalp : Bool} {c owner : Addr} {mc : Member}
      (asks : Asks F m e request retvalp) (admitted : request.Admits m.children c)
      (there : F c = some mc) (ended : mc.phase = .zombie) (siblings : mc.siblings = some owner) :
      Deed F heir next a m e (.ret mc.pid (if retvalp then some mc.verdict else none))
        (F.dismiss c owner)
  | bears {n : Next} {new : Member} {placed : List Addr} {ssize : Nat} {prio : Int}
      {name : List UInt8} {procGranted stackGranted : Bool}
      (left : ∀ context, n = .suspend context → context.waits = false)
      (siblings : new.siblings = new.parent) (childless : new.children = [])
      (phase : new.phase = .alive) (context : new.context = .user)
      (parent : ∀ b, new.parent = some b → b = a)
      (joined : new.parent = some a → placed.Perm (next :: m.children)) :
      Deed F heir next a m (.call (.start ssize prio name procGranted stackGranted)) n
        (F.adopt next new placed)
  | exits {e : Event} {value : Int} {b : Addr} {parent : Member} (ends : Ends m value e)
      (owner : m.parent = some b) (there : F b = some parent) (other : parent.pid ≠ 0) :
      Deed F heir next a m e (.suspend .exit)
        (((F.edit a fun m => { m with retval := value, killed := false }).conclude a .zombie
          heir).rouse b)
  | vanishes {e : Event} {value : Int} (ends : Ends m value e) (gone : F.ParentGone m) :
      Deed F heir next a m e (.suspend .exit)
        ((F.edit a fun m => { m with retval := value, killed := false }).conclude a .dying heir)
  | kills {pid : Int} {c : Addr} {mc : Member} {s : Phase} (positive : 0 < pid)
      (there : F c = some mc) (named : mc.pid = pid.toNat) (other : c ≠ a)
      (running : mc.phase ≠ .zombie) (sentence : F.Sentence mc s) :
      Deed F heir next a m (.call (.kill pid)) (.suspend (.done 0 none))
        ((F.edit c fun m => { m with killed := true }).conclude c s heir)

namespace Family

variable {F G : Family} {a b c : Addr} {m m' mc : Member} {heir : Option Addr}
  {next next' : Addr} {e : Event} {n : Next} {f : Member → Member}

/-- What a process can rely on as to the children it waits for. -/
structure Expects (F : Family) (m : Member) : Prop where
  child : ∀ pid c retvalp, m.context = .waitpid pid c retvalp →
    c ∈ m.children ∧ ∀ mc, F c = some mc → mc.pid = pid
  any : ∀ retvalp, m.phase = .alive → m.context = .waitForChild retvalp →
    ∃ c ∈ m.children, ∃ mc, F c = some mc ∧ mc.phase = .zombie

def Patient (F : Family) : Prop :=
  ∀ b m, F b = some m → m.Living → F.Expects m

theorem Expects.of_waitless (waitless : m.context.waits = false) : F.Expects m where
  child := by
    intro pid c retvalp context
    rw [context] at waitless
    cases waitless
  any := by
    intro retvalp _ context
    rw [context] at waitless
    cases waitless

theorem Expects.transfer (expects : F.Expects m) (context : m'.context = m.context)
    (children : m'.children = m.children) (phase : m'.phase = .alive → m.phase = .alive)
    (pids : ∀ c ∈ m.children, ∀ mc', G c = some mc' → ∃ mc, F c = some mc ∧ mc'.pid = mc.pid)
    (zombies : ∀ c ∈ m.children, ∀ mc, F c = some mc → mc.phase = .zombie →
      ∃ mc', G c = some mc' ∧ mc'.phase = .zombie) : G.Expects m' where
  child := by
    intro pid c retvalp waiting
    rw [children]
    obtain ⟨child, named⟩ := expects.child pid c retvalp (context ▸ waiting)
    refine ⟨child, fun mc' there => ?_⟩
    obtain ⟨mc, before, same⟩ := pids c child mc' there
    exact same.trans (named mc before)
  any := by
    intro retvalp alive waiting
    rw [children]
    obtain ⟨c, child, mc, there, ended⟩ := expects.any retvalp (phase alive) (context ▸ waiting)
    exact ⟨c, child, zombies c child mc there ended⟩

theorem Expects.edit (expects : F.Expects m)
    (same : ∀ m, (f m).pid = m.pid ∧ (f m).phase = m.phase) : (F.edit a f).Expects m := by
  refine expects.transfer rfl rfl id (fun c _ mc' there => ?_) fun c _ mc there ended => ?_
  · obtain ⟨mc, before, rfl⟩ := of_edit there
    refine ⟨mc, before, ?_⟩
    split
    · exact (same mc).1
    · rfl
  · by_cases equal : c = a
    · subst equal
      exact ⟨f mc, edit_self there, (same mc).2.trans ended⟩
    · exact ⟨mc, (edit_other equal).trans there, ended⟩

theorem Patient.saved (others : ∀ b m, b ≠ a → F b = some m → m.Living → F.Expects m)
    (self : ∀ m, F a = some m → m.Living → F.Expects (m.saved n)) :
    (F.edit a (Member.saved n)).Patient := by
  intro b m' there living
  obtain ⟨m, here, rfl⟩ := of_edit there
  by_cases same : b = a
  · rw [if_pos same] at living ⊢
    exact (self m (same ▸ here) living).edit fun _ => ⟨rfl, rfl⟩
  · rw [if_neg same] at living ⊢
    exact (others b m same here living).edit fun _ => ⟨rfl, rfl⟩

theorem Patient.conclude {s : Phase} (heir : Option Addr) (patient : F.Patient) (sound : F.Sound next)
    (here : F c = some mc) (running : mc.phase ≠ .zombie) (dead : s = .zombie ∨ s = .dying)
    (b : Addr) (m' : Member) (there : F.conclude c s heir b = some m') (living : m'.Living) :
    b ≠ c ∧ (F.conclude c s heir).Expects m' := by
  have keeps (m : Member) (mine : F b = some m) (other : b ≠ c) (expects : F.Expects m)
      (context : m'.context = m.context) (children : m'.children = m.children)
      (phase : m'.phase = m.phase) : (F.conclude c s heir).Expects m' := by
    refine expects.transfer context children (fun alive => phase ▸ alive)
      (fun d _ md' found => ?_) fun d child md found ended => ?_
    · obtain ⟨md, before, ⟨-, rfl⟩ | ⟨-, -, rfl⟩ | ⟨-, -, rfl⟩⟩ := of_conclude found
      · exact ⟨md, before, rfl⟩
      · exact ⟨md, before, rfl⟩
      · exact ⟨md', before, rfl⟩
    · have apart : d ≠ c := by
        rintro rfl
        rw [here, Option.some.injEq] at found
        exact running (found ▸ ended)
      have stranger : d ∉ F.children c := by
        intro both
        rw [children_eq here] at both
        exact other (sound.unique mine here child both found)
      refine ⟨md, ?_, ended⟩
      rw [Family.conclude, if_neg apart, if_neg stranger, found]
  obtain ⟨m, mine, ⟨-, rfl⟩ | ⟨other, -, rfl⟩ | ⟨other, -, rfl⟩⟩ := of_conclude there
  · rcases dead with rfl | rfl
    · exact absurd rfl living.not_zombie
    · exact absurd rfl living.not_dying
  · obtain ⟨before, phase, -⟩ := living.of_orphan
    exact ⟨other, keeps m mine other (patient b m mine before) rfl rfl phase⟩
  · exact ⟨other, keeps m' mine other (patient b m' mine living) rfl rfl rfl⟩

theorem Patient.edit (patient : F.Patient)
    (same : ∀ m, (f m).pid = m.pid ∧ (f m).phase = m.phase ∧ (f m).context = m.context ∧
      (f m).children = m.children) : (F.edit a f).Patient := by
  intro b m' there living
  obtain ⟨m, here, rfl⟩ := of_edit there
  split at living
  · next equal =>
    rw [if_pos equal]
    obtain ⟨-, phase, context, children⟩ := same m
    have before : m.Living := by
      rw [Member.Living, ← phase]
      exact living
    have expects : F.Expects (f m) := (patient b m here before).transfer context children
      (fun alive => phase ▸ alive) (fun _ _ mc there => ⟨mc, there, rfl⟩)
      fun _ _ mc there ended => ⟨mc, there, ended⟩
    exact expects.edit fun m => ⟨(same m).1, (same m).2.1⟩
  · next other =>
    rw [if_neg other]
    exact (patient b m here living).edit fun m => ⟨(same m).1, (same m).2.1⟩

/-- The others after the end of `c`, of which only the value it leaves is set before. -/
theorem Patient.ended {s : Phase} (heir : Option Addr) (patient : F.Patient) (sound : F.Sound next)
    (here : F c = some mc) (running : mc.phase ≠ .zombie) (dead : s = .zombie ∨ s = .dying)
    (same : ∀ m, (f m).pid = m.pid ∧ (f m).parent = m.parent ∧ (f m).children = m.children ∧
      (f m).siblings = m.siblings ∧ (f m).phase = m.phase ∧ (f m).context = m.context)
    (b : Addr) (m' : Member) (there : (F.edit c f).conclude c s heir b = some m')
    (living : m'.Living) : b ≠ c ∧ ((F.edit c f).conclude c s heir).Expects m' := by
  have edited : (F.edit c f).Patient := patient.edit fun m => by
    obtain ⟨pid, -, children, -, phase, context⟩ := same m
    exact ⟨pid, phase, context, children⟩
  have kept : (F.edit c f).Sound next := sound.edit fun m _ => by
    obtain ⟨pid, parent, children, siblings, phase, -⟩ := same m
    rw [Member.Living, Member.Living, phase]
    exact ⟨pid, parent, children, siblings, id, id⟩
  have awake : (f mc).phase ≠ .zombie := by
    rw [(same mc).2.2.2.2.1]
    exact running
  exact edited.conclude heir kept (edit_self here) awake dead b m' there living

theorem Patient.buried (patient : F.Patient) (buried : Buried F G) : G.Patient := by
  intro b m there living
  refine (patient b m (buried.of_some there) living).transfer rfl rfl id
    (fun c _ mc there => ⟨mc, buried.of_some there, rfl⟩) fun c _ mc there ended => ?_
  exact ⟨mc, buried.stays there (by rw [ended]; nofun), ended⟩

theorem Patient.rouse (others : ∀ b m, b ≠ a → F b = some m → m.Living → F.Expects m)
    (here : F c = some mc) (zombie : mc.phase = .zombie) (child : ∀ m, F b = some m → c ∈ m.children)
    (d : Addr) (m' : Member) (apart : d ≠ a) (there : F.rouse b d = some m') (living : m'.Living) :
    (F.rouse b).Expects m' := by
  obtain ⟨m, before, rfl⟩ := of_edit there
  have pids (c : Addr) (mc' : Member) (there : F.rouse b c = some mc') :
      ∃ mc, F c = some mc ∧ mc'.pid = mc.pid := by
    obtain ⟨mc, found, rfl⟩ := of_edit there
    refine ⟨mc, found, ?_⟩
    split <;> rfl
  have zombies (c : Addr) (mc : Member) (there : F c = some mc) (ended : mc.phase = .zombie) :
      ∃ mc', F.rouse b c = some mc' ∧ mc'.phase = .zombie := by
    rw [Family.rouse, edit_apply]
    split
    · next equal =>
      rw [← equal, there, Option.map_some]
      exact ⟨_, rfl, by simp [ended]⟩
    · exact ⟨mc, there, ended⟩
  by_cases same : d = b
  · rw [if_pos same] at living ⊢
    have before' : m.Living := by
      rw [Member.Living] at living ⊢
      dsimp only at living
      split at living
      · next blocked => exact .inr blocked
      · exact living
    have expects := others d m apart before before'
    constructor
    · intro pid c retvalp waiting
      obtain ⟨child, named⟩ := expects.child pid c retvalp waiting
      refine ⟨child, fun mc' there => ?_⟩
      obtain ⟨mc, found, equal⟩ := pids c mc' there
      exact equal.trans (named mc found)
    · intro _ _ _
      exact ⟨c, child m (same ▸ before), zombies c mc here zombie⟩
  · rw [if_neg same] at living ⊢
    exact (others d m apart before living).transfer rfl rfl id (fun c _ => pids c)
      fun c _ => zombies c

theorem Patient.dismiss (patient : F.Patient) (sound : F.Sound next) (here : F a = some m)
    (child : c ∈ m.children) (there : F c = some mc) (b : Addr) (mb' : Member)
    (other : b ≠ a) (found : F.dismiss c a b = some mb') (living : mb'.Living) :
    (F.dismiss c a).Expects mb' := by
  obtain ⟨mb, before, rfl⟩ := of_dismiss found
  have apart : b ≠ c := by
    rintro rfl
    exact living.not_dying (if_pos rfl)
  rw [Member.Living] at living
  dsimp only at living
  rw [if_neg apart] at living
  refine (patient b mb before living).transfer rfl (if_neg other)
    (fun alive => by rwa [if_neg apart] at alive) (fun d _ md' there => ?_)
    fun d grand md there ended => ?_
  · obtain ⟨md, before, rfl⟩ := of_dismiss there
    exact ⟨md, before, rfl⟩
  · have stranger : d ≠ c := by
      rintro rfl
      exact other (sound.unique before here grand child there)
    refine ⟨_, congrArg (Option.map _) there, ?_⟩
    dsimp only
    rw [if_neg stranger]
    exact ended

theorem Patient.adopt {new : Member} {placed : List Addr} (patient : F.Patient)
    (sound : F.Sound next) (context : new.context = .user)
    (parent : ∀ b, new.parent = some b → b = a) (b : Addr) (m' : Member) (other : b ≠ a)
    (found : F.adopt next new placed b = some m') (living : m'.Living) :
    (F.adopt next new placed).Expects m' := by
  rcases of_adopt found with ⟨-, rfl⟩ | ⟨-, m, before, rfl⟩
  · exact .of_waitless (by rw [context]; rfl)
  · have stranger : new.parent ≠ some b := fun owner => other (parent b owner)
    refine (patient b m before living).transfer rfl (if_neg stranger) id
      (fun d child md' there => ?_) fun d child md there ended => ?_
    · rcases of_adopt there with ⟨rfl, -⟩ | ⟨-, md, found, rfl⟩
      · exact absurd (sound.elder b m before d child).2 (Nat.lt_irrefl d)
      · exact ⟨md, found, rfl⟩
    · have old : d ≠ next := Nat.ne_of_lt (sound.elder b m before d child).2
      exact ⟨_, (if_neg old).trans (congrArg (Option.map _) there), ended⟩

end Family

namespace Deed

open Family

variable {F G : Family} {a b c : Addr} {m m' mc : Member} {heir : Option Addr}
  {next next' : Addr} {e : Event} {n : Next}

theorem admitted_child {request : Request} {retvalp : Bool} (asks : Asks F m e request retvalp)
    (expects : F.Expects m) (admitted : request.Admits m.children c) : c ∈ m.children := by
  cases asks with
  | child given listed there named => exact admitted ▸ listed
  | any given => exact admitted
  | again waiting =>
      cases request with
      | child pid d => exact admitted ▸ (expects.child pid d retvalp waiting).1
      | any => exact admitted

theorem sentence_edit {f : Member → Member} {s : Phase} {m m' : Member}
    (sentence : F.Sentence m s) (parent : m'.parent = m.parent)
    (same : ∀ m, (f m).pid = m.pid) : (F.edit c f).Sentence m' s := by
  have there (b : Addr) (mb : Member) (here : F b = some mb) :
      ∃ mb', F.edit c f b = some mb' ∧ mb'.pid = mb.pid := by
    by_cases equal : b = c
    · subst equal
      exact ⟨f mb, edit_self here, same mb⟩
    · exact ⟨mb, (edit_other equal).trans here, rfl⟩
  rcases sentence with ⟨rfl, b, mb, owner, here, pid⟩ | ⟨rfl, gone⟩
  · obtain ⟨mb', held, equal⟩ := there b mb here
    exact .inl ⟨rfl, b, mb', parent.trans owner, held, equal ▸ pid⟩
  · refine .inr ⟨rfl, fun b owner => ?_⟩
    obtain ⟨mb, here, zero⟩ := gone b (parent ▸ owner)
    obtain ⟨mb', held, equal⟩ := there b mb here
    exact ⟨mb', held, equal.trans zero⟩

theorem sound (deed : Deed F heir next a m e n G) (sound : F.Sound next) (patient : F.Patient)
    (here : F a = some m) (alive : m.phase = .alive) (later : next ≤ next')
    (used : G next ≠ none → next < next')
    (zero : ∀ z, heir = some z → z < next ∧ ∀ mz, F z = some mz → mz.pid = 0) :
    G.Sound next' := by
  have concluded {d : Addr} {md : Member} {s : Phase} {f : Member → Member}
      (there : F d = some md) (sentence : F.Sentence md s)
      (same : ∀ m, (f m).pid = m.pid ∧ (f m).parent = m.parent ∧ (f m).children = m.children ∧
        (f m).siblings = m.siblings ∧ (f m).phase = m.phase) :
      ((F.edit d f).conclude d s heir).Sound next := by
    have edited : (F.edit d f).Sound next := by
      refine sound.edit fun m _ => ?_
      obtain ⟨pid, parent, children, siblings, phase⟩ := same m
      refine ⟨pid, parent, children, siblings, ?_, fun dying => phase ▸ dying⟩
      rw [Member.Living, Member.Living, phase]
      exact id
    refine edited.conclude (edit_self there)
      (sentence_edit sentence (same md).2.1 fun m => (same m).1) fun z owner => ?_
    obtain ⟨low, named⟩ := zero z owner
    refine ⟨low, fun mz found => ?_⟩
    obtain ⟨mz', before, rfl⟩ := of_edit found
    have pid := named mz' before
    split
    · exact (same mz').1.trans pid
    · exact pid
  cases deed with
  | other harmless resumed interrupted left => exact sound.later later
  | failed => exact sound.later later
  | refused given => exact sound.later later
  | childless given none => exact sound.later later
  | missed waiting running => exact sound.later later
  | blocks asks given running =>
      refine (sound.edit fun m' mine => ?_).later later
      rw [here, Option.some.injEq] at mine
      subst mine
      exact ⟨rfl, rfl, rfl, rfl, fun _ => .inl alive, fun dying => by cases dying⟩
  | @collects e request retvalp c owner mc asks admitted there ended siblings =>
      have child := admitted_child asks (patient a m here (.inl alive)) admitted
      have mine := (sound.owned a m c mc here child there).2
      rw [siblings, Option.some.injEq] at mine
      subst mine
      exact (sound.dismiss here child there).later later
  | bears left siblings childless phase context parent joined =>
      refine sound.adopt (used ?_) siblings childless phase fun b owner => ?_
      · rw [Family.adopt, if_pos rfl]
        exact Option.some_ne_none _
      · obtain rfl := parent b owner
        exact ⟨m, here, joined owner⟩
  | @exits e value b parent ends owner there other =>
      have ended := concluded (f := fun m => { m with retval := value, killed := false }) here
        (.inl ⟨rfl, b, parent, owner, there, other⟩) fun _ => ⟨rfl, rfl, rfl, rfl, rfl⟩
      have roused : (Family.rouse _ b).Sound next :=
        ended.edit fun m' _ => ⟨rfl, rfl, rfl, rfl, ?_, ?_⟩
      · exact roused.later later
      · intro living
        rw [Member.Living] at living ⊢
        dsimp only at living
        split at living
        · next blocked => exact .inr blocked
        · exact living
      · intro dying
        dsimp only at dying
        split at dying
        · cases dying
        · exact dying
  | @vanishes e value ends gone =>
      have ended := concluded (f := fun m => { m with retval := value, killed := false }) here
        (.inr ⟨rfl, gone⟩) fun _ => ⟨rfl, rfl, rfl, rfl, rfl⟩
      exact ended.later later
  | kills positive there named other running sentence =>
      have ended := concluded (f := fun m => { m with killed := true }) there sentence
        fun _ => ⟨rfl, rfl, rfl, rfl, rfl⟩
      exact ended.later later

theorem block_patient {request : Request} {retvalp : Bool} (patient : F.Patient)
    (here : F a = some m) (alive : m.phase = .alive) (asks : Asks F m e request retvalp) :
    ((F.edit a fun m => { m with phase := .blocked }).edit a
      (Member.saved (.suspend (request.frame retvalp)))).Patient := by
  have expects := patient a m here (.inl alive)
  apply Patient.saved
  · intro b m' other there living
    rw [edit_other other] at there
    refine (patient b m' there living).transfer rfl rfl id (fun c _ mc' found => ?_)
      fun c _ mc found ended => ?_
    · obtain ⟨mc, before, rfl⟩ := of_edit found
      refine ⟨mc, before, ?_⟩
      split <;> rfl
    · have apart : c ≠ a := by
        rintro rfl
        rw [here, Option.some.injEq] at found
        rw [← found, alive] at ended
        cases ended
      exact ⟨mc, (edit_other apart).trans found, ended⟩
  · intro m' there _
    rw [edit_self here, Option.some.injEq] at there
    subst there
    constructor
    · intro pid c r waiting
      cases request with
      | any => cases waiting
      | child pid' c' =>
          cases waiting
          have child : c ∈ m.children := admitted_child asks expects rfl
          refine ⟨child, fun mc found => ?_⟩
          obtain ⟨mc, before, rfl⟩ := of_edit found
          have named : mc.pid = pid := by
            cases asks with
            | child given listed there named =>
                rw [before, Option.some.injEq] at there
                exact there ▸ named
            | again waiting => exact (expects.child pid c _ waiting).2 mc before
          split <;> exact named
    · exact fun _ phase => nomatch phase

theorem patient (deed : Deed F heir next a m e n G) (sound : F.Sound next) (patient : F.Patient)
    (here : F a = some m) (alive : m.phase = .alive) :
    (G.edit a (Member.saved n)).Patient := by
  have others (b : Addr) (m' : Member) (_ : b ≠ a) (there : F b = some m') (living : m'.Living) :=
    patient b m' there living
  have waitless {context : Frame} (none : context.waits = false) (F : Family) (m' : Member) :
      F.Expects (m'.saved (.suspend context)) := .of_waitless none
  have returned {value : Int} {out : Option Int} (F : Family) (m' : Member) :
      F.Expects (m'.saved (.ret value out)) := .of_waitless rfl
  have left (suspended : ∀ context, n = .suspend context → context.waits = false) (F : Family)
      (m' : Member) : F.Expects (m'.saved n) := by
    cases n with
    | ret value out => exact returned F m'
    | suspend context => exact waitless (suspended context rfl) F m'
  have running : m.phase ≠ .zombie := by rw [alive]; nofun
  cases deed with
  | other harmless resumed interrupted suspended =>
      exact .saved others fun m' _ _ => left suspended F m'
  | failed => exact .saved others fun m' _ _ => returned F m'
  | refused given => exact .saved others fun m' _ _ => returned F m'
  | childless given none => exact .saved others fun m' _ _ => returned F m'
  | missed waiting running => exact .saved others fun m' _ _ => returned F m'
  | blocks asks given running => exact block_patient patient here alive asks
  | @collects e request retvalp c owner mc asks admitted there ended siblings =>
      have child := admitted_child asks (patient a m here (.inl alive)) admitted
      have mine := (sound.owned a m c mc here child there).2
      rw [siblings, Option.some.injEq] at mine
      subst mine
      exact .saved (patient.dismiss sound here child there) fun m' _ _ => returned _ m'
  | bears suspended siblings childless phase context parent joined =>
      exact .saved (patient.adopt sound context parent) fun m' _ _ => left suspended _ m'
  | @exits e value b parent ends owner there other =>
      have mine := edit_self (f := fun m => { m with retval := value, killed := false }) here
      have concluded := patient.ended heir sound here running (.inl rfl)
        (f := fun m => { m with retval := value, killed := false })
        fun _ => ⟨rfl, rfl, rfl, rfl, rfl, rfl⟩
      have child := sound.listed a m b parent here (.inl alive) owner there other
      have apart : a ≠ b := by
        rintro rfl
        rw [here, Option.some.injEq] at there
        exact sound.not_own here (there ▸ child)
      refine .saved (fun d m' apart' found living => ?_) fun m' _ _ => waitless rfl _ m'
      refine Patient.rouse (fun d m' _ there living => (concluded d m' there living).2)
        (c := a) ((if_pos rfl).trans (congrArg (Option.map _) mine)) rfl (fun mb found => ?_)
        d m' apart' found living
      obtain ⟨mb', before, ⟨equal, -⟩ | ⟨-, -, rfl⟩ | ⟨-, -, rfl⟩⟩ := of_conclude found
      · exact absurd equal.symm apart
      · rw [edit_other (Ne.symm apart), there, Option.some.injEq] at before
        subst before
        exact child
      · rw [edit_other (Ne.symm apart), there, Option.some.injEq] at before
        subst before
        exact child
  | @vanishes e value ends gone =>
      have concluded := patient.ended heir sound here running (.inr rfl)
        (f := fun m => { m with retval := value, killed := false })
        fun _ => ⟨rfl, rfl, rfl, rfl, rfl, rfl⟩
      exact .saved (fun d m' _ found living => (concluded d m' found living).2)
        fun m' _ _ => waitless rfl _ m'
  | @kills pid c mc s positive there named other running sentence =>
      have dead : s = .zombie ∨ s = .dying := by
        rcases sentence with ⟨phase, -⟩ | ⟨phase, -⟩
        · exact .inl phase
        · exact .inr phase
      have concluded := patient.ended heir sound there running dead
        (f := fun m => { m with killed := true }) fun _ => ⟨rfl, rfl, rfl, rfl, rfl, rfl⟩
      exact .saved (fun d m' _ found living => (concluded d m' found living).2)
        fun m' _ _ => waitless rfl _ m'

end Deed

end IntelX86Kernel

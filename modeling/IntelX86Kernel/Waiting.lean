import IntelX86Kernel.Lineage

/-! Parents that are BLOCKED in `waitpid`, and the ends of the children they wait for. -/

namespace IntelX86Kernel

open Transition

/-- The end of `c` would end the `waitpid` a process with this context is in. -/
def Frame.awaits (children : List Addr) (c : Addr) : Frame → Bool
  | .waitpid _ d _ => decide (d = c)
  | .waitForChild _ => decide (c ∈ children)
  | _ => false

theorem Frame.awaits_mono {f : Frame} {l l' : List Addr} {c : Addr} (sub : l ⊆ l')
    (awaits : f.awaits l c = true) : f.awaits l' c = true := by
  cases f with
  | waitForChild retvalp =>
      rw [Frame.awaits, decide_eq_true_eq] at awaits ⊢
      exact sub awaits
  | waitpid pid d retvalp => exact awaits
  | user | done | start | exit | preceive | psend => cases awaits

/-- The parent of `c`, not process 0, is BLOCKED in a `waitpid` for it. -/
def Kernel.awaited (k : Kernel) (c : Addr) : Bool :=
  match k.procs c with
  | none => false
  | some pc =>
      match pc.parent with
      | none => false
      | some b =>
          match k.procs b with
          | none => false
          | some p =>
              decide (p.pid ≠ 0) && decide (p.status = .blocked) &&
                p.context.awaits p.childrenList c

/-- A `kill` by a third process of a child its parent is waiting for. -/
def Kernel.killsAwaited (k : Kernel) : Event → Bool
  | .call (.kill pid) =>
      decide (0 < pid) && decide (pid ≠ k.activePID) &&
        (k.processesTable pid.toNat).any k.awaited
  | _ => false

def SparesAwaited (_ : History) (t : Step) : Prop :=
  t.before.killsAwaited t.event = false

instance (past : History) (t : Step) : Decidable (SparesAwaited past t) :=
  inferInstanceAs (Decidable (_ = _))

/-- No process is BLOCKED in a `waitpid` for a child that is a ZOMBIE. -/
def Kernel.Wakeful (k : Kernel) : Prop :=
  ∀ b p c pc, k.procs b = some p → p.status = .blocked →
    p.context.awaits p.childrenList c = true → k.procs c = some pc → pc.status ≠ .zombie

namespace Family

variable {F G : Family} {a b c : Addr} {m mc : Member} {heir : Option Addr} {next : Addr}
  {e : Event} {n : Next}

def Alert (F : Family) : Prop :=
  ∀ b m c mc, F b = some m → m.phase = .blocked → m.context.awaits m.children c = true →
    F c = some mc → mc.phase ≠ .zombie

theorem awaits_child (patient : F.Patient) (here : F b = some m) (blocked : m.phase = .blocked)
    (awaits : m.context.awaits m.children c = true) : c ∈ m.children := by
  cases context : m.context with
  | user | done | start | exit | preceive | psend =>
      rw [context] at awaits
      cases awaits
  | waitpid pid d retvalp =>
      rw [context, Frame.awaits, decide_eq_true_eq] at awaits
      have expects := patient b m here (.inr blocked)
      exact awaits ▸ (expects.child pid d retvalp context).1
  | waitForChild retvalp =>
      rw [context, Frame.awaits, decide_eq_true_eq] at awaits
      exact awaits

theorem awaits_parent (sound : F.Sound next) (patient : F.Patient) (here : F b = some m)
    (blocked : m.phase = .blocked) (awaits : m.context.awaits m.children c = true)
    (there : F c = some mc) : mc.parent = some b :=
  (sound.owned b m c mc here (awaits_child patient here blocked awaits) there).1

theorem Alert.saved
    (others : ∀ b m c mc, b ≠ a → G b = some m → m.phase = .blocked →
      m.context.awaits m.children c = true → G c = some mc → mc.phase ≠ .zombie)
    (self : ∀ m c mc, G a = some m → m.phase = .blocked →
      (m.saved n).context.awaits m.children c = true → G c = some mc → mc.phase ≠ .zombie) :
    (G.edit a (Member.saved n)).Alert := by
  intro b m' c mc' there blocked awaits found
  obtain ⟨m, here, rfl⟩ := of_edit there
  obtain ⟨mc, held, rfl⟩ := of_edit found
  have phase : (if c = a then mc.saved n else mc).phase = mc.phase := by split <;> rfl
  rw [phase]
  split at blocked
  · next same =>
    rw [if_pos same] at awaits
    exact self m c mc (same ▸ here) blocked awaits held
  · next other =>
    rw [if_neg other] at awaits
    exact others b m c mc other here blocked awaits held

theorem Alert.saved_awake (alert : G.Alert) (awake : ∀ m, G a = some m → m.phase ≠ .blocked) :
    (G.edit a (Member.saved n)).Alert := by
  apply Alert.saved
  · intro b m c mc _
    exact alert b m c mc
  · intro m c mc here blocked
    exact absurd blocked (awake m here)

theorem of_edit_apart {f : Member → Member} {m' : Member}
    (same : ∀ m, (f m).phase = m.phase ∧ (f m).context = m.context ∧ (f m).children = m.children)
    (there : F.edit a f b = some m') :
    ∃ m, F b = some m ∧ m'.phase = m.phase ∧ m'.context = m.context ∧
      m'.children = m.children := by
  obtain ⟨m, here, rfl⟩ := of_edit there
  refine ⟨m, here, ?_⟩
  split
  · exact same m
  · exact ⟨rfl, rfl, rfl⟩

theorem Alert.edit {f : Member → Member} (alert : F.Alert)
    (same : ∀ m, (f m).phase = m.phase ∧ (f m).context = m.context ∧
      (f m).children = m.children) : (F.edit a f).Alert := by
  intro b m' c mc' found blocked awaits found' zombie
  obtain ⟨m, before, phase, context, children⟩ := of_edit_apart same found
  obtain ⟨mc, held, phase', -⟩ := of_edit_apart same found'
  rw [phase] at blocked
  rw [context, children] at awaits
  exact alert b m c mc before blocked awaits held (phase' ▸ zombie)

theorem Alert.block {request : Request} {retvalp : Bool} (alert : F.Alert) (here : F a = some m)
    (running : ∀ c, request.Admits m.children c → ∃ mc, F c = some mc ∧ mc.phase ≠ .zombie) :
    ((F.edit a fun m => { m with phase := .blocked }).edit a
      (Member.saved (.suspend (request.frame retvalp)))).Alert := by
  have kept (c : Addr) (mc' : Member)
      (found : F.edit a (fun m => { m with phase := .blocked }) c = some mc') :
      ∃ mc, F c = some mc ∧ (mc'.phase = .zombie → mc.phase = .zombie) := by
    obtain ⟨mc, held, rfl⟩ := of_edit found
    refine ⟨mc, held, fun zombie => ?_⟩
    split at zombie
    · cases zombie
    · exact zombie
  apply Alert.saved
  · intro b m' c mc' other there blocked awaits found zombie
    rw [edit_other other] at there
    obtain ⟨mc, held, before⟩ := kept c mc' found
    exact alert b m' c mc there blocked awaits held (before zombie)
  · intro m' c mc' there _ awaits found zombie
    rw [edit_self here, Option.some.injEq] at there
    subst there
    obtain ⟨mc, held, before⟩ := kept c mc' found
    have admitted : request.Admits m.children c := by
      cases request with
      | child pid d => exact (of_decide_eq_true awaits).symm
      | any => exact of_decide_eq_true (p := c ∈ m.children) awaits
    obtain ⟨mc₁, again, awake⟩ := running c admitted
    rw [held, Option.some.injEq] at again
    exact awake (again ▸ before zombie)

theorem Alert.dismiss (alert : F.Alert) : (F.dismiss c a).Alert := by
  intro b m' d md' found blocked awaits found' zombie
  obtain ⟨mb, before, rfl⟩ := of_dismiss found
  obtain ⟨md, held, rfl⟩ := of_dismiss found'
  have apart : b ≠ c := by
    rintro rfl
    simp at blocked
  have stranger : d ≠ c := by
    rintro rfl
    simp at zombie
  simp only [if_neg apart, if_neg stranger] at blocked zombie
  have fewer : (if b = a then mb.children.erase c else mb.children) ⊆ mb.children := by
    split
    · exact List.erase_subset
    · exact List.Subset.refl _
  exact alert b mb d md before blocked (Frame.awaits_mono fewer awaits) held zombie

theorem Alert.adopt {new : Member} {placed : List Addr} {d : Addr} (alert : F.Alert)
    (phase : new.phase = .alive)
    (awake : ∀ b m, new.parent = some b → F b = some m → m.phase ≠ .blocked) :
    (F.adopt d new placed).Alert := by
  intro b m' c mc' found blocked awaits found' zombie
  rcases of_adopt found with ⟨-, rfl⟩ | ⟨-, mb, before, rfl⟩
  · rw [phase] at blocked
    cases blocked
  · have stranger : new.parent ≠ some b := fun owner => awake b mb owner before blocked
    simp only [if_neg stranger] at awaits
    rcases of_adopt found' with ⟨-, rfl⟩ | ⟨-, mc, held, rfl⟩
    · rw [phase] at zombie
      cases zombie
    · exact alert b mb c mc before blocked awaits held zombie

theorem Alert.conclude {s : Phase} {f : Member → Member} (alert : F.Alert)
    {b : Addr} {m' : Member} (there : (F.edit a f).conclude a s heir b = some m')
    (blocked : m'.phase = .blocked) (dead : s = .zombie ∨ s = .dying)
    (awaits : m'.context.awaits m'.children c = true)
    (found : (F.edit a f).conclude a s heir c = some mc) (zombie : mc.phase = .zombie)
    (same : ∀ m, (f m).phase = m.phase ∧ (f m).context = m.context ∧
      (f m).children = m.children) :
    c = a ∧ s = .zombie ∧ ∃ m, F b = some m ∧ m.phase = .blocked ∧
      m.context.awaits m.children c = true := by
  have edited : (F.edit a f).Alert := alert.edit same
  have before : ∃ m, F.edit a f b = some m ∧ m.phase = .blocked ∧
      m.context.awaits m.children c = true := by
    obtain ⟨m, here, ⟨-, rfl⟩ | ⟨-, -, rfl⟩ | ⟨-, -, rfl⟩⟩ := of_conclude there
    · rcases dead with rfl | rfl <;> cases blocked
    · have living : (m.orphan heir).Living := .inr blocked
      exact ⟨m, here, living.of_orphan.2.1 ▸ blocked, awaits⟩
    · exact ⟨m', here, blocked, awaits⟩
  obtain ⟨m, here, blocked₀, awaits₀⟩ := before
  obtain ⟨mc₀, held, ⟨ended, rfl⟩ | ⟨-, -, rfl⟩ | ⟨-, -, rfl⟩⟩ := of_conclude found
  · obtain ⟨m₁, there₁, phase, context, children⟩ := of_edit_apart same here
    rw [phase] at blocked₀
    rw [context, children] at awaits₀
    exact ⟨ended, zombie, m₁, there₁, blocked₀, awaits₀⟩
  · have ended : mc₀.phase = .zombie := by
      by_contra running
      simp only [Member.orphan, if_neg running] at zombie
      exact running zombie
    exact absurd ended (edited b m c mc₀ here blocked₀ awaits₀ held)
  · exact absurd zombie (edited b m c mc here blocked₀ awaits₀ held)

theorem Alert.rouse
    (others : ∀ d m c mc, d ≠ b → F d = some m → m.phase = .blocked →
      m.context.awaits m.children c = true → F c = some mc → mc.phase ≠ .zombie) :
    (F.rouse b).Alert := by
  intro d m' c mc' found blocked awaits found'
  obtain ⟨m, here, rfl⟩ := of_edit found
  obtain ⟨mc, held, rfl⟩ := of_edit found'
  have stranger : d ≠ b := by
    rintro rfl
    rw [if_pos rfl] at blocked
    dsimp only at blocked
    split at blocked
    · cases blocked
    · next awake => exact awake blocked
  rw [if_neg stranger] at blocked awaits
  have awake := others d m c mc stranger here blocked awaits held
  split
  · dsimp only
    split
    · nofun
    · exact awake
  · exact awake

end Family

namespace Deed

open Family

variable {F G : Family} {a b c : Addr} {m mc : Member} {heir : Option Addr} {next : Addr}
  {e : Event} {n : Next}

theorem alert (deed : Deed F heir next a m e n G) (sound : F.Sound next) (patient : F.Patient)
    (alert : F.Alert) (here : F a = some m) (alive : m.phase = .alive)
    (spared : ∀ pid c mc b mb, e = .call (.kill pid) → 0 < pid → F c = some mc →
      mc.pid = pid.toNat → c ≠ a → mc.parent = some b → F b = some mb → mb.pid ≠ 0 →
      mb.phase = .blocked → mb.context.awaits mb.children c = false) :
    (G.edit a (Member.saved n)).Alert := by
  have awake (m' : Member) (there : F a = some m') : m'.phase ≠ .blocked := by
    rw [here, Option.some.injEq] at there
    rw [← there, alive]
    nofun
  cases deed with
  | other harmless resumed interrupted left => exact alert.saved_awake awake
  | failed => exact alert.saved_awake awake
  | refused given => exact alert.saved_awake awake
  | childless given none => exact alert.saved_awake awake
  | missed waiting running => exact alert.saved_awake awake
  | blocks asks given running => exact alert.block here running
  | collects asks admitted there ended siblings =>
      refine alert.dismiss.saved_awake fun m' found => ?_
      obtain ⟨ma, before, rfl⟩ := of_dismiss found
      dsimp only
      split
      · nofun
      · exact awake ma before
  | bears left siblings childless phase context parent joined =>
      refine (alert.adopt phase fun b mb owner => parent b owner ▸ awake mb).saved_awake ?_
      intro m' found
      rcases of_adopt found with ⟨-, rfl⟩ | ⟨-, ma, before, rfl⟩
      · rw [phase]
        nofun
      · exact awake ma before
  | @exits e value b parent ends owner there other =>
      refine Alert.saved_awake (.rouse fun d m' c mc' stranger found blocked awaits found' zombie => ?_)
        fun m' found blocked => ?_
      · obtain ⟨rfl, -, m₂, before, blocked₂, awaits₂⟩ :=
          alert.conclude found blocked (.inl rfl) awaits found' zombie fun _ => ⟨rfl, rfl, rfl⟩
        have owner' := awaits_parent sound patient before blocked₂ awaits₂ here
        rw [owner, Option.some.injEq] at owner'
        exact stranger owner'.symm
      · obtain ⟨m₁, concluded, rfl⟩ := of_edit found
        rw [Family.conclude, if_pos rfl, edit_self here, Option.map_some,
          Option.some.injEq] at concluded
        subst concluded
        split at blocked <;> cases blocked
  | @vanishes e value ends gone =>
      refine Alert.saved_awake (fun d m' c mc' found blocked awaits found' zombie => ?_)
        fun m' found blocked => ?_
      · obtain ⟨-, impossible, -⟩ :=
          alert.conclude found blocked (.inr rfl) awaits found' zombie fun _ => ⟨rfl, rfl, rfl⟩
        cases impossible
      · rw [Family.conclude, if_pos rfl, edit_self here, Option.map_some,
          Option.some.injEq] at found
        subst found
        cases blocked
  | @kills pid c mc s positive there named other running sentence =>
      have dead : s = .zombie ∨ s = .dying := by
        rcases sentence with ⟨phase, -⟩ | ⟨phase, -⟩
        · exact .inl phase
        · exact .inr phase
      refine Alert.saved_awake (fun d m' c' mc' found blocked awaits found' zombie => ?_)
        fun m' found blocked => ?_
      · obtain ⟨rfl, rfl, mb, held, blocked', awaits'⟩ :=
          alert.conclude found blocked dead awaits found' zombie fun _ => ⟨rfl, rfl, rfl⟩
        have owner := awaits_parent sound patient held blocked' awaits' there
        rcases sentence with ⟨-, b, parent, owner', there', pid'⟩ | ⟨impossible, -⟩
        · rw [owner, Option.some.injEq] at owner'
          subst b
          rw [held, Option.some.injEq] at there'
          subst parent
          have not := spared pid c' mc d mb rfl positive there named other owner held pid' blocked'
          rw [awaits'] at not
          cases not
        · cases impossible
      · have mine : F.edit c (fun m => { m with killed := true }) a = some m :=
          (edit_other (Ne.symm other)).trans here
        obtain ⟨m₁, before, ⟨same, -⟩ | ⟨-, -, rfl⟩ | ⟨-, -, rfl⟩⟩ := of_conclude found
        · exact absurd same.symm other
        · have living : (m₁.orphan heir).Living := .inr blocked
          rw [mine, Option.some.injEq] at before
          rw [living.of_orphan.2.1, ← before, alive] at blocked
          cases blocked
        · rw [mine, Option.some.injEq] at before
          rw [← before, alive] at blocked
          cases blocked

end Deed

open Kernel

theorem Kernel.Wakeful.of_alert {k : Kernel} (alert : k.family.Alert) : k.Wakeful := by
  intro b p c pc here blocked awaits there zombie
  exact alert b p.member c pc.member (family_apply here) (Status.phase_blocked.mpr blocked) awaits
    (family_apply there) (Status.phase_zombie.mpr zombie)

theorem Kernel.not_awaited {k : Kernel} {e : Event} {pid : Int} {a b c : Addr} {mc mb : Member}
    (consistent : k.Consistent) (current : k.processesTable k.activePID = some a)
    (spared : k.killsAwaited e = false) (kill : e = .call (.kill pid)) (positive : 0 < pid)
    (there : k.family c = some mc) (named : mc.pid = pid.toNat) (other : c ≠ a)
    (owner : mc.parent = some b) (held : k.family b = some mb) (pid' : mb.pid ≠ 0)
    (blocked : mb.phase = .blocked) : mb.context.awaits mb.children c = false := by
  obtain ⟨pc, found, rfl⟩ := of_family there
  obtain ⟨p, found', rfl⟩ := of_family held
  have slot : k.processesTable pid.toNat = some c := by
    rw [← named]
    exact consistent.owned c pc found
  have apart : pid ≠ k.activePID := by
    intro same
    rw [same, Int.toNat_natCast, current, Option.some.injEq] at slot
    exact other slot.symm
  have parent : pc.parent = some b := owner
  rw [kill, killsAwaited, slot, Option.any_some, decide_eq_true positive, decide_eq_true apart,
    Bool.true_and, Bool.true_and, awaited, found] at spared
  simp only [parent, found'] at spared
  rw [decide_eq_true (p := p.pid ≠ 0) pid', decide_eq_true (Status.phase_blocked.mp blocked),
    Bool.true_and, Bool.true_and] at spared
  exact spared

/-- As long as no third process kills a child its parent is waiting for, no parent sleeps
through the end of its child. -/
theorem no_parent_sleeps_through {history : History} {k : Kernel} (run : Reached history k)
    (spares : Meets SparesAwaited history) : k.Wakeful := by
  refine Wakeful.of_alert (run.invariant (I := fun _ k => k.family.Alert) (fun k booted => ?_)
    (fun past k e n k' run spares alert taken spared => ?_) spares)
  · obtain ⟨p, -, -, -, context, -, -, -, -, -, -, -, -, procs, -⟩ := booted.state
    intro b m c mc there _ awaits
    obtain ⟨p', here, rfl⟩ := of_family there
    rw [procs] at here
    split at here
    · cases here
      change p.context.awaits p.childrenList c = true at awaits
      rw [context] at awaits
      cases awaits
    · cases here
  · obtain ⟨consistent, running⟩ := consistent_of_run run
    have kindred := kindred_of_run run
    obtain ⟨a, m, G, acts⟩ := step_acts consistent running kindred.sound taken
    have alert' := acts.deed.alert kindred.sound kindred.patient alert acts.here acts.alive
      fun pid c mc b mb kill positive there named other owner held pid' blocked =>
        not_awaited consistent acts.current spared kill positive there named other owner held
          pid' blocked
    intro b m' c mc' there blocked awaits found
    exact alert' b m' c mc' (acts.buried.of_some there) blocked awaits (acts.buried.of_some found)

/-- A parent is woken by the end of one child, waits on and is woken by the other. -/
theorem no_parent_sleeps_through_two : ∃ (history : History) (k : Kernel),
    history.length = 8 ∧ k.Wakeful := by
  obtain ⟨history, k, run, checked⟩ := reached_by
    [.call (.start 512 10 [97] true true), .call (.start 512 5 [98] true true),
      .call (.start 512 6 [99] true true), .call (.waitpid 2 true), .call (.exit 7), .resume,
      .call (.kill 2), .resume]
    (fun history _ => decide (history.length = 8) && decide (Meets SparesAwaited history))
    (by decide +kernel)
  simp only [Bool.and_eq_true, decide_eq_true_eq] at checked
  exact ⟨history, k, checked.1, no_parent_sleeps_through run checked.2⟩

/-- One child kills another their parent is waiting for: the parent stays BLOCKED. -/
theorem parent_sleeps_through_kill : ¬ ∀ history k, Reached history k → k.Wakeful := by
  intro wakeful
  obtain ⟨history, k, run, checked⟩ := reached_by
    [.call (.start 512 10 [97] true true), .call (.start 512 5 [98] true true),
      .call (.start 512 6 [99] true true), .call (.waitpid 2 true), .call (.kill 2)]
    (fun _ k =>
      (k.procs 3).any (fun p : Proc => decide (p.status = .blocked) && p.context.awaits p.childrenList 5) &&
        (k.procs 5).any fun pc : Proc => decide (pc.status = .zombie))
    (by decide +kernel)
  simp only [Bool.and_eq_true, decide_eq_true_eq, Option.any_eq_true] at checked
  obtain ⟨⟨p, here, blocked, awaits⟩, pc, there, zombie⟩ := checked
  exact wakeful history k run 3 p 5 pc here blocked awaits there zombie

end IntelX86Kernel

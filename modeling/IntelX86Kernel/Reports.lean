import IntelX86Kernel.Lineage

/-! What `waitpid` reports, read off the history of a run. -/

namespace IntelX86Kernel

open Transition

def actor (t : Step) : Option Addr := t.before.processesTable t.before.activePID

def Event.isCall : Event → Bool
  | .call _ => true
  | _ => false

def lastCall (a : Addr) : History → Option Step
  | [] => none
  | t :: past => if actor t = some a ∧ t.event.isCall = true then some t else lastCall a past

/-- The value the parent of `c` is to get when a step ends `c`. -/
def ending (c : Addr) (t : Step) : Option Int :=
  match t.event with
  | .call (.exit value) => if actor t = some c then some value else none
  | .call (.kill pid) =>
      if 0 < pid ∧ t.before.processesTable pid.toNat = some c ∧
          (t.before.procs c).map Proc.status ≠ some .zombie then some 0
      else none
  | _ => none

def endings (c : Addr) (history : History) : List Int := history.filterMap (ending c)

def StartedBy (a c : Addr) (history : History) : Prop :=
  ∃ t ∈ history, actor t = some a ∧ t.before.procs c = none ∧ t.after.procs c ≠ none ∧
    ∃ ssize prio name procGranted stackGranted,
      t.event = .call (.start ssize prio name procGranted stackGranted)

def Reports (past : History) (t : Step) (c : Addr) : Prop :=
  ∃ a t₀ pid retvalp value out, actor t = some a ∧ lastCall a (t :: past) = some t₀ ∧
    t₀.event = .call (.waitpid pid retvalp) ∧ t.outcome = .ret value out ∧ 0 ≤ value ∧
    t.before.processesTable value.toNat = some c

/-- No `waitpid` has returned for `c` so far. -/
def Unreported (c : Addr) : History → Prop :=
  Meets fun past t => ¬ Reports past t c

def Recalls (a : Addr) (t : Step) : Frame → Prop
  | .waitpid pid _ retvalp => t.event = .call (.waitpid pid retvalp)
  | .waitForChild retvalp =>
      (∃ pid < 0, t.event = .call (.waitpid pid retvalp)) ∧ t.before.childrenOf a ≠ []
  | _ => ∀ pid retvalp, t.event ≠ .call (.waitpid pid retvalp)

/-- The history agrees with what the families remember of it. -/
structure Ledger (history : History) (F : Family) (next : Addr) : Prop where
  started : ∀ b m c, F b = some m → c ∈ m.children → StartedBy b c history
  unreported : ∀ b m c, F b = some m → c ∈ m.children → Unreported c history
  living : ∀ c mc, F c = some mc → mc.Living → endings c history = []
  ended : ∀ b m c mc, F b = some m → c ∈ m.children → F c = some mc → mc.phase = .zombie →
    endings c history = [mc.verdict]
  unborn : ∀ c, next ≤ c → endings c history = [] ∧ Unreported c history
  calls : ∀ a m, F a = some m → m.Living → m.context ≠ .user →
    ∃ t, lastCall a history = some t ∧ Recalls a t m.context

variable {k k' : Kernel} {a b c : Addr} {m mc : Member} {e : Event} {n : Next} {G : Family}
  {past : History} {t : Step} {heir : Option Addr} {next : Addr}

theorem lastCall_other (other : actor t ≠ some b) : lastCall b (t :: past) = lastCall b past :=
  if_neg fun both => other both.1

theorem lastCall_call {call : Call} (same : actor t = some a) (event : t.event = .call call) :
    lastCall a (t :: past) = some t :=
  if_pos ⟨same, by rw [event]; rfl⟩

theorem lastCall_resume (event : t.event.isCall = false) :
    lastCall a (t :: past) = lastCall a past :=
  if_neg fun both => by rw [event] at both; cases both.2

theorem endings_cons_none (none : ending c t = none) : endings c (t :: past) = endings c past :=
  List.filterMap_cons_none none

theorem endings_cons_some {value : Int} (some : ending c t = some value) :
    endings c (t :: past) = value :: endings c past :=
  List.filterMap_cons_some some

theorem StartedBy.later (started : StartedBy a c past) : StartedBy a c (t :: past) := by
  obtain ⟨t', member, rest⟩ := started
  exact ⟨t', List.mem_cons_of_mem _ member, rest⟩

namespace Family

variable {F : Family} {d : Addr}

structure Unended (m m' : Member) : Prop where
  context : m'.context = m.context
  living : m'.Living → m.Living
  zombie : m'.phase = .zombie → m.phase = .zombie ∧ m'.verdict = m.verdict

theorem Unended.refl (m : Member) : Unended m m := ⟨rfl, id, fun zombie => ⟨zombie, rfl⟩⟩

theorem Unended.orphan : Unended m (m.orphan heir) where
  context := rfl
  living := fun living => living.of_orphan.1
  zombie := by
    intro zombie
    by_cases ended : m.phase = .zombie
    · exact ⟨ended, rfl⟩
    · simp only [Member.orphan, if_neg ended] at zombie
      exact absurd zombie ended

theorem of_rouse {m' : Member} (there : F.rouse b c = some m') :
    ∃ m, F c = some m ∧ Unended m m' ∧ m'.verdict = m.verdict := by
  obtain ⟨m, before, rfl⟩ := of_edit there
  refine ⟨m, before, ?_⟩
  split
  · refine ⟨⟨rfl, fun living => ?_, fun zombie => ?_⟩, rfl⟩
    · rw [Member.Living] at living ⊢
      dsimp only at living
      split at living
      · next blocked => exact .inr blocked
      · exact living
    · dsimp only at zombie
      split at zombie
      · cases zombie
      · exact ⟨zombie, rfl⟩
  · exact ⟨.refl m, rfl⟩

theorem of_end {f : Member → Member} {s : Phase} {m' : Member}
    (there : (F.edit d f).conclude d s heir c = some m')
    (same : ∀ m, (f m).context = m.context) :
    ∃ m, F c = some m ∧ m'.context = m.context ∧
      ((c = d ∧ m'.phase = s ∧ m'.verdict = (f m).verdict) ∨ (c ≠ d ∧ Unended m m')) := by
  obtain ⟨m₁, edited, cause⟩ := of_conclude there
  obtain ⟨m, before, rfl⟩ := of_edit edited
  refine ⟨m, before, ?_⟩
  rcases cause with ⟨rfl, rfl⟩ | ⟨other, -, rfl⟩ | ⟨other, -, rfl⟩
  · rw [if_pos rfl]
    exact ⟨same m, .inl ⟨rfl, rfl, rfl⟩⟩
  · rw [if_neg other]
    exact ⟨rfl, .inr ⟨other, .orphan⟩⟩
  · rw [if_neg other]
    exact ⟨rfl, .inr ⟨other, .refl m⟩⟩

end Family

namespace Kernel

theorem Consistent.unlisted (consistent : k.Consistent) (absent : k.procs c = none) (pid : Nat) :
    k.processesTable pid ≠ some c := by
  intro slot
  obtain ⟨-, p, here, -⟩ := consistent.table _ _ slot
  rw [absent] at here
  cases here

theorem unborn_ending (consistent : k.Consistent) (absent : k.procs c = none) :
    ending c ⟨k, e, n, k'⟩ = none := by
  unfold ending
  split
  · exact if_neg (consistent.unlisted absent _)
  · exact if_neg fun both => consistent.unlisted absent _ both.2.1
  · rfl

theorem unborn_report (consistent : k.Consistent) (absent : k.procs c = none) :
    ¬ Reports past ⟨k, e, n, k'⟩ c := by
  rintro ⟨a, t₀, pid, retvalp, value, out, -, -, -, -, -, slot⟩
  exact consistent.unlisted absent _ slot

theorem harmless_ending (consistent : k.Consistent) (harmless : Harmless k.family e) :
    ending c ⟨k, e, n, k'⟩ = none := by
  unfold ending
  split
  · next value event =>
    change e = _ at event
    subst event
    exact harmless.elim
  · next pid event =>
    change e = _ at event
    subst event
    refine if_neg fun both => ?_
    obtain ⟨positive, slot, alive⟩ := both
    obtain ⟨-, p, here, named⟩ := consistent.table _ _ slot
    have zombie := harmless positive c p.member (family_apply here) named
    change Option.map Proc.status (k.procs c) ≠ _ at alive
    rw [here, Option.map_some, Status.phase_zombie.mp zombie] at alive
    exact alive rfl
  · rfl

theorem asks_ending {request : Request} {retvalp : Bool} (asks : Asks k.family m e request retvalp) :
    ending c ⟨k, e, n, k'⟩ = none := by
  cases asks <;> rfl

theorem ends_ending {value : Int} (k' : Kernel) (consistent : k.Consistent)
    (current : k.processesTable k.activePID = some a) (here : k.family a = some m)
    (alive : m.phase = .alive) (ends : Ends m value e) :
    ending c ⟨k, e, n, k'⟩ = if c = a then some value else none := by
  rcases ends with rfl | ⟨pid, rfl, positive, named, rfl⟩
  · change (if k.processesTable k.activePID = some c then some value else none) = _
    rw [current]
    simp only [Option.some.injEq, eq_comm]
  · obtain ⟨p, held, rfl⟩ := of_family here
    have slot : k.processesTable pid.toNat = some a := by
      rw [named, Int.toNat_natCast]
      exact consistent.owned a p held
    change (if 0 < pid ∧ k.processesTable pid.toNat = some c ∧
      (k.procs c).map Proc.status ≠ some .zombie then some 0 else none) = _
    rw [slot]
    by_cases same : c = a
    · subst same
      have running : p.status ≠ .zombie := by
        intro zombie
        rw [Proc.member, zombie] at alive
        cases alive
      have other : (k.procs c).map Proc.status ≠ some .zombie := by
        rw [held, Option.map_some]
        exact fun equal => running (Option.some.inj equal)
      rw [if_pos rfl, if_pos ⟨positive, rfl, other⟩]
    · rw [if_neg same]
      exact if_neg fun both => same (Option.some.inj both.2.1).symm

theorem kills_ending {pid : Int} {d : Addr} (k' : Kernel) (consistent : k.Consistent)
    (positive : 0 < pid)
    (there : k.family d = some mc) (named : mc.pid = pid.toNat) (running : mc.phase ≠ .zombie) :
    ending c ⟨k, .call (.kill pid), n, k'⟩ = if c = d then some 0 else none := by
  obtain ⟨p, held, rfl⟩ := of_family there
  have slot : k.processesTable pid.toNat = some d := by
    rw [← named]
    exact consistent.owned d p held
  change (if 0 < pid ∧ k.processesTable pid.toNat = some c ∧
    (k.procs c).map Proc.status ≠ some .zombie then some 0 else none) = _
  rw [slot]
  by_cases same : c = d
  · subst same
    have other : (k.procs c).map Proc.status ≠ some .zombie := by
      rw [held, Option.map_some]
      exact fun equal => running (Status.phase_zombie.mpr (Option.some.inj equal))
    rw [if_pos rfl, if_pos ⟨positive, rfl, other⟩]
  · rw [if_neg same]
    exact if_neg fun both => same (Option.some.inj both.2.1).symm

theorem returned_waitpid {t₀ : Step} {pid value : Int} {retvalp : Bool} {out : Option Int}
    (acts : k.Acts e n k' a m G) (kindred : k.Kindred) (ledger : Ledger past k.family k.nextBlock)
    (called : lastCall a (⟨k, e, n, k'⟩ :: past) = some t₀)
    (waitpid : t₀.event = .call (.waitpid pid retvalp)) (returned : n = .ret value out) :
    (value = -1 ∧ 0 ≤ pid) ∨ (value = -1 ∧ pid < 0 ∧ t₀.before.childrenOf a = []) ∨
      ∃ c mc, c ∈ m.children ∧ k.family c = some mc ∧ mc.phase = .zombie ∧
        value = mc.pid ∧ out = (if retvalp then some mc.verdict else none) ∧
        (0 ≤ pid → value = pid) ∧ (pid < 0 → t₀.before.childrenOf a ≠ []) ∧
        G = k.family.dismiss c a := by
  obtain ⟨current, here, alive, deed, -, -, -⟩ := acts
  have own : actor ⟨k, e, n, k'⟩ = some a := current
  have children : k.childrenOf a = m.children := childrenOf_eq here
  have recalls (busy : m.context ≠ .user) (resumed : e = .resume) : Recalls a t₀ m.context := by
    obtain ⟨t, call, recalls⟩ := ledger.calls a m here (.inl alive) busy
    have same : lastCall a (⟨k, e, n, k'⟩ :: past) = lastCall a past :=
      lastCall_resume (by rw [resumed]; rfl)
    rw [same, call, Option.some.injEq] at called
    exact called ▸ recalls
  have direct {call : Call} (event : e = .call call) : .call call = t₀.event := by
    rw [lastCall_call own event, Option.some.injEq] at called
    rw [← called, event]
  cases deed with
  | @other e n harmless resumed interrupted left =>
      exfalso
      cases event : e with
      | clockInterrupt =>
          rw [interrupted event] at returned
          cases returned
      | call call =>
          have same := (direct event).trans waitpid
          cases same
          rw [event] at harmless
          exact harmless
      | resume =>
          obtain ⟨waitless, busy⟩ := resumed event
          have recalls := recalls busy event
          cases context : m.context with
          | waitpid | waitForChild =>
              rw [context] at waitless
              cases waitless
          | user => exact busy context
          | done | start | exit | preceive | psend =>
              rw [context] at recalls
              exact recalls pid retvalp waitpid
  | failed =>
      have same := (direct rfl).trans waitpid
      cases same
  | refused given =>
      have same := (direct rfl).trans waitpid
      cases same
      cases returned
      exact .inl ⟨rfl, given⟩
  | childless given none =>
      have same := (direct rfl).trans waitpid
      cases same
      cases returned
      refine .inr (.inl ⟨rfl, given, ?_⟩)
      rw [lastCall_call own rfl, Option.some.injEq] at called
      rw [← called, children, none]
  | @missed retvalp waiting running =>
      obtain ⟨c, child, mc, there, zombie⟩ :=
        (kindred.patient a m here (.inl alive)).any retvalp alive waiting
      obtain ⟨mc', there', awake⟩ := running c child
      rw [there, Option.some.injEq] at there'
      exact absurd zombie (there' ▸ awake)
  | blocks asks given running => cases returned
  | @collects e request retvalp' c owner mc asks admitted there ended siblings =>
      cases returned
      have expects := kindred.patient a m here (.inl alive)
      have child := Deed.admitted_child asks expects admitted
      have mine := (kindred.sound.owned a m c mc here child there).2
      rw [siblings, Option.some.injEq] at mine
      subst mine
      refine .inr (.inr ⟨c, mc, child, there, ended, rfl, ?_⟩)
      cases asks with
      | child given listed there' named =>
          have same := (direct rfl).trans waitpid
          cases same
          rw [admitted] at there
          rw [there, Option.some.injEq] at there'
          subst there'
          exact ⟨rfl, fun _ => by omega, fun negative => by omega, rfl⟩
      | any given =>
          have same := (direct rfl).trans waitpid
          cases same
          refine ⟨rfl, fun positive => by omega, fun _ => ?_, rfl⟩
          rw [lastCall_call own rfl, Option.some.injEq] at called
          rw [← called, children]
          exact List.ne_nil_of_mem child
      | again waiting =>
          have busy : m.context ≠ .user := by
            rw [waiting]
            cases request <;> nofun
          have recalls := recalls busy rfl
          rw [waiting] at recalls
          cases request with
          | child pid' d =>
              change t₀.event = _ at recalls
              rw [waitpid] at recalls
              cases recalls
              have named := (expects.child pid' d retvalp waiting).2 mc (admitted ▸ there)
              exact ⟨rfl, fun _ => by rw [named], fun negative => by omega, rfl⟩
          | any =>
              obtain ⟨⟨pid', negative, event⟩, children⟩ := recalls
              rw [waitpid] at event
              cases event
              exact ⟨rfl, fun positive => by omega, fun _ => children, rfl⟩
  | bears left siblings childless phase context parent joined =>
      have same := (direct rfl).trans waitpid
      cases same
  | exits ends owner there other => cases returned
  | vanishes ends gone => cases returned
  | kills positive there named other running sentence => cases returned

theorem Acts.fate (acts : k.Acts e n k' a m G) (consistent : k.Consistent) {mc' : Member}
    (there : G c = some mc') :
    (c = k.nextBlock ∧ mc'.phase = .alive ∧ mc'.context = .user) ∨
      ∃ mc, k.family c = some mc ∧ mc'.context = mc.context ∧
        ((ending c ⟨k, e, n, k'⟩ = none ∧ Family.Unended mc mc') ∨
          (ending c ⟨k, e, n, k'⟩ = some mc'.verdict ∧ ¬ mc'.Living ∧ mc.phase ≠ .zombie ∧
            (mc'.phase = .zombie → k.family.ParentAlive mc))) := by
  obtain ⟨current, here, alive, deed, -, -, -⟩ := acts
  have same (none : ending c ⟨k, e, n, k'⟩ = none) (there : k.family c = some mc') :
      ∃ mc, k.family c = some mc ∧ mc'.context = mc.context ∧
        ((ending c ⟨k, e, n, k'⟩ = Option.none ∧ Family.Unended mc mc') ∨
          (ending c ⟨k, e, n, k'⟩ = some mc'.verdict ∧ ¬ mc'.Living ∧ mc.phase ≠ .zombie ∧
            (mc'.phase = .zombie → k.family.ParentAlive mc))) :=
    ⟨mc', there, rfl, .inl ⟨none, .refl mc'⟩⟩
  have running : m.phase ≠ .zombie := by rw [alive]; nofun
  cases deed with
  | other harmless resumed interrupted left =>
      exact .inr (same (harmless_ending consistent harmless) there)
  | failed => exact .inr (same rfl there)
  | refused given => exact .inr (same rfl there)
  | childless given none => exact .inr (same rfl there)
  | missed waiting running => exact .inr (same rfl there)
  | blocks asks given running =>
      obtain ⟨mc, before, rfl⟩ := Family.of_edit there
      have context : (if c = a then { mc with phase := .blocked } else mc).context =
          mc.context := by split <;> rfl
      refine .inr ⟨mc, before, context, .inl ⟨asks_ending asks, context, fun living => ?_,
        fun zombie => ?_⟩⟩
      · by_cases own : c = a
        · rw [own, here, Option.some.injEq] at before
          exact before ▸ .inl alive
        · rw [if_neg own] at living
          exact living
      · by_cases own : c = a
        · rw [if_pos own] at zombie
          cases zombie
        · rw [if_neg own] at zombie ⊢
          exact ⟨zombie, rfl⟩
  | @collects e request retvalp d owner md asks admitted there' ended siblings =>
      obtain ⟨mc, before, rfl⟩ := Family.of_dismiss there
      refine .inr ⟨mc, before, rfl, .inl ⟨asks_ending asks, rfl, fun living => ?_,
        fun zombie => ⟨?_, rfl⟩⟩⟩
      · by_cases own : c = d
        · exact absurd (if_pos own) living.not_dying
        · rw [Member.Living] at living ⊢
          simpa only [if_neg own] using living
      · by_cases own : c = d
        · simp only [if_pos own] at zombie
          cases zombie
        · simpa only [if_neg own] using zombie
  | bears left siblings childless phase context parent joined =>
      rcases Family.of_adopt there with ⟨equal, rfl⟩ | ⟨-, mc, before, rfl⟩
      · exact .inl ⟨equal, phase, context⟩
      · exact .inr ⟨mc, before, rfl, .inl ⟨rfl, rfl, id, fun zombie => ⟨zombie, rfl⟩⟩⟩
  | @exits e value b parent ends owner there' other =>
      have given := ends_ending (n := .suspend .exit) (c := c) k' consistent current here
        alive ends
      obtain ⟨m₁, concluded, roused, verdict⟩ := Family.of_rouse there
      obtain ⟨mc, before, context, ⟨rfl, phase, value'⟩ | ⟨own, kept⟩⟩ :=
        Family.of_end concluded fun _ => rfl
      · rw [here, Option.some.injEq] at before
        subst before
        refine .inr ⟨m, here, roused.context.trans context, .inr ⟨?_, fun living => ?_, running,
          fun _ => ⟨b, parent, owner, there', other⟩⟩⟩
        · rw [given, if_pos rfl, verdict, value']
          rfl
        · exact (roused.living living).not_zombie phase
      · refine .inr ⟨mc, before, roused.context.trans context, .inl ⟨given.trans (if_neg own),
          roused.context.trans context, fun living => kept.living (roused.living living),
          fun zombie => ?_⟩⟩
        obtain ⟨ended, first⟩ := roused.zombie zombie
        obtain ⟨before, second⟩ := kept.zombie ended
        exact ⟨before, first.trans second⟩
  | @vanishes e value ends gone =>
      have given := ends_ending (n := .suspend .exit) (c := c) k' consistent current here
        alive ends
      obtain ⟨mc, before, context, ⟨rfl, phase, value'⟩ | ⟨own, kept⟩⟩ :=
        Family.of_end there fun _ => rfl
      · rw [here, Option.some.injEq] at before
        subst before
        refine .inr ⟨m, here, context, .inr ⟨?_, fun living => living.not_dying phase, running,
          fun zombie => ?_⟩⟩
        · rw [given, if_pos rfl, value']
          rfl
        · rw [phase] at zombie
          cases zombie
      · exact .inr ⟨mc, before, context, .inl ⟨given.trans (if_neg own), kept⟩⟩
  | @kills pid d md s positive there' named other running' sentence =>
      have given := kills_ending (n := .suspend (.done 0 none)) (c := c) k' consistent
        positive there' named running'
      obtain ⟨mc, before, context, ⟨rfl, phase, value'⟩ | ⟨own, kept⟩⟩ :=
        Family.of_end there fun _ => rfl
      · rw [there', Option.some.injEq] at before
        subst before
        refine .inr ⟨md, there', context, .inr ⟨?_, fun living => ?_, running', fun zombie => ?_⟩⟩
        · rw [given, if_pos rfl, value']
          rfl
        · rcases sentence with ⟨rfl, -⟩ | ⟨rfl, -⟩
          · exact living.not_zombie phase
          · exact living.not_dying phase
        · rcases sentence with ⟨-, parent⟩ | ⟨rfl, -⟩
          · exact parent
          · rw [phase] at zombie
            cases zombie
      · exact .inr ⟨mc, before, context, .inl ⟨given.trans (if_neg own), kept⟩⟩

theorem Acts.children (acts : k.Acts e n k' a m G) {mb' : Member} (there : G b = some mb')
    (child : c ∈ mb'.children) :
    (∃ mb, k.family b = some mb ∧ c ∈ mb.children) ∨
      (c = k.nextBlock ∧ b = a ∧ (∃ mc, G c = some mc ∧ mc.phase = .alive) ∧
        ∃ ssize prio name procGranted stackGranted,
          e = .call (.start ssize prio name procGranted stackGranted)) := by
  obtain ⟨-, here, -, deed, -, -, -⟩ := acts
  have of_edit {F : Family} {d : Addr} {f : Member → Member} {mb' : Member}
      (there : F.edit d f b = some mb') (child : c ∈ mb'.children)
      (same : ∀ m, (f m).children = m.children) : ∃ mb, F b = some mb ∧ c ∈ mb.children := by
    obtain ⟨mb, before, rfl⟩ := Family.of_edit there
    refine ⟨mb, before, ?_⟩
    split at child
    · exact same mb ▸ child
    · exact child
  have of_conclude {F : Family} {d : Addr} {s : Phase} {heir : Option Addr} {mb' : Member}
      (there : F.conclude d s heir b = some mb') (child : c ∈ mb'.children) :
      ∃ mb, F b = some mb ∧ c ∈ mb.children := by
    obtain ⟨mb, before, ⟨-, rfl⟩ | ⟨-, -, rfl⟩ | ⟨-, -, rfl⟩⟩ := Family.of_conclude there
    · cases child
    · exact ⟨mb, before, child⟩
    · exact ⟨mb', before, child⟩
  cases deed with
  | other | failed | refused | childless | missed => exact .inl ⟨mb', there, child⟩
  | blocks asks given running => exact .inl (of_edit there child fun _ => rfl)
  | @collects e request retvalp d owner md asks admitted there' ended siblings =>
      obtain ⟨mb, before, rfl⟩ := Family.of_dismiss there
      refine .inl ⟨mb, before, ?_⟩
      dsimp only at child
      split at child
      · exact List.mem_of_mem_erase child
      · exact child
  | @bears n new placed ssize prio name procGranted stackGranted left siblings childless phase
      context parent joined =>
      rcases Family.of_adopt there with ⟨-, rfl⟩ | ⟨-, mb, before, rfl⟩
      · rw [childless] at child
        cases child
      · dsimp only at child
        split at child
        · next owner =>
          obtain rfl := parent b owner
          rw [here, Option.some.injEq] at before
          subst before
          rcases List.mem_cons.mp ((joined owner).mem_iff.mp child) with rfl | child
          · exact .inr ⟨rfl, rfl, ⟨new, if_pos rfl, phase⟩, _, _, _, _, _, rfl⟩
          · exact .inl ⟨m, here, child⟩
        · exact .inl ⟨mb, before, child⟩
  | exits ends owner there' other =>
      obtain ⟨m₁, roused, child⟩ := of_edit there child fun _ => rfl
      obtain ⟨m₂, concluded, child⟩ := of_conclude roused child
      exact .inl (of_edit concluded child fun _ => rfl)
  | vanishes ends gone =>
      obtain ⟨m₁, concluded, child⟩ := of_conclude there child
      exact .inl (of_edit concluded child fun _ => rfl)
  | kills positive there' named other running sentence =>
      obtain ⟨m₁, concluded, child⟩ := of_conclude there child
      exact .inl (of_edit concluded child fun _ => rfl)

theorem recalls_waitless {context : Frame} (waitless : context.waits = false)
    (other : ∀ pid retvalp, t.event ≠ .call (.waitpid pid retvalp)) :
    Recalls a t context := by
  cases context with
  | waitpid | waitForChild => cases waitless
  | _ => exact other

theorem Acts.recalls {context : Frame} (acts : k.Acts e n k' a m G)
    (ledger : Ledger past k.family k.nextBlock) (suspended : n = .suspend context)
    (busy : context ≠ .user) :
    ∃ t, lastCall a (⟨k, e, n, k'⟩ :: past) = some t ∧ Recalls a t context := by
  obtain ⟨current, here, alive, deed, -, -, -⟩ := acts
  have own : actor ⟨k, e, n, k'⟩ = some a := current
  have children : k.childrenOf a = m.children := childrenOf_eq here
  have direct {call : Call} (event : e = .call call)
      (recalls : Recalls a ⟨k, e, n, k'⟩ context) :
      ∃ t, lastCall a (⟨k, e, n, k'⟩ :: past) = some t ∧ Recalls a t context :=
    ⟨_, lastCall_call own event, recalls⟩
  have again (resumed : e = .resume) (busy : m.context ≠ .user) :
      ∃ t, lastCall a (⟨k, e, n, k'⟩ :: past) = some t ∧ Recalls a t m.context := by
    obtain ⟨t, call, recalls⟩ := ledger.calls a m here (.inl alive) busy
    exact ⟨t, (lastCall_resume (by rw [resumed]; rfl)).trans call, recalls⟩
  cases deed with
  | @other e n harmless resumed interrupted left =>
      have waitless := left context suspended
      cases event : e with
      | clockInterrupt =>
          rw [interrupted event] at suspended
          cases suspended
          exact absurd rfl busy
      | call call =>
          subst event
          refine direct rfl (recalls_waitless waitless fun pid retvalp equal => ?_)
          change Event.call call = _ at equal
          rw [equal] at harmless
          exact harmless
      | resume =>
          subst event
          obtain ⟨waitless', busy'⟩ := resumed rfl
          obtain ⟨t, call, recalls⟩ := again rfl busy'
          refine ⟨t, call, recalls_waitless waitless ?_⟩
          cases saved : m.context with
          | waitpid | waitForChild =>
              rw [saved] at waitless'
              cases waitless'
          | user | done | start | exit | preceive | psend =>
              rw [saved] at recalls
              exact recalls
  | failed => cases suspended
  | refused given => cases suspended
  | childless given none => cases suspended
  | missed waiting running => cases suspended
  | blocks asks given running =>
      cases suspended
      cases asks with
      | @child pid c mc retvalp positive listed there named =>
          refine direct rfl ?_
          change Event.call _ = Event.call _
          rw [Int.toNat_of_nonneg positive]
      | @any pid retvalp negative =>
          refine direct rfl ⟨⟨pid, negative, rfl⟩, ?_⟩
          exact children ▸ given nofun rfl
      | again waiting =>
          obtain ⟨t, call, recalls⟩ := again rfl (waiting ▸ busy)
          exact ⟨t, call, waiting ▸ recalls⟩
  | collects asks admitted there ended siblings => cases suspended
  | bears left siblings childless phase context' parent joined =>
      exact direct rfl (recalls_waitless (left context suspended) nofun)
  | exits ends owner there other =>
      cases suspended
      rcases ends with rfl | ⟨pid, rfl, -⟩ <;> exact direct rfl nofun
  | vanishes ends gone =>
      cases suspended
      rcases ends with rfl | ⟨pid, rfl, -⟩ <;> exact direct rfl nofun
  | kills positive there named other running sentence =>
      cases suspended
      exact direct rfl nofun

theorem Acts.reports (acts : k.Acts e n k' a m G) (consistent : k.Consistent)
    (kindred : k.Kindred) (ledger : Ledger past k.family k.nextBlock)
    (reported : Reports past ⟨k, e, n, k'⟩ c) :
    ∃ mc, c ∈ m.children ∧ k.family c = some mc ∧ G = k.family.dismiss c a := by
  obtain ⟨a', t₀, pid, retvalp, value, out, own, called, waitpid, returned, positive, slot⟩ :=
    reported
  have same : k.processesTable k.activePID = some a' := own
  rw [acts.current, Option.some.injEq] at same
  subst a'
  rcases returned_waitpid acts kindred ledger called waitpid returned with
    ⟨negative, -⟩ | ⟨negative, -⟩ | ⟨d, md, mine, held, -, named, -, -, -, dismissed⟩
  · omega
  · omega
  · obtain ⟨p, found, rfl⟩ := of_family held
    have entry := consistent.owned d p found
    rw [named] at slot
    change k.processesTable p.pid = some c at slot
    rw [slot, Option.some.injEq] at entry
    subst d
    exact ⟨p.member, mine, held, dismissed⟩

theorem Acts.reported (acts : k.Acts e n k' a m G) (consistent : k.Consistent)
    (kindred : k.Kindred) (ledger : Ledger past k.family k.nextBlock) {mb' : Member}
    (there : G b = some mb') (child : c ∈ mb'.children) : ¬ Reports past ⟨k, e, n, k'⟩ c := by
  intro reported
  obtain ⟨mc, mine, held, dismissed⟩ := acts.reports consistent kindred ledger reported
  rw [dismissed] at there
  obtain ⟨mb, before, rfl⟩ := Family.of_dismiss there
  dsimp only at child
  split at child
  · next equal =>
    subst equal
    rw [acts.here, Option.some.injEq] at before
    subst before
    exact (kindred.sound.nodup b m acts.here).not_mem_erase child
  · next other => exact other (kindred.sound.unique before acts.here child mine held)

theorem Acts.started_by (acts : k.Acts e n k' a m G) (consistent : k.Consistent)
    (ledger : Ledger past k.family k.nextBlock) {mb' : Member} (there : G b = some mb')
    (child : c ∈ mb'.children) : StartedBy b c (⟨k, e, n, k'⟩ :: past) := by
  rcases acts.children there child with ⟨m₀, held, child⟩ | ⟨rfl, rfl, ⟨mc, found, phase⟩, start⟩
  · exact (ledger.started b m₀ c held child).later
  · refine ⟨_, List.mem_cons_self, acts.current, (consistent.fresh _ le_rfl).1, fun gone => ?_,
      start⟩
    have gone : k'.family k.nextBlock = none := by
      rw [family]
      exact congrArg (Option.map Proc.member) gone
    rcases acts.buried k.nextBlock with same | ⟨-, m', there', dying⟩
    · rw [gone, Family.edit_apply] at same
      split at same
      · next equal =>
        rw [← equal, found] at same
        cases same
      · rw [found] at same
        cases same
    · obtain ⟨m₁, held, rfl⟩ := Family.of_edit there'
      rw [found, Option.some.injEq] at held
      subst held
      split at dying <;> exact absurd (phase.symm.trans dying) (by decide)

/-- A child that is a ZOMBIE after a deed has ended once, and its value is kept for its parent. -/
theorem Acts.ended (acts : k.Acts e n k' a m G) (consistent : k.Consistent)
    (kindred : k.Kindred) (ledger : Ledger past k.family k.nextBlock) {mb' mc' : Member}
    (there : G b = some mb') (child : c ∈ mb'.children) (found : G c = some mc')
    (zombie : mc'.phase = .zombie) : endings c (⟨k, e, n, k'⟩ :: past) = [mc'.verdict] := by
  have old : ∃ m₀, k.family b = some m₀ ∧ c ∈ m₀.children := by
    rcases acts.children there child with old | ⟨-, -, ⟨mn, new, alive⟩, -⟩
    · exact old
    · rw [found, Option.some.injEq] at new
      rw [← new, zombie] at alive
      cases alive
  obtain ⟨m₀, held, child₀⟩ := old
  rcases acts.fate consistent found with ⟨-, alive, -⟩ |
    ⟨mc₀, held', -, ⟨none, kept⟩ | ⟨ended, -, running, parent⟩⟩
  · rw [zombie] at alive
    cases alive
  · obtain ⟨zombie₀, same⟩ := kept.zombie zombie
    rw [endings_cons_none none, same]
    exact ledger.ended b m₀ c mc₀ held child₀ held' zombie₀
  · obtain ⟨b', parent, owner, there', pid⟩ := parent zombie
    rw [(kindred.sound.owned b m₀ c mc₀ held child₀ held').1, Option.some.injEq] at owner
    subst b'
    rw [held, Option.some.injEq] at there'
    subst parent
    obtain ⟨m₁, held₁, alive⟩ := kindred.sound.lasting b m₀ c held pid child₀
    rw [held', Option.some.injEq] at held₁
    subst m₁
    rw [endings_cons_some ended, ledger.living c mc₀ held' (Member.living running alive)]

theorem Acts.ledger (acts : k.Acts e n k' a m G) (consistent : k.Consistent)
    (kindred : k.Kindred) (ledger : Ledger past k.family k.nextBlock) :
    Ledger (⟨k, e, n, k'⟩ :: past) k'.family k'.nextBlock := by
  have saved (b : Addr) (mb : Member) (there : k'.family b = some mb) :
      ∃ mb', G b = some mb' ∧ mb = if b = a then mb'.saved n else mb' :=
    Family.of_edit (acts.buried.of_some there)
  have children (b c : Addr) (mb : Member) (there : k'.family b = some mb)
      (child : c ∈ mb.children) : ∃ mb', G b = some mb' ∧ c ∈ mb'.children := by
    obtain ⟨mb', before, rfl⟩ := saved b mb there
    refine ⟨mb', before, ?_⟩
    split at child <;> exact child
  have phases (b : Addr) (mb : Member) (there : k'.family b = some mb) :
      ∃ mb', G b = some mb' ∧ mb.phase = mb'.phase ∧ mb.verdict = mb'.verdict := by
    obtain ⟨mb', before, rfl⟩ := saved b mb there
    refine ⟨mb', before, ?_⟩
    split <;> exact ⟨rfl, rfl⟩
  have absent : k.procs k.nextBlock = none := (consistent.fresh _ le_rfl).1
  constructor
  · intro b mb c there child
    obtain ⟨mb', before, child⟩ := children b c mb there child
    exact acts.started_by consistent ledger before child
  · intro b mb c there child
    obtain ⟨mb', before, child⟩ := children b c mb there child
    refine ⟨acts.reported consistent kindred ledger before child, ?_⟩
    rcases acts.children before child with ⟨m₀, held, child⟩ | ⟨rfl, -⟩
    · exact ledger.unreported b m₀ c held child
    · exact (ledger.unborn _ le_rfl).2
  · intro c mc there living
    obtain ⟨mc', before, phase, -⟩ := phases c mc there
    have living' : mc'.Living := by
      rw [Member.Living, ← phase]
      exact living
    rcases acts.fate consistent before with ⟨rfl, -⟩ |
      ⟨m₀, held, -, ⟨none, kept⟩ | ⟨-, dead, -⟩⟩
    · rw [endings_cons_none (unborn_ending consistent absent)]
      exact (ledger.unborn _ le_rfl).1
    · rw [endings_cons_none none]
      exact ledger.living c m₀ held (kept.living living')
    · exact absurd living' dead
  · intro b mb c mc there child found zombie
    obtain ⟨mb', before, child⟩ := children b c mb there child
    obtain ⟨mc', before', phase, verdict⟩ := phases c mc found
    rw [phase] at zombie
    rw [verdict]
    exact acts.ended consistent kindred ledger before child before' zombie
  · intro c beyond
    have beyond₀ := acts.later.trans beyond
    have absent := (consistent.fresh c beyond₀).1
    obtain ⟨unended, unreported⟩ := ledger.unborn c beyond₀
    refine ⟨?_, unborn_report consistent absent, unreported⟩
    rw [endings_cons_none (unborn_ending consistent absent), unended]
  · intro b mb there living busy
    obtain ⟨mb', before, rfl⟩ := saved b mb there
    by_cases own : b = a
    · subst own
      rw [if_pos rfl] at busy ⊢
      cases outcome : n with
      | ret value out =>
          rw [outcome] at busy
          exact absurd rfl busy
      | suspend context =>
          have left : context ≠ .user := by
            rw [outcome] at busy
            exact busy
          rw [← outcome]
          have recalls := acts.recalls ledger outcome left
          rw [outcome] at recalls ⊢
          exact recalls
    · rw [if_neg own] at living busy ⊢
      rcases acts.fate consistent before with ⟨-, -, user⟩ |
        ⟨m₀, held, context, ⟨-, kept⟩ | ⟨-, dead, -⟩⟩
      · exact absurd user busy
      · have other : actor ⟨k, e, n, k'⟩ ≠ some b := by
          intro same
          have same : k.processesTable k.activePID = some b := same
          rw [acts.current, Option.some.injEq] at same
          exact own same.symm
        rw [lastCall_other other, context]
        exact ledger.calls b m₀ held (kept.living living) (context ▸ busy)
      · exact absurd living dead

end Kernel

open Kernel

theorem Booted.ledger (booted : Booted k) : Ledger [] k.family k.nextBlock := by
  obtain ⟨p, -, -, -, context, -, children, -, -, -, -, -, -, procs, -⟩ := booted.state
  have only (a : Addr) (m : Member) (there : k.family a = some m) : m = p.member := by
    obtain ⟨p', here, rfl⟩ := of_family there
    rw [procs] at here
    split at here <;> cases here
    rfl
  have childless (b : Addr) (m : Member) (there : k.family b = some m) : m.children = [] := by
    rw [only b m there]
    exact children
  constructor
  · intro b m c there child
    rw [childless b m there] at child
    cases child
  · intro b m c there child
    rw [childless b m there] at child
    cases child
  · exact fun _ _ _ _ => rfl
  · intro b m c mc there child
    rw [childless b m there] at child
    cases child
  · exact fun _ _ => ⟨rfl, trivial⟩
  · intro a m there _ busy
    rw [only a m there] at busy
    exact absurd context busy

theorem ledger_of_run {history : History} (run : Reached history k) :
    Ledger history k.family k.nextBlock := by
  refine run.always (I := fun history k => Ledger history k.family k.nextBlock)
    (fun _ booted => booted.ledger) fun past k e n k' run ledger taken => ?_
  obtain ⟨consistent, running⟩ := consistent_of_run run
  have kindred := kindred_of_run run
  obtain ⟨a, m, G, acts⟩ := step_acts consistent running kindred.sound taken
  exact acts.ledger consistent kindred ledger

/-- A step that returns from a `waitpid` reports the end of a child of the caller, which
no `waitpid` has reported before, with the value of that end. It fails, when called for
any child, just in case there was no child at the call. -/
theorem waitpid_reports_each_end_once {history later past : History} {t t₀ : Step} {a : Addr}
    {pid value : Int} {retvalp : Bool} {out : Option Int} (run : Reached history k)
    (taken : history = later ++ t :: past) (caller : actor t = some a)
    (called : lastCall a (t :: past) = some t₀) (waitpid : t₀.event = .call (.waitpid pid retvalp))
    (returned : t.outcome = .ret value out) :
    (0 ≤ value → ∃ c p v, t.before.procs c = some p ∧ value = p.pid ∧ p.status = .zombie ∧
        StartedBy a c past ∧ Unreported c past ∧ endings c past = [v] ∧
        out = (if retvalp then some v else none) ∧ (0 ≤ pid → value = pid)) ∧
      (pid < 0 → (value < 0 ↔ t₀.before.childrenOf a = [])) := by
  obtain ⟨run, step⟩ := run.split taken
  obtain ⟨consistent, running⟩ := consistent_of_run run
  have kindred := kindred_of_run run
  have ledger := ledger_of_run run
  obtain ⟨a', m, G, acts⟩ := step_acts consistent running kindred.sound step
  have same : t.before.processesTable t.before.activePID = some a := caller
  rw [acts.current, Option.some.injEq] at same
  subst a'
  rcases returned_waitpid acts kindred ledger called waitpid returned with
    ⟨failed, given⟩ | ⟨failed, negative, none⟩ |
    ⟨c, mc, child, there, zombie, named, reported, exact, some, -⟩
  · exact ⟨fun positive => by omega, fun negative => by omega⟩
  · exact ⟨fun positive => by omega, fun _ => ⟨fun _ => none, fun _ => by omega⟩⟩
  · refine ⟨fun _ => ?_, fun negative => ⟨fun failed => ?_, fun none => absurd none (some negative)⟩⟩
    · obtain ⟨p, held, rfl⟩ := of_family there
      exact ⟨c, p, p.member.verdict, held, named, Status.phase_zombie.mp zombie,
        ledger.started a m c acts.here child, ledger.unreported a m c acts.here child,
        ledger.ended a m c p.member acts.here child there zombie, reported, exact⟩
    · omega

/-- A parent waits for any child and gets the value that one of them exits with. -/
theorem waitpid_reports_each_end_once_any : ∃ (past : History) (t : Step) (c : Addr) (v : Int),
    endings c past = [v] ∧ t.outcome = .ret 3 (some 7) ∧
    some 7 = (if true then some v else none) ∧
    StartedBy 3 c past ∧ Unreported c past := by
  obtain ⟨history, k, run, checked⟩ := reached_by
    [.call (.start 512 10 [97] true true), .call (.start 512 5 [98] true true),
      .call (.start 512 6 [99] true true), .call (.waitpid (-1) true), .call (.exit 7), .resume]
    (fun history _ =>
      match history with
      | t :: past =>
          match lastCall 3 (t :: past) with
          | some t₀ => decide (actor t = some 3) && decide (t₀.event = .call (.waitpid (-1) true)) &&
              decide (t.outcome = .ret 3 (some 7))
          | none => false
      | [] => false)
    (by decide +kernel)
  split at checked
  · next t past =>
    split at checked
    · next t₀ called =>
      simp only [Bool.and_eq_true, decide_eq_true_eq] at checked
      obtain ⟨⟨caller, waitpid⟩, returned⟩ := checked
      obtain ⟨reports, -⟩ := waitpid_reports_each_end_once run
        (List.nil_append _).symm caller called waitpid returned
      obtain ⟨c, p, v, -, -, -, started, unreported, ended, value, -⟩ := reports (by decide)
      exact ⟨past, t, c, v, ended, returned, value, started, unreported⟩
    · cases checked
  · cases checked

end IntelX86Kernel

import IntelX86Kernel.Reports

/-! Calls that name a process after `waitpid` has returned it. -/

namespace IntelX86Kernel

open Transition

def resumed (t : Step) : Frame :=
  match (actor t).bind t.before.procs with
  | some p => p.context
  | none => .user

def returned (calls : Call → Bool) (frames : Frame → Bool) (t : Step) : Option Int :=
  match t.event, t.outcome with
  | .call call, .ret value _ => if calls call = true then some value else none
  | .resume, .ret value _ => if frames (resumed t) = true then some value else none
  | _, _ => none

def Call.isWaitpid : Call → Bool
  | .waitpid .. => true
  | _ => false

def Call.isStart : Call → Bool
  | .start .. => true
  | _ => false

def Frame.isStart : Frame → Bool
  | .start _ => true
  | _ => false

def waitedPid : Step → Option Int := returned Call.isWaitpid Frame.waits

def startedPid : Step → Option Int := returned Call.isStart Frame.isStart

/-- `waitpid` has returned `c`, and no `start` has returned it since. -/
def WaitedFor (c : Nat) : History → Bool
  | [] => false
  | t :: past => decide (startedPid t ≠ some (c : Int)) &&
      (decide (waitedPid t = some (c : Int)) || WaitedFor c past)

def Call.names : Call → Option Int
  | .kill pid | .chprio pid _ | .getprio pid | .waitpid pid _ => some pid
  | _ => none

def Gone (past : History) (t : Step) : Prop :=
  ∀ call (c : Nat), t.event = .call call → call.names = some (c : Int) → WaitedFor c past = true →
    (∃ value out, t.outcome = .ret value out ∧ value < 0) ∧ t.after = t.before

/-- The slot of the process is empty, or the call refuses it on other grounds. -/
def Kernel.refuses (k : Kernel) : Call → Bool
  | .kill pid => decide (pid ≤ 0) || ((k.processesTable pid.toNat).bind k.procs).all fun p =>
      decide (p.status = .zombie)
  | .chprio pid newprio => decide (0 < pid ∧ newprio ≤ 0) ||
      ((k.processesTable pid.toNat).bind k.procs).all fun p =>
        decide (toSigned p.priority ≤ 0 ∨ p.status = .zombie)
  | .getprio pid => ((k.processesTable pid.toNat).bind k.procs).all fun p =>
      decide (toSigned p.priority < 0)
  | _ => true

def Refused (past : History) (t : Step) : Prop :=
  ∀ call (c : Nat), t.event = .call call → call.names = some (c : Int) → WaitedFor c past = true →
    t.before.refuses call = true

variable {k k' : Kernel} {a b c d : Addr} {m mb mc : Member} {e : Event} {n : Next} {G : Family}
  {heir : Option Addr} {next : Addr} {pid : Nat} {p : Proc} {F : Family}

/-- Who holds a process of number `pid` as a child has yet to return from starting it. -/
def Family.Detached (F : Family) (pid : Nat) : Prop :=
  ∀ d md b mb, F d = some md → md.pid = pid → F b = some mb → d ∈ mb.children →
    mb.context = .start pid

theorem Family.Detached.buried (detached : F.Detached pid) (buried : Buried F G) :
    G.Detached pid := fun d md b mb there named here child =>
  detached d md b mb (buried.of_some there) named (buried.of_some here) child

theorem Deed.grown (deed : Deed F heir next a m e n G) {mb' : Member} (here : F a = some m)
    (there : G b = some mb') : (b = next ∧ mb'.children = []) ∨
      ∃ mb, F b = some mb ∧ mb'.pid = mb.pid ∧ mb'.context = mb.context ∧
        ∀ d ∈ mb'.children, d ∈ mb.children ∨ (d = next ∧ b = a) := by
  have concluded {c : Addr} {s : Phase} {f : Member → Member} {mb' : Member}
      (there : (F.edit c f).conclude c s heir b = some mb')
      (same : ∀ m, (f m).pid = m.pid ∧ (f m).context = m.context ∧ (f m).children = m.children) :
      ∃ mb, F b = some mb ∧ mb'.pid = mb.pid ∧ mb'.context = mb.context ∧
        ∀ d ∈ mb'.children, d ∈ mb.children ∨ (d = next ∧ b = a) := by
    obtain ⟨m₁, edited, ended⟩ := Family.of_conclude there
    obtain ⟨mb, before, rfl⟩ := Family.of_edit edited
    have kept (m' : Member) (equal : m' = if b = c then f mb else mb) : m'.pid = mb.pid ∧
        m'.context = mb.context ∧ m'.children = mb.children := by
      split at equal
      · exact equal ▸ same mb
      · exact equal ▸ ⟨rfl, rfl, rfl⟩
    obtain ⟨pid, context, children⟩ := kept _ rfl
    rcases ended with ⟨-, rfl⟩ | ⟨-, -, rfl⟩ | ⟨-, -, rfl⟩
    · exact ⟨mb, before, pid, context, nofun⟩
    · exact ⟨mb, before, pid, context, fun d child => .inl (children ▸ child)⟩
    · exact ⟨mb, before, pid, context, fun d child => .inl (children ▸ child)⟩
  cases deed with
  | other harmless resumed interrupted left => exact .inr ⟨mb', there, rfl, rfl, fun _ => .inl⟩
  | failed => exact .inr ⟨mb', there, rfl, rfl, fun _ => .inl⟩
  | refused given => exact .inr ⟨mb', there, rfl, rfl, fun _ => .inl⟩
  | childless given none => exact .inr ⟨mb', there, rfl, rfl, fun _ => .inl⟩
  | missed waiting running => exact .inr ⟨mb', there, rfl, rfl, fun _ => .inl⟩
  | blocks asks given running =>
      obtain ⟨mb, before, rfl⟩ := Family.of_edit there
      refine .inr ⟨mb, before, ?_⟩
      split <;> exact ⟨rfl, rfl, fun _ => .inl⟩
  | collects asks admitted there' ended siblings =>
      obtain ⟨mb, before, rfl⟩ := Family.of_dismiss there
      refine .inr ⟨mb, before, rfl, rfl, fun d child => .inl ?_⟩
      dsimp only at child
      split at child
      · exact List.mem_of_mem_erase child
      · exact child
  | bears left siblings childless phase context parent joined =>
      rcases Family.of_adopt there with ⟨same, rfl⟩ | ⟨-, mb, before, rfl⟩
      · exact .inl ⟨same, childless⟩
      · refine .inr ⟨mb, before, rfl, rfl, fun d child => ?_⟩
        dsimp only at child
        split at child
        · next owner =>
          obtain rfl := parent b owner
          rw [here, Option.some.injEq] at before
          subst before
          rcases List.mem_cons.mp ((joined owner).mem_iff.mp child) with new | child
          · exact .inr ⟨new, rfl⟩
          · exact .inl child
        · exact .inl child
  | exits ends owner there' other =>
      obtain ⟨m₁, roused, rfl⟩ := Family.of_edit there
      obtain ⟨mb, before, pid, context, children⟩ :=
        concluded roused fun _ => ⟨rfl, rfl, rfl⟩
      refine .inr ⟨mb, before, ?_⟩
      split <;> exact ⟨pid, context, children⟩
  | vanishes ends gone => exact .inr (concluded there fun _ => ⟨rfl, rfl, rfl⟩)
  | kills positive there' named other running sentence =>
      exact .inr (concluded there fun _ => ⟨rfl, rfl, rfl⟩)

namespace Kernel

theorem resumed_apply (current : k.processesTable k.activePID = some a)
    (here : k.procs a = some p) : resumed ⟨k, e, n, k'⟩ = p.context := by
  rw [resumed, actor, current, Option.bind_some, here]

theorem returned_eq {calls : Call → Bool} {frames : Frame → Bool} {t : Step} {value : Int}
    (done : returned calls frames t = some value) : (∃ out, t.outcome = .ret value out) ∧
      ((∃ call, t.event = .call call ∧ calls call = true) ∨
        (t.event = .resume ∧ frames (resumed t) = true)) := by
  rw [returned] at done
  split at done
  · next call v out event outcome =>
    split at done
    · next kind =>
      cases done
      exact ⟨⟨out, outcome⟩, .inl ⟨call, event, kind⟩⟩
    · cases done
  · next v out event outcome =>
    split at done
    · next kind =>
      cases done
      exact ⟨⟨out, outcome⟩, .inr ⟨event, kind⟩⟩
    · cases done
  · cases done

theorem resume_started {context : Frame} (consistent : k.Consistent)
    (waiting : context = .start pid) (run : k.segment context .resume = .ok (k', n)) :
    n = .ret pid none := by
  subst waiting
  obtain ⟨b, p, slot, here, -, rfl⟩ := startReturn_eq run
  obtain ⟨-, p', here', named⟩ := consistent.table _ _ slot
  rw [here, Option.some.injEq] at here'
  rw [← named, here']

theorem Acts.detached (acts : k.Acts e n k' a m G) (consistent : k.Consistent)
    (kindred : k.Kindred) (run : k.step e = .ok (k', n)) (detached : k.family.Detached pid)
    (kept : startedPid ⟨k, e, n, k'⟩ ≠ some (pid : Int)) : k'.family.Detached pid := by
  refine Family.Detached.buried (fun d md' b mb'' found named found' child => ?_) acts.buried
  obtain ⟨md, there, rfl⟩ := Family.of_edit found
  obtain ⟨mb', here, rfl⟩ := Family.of_edit found'
  have number : md.pid = pid := by
    split at named <;> exact named
  have grand : d ∈ mb'.children := by
    split at child <;> exact child
  obtain ⟨a', p, k₁, current, held, segment, -⟩ := step_eq run
  obtain rfl : a = a' := Option.some.inj (acts.current.symm.trans current)
  have mine : m = p.member := by
    have same := acts.here
    rw [family_apply held, Option.some.injEq] at same
    exact same.symm
  rcases acts.deed.grown acts.here here with ⟨-, childless⟩ | ⟨mb, before, -, context, children⟩
  · rw [childless] at grand
    cases grand
  rcases children d grand with old | ⟨rfl, rfl⟩
  · have younger := (kindred.sound.elder b mb before d old).2
    rcases acts.deed.grown acts.here there with ⟨same, -⟩ | ⟨md₀, before', number', -⟩
    · exact absurd same (Nat.ne_of_lt younger)
    have waiting := detached d md₀ b mb before' (number'.symm.trans number) before old
    split
    · next same =>
      subst same
      rw [acts.here, Option.some.injEq] at before
      subst before
      have saved : p.context = .start pid := by
        rw [← waiting, mine]
        rfl
      cases e with
      | resume =>
          have value := resume_started consistent saved segment
          refine absurd ?_ kept
          rw [value, startedPid, returned]
          dsimp only
          rw [if_pos]
          rw [resumed_apply current held, saved]
          rfl
      | call c => simp [Kernel.segment, saved] at segment
      | clockInterrupt => simp [Kernel.segment, saved] at segment
    · exact context.trans waiting
  · obtain ⟨rfl | rfl, ssize, prio, name, procGranted, stackGranted, rfl⟩ := acts.started md there
    · rw [if_pos rfl, ← number]
      rfl
    · refine absurd ?_ kept
      rw [← number]
      rfl

theorem Acts.collected {value : Int} (acts : k.Acts e n k' a m G) (kindred : k.Kindred)
    (done : waitedPid ⟨k, e, n, k'⟩ = some value) (given : 0 ≤ value) :
    ∃ c mc, c ∈ m.children ∧ k.family c = some mc ∧ mc.phase = .zombie ∧ value = mc.pid ∧
      G = k.family.dismiss c a := by
  obtain ⟨p, held, mine⟩ := of_family acts.here
  have frame : resumed ⟨k, e, n, k'⟩ = _ := resumed_apply acts.current held
  obtain ⟨⟨out, outcome⟩, event⟩ := returned_eq done
  change n = .ret value out at outcome
  have failed (out' : Option Int) (same : n = .ret (-1) out') : False := by
    rw [outcome] at same
    injection same with negative
    omega
  cases acts.deed with
  | other harmless resumed interrupted left =>
      rcases event with ⟨call, rfl, kind⟩ | ⟨rfl, waits⟩
      · cases call <;> first | exact False.elim harmless | cases kind
      · rw [frame] at waits
        rw [← mine] at resumed
        exact absurd ((resumed rfl).1.symm.trans waits) Bool.false_ne_true
  | failed =>
      rcases event with ⟨call, same, kind⟩ | ⟨same, -⟩
      · cases same
        cases kind
      · cases same
  | refused given => exact (failed none rfl).elim
  | childless given childless => exact (failed none rfl).elim
  | missed waiting running => exact (failed none rfl).elim
  | blocks asks given running => cases outcome
  | @collects e request retvalp c owner mc asks admitted there ended siblings =>
      have listed := Deed.admitted_child asks (kindred.patient a m acts.here (.inl acts.alive))
        admitted
      have own := (kindred.sound.owned a m c mc acts.here listed there).2
      rw [siblings, Option.some.injEq] at own
      subst owner
      injection outcome with named
      exact ⟨c, mc, listed, there, ended, named.symm, rfl⟩
  | bears left siblings childless phase context parent joined =>
      rcases event with ⟨call, same, kind⟩ | ⟨same, -⟩
      · cases same
        cases kind
      · cases same
  | exits ends owner there' other => cases outcome
  | vanishes ends gone => cases outcome
  | kills positive there' named other running sentence => cases outcome

theorem Acts.detached_of_waited (acts : k.Acts e n k' a m G) (kindred : k.Kindred)
    (consistent : k.Consistent) (done : waitedPid ⟨k, e, n, k'⟩ = some (pid : Int)) :
    k'.family.Detached pid := by
  obtain ⟨c, mc, listed, there', -, value, dismissed⟩ :=
    acts.collected kindred done (Int.natCast_nonneg pid)
  refine Family.Detached.buried (fun d md' b mb' found named found' child => ?_) acts.buried
  obtain ⟨md, there, rfl⟩ := Family.of_edit found
  obtain ⟨mb, here, rfl⟩ := Family.of_edit found'
  have number : md.pid = pid := by
    split at named <;> exact named
  have grand : d ∈ mb.children := by
    split at child <;> exact child
  rw [dismissed] at there here
  obtain ⟨md, before, rfl⟩ := Family.of_dismiss there
  obtain ⟨mb, before', rfl⟩ := Family.of_dismiss here
  have same : d = c := by
    obtain ⟨pd, first, rfl⟩ := of_family before
    obtain ⟨pc, second, rfl⟩ := of_family there'
    exact consistent.unique first second (Eq.trans number (Int.ofNat_inj.mp value))
  subst same
  exfalso
  dsimp only at grand
  split at grand
  · next own =>
    subst own
    exact (kindred.sound.nodup b mb before').not_mem_erase grand
  · next other => exact other (kindred.sound.unique before' acts.here grand listed there')

end Kernel

open Kernel

theorem detached_of_run {history : History} (run : Reached history k) (pid : Nat)
    (waited : WaitedFor pid history = true) : k.family.Detached pid := by
  refine run.always (I := fun history k => WaitedFor pid history = true → k.family.Detached pid)
    (fun k booted => nofun) (fun past k e n k' run kept taken waited => ?_) waited
  obtain ⟨consistent, running⟩ := consistent_of_run run
  have kindred := kindred_of_run run
  obtain ⟨a, m, G, acts⟩ := step_acts consistent running kindred.sound taken
  rw [WaitedFor, Bool.and_eq_true, Bool.or_eq_true, decide_eq_true_eq, decide_eq_true_eq] at waited
  obtain ⟨unstarted, now | before⟩ := waited
  · exact acts.detached_of_waited kindred consistent now
  · exact acts.detached consistent kindred taken (kept before) unstarted

theorem Kernel.getprio_value {prio : Int} (consistent : k.Consistent)
    (run : k.getprio (pid : Int) = .ok prio) :
    ((k.processesTable pid).bind k.procs = none ∧ prio = -1) ∨
      ∃ p, (k.processesTable pid).bind k.procs = some p ∧ prio = toSigned p.priority := by
  unfold getprio at run
  split at run
  · next outside =>
    have absent : k.processesTable pid = none := by
      rw [Option.eq_none_iff_forall_ne_some]
      intro c slot
      have small := (consistent.table _ _ slot).1
      omega
    rw [absent]
    exact .inl ⟨rfl, (Except.ok.inj run).symm⟩
  · simp only [bind_eq_ok, tableAt_eq_ok] at run
    obtain ⟨entry, ⟨-, slot⟩, run⟩ := run
    rw [Int.toNat_natCast] at slot
    cases entry with
    | none =>
        rw [slot]
        exact .inl ⟨rfl, (Except.ok.inj run).symm⟩
    | some c =>
        simp only [bind_eq_ok, deref_eq_ok, Except.ok.injEq] at run
        obtain ⟨p, there, rfl⟩ := run
        rw [slot, Option.bind_some]
        exact .inr ⟨p, there, rfl⟩

namespace Kernel

variable {call : Call}

def Answers (k : Kernel) (call : Call) (k' : Kernel) (n : Next) : Prop :=
  (k.refuses call = true ∧ k' = k ∧ ∃ value out, n = .ret value out ∧ value < 0) ∨
    (k.refuses call = false ∧ ∀ value out, n = .ret value out → 0 ≤ value)

theorem Answers.failed {value : Int} {out : Option Int} (refused : k.refuses call = true)
    (same : k' = k) (outcome : n = .ret value out) (low : value < 0) : k.Answers call k' n :=
  .inl ⟨refused, same, value, out, outcome, low⟩

theorem Answers.suspended {context : Frame} (accepted : k.refuses call = false)
    (outcome : n = .suspend context) : k.Answers call k' n := by
  refine .inr ⟨accepted, fun value out returned => ?_⟩
  rw [outcome] at returned
  cases returned

theorem kill_answers {pid : Int} (linked : k.Linked) (run : k.kill pid = .ok (k', n)) :
    k.Answers (.kill pid) k' n := by
  rcases kill_eq linked run with ⟨refused, same, outcome⟩ |
    ⟨c, pc, positive, slot, there, running, ended⟩
  · refine .failed ?_ same outcome (by decide)
    rw [refuses, Bool.or_eq_true, decide_eq_true_eq, or_iff_not_imp_left, Int.not_le,
      Option.all_eq_true]
    intro positive pc entry
    obtain ⟨c, slot, there⟩ := Option.bind_eq_some_iff.mp entry
    exact decide_eq_true (refused positive c pc slot there)
  · have accepted : k.refuses (.kill pid) = false := by
      rw [refuses, slot, Option.bind_some, there, Option.all_some, Bool.or_eq_false_iff,
        decide_eq_false_iff_not, decide_eq_false_iff_not]
      exact ⟨Int.not_le.mpr positive, running⟩
    rcases ended with ⟨-, exits⟩ | ⟨-, -, outcome, -⟩
    · have linked' : (k.setProc c fun p => { p with killed := true }).Linked :=
        linked.setProc _ fun _ => rfl
      obtain ⟨-, -, -, -, -, -, -, -, -, outcome, -⟩ := exit_eq linked' exits
      exact .suspended accepted outcome
    · exact .suspended accepted outcome

theorem getprio_answers {prio : Int} (consistent : k.Consistent)
    (run : k.getprio (pid : Int) = .ok prio) : k.Answers (.getprio pid) k (.ret prio none) := by
  have value := getprio_value consistent run
  have decided : k.refuses (.getprio pid) = true ↔
      ∀ pc, (k.processesTable pid).bind k.procs = some pc → toSigned pc.priority < 0 := by
    rw [refuses, Option.all_eq_true, Int.toNat_natCast]
    simp only [decide_eq_true_eq]
  rcases value with ⟨entry, value⟩ | ⟨pc, entry, value⟩
  · subst value
    have refused : k.refuses (.getprio pid) = true := decided.mpr fun pc found => by
      rw [entry] at found
      cases found
    exact .failed refused rfl rfl (by decide)
  · have accepted : k.refuses (.getprio pid) = true ↔ prio < 0 := by
      rw [decided, entry, value]
      constructor
      · exact fun refused => refused pc rfl
      · intro low pc' same
        rw [Option.some.injEq] at same
        rw [← same]
        exact low
    clear value decided
    by_cases low : prio < 0
    · exact .failed (accepted.mpr low) rfl rfl low
    · refine .inr ⟨?_, fun v out returned => ?_⟩
      · rw [← Bool.not_eq_true, accepted]
        exact low
      · injection returned with same
        rw [← same]
        exact Int.not_lt.mp low

theorem chprio_answers {newprio : Int} (consistent : k.Consistent)
    (run : k.chprio pid newprio = .ok (k', n)) : k.Answers (.chprio pid newprio) k' n := by
  simp only [chprio, bind_eq_ok] at run
  obtain ⟨oldprio, got, run⟩ := run
  have value := getprio_value consistent got
  have decided : k.refuses (.chprio pid newprio) = true ↔ (0 < (pid : Int) ∧ newprio ≤ 0) ∨
      ∀ pc, (k.processesTable pid).bind k.procs = some pc →
        toSigned pc.priority ≤ 0 ∨ pc.status = .zombie := by
    rw [refuses, Bool.or_eq_true, decide_eq_true_eq, Option.all_eq_true, Int.toNat_natCast]
    simp only [decide_eq_true_eq]
  split at run
  · next refused =>
    simp only [Except.ok.injEq, Prod.mk.injEq] at run
    refine .failed (decided.mpr ?_) run.1.symm run.2.symm (by decide)
    rcases refused with low | lower
    · refine .inr fun pc entry => .inl ?_
      rcases value with ⟨absent, -⟩ | ⟨pc', entry', same⟩
      · rw [entry] at absent
        cases absent
      · rw [entry, Option.some.injEq] at entry'
        rw [entry', ← same]
        exact low
    · exact .inl lower
  · next accepted =>
    simp only [bind_eq_ok, tableAt_eq_ok, Int.toNat_natCast] at run
    obtain ⟨entry, ⟨-, slot⟩, run⟩ := run
    cases entry with
    | none => cases run
    | some c =>
        simp only [bind_eq_ok, deref_eq_ok] at run
        obtain ⟨pc, there, run⟩ := run
        have found : (k.processesTable pid).bind k.procs = some pc := by
          rw [slot, Option.bind_some, there]
        have priority : oldprio = toSigned pc.priority := by
          rcases value with ⟨absent, -⟩ | ⟨pc', entry', same⟩
          · rw [found] at absent
            cases absent
          · rw [found, Option.some.injEq] at entry'
            rw [entry', same]
        split at run
        · next zombie =>
          simp only [Except.ok.injEq, Prod.mk.injEq] at run
          refine .failed (decided.mpr (.inr fun pc' again => .inr ?_)) run.1.symm run.2.symm
            (by decide)
          rw [found, Option.some.injEq] at again
          exact again ▸ zombie
        · next running =>
          simp only [bind_eq_ok, Except.ok.injEq, Prod.mk.injEq] at run
          obtain ⟨k₂, -, -, outcome⟩ := run
          refine .suspended ?_ outcome.symm
          rw [← Bool.not_eq_true, decided]
          rintro (lower | refused)
          · exact accepted (.inr lower)
          · rcases refused pc found with low | zombie
            · exact accepted (.inl (le_of_eq_of_le priority low))
            · exact running zombie

theorem waitpid_answers {retvalp : Bool} (consistent : k.Consistent)
    (detached : k.family.Detached pid) (current : k.processesTable k.activePID = some a)
    (here : k.procs a = some p) (user : p.context = .user)
    (run : k.waitpid pid retvalp = .ok (k', n)) : k.Answers (.waitpid pid retvalp) k' n := by
  rcases waitpid_eq run with ⟨low, -⟩ | ⟨-, same, outcome⟩ |
    ⟨c, pc, b, parent, -, -, slot, there, current', here', search, -⟩
  · omega
  · exact .failed rfl same outcome (by decide)
  · exfalso
    rw [current, Option.some.injEq] at current'
    subst b
    rw [here, Option.some.injEq] at here'
    subst parent
    obtain ⟨d, child, pd, held, same⟩ := anyPid_true search
    obtain ⟨-, pc', there', number⟩ := consistent.table _ _ slot
    rw [there, Option.some.injEq] at there'
    subst pc'
    have waiting := detached d pd.member a p.member (family_apply held)
      (same.trans (number.trans (Int.toNat_natCast pid))) (family_apply here) child
    change p.context = .start pid at waiting
    rw [user] at waiting
    cases waiting

theorem refused_iff (consistent : k.Consistent) (detached : k.family.Detached pid)
    (named : call.names = some (pid : Int)) (run : k.step (.call call) = .ok (k', n)) :
    ((∃ value out, n = .ret value out ∧ value < 0) ∧ k' = k) ↔ k.refuses call = true := by
  obtain ⟨a, p, k₁, current, here, segment, finish⟩ := step_eq run
  have user : p.context = .user := by
    by_contra other
    simp [Kernel.segment, other] at segment
  rw [Kernel.segment, if_pos user] at segment
  have answers : k.Answers call k₁ n := by
    cases call with
    | start | exit | waitClock | sleep | pcreate | pdelete | preset | pcount | preceive | psend =>
        cases named
    | kill pid' => exact kill_answers consistent.linked segment
    | waitpid pid' retvalp =>
        obtain rfl : pid' = pid := Option.some.inj named
        exact waitpid_answers consistent detached current here user segment
    | getprio pid' =>
        obtain rfl : pid' = pid := Option.some.inj named
        simp only [perform, bind_eq_ok, Except.ok.injEq, Prod.mk.injEq] at segment
        obtain ⟨prio, got, rfl, rfl⟩ := segment
        exact getprio_answers consistent got
    | chprio pid' newprio =>
        obtain rfl : pid' = pid := Option.some.inj named
        exact chprio_answers consistent segment
  rcases answers with ⟨refused, rfl, value, out, rfl, low⟩ | ⟨accepted, high⟩
  · have same : k' = k₁ := by
      rcases finish_eq finish with ⟨-, -, -, rfl⟩ | ⟨context, impossible, -⟩
      · exact setProc_id here (by rw [← user])
      · cases impossible
    exact ⟨fun _ => refused, fun _ => ⟨⟨value, out, rfl, low⟩, same⟩⟩
  · rw [accepted]
    refine iff_of_false ?_ Bool.false_ne_true
    rintro ⟨⟨value, out, returned, low⟩, -⟩
    exact absurd low (Int.not_lt.mpr (high value out returned))

end Kernel

/-- After `waitpid` has returned a process, a call that names it fails and leaves the state
unchanged exactly when the slot is empty or the call refuses it on other grounds. -/
theorem waited_process_gone {history : History} (run : Reached history k) :
    Meets (fun past t => Gone past t ↔ Refused past t) history := by
  induction run with
  | start => trivial
  | @next past k k' e n run taken ih =>
      refine ⟨⟨fun gone call c event named waited => ?_,
        fun refused call c event named waited => ?_⟩, ih⟩
      all_goals
        change e = .call call at event
        subst event
        have consistent := (consistent_of_run run).1
        have detached := detached_of_run run c waited
        have answers := refused_iff consistent detached named taken
      · exact answers.mp (gone call c rfl named waited)
      · exact answers.mpr (refused call c rfl named waited)

/-- Two calls to `waitpid`, the second one after the first has returned its child. -/
theorem waited_process_gone_twice : ∃ past t k, Reached (t :: past) k ∧
    t.event = .call (.waitpid 2 true) ∧ WaitedFor 2 past = true ∧ Gone past t := by
  obtain ⟨history, k, run, checked⟩ := reached_by
    [.call (.start 512 10 [97] true true), .call (.start 512 5 [98] true true), .call (.kill 2),
      .resume, .call (.waitpid 2 true), .call (.waitpid 2 true)]
    (fun history _ =>
      match history with
      | t :: past => decide (t.event = .call (.waitpid 2 true)) && WaitedFor 2 past
      | [] => false)
    (by decide +kernel)
  cases history with
  | nil => cases checked
  | cons t past =>
      simp only [Bool.and_eq_true, decide_eq_true_eq] at checked
      obtain ⟨event, waited⟩ := checked
      refine ⟨past, t, k, run, event, waited, (waited_process_gone run).1.mpr ?_⟩
      intro call c called named before
      rw [event, Event.call.injEq] at called
      subst called
      rfl

/-- The priority of a process that has been waited for is still there to be read. -/
theorem waited_process_answers : ¬ ∀ history k, Reached history k → Meets Gone history := by
  intro gone
  obtain ⟨history, k, run, checked⟩ := reached_by
    [.call (.start 512 10 [97] true true), .call (.start 512 5 [98] true true), .call (.kill 2),
      .resume, .call (.waitpid 2 true), .call (.getprio 2)]
    (fun history _ =>
      match history with
      | t :: past => decide (t.event = .call (.getprio 2)) && WaitedFor 2 past &&
          decide (t.outcome = .ret 5 none)
      | [] => false)
    (by decide +kernel)
  cases history with
  | nil => cases checked
  | cons t past =>
      simp only [Bool.and_eq_true, decide_eq_true_eq] at checked
      obtain ⟨⟨event, waited⟩, outcome⟩ := checked
      obtain ⟨⟨value, out, returned, low⟩, -⟩ :=
        (gone (t :: past) k run).1 (.getprio 2) 2 event rfl waited
      rw [outcome] at returned
      cases returned
      cases low

end IntelX86Kernel

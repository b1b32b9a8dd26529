import IntelX86Kernel.Deeds
import IntelX86Kernel.Stability

/-! Every step of the kernel is a deed, and its call to `scheduling` a burial. -/

namespace IntelX86Kernel

namespace Kernel

variable {k k' k₁ : Kernel} {a b c : Addr} {p : Proc} {m : Mover} {n : Next} {next : Addr}

theorem family_apply (here : k.procs a = some p) : k.family a = some p.member := by
  rw [family, here, Option.map_some]

theorem of_family {mem : Member} (there : k.family a = some mem) :
    ∃ p, k.procs a = some p ∧ p.member = mem :=
  Option.map_eq_some_iff.mp there

def childrenOf (k : Kernel) (a : Addr) : List Addr :=
  match k.procs a with
  | some p => p.childrenList
  | none => []

theorem childrenOf_apply (here : k.procs a = some p) : k.childrenOf a = p.childrenList := by
  rw [childrenOf, here]

theorem childrenOf_eq {mem : Member} (here : k.family a = some mem) :
    k.childrenOf a = mem.children := by
  obtain ⟨p, held, rfl⟩ := of_family here
  exact childrenOf_apply held

theorem family_congr (procs : k'.procs = k.procs) : k'.family = k.family := by
  funext b
  rw [family, family, procs]

theorem family_setProc {f : Proc → Proc} {g : Member → Member}
    (same : ∀ p, (f p).member = g p.member) : (k.setProc a f).family = k.family.edit a g := by
  funext b
  rw [family, setProc_procs, Family.edit_apply]
  split
  · rw [family, Option.map_map, Option.map_map]
    exact congrArg (fun h => Option.map h (k.procs a)) (funext same)
  · rfl

theorem family_same {f : Proc → Proc} (same : ∀ p, (f p).member = p.member) :
    (k.setProc a f).family = k.family := by
  rw [family_setProc (g := id) same]
  funext b
  rw [Family.edit_apply]
  split
  · next equal => rw [equal, Option.map_id, id]
  · rfl

theorem family_relink {s : Status} {h : Head} :
    (k.relink a s h).family = k.family.edit a fun m => { m with phase := s.phase } := by
  funext b
  rw [family, relink_procs, Family.edit_apply]
  split
  · rw [family, Option.map_map, Option.map_map]
    rfl
  · rfl

theorem relink_quiet {s : Status} {h : Head} (here : k.procs a = some p)
    (same : p.status.phase = s.phase) : (k.relink a s h).family = k.family := by
  rw [family_relink]
  funext b
  rw [Family.edit_apply]
  split
  · next equal =>
    rw [equal, family_apply here, Option.map_some, ← same]
    rfl
  · rfl

theorem family_collected : ((k.dropSibling c b).relink c .dying .dying).family =
    k.family.dismiss c b := by
  rw [family_relink]
  funext d
  rw [Family.edit_apply, Family.dismiss, family, family, dropSibling_procs, dropSibling_procs,
    Option.map_map, Option.map_map, Option.map_map]
  split
  · next equal =>
    subst equal
    rw [family]
    cases k.procs d <;> simp [Proc.member, Status.phase]
  · next other =>
    rw [family]
    cases k.procs d <;> simp [Proc.member]

theorem family_popped (k₁ : Kernel) (heir : Option Addr) {f : Proc → Proc} 
    (procs : ∀ d, k₁.procs d = if d = c then ((k.popSibling c a).procs c).map f
      else (k.popSibling c a).procs d)
    (here : k.procs c = some p) (other : c ≠ a)
    (same : (f { p with siblings := none }).member = p.member.orphan heir) (d : Addr) :
    k₁.family d = if d = c then (k.family d).map (Member.orphan heir)
      else if d = a then (k.family a).map fun m => { m with children := m.children.dropLast }
      else k.family d := by
  rw [family, procs, popSibling_procs, popSibling_procs]
  by_cases child : d = c
  · rw [if_pos child, if_pos child, child, family_apply here, here, Option.map_some,
      Option.map_some, if_neg other, if_pos rfl, Option.map_some, same, Option.map_some]
  · rw [if_neg child, if_neg child]
    by_cases parent : d = a
    · subst parent
      rw [if_pos rfl, family]
      cases k.procs d <;> simp [Proc.member, child]
    · rw [if_neg parent, family]
      cases k.procs d <;> simp [Proc.member, child, parent]

theorem Freed.family {heir : Option Addr} {m : Member} (freed : Freed a k k')
    (here : k.family a = some m) (nodup : m.children.Nodup) (apart : a ∉ m.children)
    (zero : k.processesTable 0 = heir) : k'.family = k.family.disband a heir := by
  induction freed generalizing m with
  | @none k owner there empty =>
      rw [family_apply there, Option.some.injEq] at here
      exact (Family.disband_childless (family_apply there) empty).symm
  | @zombie k k' owner p c g there last found ended links rest ih =>
      rw [family_apply there, Option.some.injEq] at here
      subst here
      have other : c ≠ a := fun equal => apart (equal ▸ List.mem_of_getLast? last)
      have popped := family_popped ((k.popSibling c a).relink c .dying .dying) heir
        (fun d => relink_procs) found other
        (by simp [Proc.member, Member.orphan, ended, Status.phase])
      obtain ⟨left, same⟩ := Family.disband_last (family_apply there) last nodup apart popped
      rw [← same]
      exact ih left (nodup.sublist (List.dropLast_sublist _))
        (fun member => apart (List.dropLast_subset _ member)) zero
  | @alive k k' owner p c there last found running rest ih =>
      rw [family_apply there, Option.some.injEq] at here
      subst here
      have other : c ≠ a := fun equal => apart (equal ▸ List.mem_of_getLast? last)
      have active : p.status.phase ≠ .zombie := mt Status.phase_zombie.mp running
      have popped := family_popped ((k.popSibling c a).setProc c fun p =>
        { p with parent := k.processesTable 0 }) heir (fun d => setProc_procs _) found other
        (by simp [Proc.member, Member.orphan, active, zero])
      obtain ⟨left, same⟩ := Family.disband_last (family_apply there) last nodup apart popped
      rw [← same]
      exact ih left (nodup.sublist (List.dropLast_sublist _))
        (fun member => apart (List.dropLast_subset _ member)) zero

theorem rouse_other (there : k.procs b = some p) (awake : p.status ≠ .blocked) :
    k.family.rouse b = k.family := by
  have phase : p.member.phase ≠ .blocked := mt Status.phase_blocked.mp awake
  funext d
  rw [Family.rouse, Family.edit_apply]
  split
  · next same =>
    rw [same, family_apply there, Option.map_some, if_neg phase]
  · rfl

theorem rouse_blocked (there : k.procs b = some p) (blocked : p.status = .blocked) :
    (k.relink b .ready .ready).family = k.family.rouse b := by
  have phase : p.member.phase = .blocked := Status.phase_blocked.mpr blocked
  rw [family_relink]
  funext d
  rw [Family.rouse, Family.edit_apply, Family.edit_apply]
  split
  · rw [family_apply there, Option.map_some, Option.map_some, if_pos phase]
    rfl
  · rfl

/-- What `exit` does to the families. -/
theorem exit_deed {retval : Int} (linked : k.Linked) (sound : k.family.Sound next)
    (current : k.processesTable k.activePID = some a) (here : k.procs a = some p)
    (run : k.exit retval = .ok (k', n)) :
    n = .suspend .exit ∧
      ((∃ b parent, p.member.parent = some b ∧ k.family b = some parent ∧ parent.pid ≠ 0 ∧
          k'.family = ((k.family.edit a fun m =>
            { m with retval := retval, killed := false }).conclude a .zombie
              (k.processesTable 0)).rouse b) ∨
        (k.family.ParentGone p.member ∧
          k'.family = (k.family.edit a fun m =>
            { m with retval := retval, killed := false }).conclude a .dying
              (k.processesTable 0))) := by
  obtain ⟨a', p', k₁, p₁, current', here', freed, found, -, rfl, ended⟩ := exit_eq linked run
  rw [current, Option.some.injEq] at current'
  subst a'
  have mine := family_apply here
  have edited : (k.setProc a fun p => { p with retval := retval, killed := false }).family =
      k.family.edit a fun m => { m with retval := retval, killed := false } :=
    family_setProc fun _ => rfl
  have own : (k.setProc a fun p => { p with retval := retval, killed := false }).family a =
      some { p.member with retval := retval, killed := false } := by
    rw [edited, Family.edit_self mine]
  have nodup : p.childrenList.Nodup := sound.nodup a _ mine
  have apart : a ∉ p.childrenList := sound.not_own mine
  have disbanded := freed.family own nodup apart rfl
  have concluded {s : Status} {h : Head} : (k₁.relink a s h).family =
      (k.family.edit a fun m => { m with retval := retval, killed := false }).conclude a
        s.phase (k.processesTable 0) := by
    rw [family_relink, disbanded, edited, Family.conclude_eq]
    rfl
  have parent : p₁.parent = p.parent := by
    have after := family_apply found
    rw [disbanded, Family.disband, if_pos rfl, own, Option.map_some, Option.some.injEq] at after
    exact (congrArg Member.parent after).symm
  have before (b : Addr) (owner : Proc) (there : k₁.procs b = some owner) :
      ∃ m, k.family b = some m ∧ m.pid = owner.pid := by
    have after := family_apply there
    rw [disbanded] at after
    have pids := Family.disband_pid.symm.trans (congrArg (Option.map Member.pid) after)
    have same : (k.family.edit a (fun m =>
        { m with retval := retval, killed := false }) b).map Member.pid =
        (k.family b).map Member.pid := Family.edit_pid fun _ => rfl
    rw [edited, same] at pids
    exact Option.map_eq_some_iff.mp pids
  refine ⟨rfl, ?_⟩
  rcases ended with ⟨gone, rfl⟩ | ⟨⟨b', owner', parent', there', pid'⟩, b, owner, equal, there, woken⟩
  · refine .inr ⟨fun b equal => ?_, concluded⟩
    obtain ⟨owner, there, zero⟩ := gone b (parent.trans equal)
    obtain ⟨m, held, pid⟩ := before b owner there
    exact ⟨m, held, pid.trans zero⟩
  · rw [equal, Option.some.injEq] at parent'
    subst b'
    obtain ⟨m, held, pid⟩ := before b owner' there'
    refine .inl ⟨b, m, parent.symm.trans equal, held, pid ▸ pid', ?_⟩
    have ended : (k₁.relink a .zombie .zombie).family = _ := concluded
    change _ = (Family.conclude _ a Status.zombie.phase _).rouse b
    rw [← ended]
    rcases woken with ⟨awake, rfl⟩ | ⟨blocked, -, rfl⟩
    · exact (rouse_other there awake).symm
    · exact rouse_blocked there blocked

theorem exit_marked {retval : Int} (current : k.processesTable k.activePID = some a)
    (here : k.procs a = some p) :
    (k.setProc a fun p => { p with killed := true }).exit retval = k.exit retval := by
  have active : k.active = .ok a := active_eq_ok.mpr current
  have active' : (k.setProc a fun p => { p with killed := true }).active = .ok a := active
  have held : k.deref a = .ok p := deref_eq_ok.mpr here
  have held' : (k.setProc a fun p => { p with killed := true }).deref a =
      .ok { p with killed := true } := by
    rw [deref_eq_ok, setProc_procs, if_pos rfl, here, Option.map_some]
  simp only [exit, active, active', held, held', bind, Except.bind, setProc_setProc]

/-- What a `kill` of another process does to the families. -/
theorem kill_deed {s : Status} {h : Head} (sound : k.family.Sound next)
    (here : k.procs a = some p)
    (freed : Freed a ((k.setProc a fun p => { p with killed := true }).relink a s h) k') :
    k'.family = (k.family.edit a fun m => { m with killed := true }).conclude a s.phase
      (k.processesTable 0) := by
  have mine := family_apply here
  have moved : ((k.setProc a fun p => { p with killed := true }).relink a s h).family =
      (k.family.edit a fun m => { m with killed := true }).edit a
        fun m => { m with phase := s.phase } := by
    rw [family_relink, family_setProc (g := fun m => { m with killed := true }) fun _ => rfl]
  have own := (congrFun moved a).trans (Family.edit_self (Family.edit_self mine))
  have nodup : p.childrenList.Nodup := sound.nodup a _ mine
  have apart : a ∉ p.childrenList := sound.not_own mine
  rw [freed.family own nodup apart rfl, moved, Family.conclude_early]
  rfl

theorem sentence {s : Status}
    (fate : (k.ParentAlive p ∧ s = .zombie) ∨ (k.ParentGone p ∧ s = .dying)) :
    k.family.Sentence p.member s.phase := by
  rcases fate with ⟨⟨b, parent, owner, there, pid⟩, rfl⟩ | ⟨gone, rfl⟩
  · exact .inl ⟨rfl, b, parent.member, owner, family_apply there, pid⟩
  · refine .inr ⟨rfl, fun b owner => ?_⟩
    obtain ⟨parent, there, zero⟩ := gone b owner
    exact ⟨parent.member, family_apply there, zero⟩

theorem Move.quiet (move : Move m k k') (other : m.kind ≠ .family)
    (placed : ∀ a p, k.procs a = some p → p.Placed)
    (alive : ∀ p, k.procs m.current = some p → p.status.phase = .alive) :
    k'.family = k.family := by
  cases move with
  | @relink a p h held here allowed =>
      refine relink_quiet here ?_
      cases allowed with
      | ends kind own stops => exact absurd kind other
      | target kind killed dead => exact absurd kind other
      | parent kind blocked => exact absurd kind other
      | child kind ended => exact absurd kind other
      | waits kind own => exact alive p (own ▸ here)
      | waiter kind links =>
          rw [(placed a p here).status_of_links links nofun]
          rfl
  | edit kind same => exact absurd kind other
  | @delay p time kind here =>
      have found : (k.setProc m.current fun p => { p with wakeUpTime := time }).procs m.current =
          some { p with wakeUpTime := time } :=
        setProc_here here
      have phase : p.status.phase = Status.asleep.phase := alive p here
      exact (relink_quiet found phase).trans (family_same fun _ => rfl)
  | @resort a p prio h held here sorted stays links kind =>
      have found : (k.setProc a fun p => { p with priority := prio }).procs a =
          some { p with priority := prio } :=
        setProc_here here
      exact (relink_quiet found (congrArg Status.phase stays)).trans (family_same fun _ => rfl)
  | reprioritise here apart kind => exact family_same fun _ => rfl
  | birth small free named status links context stack kept own kind joined => exact absurd kind other
  | store procs lists table current number next records fresh queues quiet => exact family_congr procs

theorem Moves.quiet (moves : Moves m k k') (consistent : k.Consistent)
    (other : m.kind ≠ .family)
    (alive : ∀ p, k.procs m.current = some p → p.status.phase = .alive) :
    k'.family = k.family := by
  induction moves with
  | refl => rfl
  | tail moves move ih =>
      have between := consistent.moves moves
      refine (move.quiet other between.placed fun p there => ?_).trans ih
      have before := family_apply there
      rw [ih] at before
      obtain ⟨p₀, here, same⟩ := of_family before
      have phase : p₀.status.phase = p.status.phase := congrArg Member.phase same
      exact phase ▸ alive p₀ here

theorem takeMessage_waitless {fid : Nat} {q : Addr} {context : Frame} (linked : k.Linked)
    (run : k.takeMessage fid q = .ok (k', .suspend context)) : context.waits = false := by
  obtain ⟨mq, cell, q', -, -, -, ⟨-, ended, -⟩ | ⟨b, -, -, -, ended⟩⟩ := takeMessage_eq linked run
  · cases ended
  · cases ended
    rfl

theorem blockOnQueue_waitless {q : Addr} {context context' : Frame} (linked : k.Linked)
    (waitless : context.waits = false)
    (run : k.blockOnQueue q context = .ok (k', .suspend context')) : context'.waits = false := by
  obtain ⟨a, p, -, -, -, -, ended⟩ := blockOnQueue_eq linked run
  cases ended
  exact waitless

theorem perform_waitless {call : Call} {context : Frame} (linked : k.Linked)
    (other : call.kind ≠ .family) (run : k.perform call = .ok (k', .suspend context)) :
    context.waits = false := by
  cases call with
  | start | exit | kill | waitpid => exact absurd rfl other
  | chprio pid newprio =>
      rcases chprio_eq run with ⟨-, ended⟩ | ⟨a, p, -, -, -, -, ended⟩ <;> cases ended
      rfl
  | getprio pid => simp [perform, bind_eq_ok] at run
  | waitClock clock =>
      obtain ⟨a, p, -, -, -, -, ended⟩ := waitClock_eq linked run
      cases ended
      rfl
  | sleep seconds =>
      obtain ⟨a, p, -, -, -, -, ended⟩ := waitClock_eq linked run
      cases ended
      rfl
  | pcreate count recordGranted bufferGranted =>
      rcases pcreate_eq run with ⟨-, -, ended⟩ |
        ⟨-, -, -, -, -, -, ⟨-, -, ended⟩ | ⟨-, -, ended⟩⟩ <;> cases ended
  | pdelete fid =>
      rcases pdelete_eq linked run with ⟨-, -, ended⟩ | ⟨q, mq, k₁, heap, -, -, -, -, -, -, ended⟩ <;>
        cases ended
      rfl
  | preset fid =>
      rcases preset_eq linked run with ⟨-, -, ended⟩ | ⟨q, mq, -, -, -, -, ended⟩ <;> cases ended
      rfl
  | pcount fid count =>
      obtain ⟨-, value, out, ended⟩ := pcount_eq run
      cases ended
  | preceive fid =>
      rcases preceive_eq run with ⟨-, -, ended⟩ | ⟨q, mq, -, -, -, ⟨-, run⟩ | ⟨-, run⟩⟩
      · cases ended
      · exact blockOnQueue_waitless linked rfl run
      · exact takeMessage_waitless linked run
  | psend fid message =>
      rcases psend_eq linked run with ⟨-, -, ended⟩ |
        ⟨q, mq, -, -, -, ⟨b, -, -, -, ended⟩ | ⟨-, -, run⟩ | ⟨-, -, -, ended⟩⟩
      · cases ended
      · cases ended
        rfl
      · exact blockOnQueue_waitless linked rfl run
      · cases ended

theorem resume_waitless {context context' : Frame} (linked : k.Linked)
    (waitless : context.waits = false)
    (run : k.continueWith context = .ok (k', .suspend context')) : context'.waits = false := by
  cases context with
  | user => cases run
  | done value out => cases run
  | start pid =>
      obtain ⟨a, p, -, -, -, ended⟩ := startReturn_eq run
      cases ended
  | exit => cases run
  | waitpid | waitForChild => cases waitless
  | preceive fid q =>
      obtain ⟨mq, -, ⟨-, -, ended⟩ | ⟨-, -, -, run⟩⟩ := preceiveResumed_eq run
      · cases ended
      · exact takeMessage_waitless linked run
  | psend fid q message =>
      obtain ⟨mq, -, ⟨-, -, ended⟩ | ⟨-, -, -, ended⟩ | ⟨-, -, -, run⟩ | ⟨-, -, -, -, ended⟩⟩ :=
        psendResumed_eq run
      · cases ended
      · cases ended
      · exact blockOnQueue_waitless linked rfl run
      · cases ended

variable {pid : Nat} {retvalp : Bool} {e : Event} {heir : Option Addr} {request : Request}

theorem collect_deed (linked : k.Linked) (asks : Asks k.family p.member e request retvalp)
    (admitted : request.Admits p.childrenList c) {pc : Proc} (there : k.procs c = some pc)
    (ended : pc.status = .zombie) (run : k.collect c retvalp = .ok (k', n)) :
    Deed k.family heir next a p.member e n k'.family := by
  obtain ⟨p', g, parent, owner, found, -, siblings, -, rfl, rfl⟩ := collect_eq linked run
  rw [there, Option.some.injEq] at found
  subst p'
  rw [family_collected]
  exact .collects asks admitted (family_apply there) (Status.phase_zombie.mpr ended) siblings

theorem firstZombie_deed (linked : k.Linked) (asks : Asks k.family p.member e .any retvalp)
    (search : k.firstZombie p.childrenList = .ok (some c))
    (run : k.collect c retvalp = .ok (k', n)) :
    Deed k.family heir next a p.member e n k'.family := by
  obtain ⟨member, pc, there, ended⟩ := firstZombie_some search
  exact collect_deed linked asks member there ended run

theorem firstZombie_running (search : k.firstZombie p.childrenList = .ok none) :
    ∀ c ∈ p.childrenList, ∃ mc, k.family c = some mc ∧ mc.phase ≠ .zombie := by
  intro c member
  obtain ⟨pc, there, running⟩ := firstZombie_none search c member
  exact ⟨pc.member, family_apply there, mt Status.phase_zombie.mp running⟩

theorem blockWaiting_deed (linked : k.Linked) (current : k.processesTable k.activePID = some a)
    (asks : Asks k.family p.member e request retvalp)
    (given : e ≠ .resume → request = .any → p.childrenList ≠ [])
    (running : ∀ c, request.Admits p.childrenList c →
      ∃ mc, k.family c = some mc ∧ mc.phase ≠ .zombie)
    (run : k.blockWaiting (request.frame retvalp) = .ok (k', n)) :
    Deed k.family heir next a p.member e n k'.family := by
  obtain ⟨a', p', current', -, -, rfl, rfl⟩ := blockWaiting_eq linked run
  rw [current, Option.some.injEq] at current'
  subst a'
  rw [family_relink]
  exact .blocks asks given running

theorem waitpidLoop_deed (linked : k.Linked) (current : k.processesTable k.activePID = some a)
    (asks : Asks k.family p.member e (.child pid c) retvalp)
    (run : k.waitpidLoop pid c retvalp = .ok (k', n)) :
    Deed k.family heir next a p.member e n k'.family := by
  obtain ⟨pc, there, ⟨ended, run⟩ | ⟨running, run⟩⟩ := waitpidLoop_eq run
  · exact collect_deed linked asks rfl there ended run
  · refine blockWaiting_deed linked current asks nofun (fun d same => ?_) run
    cases same
    exact ⟨pc.member, family_apply there, mt Status.phase_zombie.mp running⟩

theorem waitpid_deed {pid : Int} (consistent : k.Consistent)
    (current : k.processesTable k.activePID = some a) (here : k.procs a = some p)
    (run : k.waitpid pid retvalp = .ok (k', n)) :
    Deed k.family heir next a p.member (.call (.waitpid pid retvalp)) n k'.family := by
  have linked := consistent.linked
  rcases waitpid_eq run with ⟨negative, run⟩ | ⟨given, rfl, rfl⟩ |
    ⟨child, pc, a', p', given, -, slot, there, current', here', listed, run⟩
  · obtain ⟨a', p', current', here', choice⟩ := waitForChild_eq run
    rw [current, Option.some.injEq] at current'
    subst a'
    rw [here, Option.some.injEq] at here'
    subst p'
    rcases choice with ⟨childless, rfl, rfl⟩ | ⟨c, search, run⟩ | ⟨children, search, run⟩
    · exact .childless negative childless
    · exact firstZombie_deed linked (.any negative) search run
    · exact blockWaiting_deed linked current (.any negative) (fun _ _ => children)
        (firstZombie_running search) run
  · exact .refused given
  · rw [current, Option.some.injEq] at current'
    subst a'
    rw [here, Option.some.injEq] at here'
    subst p'
    obtain ⟨c, member, pc', there', same⟩ := anyPid_true listed
    obtain rfl := consistent.unique there' there same
    obtain ⟨-, pc', held, named⟩ := consistent.table _ _ slot
    rw [there, Option.some.injEq] at held
    subst pc'
    exact waitpidLoop_deed linked current (.child given member (family_apply there) named) run

theorem resume_deed (linked : k.Linked)
    (current : k.processesTable k.activePID = some a) (here : k.procs a = some p)
    (waits : p.context.waits = true)
    (run : k.continueWith p.context = .ok (k', n)) :
    Deed k.family heir next a p.member .resume n k'.family := by
  cases saved : p.context with
  | user | done | start | exit | preceive | psend =>
      rw [saved] at waits
      cases waits
  | waitpid pid child retvalp =>
      rw [saved] at run
      exact waitpidLoop_deed linked current (.again saved) run
  | waitForChild retvalp =>
      rw [saved] at run
      obtain ⟨a', p', current', here', choice⟩ := waitForChildResumed_eq run
      rw [current, Option.some.injEq] at current'
      subst a'
      rw [here, Option.some.injEq] at here'
      subst p'
      rcases choice with ⟨c, search, run⟩ | ⟨search, rfl, rfl⟩
      · exact firstZombie_deed linked (.again saved) search run
      · exact .missed saved (firstZombie_running search)

theorem family_born {pid : Nat} {heap : Addr → Option Nat} (new : Proc) {k₀ : Kernel}
    (placed : List Addr) (orphan : new.siblings = none)
    (joined : (k₀ = k.born pid new heap ∧ new.parent = none ∧ placed = []) ∨
      ∃ b, new.parent = some b ∧ b ≠ k.nextBlock ∧
        k₀ = (k.born pid new heap).join k.nextBlock b placed) :
    (k₀.link k.nextBlock .ready).counted.family =
      k.family.adopt k.nextBlock { new.member with siblings := new.parent } placed := by
  funext d
  change Option.map Proc.member ((k₀.link k.nextBlock .ready).procs d) = _
  rw [link_procs, Family.adopt]
  rcases joined with ⟨rfl, parent, -⟩ | ⟨b, parent, other, rfl⟩
  · by_cases self : d = k.nextBlock
    · rw [if_pos self, if_pos self, born_procs, if_pos rfl]
      simp [Proc.member, orphan, parent]
    · rw [if_neg self, if_neg self, born_procs, if_neg self, family]
      cases k.procs d <;> simp [Proc.member, parent]
  · by_cases self : d = k.nextBlock
    · rw [if_pos self, if_pos self, join_procs, born_procs, if_pos rfl]
      simp [Proc.member, parent, Ne.symm other]
    · rw [if_neg self, if_neg self, join_procs, born_procs, if_neg self, family]
      cases k.procs d <;> simp [Proc.member, parent, self, eq_comm]

theorem start_deed {ssize : Nat} {prio : Int} {name : List UInt8}
    {procGranted stackGranted : Bool} (consistent : k.Consistent)
    (current : k.processesTable k.activePID = some a) (here : k.procs a = some p)
    (run : k.start ssize prio name procGranted stackGranted = .ok (k', n)) :
    Deed k.family heir k.nextBlock a p.member
      (.call (.start ssize prio name procGranted stackGranted)) n k'.family := by
  have absent := (consistent.fresh _ le_rfl).1
  rcases start_eq absent (fun _ => by simp [current]) run with ⟨heap, next, -, -, rfl, rfl⟩ |
    ⟨pid, stackSize, heap, k₁, newPid, -, -, yielded, joined⟩
  · exact .failed
  · rw [yielded.same]
    have left (context : Frame) (ended : n = .suspend context) : context.waits = false := by
      obtain ⟨b, p₁, p₂, -, -, -, ⟨-, -, same⟩ | ⟨-, run⟩⟩ := yielded
      · rw [same] at ended
        cases ended
        rfl
      · obtain ⟨d, p₃, -, -, -, same⟩ := startReturn_eq run
        rw [same] at ended
        cases ended
    have phase : (k.created pid stackSize prio name).status.phase = .alive := by
      change (if pid = 0 then Status.elected else Status.ready).phase = _
      split <;> rfl
    have parents (b : Addr) (owner : k.getParentProc = some b) : b = a := by
      unfold getParentProc at owner
      split at owner
      · cases owner
      · rw [current, Option.some.injEq] at owner
        exact owner.symm
    rcases joined with ⟨first, rfl⟩ | ⟨b, owner, placed, others, entry, there, perm, rfl⟩
    · have none : k.getParentProc = none := if_pos first
      rw [family_born (k.created pid stackSize prio name) _ rfl (.inl ⟨rfl, none, rfl⟩)]
      exact .bears left rfl rfl phase rfl parents fun owner => by
        change k.getParentProc = _ at owner
        rw [none] at owner
        cases owner
    · have parent : k.getParentProc = some b := (if_neg others).trans entry
      have old : b ≠ k.nextBlock := by
        rintro rfl
        rw [current, Option.some.injEq] at entry
        rw [← entry, here] at absent
        cases absent
      rw [family_born (k.created pid stackSize prio name) _ rfl (.inr ⟨b, parent, old, rfl⟩)]
      refine .bears left rfl rfl phase rfl parents fun _ => ?_
      rw [born_procs, if_neg old] at there
      rw [current, Option.some.injEq] at entry
      subst entry
      rw [here, Option.some.injEq] at there
      exact there ▸ perm

theorem perform_deed {call : Call} (consistent : k.Consistent) (sound : k.family.Sound next)
    (current : k.processesTable k.activePID = some a) (here : k.procs a = some p)
    (kind : call.kind = .family) (run : k.perform call = .ok (k', n)) :
    Deed k.family (k.processesTable 0) k.nextBlock a p.member (.call call) n k'.family := by
  have linked := consistent.linked
  cases call with
  | chprio | getprio | waitClock | sleep | pcreate | pdelete | preset | pcount | preceive | psend =>
      cases kind
  | start ssize prio name procGranted stackGranted => exact start_deed consistent current here run
  | exit retval =>
      obtain ⟨rfl, ⟨b, parent, owner, there, other, same⟩ | ⟨gone, same⟩⟩ :=
        exit_deed linked sound current here run
      · exact same ▸ .exits (.inl rfl) owner there other
      · exact same ▸ .vanishes (.inl rfl) gone
  | waitpid pid retvalp => exact waitpid_deed consistent current here run
  | kill pid =>
      have own : p.pid = k.activePID := by
        obtain ⟨-, p', here', named⟩ := consistent.table _ _ current
        rw [here, Option.some.injEq] at here'
        exact here' ▸ named
      rcases kill_eq linked run with ⟨refused, rfl, rfl⟩ |
        ⟨c, pc, positive, slot, there, alive, ended⟩
      · refine .other (fun positive c mc there named => ?_) nofun nofun nofun
        obtain ⟨pc, found, rfl⟩ := of_family there
        have slot := consistent.owned c pc found
        change pc.pid = pid.toNat at named
        rw [named] at slot
        exact Status.phase_zombie.mpr (refused positive c pc slot found)
      · obtain ⟨-, pc', there', named⟩ := consistent.table _ _ slot
        rw [there, Option.some.injEq] at there'
        subst pc'
        rcases ended with ⟨self, run⟩ | ⟨other, -, rfl, freed⟩
        · have same : c = a := consistent.unique there here (by omega)
          subst same
          rw [there, Option.some.injEq] at here
          subst here
          rw [exit_marked current there] at run
          have ends : Ends pc.member 0 (.call (.kill pid)) :=
            .inr ⟨pid, rfl, positive, self.trans (by rw [← own]; rfl), rfl⟩
          obtain ⟨rfl, ⟨b, parent, owner, there, other, same⟩ | ⟨gone, same⟩⟩ :=
            exit_deed linked sound current there run
          · exact same ▸ .exits ends owner there other
          · exact same ▸ .vanishes ends gone
        · have apart : c ≠ a := by
            rintro rfl
            rw [here, Option.some.injEq] at there
            subst there
            omega
          have running : pc.member.phase ≠ .zombie := mt Status.phase_zombie.mp alive
          rcases freed with ⟨parent, freed⟩ | ⟨parent, freed⟩
          · rw [kill_deed sound there freed]
            exact .kills positive (family_apply there) named apart running
              (sentence (.inl ⟨parent, rfl⟩))
          · rw [kill_deed sound there freed]
            exact .kills positive (family_apply there) named apart running
              (sentence (.inr ⟨parent, rfl⟩))

theorem segment_deed (consistent : k.Consistent) (sound : k.family.Sound next)
    (current : k.processesTable k.activePID = some a) (here : k.procs a = some p)
    (alive : p.status.phase = .alive) (run : k.segment p.context e = .ok (k', n)) :
    Deed k.family (k.processesTable 0) k.nextBlock a p.member e n k'.family := by
  have linked := consistent.linked
  by_cases kind : e.kind p.context = .family
  · cases e with
    | clockInterrupt => cases kind
    | call c =>
        simp only [segment] at run
        split at run
        · exact perform_deed consistent sound current here kind run
        · cases run
    | resume =>
        refine resume_deed linked current here ?_ run
        cases saved : p.context <;> simp [Event.kind, Frame.kind, saved] at kind <;> rfl
  · have quiet : k'.family = k.family :=
      (segment_moves consistent current run).quiet consistent kind fun p' here' => by
        rw [mover, here, Option.some.injEq] at here'
        exact here' ▸ alive
    rw [quiet]
    cases e with
    | clockInterrupt =>
        simp only [segment, clockInterrupt] at run
        split at run
        · cases run
          exact .other trivial (fun started => by cases started) (fun _ => rfl) fun context ended => by cases ended; rfl
        · cases run
    | call c =>
        simp only [segment] at run
        split at run
        · refine .other ?_ (fun started => by cases started) (fun started => by cases started) fun context ended => ?_
          · cases c <;> first | exact trivial | exact absurd rfl kind
          · exact perform_waitless linked kind (ended ▸ run)
        · cases run
    | resume =>
        have waitless : p.context.waits = false := by
          cases saved : p.context <;> simp [Event.kind, Frame.kind, saved] at kind <;> rfl
        have busy : p.context ≠ .user := by
          intro user
          rw [segment, user] at run
          cases run
        exact .other trivial (fun _ => ⟨waitless, busy⟩) (fun started => by cases started) fun context ended =>
          resume_waitless linked waitless (ended ▸ run)

theorem Move.next_le (move : Move m k k') : k.nextBlock ≤ k'.nextBlock := by
  cases move with
  | birth small free named status links context stack kept own kind joined =>
      obtain ⟨-, -, -, -, next, -⟩ := birth_procs joined
      exact (Nat.le_add_right _ 2).trans_eq next.symm
  | store procs lists table current number next records fresh queues quiet => exact next
  | _ => exact le_rfl

theorem Moves.next_le (moves : Moves m k k') : k.nextBlock ≤ k'.nextBlock := by
  induction moves with
  | refl => exact le_rfl
  | tail moves move ih => exact ih.trans move.next_le

theorem scheduling_buried (consistent : k.Consistent) (run : k.scheduling = .ok k') :
    k.family.Buried k'.family := by
  intro b
  have settled := scheduling_settled consistent run b
  rw [family, family]
  generalize k.procs b = before at settled
  generalize k'.procs b = after at settled
  cases settled with
  | same => exact .inl rfl
  | @awake p p' s l t was now rest =>
      refine .inl ?_
      have alive (s : Status) (active : s = .ready ∨ s = .elected ∨ s = .asleep) :
          s.phase = .alive := by
        rcases active with rfl | rfl | rfl <;> rfl
      have before : p.status.phase = .alive := by
        rcases was with (status | status) | status <;> exact alive _ (by simp [status])
      have after : p'.status.phase = .alive := by
        rcases now with status | status <;> exact alive _ (by simp [status])
      have phase : p'.status.phase = p.status.phase := after.trans before.symm
      rw [Option.map_some, Option.map_some, Proc.member, Proc.member, phase, rest]
  | @freed p was => exact .inr ⟨rfl, p.member, rfl, Status.phase_dying.mpr was⟩

theorem Yielded.outcome {k₁ : Kernel} {pid : Nat} (yielded : k.Yielded a pid k₁ n)
    (consistent : k₁.Consistent) : n = .suspend (.start pid) ∨ n = .ret pid none := by
  obtain ⟨b, p, running, -, -, -, ⟨-, -, suspended⟩ | ⟨-, resumed⟩⟩ := yielded
  · exact .inl suspended
  · obtain ⟨b, p', slot, here, rfl, returned⟩ := startReturn_eq resumed
    obtain ⟨-, p₂, here', named⟩ := consistent.table _ _ slot
    rw [here, Option.some.injEq] at here'
    subst p₂
    rw [named] at returned
    exact .inr returned

theorem segment_born {context : Frame} {e : Event} {m new : Member} {heir : Option Addr}
    (consistent : k.Consistent) (current : k.processesTable k.activePID = some a)
    (run : k.segment context e = .ok (k', n))
    (deed : Deed k.family heir k.nextBlock a m e n k'.family)
    (there : k'.family k.nextBlock = some new) :
    (k.nbProc ≠ 0 → new.parent = some a) ∧
      (n = .suspend (.start new.pid) ∨ n = .ret new.pid none) ∧
      ∃ ssize prio name procGranted stackGranted,
        e = .call (.start ssize prio name procGranted stackGranted) := by
  have consistent' := consistent.segment run
  have fresh := (consistent.fresh _ le_rfl).1
  have absent (m : Member) (here : k.family k.nextBlock = some m) : False := by
    rw [family, fresh] at here
    cases here
  generalize after : k'.family = G at deed there
  cases deed with
  | other | failed | refused | childless | missed => exact (absent new there).elim
  | blocks =>
      obtain ⟨m, here, -⟩ := Family.of_edit there
      exact (absent m here).elim
  | collects =>
      obtain ⟨m, here, -⟩ := Family.of_dismiss there
      exact (absent m here).elim
  | exits =>
      obtain ⟨m, concluded, -⟩ := Family.of_edit there
      obtain ⟨m₁, edited, -⟩ := Family.of_conclude concluded
      obtain ⟨m₂, here, -⟩ := Family.of_edit edited
      exact (absent m₂ here).elim
  | vanishes | kills =>
      obtain ⟨m₁, edited, -⟩ := Family.of_conclude there
      obtain ⟨m₂, here, -⟩ := Family.of_edit edited
      exact (absent m₂ here).elim
  | @bears n new' placed ssize prio name procGranted stackGranted left siblings childless phase
      context parent joined =>
      simp only [segment] at run
      split at run
      · rcases start_eq fresh (fun _ => by simp [current]) run with ⟨heap, next, -, -, rfl, -⟩ |
          ⟨pid, stackSize, heap, k₁, newPid, -, -, yielded, joined'⟩
        · rw [← after] at there
          exact (absent new there).elim
        · have outcome := yielded.outcome consistent'
          rw [yielded.same] at after
          rcases joined' with ⟨none, same⟩ | ⟨b, owner, placed', others, entry, held, -, same⟩
          · have orphan : k.getParentProc = Option.none := if_pos none
            rw [family_born (k.created pid stackSize prio name) [] rfl
              (.inl ⟨same, orphan, rfl⟩)] at after
            rw [← after, Family.adopt, if_pos rfl, Option.some.injEq] at there
            subst there
            exact ⟨fun others => absurd none others, outcome, ssize, prio, name,
              procGranted, stackGranted, rfl⟩
          · rw [current, Option.some.injEq] at entry
            subst b
            have owned : k.getParentProc = some a := (if_neg others).trans current
            obtain ⟨-, p, here, -⟩ := consistent.table _ _ current
            have old : a ≠ k.nextBlock := by
              rintro rfl
              rw [fresh] at here
              cases here
            rw [family_born (k.created pid stackSize prio name) _ rfl
              (.inr ⟨a, owned, old, same⟩)] at after
            rw [← after, Family.adopt, if_pos rfl, Option.some.injEq] at there
            subst there
            exact ⟨fun _ => owned, outcome, ssize, prio, name, procGranted,
              stackGranted, rfl⟩
      · cases run

structure Acts (k : Kernel) (e : Event) (n : Next) (k' : Kernel) (a : Addr) (m : Member)
    (G : Family) : Prop where
  current : k.processesTable k.activePID = some a
  here : k.family a = some m
  alive : m.phase = .alive
  deed : Deed k.family (k.processesTable 0) k.nextBlock a m e n G
  buried : (G.edit a (Member.saved n)).Buried k'.family
  later : k.nextBlock ≤ k'.nextBlock
  used : G k.nextBlock ≠ none → k.nextBlock < k'.nextBlock
  parented : k.nbProc ≠ 0 → ∀ new, G k.nextBlock = some new → new.parent = some a
  started : ∀ new, G k.nextBlock = some new →
    (n = .suspend (.start new.pid) ∨ n = .ret new.pid none) ∧
      ∃ ssize prio name procGranted stackGranted,
        e = .call (.start ssize prio name procGranted stackGranted)

theorem segment_acts (consistent : k.Consistent) (sound : k.family.Sound next)
    (current : k.processesTable k.activePID = some a) (here : k.procs a = some p)
    (alive : p.status.phase = .alive) (segment : k.segment p.context e = .ok (k₁, n))
    (finish : k₁.finish a n = .ok k') : k.Acts e n k' a p.member k₁.family := by
  have consistent₁ := consistent.segment segment
  have saved (context : Frame) (same : ∀ m : Member, m.saved n = { m with context := context }) :
      (k₁.setContext a context).family = k₁.family.edit a (Member.saved n) :=
    family_setProc fun p => (same p.member).symm
  have later := (segment_moves consistent current segment).next_le
  have ended : (k₁.family.edit a (Member.saved n)).Buried k'.family ∧
      k'.nextBlock = k₁.nextBlock := by
    rcases finish_eq finish with ⟨value, out, rfl, rfl⟩ | ⟨context, rfl, finish⟩
    · rw [← saved .user fun _ => rfl]
      exact ⟨.refl _, rfl⟩
    · rw [← saved context fun _ => rfl]
      have same := scheduling_same consistent₁.setContext finish
      exact ⟨scheduling_buried consistent₁.setContext finish, same.2.2.1⟩
  obtain ⟨buried, next⟩ := ended
  have deed := segment_deed consistent sound current here alive segment
  refine ⟨current, family_apply here, alive, deed, buried, next ▸ later,
    fun new => ?_,
    fun others new there => (segment_born consistent current segment deed there).1 others,
    fun new there => (segment_born consistent current segment deed there).2⟩
  rw [next]
  by_contra beyond
  have absent := (consistent₁.fresh _ (Nat.not_lt.mp beyond)).1
  rw [family, absent] at new
  exact new rfl

/-- A step is a deed of the active process, whose context is then saved, and a burial. -/
theorem step_acts (consistent : k.Consistent) (running : k.Running)
    (sound : k.family.Sound next) (run : k.step e = .ok (k', n)) :
    ∃ a m G, k.Acts e n k' a m G := by
  obtain ⟨a, p, k₁, current, here, segment, finish⟩ := step_eq run
  have status := running.status current here
  have alive : p.status.phase = .alive := by
    rw [status]
    rfl
  exact ⟨a, p.member, k₁.family, segment_acts consistent sound current here alive segment finish⟩

theorem Consistent.zero (consistent : k.Consistent) :
    ∀ z, k.processesTable 0 = some z →
      z < k.nextBlock ∧ ∀ mz, k.family z = some mz → mz.pid = 0 := by
  intro z slot
  obtain ⟨-, p, here, named⟩ := consistent.table _ _ slot
  refine ⟨?_, fun mz there => ?_⟩
  · by_contra beyond
    rw [(consistent.fresh z (Nat.not_lt.mp beyond)).1] at here
    cases here
  · rw [family_apply here, Option.some.injEq] at there
    rw [← there]
    exact named

structure Kindred (k : Kernel) : Prop where
  sound : k.family.Sound k.nextBlock
  patient : k.family.Patient

theorem Acts.kindred {m : Member} {G : Family} (acts : k.Acts e n k' a m G)
    (consistent : k.Consistent) (kindred : k.Kindred) : k'.Kindred := by
  obtain ⟨sound, patient⟩ := kindred
  have sound₁ := acts.deed.sound sound patient acts.here acts.alive acts.later acts.used
    consistent.zero
  have sound₂ : (G.edit a (Member.saved n)).Sound k'.nextBlock :=
    sound₁.edit fun _ _ => ⟨rfl, rfl, rfl, rfl, id, id⟩
  exact ⟨sound₂.buried acts.buried,
    (acts.deed.patient sound patient acts.here acts.alive).buried acts.buried⟩

end Kernel

open Kernel

theorem Booted.kindred {k : Kernel} (booted : Booted k) : k.Kindred := by
  obtain ⟨p, -, -, -, context, parent, children, siblings, next, -, -, -, -, procs, -⟩ :=
    booted.state
  have only (a : Addr) (m : Member) (there : k.family a = some m) : a = 1 ∧ m = p.member := by
    obtain ⟨p', here, rfl⟩ := of_family there
    rw [procs] at here
    split at here
    · next same =>
      cases here
      exact ⟨same, rfl⟩
    · cases here
  have childless (m : Member) (same : m = p.member) : m.children = [] := same ▸ children
  constructor
  · constructor
    · intro a beyond
      have other : a ≠ 1 := by
        rintro rfl
        rw [next] at beyond
        exact absurd beyond (by decide)
      rw [family, procs, if_neg other, Option.map_none]
    · intro b m there c child
      rw [childless m (only b m there).2] at child
      cases child
    · intro b m there
      rw [childless m (only b m there).2]
      exact List.nodup_nil
    · intro b m c mc there child
      rw [childless m (only b m there).2] at child
      cases child
    · intro c mc b m there _ owner
      rw [(only c mc there).2] at owner
      change p.parent = some b at owner
      rw [parent] at owner
      cases owner
    · intro b m c there _ child
      rw [childless m (only b m there).2] at child
      cases child
    · intro c mc b there owner
      rw [(only c mc there).2] at owner
      change p.parent = some b at owner
      rw [parent] at owner
      cases owner
  · intro b m there _
    refine .of_waitless ?_
    rw [(only b m there).2]
    change p.context.waits = false
    rw [context]
    rfl

theorem kindred_of_run {history : History} {k : Kernel} (run : Reached history k) :
    k.Kindred := by
  refine (run.stateInvariant (I := fun k => (k.Consistent ∧ k.Running) ∧ k.Kindred)
    (fun _ booted => ⟨booted.consistent, booted.kindred⟩) fun k e n k' kept taken => ?_).2
  obtain ⟨⟨consistent, running⟩, kindred⟩ := kept
  obtain ⟨a, m, G, acts⟩ := step_acts consistent running kindred.sound taken
  exact ⟨consistent.step running taken, acts.kindred consistent kindred⟩

theorem next_le_of_run {history : History} {k k' : Kernel} {e : Event} {n : Next}
    (run : Reached history k) (taken : k.step e = .ok (k', n)) : k.nextBlock ≤ k'.nextBlock := by
  obtain ⟨consistent, running⟩ := consistent_of_run run
  obtain ⟨a, m, G, acts⟩ := step_acts consistent running (kindred_of_run run).sound taken
  exact acts.later

end IntelX86Kernel

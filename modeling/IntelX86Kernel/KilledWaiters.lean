import IntelX86Kernel.Clock
import IntelX86Kernel.Waiters

/-! `kill` takes a waiter out of the list of its queue, and leaves all else of the queues. -/

namespace IntelX86Kernel

open Transition

namespace Kernel

variable {k k' : Kernel} {a b q : Addr} {p : Proc} {h : Head} {s : Status} {n : Next}

structure SameQueues (k k' : Kernel) : Prop where
  records : k'.records = k.records
  queues : k'.queues = k.queues
  waiters : ∀ r, k'.lists (.queue r) = k.lists (.queue r)

theorem SameQueues.refl : SameQueues k k := ⟨rfl, rfl, fun _ => rfl⟩

theorem SameQueues.trans {k'' : Kernel} (first : SameQueues k k') (second : SameQueues k' k'') :
    SameQueues k k'' :=
  ⟨second.records.trans first.records, second.queues.trans first.queues,
    fun r => (second.waiters r).trans (first.waiters r)⟩

theorem SameQueues.setProc {f : Proc → Proc} : SameQueues k (k.setProc a f) :=
  ⟨rfl, rfl, fun _ => rfl⟩

theorem SameQueues.popSibling : SameQueues k (k.popSibling a b) :=
  SameQueues.setProc.trans .setProc

theorem SameQueues.relink (apart : ∀ r, a ∉ k.lists (.queue r)) (other : ∀ r, h ≠ .queue r) :
    SameQueues k (k.relink a s h) := by
  constructor
  · rfl
  · rfl
  · intro r
    rw [relink_lists, if_neg (other r).symm]
    exact List.erase_of_not_mem (apart r)

theorem Linked.apart (linked : k.Linked) (here : k.procs a = some p)
    (other : ∀ r, p.links ≠ some (.queue r)) (r : Addr) : a ∉ k.lists (.queue r) := by
  intro member
  exact other r ((linked.links_iff here).mpr member)

theorem Freed.sameQueues (freed : Freed a k k') (consistent : k.Consistent) : SameQueues k k' := by
  induction freed with
  | none there empty => exact .refl
  | @zombie k k' owner p c g there last here ended links rest ih =>
      have moves : Moves ⟨c, Option.none, .family⟩ k ((k.popSibling c a).relink c .dying .dying) := by
        apply Moves.relink (h := .dying) (Moves.popSibling .refl rfl)
        · intro q same
          cases same
        · exact popSibling_procs.trans (congrArg _ here)
        · exact .child rfl ended
      have apart (r : Addr) : c ∉ (k.popSibling c a).lists (.queue r) := by
        apply consistent.linked.apart here
        intro r waits
        have status := (consistent.placed c p here).status_of_links waits (by simp)
        rw [ended] at status
        cases status
      have moved : SameQueues (k.popSibling c a) ((k.popSibling c a).relink c .dying .dying) :=
        .relink apart (by simp)
      exact (SameQueues.popSibling.trans moved).trans (ih (consistent.moves moves))
  | @alive k k' owner p c there last here running rest ih =>
      have moves : Moves ⟨c, Option.none, .family⟩ k ((k.popSibling c a).setProc c
          fun p => { p with parent := k.processesTable 0 }) := by
        apply Moves.edit (Moves.popSibling .refl rfl) rfl
        intro p
        exact ⟨rfl, rfl, rfl, rfl, rfl, rfl, rfl⟩
      exact (SameQueues.popSibling.trans .setProc).trans (ih (consistent.moves moves))

theorem Woken.sameQueues (woken : Woken k k') (linked : k.Linked) : SameQueues k k' := by
  induction woken with
  | none => exact .refl
  | @sleeper k k' a p here asleep late rest ih =>
      have apart (r : Addr) : a ∉ k.lists (.queue r) := by
        apply linked.apart here
        simp [asleep]
      have moved : SameQueues k (k.wake a) := by
        apply SameQueues.setProc.trans
        exact .relink apart (by simp)
      exact moved.trans (ih (linked.wake here))

theorem Reaped.sameQueues (reaped : Reaped k k') (consistent : k.Consistent) :
    SameQueues k k' := by
  induction reaped with
  | none => exact .refl
  | @process k k' a p heap here dying other kept rest ih =>
      have one : SameQueues k (k.reap a p heap) := by
        constructor
        · rfl
        · rfl
        · intro r
          apply List.erase_of_not_mem
          apply consistent.linked.apart here
          simp [dying]
      exact one.trans (ih (consistent.reaped (.process here dying other kept .none)))

theorem scheduling_sameQueues (consistent : k.Consistent) (run : k.scheduling = .ok k') :
    SameQueues k k' := by
  obtain ⟨k₁, k₂, k₃, a, c, p, woken, reaped, back, -, -, consistent₁, consistent₂, consistent₃,
    last, here, -, rfl⟩ := consistent.phases run
  have returned : SameQueues k₂ k₃ := by
    obtain ⟨p₁, there, ⟨-, rfl⟩ | ⟨-, links, rfl⟩ | ⟨-, rfl, -⟩⟩ :=
      putBack_eq consistent₂.linked back
    · exact .refl
    · refine .relink (consistent₂.linked.apart there ?_) (by simp)
      simp [links]
    · exact ⟨rfl, rfl, fun _ => rfl⟩
  have elected : SameQueues k₃ (k₃.elect c c p.pid) := by
    constructor
    · rfl
    · rfl
    · intro r
      apply List.erase_of_not_mem
      apply consistent₃.linked.apart here
      rw [(consistent₃.linked.links_iff here).mpr (List.mem_of_getLast? last)]
      simp
  exact (((woken.sameQueues consistent.linked).trans (reaped.sameQueues consistent₁)).trans
    returned).trans elected

/-- The step takes `a` out of the list of queue `q`, and changes nothing else of the queues. -/
structure RemovesWaiter (a q : Addr) (k k' : Kernel) : Prop where
  waited : a ∈ k.lists (.queue q)
  records : k'.records = k.records
  queues : k'.queues = k.queues
  removed : k'.lists (.queue q) = (k.lists (.queue q)).erase a
  others : ∀ r, r ≠ q → k'.lists (.queue r) = k.lists (.queue r)

theorem RemovesWaiter.trans {k'' : Kernel} (removes : RemovesWaiter a q k k')
    (same : SameQueues k' k'') : RemovesWaiter a q k k'' := by
  constructor
  · exact removes.waited
  · exact same.records.trans removes.records
  · exact same.queues.trans removes.queues
  · exact (same.waiters q).trans removes.removed
  · intro r other
    exact (same.waiters r).trans (removes.others r other)

theorem RemovesWaiter.relink {f : Proc → Proc} (linked : k.Linked)
    (waits : a ∈ k.lists (.queue q)) (other : ∀ r, h ≠ .queue r) :
    RemovesWaiter a q k ((k.setProc a f).relink a s h) := by
  obtain ⟨p, here, links⟩ := (linked.mem_iff _ _).mp waits
  constructor
  · exact waits
  · rfl
  · rfl
  · rw [relink_lists, if_neg (other q).symm]
    rfl
  · intro r apart
    rw [relink_lists, if_neg (other r).symm]
    apply List.erase_of_not_mem
    intro member
    have waits' := (linked.links_iff here).mpr member
    rw [links] at waits'
    cases waits'
    exact apart rfl

theorem killed_moves {g : Head} (here : k.procs a = some p) (dead : g = .zombie ∨ g = .dying) :
    Moves ⟨b, some a, .family⟩ k
      ((k.setProc a fun p => { p with killed := true }).relink a g.status g) := by
  have marked : Moves ⟨b, some a, .family⟩ k (k.setProc a fun p => { p with killed := true }) :=
    Moves.edit .refl rfl fun _ => ⟨rfl, rfl, rfl, rfl, rfl, rfl, rfl⟩
  have found : (k.setProc a fun p => { p with killed := true }).procs a =
      some { p with killed := true } := setProc_here here
  apply marked.relink _ found
  · exact .target rfl rfl dead
  · intro r same
    rcases dead with rfl | rfl <;> cases same

theorem killed_dormant {g : Head} (consistent : k.Consistent) (here : k.procs a = some p)
    (other : a ≠ b) (dead : g = .zombie ∨ g = .dying)
    (freed : Freed a ((k.setProc a fun p => { p with killed := true }).relink a g.status g) k') :
    Dormant none (k'.procs a) := by
  have rest : Moves ⟨b, some a, .family⟩ _ k' := freed.moves rfl .refl
  apply rest.dormant (consistent.moves (killed_moves (b := b) here dead)) other
  · change a < k.nextBlock
    by_contra beyond
    rw [(consistent.fresh a (Nat.not_lt.mp beyond)).1] at here
    cases here
  · intro p₁ there
    rw [relink_procs, if_pos rfl, setProc_procs, if_pos rfl, here] at there
    cases there
    rcases dead with rfl | rfl
    · exact .inl rfl
    · exact .inr (.inl rfl)

theorem kill_dead {pid : Int} (consistent : k.Consistent) (current : k.processesTable k.activePID = some b)
    (named : k.processesTable pid.toNat = some a) (positive : 0 < pid) (other : a ≠ b)
    (here : k.procs a = some p) (lives : p.status ≠ .zombie) (run : k.kill pid = .ok (k', n)) :
    n = .suspend (.done 0 none) ∧ ∃ g, (g = .zombie ∨ g = .dying) ∧
      Freed a ((k.setProc a fun p => { p with killed := true }).relink a g.status g) k' := by
  rcases kill_eq consistent.linked run with ⟨ended, -⟩ |
    ⟨a', p', -, slot, -, -, ⟨own, -⟩ | ⟨-, -, outcome, freed⟩⟩
  · exact absurd (ended positive a p named here) lives
  · rw [own, Int.toNat_natCast, current, Option.some.injEq] at named
    exact absurd named.symm other
  · rw [named, Option.some.injEq] at slot
    subst a'
    refine ⟨outcome, ?_⟩
    rcases freed with ⟨-, freed⟩ | ⟨-, freed⟩
    · exact ⟨.zombie, .inl rfl, freed⟩
    · exact ⟨.dying, .inr rfl, freed⟩

theorem finish_dormant (consistent : k.Consistent) (dormant : Dormant none (k.procs a))
    (run : k.finish b n = .ok k') : Dormant none (k'.procs a) := by
  have saved (context : Frame) : Dormant none ((k.setContext b context).procs a) := by
    rw [setContext, setProc_procs]
    split
    · next same =>
      rw [← same]
      exact dormant.map (fun _ => rfl) fun _ => rfl
    · exact dormant
  rcases finish_eq run with ⟨value, out, -, rfl⟩ | ⟨context, -, scheduled⟩
  · exact saved .user
  · apply scheduling_dormant consistent.setContext scheduled
    · intro time equal
      cases equal
    · exact saved context

theorem kill_removes {pid : Int} (consistent : k.Consistent) (running : k.Running)
    (positive : 0 < pid) (named : k.processesTable pid.toNat = some a)
    (waits : a ∈ k.lists (.queue q)) (run : k.kill pid = .ok (k', n)) :
    n = .suspend (.done 0 none) ∧ RemovesWaiter a q k k' ∧ Dormant none (k'.procs a) := by
  obtain ⟨c, p', current, elected, status'⟩ := running
  obtain ⟨p, here, links⟩ := (consistent.linked.mem_iff _ _).mp waits
  have status := (consistent.placed a p here).status_of_links links (by simp)
  have lives : p.status ≠ .zombie := by
    rw [status]
    intro same
    cases same
  have other : a ≠ c := by
    rintro rfl
    rw [here, Option.some.injEq] at elected
    rw [elected, status'] at status
    cases status
  obtain ⟨outcome, g, dead, freed⟩ :=
    kill_dead consistent current named positive other here lives run
  refine ⟨outcome, ?_, killed_dormant consistent here other dead freed⟩
  have removes : RemovesWaiter a q k
      ((k.setProc a fun p => { p with killed := true }).relink a g.status g) := by
    apply RemovesWaiter.relink consistent.linked waits
    intro r same
    rcases dead with rfl | rfl <;> cases same
  exact removes.trans (freed.sameQueues (consistent.moves (killed_moves (b := c) here dead)))

theorem step_kill_dormant {e : Event} (consistent : k.Consistent)
    (current : k.processesTable k.activePID = some b) (target : Event.target k e = some a)
    (other : a ≠ b) (stands : k.stance q a ≠ .elsewhere) (run : k.step e = .ok (k', n)) :
    Dormant none (k'.procs a) := by
  obtain ⟨c, p', k₁, current', here', segment, finish⟩ := step_eq run
  rw [current, Option.some.injEq] at current'
  subst c
  have consistent₁ := consistent.segment segment
  have killed : Dormant none (k₁.procs a) := by
    cases e with
    | resume | clockInterrupt => cases target
    | call c =>
        cases c with
        | kill pid =>
            simp only [Event.target] at target
            simp only [Kernel.segment] at segment
            split at target
            · next positive =>
              split at segment
              · cases here : k.procs a with
                | none =>
                    rw [stance, post_none here] at stands
                    exact absurd rfl stands
                | some p =>
                    have lives : p.status ≠ .zombie := by
                      intro ended
                      rw [stance, post_apply here, Proc.post_gone (.inl ended)] at stands
                      exact stands rfl
                    obtain ⟨-, g, dead, freed⟩ :=
                      kill_dead consistent current target positive other here lives segment
                    exact killed_dormant consistent here other dead freed
              · cases segment
            · cases target
        | start | exit | waitpid | chprio | getprio | waitClock | sleep | pcreate | pdelete
        | preset | pcount | preceive | psend => cases target
  exact finish_dormant consistent₁ killed finish

theorem step_kill_removes {pid : Int} (consistent : k.Consistent) (running : k.Running)
    (positive : 0 < pid) (named : k.processesTable pid.toNat = some a)
    (waits : a ∈ k.lists (.queue q)) (run : k.step (.call (.kill pid)) = .ok (k', n)) :
    n = .suspend (.done 0 none) ∧ RemovesWaiter a q k k' ∧ Dormant none (k'.procs a) := by
  obtain ⟨c, p, k₁, current, here, segment, finish⟩ := step_eq run
  have consistent₁ := consistent.segment segment
  simp only [Kernel.segment] at segment
  split at segment
  · obtain ⟨outcome, removes, dormant⟩ :=
      kill_removes consistent running positive named waits segment
    refine ⟨outcome, ?_, finish_dormant consistent₁ dormant finish⟩
    rcases finish_eq finish with ⟨value, out, same, -⟩ | ⟨context, same, scheduled⟩
    · rw [outcome] at same
      cases same
    · have saved : (k₁.setContext c context).Consistent := consistent₁.setContext
      have same : SameQueues k₁ (k₁.setContext c context) := .setProc
      exact removes.trans (same.trans (scheduling_sameQueues saved scheduled))
  · cases segment

end Kernel

open Kernel

variable {history later earlier : History} {t : Step} {k k' k'' : Kernel} {a q : Addr} {n : Next}

def posted (q : Addr) : History → List (Option Addr × Int)
  | [] => []
  | t :: past =>
      if t.before.presetQueue t.event = some q then []
      else match t.before.attempt t.event with
        | some (.psend _ r message) =>
            if r = q ∧ t.outcome.succeeds = true then
              posted q past ++ [(t.before.processesTable t.before.activePID, message)]
            else posted q past
        | _ => posted q past

theorem posted_sent : (posted q history).map Prod.snd = sent q history := by
  induction history with
  | nil => rfl
  | cons t past ih =>
      simp only [posted, sent]
      split
      · rfl
      · cases t.before.attempt t.event with
        | none => exact ih
        | some f =>
            cases f with
            | psend fid r message =>
                simp only
                split
                · rw [List.map_append, ih]
                  rfl
                · exact ih
            | user | done | start | exit | waitpid | waitForChild | preceive => exact ih

theorem posted_later (absent : ∀ t ∈ later, t.before.processesTable t.before.activePID ≠ some a) :
    ∃ kept new, posted q (later ++ earlier) = kept ++ new ∧
      (kept = posted q earlier ∨ kept = []) ∧ ∀ x ∈ new, x.1 ≠ some a := by
  induction later with
  | nil => exact ⟨posted q earlier, [], (List.append_nil _).symm, .inl rfl, by simp⟩
  | cons t others ih =>
      obtain ⟨kept, new, same, old, apart⟩ := ih fun t member =>
        absent t (List.mem_cons_of_mem _ member)
      rw [List.cons_append]
      simp only [posted]
      split
      · exact ⟨[], [], rfl, .inr rfl, by simp⟩
      · cases t.before.attempt t.event with
        | none => exact ⟨kept, new, same, old, apart⟩
        | some f =>
            cases f with
            | psend fid r message =>
                simp only
                split
                · refine ⟨kept, new ++ [(t.before.processesTable t.before.activePID, message)],
                    ?_, old, ?_⟩
                  · rw [same, List.append_assoc]
                  · intro x member
                    rcases List.mem_append.mp member with member | member
                    · exact apart x member
                    · rw [List.mem_singleton.mp member]
                      exact absent t List.mem_cons_self
                · exact ⟨kept, new, same, old, apart⟩
            | user | done | start | exit | waitpid | waitForChild | preceive =>
                exact ⟨kept, new, same, old, apart⟩

theorem received_of_run (run : Reached history k) : received q history <+: sent q history := by
  cases here : k.records q with
  | none => rw [((filed_of_run run).absent here).2]; exact List.nil_prefix
  | some mq => exact ((filed_of_run run).present mq here).2.order

/-- The process has ended, or is gone: it is in no queue, has taken no step, has stored no
message, and only stored messages are received. -/
structure StaysRemoved (a : Addr) (earlier later : History) (k : Kernel) : Prop where
  ended : ∀ p, k.procs a = some p → p.status = .zombie ∨ p.status = .dying
  unlisted : ∀ r, a ∉ k.lists (.queue r)
  idle : ∀ t ∈ later, t.before.processesTable t.before.activePID ≠ some a
  silent : ∀ r, ∃ kept new, posted r (later ++ earlier) = kept ++ new ∧
    (kept = posted r earlier ∨ kept = []) ∧ ∀ x ∈ new, x.1 ≠ some a
  received : ∀ r, received r (later ++ earlier) <+: (posted r (later ++ earlier)).map Prod.snd

theorem stays_removed (run : Reached (later ++ t :: earlier) k)
    (active : t.before.processesTable t.before.activePID ≠ some a)
    (old : a < t.after.nextBlock) (dormant : Dormant none (t.after.procs a)) :
    StaysRemoved a earlier (later ++ [t]) k := by
  have still {others : History} {k : Kernel} (run : Reached (others ++ t :: earlier) k) :
      Dormant none (k.procs a) :=
    (dormant_of_run run rfl (by simp) old dormant).1
  have ended (p : Proc) (here : k.procs a = some p) : p.status = .zombie ∨ p.status = .dying := by
    rcases still run p here with status | status | ⟨-, equal⟩
    · exact .inl status
    · exact .inr status
    · cases equal
  have idle : ∀ u ∈ later ++ [t], u.before.processesTable u.before.activePID ≠ some a := by
    intro u member
    rcases List.mem_append.mp member with member | member
    · obtain ⟨first, others, rfl⟩ := List.append_of_mem member
      rw [List.append_assoc, List.cons_append] at run
      obtain ⟨before, -⟩ := run.split rfl
      obtain ⟨b, p, current, here, elected⟩ := (consistent_of_run before).2
      rw [current]
      rintro same
      cases same
      exact (still before).not_awake here (.inr elected)
    · rw [List.mem_singleton.mp member]
      exact active
  constructor
  · exact ended
  · intro r member
    have consistent := (consistent_of_run run).1
    obtain ⟨p, here, links⟩ := (consistent.linked.mem_iff _ _).mp member
    have status := (consistent.placed a p here).status_of_links links (by simp)
    rcases ended p here with same | same <;> rw [same] at status <;> cases status
  · exact idle
  · intro r
    exact posted_later idle
  · intro r
    rw [posted_sent, List.append_assoc]
    exact received_of_run run

/-- Killing a process that is blocked in `psend` or `preceive` only takes it off the list of
its queue. In the rest of the run it is in no queue any more, and the message of its call is
never stored. -/
theorem killed_waiter_leaves_queue {pid : Int} {receives : Bool} (run : Reached history k)
    (waits : k.stance q a = .waits receives) (positive : 0 < pid)
    (named : k.processesTable pid.toNat = some a)
    (kill : k.step (.call (.kill pid)) = .ok (k', n))
    (more : Reached (later ++ ⟨k, .call (.kill pid), n, k'⟩ :: history) k'') :
    n = .suspend (.done 0 none) ∧ RemovesWaiter a q k k' ∧
      (∀ fid r mq, k.queues fid = some r → k.records r = some mq →
        k'.heap mq.buffer = k.heap mq.buffer) ∧
      StaysRemoved a history (later ++ [⟨k, .call (.kill pid), n, k'⟩]) k'' := by
  obtain ⟨consistent, running⟩ := consistent_of_run run
  have member : a ∈ k.lists (.queue q) :=
    (stance_member consistent (manned_of_run run)).mpr ⟨receives, waits⟩
  obtain ⟨outcome, removes, dormant⟩ :=
    step_kill_removes consistent running positive named member kill
  refine ⟨outcome, removes, ?_, ?_⟩
  · intro fid r mq slot here
    have after := (stocked_of_run (.next run kill)).1.queues fid r mq
      (by rw [removes.queues, slot]) (by rw [removes.records, here])
    rw [after, (stocked_of_run run).1.queues fid r mq slot here]
  · have stands : k.stance q a ≠ .elsewhere := by simp [waits]
    have old : a < k'.nextBlock :=
      (stance_lt consistent stands).trans_le (next_le_of_run run kill)
    apply stays_removed more _ old dormant
    obtain ⟨c, p, current, here, elected⟩ := running
    change k.processesTable k.activePID ≠ some a
    rw [current]
    rintro same
    cases same
    obtain ⟨p', there, links⟩ := (consistent.linked.mem_iff _ _).mp member
    have status := (consistent.placed a p' there).status_of_links links (by simp)
    rw [here, Option.some.injEq] at there
    rw [← there, elected] at status
    cases status

/-- A history whose third step from the end kills the process at 7, which waits in `psend`
on queue 5. -/
def killedSender (history : History) : Bool :=
  (history[2]?).any fun t : Step =>
    decide (t.event = .call (.kill 2)) && decide (t.before.stance 5 7 = .waits false) &&
      decide (t.before.processesTable 2 = some 7)

/-- A sender is killed while it waits with message 8, and the message before is received. -/
theorem killed_waiter_leaves_queue_sender : ∃ history later k k' k'' n,
    Reached (later ++ ⟨k, .call (.kill 2), n, k'⟩ :: history) k'' ∧
      received 5 (later ++ ⟨k, .call (.kill 2), n, k'⟩ :: history) = [7] ∧
      RemovesWaiter 7 5 k k' ∧
      StaysRemoved 7 history (later ++ [⟨k, .call (.kill 2), n, k'⟩]) k'' := by
  obtain ⟨history, k'', run, checked⟩ := reached_by
    [.call (.start 512 10 [97] true true), .call (.pcreate 1 true true),
      .call (.start 512 20 [98] true true), .call (.psend 0 7), .call (.psend 0 8), .resume,
      .call (.kill 2), .resume, .call (.preceive 0)]
    (fun history _ => killedSender history && decide (received 5 history = [7]))
    (by decide +kernel)
  simp only [Bool.and_eq_true, decide_eq_true_eq] at checked
  obtain ⟨killed, got⟩ := checked
  obtain ⟨⟨k, e, n, k'⟩, here, checked⟩ := (Option.any_eq_true _ _).mp killed
  simp only [Bool.and_eq_true, decide_eq_true_eq] at checked
  obtain ⟨⟨rfl, waits⟩, named⟩ := checked
  obtain ⟨inside, found⟩ := List.getElem?_eq_some_iff.mp here
  have split : history = history.take 2 ++ ⟨k, .call (.kill 2), n, k'⟩ :: history.drop 3 := by
    rw [← found, ← List.drop_eq_getElem_cons inside, List.take_append_drop]
  rw [split] at run got
  obtain ⟨before, taken⟩ := run.split rfl
  obtain ⟨-, removes, -, stays⟩ :=
    killed_waiter_leaves_queue before waits (by decide : (0 : Int) < 2) named taken run
  exact ⟨history.drop 3, history.take 2, k, k', k'', n, run, got, removes, stays⟩

end IntelX86Kernel

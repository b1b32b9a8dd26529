import IntelX86Kernel.Lineage
import IntelX86Kernel.QueueFifo
import IntelX86Kernel.Tally

/-! What a step does to one queue and to the processes that stand at it. -/

namespace IntelX86Kernel

open Transition Tally

/-- Where a process stands at a queue: in its list, or taken off it and not yet back in its
call, which is a `preceive` or a `psend`. -/
inductive Stance where
  | elsewhere
  | waits (receives : Bool)
  | due (receives : Bool)
  deriving DecidableEq

def Stance.release : Stance → Stance
  | .waits receives => .due receives
  | .elsewhere => .elsewhere
  | .due receives => .due receives

def Post.stance (q : Addr) : Post → Stance
  | .away => .elsewhere
  | .blocked f => if f.queue.map Prod.snd = some q then .waits f.receives else .elsewhere
  | .unblocked f => if f.queue.map Prod.snd = some q then .due f.receives else .elsewhere

def freeing (woken : Option Addr) (stances : Addr → Stance) : Addr → Stance :=
  woken.elim stances fun b => Function.update stances b (stances b).release

namespace Kernel

def stance (k : Kernel) (q a : Addr) : Stance := (k.post a).stance q

def count (k : Kernel) (q : Addr) (x : Stance) : Nat := tally (fun y => y = x) (k.stance q) k.nextBlock

/-- The steps of process `a`, by what they do to queue `q`. -/
inductive Serves (q : Addr) (k : Kernel) (a : Addr) (e : Event) (n : Next) (k' : Kernel) : Prop where
  | passes (idle : ∀ f fid, k.attempt e = some f → f.queue ≠ some (fid, q))
      (keeps : k.presetQueue e ≠ some q) (spares : k.pdeleteQueue e ≠ some q)
      (records : k'.records q = k.records q)
      (stances : k'.stance q = k.stance q ∨
        ∃ b, Event.target k e = some b ∧ k'.stance q = Function.update (k.stance q) b .elsewhere)
  | opens (mq : MessageQueue) (fresh : k.records q = none) (records : k'.records q = some mq)
      (positive : 0 < mq.bufferSize) (empty : mq.nbMessages = 0) (flag : mq.resetFlag = 0)
      (stances : k'.stance q = k.stance q)
  | closes (named : k.pdeleteQueue e = some q) (records : k'.records q = k.records q)
      (stances : k'.stance q = fun b => (k.stance q b).release)
  | resets (mq : MessageQueue) (named : k.presetQueue e = some q) (here : k.records q = some mq)
      (records : k'.records q = some (mq.cleared (k.lists (.queue q)).length))
      (stances : k'.stance q = fun b => (k.stance q b).release)
  | fails (f : Frame) (fid : Nat) (mq mq' : MessageQueue) (attempt : k.attempt e = some f)
      (inside : f.queue = some (fid, q)) (resumed : e = .resume) (here : k.records q = some mq)
      (cause : k.queues fid = none ∨ mq.resetFlag ≠ 0 ∨ f.receives = true ∧ mq.nbMessages = 0)
      (outcome : n = .ret (-1) none)
      (after : mq' = mq.unflagged ∨ k.queues fid = none ∧ f.receives = false ∧ mq' = mq)
      (stood : k.stance q a = .due f.receives) (records : k'.records q = some mq')
      (stances : k'.stance q = Function.update (k.stance q) a .elsewhere)
  | blocks (f : Frame) (fid : Nat) (mq : MessageQueue) (attempt : k.attempt e = some f)
      (inside : f.queue = some (fid, q)) (here : k.records q = some mq)
      (full : mq.nbMessages = if f.receives = true then 0 else mq.bufferSize)
      (again : e = .resume → f.receives = false ∧ mq.resetFlag = 0 ∧ k.queues fid ≠ none)
      (outcome : n = .suspend f)
      (stood : k.stance q a = if e = .resume then .due f.receives else .elsewhere)
      (records : k'.records q = some mq)
      (stances : k'.stance q = Function.update (k.stance q) a (.waits f.receives))
  | stores (fid : Nat) (message : Int) (mq : MessageQueue) (cell : Nat) (woken : Option Addr)
      (attempt : k.attempt e = some (.psend fid q message)) (here : k.records q = some mq)
      (outcome : n = .ret 0 none ∨ n = .suspend (.done 0 none))
      (first : ∀ b, woken = some b →
        mq.nbMessages = 0 ∧ (k.lists (.queue q)).getLast? = some b ∧ e ≠ .resume)
      (room : woken = none → mq.nbMessages ≠ mq.bufferSize ∧
        (e ≠ .resume → mq.nbMessages = 0 → k.lists (.queue q) = []))
      (again : e = .resume → mq.resetFlag = 0 ∧ k.queues fid ≠ none)
      (stood : k.stance q a = if e = .resume then .due false else .elsewhere)
      (records : k'.records q = some (mq.stored cell message))
      (stances : k'.stance q = Function.update (freeing woken (k.stance q)) a .elsewhere)
  | takes (fid : Nat) (mq : MessageQueue) (cell : Nat) (woken : Option Addr)
      (attempt : k.attempt e = some (.preceive fid q)) (here : k.records q = some mq)
      (outcome : n = .ret 0 (some (mq.cells cell)) ∨ n = .suspend (.done 0 (some (mq.cells cell))))
      (filled : mq.nbMessages ≠ 0)
      (first : ∀ b, woken = some b →
        mq.nbMessages = mq.bufferSize ∧ (k.lists (.queue q)).getLast? = some b)
      (rest : woken = none → ∀ q', k.queues fid = some q' → k.lists (.queue q) ≠ [] →
        k.lists (.queue q') ≠ [] → mq.nbMessages ≠ mq.bufferSize)
      (again : e = .resume → mq.resetFlag = 0 ∧ k.queues fid ≠ none)
      (stood : k.stance q a = if e = .resume then .due true else .elsewhere)
      (records : k'.records q = some mq.taken)
      (stances : k'.stance q = Function.update (freeing woken (k.stance q)) a .elsewhere)

end Kernel

variable {k k' : Kernel} {a b q r : Addr} {e : Event} {n : Next} {f : Frame} {fid : Nat}

theorem freeing_apply {woken : Option Addr} {stances : Addr → Stance} :
    freeing woken stances b = if woken = some b then (stances b).release else stances b := by
  cases woken with
  | none => rfl
  | some c =>
      change Function.update stances c (stances c).release b = _
      by_cases same : c = b
      · rw [same, Function.update_self, if_pos rfl]
      · rw [Function.update_of_ne (Ne.symm same), if_neg]
        exact fun woke => same (Option.some.inj woke)

theorem Stance.release_ne_waits {x : Stance} {receives : Bool} : x.release ≠ .waits receives := by
  cases x <;> simp [Stance.release]

theorem Post.stance_inside {frame : Frame} (inside : frame.queue = some (fid, r)) :
    (Post.blocked frame).stance q = (if r = q then .waits frame.receives else .elsewhere) ∧
      (Post.unblocked frame).stance q = if r = q then .due frame.receives else .elsewhere := by
  simp only [Post.stance, inside, Option.map_some, Option.some.injEq, and_self]

theorem Post.stance_outside {frame : Frame} (outside : frame.queue = none) :
    (Post.blocked frame).stance q = .elsewhere ∧ (Post.unblocked frame).stance q = .elsewhere := by
  simp [Post.stance, outside]

theorem Post.stance_wake {post : Post} :
    (post.wake r).stance q = if r = q then (post.stance q).release else post.stance q := by
  cases post with
  | away => simp [Post.wake, Post.stance, Stance.release]
  | unblocked frame =>
      simp only [Post.wake, Post.stance]
      split <;> split <;> rfl
  | blocked frame =>
      cases saved : frame.queue with
      | none =>
          rw [Post.wake, if_neg (by simp [saved]), (Post.stance_outside saved).1]
          split <;> rfl
      | some entry =>
          obtain ⟨fid, at_⟩ := entry
          by_cases here : at_ = r
          · subst here
            rw [Post.wake_blocked saved, (Post.stance_inside saved).1, (Post.stance_inside saved).2]
            by_cases same : at_ = q <;> simp [same, Stance.release]
          · have other : (Post.blocked frame).wake r = .blocked frame := by
              rw [Post.wake, if_neg (by simp [saved, here])]
            rw [other, (Post.stance_inside saved).1]
            by_cases same : r = q
            · subst same
              simp [here, Stance.release]
            · simp [same]

namespace Kernel

theorem Acted.stance_attempt (acted : k.Acted e n k' a) (attempt : k.attempt e = some f)
    (inside : f.queue = some (fid, r)) : k.stance q a =
      if r = q then (if e = .resume then .due f.receives else .elsewhere) else .elsewhere := by
  rw [stance, acted.before, ownPost, attempt, Option.elim_some]
  by_cases resumed : e = .resume
  · rw [if_pos resumed, if_pos resumed, (Post.stance_inside inside).2]
  · rw [if_neg resumed, if_neg resumed]
    split <;> rfl

theorem Acted.stance_idle (acted : k.Acted e n k' a) (idle : k.attempt e = none) :
    k.stance q a = .elsewhere := by
  rw [stance, acted.before, ownPost, idle, Option.elim_none]
  split <;> rfl

theorem attempt_pdeletes (attempt : k.attempt e = some f) : k.pdeleteQueue e = none := by
  cases e with
  | clockInterrupt | resume => rfl
  | call c =>
      cases c with
      | pdelete => cases attempt
      | _ => rfl

theorem other_attempt (attempt : k.attempt e = some f) (inside : f.queue = some (fid, r))
    (other : r ≠ q) : ∀ f fid, k.attempt e = some f → f.queue ≠ some (fid, q) := by
  intro f' fid' attempt' inside'
  rw [attempt, Option.some.injEq] at attempt'
  subst attempt'
  rw [inside, Option.some.injEq, Prod.mk.injEq] at inside'
  exact other inside'.2

theorem stances_eq {x : Stance} {stances : Addr → Stance} (own : k'.stance q a = x)
    (others : ∀ b, b ≠ a → k'.stance q b = stances b) :
    k'.stance q = Function.update stances a x := by
  funext b
  by_cases same : b = a
  · rw [same, Function.update_self, own]
  · rw [Function.update_of_ne same, others b same]

theorem Acted.stance_apart (acted : k.Acted e n k' a)
    (idle : ∀ f fid, k.attempt e = some f → f.queue ≠ some (fid, q)) :
    k.stance q a = .elsewhere := by
  cases attempt : k.attempt e with
  | none => exact acted.stance_idle attempt
  | some f =>
      obtain ⟨fid, r, inside, -⟩ := attempt_cases attempt
      rw [acted.stance_attempt attempt inside, if_neg]
      intro same
      exact idle f fid attempt (same ▸ inside)

theorem Acted.passes (acted : k.Acted e n k' a)
    (idle : ∀ f fid, k.attempt e = some f → f.queue ≠ some (fid, q))
    (keeps : k.presetQueue e ≠ some q) (spares : k.pdeleteQueue e ≠ some q)
    (records : k'.records q = k.records q) (own : n.post.stance q = .elsewhere)
    (others : ∀ b, b ≠ a → k'.stance q b = k.stance q b) : Serves q k a e n k' := by
  have after : k'.stance q a = .elsewhere := by rw [stance, acted.after, own]
  refine .passes idle keeps spares records (.inl ?_)
  rw [stances_eq after others, ← acted.stance_apart idle, Function.update_eq_self]

theorem Acted.released (acted : k.Acted e n k' a) (idle : k.attempt e = none) (own : n.post = .away)
    (posts : ∀ b, b ≠ a → k'.post b = (k.post b).wake r) :
    k'.stance q = if r = q then fun b => (k.stance q b).release else k.stance q := by
  have after : k'.stance q a = .elsewhere := by
    rw [stance, acted.after, own]
    rfl
  have before := acted.stance_idle (q := q) idle
  have others (b : Addr) (other : b ≠ a) :
      k'.stance q b = if r = q then (k.stance q b).release else k.stance q b := by
    rw [stance, posts b other, Post.stance_wake, stance]
  rw [stances_eq after others]
  funext b
  by_cases same : b = a
  · subst same
    rw [Function.update_self]
    split
    · change Stance.elsewhere = (k.stance q b).release
      rw [before]
      rfl
    · exact before.symm
  · rw [Function.update_of_ne same]
    split <;> rfl

theorem Acted.freed {woken : Option Addr} (acted : k.Acted e n k' a) (own : n.post = .away)
    (posts : ∀ b, b ≠ a → k'.post b = if woken = some b then (k.post b).wake r else k.post b) :
    k'.stance q =
      Function.update (if r = q then freeing woken (k.stance q) else k.stance q) a .elsewhere := by
  have after : k'.stance q a = .elsewhere := by
    rw [stance, acted.after, own]
    rfl
  apply stances_eq after
  intro b other
  have here : (if r = q then freeing woken (k.stance q) else k.stance q) b =
      if r = q ∧ woken = some b then (k.stance q b).release else k.stance q b := by
    by_cases same : r = q
    · rw [if_pos same, freeing_apply]
      simp only [same, true_and]
    · rw [if_neg same, if_neg fun both => same both.1]
  rw [here, stance, posts b other]
  by_cases woke : woken = some b
  · rw [if_pos woke, Post.stance_wake]
    simp only [woke, and_true]
    rfl
  · rw [if_neg woke, if_neg fun both => woke both.2]
    rfl

theorem Acted.kept (posts : ∀ b, b ≠ a → k'.post b = k.post b) :
    ∀ b, b ≠ a → k'.stance q b = k.stance q b := by
  intro b other
  rw [stance, posts b other, stance]

theorem Acted.passes_other (acted : k.Acted e n k' a) (attempt : k.attempt e = some f)
    (inside : f.queue = some (fid, r)) (other : r ≠ q) (records : k'.records q = k.records q)
    (stances : k'.stance q = Function.update (k.stance q) a .elsewhere) :
    Serves q k a e n k' := by
  have stood := acted.stance_attempt (q := q) attempt inside
  rw [if_neg other] at stood
  refine .passes (other_attempt attempt inside other) ?_ ?_ records (.inl ?_)
  · simp [attempt_presets attempt]
  · simp [attempt_pdeletes attempt]
  · rw [stances, ← stood, Function.update_eq_self]

theorem Acted.removed (acted : k.Acted e n k' a) (idle : k.attempt e = none) (own : n.post = .away)
    (posts : ∀ b, b ≠ a →
      k'.post b = k.post b ∨ Event.target k e = some b ∧ k'.post b = .away) :
    k'.stance q = k.stance q ∨
      ∃ b, Event.target k e = some b ∧ k'.stance q = Function.update (k.stance q) b .elsewhere := by
  have after : k'.stance q a = k.stance q a := by
    rw [acted.stance_idle idle, stance, acted.after, own]
    rfl
  by_cases gone : ∃ b, b ≠ a ∧ Event.target k e = some b ∧ k'.post b = .away
  · obtain ⟨b, other, target, gone⟩ := gone
    refine .inr ⟨b, target, stances_eq ?_ ?_⟩
    · rw [stance, gone]
      rfl
    · intro c apart
      by_cases mine : c = a
      · rw [mine, after]
      · rcases posts c mine with kept | ⟨killed, -⟩
        · rw [stance, kept, stance]
        · rw [target, Option.some.injEq] at killed
          exact absurd killed.symm apart
  · refine .inl (funext fun b => ?_)
    by_cases mine : b = a
    · rw [mine, after]
    · rcases posts b mine with kept | ⟨killed, away⟩
      · rw [stance, kept, stance]
      · exact absurd ⟨b, mine, killed, away⟩ gone

theorem Acted.serves (acted : k.Acted e n k' a) (consistent : k.Consistent) :
    Serves q k a e n k' := by
  have quiet (idle : k.attempt e = none) (f : Frame) (fid : Nat) (attempt : k.attempt e = some f) :
      f.queue ≠ some (fid, q) := by
    rw [idle] at attempt
    cases attempt
  have elsewhere (own : n.post = .away) : n.post.stance q = .elsewhere := by
    rw [own]
    rfl
  have idly {o : Option Addr} (none : o = none) : o ≠ some q := by simp [none]
  have leaves (own : n.post = .away) (posts : ∀ b, b ≠ a → k'.post b = k.post b) :
      k'.stance q = Function.update (k.stance q) a .elsewhere := by
    refine stances_eq ?_ (Acted.kept posts)
    rw [stance, acted.after, elsewhere own]
  cases acted.traffic with
  | quiet idle keeps spares own posts records queues =>
      exact .passes (quiet idle) (idly keeps) (idly spares) (by rw [records])
        (acted.removed idle own posts)
  | halves idle keeps spares own free posts records queues =>
      exact acted.passes (quiet idle) (idly keeps) (idly spares) (by rw [records]) (elsewhere own)
        (Acted.kept posts)
  | creates named idle keeps spares own free positive posts records queues =>
      by_cases same : q = k.nextBlock
      · subst same
        have fresh := (consistent.fresh k.nextBlock le_rfl).2
        have new := congrFun records k.nextBlock
        rw [Function.update_self] at new
        refine .opens _ fresh new positive rfl rfl ?_
        rw [leaves own posts, ← acted.stance_idle idle, Function.update_eq_self]
      · refine acted.passes (quiet idle) (idly keeps) (idly spares) ?_ (elsewhere own)
          (Acted.kept posts)
        rw [records, Function.update_of_ne same]
  | @deletes fid r idle keeps named slot own posts records queues =>
      have stances := acted.released (q := q) idle own posts
      by_cases same : r = q
      · subst same
        rw [if_pos rfl] at stances
        exact .closes named (by rw [records]) stances
      · rw [if_neg same] at stances
        refine .passes (quiet idle) (idly keeps) ?_ (by rw [records]) (.inl stances)
        simp [named, same]
  | @resets r mq idle named spares own here posts records queues =>
      have stances := acted.released (q := q) idle own posts
      by_cases same : r = q
      · subst same
        rw [if_pos rfl] at stances
        exact .resets mq named here (by rw [records, Function.update_self]) stances
      · rw [if_neg same] at stances
        refine .passes (quiet idle) ?_ (idly spares) ?_ (.inl stances)
        · simp [named, same]
        · rw [records, Function.update_of_ne (Ne.symm same)]
  | @fails f fid r mq mq' attempt inside resumed here cause outcome after posts records queues =>
      have own : n.post = .away := by
        rw [outcome]
        rfl
      by_cases same : r = q
      · subst same
        have stood := acted.stance_attempt (q := r) attempt inside
        rw [if_pos rfl, if_pos resumed] at stood
        refine .fails f fid mq mq' attempt inside resumed here cause outcome after stood ?_
          (leaves own posts)
        rw [records, Function.update_self]
      · refine acted.passes_other attempt inside same ?_ (leaves own posts)
        rw [records, Function.update_of_ne (Ne.symm same)]
  | @blocks f fid r mq attempt inside here full again outcome posts records queues =>
      have own : n.post.stance q = if r = q then .waits f.receives else .elsewhere := by
        rw [outcome, Next.post, if_neg (by simp [inside]), (Post.stance_inside inside).1]
      have stances := stances_eq (q := q) ((congrArg (Post.stance q) acted.after).trans own)
        (Acted.kept posts)
      by_cases same : r = q
      · subst same
        have stood := acted.stance_attempt (q := r) attempt inside
        rw [if_pos rfl] at stood stances
        refine .blocks f fid mq attempt inside here full again outcome stood ?_ stances
        rw [records, here]
      · rw [if_neg same] at stances
        exact acted.passes_other attempt inside same (by rw [records]) stances
  | @stores fid r message mq cell woken attempt here inside outcome first room again posts records
      queues =>
      have own : n.post = .away := by rcases outcome with rfl | rfl <;> rfl
      have stances := acted.freed (q := q) own posts
      by_cases same : r = q
      · subst same
        have stood := acted.stance_attempt (q := r) attempt rfl
        rw [if_pos rfl] at stood stances
        refine .stores fid message mq cell woken attempt here outcome first room again stood ?_
          stances
        rw [records, Function.update_self]
      · rw [if_neg same] at stances
        refine acted.passes_other attempt rfl same ?_ stances
        rw [records, Function.update_of_ne (Ne.symm same)]
  | @takes fid r mq cell woken attempt here inside outcome filled first rest again posts records
      queues =>
      have own : n.post = .away := by rcases outcome with rfl | rfl <;> rfl
      have stances := acted.freed (q := q) own posts
      by_cases same : r = q
      · subst same
        have stood := acted.stance_attempt (q := r) attempt rfl
        rw [if_pos rfl] at stood stances
        refine .takes fid mq cell woken attempt here outcome filled first rest again stood ?_
          stances
        rw [records, Function.update_self]
      · rw [if_neg same] at stances
        refine acted.passes_other attempt rfl same ?_ stances
        rw [records, Function.update_of_ne (Ne.symm same)]

def Deleted (k : Kernel) (q : Addr) : Prop := k.records q ≠ none ∧ ∀ i, k.queues i ≠ some q

inductive Tables (k : Kernel) (e : Event) (k' : Kernel) : Prop where
  | keeps (queues : k'.queues = k.queues) (records : ∀ q, k'.records q = none ↔ k.records q = none)
  | enters {fid : Nat} (free : k.queues fid = none)
      (queues : k'.queues = Function.update k.queues fid (some k.nextBlock))
      (grows : ∀ q, k.records q ≠ none → k'.records q ≠ none)
      (created : ∀ q, k.records q = none → k'.records q ≠ none → e.count ≠ none ∧ q = k.nextBlock)
  | leaves {fid : Nat} {r : Addr} (named : k.pdeleteQueue e = some r)
      (slot : k.queues fid = some r) (queues : k'.queues = Function.update k.queues fid none)
      (records : k'.records = k.records)

theorem Acted.tables (acted : k.Acted e n k' a) : Tables k e k' := by
  have updated {r : Addr} {mq mq' : MessageQueue} (here : k.records r = some mq)
      (records : k'.records = Function.update k.records r (some mq')) (q : Addr) :
      k'.records q = none ↔ k.records q = none := by
    rw [records, Function.update_apply]
    split
    · next same => simp [same, here]
    · exact Iff.rfl
  cases acted.traffic with
  | quiet idle keeps spares own posts records queues => exact .keeps queues (by simp [records])
  | halves idle keeps spares own free posts records queues =>
      refine .enters free queues (by simp [records]) ?_
      intro q absent held
      exact absurd absent (records ▸ held)
  | creates named idle keeps spares own free positive posts records queues =>
      refine .enters free queues ?_ ?_
      · intro q held
        rw [records, Function.update_apply]
        split
        · exact Option.some_ne_none _
        · exact held
      · intro q absent held
        refine ⟨by simp [named], ?_⟩
        by_contra other
        rw [records, Function.update_of_ne other] at held
        exact held absent
  | deletes idle keeps named slot own posts records queues => exact .leaves named slot queues records
  | resets idle named spares own here posts records queues =>
      exact .keeps queues (updated here records)
  | fails attempt inside resumed here cause outcome after posts records queues =>
      exact .keeps queues (updated here records)
  | blocks attempt inside here full again outcome posts records queues =>
      exact .keeps queues (by simp [records])
  | stores woken attempt here inside outcome first room again posts records queues =>
      exact .keeps queues (updated here records)
  | takes woken attempt here inside outcome filled first rest again posts records queues =>
      exact .keeps queues (updated here records)

theorem Acted.recorded (acted : k.Acted e n k' a) (held : k.records q ≠ none) :
    k'.records q ≠ none := by
  cases acted.tables with
  | keeps queues records => exact mt (records q).mp held
  | enters free queues grows created => exact grows q held
  | leaves named slot queues records => exact records ▸ held

theorem Acted.recorded_new (acted : k.Acted e n k' a) (absent : k.records q = none)
    (held : k'.records q ≠ none) : e.count ≠ none ∧ q = k.nextBlock := by
  cases acted.tables with
  | keeps queues records => exact absurd ((records q).mpr absent) held
  | enters free queues grows created => exact created q absent held
  | leaves named slot queues records => exact absurd absent (records ▸ held)

theorem Acted.deleted (acted : k.Acted e n k' a) (consistent : k.Consistent)
    (deleted : k.Deleted q) : k'.Deleted q := by
  obtain ⟨held, absent⟩ := deleted
  refine ⟨acted.recorded held, ?_⟩
  intro i listed
  cases acted.tables with
  | keeps queues records => exact absent i (queues ▸ listed)
  | enters free queues grows created =>
      rw [queues, Function.update_apply] at listed
      split at listed
      · rw [Option.some.injEq] at listed
        exact held (listed ▸ (consistent.fresh k.nextBlock le_rfl).2)
      · exact absent i listed
  | leaves named slot queues records =>
      rw [queues, Function.update_apply] at listed
      split at listed
      · cases listed
      · exact absent i listed

theorem Acted.undeleted (acted : k.Acted e n k' a) (kept : ¬ k.Deleted q)
    (spares : k.pdeleteQueue e ≠ some q) : ¬ k'.Deleted q := by
  rintro ⟨held, absent⟩
  have present (known : k.records q ≠ none) : ∃ i, k.queues i = some q := by
    by_contra missing
    rw [not_exists] at missing
    exact kept ⟨known, missing⟩
  have moves {i fid : Nat} {entry : Option Addr} (listed : k.queues i = some q)
      (other : k.queues fid ≠ some q) (queues : k'.queues = Function.update k.queues fid entry) :
      False := by
    apply absent i
    rw [queues, Function.update_of_ne, listed]
    rintro rfl
    exact other listed
  cases acted.tables with
  | keeps queues records =>
      obtain ⟨i, listed⟩ := present (mt (records q).mpr held)
      exact absent i (queues ▸ listed)
  | enters free queues grows created =>
      by_cases known : k.records q = none
      · apply absent
        rw [queues, (created q known held).2]
        exact Function.update_self _ _ _
      · obtain ⟨i, listed⟩ := present known
        exact moves listed (by simp [free]) queues
  | leaves named slot queues records =>
      obtain ⟨i, listed⟩ := present (records ▸ held)
      refine moves listed ?_ queues
      rw [slot, ← named]
      exact spares

/-- Who stands at a queue is in a call on it. -/
theorem stance_frame (stands : k.stance q b ≠ .elsewhere) : ∃ f fid,
    (k.post b).frame = some f ∧ f.queue = some (fid, q) ∧
      (k.stance q b = .waits f.receives ∨ k.stance q b = .due f.receives) := by
  rw [stance] at stands ⊢
  cases post : k.post b with
  | away =>
      rw [post] at stands
      exact absurd rfl stands
  | blocked f | unblocked f =>
      rw [post, Post.stance] at stands
      split at stands
      · next inside =>
        obtain ⟨⟨fid, r⟩, found, rfl⟩ := Option.map_eq_some_iff.mp inside
        refine ⟨f, fid, rfl, found, ?_⟩
        simp [Post.stance_inside found]
      · exact absurd rfl stands

theorem Manned.slot (manned : k.Manned) (kept : ¬ k.Deleted q) (frame : (k.post b).frame = some f)
    (inside : f.queue = some (fid, q)) : k.queues fid = some q := by
  obtain ⟨held, slot | absent⟩ := manned.framed b f fid q frame inside
  · exact slot
  · exact absurd ⟨held, absent⟩ kept

theorem Acted.slot (acted : k.Acted e n k' a) (manned : k.Manned) (kept : ¬ k.Deleted q)
    (attempt : k.attempt e = some f) (inside : f.queue = some (fid, q)) :
    k.queues fid = some q := by
  obtain ⟨fid', q', inside', ⟨resumed, -⟩ | ⟨-, slot⟩⟩ := attempt_cases attempt
  · refine manned.slot kept (b := a) ?_ inside
    rw [acted.before, ownPost, if_pos resumed, attempt]
    rfl
  · rw [inside, Option.some.injEq, Prod.mk.injEq] at inside'
    rw [inside'.1, inside'.2, slot]

theorem stance_lt (consistent : k.Consistent) (stands : k.stance q b ≠ .elsewhere) :
    b < k.nextBlock := by
  by_contra beyond
  have absent := (consistent.fresh b (Nat.not_lt.mp beyond)).1
  rw [stance, post_none absent] at stands
  exact stands rfl

theorem Acted.active_lt (acted : k.Acted e n k' a) (consistent : k.Consistent) :
    a < k.nextBlock := by
  obtain ⟨-, p, here, -⟩ := consistent.table _ _ acted.current
  by_contra beyond
  rw [(consistent.fresh a (Nat.not_lt.mp beyond)).1] at here
  cases here

theorem stance_member (consistent : k.Consistent) (manned : k.Manned) :
    b ∈ k.lists (.queue q) ↔ ∃ receives, k.stance q b = .waits receives := by
  rw [mem_queue consistent (manned.posted b)]
  constructor
  · rintro ⟨f, fid, blocked, inside⟩
    refine ⟨f.receives, ?_⟩
    rw [stance, blocked, (Post.stance_inside inside).1, if_pos rfl]
  · rintro ⟨receives, waits⟩
    rw [stance] at waits
    cases post : k.post b with
    | away =>
        rw [post] at waits
        cases waits
    | unblocked f =>
        rw [post, Post.stance] at waits
        split at waits <;> cases waits
    | blocked f =>
        rw [post, Post.stance] at waits
        split at waits
        · next inside =>
          obtain ⟨⟨fid, r⟩, found, rfl⟩ := Option.map_eq_some_iff.mp inside
          exact ⟨f, fid, rfl, found⟩
        · cases waits

section Counts

variable {x y : Stance} {stances : Addr → Stance}

theorem count_eq (consistent : k.Consistent) (later : k.nextBlock ≤ k'.nextBlock)
    (counted : x ≠ .elsewhere) (same : k'.stance q = stances)
    (fresh : ∀ b, k.nextBlock ≤ b → stances b = k.stance q b) :
    k'.count q x = tally (fun y => y = x) stances k.nextBlock := by
  rw [count, same]
  apply tally_grow later
  intro b beyond stands
  rw [fresh b beyond] at stands
  exact Nat.not_lt.mpr beyond (stance_lt consistent (stands ▸ counted))

theorem count_keep (consistent : k.Consistent) (later : k.nextBlock ≤ k'.nextBlock)
    (counted : x ≠ .elsewhere) (same : k'.stance q = k.stance q) : k'.count q x = k.count q x :=
  count_eq consistent later counted same fun _ _ => rfl

theorem count_move (consistent : k.Consistent) (later : k.nextBlock ≤ k'.nextBlock)
    (counted : x ≠ .elsewhere) (inside : b < k.nextBlock)
    (moved : k'.stance q = Function.update (k.stance q) b y) :
    k'.count q x + (if k.stance q b = x then 1 else 0) =
      k.count q x + if y = x then 1 else 0 := by
  rw [count_eq consistent later counted moved fun c beyond =>
    Function.update_of_ne (Nat.ne_of_gt (Nat.lt_of_lt_of_le inside beyond)) _ _]
  exact tally_update inside

theorem count_leave (consistent : k.Consistent) (later : k.nextBlock ≤ k'.nextBlock)
    (counted : x ≠ .elsewhere) (moved : k'.stance q = Function.update (k.stance q) b .elsewhere) :
    k'.count q x + (if k.stance q b = x then 1 else 0) = k.count q x := by
  by_cases stands : k.stance q b = .elsewhere
  · rw [← stands, Function.update_eq_self] at moved
    rw [count_keep consistent later counted moved, stands, if_neg (Ne.symm counted), Nat.add_zero]
  · rw [count_move consistent later counted (stance_lt consistent stands) moved,
      if_neg (Ne.symm counted), Nat.add_zero]

theorem count_free {receives : Bool} (consistent : k.Consistent)
    (later : k.nextBlock ≤ k'.nextBlock) (counted : x ≠ .elsewhere) (active : a < k.nextBlock)
    (waits : k.stance q b = .waits receives) (other : b ≠ a)
    (moved : k'.stance q = Function.update (freeing (some b) (k.stance q)) a .elsewhere) :
    k'.count q x + (if Stance.waits receives = x then 1 else 0) +
        (if k.stance q a = x then 1 else 0) =
      k.count q x + if Stance.due receives = x then 1 else 0 := by
  have present : k.stance q b ≠ .elsewhere := by simp [waits]
  have inside := stance_lt consistent present
  rw [freeing, Option.elim_some, waits, Stance.release] at moved
  have freed := tally_update (P := fun y => y = x) (f := k.stance q) (b := .due receives) inside
  have left := tally_update (P := fun y => y = x)
    (f := Function.update (k.stance q) b (.due receives)) (b := .elsewhere) active
  rw [Function.update_of_ne (Ne.symm other), if_neg (Ne.symm counted)] at left
  rw [waits] at freed
  rw [count_eq consistent later counted moved, count]
  · omega
  · intro c beyond
    rw [Function.update_of_ne (Nat.ne_of_gt (Nat.lt_of_lt_of_le active beyond)),
      Function.update_of_ne (Nat.ne_of_gt (Nat.lt_of_lt_of_le inside beyond))]

theorem count_empty (none : ∀ b, k.stance q b ≠ x) : k.count q x = 0 :=
  tally_eq_zero.mpr fun b _ => none b

theorem count_pos (consistent : k.Consistent) (counted : x ≠ .elsewhere)
    (stands : k.stance q b = x) : 0 < k.count q x :=
  tally_pos (stance_lt consistent (stands ▸ counted)) stands

end Counts

end Kernel

end IntelX86Kernel

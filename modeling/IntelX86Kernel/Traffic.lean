import IntelX86Kernel.Allocation
import IntelX86Kernel.Posts

/-! What a step does to the queues and to the calls in progress on them. -/

namespace IntelX86Kernel

def Frame.receives : Frame → Bool
  | .preceive .. => true
  | _ => false

def Post.wake (q : Addr) : Post → Post
  | .blocked frame => if frame.queue.map Prod.snd = some q then .unblocked frame else .blocked frame
  | .away => .away
  | .unblocked frame => .unblocked frame

def Post.frame : Post → Option Frame
  | .away => none
  | .blocked frame | .unblocked frame => some frame

variable {q : Addr}

theorem Post.wake_frame {post : Post} : (post.wake q).frame = post.frame := by
  cases post with
  | away | unblocked frame => rfl
  | blocked f =>
      rw [Post.wake]
      split <;> rfl

theorem Post.wake_of_other {post : Post}
    (other : ∀ f fid, post = .blocked f → f.queue ≠ some (fid, q)) : post.wake q = post := by
  cases post with
  | away | unblocked frame => rfl
  | blocked f =>
      rw [Post.wake, if_neg]
      intro same
      obtain ⟨⟨fid, q'⟩, inside, rfl⟩ := Option.map_eq_some_iff.mp same
      exact other f fid rfl inside

theorem Post.wake_blocked {f : Frame} {fid : Nat} (inside : f.queue = some (fid, q)) :
    (Post.blocked f).wake q = .unblocked f := by
  rw [Post.wake, inside, Option.map_some, if_pos rfl]

theorem Post.wake_wake {post : Post} : (post.wake q).wake q = post.wake q := by
  cases post with
  | away | unblocked frame => rfl
  | blocked f =>
      by_cases same : f.queue.map Prod.snd = some q
      · rw [Post.wake, if_pos same]
        rfl
      · rw [Post.wake, if_neg same, Post.wake, if_neg same]

def Event.count : Event → Option Int
  | .call (.pcreate count _ _) => some count
  | _ => none

namespace Kernel

def frame (k : Kernel) : Frame :=
  ((k.processesTable k.activePID).bind k.procs).elim .user Proc.context

def fidQueue (k : Kernel) (fid : Int) : Option Addr :=
  if fid < 0 then none else k.queues fid.toNat

/-- The call of `preceive` or `psend` on a queue that the step begins or goes on with. -/
def attempt (k : Kernel) : Event → Option Frame
  | .call (.preceive fid) => (k.fidQueue fid).map fun q => .preceive fid.toNat q
  | .call (.psend fid message) => (k.fidQueue fid).map fun q => .psend fid.toNat q message
  | .resume => if k.frame.queue = none then none else some k.frame
  | _ => none

def presetQueue (k : Kernel) : Event → Option Addr
  | .call (.preset fid) => k.fidQueue fid
  | _ => none

def pdeleteQueue (k : Kernel) : Event → Option Addr
  | .call (.pdelete fid) => k.fidQueue fid
  | _ => none

/-- A call that was made on queue `q` as `fid` finds it there, or nowhere. -/
def Framed (k : Kernel) (fid : Nat) (q : Addr) : Prop :=
  k.records q ≠ none ∧ (k.queues fid = some q ∨ ∀ i, k.queues i ≠ some q)

structure Manned (k : Kernel) : Prop where
  posted : ∀ a p, k.procs a = some p → p.Posted
  framed : ∀ a f fid q, (k.post a).frame = some f → f.queue = some (fid, q) → k.Framed fid q

/-- The steps of process `a`, by what they do to the queues. -/
inductive Traffic (k : Kernel) (a : Addr) (e : Event) (n : Next) (k' : Kernel) : Prop where
  | quiet (idle : k.attempt e = none) (keeps : k.presetQueue e = none)
      (spares : k.pdeleteQueue e = none) (own : n.post = .away)
      (posts : ∀ b, b ≠ a → k'.post b = k.post b ∨ Event.target k e = some b ∧ k'.post b = .away)
      (records : k'.records = k.records) (queues : k'.queues = k.queues)
  | halves {fid : Nat} (idle : k.attempt e = none) (keeps : k.presetQueue e = none)
      (spares : k.pdeleteQueue e = none) (own : n.post = .away) (free : k.queues fid = none)
      (posts : ∀ b, b ≠ a → k'.post b = k.post b) (records : k'.records = k.records)
      (queues : k'.queues = Function.update k.queues fid (some k.nextBlock))
  | creates {fid : Nat} {count : Int} (named : e.count = some count) (idle : k.attempt e = none)
      (keeps : k.presetQueue e = none) (spares : k.pdeleteQueue e = none) (own : n.post = .away)
      (free : k.queues fid = none)
      (positive : 0 < count) (posts : ∀ b, b ≠ a → k'.post b = k.post b)
      (records : k'.records = Function.update k.records k.nextBlock (some
        { bufferSize := count, buffer := k.nextBlock + 1, cells := fun _ => 0,
          readIndex := 0, writeIndex := 0, nbMessages := 0, resetFlag := 0 }))
      (queues : k'.queues = Function.update k.queues fid (some k.nextBlock))
  | deletes {fid : Nat} {q : Addr} (idle : k.attempt e = none) (keeps : k.presetQueue e = none)
      (named : k.pdeleteQueue e = some q) (slot : k.queues fid = some q) (own : n.post = .away)
      (posts : ∀ b, b ≠ a → k'.post b = (k.post b).wake q)
      (records : k'.records = k.records)
      (queues : k'.queues = Function.update k.queues fid none)
  | resets {q : Addr} {mq : MessageQueue} (idle : k.attempt e = none)
      (named : k.presetQueue e = some q) (spares : k.pdeleteQueue e = none) (own : n.post = .away)
      (here : k.records q = some mq) (posts : ∀ b, b ≠ a → k'.post b = (k.post b).wake q)
      (records : k'.records = Function.update k.records q
        (some (mq.cleared (k.lists (.queue q)).length)))
      (queues : k'.queues = k.queues)
  | fails {f : Frame} {fid : Nat} {q : Addr} {mq mq' : MessageQueue}
      (attempt : k.attempt e = some f) (inside : f.queue = some (fid, q)) (resumed : e = .resume)
      (here : k.records q = some mq) (cause : k.queues fid = none ∨ mq.resetFlag ≠ 0 ∨
        f.receives = true ∧ mq.nbMessages = 0)
      (outcome : n = .ret (-1) none)
      (after : mq' = mq.unflagged ∨ k.queues fid = none ∧ f.receives = false ∧ mq' = mq)
      (posts : ∀ b, b ≠ a → k'.post b = k.post b)
      (records : k'.records = Function.update k.records q (some mq'))
      (queues : k'.queues = k.queues)
  | blocks {f : Frame} {fid : Nat} {q : Addr} {mq : MessageQueue}
      (attempt : k.attempt e = some f) (inside : f.queue = some (fid, q))
      (here : k.records q = some mq)
      (full : mq.nbMessages = if f.receives = true then 0 else mq.bufferSize)
      (again : e = .resume → f.receives = false ∧ mq.resetFlag = 0 ∧ k.queues fid ≠ none)
      (outcome : n = .suspend f) (posts : ∀ b, b ≠ a → k'.post b = k.post b)
      (records : k'.records = k.records) (queues : k'.queues = k.queues)
  | stores {fid : Nat} {q : Addr} {message : Int} {mq : MessageQueue} {cell : Nat}
      (woken : Option Addr) (attempt : k.attempt e = some (.psend fid q message))
      (here : k.records q = some mq) (inside : k.bufferCell mq mq.writeIndex = .ok cell)
      (outcome : n = .ret 0 none ∨ n = .suspend (.done 0 none))
      (first : ∀ b, woken = some b →
        mq.nbMessages = 0 ∧ (k.lists (.queue q)).getLast? = some b ∧ e ≠ .resume)
      (room : woken = none → mq.nbMessages ≠ mq.bufferSize ∧
        (e ≠ .resume → mq.nbMessages = 0 → k.lists (.queue q) = []))
      (again : e = .resume → mq.resetFlag = 0 ∧ k.queues fid ≠ none)
      (posts : ∀ b, b ≠ a →
        k'.post b = if woken = some b then (k.post b).wake q else k.post b)
      (records : k'.records = Function.update k.records q (some (mq.stored cell message)))
      (queues : k'.queues = k.queues)
  | takes {fid : Nat} {q : Addr} {mq : MessageQueue} {cell : Nat} (woken : Option Addr)
      (attempt : k.attempt e = some (.preceive fid q)) (here : k.records q = some mq)
      (inside : k.bufferCell mq mq.readIndex = .ok cell)
      (outcome : n = .ret 0 (some (mq.cells cell)) ∨ n = .suspend (.done 0 (some (mq.cells cell))))
      (filled : mq.nbMessages ≠ 0)
      (first : ∀ b, woken = some b →
        mq.nbMessages = mq.bufferSize ∧ (k.lists (.queue q)).getLast? = some b)
      (rest : woken = none → ∀ q', k.queues fid = some q' → k.lists (.queue q) ≠ [] →
        k.lists (.queue q') ≠ [] → mq.nbMessages ≠ mq.bufferSize)
      (again : e = .resume → mq.resetFlag = 0 ∧ k.queues fid ≠ none)
      (posts : ∀ b, b ≠ a →
        k'.post b = if woken = some b then (k.post b).wake q else k.post b)
      (records : k'.records = Function.update k.records q (some mq.taken))
      (queues : k'.queues = k.queues)

variable {k k' : Kernel} {a b : Addr} {p : Proc} {mq : MessageQueue} {n : Next} {e : Event}
  {m : Mover}

theorem frame_eq (current : k.processesTable k.activePID = some a) (here : k.procs a = some p) :
    k.frame = p.context := by
  rw [frame, current, Option.bind_some, here, Option.elim_some]

theorem setRecord_update (here : k.records q = some mq) (f : MessageQueue → MessageQueue) :
    (k.setRecord q f).records = Function.update k.records q (some (f mq)) := by
  rw [setRecord, here, Option.map_some]

theorem mem_queue (consistent : k.Consistent) (posted : ∀ p, k.procs b = some p → p.Posted) :
    b ∈ k.lists (.queue q) ↔ ∃ f fid, k.post b = .blocked f ∧ f.queue = some (fid, q) := by
  rw [consistent.linked.mem_iff]
  constructor
  · rintro ⟨p, here, links⟩
    obtain ⟨fid, inside⟩ := (posted p here).waits q links
    have status := (consistent.placed b p here).status_of_links links (by simp)
    refine ⟨p.context, fid, ?_, inside⟩
    rw [post_apply here]
    exact Proc.post_blocked (by simp [inside]) status
  · rintro ⟨f, fid, stands, inside⟩
    obtain ⟨p, here, post⟩ := of_post stands (by simp)
    have waiting : p.status = .blockedMessageQueue ∧ p.context = f := by
      rw [Proc.post] at post
      split at post
      · cases post
      · split at post <;> cases post
        next status => exact ⟨status, rfl⟩
    obtain ⟨h, links, status⟩ := (consistent.placed b p here).links_of_status (by simp [waiting.1])
    rw [waiting.1] at status
    cases h with
    | ready | asleep | dying | zombie | blocked => cases status
    | queue q' =>
        obtain ⟨fid', inside'⟩ := (posted p here).waits q' links
        rw [waiting.2, inside, Option.some.injEq, Prod.mk.injEq] at inside'
        exact ⟨p, here, inside'.2 ▸ links⟩

theorem relink_wakes (consistent : k.Consistent) (here : k.procs a = some p) (posted : p.Posted)
    (links : p.links = some (.queue q)) :
    (k.relink a .ready .ready).post b = if b = a then (k.post b).wake q else k.post b := by
  by_cases same : b = a
  · subst same
    obtain ⟨fid, inside⟩ := posted.waits q links
    have status := (consistent.placed b p here).status_of_links links (by simp)
    have engaged : p.context.queue ≠ none := by simp [inside]
    have there : (k.relink b .ready .ready).procs b =
        some { p with status := .ready, links := some .ready } := by
      rw [relink_procs, if_pos rfl, here, Option.map_some]
    rw [if_pos rfl, post_apply there, post_apply here, Proc.post_blocked engaged status,
      Post.wake_blocked inside]
    exact Proc.post_unblocked (p := { p with status := .ready, links := some .ready }) engaged
      (.inl rfl)
  · rw [if_neg same]
    exact post_congr (by rw [relink_procs, if_neg same])

theorem relink_posted (here : k.procs a = some p)
    (posted : ∀ b p, k.procs b = some p → p.Posted) :
    ∀ b p, (k.relink a .ready .ready).procs b = some p → p.Posted := by
  intro b p' there
  rw [relink_procs] at there
  split at there
  · rw [here, Option.map_some, Option.some.injEq] at there
    subst there
    exact .of_status rfl rfl (.inl rfl)
  · exact posted b p' there

theorem Unblocked.posts (unblocked : Unblocked q k k') (consistent : k.Consistent)
    (posted : ∀ b p, k.procs b = some p → p.Posted) (b : Addr) :
    k'.post b = (k.post b).wake q := by
  induction unblocked with
  | none empty =>
      symm
      apply Post.wake_of_other
      intro f fid blocked inside
      have member := (mem_queue consistent (posted b)).mpr ⟨f, fid, blocked, inside⟩
      rw [empty] at member
      cases member
  | @waiter k k' a last rest ih =>
      obtain ⟨p, here, links⟩ := (consistent.linked.mem_iff _ _).mp (List.mem_of_getLast? last)
      have consistent' : (k.relink a .ready .ready).Consistent :=
        consistent.relink (h := .ready) (fun q same => by cases same) here
      have woken := relink_wakes (b := b) consistent here (posted a p here) links
      rw [ih consistent' (relink_posted here posted), woken]
      split
      · exact Post.wake_wake
      · rfl

theorem fidQueue_none {fid : Int} (absent : 0 ≤ fid → k.queues fid.toNat = none) :
    k.fidQueue fid = none := by
  rw [fidQueue]
  split
  · rfl
  · next given => exact absent (Int.not_lt.mp given)

theorem fidQueue_some {fid : Int} (given : 0 ≤ fid) (slot : k.queues fid.toNat = some q) :
    k.fidQueue fid = some q := by
  rw [fidQueue, if_neg (Int.not_lt.mpr given), slot]

theorem of_fidQueue {fid : Int} (named : k.fidQueue fid = some q) :
    0 ≤ fid ∧ k.queues fid.toNat = some q := by
  rw [fidQueue] at named
  split at named
  · cases named
  · next given => exact ⟨Int.not_lt.mp given, named⟩

/-- A call begins on the queue the table holds. A resumed call goes on in its frame. -/
theorem attempt_cases {f : Frame} (attempt : k.attempt e = some f) :
    ∃ fid q, f.queue = some (fid, q) ∧
      (e = .resume ∧ k.frame = f ∨ e ≠ .resume ∧ k.queues fid = some q) := by
  cases e with
  | clockInterrupt => cases attempt
  | resume =>
      rw [Kernel.attempt] at attempt
      split at attempt
      · cases attempt
      · next inside =>
        cases attempt
        obtain ⟨⟨fid, q⟩, same⟩ := Option.ne_none_iff_exists'.mp inside
        exact ⟨fid, q, same, .inl ⟨rfl, rfl⟩⟩
  | call c =>
      cases c with
      | preceive fid =>
          obtain ⟨q, named, rfl⟩ := Option.map_eq_some_iff.mp attempt
          exact ⟨fid.toNat, q, rfl, .inr ⟨by simp, (of_fidQueue named).2⟩⟩
      | psend fid message =>
          obtain ⟨q, named, rfl⟩ := Option.map_eq_some_iff.mp attempt
          exact ⟨fid.toNat, q, rfl, .inr ⟨by simp, (of_fidQueue named).2⟩⟩
      | start | exit | kill | waitpid | chprio | getprio | waitClock | sleep | pcreate | pdelete
      | preset | pcount => cases attempt

theorem blockOnQueue_traffic {f : Frame} {fid : Nat} (linked : k.Linked)
    (current : k.processesTable k.activePID = some a) (attempt : k.attempt e = some f)
    (inside : f.queue = some (fid, q)) (here : k.records q = some mq)
    (full : mq.nbMessages = if f.receives = true then 0 else mq.bufferSize)
    (again : e = .resume → f.receives = false ∧ mq.resetFlag = 0 ∧ k.queues fid ≠ none)
    (run : k.blockOnQueue q f = .ok (k', n)) : Traffic k a e n k' := by
  obtain ⟨b, p, active, -, -, rfl, outcome⟩ := blockOnQueue_eq linked run
  rw [current, Option.some.injEq] at active
  subst active
  refine .blocks attempt inside here full again outcome (fun c other => ?_) rfl rfl
  exact post_congr (by rw [relink_procs, if_neg other])

theorem takeMessage_traffic {fid : Nat} (consistent : k.Consistent) (manned : k.Manned)
    (attempt : k.attempt e = some (.preceive fid q)) (here : k.records q = some mq)
    (filled : mq.nbMessages ≠ 0)
    (again : e = .resume → mq.resetFlag = 0 ∧ k.queues fid ≠ none)
    (run : k.takeMessage fid q = .ok (k', n)) : Traffic k a e n k' := by
  obtain ⟨mq', cell, q', found, inside, slot, ended⟩ := takeMessage_eq consistent.linked run
  rw [here, Option.some.injEq] at found
  subst mq'
  rcases ended with ⟨rfl, outcome, unmet⟩ | ⟨b, last, full, rfl, outcome⟩
  · refine .takes none attempt here inside (.inl outcome) filled
      (fun b same => by cases same) (fun _ q₂ slot₂ waiting counted full => ?_) again
      (fun _ _ => rfl) (setRecord_update here _) rfl
    rw [slot, Option.some.injEq] at slot₂
    subst slot₂
    exact unmet ⟨waiting, counted, full⟩
  · obtain ⟨p, there, links⟩ :=
      (consistent.linked.mem_iff _ _).mp (List.mem_of_getLast? last)
    refine .takes (some b) attempt here inside (.inr outcome) filled (fun c same => ?_)
      (fun same => by cases same) again (fun c _ => ?_) (setRecord_update here _) rfl
    · rw [Option.some.injEq] at same
      exact ⟨full, same ▸ last⟩
    · have woken := relink_wakes (b := c) consistent there (manned.posted b p there) links
      change (k.relink b .ready .ready).post c = _
      rw [woken]
      simp only [Option.some.injEq, eq_comm]

theorem storeMessage_traffic (k₁ : Kernel) {fid : Nat} {message : Int} (woken : Option Addr)
    (attempt : k.attempt e = some (.psend fid q message)) (here : k.records q = some mq)
    (outcome : n = .ret 0 none ∨ n = .suspend (.done 0 none))
    (first : ∀ b, woken = some b →
      mq.nbMessages = 0 ∧ (k.lists (.queue q)).getLast? = some b ∧ e ≠ .resume)
    (room : woken = none → mq.nbMessages ≠ mq.bufferSize ∧
      (e ≠ .resume → mq.nbMessages = 0 → k.lists (.queue q) = []))
    (again : e = .resume → mq.resetFlag = 0 ∧ k.queues fid ≠ none)
    (heap : k₁.heap = k.heap) (records : k₁.records = k.records) (queues : k₁.queues = k.queues)
    (posts : ∀ b, b ≠ a → k₁.post b = if woken = some b then (k.post b).wake q else k.post b)
    (run : k₁.storeMessage q message = .ok k') : Traffic k a e n k' := by
  obtain ⟨mq', cell, found, inside, rfl⟩ := storeMessage_eq run
  have found' := found
  rw [records, here, Option.some.injEq] at found
  subst mq'
  rw [bufferCell, heap] at inside
  refine .stores woken attempt here inside outcome first room again posts ?_ queues
  rw [setRecord_update found', records]

theorem psend_traffic {fid message : Int} (consistent : k.Consistent) (manned : k.Manned)
    (current : k.processesTable k.activePID = some a)
    (run : k.psend fid message = .ok (k', n)) : Traffic k a (.call (.psend fid message)) n k' := by
  have linked := consistent.linked
  rcases psend_eq linked run with ⟨absent, rfl, rfl⟩ | ⟨q, mq, given, slot, here, ended⟩
  · refine .quiet ?_ rfl rfl rfl (fun _ _ => .inl rfl) rfl rfl
    rw [attempt, fidQueue_none absent, Option.map_none]
  · have attempt : k.attempt (.call (.psend fid message)) = some (.psend fid.toNat q message) := by
      rw [attempt, fidQueue_some given slot, Option.map_some]
    have called {P : Prop} : Event.call (.psend fid message) = .resume → P := fun same => by
      cases same
    rcases ended with ⟨b, empty, last, stored, outcome⟩ | ⟨quiet, full, blocked⟩ |
      ⟨quiet, room, stored, outcome⟩
    · obtain ⟨p, there, links⟩ := (linked.mem_iff _ _).mp (List.mem_of_getLast? last)
      refine storeMessage_traffic (k.relink b .ready .ready) (some b) attempt here (.inr outcome) (fun c same => ?_)
        (fun same => by cases same) called rfl rfl rfl (fun c _ => ?_) stored
      · rw [Option.some.injEq] at same
        exact ⟨empty, same ▸ last, called⟩
      · rw [relink_wakes consistent there (manned.posted b p there) links]
        simp only [Option.some.injEq, eq_comm]
    · exact blockOnQueue_traffic linked current attempt rfl here full called blocked
    · refine storeMessage_traffic k none attempt here (.inl outcome)
        (fun c same => by cases same) (fun _ => ⟨room, fun _ empty => ?_⟩) called rfl rfl rfl
        (fun _ _ => rfl) stored
      by_contra waiting
      exact quiet ⟨empty, waiting⟩

theorem preceive_traffic {fid : Int} (consistent : k.Consistent) (manned : k.Manned)
    (current : k.processesTable k.activePID = some a)
    (run : k.preceive fid = .ok (k', n)) : Traffic k a (.call (.preceive fid)) n k' := by
  rcases preceive_eq run with ⟨absent, rfl, rfl⟩ | ⟨q, mq, given, slot, here, ended⟩
  · refine .quiet ?_ rfl rfl rfl (fun _ _ => .inl rfl) rfl rfl
    rw [attempt, fidQueue_none absent, Option.map_none]
  · have attempt : k.attempt (.call (.preceive fid)) = some (.preceive fid.toNat q) := by
      rw [attempt, fidQueue_some given slot, Option.map_some]
    have called {P : Prop} : Event.call (.preceive fid) = .resume → P := fun same => by cases same
    rcases ended with ⟨empty, blocked⟩ | ⟨filled, taken⟩
    · exact blockOnQueue_traffic consistent.linked current attempt rfl here empty called blocked
    · exact takeMessage_traffic consistent manned attempt here filled called taken

theorem resume_traffic {f : Frame} {fid : Nat} (consistent : k.Consistent) (manned : k.Manned)
    (current : k.processesTable k.activePID = some a) (own : k.frame = f)
    (inside : f.queue = some (fid, q)) (run : k.continueWith f = .ok (k', n)) :
    Traffic k a .resume n k' := by
  have attempt : k.attempt .resume = some f := by
    rw [attempt, own, if_neg (by simp [inside])]
  cases f with
  | user | done | start | exit | waitpid | waitForChild => cases inside
  | preceive fid' q' =>
      cases inside
      obtain ⟨mq, here, ⟨cause, rfl, rfl⟩ | ⟨slot, filled, flag, taken⟩⟩ := preceiveResumed_eq run
      · refine .fails attempt rfl rfl here ?_ rfl (.inl rfl) (fun _ _ => rfl)
          (setRecord_update here _) rfl
        rcases cause with gone | empty | flagged
        · exact .inl gone
        · exact .inr (.inr ⟨rfl, empty⟩)
        · exact .inr (.inl flagged)
      · exact takeMessage_traffic consistent manned attempt here filled (fun _ => ⟨flag, slot⟩) taken
  | psend fid' q' message =>
      cases inside
      obtain ⟨mq, here, ⟨gone, rfl, rfl⟩ | ⟨slot, flagged, rfl, rfl⟩ | ⟨slot, flag, full, blocked⟩ |
        ⟨slot, flag, room, stored, rfl⟩⟩ := psendResumed_eq run
      · refine .fails attempt rfl rfl here (.inl gone) rfl (.inr ⟨gone, rfl, rfl⟩) (fun _ _ => rfl)
          ?_ rfl
        rw [← here, Function.update_eq_self]
      · exact .fails attempt rfl rfl here (.inr (.inl flagged)) rfl (.inl rfl) (fun _ _ => rfl)
          (setRecord_update here _) rfl
      · exact blockOnQueue_traffic consistent.linked current attempt rfl here full
          (fun _ => ⟨rfl, flag, slot⟩) blocked
      · exact storeMessage_traffic k none attempt here (.inl rfl)
          (fun c same => by cases same) (fun _ => ⟨room, fun called => absurd rfl called⟩)
          (fun _ => ⟨flag, slot⟩) rfl rfl rfl (fun _ _ => rfl) stored

theorem preset_traffic {fid : Int} (consistent : k.Consistent) (manned : k.Manned)
    (run : k.preset fid = .ok (k', n)) : Traffic k a (.call (.preset fid)) n k' := by
  rcases preset_eq consistent.linked run with ⟨absent, rfl, rfl⟩ |
    ⟨q, mq, given, slot, here, unblocked, rfl⟩
  · exact .quiet rfl (fidQueue_none absent) rfl rfl (fun _ _ => .inl rfl) rfl rfl
  · have cleared : (k.setRecord q fun mq => mq.cleared (k.lists (.queue q)).length).Consistent :=
      consistent.moves (m := ⟨0, none, .queues⟩) (Moves.setRecord .refl rfl _)
    obtain ⟨records, queues, -⟩ := unblocked.same
    refine .resets rfl (fidQueue_some given slot) rfl rfl here (fun b _ => ?_) ?_ queues
    · exact unblocked.posts cleared manned.posted b
    · rw [records, setRecord_update here]

theorem pdelete_traffic {fid : Int} (consistent : k.Consistent) (manned : k.Manned)
    (run : k.pdelete fid = .ok (k', n)) : Traffic k a (.call (.pdelete fid)) n k' := by
  rcases pdelete_eq consistent.linked run with ⟨absent, rfl, rfl⟩ |
    ⟨q, mq, k₁, heap, given, slot, here, unblocked, -, rfl, rfl⟩
  · exact .quiet rfl rfl (fidQueue_none absent) rfl (fun _ _ => .inl rfl) rfl rfl
  · obtain ⟨records, -⟩ := unblocked.same
    exact .deletes rfl rfl (fidQueue_some given slot) slot rfl
      (fun b _ => unblocked.posts consistent manned.posted b) records rfl

theorem pcreate_traffic {count : Int} {recordGranted bufferGranted : Bool}
    (run : k.pcreate count recordGranted bufferGranted = .ok (k', n)) :
    Traffic k a (.call (.pcreate count recordGranted bufferGranted)) n k' := by
  rcases pcreate_eq run with ⟨-, rfl, rfl⟩ |
    ⟨positive, -, -, -, -, free, ⟨-, rfl, rfl⟩ | ⟨-, rfl, rfl⟩⟩
  · exact .quiet rfl rfl rfl rfl (fun _ _ => .inl rfl) rfl rfl
  · exact .halves rfl rfl rfl rfl free (fun _ _ => rfl) rfl rfl
  · exact .creates rfl rfl rfl rfl rfl free positive (fun _ _ => rfl) rfl rfl

theorem collect_away {child : Addr} {retvalp : Bool} (linked : k.Linked)
    (run : k.collect child retvalp = .ok (k', n)) : n.post = .away := by
  obtain ⟨p, g, parent, owner, -, -, -, -, -, rfl⟩ := collect_eq linked run
  rfl

theorem blockWaiting_away {f : Frame} (linked : k.Linked) (outside : f.queue = none)
    (run : k.blockWaiting f = .ok (k', n)) : n.post = .away := by
  obtain ⟨a, p, -, -, -, -, rfl⟩ := blockWaiting_eq linked run
  exact if_pos outside

theorem waitpidLoop_away {pid : Nat} {child : Addr} {retvalp : Bool} (linked : k.Linked)
    (run : k.waitpidLoop pid child retvalp = .ok (k', n)) : n.post = .away := by
  obtain ⟨p, -, ⟨-, run⟩ | ⟨-, run⟩⟩ := waitpidLoop_eq run
  · exact collect_away linked run
  · exact blockWaiting_away linked rfl run

theorem exit_away {retval : Int} (linked : k.Linked) (run : k.exit retval = .ok (k', n)) :
    n.post = .away := by
  obtain ⟨a, p, k₁, p₁, -, -, -, -, -, rfl, -⟩ := exit_eq linked run
  rfl

theorem startReturn_away {pid : Nat} (run : k.startReturn pid = .ok (k', n)) : n.post = .away := by
  obtain ⟨a, p, -, -, -, rfl⟩ := startReturn_eq run
  rfl

theorem perform_away {c : Call} (consistent : k.Consistent) (other : c.kind ≠ .queues)
    (run : k.perform c = .ok (k', n)) : n.post = .away := by
  have linked := consistent.linked
  cases c with
  | start ssize prio name procGranted stackGranted =>
      obtain ⟨a, current⟩ := consistent.active
      rcases start_eq (consistent.fresh _ le_rfl).1 (fun _ => by simp [current]) run with
        ⟨heap, next, -, -, -, rfl⟩ | ⟨pid, stackSize, heap, k₁, -, -, -, yielded, -⟩
      · rfl
      · obtain ⟨b, p, p', -, -, -, ⟨-, -, rfl⟩ | ⟨-, ended⟩⟩ := yielded
        · rfl
        · exact startReturn_away ended
  | exit retval => exact exit_away linked run
  | kill pid =>
      rcases kill_eq linked run with ⟨-, -, rfl⟩ | ⟨a, p, -, -, -, -, ⟨-, run⟩ | ⟨-, -, rfl, -⟩⟩
      · rfl
      · have base : (k.setProc a fun p => { p with killed := true }).Linked :=
          linked.setProc _ fun _ => rfl
        exact exit_away base run
      · rfl
  | waitpid pid retvalp =>
      rcases waitpid_eq run with ⟨-, run⟩ | ⟨-, -, rfl⟩ |
        ⟨child, p, a, parent, -, -, -, -, -, -, -, run⟩
      · obtain ⟨a, p, -, -, ⟨-, -, rfl⟩ | ⟨c, -, run⟩ | ⟨-, -, run⟩⟩ := waitForChild_eq run
        · rfl
        · exact collect_away linked run
        · exact blockWaiting_away linked rfl run
      · rfl
      · exact waitpidLoop_away linked run
  | chprio pid newprio =>
      rcases chprio_eq run with ⟨-, rfl⟩ | ⟨a, p, -, -, -, -, rfl⟩ <;> rfl
  | getprio pid =>
      simp only [perform, bind_eq_ok, Except.ok.injEq, Prod.mk.injEq] at run
      obtain ⟨prio, -, -, rfl⟩ := run
      rfl
  | waitClock clock =>
      obtain ⟨a, p, -, -, -, -, rfl⟩ := waitClock_eq linked run
      rfl
  | sleep seconds =>
      obtain ⟨a, p, -, -, -, -, rfl⟩ := waitClock_eq linked run
      rfl
  | pcreate | pdelete | preset | pcount | preceive | psend => exact absurd rfl other

theorem freed_post {k₀ : Kernel} {h : Head} (freed : Freed b (k₀.relink b h.status h) k')
    (consistent : k₀.Consistent) (here : k₀.procs b = some p) (dead : h = .zombie ∨ h = .dying) :
    k'.post b = .away := by
  have there : (k₀.relink b h.status h).procs b =
      some { p with status := h.status, links := some h } := by
    rw [relink_procs, if_pos rfl, here, Option.map_some]
  have gone : h.status = .zombie ∨ h.status = .dying := by
    rcases dead with rfl | rfl
    · exact .inl rfl
    · exact .inr rfl
  have between : (k₀.relink b h.status h).Consistent := by
    refine consistent.relink (fun q same => ?_) here
    rcases dead with rfl | rfl <;> cases same
  have moves := freed.moves (m := ⟨b + 1, none, .family⟩) rfl .refl
  have posted : Proc.Posted { p with status := h.status, links := some h } :=
    .of_status rfl rfl (.inr dead)
  have kept := (moves.bystands between (Nat.ne_of_lt (Nat.lt_succ_self b))).post (by simp) (by simp)
    (fun p' again => by
      rw [there, Option.some.injEq] at again
      exact again ▸ posted)
  rw [kept, post_apply there]
  exact Proc.post_gone gone

theorem kill_post {pid : Int} (consistent : k.Consistent)
    (current : k.processesTable k.activePID = some a) (other : b ≠ a)
    (killed : Event.target k (.call (.kill pid)) = some b)
    (run : k.kill pid = .ok (k', n)) : k'.post b = k.post b ∨ k'.post b = .away := by
  rcases kill_eq consistent.linked run with ⟨-, rfl, -⟩ | ⟨c, p, positive, slot, here, -, ended⟩
  · exact .inl rfl
  · have same : b = c := by
      change (if 0 < pid then k.processesTable pid.toNat else none) = some b at killed
      rw [if_pos positive, slot, Option.some.injEq] at killed
      exact killed.symm
    subst same
    have marked : (k.setProc b fun p => { p with killed := true }).procs b =
        some { p with killed := true } :=
      setProc_here here
    have edited : (k.setProc b fun p => { p with killed := true }).Consistent :=
      consistent.edit fun _ => ⟨rfl, rfl, rfl⟩
    rcases ended with ⟨own, -⟩ | ⟨-, -, -, ⟨-, freed⟩ | ⟨-, freed⟩⟩
    · rw [own, Int.toNat_natCast, current, Option.some.injEq] at slot
      exact absurd slot.symm other
    · exact .inr (freed_post (h := .zombie) freed edited marked (.inl rfl))
    · exact .inr (freed_post (h := .dying) freed edited marked (.inr rfl))

theorem Moves.untouched (moves : Moves m k k') (plain : m.kind ≠ .queues) :
    k'.records = k.records ∧ k'.queues = k.queues := by
  induction moves with
  | refl => exact ⟨rfl, rfl⟩
  | tail moves move ih =>
      cases move with
      | relink | edit | delay | resort | reprioritise => exact ih
      | birth small free named status links context stack kept own kind joined =>
          rcases joined with rfl | ⟨b, placed, rfl⟩ <;> exact ih
      | store procs lists table current number next records fresh queues quiet =>
          obtain ⟨records, queues, -⟩ := quiet plain
          exact ⟨records.trans ih.1, queues.trans ih.2⟩

theorem Frame.queue_of_kind {f : Frame} (plain : f.kind ≠ .queues) : f.queue = none := by
  cases f with
  | user | done | start | exit | waitpid | waitForChild => rfl
  | preceive | psend => exact absurd rfl plain

theorem segment_away {context : Frame} (consistent : k.Consistent)
    (plain : e.kind context ≠ .queues) (run : k.segment context e = .ok (k', n)) :
    n.post = .away := by
  cases e with
  | clockInterrupt =>
      simp only [segment, clockInterrupt] at run
      split at run
      · cases run
        rfl
      · cases run
  | call c =>
      simp only [segment] at run
      split at run
      · exact perform_away consistent plain run
      · cases run
  | resume =>
      have linked := consistent.linked
      cases context with
      | user => cases run
      | done value out =>
          cases run
          rfl
      | start pid => exact startReturn_away run
      | exit => cases run
      | waitpid pid child retvalp => exact waitpidLoop_away linked run
      | waitForChild retvalp =>
          obtain ⟨a, p, -, -, ⟨c, -, run⟩ | ⟨-, -, rfl⟩⟩ := waitForChildResumed_eq run
          · exact collect_away linked run
          · rfl
      | preceive | psend => exact absurd rfl plain

theorem unattempted (own : k.frame.kind ≠ .queues ∨ e ≠ .resume)
    (plain : ∀ c, e = .call c → c.kind ≠ .queues) :
    k.attempt e = none ∧ k.presetQueue e = none ∧ k.pdeleteQueue e = none := by
  cases e with
  | clockInterrupt => exact ⟨rfl, rfl, rfl⟩
  | resume =>
      refine ⟨if_pos (Frame.queue_of_kind ?_), rfl, rfl⟩
      rcases own with plain | other
      · exact plain
      · exact absurd rfl other
  | call c =>
      have other := plain c rfl
      cases c with
      | start | exit | kill | waitpid | chprio | getprio | waitClock | sleep => exact ⟨rfl, rfl, rfl⟩
      | pcreate | pdelete | preset | pcount | preceive | psend => exact absurd rfl other

theorem outside_traffic (consistent : k.Consistent) (manned : k.Manned)
    (current : k.processesTable k.activePID = some a) (here : k.procs a = some p)
    (plain : e.kind p.context ≠ .queues) (run : k.segment p.context e = .ok (k', n)) :
    Traffic k a e n k' := by
  have moves := segment_moves consistent current run
  obtain ⟨records, queues⟩ := moves.untouched plain
  have posts (b : Addr) (other : b ≠ a) : k'.post b = k.post b ∨
      Event.target k e = some b ∧ k'.post b = .away := by
    by_cases killed : Event.target k e = some b
    · cases e with
      | clockInterrupt | resume => cases killed
      | call c =>
          cases c with
          | kill pid =>
              simp only [segment] at run
              split at run
              · rcases kill_post consistent current other killed run with same | gone
                · exact .inl same
                · exact .inr ⟨killed, gone⟩
              · cases run
          | start | exit | waitpid | chprio | getprio | waitClock | sleep | pcreate | pdelete
          | preset | pcount | preceive | psend => cases killed
    · exact .inl ((moves.bystands consistent other).post plain killed (manned.posted b))
  obtain ⟨idle, keeps, spares⟩ : k.attempt e = none ∧ k.presetQueue e = none ∧
      k.pdeleteQueue e = none := by
    refine unattempted ?_ fun c same => ?_
    · rw [frame_eq current here]
      by_cases resumed : e = .resume
      · subst resumed
        exact .inl plain
      · exact .inr resumed
    · subst same
      exact plain
  exact .quiet idle keeps spares (segment_away consistent plain run) posts records queues

theorem segment_traffic (consistent : k.Consistent) (manned : k.Manned)
    (current : k.processesTable k.activePID = some a) (here : k.procs a = some p)
    (run : k.segment p.context e = .ok (k', n)) : Traffic k a e n k' := by
  by_cases plain : e.kind p.context ≠ .queues
  · exact outside_traffic consistent manned current here plain run
  · have kind := Decidable.not_not.mp plain
    cases e with
    | clockInterrupt => cases kind
    | resume =>
        have own := frame_eq current here
        obtain ⟨fid, q, inside⟩ : ∃ fid q, p.context.queue = some (fid, q) := by
          generalize p.context = f at kind
          cases f with
          | user | done | start | exit | waitpid | waitForChild => cases kind
          | preceive fid q => exact ⟨fid, q, rfl⟩
          | psend fid q message => exact ⟨fid, q, rfl⟩
        exact resume_traffic consistent manned current own inside run
    | call c =>
        simp only [segment] at run
        split at run
        · cases c with
          | start | exit | kill | waitpid | chprio | getprio | waitClock | sleep => cases kind
          | pcreate count recordGranted bufferGranted => exact pcreate_traffic run
          | pdelete fid => exact pdelete_traffic consistent manned run
          | preset fid => exact preset_traffic consistent manned run
          | pcount fid count =>
              obtain ⟨rfl, value, out, rfl⟩ := pcount_eq run
              exact .quiet rfl rfl rfl rfl (fun _ _ => .inl rfl) rfl rfl
          | preceive fid => exact preceive_traffic consistent manned current run
          | psend fid message => exact psend_traffic consistent manned current run
        · cases run

end Kernel

end IntelX86Kernel

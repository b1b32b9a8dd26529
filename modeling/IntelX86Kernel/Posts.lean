import IntelX86Kernel.Stability

/-! Where the processes stand in the calls of message_queue.c, and who can move them. -/

namespace IntelX86Kernel

/-- The queue a call is suspended on, with the identifier it was called with. -/
def Frame.queue : Frame → Option (Nat × Addr)
  | .preceive fid q => some (fid, q)
  | .psend fid q _ => some (fid, q)
  | .user | .done .. | .start _ | .exit | .waitpid .. | .waitForChild _ => none

/-- A process is blocked in a call on a queue, or it has been unblocked and has not run
since, or it takes no part. -/
inductive Post where
  | away
  | blocked (frame : Frame)
  | unblocked (frame : Frame)
  deriving DecidableEq

def Proc.post (p : Proc) : Post :=
  if p.context.queue = none then .away
  else match p.status with
    | .blockedMessageQueue => .blocked p.context
    | .ready | .elected => .unblocked p.context
    | .asleep | .dying | .zombie | .blocked => .away

def Next.post : Next → Post
  | .ret .. => .away
  | .suspend frame => if frame.queue = none then .away else .blocked frame

/-- A process in the list of a queue is inside a call on this queue, and one that waits for
something else is inside no such call. -/
structure Proc.Posted (p : Proc) : Prop where
  waits : ∀ q, p.links = some (.queue q) → ∃ fid, p.context.queue = some (fid, q)
  apart : p.status = .asleep ∨ p.status = .blocked → p.context.queue = none

theorem Proc.post_away {p : Proc} (outside : p.context.queue = none) : p.post = .away :=
  if_pos outside

theorem Proc.post_blocked {p : Proc} (inside : p.context.queue ≠ none)
    (status : p.status = .blockedMessageQueue) : p.post = .blocked p.context := by
  rw [Proc.post, if_neg inside, status]

theorem Proc.post_unblocked {p : Proc} (inside : p.context.queue ≠ none) (awake : p.Awake) :
    p.post = .unblocked p.context := by
  rw [Proc.post, if_neg inside]
  rcases awake with status | status <;> rw [status]

theorem Proc.post_gone {p : Proc} (gone : p.status = .zombie ∨ p.status = .dying) :
    p.post = .away := by
  rw [Proc.post]
  split
  · rfl
  · rcases gone with status | status <;> rw [status]

theorem Proc.post_congr {p p' : Proc} (context : p'.context = p.context)
    (status : p'.status = p.status) : p'.post = p.post := by
  rw [Proc.post, Proc.post, context, status]

theorem Proc.Same.post {p p' : Proc} (same : Proc.Same p p') : p'.post = p.post :=
  Proc.post_congr same.context same.status

theorem Proc.Same.posted {p p' : Proc} (same : Proc.Same p p') (posted : p.Posted) :
    p'.Posted := by
  constructor
  · rw [same.links, same.context]
    exact posted.waits
  · rw [same.status, same.context]
    exact posted.apart

theorem Proc.Posted.of_status {p : Proc} {h : Head} (links : p.links = some h)
    (status : p.status = h.status) (settled : h = .ready ∨ h = .zombie ∨ h = .dying) :
    p.Posted := by
  constructor
  · intro q queued
    rw [links, Option.some.injEq] at queued
    subst queued
    rcases settled with same | same | same <;> cases same
  · intro waiting
    rw [status] at waiting
    rcases settled with same | same | same <;> subst same <;>
      rcases waiting with same | same <;> cases same

namespace Kernel

variable {k k' : Kernel} {a b q : Addr} {p : Proc} {n : Next} {m : Mover}

def post (k : Kernel) (a : Addr) : Post := (k.procs a).elim .away Proc.post

theorem post_apply (here : k.procs a = some p) : k.post a = p.post := by
  rw [post, here, Option.elim_some]

theorem post_none (absent : k.procs a = none) : k.post a = .away := by
  rw [post, absent, Option.elim_none]

theorem post_congr (same : k'.procs a = k.procs a) : k'.post a = k.post a := by
  rw [post, same, post]

theorem of_post {post : Post} (stands : k.post a = post) (inside : post ≠ .away) :
    ∃ p, k.procs a = some p ∧ p.post = post := by
  cases here : k.procs a with
  | none =>
      rw [post_none here] at stands
      exact absurd stands.symm inside
  | some p => exact ⟨p, rfl, (post_apply here).symm.trans stands⟩

structure Bystands (m : Mover) (k k' : Kernel) (b : Addr) : Prop where
  posted : (∀ p, k.procs b = some p → p.Posted) → ∀ p, k'.procs b = some p → p.Posted
  context : ∀ p', k'.procs b = some p' →
    p'.context = .user ∨ ∃ p, k.procs b = some p ∧ p'.context = p.context
  post : m.kind ≠ .queues → m.target ≠ some b → (∀ p, k.procs b = some p → p.Posted) →
    k'.post b = k.post b

theorem Bystands.refl : Bystands m k k b :=
  ⟨fun posted => posted, fun p here => .inr ⟨p, here, rfl⟩, fun _ _ _ => rfl⟩

theorem Bystands.trans {k'' : Kernel} (first : Bystands m k k' b) (second : Bystands m k' k'' b) :
    Bystands m k k'' b := by
  refine ⟨fun posted => second.posted (first.posted posted), fun p'' there => ?_,
    fun kind spared posted => ?_⟩
  · rcases second.context p'' there with user | ⟨p', between, same⟩
    · exact .inl user
    · rw [same]
      exact first.context p' between
  · rw [second.post kind spared (first.posted posted), first.post kind spared posted]

theorem Bystands.of_procs (same : k'.procs b = k.procs b) : Bystands m k k' b := by
  refine ⟨fun posted => ?_, fun p' there => .inr ⟨p', same ▸ there, rfl⟩,
    fun _ _ _ => post_congr same⟩
  rw [same]
  exact posted

theorem Bystands.of_some {p' : Proc} (here : k.procs b = some p) (there : k'.procs b = some p')
    (context : p'.context = p.context) (posted : p.Posted → p'.Posted)
    (post : m.kind ≠ .queues → m.target ≠ some b → p.Posted → p'.post = p.post) :
    Bystands m k k' b := by
  refine ⟨fun before p₂ again => ?_, fun p₂ again => ?_, fun kind spared before => ?_⟩
  · rw [there, Option.some.injEq] at again
    exact again ▸ posted (before p here)
  · rw [there, Option.some.injEq] at again
    exact .inr ⟨p, here, again ▸ context⟩
  · rw [post_apply there, post_apply here]
    exact post kind spared (before p here)

theorem relink_bystands {h : Head} (here : k.procs b = some p) (other : b ≠ m.current)
    (allowed : m.Allows b p h) : Bystands m k (k.relink b h.status h) b := by
  have there : (k.relink b h.status h).procs b = some { p with status := h.status, links := some h } := by
    rw [relink_procs, if_pos rfl, here, Option.map_some]
  have settles (settled : h = .ready ∨ h = .zombie ∨ h = .dying) :
      Proc.Posted { p with status := h.status, links := some h } :=
    .of_status rfl rfl settled
  cases allowed with
  | ends kind own stops => exact absurd own other
  | target kind killed dead =>
      refine .of_some here there rfl (fun _ => settles (.inr dead)) fun _ spared _ => ?_
      exact absurd killed spared
  | parent kind blocked =>
      refine .of_some here there rfl (fun _ => settles (.inl rfl)) fun _ _ posted => ?_
      have outside := posted.apart (.inr blocked)
      exact (if_pos outside).trans (Proc.post_away outside).symm
  | child kind ended =>
      refine .of_some here there rfl (fun _ => settles (.inr (.inr rfl))) fun _ _ _ => ?_
      rw [Proc.post_gone (.inr rfl), Proc.post_gone (.inl ended)]
  | waits kind own => exact absurd own other
  | waiter kind links =>
      refine .of_some here there rfl (fun _ => settles (.inl rfl)) fun plain _ _ => ?_
      exact absurd kind plain

theorem Move.bystands (move : Move m k k') (fresh : k.procs k.nextBlock = none)
    (other : b ≠ m.current) : Bystands m k k' b := by
  cases move with
  | @relink a p h held here allowed =>
      by_cases same : b = a
      · subst same
        exact relink_bystands here other allowed
      · exact .of_procs (by rw [relink_procs, if_neg same])
  | @edit a f kind same =>
      by_cases equal : b = a
      · subst equal
        cases here : k.procs b with
        | none => exact .of_procs (by rw [setProc_procs, if_pos rfl, here, Option.map_none])
        | some p =>
            have there : (k.setProc b f).procs b = some (f p) :=
              setProc_here here
            exact .of_some here there (same p).context (same p).posted fun _ _ _ => (same p).post
      · exact .of_procs (by rw [setProc_procs, if_neg equal])
  | delay kind here => exact .of_procs (by rw [relink_procs, if_neg other, setProc_procs, if_neg other])
  | @resort a p prio h held here sorted stays links kind =>
      by_cases equal : b = a
      · subst equal
        have there : ((k.setProc b fun p => { p with priority := prio }).relink b h.status h).procs b =
            some { p with priority := prio, status := h.status, links := some h } := by
          rw [relink_procs, if_pos rfl, setProc_procs, if_pos rfl, here]
          rfl
        refine .of_some here there rfl (fun posted => ⟨?_, ?_⟩) fun _ _ _ =>
          Proc.post_congr rfl stays.symm
        · rw [← links]
          exact posted.waits
        · rw [← stays]
          exact posted.apart
      · exact .of_procs (by rw [relink_procs, if_neg equal, setProc_procs, if_neg equal])
  | @reprioritise a p prio here apart kind =>
      by_cases equal : b = a
      · subst equal
        have there : (k.setProc b fun p => { p with priority := prio }).procs b =
            some { p with priority := prio } :=
          setProc_here here
        exact .of_some here there rfl (fun posted => ⟨posted.waits, posted.apart⟩) fun _ _ _ => rfl
      · exact .of_procs (by rw [setProc_procs, if_neg equal])
  | @birth k₁ pid p heap small free named status links context stack kept own kind joined =>
      obtain ⟨⟨g, same, procs⟩, -⟩ := birth_procs joined
      by_cases new : b = k.nextBlock
      · subst new
        have there := procs k.nextBlock
        rw [if_pos rfl] at there
        have outside : (g k.nextBlock p).context.queue = none := by
          rw [(same k.nextBlock p).context, context]
          rfl
        refine ⟨fun _ p' again => ?_, fun p' again => ?_, fun _ _ _ => ?_⟩
        · rw [there, Option.some.injEq] at again
          subst again
          refine ⟨fun q queued => ?_, fun _ => outside⟩
          cases queued
        · rw [there, Option.some.injEq] at again
          subst again
          exact .inl ((same k.nextBlock p).context.trans context)
        · rw [post_none fresh, post_apply there]
          exact Proc.post_away outside
      · have there := procs b
        rw [if_neg new] at there
        cases here : k.procs b with
        | none => exact .of_procs (by rw [there, here, Option.map_none])
        | some p' =>
            rw [here, Option.map_some] at there
            exact .of_some here there (same b p').context (same b p').posted
              fun _ _ _ => (same b p').post
  | store procs lists table current number next records fresh queues quiet =>
      exact .of_procs (by rw [procs])

theorem Moves.bystands (moves : Moves m k k') (consistent : k.Consistent) (other : b ≠ m.current) :
    Bystands m k k' b := by
  induction moves with
  | refl => exact .refl
  | tail moves move ih =>
      have between := consistent.moves moves
      exact ih.trans (move.bystands (between.fresh _ le_rfl).1 other)

theorem Move.lives (move : Move m k k') (here : k.procs a ≠ none) : k'.procs a ≠ none := by
  obtain ⟨p, here⟩ := Option.ne_none_iff_exists'.mp here
  cases move with
  | @relink b | @edit b | @reprioritise b =>
      by_cases same : a = b
      · subst same
        simp [relink_procs, setProc_procs, here]
      · simp [relink_procs, setProc_procs, if_neg same, here]
  | delay kind there =>
      by_cases same : a = m.current
      · subst same
        simp [relink_procs, setProc_procs, here]
      · simp [relink_procs, setProc_procs, if_neg same, here]
  | @resort b =>
      by_cases same : a = b
      · subst same
        simp [relink_procs, setProc_procs, here]
      · simp [relink_procs, setProc_procs, if_neg same, here]
  | birth small free named status links context stack kept own kind joined =>
      obtain ⟨⟨g, -, procs⟩, -⟩ := birth_procs joined
      rw [procs]
      split
      · simp
      · simp [here]
  | store procs lists table current number next records fresh queues quiet => simp [procs, here]

theorem Moves.lives (moves : Moves m k k') (here : k.procs a ≠ none) : k'.procs a ≠ none := by
  induction moves with
  | refl => exact here
  | tail _ move ih => exact move.lives ih

theorem Move.unqueued (move : Move m k k') (plain : m.kind ≠ .queues)
    (outside : ∀ p q, k.procs m.current = some p → p.links ≠ some (.queue q)) :
    ∀ p q, k'.procs m.current = some p → p.links ≠ some (.queue q) := by
  intro p' q there
  cases move with
  | @relink a p h held here allowed =>
      rw [relink_procs] at there
      split at there
      · rw [here, Option.map_some, Option.some.injEq] at there
        subst there
        cases allowed with
        | ends kind own stops => rcases stops with same | same | same <;> subst same <;> simp
        | target kind killed dead => rcases dead with same | same <;> subst same <;> simp
        | parent kind blocked => simp
        | child kind ended => simp
        | waits kind own => exact absurd kind plain
        | waiter kind links => simp
      · exact outside p' q there
  | @edit a f kind same =>
      rw [setProc_procs] at there
      split at there
      · next equal =>
        obtain ⟨p, here, rfl⟩ := Option.map_eq_some_iff.mp there
        rw [(same p).links]
        exact outside p q (equal ▸ here)
      · exact outside p' q there
  | @delay p time kind here =>
      rw [relink_procs, if_pos rfl, setProc_procs, if_pos rfl, here, Option.map_some, Option.map_some,
        Option.some.injEq] at there
      subst there
      simp
  | @resort a p prio h held here sorted stays links kind =>
      rw [relink_procs] at there
      split at there
      · next equal =>
        rw [setProc_procs, if_pos rfl, here, Option.map_some, Option.map_some,
          Option.some.injEq] at there
        subst there
        rw [← links]
        exact outside p q (equal ▸ here)
      · next different =>
        rw [setProc_procs, if_neg different] at there
        exact outside p' q there
  | @reprioritise a p prio here apart kind =>
      rw [setProc_procs] at there
      split at there
      · next equal =>
        rw [here, Option.map_some, Option.some.injEq] at there
        subst there
        exact outside p q (equal ▸ here)
      · exact outside p' q there
  | @birth k₁ pid p heap small free named status links context stack kept own kind joined =>
      obtain ⟨⟨g, same, procs⟩, -⟩ := birth_procs joined
      rw [procs] at there
      split at there
      · rw [Option.some.injEq] at there
        subst there
        simp
      · obtain ⟨p₁, here, rfl⟩ := Option.map_eq_some_iff.mp there
        rw [(same m.current p₁).links]
        exact outside p₁ q here
  | store procs lists table current number next records fresh queues quiet =>
      rw [procs] at there
      exact outside p' q there

theorem Moves.unqueued (moves : Moves m k k') (plain : m.kind ≠ .queues)
    (outside : ∀ p q, k.procs m.current = some p → p.links ≠ some (.queue q)) :
    ∀ p q, k'.procs m.current = some p → p.links ≠ some (.queue q) := by
  induction moves with
  | refl => exact outside
  | tail _ move ih => exact move.unqueued plain ih

theorem scheduling_posts (consistent : k.Consistent) (run : k.scheduling = .ok k')
    (posted : ∀ p, k.procs b = some p → p.Posted) :
    (∀ p, k'.procs b = some p → p.Posted) ∧ k'.post b = k.post b := by
  have consistent' := (consistent.scheduling run).1
  have settled := scheduling_settled consistent run b
  generalize before : k.procs b = o at settled
  generalize after : k'.procs b = o' at settled
  cases settled with
  | same =>
      refine ⟨fun p there => posted p (before ▸ there), ?_⟩
      rw [post, after, post, before]
  | @awake p p' s l t was now rest =>
      have context : p'.context = p.context := by rw [rest]
      have posted := posted p before
      refine ⟨fun p₂ there => ?_, ?_⟩
      · rw [Option.some.injEq] at there
        subst there
        constructor
        · intro q links
          have status := (consistent'.placed b p' after).status_of_links links (by simp)
          rcases now with ready | elected
          · rw [ready] at status
            cases status
          · rw [elected] at status
            cases status
        · intro waiting
          rcases now with status | status <;> rw [status] at waiting <;>
            rcases waiting with same | same <;> cases same
      · rw [post_apply after, post_apply before]
        by_cases outside : p.context.queue = none
        · rw [Proc.post_away outside, Proc.post_away (context ▸ outside)]
        · rcases was with awake | asleep
          · rw [Proc.post_unblocked outside awake, Proc.post_unblocked (context ▸ outside) now,
              context]
          · exact absurd (posted.apart (.inl asleep)) outside
  | @freed p was =>
      refine ⟨fun p' there => ?_, ?_⟩
      · cases there
      · rw [post_none after, post_apply before, Proc.post_gone (.inr was)]

end Kernel

end IntelX86Kernel

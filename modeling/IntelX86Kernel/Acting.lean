import IntelX86Kernel.Traffic

/-! Every step of a run is a step of the queues. -/

namespace IntelX86Kernel

open Transition

namespace Kernel

variable {k k' : Kernel} {a b q : Addr} {p : Proc} {n : Next} {e : Event}

theorem segment_own (consistent : k.Consistent) (current : k.processesTable k.activePID = some a)
    (here : k.procs a = some p) (elected : p.status = .elected)
    (run : k.segment p.context e = .ok (k', n)) :
    (∃ f fid q, n = .suspend f ∧ f.queue = some (fid, q) ∧
        k' = k.relink a .blockedMessageQueue (.queue q)) ∨
      n.post = .away ∧ ∀ p' q, k'.procs a = some p' → p'.links ≠ some (.queue q) := by
  have linked := consistent.linked
  have outside : ∀ p' q, k.procs a = some p' → p'.links ≠ some (.queue q) := by
    intro p' q there links
    rw [here, Option.some.injEq] at there
    subst there
    have status := (consistent.placed a p here).status_of_links links (by simp)
    rw [elected] at status
    cases status
  -- A step that does not block is one that somebody else could have taken.
  have spared {k₁ : Kernel} (moves : Moves ⟨a + 1, none, .queues⟩ k k₁) :
      ∀ p' q, k₁.procs a = some p' → p'.links ≠ some (.queue q) := by
    intro p' q there
    obtain ⟨p₁, again, kept⟩ := moves.kept consistent here (.inr elected)
      (Nat.ne_of_lt (Nat.lt_succ_self a)) (by simp)
    rw [there, Option.some.injEq] at again
    subst again
    rw [kept.links]
    exact outside p q here
  have blocks {f : Frame} {fid : Nat} {q : Addr} (inside : f.queue = some (fid, q))
      (run : k.blockOnQueue q f = .ok (k', n)) : ∃ f fid q, n = .suspend f ∧
        f.queue = some (fid, q) ∧ k' = k.relink a .blockedMessageQueue (.queue q) := by
    obtain ⟨b, p', active, -, -, rfl, rfl⟩ := blockOnQueue_eq linked run
    rw [current, Option.some.injEq] at active
    subst active
    exact ⟨f, fid, q, rfl, inside, rfl⟩
  have takes {fid : Nat} {q : Addr} (run : k.takeMessage fid q = .ok (k', n)) :
      n.post = .away ∧ ∀ p' q, k'.procs a = some p' → p'.links ≠ some (.queue q) := by
    refine ⟨?_, spared (takeMessage_moves linked rfl run)⟩
    obtain ⟨mq, cell, q', -, -, -, ⟨-, rfl, -⟩ | ⟨b, -, -, -, rfl⟩⟩ := takeMessage_eq linked run <;>
      rfl
  by_cases plain : e.kind p.context ≠ .queues
  · have moves := segment_moves consistent current run
    exact .inr ⟨segment_away consistent plain run, moves.unqueued plain outside⟩
  · have kind := Decidable.not_not.mp plain
    cases e with
    | clockInterrupt => cases kind
    | resume =>
        change k.continueWith p.context = .ok (k', n) at run
        generalize p.context = f at kind run
        cases f with
        | user | done | start | exit | waitpid | waitForChild => cases kind
        | preceive fid q =>
            obtain ⟨mq, -, ⟨-, rfl, rfl⟩ | ⟨-, -, -, run⟩⟩ := preceiveResumed_eq run
            · exact .inr ⟨rfl, outside⟩
            · exact .inr (takes run)
        | psend fid q message =>
            obtain ⟨mq, -, ⟨-, rfl, rfl⟩ | ⟨-, -, rfl, rfl⟩ | ⟨-, -, -, run⟩ |
              ⟨-, -, -, stored, rfl⟩⟩ := psendResumed_eq run
            · exact .inr ⟨rfl, outside⟩
            · exact .inr ⟨rfl, outside⟩
            · exact .inl (blocks rfl run)
            · exact .inr ⟨rfl, spared (storeMessage_moves rfl .refl stored)⟩
    | call c =>
        simp only [segment] at run
        split at run
        · cases c with
          | start | exit | kill | waitpid | chprio | getprio | waitClock | sleep => cases kind
          | pcreate count recordGranted bufferGranted =>
              refine .inr ⟨?_, spared (pcreate_moves rfl consistent.unused run)⟩
              rcases pcreate_eq run with ⟨-, -, rfl⟩ |
                ⟨-, -, -, -, -, -, ⟨-, -, rfl⟩ | ⟨-, -, rfl⟩⟩ <;> rfl
          | pdelete fid =>
              refine .inr ⟨?_, spared (pdelete_moves linked rfl run)⟩
              rcases pdelete_eq linked run with ⟨-, -, rfl⟩ |
                ⟨q, mq, k₁, heap, -, -, -, -, -, -, rfl⟩ <;> rfl
          | preset fid =>
              refine .inr ⟨?_, spared (preset_moves linked rfl run)⟩
              rcases preset_eq linked run with ⟨-, -, rfl⟩ | ⟨q, mq, -, -, -, -, rfl⟩ <;> rfl
          | pcount fid count =>
              obtain ⟨rfl, value, out, rfl⟩ := pcount_eq run
              exact .inr ⟨rfl, outside⟩
          | preceive fid =>
              rcases preceive_eq run with ⟨-, rfl, rfl⟩ | ⟨q, mq, -, -, -, ⟨-, run⟩ | ⟨-, run⟩⟩
              · exact .inr ⟨rfl, outside⟩
              · exact .inl (blocks rfl run)
              · exact .inr (takes run)
          | psend fid message =>
              rcases psend_eq linked run with ⟨-, rfl, rfl⟩ |
                ⟨q, mq, -, -, -, ⟨b, -, last, stored, rfl⟩ | ⟨-, -, run⟩ | ⟨-, -, stored, rfl⟩⟩
              · exact .inr ⟨rfl, outside⟩
              · obtain ⟨p', there, links⟩ := (linked.mem_iff _ _).mp (List.mem_of_getLast? last)
                refine .inr ⟨rfl, spared (storeMessage_moves rfl ?_ stored)⟩
                exact Moves.relink .refl (h := .ready) (fun q same => by cases same) there
                  (.waiter rfl links)
              · exact .inl (blocks rfl run)
              · exact .inr ⟨rfl, spared (storeMessage_moves rfl .refl stored)⟩
        · cases run

theorem Traffic.framed {fid : Nat} (traffic : Traffic k a e n k') (consistent : k.Consistent)
    (stocked : k.Stocked) (framed : k.Framed fid q) : k'.Framed fid q := by
  have old : q ≠ k.nextBlock := by
    rintro rfl
    exact framed.1 (consistent.fresh _ le_rfl).2
  have updated {r : Addr} {mq : MessageQueue}
      (records : k'.records = Function.update k.records r (some mq)) : k'.records q ≠ none := by
    rw [records, Function.update_apply]
    split
    · simp
    · exact framed.1
  have filled {free : Nat} (empty : k.queues free = none) {queues : Nat → Option Addr}
      (same : queues = Function.update k.queues free (some k.nextBlock)) :
      queues fid = some q ∨ ∀ i, queues i ≠ some q := by
    subst same
    rcases framed.2 with slot | nowhere
    · refine .inl ?_
      rw [Function.update_of_ne, slot]
      rintro rfl
      rw [empty] at slot
      cases slot
    · refine .inr fun i => ?_
      rw [Function.update_apply]
      split
      · simpa using old.symm
      · exact nowhere i
  cases traffic with
  | quiet idle keeps spares own posts records queues =>
      rw [Framed, records, queues]
      exact framed
  | halves idle keeps spares own free posts records queues =>
      exact ⟨records ▸ framed.1, filled free queues⟩
  | creates named idle keeps spares own free positive posts records queues =>
      exact ⟨updated records, filled free queues⟩
  | @deletes gone r idle keeps named slot own posts records queues =>
      refine ⟨records ▸ framed.1, ?_⟩
      rw [queues]
      rcases framed.2 with held | nowhere
      · by_cases same : fid = gone
        · refine .inr fun i => ?_
          rw [Function.update_apply]
          split
          · simp
          · next other =>
            intro again
            exact other ((stocked.slots i fid q again held).trans same)
        · refine .inl ?_
          rw [Function.update_of_ne same, held]
      · refine .inr fun i => ?_
        rw [Function.update_apply]
        split
        · simp
        · exact nowhere i
  | resets idle named spares own here posts records queues =>
      exact ⟨updated records, queues ▸ framed.2⟩
  | fails attempt inside resumed here cause outcome after posts records queues =>
      exact ⟨updated records, queues ▸ framed.2⟩
  | blocks attempt inside here full again outcome posts records queues =>
      rw [Framed, records, queues]
      exact framed
  | stores woken attempt here inside outcome first room again posts records queues =>
      exact ⟨updated records, queues ▸ framed.2⟩
  | takes woken attempt here inside outcome filled first rest again posts records queues =>
      exact ⟨updated records, queues ▸ framed.2⟩

theorem Traffic.congr {k₁ : Kernel} (traffic : Traffic k a e n k₁)
    (same : ∀ b, b ≠ a → k'.post b = k₁.post b) (records' : k'.records = k₁.records)
    (queues' : k'.queues = k₁.queues) : Traffic k a e n k' := by
  cases traffic with
  | quiet idle keeps spares own posts records queues =>
      refine .quiet idle keeps spares own (fun b other => ?_) (records'.trans records)
        (queues'.trans queues)
      rw [same b other]
      exact posts b other
  | halves idle keeps spares own free posts records queues =>
      exact .halves idle keeps spares own free
        (fun b other => (same b other).trans (posts b other)) (records'.trans records)
        (queues'.trans queues)
  | creates named idle keeps spares own free positive posts records queues =>
      exact .creates named idle keeps spares own free positive
        (fun b other => (same b other).trans (posts b other)) (records'.trans records)
        (queues'.trans queues)
  | deletes idle keeps named slot own posts records queues =>
      exact .deletes idle keeps named slot own
        (fun b other => (same b other).trans (posts b other)) (records'.trans records)
        (queues'.trans queues)
  | resets idle named spares own here posts records queues =>
      exact .resets idle named spares own here
        (fun b other => (same b other).trans (posts b other)) (records'.trans records)
        (queues'.trans queues)
  | fails attempt inside resumed here cause outcome after posts records queues =>
      exact .fails attempt inside resumed here cause outcome after
        (fun b other => (same b other).trans (posts b other)) (records'.trans records)
        (queues'.trans queues)
  | blocks attempt inside here full again outcome posts records queues =>
      exact .blocks attempt inside here full again outcome
        (fun b other => (same b other).trans (posts b other)) (records'.trans records)
        (queues'.trans queues)
  | stores woken attempt here inside outcome first room again posts records queues =>
      exact .stores woken attempt here inside outcome first room again
        (fun b other => (same b other).trans (posts b other)) (records'.trans records)
        (queues'.trans queues)
  | takes woken attempt here inside outcome filled first rest again posts records queues =>
      exact .takes woken attempt here inside outcome filled first rest again
        (fun b other => (same b other).trans (posts b other)) (records'.trans records)
        (queues'.trans queues)

theorem Traffic.suspends {f : Frame} {fid : Nat} (traffic : Traffic k a e (.suspend f) k')
    (inside : f.queue = some (fid, q)) :
    k.attempt e = some f ∧ k.records q ≠ none := by
  have engaged : Next.post (.suspend f) ≠ .away := by simp [Next.post, inside]
  cases traffic with
  | quiet idle keeps spares own posts records queues => exact absurd own engaged
  | halves idle keeps spares own free posts records queues => exact absurd own engaged
  | creates named idle keeps spares own free positive posts records queues => exact absurd own engaged
  | deletes idle keeps named slot own posts records queues => exact absurd own engaged
  | resets idle named spares own here posts records queues => exact absurd own engaged
  | fails attempt inside resumed here cause outcome after posts records queues => cases outcome
  | blocks attempt inside' here full again outcome posts records queues =>
      cases outcome
      rw [inside'] at inside
      cases inside
      exact ⟨attempt, by simp [here]⟩
  | stores woken attempt here inside outcome first room again posts records queues =>
      rcases outcome with same | same <;> cases same
      cases inside
  | takes woken attempt here inside outcome filled first rest again posts records queues =>
      rcases outcome with same | same <;> cases same
      cases inside

def ownPost (k : Kernel) (e : Event) : Post :=
  if e = .resume then (k.attempt e).elim .away .unblocked else .away

theorem own_post (current : k.processesTable k.activePID = some a) (here : k.procs a = some p)
    (elected : p.status = .elected) (run : k.segment p.context e = .ok (k', n)) :
    k.post a = k.ownPost e := by
  rw [post_apply here, ownPost]
  split
  · next resumed =>
    subst resumed
    rw [attempt, frame_eq current here]
    by_cases outside : p.context.queue = none
    · rw [if_pos outside, Option.elim_none, Proc.post_away outside]
    · rw [if_neg outside, Option.elim_some, Proc.post_unblocked outside (.inr elected)]
  · next called =>
    have user : p.context = .user := by
      cases e with
      | resume => exact absurd rfl called
      | call c =>
          by_contra busy
          rw [segment, if_neg busy] at run
          cases run
      | clockInterrupt =>
          by_contra busy
          rw [segment, if_neg busy] at run
          cases run
    exact Proc.post_away (by rw [user]; rfl)

/-- A step that takes process `a` on is a step of the queues, and all posts are kept. -/
structure Acted (k : Kernel) (e : Event) (n : Next) (k' : Kernel) (a : Addr) : Prop where
  current : k.processesTable k.activePID = some a
  traffic : Traffic k a e n k'
  before : k.post a = k.ownPost e
  after : k'.post a = n.post

theorem finish_posts (consistent : k.Consistent) (here : k.procs a = some p)
    (posted : ∀ b p, b ≠ a → k.procs b = some p → p.Posted)
    (own : (∃ f fid q, n = .suspend f ∧ f.queue = some (fid, q) ∧
        p.status = .blockedMessageQueue ∧ p.links = some (.queue q)) ∨
      n.post = .away ∧ ∀ q, p.links ≠ some (.queue q))
    (finish : k.finish a n = .ok k') :
    (∀ b p, k'.procs b = some p → p.Posted) ∧ k'.post a = n.post ∧
      (∀ b, b ≠ a → k'.post b = k.post b) ∧ k'.records = k.records ∧ k'.queues = k.queues := by
  have saved (context : Frame) : (k.setContext a context).procs a =
      some { p with context := context } := by
    rw [setContext, setProc_procs, if_pos rfl, here, Option.map_some]
  have others (context : Frame) (b : Addr) (other : b ≠ a) :
      (k.setContext a context).procs b = k.procs b := by
    rw [setContext, setProc_procs, if_neg other]
  have all {context : Frame} (mine : Proc.Posted { p with context := context }) :
      ∀ b p, (k.setContext a context).procs b = some p → p.Posted := by
    intro b p' there
    by_cases same : b = a
    · subst same
      rw [saved, Option.some.injEq] at there
      exact there ▸ mine
    · rw [others context b same] at there
      exact posted b p' same there
  rcases finish_eq finish with ⟨value, out, rfl, rfl⟩ | ⟨f, rfl, scheduled⟩
  · have unqueued : ∀ q, p.links ≠ some (.queue q) := by
      rcases own with ⟨f, fid, q, same, -⟩ | ⟨-, unqueued⟩
      · cases same
      · exact unqueued
    refine ⟨all ⟨fun q links => absurd links (unqueued q), fun _ => rfl⟩, ?_, fun b other => ?_,
      rfl, rfl⟩
    · rw [post_apply (saved .user)]
      rfl
    · exact post_congr (others .user b other)
  · have mine : Proc.Posted { p with context := f } ∧ Proc.post { p with context := f } =
        Next.post (.suspend f) := by
      rcases own with ⟨f', fid, q, same, inside, status, links⟩ | ⟨outside, unqueued⟩
      · cases same
        have engaged : f.queue ≠ none := by simp [inside]
        refine ⟨⟨fun q' links' => ?_, fun waiting => ?_⟩, ?_⟩
        · rw [links, Option.some.injEq, Head.queue.injEq] at links'
          exact ⟨fid, links' ▸ inside⟩
        · rw [status] at waiting
          rcases waiting with same | same <;> cases same
        · rw [Next.post, if_neg engaged]
          exact Proc.post_blocked (p := { p with context := f }) engaged status
      · have idle : f.queue = none := by
          by_contra engaged
          rw [Next.post, if_neg engaged] at outside
          cases outside
        refine ⟨⟨fun q links => absurd links (unqueued q), fun _ => idle⟩, ?_⟩
        rw [outside]
        exact if_pos idle
    have consistent' : (k.setContext a f).Consistent := consistent.setContext
    obtain ⟨records, queues, -⟩ := scheduling_same consistent' scheduled
    have kept (b : Addr) := scheduling_posts consistent' scheduled (all mine.1 b)
    refine ⟨fun b => (kept b).1, ?_, fun b other => ?_, records, queues⟩
    · rw [(kept a).2, post_apply (saved f)]
      exact mine.2
    · rw [(kept b).2]
      exact post_congr (others f b other)

theorem Traffic.frames {f : Frame} (traffic : Traffic k a e n k') (other : b ≠ a)
    (frame : (k'.post b).frame = some f) : (k.post b).frame = some f := by
  cases traffic with
  | quiet idle keeps spares own posts records queues =>
      rcases posts b other with same | ⟨-, gone⟩
      · exact same ▸ frame
      · rw [gone] at frame
        cases frame
  | halves idle keeps spares own free posts records queues => exact posts b other ▸ frame
  | creates named idle keeps spares own free positive posts records queues =>
      exact posts b other ▸ frame
  | deletes idle keeps named slot own posts records queues =>
      rw [posts b other, Post.wake_frame] at frame
      exact frame
  | resets idle named spares own here posts records queues =>
      rw [posts b other, Post.wake_frame] at frame
      exact frame
  | fails attempt inside resumed here cause outcome after posts records queues =>
      exact posts b other ▸ frame
  | blocks attempt inside here full again outcome posts records queues =>
      exact posts b other ▸ frame
  | stores woken attempt here inside outcome first room again posts records queues =>
      rw [posts b other] at frame
      split at frame
      · rw [Post.wake_frame] at frame
        exact frame
      · exact frame
  | takes woken attempt here inside outcome filled first rest again posts records queues =>
      rw [posts b other] at frame
      split at frame
      · rw [Post.wake_frame] at frame
        exact frame
      · exact frame

theorem step_acted (consistent : k.Consistent) (running : k.Running) (manned : k.Manned)
    (stocked : k.Stocked) (run : k.step e = .ok (k', n)) :
    (∃ a, k.Acted e n k' a) ∧ k'.Manned := by
  obtain ⟨a, p, k₁, current, here, segment, finish⟩ := step_eq run
  have elected := running.status current here
  have moves := segment_moves consistent current segment
  have consistent₁ := consistent.segment segment
  have bystands {b : Addr} (other : b ≠ a) := moves.bystands consistent other
  have own := segment_own consistent current here elected segment
  obtain ⟨p₁, here₁⟩ : ∃ p₁, k₁.procs a = some p₁ := Option.ne_none_iff_exists'.mp (moves.lives (by simp [here]))
  have mine : (∃ f fid q, n = .suspend f ∧ f.queue = some (fid, q) ∧
      p₁.status = .blockedMessageQueue ∧ p₁.links = some (.queue q)) ∨
      n.post = .away ∧ ∀ q, p₁.links ≠ some (.queue q) := by
    rcases own with ⟨f, fid, q, outcome, inside, rfl⟩ | ⟨outside, unqueued⟩
    · rw [relink_procs, if_pos rfl, here, Option.map_some, Option.some.injEq] at here₁
      subst here₁
      exact .inl ⟨f, fid, q, outcome, inside, rfl, rfl⟩
    · exact .inr ⟨outside, fun q => unqueued p₁ q here₁⟩
  obtain ⟨posted, after, posts, records, queues⟩ := finish_posts consistent₁ here₁
    (fun b p other => (bystands other).posted (manned.posted b) p) mine finish
  have traffic : Traffic k a e n k' :=
    (segment_traffic consistent manned current here segment).congr posts records queues
  have before := own_post current here elected segment
  refine ⟨⟨a, current, traffic, before, after⟩, posted, fun b f fid q frame inside => ?_⟩
  refine traffic.framed consistent stocked ?_
  by_cases same : b = a
  · subst same
    rw [after] at frame
    cases n with
    | ret value out => cases frame
    | suspend f' =>
        rw [Next.post] at frame
        split at frame
        · cases frame
        · cases frame
          obtain ⟨attempt, held⟩ := traffic.suspends inside
          obtain ⟨fid', q', inside', ⟨resumed, -⟩ | ⟨-, slot⟩⟩ := attempt_cases attempt
          · refine manned.framed b f fid q ?_ inside
            rw [before, ownPost, if_pos resumed, attempt]
            rfl
          · rw [inside, Option.some.injEq, Prod.mk.injEq] at inside'
            exact ⟨held, .inl (by rw [inside'.1, inside'.2, slot])⟩
  · exact manned.framed b f fid q (traffic.frames same frame) inside

end Kernel

open Kernel

variable {history : History} {k k' : Kernel} {e : Event} {n : Next}

theorem Booted.manned (booted : Booted k) : k.Manned := by
  obtain ⟨p, -, status, links, context, -, -, -, -, -, -, -, -, procs, -⟩ := booted.state
  have only {a : Addr} {p' : Proc} (there : k.procs a = some p') : p' = p := by
    rw [procs] at there
    split at there
    · exact (Option.some.inj there).symm
    · cases there
  have outside : p.context.queue = none := by
    rw [context]
    rfl
  refine ⟨fun a p' there => ?_, fun a f fid q frame _ => ?_⟩
  · rw [only there]
    refine ⟨fun q queued => ?_, fun _ => outside⟩
    rw [links] at queued
    cases queued
  · cases here : k.procs a with
    | none =>
        rw [post_none here] at frame
        cases frame
    | some p' =>
        rw [post_apply here, only here, Proc.post_away outside] at frame
        cases frame

theorem manned_of_run (run : Reached history k) : k.Manned := by
  refine (run.stateInvariant (I := fun k => (k.Consistent ∧ k.Running) ∧ k.Stocked ∧ k.Manned)
    (fun _ booted => ⟨booted.consistent, booted.stocked.1, booted.manned⟩)
    fun k e n k' kept taken => ?_).2.2
  obtain ⟨⟨consistent, running⟩, stocked, manned⟩ := kept
  exact ⟨consistent.step running taken, stocked.step consistent taken,
    (step_acted consistent running manned stocked taken).2⟩

theorem acted_of_run (run : Reached history k) (taken : k.step e = .ok (k', n)) :
    ∃ a, k.Acted e n k' a := by
  obtain ⟨consistent, running⟩ := consistent_of_run run
  exact (step_acted consistent running (manned_of_run run) (stocked_of_run run).1 taken).1

end IntelX86Kernel

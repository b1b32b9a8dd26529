import IntelX86Kernel.Acting
import IntelX86Kernel.Ring

/-! A message queue is a bounded buffer, first in, first out. -/

namespace IntelX86Kernel

open Transition Kernel

def Next.succeeds : Next → Bool
  | .ret value _ => value = 0
  | .suspend (.done value _) => value = 0
  | .suspend _ => false

def Next.out : Next → Option Int
  | .ret _ out => out
  | .suspend (.done _ out) => out
  | .suspend _ => none

/-- The messages that the calls of `psend` have stored in the queue since its last `preset`. -/
def sent (q : Addr) : History → List Int
  | [] => []
  | t :: past =>
      if t.before.presetQueue t.event = some q then []
      else match t.before.attempt t.event with
        | some (.psend _ r message) =>
            if r = q ∧ t.outcome.succeeds = true then sent q past ++ [message] else sent q past
        | _ => sent q past

/-- The messages that the calls of `preceive` have taken out since then. -/
def received (q : Addr) : History → List Int
  | [] => []
  | t :: past =>
      if t.before.presetQueue t.event = some q then []
      else match t.before.attempt t.event with
        | some (.preceive _ r) =>
            if r = q ∧ t.outcome.succeeds = true then received q past ++ t.outcome.out.toList
            else received q past
        | _ => received q past

def capacity (q : Addr) : History → Option Int
  | [] => none
  | t :: past =>
      if t.before.records q = none ∧ t.after.records q ≠ none then t.event.count else capacity q past

/-- What the claims about a queue come down to: the allocation of its buffer, the ranges of
its indices, the two cells a call may access, and where the messages are. -/
structure BoundedFifo (k : Kernel) (mq : MessageQueue) (count : Int) (sent received : List Int) :
    Prop where
  size : mq.bufferSize = count
  positive : 0 < count
  allocated : k.heap mq.buffer = some (4 * count.toNat)
  unwrapped : 4 * count < 2 ^ 32
  filled : 0 ≤ mq.nbMessages ∧ mq.nbMessages ≤ count
  reading : 0 ≤ mq.readIndex ∧ mq.readIndex < count
  writing : 0 ≤ mq.writeIndex ∧ mq.writeIndex < count
  indices : mq.writeIndex = (mq.readIndex + mq.nbMessages) % count
  readable : k.bufferCell mq mq.readIndex = .ok mq.readIndex.toNat
  writable : k.bufferCell mq mq.writeIndex = .ok mq.writeIndex.toNat
  order : sent = received ++ (List.range mq.nbMessages.toNat).map
    fun i : Nat => mq.cells ((mq.readIndex + i) % count).toNat

namespace MessageQueue

variable {mq : MessageQueue} {written got : List Int} {message : Int} {cell : Nat}

structure Follows (mq : MessageQueue) (written got : List Int) : Prop where
  keeps : Ring.Keeps mq.bufferSize.toNat mq.cells written
  reads : mq.readIndex = (got.length % mq.bufferSize.toNat : Nat)
  writes : mq.writeIndex = (written.length % mq.bufferSize.toNat : Nat)
  fill : mq.nbMessages = written.length - got.length
  room : mq.nbMessages ≤ mq.bufferSize
  order : got <+: written

theorem Follows.fresh (positive : 0 < mq.bufferSize) (read : mq.readIndex = 0)
    (write : mq.writeIndex = 0) (empty : mq.nbMessages = 0) : mq.Follows [] [] := by
  refine ⟨.nil, ?_, ?_, ?_, ?_, List.prefix_refl []⟩
  · simp [read]
  · simp [write]
  · simp [empty]
  · omega

theorem tmod_next {size : Int} {length : Nat} (positive : 0 < size) :
    ((length % size.toNat : Nat) + 1 : Int).tmod size = ((length + 1) % size.toNat : Nat) := by
  obtain ⟨width, rfl⟩ := Int.eq_ofNat_of_zero_le (Int.le_of_lt positive)
  have same : ((length % width : Nat) + 1 : Int) = ((length % width + 1 : Nat) : Int) := by
    push_cast
    rfl
  rw [Int.toNat_natCast, same, ← Int.ofNat_tmod, Nat.mod_add_mod]

theorem Follows.stored (follows : mq.Follows written got) (positive : 0 < mq.bufferSize)
    (room : mq.nbMessages < mq.bufferSize) (here : cell = mq.writeIndex.toNat) :
    (mq.stored cell message).Follows (written ++ [message]) got := by
  have inside : cell = written.length % mq.bufferSize.toNat := by
    rw [here, follows.writes, Int.toNat_natCast]
  refine ⟨?_, follows.reads, ?_, ?_, ?_, follows.order.trans (List.prefix_append _ _)⟩
  · change Ring.Keeps mq.bufferSize.toNat (Function.update mq.cells cell message) _
    rw [inside]
    exact follows.keeps.write
  · change (mq.writeIndex + 1).tmod mq.bufferSize = _
    rw [follows.writes, tmod_next positive, List.length_append, List.length_singleton]
    rfl
  · change mq.nbMessages + 1 = _
    rw [follows.fill, List.length_append, List.length_singleton]
    omega
  · change mq.nbMessages + 1 ≤ mq.bufferSize
    omega

theorem Follows.first (follows : mq.Follows written got)
    (next : written[got.length]? = some message) : mq.cells mq.readIndex.toNat = message := by
  have longer := follows.order.length_le
  have fill := follows.fill
  have room := follows.room
  rw [follows.reads, Int.toNat_natCast]
  exact follows.keeps _ _ next (by omega)

theorem Follows.taken (follows : mq.Follows written got) (positive : 0 < mq.bufferSize)
    (filled : mq.nbMessages ≠ 0) (here : cell = mq.readIndex.toNat) :
    mq.taken.Follows written (got ++ [mq.cells cell]) := by
  have longer := follows.order.length_le
  have fill := follows.fill
  have room := follows.room
  have waiting : got.length < written.length := by omega
  have found : written[got.length]? = some written[got.length] :=
    List.getElem?_eq_getElem waiting
  have next : mq.cells cell = written[got.length] := here ▸ follows.first found
  refine ⟨follows.keeps, ?_, follows.writes, ?_, ?_, ?_⟩
  · change (mq.readIndex + 1).tmod mq.bufferSize = _
    rw [follows.reads, tmod_next positive, List.length_append, List.length_singleton]
    rfl
  · change mq.nbMessages - 1 = _
    rw [fill, List.length_append, List.length_singleton]
    omega
  · change mq.nbMessages - 1 ≤ mq.bufferSize
    omega
  · obtain ⟨rest, rfl⟩ := follows.order
    cases rest with
    | nil => simp at waiting
    | cons head tail =>
        rw [next, List.getElem_append_right (Nat.le_refl _)]
        exact ⟨tail, by simp⟩

theorem Follows.same {mq' : MessageQueue} (follows : mq.Follows written got)
    (size : mq'.bufferSize = mq.bufferSize) (cells : mq'.cells = mq.cells)
    (read : mq'.readIndex = mq.readIndex) (write : mq'.writeIndex = mq.writeIndex)
    (fill : mq'.nbMessages = mq.nbMessages) : mq'.Follows written got := by
  refine ⟨?_, ?_, ?_, ?_, ?_, follows.order⟩
  · rw [size, cells]
    exact follows.keeps
  · rw [read, size]
    exact follows.reads
  · rw [write, size]
    exact follows.writes
  · rw [fill]
    exact follows.fill
  · rw [fill, size]
    exact follows.room

end MessageQueue

namespace Kernel

variable {k k' : Kernel} {a q : Addr} {mq : MessageQueue} {n : Next} {e : Event}
  {history : History}

theorem attempt_presets {f : Frame} (attempt : k.attempt e = some f) : k.presetQueue e = none := by
  cases e with
  | clockInterrupt | resume => rfl
  | call c =>
      cases c with
      | preset => cases attempt
      | start | exit | kill | waitpid | chprio | getprio | waitClock | sleep | pcreate | pdelete
      | pcount | preceive | psend => rfl

theorem bufferCell_eq {index : Int} {cell : Nat} (inside : k.bufferCell mq index = .ok cell) :
    cell = index.toNat := by
  rw [bufferCell] at inside
  split at inside
  · cases inside
  · split at inside
    · exact (Except.ok.inj inside).symm
    · cases inside

theorem bufferCell_inside {fid : Nat} {index : Int} (stocked : k.Stocked)
    (slot : k.queues fid = some q) (here : k.records q = some mq) (least : 0 ≤ index)
    (most : index < mq.bufferSize) : k.bufferCell mq index = .ok index.toNat := by
  rw [bufferCell, stocked.queues fid q mq slot here]
  exact if_pos ⟨least, by rw [sizeofInt]; omega⟩

theorem unsent (keeps : k.presetQueue e ≠ some q)
    (idle : (∀ f fid, k.attempt e = some f → f.queue ≠ some (fid, q)) ∨ n.succeeds = false) :
    sent q (⟨k, e, n, k'⟩ :: history) = sent q history ∧
      received q (⟨k, e, n, k'⟩ :: history) = received q history := by
  rcases idle with apart | failed
  · simp only [sent, received, if_neg keeps]
    constructor
    · split
      · next fid r message attempt =>
        have other : r ≠ q := by
          rintro rfl
          exact apart _ fid attempt rfl
        simp [other]
      · rfl
    · split
      · next fid r attempt =>
        have other : r ≠ q := by
          rintro rfl
          exact apart _ fid attempt rfl
        simp [other]
      · rfl
  · simp only [sent, received, if_neg keeps, failed]
    constructor <;> split <;> simp

theorem sent_stored {fid : Nat} {r : Addr} {message : Int}
    (attempt : k.attempt e = some (.psend fid r message)) (succeeds : n.succeeds = true) :
    sent q (⟨k, e, n, k'⟩ :: history) =
        (if r = q then sent q history ++ [message] else sent q history) ∧
      received q (⟨k, e, n, k'⟩ :: history) = received q history := by
  have keeps : k.presetQueue e ≠ some q := by simp [attempt_presets attempt]
  simp only [sent, received, if_neg keeps, attempt, succeeds, and_true]

theorem received_taken {fid : Nat} {r : Addr} {message : Int}
    (attempt : k.attempt e = some (.preceive fid r)) (succeeds : n.succeeds = true)
    (out : n.out = some message) :
    sent q (⟨k, e, n, k'⟩ :: history) = sent q history ∧
      received q (⟨k, e, n, k'⟩ :: history) =
        if r = q then received q history ++ [message] else received q history := by
  have keeps : k.presetQueue e ≠ some q := by simp [attempt_presets attempt]
  simp only [sent, received, if_neg keeps, attempt, succeeds, and_true, out, Option.toList_some,
    and_self]

structure Filed (q : Addr) (history : History) (k : Kernel) : Prop where
  absent : k.records q = none → sent q history = [] ∧ received q history = []
  present : ∀ mq, k.records q = some mq → capacity q history = some mq.bufferSize ∧
    mq.Follows (sent q history) (received q history)

theorem Filed.keep (filed : Filed q history k) (records : k'.records q = k.records q)
    (sends : sent q (⟨k, e, n, k'⟩ :: history) = sent q history)
    (receives : received q (⟨k, e, n, k'⟩ :: history) = received q history) :
    Filed q (⟨k, e, n, k'⟩ :: history) k' := by
  have same : capacity q (⟨k, e, n, k'⟩ :: history) = capacity q history := by
    rw [capacity, if_neg]
    rintro ⟨none, some⟩
    exact some (records.trans none)
  constructor
  · intro absent
    rw [sends, receives]
    exact filed.absent (records ▸ absent)
  · intro mq here
    rw [sends, receives, same]
    exact filed.present mq (records ▸ here)

theorem Filed.edit {mq' : MessageQueue} (filed : Filed q history k) (here : k.records q = some mq)
    (records : k'.records q = some mq') (size : mq'.bufferSize = mq.bufferSize)
    (follows : mq'.Follows (sent q (⟨k, e, n, k'⟩ :: history))
      (received q (⟨k, e, n, k'⟩ :: history))) :
    Filed q (⟨k, e, n, k'⟩ :: history) k' := by
  constructor
  · intro absent
    rw [records] at absent
    cases absent
  · intro mq'' there
    rw [records, Option.some.injEq] at there
    subst there
    refine ⟨?_, follows⟩
    rw [capacity, if_neg, size]
    · exact (filed.present mq here).1
    · rintro ⟨none, -⟩
      change k.records q = Option.none at none
      rw [here] at none
      cases none

theorem Filed.quiet (filed : Filed q history k) (records : k'.records q = k.records q)
    (keeps : k.presetQueue e ≠ some q) (fails : k.attempt e = none ∨ n.succeeds = false) :
    Filed q (⟨k, e, n, k'⟩ :: history) k' := by
  have idle : (∀ f fid, k.attempt e = some f → f.queue ≠ some (fid, q)) ∨ n.succeeds = false := by
    rcases fails with idle | fails
    · left
      intro f fid attempt
      rw [idle] at attempt
      cases attempt
    · exact .inr fails
  obtain ⟨sends, receives⟩ := unsent keeps idle
  exact filed.keep records sends receives

theorem Filed.stores {fid cell : Nat} {r : Addr} {message : Int} (filed : Filed q history k)
    (stocked : k.Stocked) (attempt : k.attempt e = some (.psend fid r message))
    (here : k.records r = some mq) (inside : cell = mq.writeIndex.toNat)
    (room : mq.nbMessages ≠ mq.bufferSize) (succeeds : n.succeeds = true)
    (records : k'.records = Function.update k.records r (some (mq.stored cell message))) :
    Filed q (⟨k, e, n, k'⟩ :: history) k' := by
  obtain ⟨sends, receives⟩ : sent q (⟨k, e, n, k'⟩ :: history) =
        (if r = q then sent q history ++ [message] else sent q history) ∧
      received q (⟨k, e, n, k'⟩ :: history) = received q history :=
    sent_stored attempt succeeds
  by_cases same : r = q
  · subst same
    rw [if_pos rfl] at sends
    have follows := (filed.present mq here).2
    have limit := follows.room
    have there : k'.records r = some (mq.stored cell message) := by
      rw [records, Function.update_self]
    apply filed.edit here there rfl
    rw [sends, receives]
    exact follows.stored (stocked.buffers r mq here).2.1 (by omega) inside
  · rw [if_neg same] at sends
    refine filed.keep ?_ sends receives
    rw [records, Function.update_of_ne (Ne.symm same)]

theorem Filed.takes {fid cell : Nat} {r : Addr} (filed : Filed q history k)
    (stocked : k.Stocked) (attempt : k.attempt e = some (.preceive fid r))
    (here : k.records r = some mq) (inside : cell = mq.readIndex.toNat)
    (filled : mq.nbMessages ≠ 0) (succeeds : n.succeeds = true)
    (out : n.out = some (mq.cells cell))
    (records : k'.records = Function.update k.records r (some mq.taken)) :
    Filed q (⟨k, e, n, k'⟩ :: history) k' := by
  obtain ⟨sends, receives⟩ : sent q (⟨k, e, n, k'⟩ :: history) = sent q history ∧
      received q (⟨k, e, n, k'⟩ :: history) =
        if r = q then received q history ++ [mq.cells cell] else received q history :=
    received_taken attempt succeeds out
  by_cases same : r = q
  · subst same
    rw [if_pos rfl] at receives
    have follows := (filed.present mq here).2
    have there : k'.records r = some mq.taken := by rw [records, Function.update_self]
    apply filed.edit here there rfl
    rw [sends, receives]
    exact follows.taken (stocked.buffers r mq here).2.1 filled inside
  · rw [if_neg same] at receives
    refine filed.keep ?_ sends receives
    rw [records, Function.update_of_ne (Ne.symm same)]

theorem Filed.creates {count : Int} (filed : Filed q history k) (fresh : k.records q = none)
    (idle : k.attempt e = none) (keeps : k.presetQueue e = none) (named : e.count = some count)
    (records : k'.records q = some mq) (size : mq.bufferSize = count) (positive : 0 < count)
    (read : mq.readIndex = 0) (write : mq.writeIndex = 0) (empty : mq.nbMessages = 0) :
    Filed q (⟨k, e, n, k'⟩ :: history) k' := by
  obtain ⟨sends, receives⟩ := filed.absent fresh
  constructor
  · intro absent
    rw [records] at absent
    cases absent
  · intro mq' there
    rw [records, Option.some.injEq] at there
    subst there
    constructor
    · rw [capacity, if_pos ⟨fresh, by simp [records]⟩, size]
      exact named
    · have sends' : sent q (⟨k, e, n, k'⟩ :: history) = [] := by
        simp only [sent, keeps, idle, sends]
        simp
      have receives' : received q (⟨k, e, n, k'⟩ :: history) = [] := by
        simp only [received, keeps, idle, receives]
        simp
      rw [sends', receives']
      exact .fresh (size ▸ positive) read write empty

theorem Filed.resets {r : Addr} {blocked : Int} (filed : Filed q history k) (stocked : k.Stocked)
    (idle : k.attempt e = none) (named : k.presetQueue e = some r) (here : k.records r = some mq)
    (records : k'.records = Function.update k.records r (some (mq.cleared blocked))) :
    Filed q (⟨k, e, n, k'⟩ :: history) k' := by
  by_cases same : r = q
  · subst same
    have there : k'.records r = some (mq.cleared blocked) := by
      rw [records, Function.update_self]
    apply filed.edit here there rfl
    rw [sent, received, if_pos named, if_pos named]
    exact .fresh (stocked.buffers r mq here).2.1 rfl rfl rfl
  · apply filed.quiet _ _ (.inl idle)
    · rw [records, Function.update_of_ne (Ne.symm same)]
    · simp [named, same]

theorem Filed.step (filed : Filed q history k) (consistent : k.Consistent) (stocked : k.Stocked)
    (traffic : Traffic k a e n k') : Filed q (⟨k, e, n, k'⟩ :: history) k' := by
  have idly {o : Option Addr} (keeps : o = none) : o ≠ some q := by simp [keeps]
  cases traffic with
  | quiet idle keeps spares own posts records queues =>
      exact filed.quiet (by rw [records]) (idly keeps) (.inl idle)
  | halves idle keeps spares own free posts records queues =>
      exact filed.quiet (by rw [records]) (idly keeps) (.inl idle)
  | creates named idle keeps spares own free positive posts records queues =>
      have fresh := (consistent.fresh k.nextBlock le_rfl).2
      by_cases same : q = k.nextBlock
      · subst same
        have new := congrFun records k.nextBlock
        rw [Function.update_self] at new
        exact filed.creates fresh idle keeps named new rfl positive rfl rfl rfl
      · apply filed.quiet _ (idly keeps) (.inl idle)
        rw [records, Function.update_of_ne same]
  | deletes idle keeps named slot own posts records queues =>
      exact filed.quiet (by rw [records]) (idly keeps) (.inl idle)
  | resets idle named spares own here posts records queues =>
      exact filed.resets stocked idle named here records
  | @fails f fid r mq mq' attempt inside resumed here cause outcome after posts records queues =>
      have failed : n.succeeds = false := by
        rw [outcome]
        rfl
      have keeps := idly (attempt_presets attempt)
      have calm : sent q (⟨k, e, n, k'⟩ :: history) = sent q history ∧
          received q (⟨k, e, n, k'⟩ :: history) = received q history := by
        simp only [sent, received, if_neg keeps, failed]
        constructor <;> split <;> simp
      by_cases same : r = q
      · subst same
        have size : mq'.bufferSize = mq.bufferSize := by
          rcases after with rfl | ⟨-, -, rfl⟩ <;> rfl
        have there : k'.records r = some mq' := by rw [records, Function.update_self]
        apply filed.edit here there size
        rw [calm.1, calm.2]
        have follows := (filed.present mq here).2
        rcases after with rfl | ⟨-, -, rfl⟩
        · exact follows.same rfl rfl rfl rfl rfl
        · exact follows
      · apply filed.keep _ calm.1 calm.2
        rw [records, Function.update_of_ne (Ne.symm same)]
  | @blocks f fid r mq attempt inside here full again outcome posts records queues =>
      apply filed.quiet (by rw [records]) (idly (attempt_presets attempt)) (.inr _)
      rw [outcome]
      cases f with
      | done => cases inside
      | _ => rfl
  | stores woken attempt here inside outcome first room again posts records queues =>
      apply filed.stores stocked attempt here (bufferCell_eq inside) _ _ records
      · cases woken with
        | none => exact (room rfl).1
        | some b =>
            have positive := (stocked.buffers _ _ here).2.1
            have empty := (first b rfl).1
            omega
      · rcases outcome with rfl | rfl <;> rfl
  | takes woken attempt here inside outcome filled first rest again posts records queues =>
      apply filed.takes stocked attempt here (bufferCell_eq inside) filled _ _ records
      · rcases outcome with rfl | rfl <;> rfl
      · rcases outcome with rfl | rfl <;> rfl

end Kernel

open Kernel

variable {k : Kernel} {q : Addr} {history : History}

theorem Booted.filed (booted : Booted k) : Filed q [] k := by
  obtain ⟨p, -, -, -, -, -, -, -, -, -, -, records, -⟩ := booted.state
  constructor
  · exact fun _ => ⟨rfl, rfl⟩
  · intro mq here
    rw [records] at here
    cases here

theorem filed_of_run (run : Reached history k) : Filed q history k := by
  apply run.always
  · exact fun k booted => booted.filed
  · intro history k e n k' run filed taken
    obtain ⟨a, acted⟩ := acted_of_run run taken
    exact filed.step (consistent_of_run run).1 (stocked_of_run run).1 acted.traffic

theorem queue_is_bounded_fifo {fid : Nat} {mq : MessageQueue} (run : Reached history k)
    (slot : k.queues fid = some q) (here : k.records q = some mq) :
    ∃ count, capacity q history = some count ∧
      BoundedFifo k mq count (sent q history) (received q history) := by
  obtain ⟨set, follows⟩ := (filed_of_run run).present mq here
  obtain ⟨-, positive, small⟩ := (stocked_of_run run).1.buffers q mq here
  have allocated := (stocked_of_run run).1.queues fid q mq slot here
  obtain ⟨width, size⟩ := Int.eq_ofNat_of_zero_le (Int.le_of_lt positive)
  obtain ⟨keeps, reads, writes, fill, room, order⟩ := follows
  have longer := order.length_le
  rw [size, Int.toNat_natCast] at keeps reads writes allocated
  have wide : 0 < width := by omega
  have read := Nat.mod_lt (received q history).length wide
  have write := Nat.mod_lt (sent q history).length wide
  have reading : 0 ≤ mq.readIndex ∧ mq.readIndex < width := by omega
  have writing : 0 ≤ mq.writeIndex ∧ mq.writeIndex < width := by omega
  refine ⟨width, size ▸ set, ?_⟩
  constructor
  · exact size
  · omega
  · rw [allocated, Int.toNat_natCast]
  · omega
  · omega
  · exact reading
  · exact writing
  · rw [writes, reads, fill]
    calc (((sent q history).length % width : Nat) : Int)
        = ((received q history).length +
            ((sent q history).length - (received q history).length) : Int) % width := by
          rw [Int.natCast_emod]
          congr 1
          omega
      _ = (((received q history).length % width : Nat) +
            ((sent q history).length - (received q history).length) : Int) % width := by
          rw [Int.natCast_emod, Int.emod_add_emod]
  · exact bufferCell_inside (stocked_of_run run).1 slot here reading.1 (size ▸ reading.2)
  · exact bufferCell_inside (stocked_of_run run).1 slot here writing.1 (size ▸ writing.2)
  · have unread : mq.nbMessages.toNat =
        (sent q history).length - (received q history).length := by omega
    have place (i : Nat) : ((mq.readIndex + i) % (width : Int)).toNat =
        ((received q history).length + i) % width := by
      rw [reads, Int.natCast_emod, Int.emod_add_emod]
      norm_cast
    simp only [unread, place]
    exact keeps.contents order (by omega)

/-- The third message goes to the first cell again. -/
theorem queue_is_bounded_fifo_round : ∃ (history : History) (k : Kernel) (mq : MessageQueue),
    sent 3 history = [11, 12, 13] ∧ received 3 history = [11] ∧
      ∃ count, capacity 3 history = some count ∧
        BoundedFifo k mq count (sent 3 history) (received 3 history) := by
  obtain ⟨history, k, run, checked⟩ := reached_by
    [.call (.pcreate 2 true true), .call (.psend 0 11), .call (.psend 0 12),
      .call (.preceive 0), .call (.psend 0 13)]
    (fun history k => decide (sent 3 history = [11, 12, 13]) &&
      decide (received 3 history = [11]) && decide (k.queues 0 = some 3) && (k.records 3).isSome)
    (by decide +kernel)
  simp only [Bool.and_eq_true, decide_eq_true_eq, Option.isSome_iff_exists] at checked
  obtain ⟨⟨⟨sends, receives⟩, slot⟩, mq, here⟩ := checked
  exact ⟨history, k, mq, sends, receives, queue_is_bounded_fifo run slot here⟩

end IntelX86Kernel

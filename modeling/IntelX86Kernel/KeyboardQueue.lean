import IntelX86Kernel.Kbd
import IntelX86Kernel.Ring
import IntelX86Kernel.Transition

/-! What is typed and what `cons_read` takes. -/

namespace IntelX86Kernel

open Transition

abbrev ConsoleStep := Occurrence Console ConsoleEvent ConsoleAnswer

def Console.Booted (c : Console) : Prop := c = .initial

theorem Console.initial_booted : Console.initial.Booted := rfl

abbrev Typing (history : List ConsoleStep) (c : Console) : Prop :=
  Run Console.step Console.Booted history c

def typed : List ConsoleStep → List (BitVec 8)
  | [] => []
  | t :: past =>
      match t.event with
      | .keyboardData str => typed past ++ str.chars
      | .consEcho _ | .consRead .. | .turn _ => typed past

/-- The characters taken from the buffer, in order. -/
def taken : List ConsoleStep → List (BitVec 8)
  | [] => []
  | t :: past =>
      match t.outcome with
      | .took ch _ => taken past ++ [ch]
      | .printed _ | .done | .returned _ | .waits => taken past

/-- At most 999 characters are left waiting. -/
def Roomy (past : List ConsoleStep) (t : ConsoleStep) : Prop :=
  (typed (t :: past)).length ≤ (taken (t :: past)).length + 999

/-- Where nothing is left to be taken, less than a whole round has been typed. -/
def Fresh (past : List ConsoleStep) (t : ConsoleStep) : Prop :=
  ∀ pid, t.event = .turn pid → taken past = typed past → (typed past).length < BUFFER_SIZE

/-- What has been taken was typed first, and where nothing is left the call waits. -/
def InOrder (past : List ConsoleStep) (t : ConsoleStep) : Prop :=
  taken (t :: past) <+: typed (t :: past) ∧
    ∀ pid, t.event = .turn pid → taken past = typed past → t.outcome = .waits

variable {history past : List ConsoleStep} {c c' : Console} {e : ConsoleEvent}
  {answer : ConsoleAnswer} {written got str : List (BitVec 8)} {pid : Nat} {r : Reader}

structure Console.Follows (c : Console) (written got : List (BitVec 8)) : Prop where
  keeps : Ring.Keeps BUFFER_SIZE c.keyboardBuffer written
  blank : Ring.Blank 0 BUFFER_SIZE c.keyboardBuffer written
  noZero : 0 ∉ written
  writes : c.writePosition = written.length % BUFFER_SIZE
  reads : c.readPosition = got.length % BUFFER_SIZE
  order : got <+: written

theorem Console.Follows.of_eq (follows : c.Follows written got)
    (buffer : c'.keyboardBuffer = c.keyboardBuffer) (write : c'.writePosition = c.writePosition)
    (position : c'.readPosition = c.readPosition) : c'.Follows written got := by
  refine ⟨?_, ?_, follows.noZero, ?_, ?_, follows.order⟩
  · rw [buffer]
    exact follows.keeps
  · rw [buffer]
    exact follows.blank
  · rw [write]
    exact follows.writes
  · rw [position]
    exact follows.reads

theorem Console.Follows.initial : Console.initial.Follows [] [] :=
  ⟨.nil, fun _ _ _ => rfl, List.not_mem_nil, rfl, rfl, List.prefix_refl []⟩

theorem Console.Follows.stored (follows : c.Follows written got) {ch : BitVec 8} (nonzero : ch ≠ 0) :
    Follows { c with
      keyboardBuffer := Function.update c.keyboardBuffer c.writePosition ch
      writePosition := if c.writePosition + 1 = BUFFER_SIZE then 0 else c.writePosition + 1 }
      (written ++ [ch]) got := by
  refine ⟨?_, ?_, ?_, ?_, follows.reads, follows.order.trans (List.prefix_append _ _)⟩
  · dsimp only
    rw [follows.writes]
    exact follows.keeps.write
  · dsimp only
    rw [follows.writes]
    exact follows.blank.write
  · intro member
    rcases List.mem_append.mp member with old | new
    · exact follows.noZero old
    · exact nonzero (List.mem_singleton.mp new).symm
  · dsimp only
    rw [follows.writes, List.length_append, List.length_singleton, Ring.next_mod (by decide)]

theorem Console.Follows.keyboardData (follows : c.Follows written got) (noZero : 0 ∉ str) :
    (c.keyboardData str).1.Follows (written ++ str) got := by
  induction str generalizing c written with
  | nil =>
      rw [List.append_nil]
      exact follows
  | cons ch str ih =>
      have nonzero : ch ≠ 0 := fun zero => noZero (zero ▸ List.mem_cons_self)
      have rest := ih (follows.stored nonzero)
        (fun member => noZero (List.mem_cons_of_mem ch member))
      rw [List.append_assoc, List.singleton_append] at rest
      exact rest

theorem Console.Follows.cell (follows : c.Follows written got)
    (waiting : got.length < written.length)
    (room : written.length ≤ got.length + BUFFER_SIZE) :
    ∃ ch, written[got.length]? = some ch ∧ c.keyboardBuffer c.readPosition = ch ∧ ch ≠ 0 := by
  refine ⟨written[got.length], List.getElem?_eq_getElem waiting, ?_, fun zero => ?_⟩
  · rw [follows.reads]
    exact follows.keeps _ _ (List.getElem?_eq_getElem waiting) room
  · exact follows.noZero (zero ▸ List.getElem_mem waiting)

/-- A cell ahead of all that was typed is empty in the first round, and old later on. -/
theorem Console.Follows.ahead (follows : c.Follows written got) (all : got = written) :
    c.keyboardBuffer c.readPosition = 0 ↔ written.length < BUFFER_SIZE := by
  rw [follows.reads, all]
  constructor
  · intro empty
    by_contra round
    have old : written.length - BUFFER_SIZE < written.length := by
      have positive : 0 < BUFFER_SIZE := by decide
      omega
    have kept := follows.keeps _ _ (List.getElem?_eq_getElem old) (by omega)
    rw [← Nat.mod_eq_sub_mod (Nat.le_of_not_lt round), empty] at kept
    exact follows.noZero (kept ▸ List.getElem_mem old)
  · intro first
    rw [Nat.mod_eq_of_lt first]
    exact follows.blank _ first (Nat.le_refl _)

theorem Console.Follows.advance (follows : c.Follows written got) {ch : BitVec 8}
    (next : written[got.length]? = some ch) : c.advance.Follows written (got ++ [ch]) := by
  refine ⟨follows.keeps, follows.blank, follows.noZero, follows.writes, ?_, ?_⟩
  · rw [Console.advance, follows.reads, List.length_append, List.length_singleton,
      Ring.next_mod (by decide)]
    have last : got.length % BUFFER_SIZE = BUFFER_SIZE - 1 ↔
        got.length % BUFFER_SIZE + 1 = BUFFER_SIZE := by
      have positive : 0 < BUFFER_SIZE := by decide
      omega
    simp only [last]
  · obtain ⟨later, rfl⟩ := follows.order
    rw [List.getElem?_append_right (Nat.le_refl _), Nat.sub_self] at next
    cases later with
    | nil => cases next
    | cons first later =>
        cases next
        exact ⟨later, by rw [List.append_assoc, List.singleton_append]⟩

inductive Reader.Takes (r : Reader) (ch : BitVec 8) :
    Option Reader → Option (List (BitVec 8)) → Prop where
  | line (ended : ch = 13) : Takes r ch none (some r.text)
  | more (inside : ch ≠ 13) (short : (r.put ch).charLength < (r.put ch).length) :
      Takes r ch (some (r.put ch)) none
  | full (inside : ch ≠ 13) (long : (r.put ch).length ≤ (r.put ch).charLength) :
      Takes r ch none (some (r.put ch).text)

theorem Console.turn_eq (c : Console) (pid : Nat) (r : Reader) :
    (c.keyboardBuffer c.readPosition = 0 ∧ c.turn pid r = (c, .waits)) ∨
      (c.keyboardBuffer c.readPosition ≠ 0 ∧ ∃ r' text,
        r.Takes (c.keyboardBuffer c.readPosition) r' text ∧
        c.turn pid r = (c.advance.setReader pid r',
          .took (c.keyboardBuffer c.readPosition) text)) := by
  rw [Console.turn]
  split
  · next empty => exact .inl ⟨empty, rfl⟩
  · next found =>
    refine .inr ⟨found, ?_⟩
    split
    · next ended => exact ⟨none, _, .line ended, rfl⟩
    · next inside =>
      dsimp only
      split
      · next short => exact ⟨_, none, .more inside short, rfl⟩
      · next long => exact ⟨none, _, .full inside (Nat.le_of_not_lt long), rfl⟩

theorem Console.Follows.step (follows : c.Follows (typed past) (taken past))
    (roomy : (typed past).length ≤ (taken past).length + 999) (run : c.step e = .ok (c', answer))
    (fresh : Fresh past ⟨c, e, answer, c'⟩) :
    c'.Follows (typed (⟨c, e, answer, c'⟩ :: past)) (taken (⟨c, e, answer, c'⟩ :: past)) ∧
      ∀ pid, e = .turn pid → taken past = typed past → answer = .waits := by
  cases e with
  | keyboardData str =>
      cases run
      exact ⟨follows.keyboardData str.noZero, nofun⟩
  | consEcho on =>
      cases run
      exact ⟨follows.of_eq rfl rfl rfl, nofun⟩
  | consRead pid length =>
      rw [Console.step] at run
      split at run
      · cases run
      · split at run
        · cases run
          exact ⟨follows, nofun⟩
        · cases run
          exact ⟨follows.of_eq rfl rfl rfl, nofun⟩
  | turn pid =>
      rw [Console.step] at run
      split at run
      · cases run
      · next r reading =>
        rcases c.turn_eq pid r with ⟨empty, waits⟩ | ⟨found, r', text, -, took⟩
        · rw [waits] at run
          cases run
          exact ⟨follows, fun _ _ _ => rfl⟩
        · have behind : taken past ≠ typed past := by
            intro all
            exact found ((follows.ahead all).mpr (fresh pid rfl all))
          have waiting : (taken past).length < (typed past).length := by
            refine Nat.lt_of_le_of_ne follows.order.length_le fun same => behind ?_
            exact follows.order.eq_of_length same
          obtain ⟨ch, next, here, -⟩ := follows.cell waiting
            (Nat.le_trans roomy (Nat.add_le_add_left (by decide) _))
          rw [took, here] at run
          cases run
          exact ⟨(follows.advance next).of_eq rfl rfl rfl,
            fun _ _ all => absurd all behind⟩

theorem follows_of_run (run : Typing history c) (roomy : Meets Roomy history)
    (fresh : Meets Fresh history) :
    c.Follows (typed history) (taken history) ∧ Meets InOrder history := by
  induction run with
  | start booted =>
      rw [Console.Booted] at booted
      subst booted
      exact ⟨.initial, trivial⟩
  | @next past c c' e answer run taking ih =>
      obtain ⟨follows, inOrder⟩ := ih roomy.2 fresh.2
      have room : (typed past).length ≤ (taken past).length + 999 := by
        cases past with
        | nil => exact Nat.zero_le _
        | cons t past => exact roomy.2.1
      obtain ⟨follows', waits⟩ := follows.step room taking fresh.1
      exact ⟨follows', ⟨follows'.order, waits⟩, inOrder⟩

/-- While at most 999 characters are left waiting, the keyboard is a queue exactly when no
call looks for a character with none left after a whole round of the buffer. -/
theorem keyboard_is_queue (run : Typing history c) (roomy : Meets Roomy history) :
    Meets InOrder history ↔ Meets Fresh history := by
  refine ⟨fun inOrder => ?_, fun fresh => (follows_of_run run roomy fresh).2⟩
  induction run with
  | start => trivial
  | @next past c c' e answer run taking ih =>
      have fresh := ih roomy.2 inOrder.2
      refine ⟨fun pid turn all => ?_, fresh⟩
      obtain ⟨follows, -⟩ := follows_of_run run roomy.2 fresh
      have waits := inOrder.1.2 pid turn all
      change e = .turn pid at turn
      change answer = .waits at waits
      subst turn
      subst waits
      rw [Console.step] at taking
      split at taking
      · cases taking
      · next r reading =>
        rcases c.turn_eq pid r with ⟨empty, -⟩ | ⟨found, r', text, -, took⟩
        · exact (follows.ahead all).mp empty
        · rw [took] at taking
          cases taking

instance (past : List ConsoleStep) (t : ConsoleStep) : Decidable (Roomy past t) :=
  inferInstanceAs (Decidable (_ ≤ _))

instance (past : List ConsoleStep) (t : ConsoleStep) : Decidable (Fresh past t) :=
  match event : t.event with
  | .turn _ => decidable_of_iff (taken past = typed past → (typed past).length < BUFFER_SIZE)
      ⟨fun fresh _ _ => fresh, fun fresh => fresh _ event⟩
  | .keyboardData _ | .consEcho _ | .consRead .. =>
      .isTrue fun _ turn => by rw [event] at turn; cases turn

/-- A reader that takes what is typed and waits when nothing is left. -/
theorem keyboard_is_queue_waits : ∃ history c, Typing history c ∧ history.length = 6 ∧
    taken history = [97, 98] ∧ Meets InOrder history := by
  obtain ⟨history, c, run, checked⟩ := reaches_run Console.step Console.initial_booted
    [.consRead 1 10, .turn 1, .keyboardData ⟨[97, 98], by decide⟩, .turn 1, .turn 1,
      .turn 1]
    (fun history _ => decide (history.length = 6) && decide (taken history = [97, 98]) &&
      decide (Meets Roomy history) && decide (Meets Fresh history))
    (by decide +kernel)
  simp only [Bool.and_eq_true, decide_eq_true_eq] at checked
  obtain ⟨⟨⟨length, got⟩, roomy⟩, fresh⟩ := checked
  exact ⟨history, c, run, length, got, (keyboard_is_queue run roomy).mpr fresh⟩

theorem typing_rounds (n : Nat) (small : n < 2000) : ∃ history c r, Typing history c ∧
    Meets Roomy history ∧ Meets Fresh history ∧ taken history = typed history ∧
    (typed history).length = n ∧ c.readers 1 = some r ∧ r.length = 2000 ∧ r.charLength = n := by
  induction n with
  | zero =>
      have taking : Console.initial.step (.consRead 1 2000) =
        .ok (Console.initial.setReader 1 (some ⟨2000, 0, fun _ => 0⟩), .done) := rfl
      exact ⟨_, _, _, (Run.start Console.initial_booted).next taking, ⟨Nat.zero_le _, trivial⟩,
        ⟨nofun, trivial⟩, rfl, rfl, rfl, rfl, rfl⟩
  | succ n ih =>
      obtain ⟨history, c, r, run, roomy, fresh, same, length, reading, request, read⟩ :=
        ih (Nat.lt_of_succ_lt small)
      have noZero : (0 : BitVec 8) ∉ [(97 : BitVec 8)] := by decide
      let c₁ := (c.keyboardData [97]).1
      have typing : c.step (.keyboardData ⟨[97], noZero⟩) =
        .ok (c₁, .printed (c.keyboardData [97]).2) := rfl
      have reading₁ : c₁.readers 1 = some r := reading
      have follows := (follows_of_run run roomy fresh).1.keyboardData noZero
      rw [same] at follows
      obtain ⟨ch, next, here, -⟩ := follows.cell (by simp) (by simp [BUFFER_SIZE])
      rw [List.getElem?_append_right (Nat.le_refl _), Nat.sub_self] at next
      cases next
      have count : (r.put 97).charLength = n + 1 := congrArg (· + 1) read
      have request' : (r.put 97).length = 2000 := request
      rcases c₁.turn_eq 1 r with ⟨empty, -⟩ | ⟨-, r', text, takes, took⟩
      · rw [here] at empty
        cases empty
      · rw [here] at takes took
        cases takes with
        | line ended => cases ended
        | full inside long => omega
        | more inside short =>
            have taking : c₁.step (.turn 1) = .ok (c₁.advance.setReader 1 (some (r.put 97)),
                .took 97 none) := by
              rw [Console.step, reading₁]
              exact congrArg Except.ok took
            refine ⟨_, _, r.put 97, (run.next typing).next taking, ⟨?_, ?_, roomy⟩,
              ⟨?_, nofun, fresh⟩, ?_, ?_, ?_, request', count⟩
            · change (typed history ++ [97]).length ≤ (taken history ++ [97]).length + 999
              rw [same]
              exact Nat.le_add_right _ _
            · change (typed history ++ [97]).length ≤ (taken history).length + 999
              rw [same, List.length_append]
              exact Nat.add_le_add_left (by decide) _
            · intro pid turn all
              change taken history = typed history ++ [97] at all
              rw [same] at all
              exact absurd (congrArg List.length all) (by simp)
            · change taken history ++ [97] = typed history ++ [97]
              rw [same]
            · change (typed history ++ [97]).length = n + 1
              rw [List.length_append, length]
              rfl
            · exact Console.setReader_self _ _ _

/-- After a thousand characters, all of them taken, the call takes the oldest one again. -/
theorem keyboard_repeats : ¬ ∀ history c, Typing history c → Meets Roomy history →
    Meets InOrder history := by
  intro inOrder
  obtain ⟨history, c, r, run, roomy, fresh, same, length, reading, -⟩ :=
    typing_rounds 1000 (by decide)
  have follows := (follows_of_run run roomy fresh).1
  rcases c.turn_eq 1 r with ⟨empty, -⟩ | ⟨found, r', text, -, took⟩
  · have first := (follows.ahead same).mp empty
    rw [length] at first
    exact Nat.lt_irrefl _ first
  · have taking : c.step (.turn 1) = .ok (c.advance.setReader 1 r',
        .took (c.keyboardBuffer c.readPosition) text) := by
      rw [Console.step, reading]
      exact congrArg Except.ok took
    have room : Roomy history ⟨c, .turn 1, .took (c.keyboardBuffer c.readPosition) text,
        c.advance.setReader 1 r'⟩ := by
      change (typed history).length ≤ (taken history ++ [_]).length + 999
      rw [same, List.length_append, Nat.add_assoc]
      exact Nat.le_add_right _ _
    have waits := (inOrder _ _ (run.next taking) ⟨room, roomy⟩).1.2 1 rfl same
    cases waits

end IntelX86Kernel

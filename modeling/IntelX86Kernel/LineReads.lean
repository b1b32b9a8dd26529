import IntelX86Kernel.TypedLines

/-! What a call of `cons_read` does with the characters that wait in the buffer. -/

namespace IntelX86Kernel

open Transition

def editStep (text : List (BitVec 8)) (ch : BitVec 8) : List (BitVec 8) :=
  if ch = 127 then text.dropLast else if ch = 13 then text else text ++ [ch]

/-- The text of a line, with the carriage return at its end if there is one. -/
def lineEdit (line : List (BitVec 8)) : List (BitVec 8) := line.foldl editStep []

/-- The line ends with a carriage return or fills a text of this length. -/
def LineEnds (length : Nat) (text line : List (BitVec 8)) : Prop :=
  line.getLast? = some 13 ∨ (line.foldl editStep text).length = length

instance (length : Nat) (text line : List (BitVec 8)) : Decidable (LineEnds length text line) :=
  inferInstanceAs (Decidable (_ ∨ _))

def Reader.written (r : Reader) (ch : BitVec 8) : Option Nat :=
  if ch = 0 ∨ ch = 13 ∨ ch = 127 then none else some r.charLength

def WritesShort (length : Nat) (t : ConsoleStep) : Prop :=
  ∀ pid r i, t.event = .turn pid → t.before.readers pid = some r →
    r.written (t.before.keyboardBuffer t.before.readPosition) = some i → i < length

namespace Console

structure Waits (c : Console) (waiting : List (BitVec 8)) : Prop where
  reading : c.readPosition < BUFFER_SIZE
  cells : ∀ i ch, waiting[i]? = some ch →
    c.keyboardBuffer ((c.readPosition + i) % BUFFER_SIZE) = ch
  noZero : 0 ∉ waiting

/-- A call of `cons_read` that takes the characters of `line` and returns `text`. -/
structure Reads (c : Console) (pid length : Nat) (line text : List (BitVec 8)) (c' : Console) :
    Prop where
  run : ∃ t history, exec Console.step [] c
      (.consRead pid length :: List.replicate line.length (.turn pid)) = .ok (t :: history, c') ∧
    (∃ ch, t.outcome = .took ch (some text)) ∧ ∀ u ∈ t :: history, WritesShort length u
  short : text.length ≤ length
  position : c'.readPosition = (c.readPosition + line.length) % BUFFER_SIZE
  buffer : c'.keyboardBuffer = c.keyboardBuffer
  write : c'.writePosition = c.writePosition
  readers : c'.readers = c.readers

end Console

variable {c c' : Console} {pid length : Nat} {r : Reader} {ch : BitVec 8}
  {waiting rest line text : List (BitVec 8)} {history : List ConsoleStep}

theorem Reader.text_edit (inside : ch ≠ 13) : (r.put ch).text = editStep r.text ch := by
  rw [Reader.text_put, editStep, if_neg inside]

theorem lineEnds_nil (inside : text.length < length) : ¬ LineEnds length text [] := by
  rintro (last | full)
  · cases last
  · exact absurd full (Nat.ne_of_lt inside)

theorem lineEnds_cons (inside : ch ≠ 13) :
    LineEnds length text (ch :: line) ↔ LineEnds length (editStep text ch) line := by
  have last : (ch :: line).getLast? = some 13 ↔ line.getLast? = some 13 := by
    cases line with
    | nil =>
        constructor
        · intro last
          exact absurd (Option.some.inj last) inside
        · intro last
          cases last
    | cons next line => rw [List.getLast?_cons_cons]
  rw [LineEnds, LineEnds, last, List.foldl_cons]

namespace Console

theorem Waits.head (waits : c.Waits (ch :: rest)) :
    c.keyboardBuffer c.readPosition = ch ∧ ch ≠ 0 := by
  have first := waits.cells 0 ch rfl
  rw [Nat.add_zero, Nat.mod_eq_of_lt waits.reading] at first
  refine ⟨first, ?_⟩
  rintro rfl
  exact waits.noZero List.mem_cons_self

theorem advance_position (reading : c.readPosition < BUFFER_SIZE) :
    c.advance.readPosition = (c.readPosition + 1) % BUFFER_SIZE := by
  have positive : 0 < BUFFER_SIZE := by decide
  have last : c.readPosition % BUFFER_SIZE = BUFFER_SIZE - 1 ↔
      c.readPosition % BUFFER_SIZE + 1 = BUFFER_SIZE := by omega
  rw [Ring.next_mod positive, Nat.mod_eq_of_lt reading]
  rw [Nat.mod_eq_of_lt reading] at last
  simp only [Console.advance, last]

theorem Waits.advance (waits : c.Waits (ch :: rest)) {r' : Option Reader} :
    (c.advance.setReader pid r').Waits rest := by
  have position := advance_position waits.reading
  constructor
  · change c.advance.readPosition < BUFFER_SIZE
    rw [position]
    exact Nat.mod_lt _ (by decide)
  · intro i ch' found
    have next := waits.cells (i + 1) ch' found
    change c.keyboardBuffer ((c.advance.readPosition + i) % BUFFER_SIZE) = ch'
    rw [position, Nat.mod_add_mod, Nat.add_right_comm, Nat.add_assoc, next]
  · intro member
    exact waits.noZero (List.mem_cons_of_mem ch member)

/-- The turns of a call that has read `text` and is asked for `length` characters: it takes
the characters of `line`, which is the first that ends. -/
structure Finishes (past : List ConsoleStep) (c : Console) (pid length : Nat)
    (text line rest : List (BitVec 8)) (c' : Console) : Prop where
  run : ∃ t steps,
    exec Console.step past c (List.replicate line.length (.turn pid)) =
        .ok (t :: (steps ++ past), c') ∧
      (∃ ch, t.outcome = .took ch (some (line.foldl editStep text))) ∧
      ∀ u ∈ t :: steps, WritesShort length u
  ends : LineEnds length text line
  first : ∀ part, part <+: line → part ≠ line → ¬ LineEnds length text part
  short : (line.foldl editStep text).length ≤ length
  position : c'.readPosition = (c.readPosition + line.length) % BUFFER_SIZE
  buffer : c'.keyboardBuffer = c.keyboardBuffer
  write : c'.writePosition = c.writePosition
  readers : c'.readers = Function.update c.readers pid none
  left : c'.Waits rest

variable {past : List ConsoleStep} {answer : ConsoleAnswer}

theorem turn_writes (reading : c.readers pid = some r) (room : r.charLength < r.length) :
    WritesShort r.length ⟨c, .turn pid, answer, c'⟩ := by
  intro other r' i event reading' written
  cases event
  change c.readers pid = some r' at reading'
  rw [reading, Option.some.injEq] at reading'
  subst reading'
  rw [Reader.written] at written
  split at written
  · cases written
  · rw [Option.some.injEq] at written
    exact written ▸ room

theorem Finishes.now (waits : c.Waits (ch :: rest)) (reading : c.readers pid = some r)
    (room : r.charLength < r.length) (edited : text = editStep r.text ch)
    (took : c.turn pid r = (c.advance.setReader pid none, .took ch (some text)))
    (ends : LineEnds r.length r.text [ch]) (short : text.length ≤ r.length) :
    Finishes past c pid r.length r.text [ch] rest (c.advance.setReader pid none) := by
  subst edited
  constructor
  · refine ⟨⟨c, .turn pid, .took ch (some (editStep r.text ch)), c.advance.setReader pid none⟩, [],
      ?_, ⟨ch, rfl⟩, ?_⟩
    · simp only [List.length_singleton, List.replicate_one, exec, Console.step, reading, took]
      rfl
    · intro u member
      rw [List.mem_singleton] at member
      subst member
      exact turn_writes reading room
  · exact ends
  · intro part prefix_ other
    cases part with
    | nil => exact lineEnds_nil (r.text_length ▸ room)
    | cons head tail =>
        obtain ⟨same, tail_⟩ := List.cons_prefix_cons.mp prefix_
        rw [same, List.prefix_nil.mp tail_] at other
        exact absurd rfl other
  · exact short
  · exact advance_position waits.reading
  · rfl
  · rfl
  · rfl
  · exact waits.advance

theorem Finishes.later (waits : c.Waits (ch :: waiting)) (reading : c.readers pid = some r)
    (room : r.charLength < r.length) (inside : ch ≠ 13)
    (took : c.turn pid r = (c.advance.setReader pid (some (r.put ch)), .took ch none))
    (rest_ : Finishes (⟨c, .turn pid, .took ch none, c.advance.setReader pid (some (r.put ch))⟩ :: past)
      (c.advance.setReader pid (some (r.put ch))) pid (r.put ch).length (r.put ch).text line rest c') :
    Finishes past c pid r.length r.text (ch :: line) rest c' := by
  obtain ⟨⟨t, steps, ran, outcome, writes⟩, ends, first, short, position, buffer, write, readers,
    left⟩ := rest_
  rw [Reader.put_length] at ends first short writes
  rw [Reader.text_edit inside] at ends first short outcome
  constructor
  · refine ⟨t, steps ++ [⟨c, .turn pid, .took ch none, c.advance.setReader pid (some (r.put ch))⟩],
      ?_, outcome, ?_⟩
    · simp only [List.length_cons, List.replicate_succ, exec, Console.step, reading, took]
      rw [ran, List.append_assoc, List.singleton_append]
    · intro u member
      rcases List.mem_cons.mp member with rfl | member
      · exact writes u List.mem_cons_self
      · rcases List.mem_append.mp member with before | last
        · exact writes u (List.mem_cons_of_mem t before)
        · rw [List.mem_singleton] at last
          subst last
          exact turn_writes reading room
  · exact (lineEnds_cons inside).mpr ends
  · intro part prefix_ other
    cases part with
    | nil => exact lineEnds_nil (r.text_length ▸ room)
    | cons head tail =>
        obtain ⟨rfl, tail_⟩ := List.cons_prefix_cons.mp prefix_
        rw [lineEnds_cons inside]
        apply first tail tail_
        rintro rfl
        exact other rfl
  · exact short
  · rw [position]
    change (c.advance.readPosition + line.length) % BUFFER_SIZE = _
    rw [advance_position waits.reading, Nat.mod_add_mod, List.length_cons, Nat.add_right_comm,
      Nat.add_assoc]
  · exact buffer
  · exact write
  · rw [readers]
    exact Function.update_idem _ _ _
  · exact left

theorem Waits.finishes (past : List ConsoleStep) (waits : c.Waits waiting) (reading : c.readers pid = some r)
    (room : r.charLength < r.length)
    (complete : ∃ line, line <+: waiting ∧ LineEnds r.length r.text line) :
    ∃ line rest c', waiting = line ++ rest ∧
      Finishes past c pid r.length r.text line rest c' := by
  induction waiting generalizing c r past with
  | nil =>
      obtain ⟨line, prefix_, ends⟩ := complete
      rw [List.prefix_nil.mp prefix_] at ends
      exact absurd ends (lineEnds_nil (r.text_length ▸ room))
  | cons ch waiting ih =>
      obtain ⟨here, nonzero⟩ := waits.head
      rcases c.turn_eq pid r with ⟨empty, -⟩ | ⟨-, r', text, takes, took⟩
      · exact absurd (here ▸ empty) nonzero
      · rw [here] at takes took
        cases takes with
        | line ended =>
            subst ended
            have same : r.text = editStep r.text 13 := by simp [editStep]
            refine ⟨[13], waiting, _, rfl, .now waits reading room same took (.inl rfl) ?_⟩
            rw [r.text_length]
            exact Nat.le_of_lt room
        | full inside long =>
            have filled : (editStep r.text ch).length = r.length := by
              have most := r.put_le ch
              rw [Reader.put_length] at long
              rw [← Reader.text_edit inside, Reader.text_length]
              omega
            exact ⟨[ch], waiting, _, rfl, .now waits reading room (Reader.text_edit inside) took
              (.inr filled) (Reader.text_edit inside ▸ Nat.le_of_eq filled)⟩
        | more inside short =>
            have next : ∃ line, line <+: waiting ∧
                LineEnds (r.put ch).length (r.put ch).text line := by
              obtain ⟨line, prefix_, ends⟩ := complete
              cases line with
              | nil => exact absurd ends (lineEnds_nil (r.text_length ▸ room))
              | cons head tail =>
                  obtain ⟨rfl, tail_⟩ := List.cons_prefix_cons.mp prefix_
                  refine ⟨tail, tail_, ?_⟩
                  rw [Reader.put_length, Reader.text_edit inside]
                  exact (lineEnds_cons inside).mp ends
            have waits' : (c.advance.setReader pid (some (r.put ch))).Waits waiting := waits.advance
            obtain ⟨line, rest, c', rfl, finishes⟩ :=
              ih (⟨c, .turn pid, .took ch none, c.advance.setReader pid (some (r.put ch))⟩ :: past)
                waits' (Console.setReader_self _ _ _) short next
            exact ⟨ch :: line, rest, c', rfl, .later waits reading room inside took finishes⟩

/-- The call takes the shortest part of what waits that ends its line, and leaves the rest. -/
structure ReadsLine (c : Console) (pid length : Nat) (waiting line rest : List (BitVec 8))
    (c' : Console) : Prop where
  split : waiting = line ++ rest
  ends : LineEnds length [] line
  shortest : ∀ part, part <+: line → part ≠ line → ¬ LineEnds length [] part
  reads : c.Reads pid length line (lineEdit line) c'
  left : c'.Waits rest

theorem Waits.readsLine (waits : c.Waits waiting) (idle : c.readers pid = none)
    (positive : 0 < length) (complete : ∃ line, line <+: waiting ∧ LineEnds length [] line) :
    ∃ line rest c', c.ReadsLine pid length waiting line rest c' := by
  let r : Reader := ⟨length, 0, fun _ => 0⟩
  have called : c.step (.consRead pid length) = .ok (c.setReader pid (some r), .done) := by
    rw [Console.step, idle]
    exact if_neg (Nat.ne_of_gt positive)
  have waits' : (c.setReader pid (some r)).Waits waiting := ⟨waits.reading, waits.cells, waits.noZero⟩
  obtain ⟨line, rest, c', rfl, finishes⟩ := waits'.finishes
    [⟨c, .consRead pid length, .done, c.setReader pid (some r)⟩] (Console.setReader_self _ _ _)
    positive complete
  obtain ⟨⟨t, steps, ran, outcome, writes⟩, ends, first, short, position, buffer, write, readers,
    left⟩ := finishes
  refine ⟨line, rest, c', rfl, ends, first, ?_, left⟩
  constructor
  · refine ⟨t, steps ++ [⟨c, .consRead pid length, .done, c.setReader pid (some r)⟩], ?_, outcome, ?_⟩
    · simp only [exec, called]
      exact ran
    · intro u member
      rcases List.mem_cons.mp member with rfl | member
      · exact writes u List.mem_cons_self
      · rcases List.mem_append.mp member with before | last
        · exact writes u (List.mem_cons_of_mem t before)
        · rw [List.mem_singleton] at last
          subst last
          intro other r' i event
          cases event
  · exact short
  · exact position
  · exact buffer
  · exact write
  · rw [readers]
    change Function.update (Function.update c.readers pid (some r)) pid none = c.readers
    rw [Function.update_idem, ← idle, Function.update_eq_self]

theorem Waits.readsEmpty (waits : c.Waits (13 :: rest)) (idle : c.readers pid = none)
    (positive : 0 < length) : ∃ c', c.ReadsLine pid length (13 :: rest) [13] rest c' := by
  have ends : LineEnds length [] [13] := .inl rfl
  obtain ⟨line, left, c', reads⟩ := waits.readsLine idle positive ⟨[13], ⟨rest, rfl⟩, ends⟩
  have split := reads.split
  cases line with
  | nil => exact absurd reads.ends (lineEnds_nil positive)
  | cons ch line =>
      cases split
      have none : line = [] := by
        by_contra more
        apply reads.shortest [13] ⟨line, rfl⟩ _ ends
        intro same
        exact more (List.cons_eq_cons.mp same).2.symm
      subst none
      exact ⟨c', reads⟩

theorem Follows.waits {written got : List (BitVec 8)} (follows : c.Follows written got)
    (room : written.length ≤ got.length + BUFFER_SIZE) : c.Waits (written.drop got.length) := by
  constructor
  · rw [follows.reads]
    exact Nat.mod_lt _ (by decide)
  · intro i ch found
    rw [List.getElem?_drop] at found
    rw [follows.reads, Nat.mod_add_mod]
    exact follows.keeps _ ch found (Nat.le_trans room (Nat.add_le_add_right (Nat.le_add_right _ _) _))
  · intro member
    exact follows.noZero (List.mem_of_mem_drop member)

end Console

open Console

/-- The call edits the line that waits, up to its end or to the length it was asked for. A
carriage return behind a full text stays for the next call, which returns nothing. -/
theorem cons_read_edits_line (idle : c.readers pid = none) (positive : 0 < length)
    (waits : c.Waits waiting) (complete : ∃ line, line <+: waiting ∧ LineEnds length [] line) :
    ∃ line rest c', c.ReadsLine pid length waiting line rest c' ∧
      ∀ later length', rest = 13 :: later → 0 < length' →
        lineEdit [13] = [] ∧ ∃ c'', c'.ReadsLine pid length' rest [13] later c'' := by
  obtain ⟨line, rest, c', reads⟩ := waits.readsLine idle positive complete
  refine ⟨line, rest, c', reads, ?_⟩
  rintro later length' rfl positive'
  have idle' : c'.readers pid = none := by rw [reads.reads.readers, idle]
  exact ⟨rfl, reads.left.readsEmpty idle' positive'⟩

/-- A backspace, and a text of two characters whose carriage return is left. -/
theorem cons_read_edits_line_full : ∃ (c : Console) (line rest : List (BitVec 8)) (c' : Console),
    c.ReadsLine 1 2 [97, 127, 98, 99, 13] line rest c' ∧
      ∀ later length', rest = 13 :: later → 0 < length' →
        lineEdit [13] = [] ∧ ∃ c'', c'.ReadsLine 1 length' rest [13] later c'' := by
  have noZero : (0 : BitVec 8) ∉ [(97 : BitVec 8), 127, 98, 99, 13] := by decide
  have waits := (Follows.initial.keyboardData noZero).waits (by decide)
  have complete : ∃ line, line <+: [(97 : BitVec 8), 127, 98, 99, 13] ∧ LineEnds 2 [] line :=
    ⟨[97, 127, 98, 99], by decide, by decide⟩
  have idle : (Console.initial.keyboardData [97, 127, 98, 99, 13]).1.readers 1 = none := rfl
  obtain ⟨line, rest, c', reads, next⟩ := cons_read_edits_line idle (by decide) waits complete
  exact ⟨_, line, rest, c', reads, next⟩

end IntelX86Kernel

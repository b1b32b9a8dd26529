import IntelX86Kernel.LineReads

/-! Typing when the keyboard buffer is full. -/

namespace IntelX86Kernel

open Transition

namespace Console

/-- These characters, no more than the buffer has cells, wait between the two positions. -/
structure Holds (c : Console) (waiting : List (BitVec 8)) : Prop where
  waits : c.Waits waiting
  room : waiting.length ≤ BUFFER_SIZE
  writes : c.writePosition = (c.readPosition + waiting.length) % BUFFER_SIZE

def storedAt (c : Console) : List (BitVec 8) → List Nat
  | [] => []
  | ch :: str => c.writePosition :: (c.keyboardData [ch]).1.storedAt str

def Receives (c : Console) : List (BitVec 8) → Prop
  | [] => True
  | ch :: str => ∀ pid r, ∃ r' text,
      c.turn pid r = (c.advance.setReader pid r', .took ch text) ∧
        (c.advance.setReader pid r').Receives str

/-- Typing `str` while `waiting` waits: what the buffer has no room for is not stored, nothing
is stored over what waits, and this is received before what has been accepted. -/
structure Ignores (c : Console) (waiting str : List (BitVec 8)) : Prop where
  dropped : (c.storedAt str).length ≤ BUFFER_SIZE - waiting.length
  kept : ∀ i < waiting.length, (c.readPosition + i) % BUFFER_SIZE ∉ c.storedAt str
  received : (c.keyboardData str).1.Receives
    (waiting ++ str.take (BUFFER_SIZE - waiting.length))

variable {c c' : Console} {waiting str : List (BitVec 8)} {ch : BitVec 8}

theorem storedAt_length : (c.storedAt str).length = str.length := by
  induction str generalizing c with
  | nil => rfl
  | cons ch str ih => rw [storedAt, List.length_cons, ih, List.length_cons]

theorem Waits.receives (waits : c.Waits waiting) : c.Receives waiting := by
  induction waiting generalizing c with
  | nil => trivial
  | cons ch waiting ih =>
      obtain ⟨here, nonzero⟩ := waits.head
      intro pid r
      rcases c.turn_eq pid r with ⟨empty, -⟩ | ⟨-, r', text, -, took⟩
      · exact absurd (here ▸ empty) nonzero
      · rw [here] at took
        exact ⟨r', text, took, ih waits.advance⟩

theorem Holds.stored (holds : c.Holds waiting) (nonzero : ch ≠ 0)
    (room : waiting.length < BUFFER_SIZE) : (c.keyboardData [ch]).1.Holds (waiting ++ [ch]) := by
  have positive : 0 < BUFFER_SIZE := by decide
  have buffer : (c.keyboardData [ch]).1.keyboardBuffer =
      Function.update c.keyboardBuffer ((c.readPosition + waiting.length) % BUFFER_SIZE) ch := by
    rw [← holds.writes]
    rfl
  refine ⟨⟨holds.waits.reading, ?_, ?_⟩, ?_, ?_⟩
  · intro i ch' found
    rw [buffer]
    change Function.update c.keyboardBuffer ((c.readPosition + waiting.length) % BUFFER_SIZE) ch
      ((c.readPosition + i) % BUFFER_SIZE) = ch'
    rcases Nat.lt_or_ge i waiting.length with before | beyond
    · rw [List.getElem?_append_left before] at found
      rw [Function.update_of_ne (Ring.mod_ne (by omega) (by omega))]
      exact holds.waits.cells i ch' found
    · rw [List.getElem?_append_right beyond] at found
      have last : i = waiting.length := by
        obtain ⟨inside, -⟩ := List.getElem?_eq_some_iff.mp found
        rw [List.length_singleton] at inside
        omega
      rw [last, Nat.sub_self] at found
      cases found
      rw [last, Function.update_self]
  · intro member
    rcases List.mem_append.mp member with old | new
    · exact holds.waits.noZero old
    · exact nonzero (List.mem_singleton.mp new).symm
  · rw [List.length_append, List.length_singleton]
    exact room
  · change (if c.writePosition + 1 = BUFFER_SIZE then 0 else c.writePosition + 1) =
      (c.readPosition + (waiting ++ [ch]).length) % BUFFER_SIZE
    rw [holds.writes, List.length_append, List.length_singleton, ← Nat.add_assoc,
      Ring.next_mod positive]

theorem Holds.typed (holds : c.Holds waiting) (noZero : 0 ∉ str)
    (room : waiting.length + str.length ≤ BUFFER_SIZE) :
    (c.keyboardData str).1.Holds (waiting ++ str) ∧
      c.storedAt str = (List.range str.length).map fun i =>
        (c.readPosition + waiting.length + i) % BUFFER_SIZE := by
  induction str generalizing c waiting with
  | nil =>
      rw [List.append_nil]
      exact ⟨holds, rfl⟩
  | cons ch str ih =>
      rw [List.length_cons] at room
      have nonzero : ch ≠ 0 := fun zero => noZero (zero ▸ List.mem_cons_self)
      have first := holds.stored nonzero (by omega)
      have rest := ih first (fun member => noZero (List.mem_cons_of_mem ch member))
        (by rw [List.length_append, List.length_singleton]; omega)
      rw [List.append_assoc, List.singleton_append] at rest
      refine ⟨rest.1, ?_⟩
      rw [storedAt, rest.2, holds.writes, List.length_cons, List.range_succ_eq_map, List.map_cons,
        List.map_map, Nat.add_zero]
      congr 1
      apply List.map_congr_left
      intro i _
      change (c.readPosition + (waiting ++ [ch]).length + i) % BUFFER_SIZE =
        (c.readPosition + waiting.length + (i + 1)) % BUFFER_SIZE
      rw [List.length_append, List.length_singleton]
      congr 1
      omega

end Console

open Console

variable {c : Console} {waiting : List (BitVec 8)}

/-- The keys are ignored as they should be exactly when there is room for all of them. -/
theorem full_buffer_ignores_keys (holds : c.Holds waiting) (str : CString) :
    c.Ignores waiting str.chars ↔ waiting.length + str.chars.length ≤ BUFFER_SIZE := by
  constructor
  · intro ignores
    have dropped := ignores.dropped
    have room := holds.room
    rw [storedAt_length] at dropped
    omega
  · intro fits
    obtain ⟨held, stored⟩ := holds.typed str.noZero fits
    constructor
    · rw [storedAt_length]
      omega
    · intro i inside member
      rw [stored] at member
      obtain ⟨j, below, same⟩ := List.mem_map.mp member
      rw [List.mem_range] at below
      refine Ring.mod_ne ?_ ?_ same.symm
      · omega
      · omega
    · rw [List.take_of_length_le (by omega)]
      exact held.waits.receives

theorem Console.Holds.initial : Console.initial.Holds [] := by
  refine ⟨⟨Nat.zero_lt_succ _, ?_, List.not_mem_nil⟩, Nat.zero_le _, rfl⟩
  intro i ch found
  cases found

theorem full_buffer_ignores_keys_two : ∃ c : Console, c.Holds [97] ∧ c.Ignores [97] [98, 99] := by
  have noZero : (0 : BitVec 8) ∉ [(97 : BitVec 8)] := by decide
  have noZero' : (0 : BitVec 8) ∉ [(98 : BitVec 8), 99] := by decide
  have room : 1 + 2 ≤ BUFFER_SIZE := by decide
  obtain ⟨holds, -⟩ := Holds.initial.typed noZero (by decide)
  exact ⟨_, holds, (full_buffer_ignores_keys holds ⟨[98, 99], noZero'⟩).mpr room⟩

/-- With a thousand characters waiting, one more is stored over the first of them. -/
theorem full_buffer_is_overwritten : ¬ ∀ (c : Console) (waiting : List (BitVec 8)),
    c.Holds waiting → ∀ str : CString, c.Ignores waiting str.chars := by
  intro ignores
  have noZero : (0 : BitVec 8) ∉ List.replicate 1000 97 := by
    intro member
    cases List.eq_of_mem_replicate member
  have noZero' : (0 : BitVec 8) ∉ [(98 : BitVec 8)] := by decide
  obtain ⟨holds, -⟩ := Holds.initial.typed noZero
    (by rw [List.length_nil, List.length_replicate]; decide)
  have dropped := (ignores _ _ holds ⟨[98], noZero'⟩).dropped
  rw [storedAt_length, List.nil_append, List.length_replicate] at dropped
  have none : ¬ 1 ≤ BUFFER_SIZE - 1000 := by decide
  exact none dropped

end IntelX86Kernel

import Mathlib.Data.BitVec
import Mathlib.Data.List.GetD
import Mathlib.Logic.Function.Basic

/-! A byte memory with 32-bit addresses, read and written in little-endian words, and the
blocks it is divided into. Nothing here depends on a program. -/

namespace X86

abbrev Word := BitVec 32
abbrev Memory := Word → BitVec 8

namespace Memory

def read (m : Memory) (a : Word) : Word :=
  m (a + 3) ++ m (a + 2) ++ m (a + 1) ++ m a

def write (m : Memory) (a v : Word) : Memory := fun b =>
  if (b - a).toNat < 4 then v.extractLsb' (8 * (b - a).toNat) 8 else m b

def memset (m : Memory) (a : Word) (value : BitVec 8) (length : Nat) : Memory := fun b =>
  if (b - a).toNat < length then value else m b

def store (m : Memory) : List (Word × BitVec 8) → Memory
  | [] => m
  | (a, byte) :: rest => store (Function.update m a byte) rest

def overwrite (m : Memory) (s : Word) (bytes : List (BitVec 8)) : Memory := fun a =>
  bytes.getD (a - s).toNat (m a)

variable {m m' : Memory} {a b v : Word}

theorem read_congr (zero : m' a = m a) (one : m' (a + 1) = m (a + 1))
    (two : m' (a + 2) = m (a + 2)) (three : m' (a + 3) = m (a + 3)) : m'.read a = m.read a := by
  rw [read, read, zero, one, two, three]

theorem word_of_bytes (v : Word) :
    v.extractLsb' 24 8 ++ v.extractLsb' 16 8 ++ v.extractLsb' 8 8 ++ v.extractLsb' 0 8 = v := by
  apply BitVec.eq_of_getLsbD_eq
  intro i bound
  simp only [BitVec.getLsbD_append, BitVec.getLsbD_extractLsb']
  by_cases zero : i < 8
  · simp [zero]
  · by_cases one : i - 8 < 8
    · have place : 8 + (i - 8) = i := by omega
      simp [zero, one, place]
    · by_cases two : i - 8 - 8 < 8
      · have place : 16 + (i - 8 - 8) = i := by omega
        simp [zero, one, two, place]
      · have place : 24 + (i - 8 - 8 - 8) = i := by omega
        have last : i - 8 - 8 - 8 < 8 := by omega
        simp [zero, one, two, last, place]

theorem write_byte {i : Word} (small : i.toNat < 4) :
    m.write a v (a + i) = v.extractLsb' (8 * i.toNat) 8 := by
  have place : a + i - a = i := by rw [BitVec.add_comm, BitVec.add_sub_cancel]
  rw [write, place, if_pos small]

@[simp] theorem read_write : (m.write a v).read a = v := by
  have zero : m.write a v a = v.extractLsb' 0 8 := by
    simpa using (write_byte (i := 0) (by decide) : m.write a v (a + 0) = _)
  rw [read, zero, write_byte (by decide), write_byte (by decide), write_byte (by decide)]
  exact word_of_bytes v

def Apart (a b : Word) : Prop :=
  a.toNat + 4 ≤ b.toNat ∧ b.toNat + 4 ≤ 2 ^ 32 ∨ b.toNat + 4 ≤ a.toNat ∧ a.toNat + 4 ≤ 2 ^ 32

theorem write_outside (outside : 4 ≤ (b - a).toNat) : m.write a v b = m b :=
  if_neg (Nat.not_lt.mpr outside)

theorem read_write_apart (apart : Apart a b) : (m.write a v).read b = m.read b := by
  have away (i : Word) (small : i.toNat < 4) : m.write a v (b + i) = m (b + i) := by
    apply write_outside
    rw [BitVec.toNat_sub, BitVec.toNat_add]
    rcases apart with ⟨below, room⟩ | ⟨above, room⟩ <;> omega
  apply read_congr
  · simpa using away 0 (by decide)
  · exact away 1 (by decide)
  · exact away 2 (by decide)
  · exact away 3 (by decide)

theorem overwrite_nil {s : Word} : m.overwrite s [] = m := rfl

theorem overwrite_snoc {s : Word} {bytes : List (BitVec 8)} {c : BitVec 8}
    (room : bytes.length < 2 ^ 32) :
    Function.update (m.overwrite s bytes) (s + .ofNat 32 bytes.length) c =
      m.overwrite s (bytes ++ [c]) := by
  have size : (BitVec.ofNat 32 bytes.length).toNat = bytes.length := Nat.mod_eq_of_lt room
  funext a
  by_cases last : a = s + .ofNat 32 bytes.length
  · have place : (a - s).toNat = bytes.length := by
      rw [last, BitVec.add_comm, BitVec.add_sub_cancel, size]
    rw [last, Function.update_self, ← last, overwrite, place]
    simp
  · have other : (a - s).toNat ≠ bytes.length := by
      intro same
      apply last
      have offset : a - s = .ofNat 32 bytes.length := BitVec.eq_of_toNat_eq (same.trans size.symm)
      rw [← offset, BitVec.add_comm, BitVec.sub_add_cancel]
    rw [Function.update_of_ne last, overwrite, overwrite]
    rcases Nat.lt_or_gt_of_ne other with before | behind
    · rw [List.getD_append _ _ _ _ before]
    · have longer : (bytes ++ [c]).length ≤ (a - s).toNat := by
        rw [List.length_append, List.length_singleton]
        exact behind
      rw [List.getD_eq_default _ _ (Nat.le_of_lt behind), List.getD_eq_default _ _ longer]

theorem overwrite_outside {s : Word} {bytes : List (BitVec 8)} (outside : bytes.length ≤ (a - s).toNat) :
    m.overwrite s bytes a = m a := List.getD_eq_default _ _ outside

end Memory

/-- Consecutive bytes that do not run past the end of the address space. -/
structure Block where
  base : Word
  bytes : Nat
  fits : base.toNat + bytes ≤ 2 ^ 32
  deriving DecidableEq

namespace Block

variable {b c : Block} {a v : Word} {m m' : Memory} {i : Nat}

def Contains (b : Block) (a : Word) : Prop :=
  b.base.toNat ≤ a.toNat ∧ a.toNat < b.base.toNat + b.bytes

instance containsDecidable (b : Block) (a : Word) : Decidable (b.Contains a) :=
  inferInstanceAs (Decidable (_ ∧ _))

def Holds (b : Block) (a : Word) (count : Nat) : Prop :=
  b.base.toNat ≤ a.toNat ∧ a.toNat + count ≤ b.base.toNat + b.bytes

instance holdsDecidable (b : Block) (a : Word) (count : Nat) : Decidable (b.Holds a count) :=
  inferInstanceAs (Decidable (_ ∧ _))

def Apart (b c : Block) : Prop :=
  b.base.toNat + b.bytes ≤ c.base.toNat ∨ c.base.toNat + c.bytes ≤ b.base.toNat

instance apartDecidable (b c : Block) : Decidable (b.Apart c) :=
  inferInstanceAs (Decidable (_ ∨ _))

def word (b : Block) (i : Nat) : Word := b.base + BitVec.ofNat 32 (4 * i)

theorem Apart.symm (apart : b.Apart c) : c.Apart b := Or.symm apart

theorem Apart.outside (apart : b.Apart c) (inside : b.Contains a) : ¬ c.Contains a := by
  obtain ⟨above, below⟩ := inside
  rintro ⟨above', below'⟩
  rcases apart with before | behind <;> omega

theorem Apart.words {w : Word} (apart : b.Apart c) (first : b.Holds a 4) (second : c.Holds w 4) :
    Memory.Apart a w := by
  obtain ⟨above, below⟩ := first
  obtain ⟨above', below'⟩ := second
  have room := b.fits
  have room' := c.fits
  rcases apart with before | behind
  · exact .inl (by omega)
  · exact .inr (by omega)

theorem Holds.contains {count : Nat} {i : Word} (holds : b.Holds a count)
    (inside : i.toNat < count) : b.Contains (a + i) := by
  obtain ⟨above, below⟩ := holds
  have room := b.fits
  rw [Contains, BitVec.toNat_add]
  omega

theorem Holds.part {count n : Nat} {i : Word} (holds : b.Holds a count)
    (inside : i.toNat + n ≤ count) (positive : 0 < n) : b.Holds (a + i) n := by
  obtain ⟨above, below⟩ := holds
  have room := b.fits
  rw [Holds, BitVec.toNat_add]
  omega

theorem read_congr (same : ∀ w, b.Contains w → m' w = m w) (holds : b.Holds a 4) :
    m'.read a = m.read a := by
  apply Memory.read_congr
  · simpa using same _ (holds.contains (i := 0) (by decide))
  · exact same _ (holds.contains (by decide))
  · exact same _ (holds.contains (by decide))
  · exact same _ (holds.contains (by decide))

theorem write_outside {w : Word} (holds : b.Holds a 4) (outside : ¬ b.Contains w) :
    m.write a v w = m w := by
  apply Memory.write_outside
  apply Nat.le_of_not_lt
  intro near
  have inside := holds.contains near
  rw [BitVec.add_comm, BitVec.sub_add_cancel] at inside
  exact outside inside

theorem word_add : b.word i + 4 = b.word (i + 1) := by
  rw [word, word, BitVec.add_assoc, Nat.mul_succ, BitVec.ofNat_add]
  rfl

theorem word_sub : b.word (i + 1) - 4 = b.word i := by
  rw [← word_add, BitVec.add_sub_cancel]

theorem word_toNat (inside : 4 * i < b.bytes) : (b.word i).toNat = b.base.toNat + 4 * i := by
  have room := b.fits
  rw [word, BitVec.toNat_add, BitVec.toNat_ofNat]
  omega

theorem holds_word (inside : 4 * i + 4 ≤ b.bytes) : b.Holds (b.word i) 4 := by
  have place : (b.word i).toNat = b.base.toNat + 4 * i := word_toNat (by omega)
  constructor <;> omega

theorem words_apart {j : Nat} (inside : 4 * i + 4 ≤ b.bytes) (inside' : 4 * j + 4 ≤ b.bytes)
    (other : i ≠ j) : Memory.Apart (b.word i) (b.word j) := by
  have place : (b.word i).toNat = b.base.toNat + 4 * i := word_toNat (by omega)
  have place' : (b.word j).toNat = b.base.toNat + 4 * j := word_toNat (by omega)
  have room := b.fits
  rcases Nat.lt_or_gt_of_ne other with less | more
  · exact .inl (by omega)
  · exact .inr (by omega)

theorem read_memset (holds : b.Holds a 4) : (m.memset b.base 0 b.bytes).read a = 0 := by
  have cleared (i : Word) (small : i.toNat < 4) : m.memset b.base 0 b.bytes (a + i) = 0 := by
    obtain ⟨above, below⟩ := holds.contains small
    have room := b.fits
    rw [Memory.memset]
    apply if_pos
    rw [BitVec.toNat_sub]
    omega
  have first : m.memset b.base 0 b.bytes a = 0 := by
    simpa using cleared 0 (by decide)
  rw [Memory.read, first, cleared 1 (by decide), cleared 2 (by decide), cleared 3 (by decide)]
  rfl

def writes (b : Block) (f : Nat → Word) (m : Memory) (indices : List Nat) : Memory :=
  indices.foldl (fun m i => m.write (b.word i) (f i)) m

theorem read_writes {f : Nat → Word} {indices : List Nat} {j : Nat}
    (inside : ∀ i ∈ indices, 4 * i + 4 ≤ b.bytes) (inside' : 4 * j + 4 ≤ b.bytes) :
    (b.writes f m indices).read (b.word j) =
      if j ∈ indices then f j else m.read (b.word j) := by
  induction indices generalizing m with
  | nil => rfl
  | cons i rest ih =>
      obtain ⟨first, others⟩ := List.forall_mem_cons.mp inside
      have later : (b.writes f m (i :: rest)).read (b.word j) =
          if j ∈ rest then f j else (m.write (b.word i) (f i)).read (b.word j) := ih others
      rw [later]
      by_cases again : j ∈ rest
      · rw [if_pos again, if_pos (List.mem_cons_of_mem i again)]
      · rw [if_neg again]
        by_cases here : j = i
        · rw [here, if_pos List.mem_cons_self, Memory.read_write]
        · have absent : j ∉ i :: rest := List.not_mem_cons_of_ne_of_not_mem here again
          rw [if_neg absent, Memory.read_write_apart (words_apart first inside' (Ne.symm here))]

theorem read_writes_apart {f : Nat → Word} {indices : List Nat} (apart : b.Apart c)
    (inside : ∀ i ∈ indices, 4 * i + 4 ≤ b.bytes) (other : c.Holds a 4) :
    (b.writes f m indices).read a = m.read a := by
  induction indices generalizing m with
  | nil => rfl
  | cons i rest ih =>
      obtain ⟨first, others⟩ := List.forall_mem_cons.mp inside
      have later : (b.writes f m (i :: rest)).read a =
          (m.write (b.word i) (f i)).read a := ih others
      rw [later, Memory.read_write_apart (apart.words (holds_word first) other)]

end Block

end X86

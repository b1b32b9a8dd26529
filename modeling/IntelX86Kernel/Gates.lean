import Mathlib.Data.BitVec
import Mathlib.Logic.Function.Basic

/-! Tables that are written entry by entry, and the gates of an interrupt descriptor table as a
32-bit x86 reads them. Nothing here depends on a program. -/

namespace X86

section Writes

variable {ι α β : Type} [DecidableEq ι] {key : α → ι} {entry : α → β} {table : ι → β}

theorem foldl_update_last {calls : List α} {k : ι} :
    calls.foldl (fun f c => Function.update f (key c) (entry c)) table k =
      ((calls.reverse.find? fun c => key c = k).map entry).getD (table k) := by
  induction calls using List.reverseRecOn with
  | nil => rfl
  | append_singleton calls c ih =>
      rw [List.foldl_append, List.foldl_cons, List.foldl_nil, List.reverse_append,
        List.reverse_singleton, List.singleton_append, List.find?_cons]
      by_cases same : key c = k
      · rw [← same, Function.update_self, decide_eq_true rfl]
        rfl
      · rw [Function.update_of_ne (Ne.symm same), decide_eq_false same]
        exact ih

theorem foldl_update_other {key : Nat → ι} {entry : Nat → β → β} {n : Nat} {k : ι}
    (other : ∀ i < n, key i ≠ k) :
    (List.range n).foldl (fun f i => Function.update f (key i) (entry i (f (key i)))) table k =
      table k := by
  induction n with
  | zero => rfl
  | succ n ih =>
      rw [List.range_succ, List.foldl_append, List.foldl_cons, List.foldl_nil,
        Function.update_of_ne (other n (Nat.lt_succ_self n)).symm]
      exact ih fun i small => other i (Nat.lt_succ_of_lt small)

theorem foldl_update_range {key : Nat → ι} {entry : Nat → β → β} {n i : Nat}
    (distinct : ∀ i < n, ∀ j < n, key i = key j → i = j) (small : i < n) :
    (List.range n).foldl (fun f i => Function.update f (key i) (entry i (f (key i)))) table
        (key i) =
      entry i (table (key i)) := by
  induction n with
  | zero => cases small
  | succ n ih =>
      rw [List.range_succ, List.foldl_append, List.foldl_cons, List.foldl_nil]
      by_cases last : i = n
      · subst last
        have before : ∀ j < i, key j ≠ key i := by
          intro j below same
          have equal := distinct j (Nat.lt_succ_of_lt below) i small same
          omega
        rw [Function.update_self, foldl_update_other before]
      · have other : key i ≠ key n := fun same =>
          last (distinct i small n (Nat.lt_succ_self n) same)
        rw [Function.update_of_ne other]
        exact ih (fun i first j second => distinct i (Nat.lt_succ_of_lt first) j
          (Nat.lt_succ_of_lt second)) (by omega)

end Writes

/-- The fields of a gate; `count` is of use in call gates only. -/
structure Gate where
  offset : BitVec 32
  selector : BitVec 16
  count : BitVec 8
  access : BitVec 8
  deriving DecidableEq

namespace Gate

def encode (g : Gate) : BitVec 64 :=
  g.offset.extractLsb' 16 16 ++ g.access ++ g.count ++ g.selector ++ g.offset.extractLsb' 0 16

def decode (d : BitVec 64) : Gate where
  offset := d.extractLsb' 48 16 ++ d.extractLsb' 0 16
  selector := d.extractLsb' 16 16
  count := d.extractLsb' 32 8
  access := d.extractLsb' 40 8

@[simp] theorem decode_encode (g : Gate) : decode g.encode = g := by
  obtain ⟨offset, selector, count, access⟩ := g
  simp only [decode, encode, mk.injEq]
  refine ⟨?_, ?_, ?_, ?_⟩
  all_goals
    apply BitVec.eq_of_getLsbD_eq
    intro i below
    simp only [BitVec.getLsbD_append, BitVec.getLsbD_extractLsb', below]
    grind

end Gate

/-- Where the processor goes at a vector, and from which privilege level a program may ask for
it. -/
inductive Vector where
  | task (selector : BitVec 16) (level : BitVec 2)
  | interrupt (selector : BitVec 16) (offset : BitVec 32) (level : BitVec 2)
  deriving DecidableEq

/-- Task gates and interrupt gates of 32 bits; the other types are not told apart. -/
def vector (d : BitVec 64) : Option Vector :=
  let g := Gate.decode d
  let level := g.access.extractLsb' 5 2
  if g.access.getLsbD 7 = false then none
  else if g.access &&& 0x1f = 0x05 then some (.task g.selector level)
  else if g.access &&& 0x1f = 0x0e then some (.interrupt g.selector g.offset level)
  else none

end X86

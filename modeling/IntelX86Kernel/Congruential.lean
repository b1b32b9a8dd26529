import Mathlib.NumberTheory.Multiplicity
import Mathlib.Data.Fintype.Card

/-! Sequences `s (n + 1) = a * s n + c` modulo a power of two: when `a - 1` is a multiple
of four and `c` is odd, every residue comes up in one period. -/

namespace Congruential

variable {a c k : Nat} {s : Nat → Nat}

def Follows (a c k : Nat) (s : Nat → Nat) : Prop :=
  ∀ n, s (n + 1) % 2 ^ k = (a * s n + c) % 2 ^ k

/-- What the recurrence multiplies by `a` at each turn. -/
def lifted (a c : Nat) (s : Nat → Nat) (n : Nat) : Int := (a - 1) * s n + c

theorem lifted_succ (follows : Follows a c k s) (n : Nat) :
    ((a : Int) - 1) * 2 ^ k ∣ lifted a c s (n + 1) - a * lifted a c s n := by
  have same : ((s (n + 1) : Nat) : Int) ≡ (a * s n + c : Nat) [ZMOD (2 ^ k : Nat)] :=
    Int.natCast_modEq_iff.mpr (follows n)
  obtain ⟨t, turn⟩ := (Int.modEq_iff_dvd.mp same.symm)
  refine ⟨t, ?_⟩
  push_cast at turn
  have step : (s (n + 1) : Int) = a * s n + c + 2 ^ k * t := by linarith
  rw [lifted, lifted, step]
  ring

theorem lifted_add (follows : Follows a c k s) (n d : Nat) :
    ((a : Int) - 1) * 2 ^ k ∣ lifted a c s (n + d) - a ^ d * lifted a c s n := by
  induction d with
  | zero => simp
  | succ d ih =>
      have next := lifted_succ follows (n + d)
      have scaled := ih.mul_left (a : Int)
      have sum := dvd_add next scaled
      have same : lifted a c s (n + d + 1) - a * lifted a c s (n + d) +
          a * (lifted a c s (n + d) - a ^ d * lifted a c s n) =
          lifted a c s (n + (d + 1)) - a ^ (d + 1) * lifted a c s n := by
        rw [pow_succ]
        ring_nf
      rwa [same] at sum

theorem period_dvd (follows : Follows a c k s) (big : 1 < a) (four : 4 ∣ (a : Int) - 1)
    (odd : Odd c) {n d : Nat} (same : s (n + d) % 2 ^ k = s n % 2 ^ k) : 2 ^ k ∣ d := by
  have modulus : ((a : Int) - 1) * 2 ^ k ∣ lifted a c s (n + d) - lifted a c s n := by
    have residues : ((s (n + d) : Nat) : Int) ≡ (s n : Nat) [ZMOD (2 ^ k : Nat)] :=
      Int.natCast_modEq_iff.mpr same
    obtain ⟨t, turn⟩ := Int.modEq_iff_dvd.mp residues.symm
    refine ⟨t, ?_⟩
    push_cast at turn
    have apart : (s (n + d) : Int) = s n + 2 ^ k * t := by linarith
    rw [lifted, lifted, apart]
    ring
  have growth : ((a : Int) - 1) * 2 ^ k ∣ (a ^ d - 1) * lifted a c s n := by
    have difference := dvd_sub modulus (lifted_add follows n d)
    have equal : lifted a c s (n + d) - lifted a c s n -
        (lifted a c s (n + d) - a ^ d * lifted a c s n) = (a ^ d - 1) * lifted a c s n := by ring
    rwa [equal] at difference
  have even : (2 : Int) ∣ a - 1 := dvd_trans (by decide) four
  have base : ¬ (2 : Int) ∣ a := fun half => by
    have one := dvd_sub half even
    rw [sub_sub_cancel] at one
    exact absurd one (by decide)
  have unit : emultiplicity (2 : Int) (lifted a c s n) = 0 := by
    refine emultiplicity_eq_zero.mpr fun half => ?_
    have rest := dvd_sub half (even.mul_right (s n : Int))
    rw [lifted, add_sub_cancel_left] at rest
    exact (Nat.not_even_iff_odd.mpr odd) (even_iff_two_dvd.mpr (Int.natCast_dvd_natCast.mp rest))
  have order : emultiplicity (2 : Int) ((a : Int) ^ d - 1) =
      emultiplicity 2 ((a : Int) - 1) + emultiplicity (2 : Int) d := by
    have lifting := Int.two_pow_sub_pow' (x := a) (y := 1) d four base
    rwa [one_pow] at lifting
  have bound := emultiplicity_le_emultiplicity_of_dvd_right (a := (2 : Int)) growth
  rw [emultiplicity_mul Int.prime_two, emultiplicity_mul Int.prime_two, unit, add_zero, order,
    emultiplicity_pow_self_of_prime Int.prime_two] at bound
  have finite : emultiplicity (2 : Int) ((a : Int) - 1) ≠ ⊤ := by
    refine finiteMultiplicity_iff_emultiplicity_ne_top.mp (Int.finiteMultiplicity_iff.mpr ⟨?_, ?_⟩)
    · decide
    · omega
  have enough := (ENat.add_le_add_iff_left finite).mp bound
  have divides := pow_dvd_of_le_emultiplicity enough
  exact_mod_cast divides

theorem covers (follows : Follows a c k s) (big : 1 < a) (four : 4 ∣ (a : Int) - 1)
    (odd : Odd c) {r : Nat} (inside : r < 2 ^ k) : ∃ n < 2 ^ k, s n % 2 ^ k = r := by
  let visit : Fin (2 ^ k) → Fin (2 ^ k) := fun n => ⟨s n % 2 ^ k, Nat.mod_lt _ (Nat.two_pow_pos k)⟩
  have distinct (i j : Fin (2 ^ k)) (ordered : i ≤ j) (same : visit i = visit j) : i = j := by
    obtain ⟨d, gap⟩ := Nat.exists_eq_add_of_le (Fin.le_def.mp ordered)
    have residues : s (i + d) % 2 ^ k = s i % 2 ^ k := by
      rw [← gap]
      exact congrArg Fin.val same.symm
    have multiple := period_dvd follows big four odd residues
    have less : d < 2 ^ k := by omega
    have zero := Nat.eq_zero_of_dvd_of_lt multiple less
    exact Fin.ext (by omega)
  have injective : Function.Injective visit := by
    intro i j same
    rcases le_total i j with ordered | ordered
    · exact distinct i j ordered same
    · exact (distinct j i ordered same.symm).symm
  obtain ⟨n, found⟩ := Finite.surjective_of_injective injective ⟨r, inside⟩
  exact ⟨n, n.isLt, congrArg Fin.val found⟩

end Congruential

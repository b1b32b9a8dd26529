import Mathlib.Data.Nat.Count
import Mathlib.Logic.Function.Basic

/-! Counting the entries of a table below a bound. Tables, entries and what is counted
are parameters. -/

namespace Tally

variable {β : Type} {f g : Nat → β} {P Q : β → Prop} [DecidablePred P] [DecidablePred Q]
  {bound i j : Nat} {b : β}

/-- How many entries below `bound` have the property. -/
def tally (P : β → Prop) [DecidablePred P] (f : Nat → β) (bound : Nat) : Nat :=
  Nat.count (fun i => P (f i)) bound

theorem tally_le : tally P f bound ≤ bound := Nat.count_le _

theorem tally_congr (same : ∀ i < bound, P (f i) ↔ P (g i)) :
    tally P f bound = tally P g bound := by
  induction bound with
  | zero => simp [tally]
  | succ bound ih =>
      have below := ih fun i less => same i (Nat.lt_succ_of_lt less)
      have last := same bound (Nat.lt_succ_self bound)
      simp only [tally, Nat.count_succ] at below ⊢
      simp only [below, last]

theorem tally_eq_countP : tally P f bound = (List.range bound).countP fun i => P (f i) := by
  induction bound with
  | zero => rfl
  | succ bound ih =>
      rw [List.range_succ, List.countP_append, ← ih, tally, tally, Nat.count_succ]
      simp

/-- Changing one entry changes the count by what this entry counts for. -/
theorem tally_update (inside : i < bound) :
    tally P (Function.update f i b) bound + (if P (f i) then 1 else 0) =
      tally P f bound + if P b then 1 else 0 := by
  induction bound with
  | zero => cases inside
  | succ bound ih =>
      have succ (g : Nat → β) : tally P g (bound + 1) =
          tally P g bound + if P (g bound) then 1 else 0 := Nat.count_succ _ _
      rw [succ, succ]
      rcases Nat.lt_succ_iff_lt_or_eq.mp inside with less | rfl
      · have other : bound ≠ i := Nat.ne_of_gt less
        have before := ih less
        rw [Function.update_of_ne other]
        omega
      · have same : tally P (Function.update f i b) i = tally P f i := by
          refine tally_congr fun j less => ?_
          rw [Function.update_of_ne (Nat.ne_of_lt less)]
        rw [Function.update_self, same]
        omega

theorem tally_pos (inside : i < bound) (counted : P (f i)) : 0 < tally P f bound := by
  have found : Nat.count (fun i => P (f i)) bound ≠ 0 :=
    Nat.count_ne_iff_exists.mpr ⟨i, inside, counted⟩
  exact Nat.pos_of_ne_zero found

theorem tally_eq_zero : tally P f bound = 0 ↔ ∀ i < bound, ¬ P (f i) :=
  Nat.count_iff_forall_not

theorem exists_uncounted (below : tally P f bound < bound) : ∃ i < bound, ¬ P (f i) := by
  by_contra all
  have full : ∀ i < bound, P (f i) := fun i less => by
    by_contra missing
    exact all ⟨i, less, missing⟩
  exact Nat.ne_of_lt below (Nat.count_iff_forall.mpr full)

theorem tally_grow {later : Nat} (grown : bound ≤ later) (none : ∀ i, bound ≤ i → ¬ P (f i)) :
    tally P f later = tally P f bound := by
  induction grown with
  | refl => rfl
  | step grown ih =>
      rw [tally, Nat.count_succ, if_neg (none _ grown)]
      exact ih

theorem tally_mono (more : ∀ i < bound, P (f i) → Q (g i)) :
    tally P f bound ≤ tally Q g bound := by
  induction bound with
  | zero => simp [tally]
  | succ bound ih =>
      have below := ih fun i less => more i (Nat.lt_succ_of_lt less)
      have last := more bound (Nat.lt_succ_self bound)
      simp only [tally, Nat.count_succ] at below ⊢
      split
      · next counted =>
        rw [if_pos (last counted)]
        omega
      · omega

theorem tally_gain (others : ∀ i < bound, i ≠ j → P (g i) → P (f i)) :
    tally P g bound ≤ tally P f bound + 1 := by
  by_cases inside : j < bound
  · have update := tally_update (P := P) (f := f) (b := g j) inside
    have more : tally P g bound ≤ tally P (Function.update f j (g j)) bound := by
      apply tally_mono
      intro i less counted
      by_cases same : i = j
      · rw [same, Function.update_self, ← same]
        exact counted
      · rw [Function.update_of_ne same]
        exact others i less same counted
    have one : (if P (g j) then 1 else 0) ≤ 1 := by split <;> omega
    omega
  · apply Nat.le_succ_of_le
    apply tally_mono
    intro i less counted
    have other : i ≠ j := fun same => inside (same ▸ less)
    exact others i less other counted

theorem tally_lose (inside : j < bound) (before : P (f j)) (after : ¬ P (g j))
    (others : ∀ i < bound, P (g i) → P (f i)) : tally P g bound + 1 ≤ tally P f bound := by
  have update := tally_update (P := P) (f := f) (b := g j) inside
  rw [if_pos before, if_neg after] at update
  have more : tally P g bound ≤ tally P (Function.update f j (g j)) bound := by
    apply tally_mono
    intro i less counted
    by_cases same : i = j
    · rw [same, Function.update_self, ← same]
      exact counted
    · rw [Function.update_of_ne same]
      exact others i less counted
  omega

end Tally

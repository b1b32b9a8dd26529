import Mathlib.Data.List.Basic
import Mathlib.Logic.Function.Basic

/-! Cells that are written round and round. The elements written are numbered from 0, and
number `i` goes to cell `i % size`. -/

namespace Ring

variable {α : Type} {size n : Nat} {cells : Nat → α} {written : List α} {x : α}

theorem next_mod (positive : 0 < size) :
    (n + 1) % size = if n % size + 1 = size then 0 else n % size + 1 := by
  have below := Nat.mod_lt n positive
  rw [Nat.add_mod]
  split
  · next last =>
    rcases Nat.eq_or_lt_of_le (Nat.succ_le_of_lt positive) with one | more
    · rw [← one]
      exact Nat.mod_one _
    · rw [Nat.mod_eq_of_lt more, last, Nat.mod_self]
  · next inside =>
    have more : 1 < size := by omega
    rw [Nat.mod_eq_of_lt more, Nat.mod_eq_of_lt (by omega)]

theorem mod_ne {i : Nat} (before : i < n) (near : n < i + size) : i % size ≠ n % size := by
  intro same
  have multiple : size ∣ n - i :=
    Nat.dvd_of_mod_eq_zero (Nat.sub_mod_eq_zero_of_mod_eq same.symm)
  have zero := Nat.eq_zero_of_dvd_of_lt multiple (by omega)
  omega

def Keeps (size : Nat) (cells : Nat → α) (written : List α) : Prop :=
  ∀ i x, written[i]? = some x → written.length ≤ i + size → cells (i % size) = x

theorem Keeps.nil : Keeps size cells [] := by
  intro i x found
  cases found

theorem Keeps.write (keeps : Keeps size cells written) :
    Keeps size (Function.update cells (written.length % size) x) (written ++ [x]) := by
  intro i y found near
  rw [List.length_append, List.length_singleton] at near
  rcases Nat.lt_or_ge i written.length with before | beyond
  · rw [List.getElem?_append_left before] at found
    rw [Function.update_of_ne (mod_ne before (by omega))]
    exact keeps i y found (by omega)
  · rw [List.getElem?_append_right beyond] at found
    have last : i = written.length := by
      by_contra other
      have none : [x][i - written.length]? = none :=
        List.getElem?_eq_none (by rw [List.length_singleton]; omega)
      rw [none] at found
      cases found
    rw [last, Nat.sub_self] at found
    cases found
    rw [last, Function.update_self]

/-- What has been written and not yet read lies in consecutive cells. -/
theorem Keeps.contents {got : List α} (keeps : Keeps size cells written) (order : got <+: written)
    (room : written.length ≤ got.length + size) :
    written = got ++ (List.range (written.length - got.length)).map
      fun i => cells ((got.length + i) % size) := by
  obtain ⟨rest, rfl⟩ := order
  rw [List.append_cancel_left_eq, List.length_append, Nat.add_sub_cancel_left]
  apply List.ext_getElem
  · rw [List.length_map, List.length_range]
  · intro i inside _
    have found : (got ++ rest)[got.length + i]? = some rest[i] := by
      rw [List.getElem?_append_right (Nat.le_add_right _ _), Nat.add_sub_cancel_left,
        List.getElem?_eq_getElem inside]
    rw [List.getElem_map, List.getElem_range]
    exact (keeps _ _ found (by omega)).symm

def Blank (blank : α) (size : Nat) (cells : Nat → α) (written : List α) : Prop :=
  ∀ i < size, written.length ≤ i → cells i = blank

theorem Blank.write {blank : α} (ahead : Blank blank size cells written) :
    Blank blank size (Function.update cells (written.length % size) x) (written ++ [x]) := by
  intro i inside beyond
  rw [List.length_append, List.length_singleton] at beyond
  rw [Nat.mod_eq_of_lt (by omega), Function.update_of_ne (by omega)]
  exact ahead i inside (by omega)

end Ring

import Mathlib.Data.Nat.Digits.Lemmas

/-! Numbers written in a base, the most significant digit first. Nothing here depends on a
program. -/

namespace Positional

def numeral (base n : Nat) : List Nat :=
  if n = 0 then [0] else (base.digits n).reverse

/-- The number denoted by digits that follow others denoting `front`. -/
def value (base front : Nat) (digits : List Nat) : Nat :=
  digits.foldl (fun front digit => front * base + digit) front

variable {base n k front digit : Nat} {digits rest : List Nat}

theorem numeral_of_lt (small : n < base) : numeral base n = [n] := by
  by_cases zero : n = 0
  · rw [numeral, if_pos zero, zero]
  · rw [numeral, if_neg zero, Nat.digits_of_lt base n zero small]
    rfl

theorem numeral_of_le (large : 1 < base) (least : base ≤ n) :
    numeral base n = numeral base (n / base) ++ [n % base] := by
  have positive : 0 < base := by omega
  have quotient : n / base ≠ 0 := (Nat.div_pos least positive).ne'
  rw [numeral, numeral, if_neg (by omega), if_neg quotient,
    Nat.digits_eq_cons_digits_div large (by omega)]
  exact List.reverse_cons

theorem numeral_ne_nil : numeral base n ≠ [] := by
  rw [numeral]
  split
  · exact List.cons_ne_nil _ _
  · rename_i nonzero
    intro none
    exact nonzero (Nat.digits_eq_nil_iff_eq_zero.mp (List.reverse_eq_nil_iff.mp none))

theorem lt_of_mem_numeral (large : 1 < base) (member : digit ∈ numeral base n) :
    digit < base := by
  rw [numeral] at member
  split at member
  · rw [List.mem_singleton.mp member]
    omega
  · exact Nat.digits_lt_base large (List.mem_reverse.mp member)

@[simp] theorem value_nil : value base front [] = front := rfl

@[simp] theorem value_cons :
    value base front (digit :: digits) = value base (front * base + digit) digits := rfl

theorem value_append : value base front (digits ++ rest) = value base (value base front digits) rest :=
  List.foldl_append

theorem value_zeros : value base 0 (List.replicate k 0) = 0 := by
  induction k with
  | zero => rfl
  | succ k ih =>
      rw [List.replicate_succ, value_cons, Nat.zero_mul]
      exact ih

theorem value_numeral (large : 1 < base) : value base 0 (numeral base n) = n := by
  induction n using Nat.strong_induction_on with
  | _ n ih =>
    by_cases small : n < base
    · rw [numeral_of_lt small, value_cons, value_nil, Nat.zero_mul, Nat.zero_add]
    · have least : base ≤ n := Nat.le_of_not_lt small
      have less : n / base < n := Nat.div_lt_self (by omega) large
      calc
        value base 0 (numeral base n) = n / base * base + n % base := by
          rw [numeral_of_le large least, value_append, ih _ less, value_cons, value_nil]
        _ = n := Nat.div_add_mod' n base

end Positional

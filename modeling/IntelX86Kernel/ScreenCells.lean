import IntelX86Kernel.ConsoleOutput

/-! The cells of the text screen, and what is left alone when characters are printed. -/

namespace IntelX86Kernel

def videoByte (n : Nat) : BitVec 32 := MEM_VIDEO + .ofNat 32 n

def cellPtr (r c : Nat) : BitVec 32 := getPtrMem (.ofNat 32 r) (.ofNat 32 c)

def Screen.cell (s : Screen) (r c : Nat) : BitVec 16 := s.load16 (cellPtr r c)

theorem videoByte_succ (n : Nat) : videoByte n + 1 = videoByte (n + 1) := by
  rw [videoByte, videoByte, BitVec.add_assoc, BitVec.ofNat_add]
  rfl

theorem cellPtr_eq (r c : Nat) : cellPtr r c = videoByte (2 * (80 * r + c)) := by
  have eighty : (80 : BitVec 32) = .ofNat 32 80 := rfl
  have two : (2 : BitVec 32) = .ofNat 32 2 := rfl
  rw [cellPtr, getPtrMem, getPosition, videoByte, eighty, two, ← BitVec.ofNat_mul,
    ← BitVec.ofNat_add, ← BitVec.ofNat_mul, Nat.mul_comm r]

theorem getPtrMem_eq (lig col : BitVec 32) : getPtrMem lig col = cellPtr lig.toNat col.toNat := by
  rw [cellPtr, BitVec.ofNat_toNat, BitVec.setWidth_eq, BitVec.ofNat_toNat, BitVec.setWidth_eq]

theorem videoByte_sub_lt {n start length : Nat} (near : n < 2 ^ 20) (near' : start < 2 ^ 20)
    (short : length < 2 ^ 20) :
    (videoByte n - videoByte start).toNat < length ↔ start ≤ n ∧ n < start + length := by
  rw [videoByte, videoByte]
  have distance : (MEM_VIDEO + BitVec.ofNat 32 n - (MEM_VIDEO + BitVec.ofNat 32 start)).toNat =
      (2 ^ 32 - start + n) % 2 ^ 32 := by
    have first : (BitVec.ofNat 32 n).toNat = n := by
      rw [BitVec.toNat_ofNat]
      omega
    have second : (BitVec.ofNat 32 start).toNat = start := by
      rw [BitVec.toNat_ofNat]
      omega
    have video : MEM_VIDEO.toNat = 753664 := rfl
    rw [BitVec.toNat_sub, BitVec.toNat_add, BitVec.toNat_add, first, second, video]
    omega
  rw [distance]
  omega

theorem videoByte_add_sub {n start src : Nat} (after : start ≤ n) :
    videoByte src + (videoByte n - videoByte start) = videoByte (src + (n - start)) := by
  obtain ⟨k, rfl⟩ := Nat.exists_eq_add_of_le after
  rw [Nat.add_sub_cancel_left, videoByte, videoByte, videoByte, videoByte, BitVec.ofNat_add,
    BitVec.ofNat_add]
  grind

namespace Screen

variable {s s' s'' : Screen} {lig col : BitVec 32} {c : BitVec 8} {n start src length : Nat}

theorem memmove_memory (near : n < 2 ^ 20) (near' : start < 2 ^ 20) (short : length < 2 ^ 20) :
    (s.memmove (videoByte start) (videoByte src) length).memory (videoByte n) =
      if start ≤ n ∧ n < start + length then s.memory (videoByte (src + (n - start)))
      else s.memory (videoByte n) := by
  rw [memmove]
  dsimp only
  by_cases covered : start ≤ n ∧ n < start + length
  · rw [if_pos covered, if_pos ((videoByte_sub_lt near near' short).mpr covered),
      videoByte_add_sub covered.1]
  · rw [if_neg covered, if_neg (covered ∘ (videoByte_sub_lt near near' short).mp)]

theorem memset_memory {value : BitVec 8} (near : n < 2 ^ 20) (near' : start < 2 ^ 20)
    (short : length < 2 ^ 20) :
    (s.memset (videoByte start) value length).memory (videoByte n) =
      if start ≤ n ∧ n < start + length then value else s.memory (videoByte n) := by
  rw [memset]
  dsimp only
  by_cases covered : start ≤ n ∧ n < start + length
  · rw [if_pos covered, if_pos ((videoByte_sub_lt near near' short).mpr covered)]
  · rw [if_neg covered, if_neg (covered ∘ (videoByte_sub_lt near near' short).mp)]

theorem cell_eq (r c : Nat) : s.cell r c =
    s.memory (videoByte (2 * (80 * r + c) + 1)) ++ s.memory (videoByte (2 * (80 * r + c))) := by
  rw [cell, load16, cellPtr_eq, videoByte_succ]

def ChangesOnly (cells : Nat → Nat → Prop) (s s' : Screen) : Prop :=
  ∀ a, (∀ r c, cells r c → a ≠ cellPtr r c ∧ a ≠ cellPtr r c + 1) → s'.memory a = s.memory a

theorem ChangesOnly.refl {cells : Nat → Nat → Prop} : ChangesOnly cells s s := fun _ _ => rfl

theorem ChangesOnly.trans {cells : Nat → Nat → Prop} (first : ChangesOnly cells s s')
    (second : ChangesOnly cells s' s'') : ChangesOnly cells s s'' := by
  intro a apart
  exact (second a apart).trans (first a apart)

theorem ChangesOnly.mono {cells more : Nat → Nat → Prop} (changes : ChangesOnly cells s s')
    (within : ∀ r c, cells r c → more r c) : ChangesOnly more s s' := by
  intro a apart
  exact changes a fun r c member => apart r c (within r c member)

theorem writeChar_changes : ChangesOnly (fun r k => r = lig.toNat ∧ k = col.toNat) s
    (s.writeChar lig col c) := by
  intro a apart
  obtain ⟨low, high⟩ := apart _ _ ⟨rfl, rfl⟩
  rw [← getPtrMem_eq] at low high
  rw [writeChar, writeColoredChar, store16, store16]
  dsimp only
  rw [Function.update_of_ne high, Function.update_of_ne low, Function.update_of_ne high,
    Function.update_of_ne low]

/-- The characters of the default branch of `treat_char`. -/
def Ordinary (c : BitVec 8) : Prop := c ∉ [8, 9, 10, 12, 13]

instance (c : BitVec 8) : Decidable (Ordinary c) := inferInstanceAs (Decidable (_ ∉ _))

theorem treatChar_ordinary (row : s.lig.toNat < MAX_LIG) (ordinary : Ordinary c) :
    s.treatChar c = .ok ((s.writeChar s.lig s.col c).placeCursor s.lig (s.col + 1)) := by
  have small : s.lig.toNat < 25 := row
  have bound : (80 : BitVec 32).toNat = 80 := rfl
  have last : (25 : BitVec 32).toNat = 25 := rfl
  obtain ⟨backspace, tab, newline, feed, carriage⟩ :
      c ≠ 8 ∧ c ≠ 9 ∧ c ≠ 10 ∧ c ≠ 12 ∧ c ≠ 13 := by
    simpa [Ordinary] using ordinary
  rw [treatChar, treatSwitch, if_neg backspace, if_neg tab, if_neg newline, if_neg feed,
    if_neg carriage]
  dsimp only
  rw [if_neg (by rw [BitVec.le_def]; omega), if_neg (by rw [BitVec.le_def]; omega)]

theorem putbytes_append (first later : List (BitVec 8)) :
    s.putbytes (first ++ later) = s.putbytes first >>= fun s => s.putbytes later := by
  induction first generalizing s with
  | nil => rfl
  | cons c rest ih =>
      rw [List.cons_append, putbytes, putbytes]
      rcases s.treatChar c with fault | s₁
      · rfl
      · exact ih

theorem putbytes_ordinary {str : List (BitVec 8)} (row : s.lig.toNat < MAX_LIG)
    (fits : s.col.toNat + str.length ≤ MAX_COL) (ordinary : ∀ c ∈ str, Ordinary c) :
    ∃ s', s.putbytes str = .ok s' ∧ s'.lig = s.lig ∧
      s'.col.toNat = s.col.toNat + str.length ∧
      ChangesOnly (fun r k => r = s.lig.toNat ∧ s.col.toNat ≤ k ∧
        k < s.col.toNat + str.length) s s' := by
  induction str generalizing s with
  | nil => exact ⟨s, rfl, rfl, rfl, .refl⟩
  | cons c rest ih =>
      obtain ⟨first, others⟩ := List.forall_mem_cons.mp ordinary
      rw [MAX_COL, List.length_cons] at fits
      rw [List.length_cons, putbytes, treatChar_ordinary row first]
      have one : (1 : BitVec 32).toNat = 1 := rfl
      have next : (s.col + 1).toNat = s.col.toNat + 1 := by
        rw [BitVec.toNat_add, one]
        omega
      have wrote : ChangesOnly (fun r k => r = s.lig.toNat ∧ k = s.col.toNat) s
          ((s.writeChar s.lig s.col c).placeCursor s.lig (s.col + 1)) := writeChar_changes
      obtain ⟨s', run, line, column, changes⟩ := ih
        (s := (s.writeChar s.lig s.col c).placeCursor s.lig (s.col + 1)) row
        (by rw [placeCursor]; dsimp only; rw [next, MAX_COL]; omega) others
      rw [placeCursor] at column changes
      dsimp only at column changes
      rw [next] at column changes
      refine ⟨s', run, line, by omega, (wrote.mono ?_).trans (changes.mono ?_)⟩
      · intro r k member
        omega
      · intro r k member
        omega

end Screen

end IntelX86Kernel

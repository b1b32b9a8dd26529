import IntelX86Kernel.ScreenCells

/-! Where backspaces leave the cursor. -/

namespace IntelX86Kernel.Screen

variable {s s' : Screen} {n : Nat}

/-- After a string and as many backspaces, the cursor is back where it was, the cells of the
string hold no character and no other cell has changed. -/
structure Undone (s : Screen) (str : List (BitVec 8)) (s' : Screen) : Prop where
  lig : s'.lig = s.lig
  col : s'.col = s.col
  blank : ∀ k < str.length,
    (s'.cell s.lig.toNat (s.col.toNat + k)).truncate 8 = 0#8
  others : ChangesOnly (fun r k => r = s.lig.toNat ∧ s.col.toNat ≤ k ∧
    k < s.col.toNat + str.length) s s'

/-- A backspace goes one line up, not one column back. -/
theorem treatChar_backspace_eq (row : s.lig.toNat < MAX_LIG) (column : 0 < s.col.toNat) :
    s.treatChar 8 = .ok ((s.writeChar s.lig s.col 0).placeCursor
      (if s.lig = 0 then 0 else s.lig - 1) (if s.lig = 0 then s.col % 80 else s.col)) := by
  have positive : 0 < s.col := column
  rw [treatChar, treatSwitch, if_pos rfl, if_pos positive]
  dsimp only
  by_cases top : s.lig = 0
  · rw [if_pos top, if_pos top, top]
    rfl
  · have small : s.lig.toNat < 25 := row
    have nonzero : s.lig.toNat ≠ 0 := fun zero => top (BitVec.eq_of_toNat_eq zero)
    have above : (s.lig - 1).toNat < 25 := by
      have one : (1 : BitVec 32).toNat = 1 := rfl
      rw [BitVec.toNat_sub, one]
      omega
    have bound : (80 : BitVec 32).toNat = 80 := rfl
    have last : (25 : BitVec 32).toNat = 25 := rfl
    rw [if_neg top, if_neg top, if_neg (by rw [BitVec.le_def]; omega),
      if_neg (by rw [BitVec.le_def]; omega)]

theorem putbytes_backspaces (row : s.lig.toNat < MAX_LIG) (fits : s.col.toNat ≤ MAX_COL)
    (run : s.putbytes (List.replicate n 8) = .ok s') :
    s'.col = s.col ∨ s.col.toNat = 80 ∧ s'.col = 0 ∧ n = s.lig.toNat + 1 := by
  induction n generalizing s with
  | zero =>
      cases run
      exact .inl rfl
  | succ n ih =>
      rw [List.replicate_succ, putbytes] at run
      by_cases column : 0 < s.col.toNat
      · rw [treatChar_backspace_eq row column] at run
        by_cases top : s.lig = 0
        · rw [if_pos top, if_pos top] at run
          by_cases past : s.col.toNat = 80
          · have full : s.col = 80 := BitVec.eq_of_toNat_eq past
            rw [full] at run
            cases n with
            | zero =>
                cases run
                refine .inr ⟨past, rfl, ?_⟩
                rw [top]
                rfl
            | succ n => cases run
          · have same : s.col % 80 = s.col := by
              rw [MAX_COL] at fits
              exact BitVec.umod_eq_of_lt (show s.col.toNat < 80 by omega)
            rw [same] at run
            have lowest : (0 : BitVec 32).toNat < MAX_LIG := by decide
            rcases ih (s := (s.writeChar s.lig s.col 0).placeCursor 0 s.col) lowest fits run with
              kept | ⟨full, -⟩
            · exact .inl kept
            · exact absurd full past
        · rw [if_neg top, if_neg top] at run
          have nonzero : s.lig.toNat ≠ 0 := fun zero => top (BitVec.eq_of_toNat_eq zero)
          have above : (s.lig - 1).toNat = s.lig.toNat - 1 := by
            have one : (1 : BitVec 32).toNat = 1 := rfl
            have bound := s.lig.isLt
            rw [BitVec.toNat_sub, one]
            omega
          have row' : (s.lig - 1).toNat < MAX_LIG := by omega
          rcases ih (s := (s.writeChar s.lig s.col 0).placeCursor (s.lig - 1) s.col) row' fits run
            with kept | ⟨full, reset, count⟩
          · exact .inl kept
          · refine .inr ⟨full, reset, ?_⟩
            have count : n = (s.lig - 1).toNat + 1 := count
            omega
      · have first : s.col = 0 := BitVec.eq_of_toNat_eq (Nat.eq_zero_of_not_pos column)
        rw [treatChar, treatSwitch, if_pos rfl, first] at run
        cases run

/-- Backspaces undo a string that fits in the rest of the line only when it is empty. -/
theorem backspaces_undo_iff {str : List (BitVec 8)} (inside : s.InRange)
    (fits : s.col.toNat + str.length ≤ MAX_COL) (ordinary : ∀ c ∈ str, Ordinary c) :
    (∃ s', s.putbytes (str ++ List.replicate str.length 8) = .ok s' ∧ s.Undone str s') ↔
      str = [] := by
  constructor
  · rintro ⟨s', run, undone⟩
    obtain ⟨s₁, printed, line, column, -⟩ := putbytes_ordinary inside.1 fits ordinary
    rw [putbytes_append, printed] at run
    have back : s'.col = s.col := undone.col
    rw [MAX_COL] at fits
    have length : str.length = 0 := by
      rcases putbytes_backspaces (line ▸ inside.1) (by rw [column]; exact fits) run with
        kept | ⟨full, reset, count⟩
      · rw [back] at kept
        rw [← kept] at column
        omega
      · have row := inside.1
        rw [MAX_LIG] at row
        rw [back] at reset
        rw [column, reset] at full
        rw [line] at count
        have zero : (0 : BitVec 32).toNat = 0 := rfl
        omega
    exact List.eq_nil_of_length_eq_zero length
  · rintro rfl
    exact ⟨s, rfl, rfl, rfl, fun k below => absurd below (Nat.not_lt_zero k), .refl⟩

/-- Two letters in the middle of the screen. -/
theorem backspaces_undo_letters : (∃ s', (blank 5 10).putbytes [97, 98, 8, 8] = .ok s' ∧
    (blank 5 10).Undone [97, 98] s') ↔ [97, 98] = ([] : List (BitVec 8)) :=
  @backspaces_undo_iff (blank 5 10) [97, 98] ⟨by decide, by decide⟩ (by decide) (by decide)

/-- A letter and a backspace leave the cursor one line higher and one column further. -/
theorem backspace_leaves_column : ¬ ∀ (s : Screen) (c : BitVec 8), s.lig.toNat < MAX_LIG →
    s.col.toNat < 79 → Ordinary c → ∃ s', s.putbytes [c, 8] = .ok s' ∧ s.Undone [c] s' := by
  intro undo
  obtain ⟨s', run, undone⟩ := undo (blank 5 10) 97 (by decide) (by decide) (by decide)
  have there : (blank 5 10).putbytes [97, 8] = .ok s' → s'.col = 11 := by
    intro run
    cases run
    rfl
  have column : (11 : BitVec 32) = 10 := (there run).symm.trans undone.col
  exact absurd column (by decide)

end IntelX86Kernel.Screen

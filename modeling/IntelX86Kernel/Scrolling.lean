import IntelX86Kernel.ScreenCells

/-! What `scroll_down` copies, reads and clears. -/

namespace IntelX86Kernel

/-- A screen with the ranges of bytes that the block operations have read. -/
structure Traced where
  screen : Screen
  read : List Write

namespace Traced

variable (t : Traced)

def memmove (dest src : BitVec 32) (length : Nat) : Traced :=
  ⟨t.screen.memmove dest src length, ⟨src, length⟩ :: t.read⟩

def memset (dest : BitVec 32) (value : BitVec 8) (length : Nat) : Traced :=
  ⟨t.screen.memset dest value length, t.read⟩

def scrollDown : Traced :=
  let t := t.memmove (getPtrMem 0 0) (getPtrMem 1 0) (T_SIZE * (getPosition 0 70).toNat)
  let t := t.memmove (getPtrMem 1 0) (getPtrMem 2 0) (T_SIZE * (getPosition 23 80).toNat)
  t.memset (getPtrMem 24 0) 0 MAX_COL

end Traced

namespace Screen

variable {s : Screen} {r c : Nat}

/-- The lines move up by one, under the clock. -/
structure LinesMove (s s' : Screen) : Prop where
  first : ∀ c < 70, s'.cell 0 c = s.cell 1 c
  clock : ∀ c, 70 ≤ c → c < 80 → s'.cell 0 c = s.cell 0 c
  lines : ∀ r, 1 ≤ r → r ≤ 23 → ∀ c < 80, s'.cell r c = s.cell (r + 1) c

/-- Lines up by one, a blank last line, and no byte outside the screen is read or written. -/
structure ScrollsUp (s : Screen) (t : Traced) : Prop where
  lines : s.LinesMove t.screen
  last : ∀ c < 80, t.screen.cell 24 c = 0
  reads : ∀ w ∈ t.read, w.Inside
  writes : s.WritesInside t.screen

theorem scrollDown_memory {n : Nat} (near : n < 2 ^ 19) :
    s.scrollDown.memory (videoByte n) =
      if 3840 ≤ n ∧ n < 3920 then 0
      else if 160 ≤ n ∧ n < 4000 then s.memory (videoByte (n + 160))
      else if n < 140 then s.memory (videoByte (n + 160))
      else s.memory (videoByte n) := by
  have top : getPtrMem 0 0 = videoByte 0 := cellPtr_eq 0 0
  have below : getPtrMem 1 0 = videoByte 160 := cellPtr_eq 1 0
  have third : getPtrMem 2 0 = videoByte 320 := cellPtr_eq 2 0
  have bottom : getPtrMem 24 0 = videoByte 3840 := cellPtr_eq 24 0
  have first : T_SIZE * (getPosition 0 70).toNat = 140 := rfl
  have second : T_SIZE * (getPosition 23 80).toNat = 3840 := rfl
  rw [scrollDown, first, second, MAX_COL, top, below, third, bottom]
  rw [memset_memory (by omega) (by decide) (by decide)]
  by_cases cleared : 3840 ≤ n ∧ n < 3920
  · rw [if_pos cleared, if_pos cleared]
  · rw [if_neg cleared, if_neg cleared, memmove_memory (by omega) (by decide) (by decide)]
    by_cases moved : 160 ≤ n ∧ n < 4000
    · have source : 320 + (n - 160) = n + 160 := by omega
      rw [if_pos moved, if_pos moved, source, memmove_memory (by omega) (by decide) (by decide),
        if_neg (by omega)]
    · rw [if_neg moved, if_neg moved, memmove_memory (by omega) (by decide) (by decide)]
      have source : 160 + (n - 0) = n + 160 := by omega
      rw [source]
      by_cases early : n < 140
      · rw [if_pos early, if_pos (by omega)]
      · rw [if_neg early, if_neg (by omega)]

theorem scrollDown_lines : s.LinesMove s.scrollDown where
  first c column := by
    rw [cell_eq, cell_eq, scrollDown_memory (by omega), scrollDown_memory (by omega)]
    rw [if_neg (by omega), if_neg (by omega), if_pos (by omega), if_neg (by omega),
      if_neg (by omega), if_pos (by omega)]
    have source : 2 * (80 * 0 + c) + 160 = 2 * (80 * 1 + c) := by omega
    have source' : 2 * (80 * 0 + c) + 1 + 160 = 2 * (80 * 1 + c) + 1 := by omega
    rw [source, source']
  clock c after column := by
    rw [cell_eq, cell_eq, scrollDown_memory (by omega), scrollDown_memory (by omega)]
    rw [if_neg (by omega), if_neg (by omega), if_neg (by omega), if_neg (by omega),
      if_neg (by omega), if_neg (by omega)]
  lines r first last c column := by
    rw [cell_eq, cell_eq, scrollDown_memory (by omega), scrollDown_memory (by omega)]
    rw [if_neg (by omega), if_pos (by omega), if_neg (by omega), if_pos (by omega)]
    have source : 2 * (80 * r + c) + 160 = 2 * (80 * (r + 1) + c) := by omega
    have source' : 2 * (80 * r + c) + 1 + 160 = 2 * (80 * (r + 1) + c) + 1 := by omega
    rw [source, source']

/-- The last line takes its right half from what lies behind the screen. -/
theorem scrollDown_last (column : c < 80) :
    s.scrollDown.cell 24 c = if c < 40 then 0 else s.cell 25 c := by
  rw [cell_eq, cell_eq, scrollDown_memory (by omega), scrollDown_memory (by omega)]
  by_cases left : c < 40
  · rw [if_pos (by omega), if_pos (by omega), if_pos left]
    rfl
  · rw [if_neg (by omega), if_pos (by omega), if_neg (by omega), if_pos (by omega), if_neg left]
    have source : 2 * (80 * 24 + c) + 160 = 2 * (80 * 25 + c) := by omega
    have source' : 2 * (80 * 24 + c) + 1 + 160 = 2 * (80 * 25 + c) + 1 := by omega
    rw [source, source']

/-- Scrolling moves the lines and writes on the screen only. It always reads the line behind the
screen, and the last line is blank exactly when the right half of that line is. -/
theorem scrollDown_reads_behind (s : Screen) :
    ¬ s.ScrollsUp (Traced.mk s []).scrollDown ∧ s.LinesMove s.scrollDown ∧
      s.WritesInside s.scrollDown ∧
      ((∀ c < 80, s.scrollDown.cell 24 c = 0) ↔ ∀ c, 40 ≤ c → c < 80 → s.cell 25 c = 0) := by
  refine ⟨fun scrolls => ?_, scrollDown_lines, scrollDown_inside, ?_⟩
  · have moved : Write.mk (getPtrMem 2 0) 3840 ∈ (Traced.mk s []).scrollDown.read :=
      List.mem_cons_self
    have inside := scrolls.reads _ moved
    revert inside
    decide
  · constructor
    · intro blank c right column
      have cell := blank c column
      rw [scrollDown_last column, if_neg (Nat.not_lt.mpr right)] at cell
      exact cell
    · intro behind c column
      rw [scrollDown_last column]
      split
      · rfl
      · next right => exact behind c (Nat.le_of_not_lt right) column

/-- With ones in all of the memory, the last line is not blank either. -/
theorem scrollDown_reads_behind_filled :
    ¬ ∀ s : Screen, s.ScrollsUp (Traced.mk s []).scrollDown := by
  intro scrolls
  have cell := (scrolls ⟨fun _ => 1, 24, 0, []⟩).last 40 (by decide)
  revert cell
  decide

end Screen

end IntelX86Kernel

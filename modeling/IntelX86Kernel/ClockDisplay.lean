import IntelX86Kernel.ScreenCells

/-! The time kept by kernel/timer.c and its display in the corner of the screen. -/

namespace IntelX86Kernel

def CLOCKFREQ : Nat := 50

structure Time where
  hours : BitVec 32
  minutes : BitVec 32
  seconds : BitVec 32
  ms : BitVec 16
  totalSeconds : BitVec 32
  nbInterrupt : BitVec 32
  deriving DecidableEq

def Time.boot : Time := ⟨0, 0, 0, 0, 0, 0⟩

def Time.incrementTime (time : Time) : Time :=
  let time := { time with nbInterrupt := time.nbInterrupt + 1 }
  if time.ms.toNat < 1000 - 1000 / CLOCKFREQ then
    { time with ms := time.ms + .ofNat 16 (1000 / CLOCKFREQ) }
  else
    let time := { time with ms := 0, totalSeconds := time.totalSeconds + 1 }
    { time with
      seconds := time.totalSeconds % 60
      minutes := time.totalSeconds / 60 % 60
      hours := time.totalSeconds / (60 * 60) }

/-- The characters that `%02d` prints: decimal digits, with zeros in front up to two characters. -/
def percent02d (value : Int) : List (BitVec 8) :=
  let digits := (Nat.toDigits 10 value.natAbs).map fun digit => BitVec.ofNat 8 digit.toNat
  if value < 0 then 45 :: digits else digits.leftpad 2 48

def Time.text (time : Time) : List (BitVec 8) :=
  percent02d 0 ++ 58 :: percent02d time.minutes.toInt ++ 58 :: percent02d time.seconds.toInt

def Screen.displayTopRight (screen : Screen) (str : List (BitVec 8)) : Except Fault Screen := do
  let printed ← (screen.placeCursor 0 70).consolePutbytes str 8
  .ok (printed.placeCursor screen.lig screen.col)

/-- What `clock_interrupt` does before it calls the scheduler. -/
def Time.clockInterrupt (time : Time) (screen : Screen) : Except Fault (Time × Screen) :=
  let time := time.incrementTime
  if time.ms.toNat < 20 then do
    let screen ← screen.displayTopRight time.text
    .ok (time, screen)
  else .ok (time, screen)

def Time.after : Nat → Time
  | 0 => .boot
  | n + 1 => (Time.after n).incrementTime

structure Time.Counts (time : Time) (n : Nat) : Prop where
  nbInterrupt : time.nbInterrupt.toNat = n
  totalSeconds : time.totalSeconds.toNat = n / 50
  ms : time.ms.toNat = 20 * (n % 50)
  seconds : time.seconds.toNat = time.totalSeconds.toNat % 60
  minutes : time.minutes.toNat = time.totalSeconds.toNat / 60 % 60
  hours : time.hours.toNat = time.totalSeconds.toNat / 3600

namespace Time

variable {time : Time} {n : Nat}

theorem Counts.increment (counts : time.Counts n) (small : n + 1 < 2 ^ 32) :
    time.incrementTime.Counts (n + 1) := by
  have one : (1 : BitVec 32).toNat = 1 := rfl
  have number : (time.nbInterrupt + 1).toNat = n + 1 := by
    rw [BitVec.toNat_add, counts.nbInterrupt, one]
    exact Nat.mod_eq_of_lt small
  have step : 1000 / CLOCKFREQ = 20 := rfl
  have ms := counts.ms
  have total := counts.totalSeconds
  rw [incrementTime]
  dsimp only
  rw [step]
  by_cases within : time.ms.toNat < 1000 - 20
  · rw [if_pos within]
    have twenty : (BitVec.ofNat 16 20).toNat = 20 := rfl
    have low : n % 50 < 49 := by omega
    have next : (n + 1) % 50 = n % 50 + 1 := by omega
    have later : (time.ms + BitVec.ofNat 16 20).toNat = 20 * ((n + 1) % 50) := by
      rw [BitVec.toNat_add, twenty, ms, next]
      omega
    have second : (n + 1) / 50 = n / 50 := by omega
    exact ⟨number, total.trans second.symm, later, counts.seconds, counts.minutes, counts.hours⟩
  · rw [if_neg within]
    have last : n % 50 = 49 := by omega
    have second : (time.totalSeconds + 1).toNat = (n + 1) / 50 := by
      rw [BitVec.toNat_add, one, total]
      omega
    have again : 20 * ((n + 1) % 50) = 0 := by omega
    refine ⟨number, second, again.symm, ?_, ?_, ?_⟩
    · exact BitVec.toNat_umod
    · change ((time.totalSeconds + 1) / 60 % 60).toNat = _
      rw [BitVec.toNat_umod, BitVec.toNat_udiv]
      rfl
    · exact BitVec.toNat_udiv

theorem after_counts (small : n < 2 ^ 32) : (after n).Counts n := by
  induction n with
  | zero => exact ⟨rfl, rfl, rfl, rfl, rfl, rfl⟩
  | succ n ih => exact (ih (Nat.lt_of_succ_lt small)).increment small

theorem ordinary_digit {digit : Char} (decimal : digit.isDigit = true) :
    Screen.Ordinary (.ofNat 8 digit.toNat) := by
  have table : ∀ n < 58, 48 ≤ n → Screen.Ordinary (.ofNat 8 n) := by decide
  obtain ⟨low, high⟩ := Char.isDigit_iff_toNat.mp decimal
  exact table digit.toNat (Nat.lt_succ_of_le high) low

theorem percent02d_of_lt {value : Nat} (small : value < 100) :
    (percent02d value).length = 2 ∧ ∀ c ∈ percent02d value, Screen.Ordinary c := by
  have natural : ¬ (value : Int) < 0 := Int.not_lt.mpr (Int.natCast_nonneg value)
  rw [percent02d, if_neg natural, Int.natAbs_natCast]
  constructor
  · have width : (Nat.toDigits 10 value).length ≤ 2 :=
      (Nat.length_toDigits_le_iff (by decide) (by decide)).mpr small
    rw [List.length_leftpad, List.length_map]
    exact Nat.max_eq_left width
  · intro c member
    rcases List.mem_append.mp member with pad | digits
    · rw [List.eq_of_mem_replicate pad]
      decide
    · obtain ⟨digit, among, rfl⟩ := List.mem_map.mp digits
      exact ordinary_digit (Nat.isDigit_of_mem_toDigits (by decide) (by decide) among)

theorem toInt_of_lt {value : BitVec 32} (small : value.toNat < 60) :
    value.toInt = (value.toNat : Int) := by
  rw [BitVec.toInt_eq_toNat_of_lt (by omega)]

/-- Also when the counters have wrapped around. -/
theorem after_sixty (n : Nat) : (after n).minutes.toNat < 60 ∧ (after n).seconds.toNat < 60 := by
  induction n with
  | zero => decide
  | succ n ih =>
      rw [after, incrementTime]
      dsimp only
      split
      · exact ih
      · constructor
        · rw [BitVec.toNat_umod]
          exact Nat.mod_lt _ (by decide)
        · rw [BitVec.toNat_umod]
          exact Nat.mod_lt _ (by decide)

theorem after_text (n : Nat) :
    (after n).text.length = 8 ∧ ∀ c ∈ (after n).text, Screen.Ordinary c := by
  obtain ⟨minutes, seconds⟩ := after_sixty n
  obtain ⟨width, zeros⟩ := percent02d_of_lt (show 0 < 100 by decide)
  obtain ⟨width₁, digits₁⟩ := percent02d_of_lt (Nat.lt_trans minutes (by decide))
  obtain ⟨width₂, digits₂⟩ := percent02d_of_lt (Nat.lt_trans seconds (by decide))
  have colon : Screen.Ordinary 58 := by decide
  rw [Time.text, toInt_of_lt minutes, toInt_of_lt seconds]
  constructor
  · rw [List.length_append, List.length_append, List.length_cons, List.length_cons, width₁,
      width₂]
    exact congrArg (· + 3 + 3) width
  · intro c member
    rcases List.mem_append.mp member with member | member
    · rcases List.mem_append.mp member with member | member
      · exact zeros c member
      · rcases List.mem_cons.mp member with rfl | member
        · exact colon
        · exact digits₁ c member
    · rcases List.mem_cons.mp member with rfl | member
      · exact colon
      · exact digits₂ c member

end Time

theorem Screen.displayTopRight_frame {str : List (BitVec 8)} (screen : Screen)
    (length : str.length = 8) (ordinary : ∀ c ∈ str, Ordinary c) :
    ∃ shown, screen.displayTopRight str = .ok shown ∧ shown.lig = screen.lig ∧
      shown.col = screen.col ∧
      ChangesOnly (fun r c => r = 0 ∧ 70 ≤ c ∧ c < 78) screen shown := by
  have top : (0 : BitVec 32).toNat < MAX_LIG := by decide
  have room : (screen.placeCursor 0 70).col.toNat + str.length ≤ MAX_COL := by
    rw [length]
    exact (by decide : (70 : BitVec 32).toNat + 8 ≤ MAX_COL)
  obtain ⟨printed, run, -, -, changes⟩ := putbytes_ordinary (s := screen.placeCursor 0 70) top room ordinary
  have all : str.take (8 : Int).toNat = str := List.take_of_length_le (Nat.le_of_eq length)
  refine ⟨printed.placeCursor screen.lig screen.col, ?_, rfl, rfl, ?_⟩
  · rw [displayTopRight, consolePutbytes, all, run]
    rfl
  · have corner : ChangesOnly (fun r c => r = 0 ∧ 70 ≤ c ∧ c < 70 + str.length) screen printed :=
      changes
    rw [length] at corner
    exact corner

namespace Time

/-- The time counts the interrupts, its text has eight characters, and each interrupt changes
only the eight cells of the clock and keeps the cursor. -/
theorem clock_consistent (n : Nat) (small : n < 2 ^ 32) :
    (after n).Counts n ∧ (after n).text.length = 8 ∧
      ∀ (m : Nat) (screen : Screen), n = m + 1 →
        ∃ shown, (after m).clockInterrupt screen = .ok (after n, shown) ∧
          shown.lig = screen.lig ∧ shown.col = screen.col ∧
          Screen.ChangesOnly (fun r c => r = 0 ∧ 70 ≤ c ∧ c < 78) screen shown := by
  have counts := after_counts small
  obtain ⟨length, ordinary⟩ := after_text n
  refine ⟨counts, length, fun m screen next => ?_⟩
  subst next
  rw [clockInterrupt]
  split
  · obtain ⟨shown, display, line, column, changes⟩ :=
      screen.displayTopRight_frame length ordinary
    refine ⟨shown, ?_, line, column, changes⟩
    rw [after] at display ⊢
    rw [display]
    rfl
  · exact ⟨screen, rfl, rfl, rfl, .refl⟩

/-- A bit more than one hour after the start. -/
theorem clock_consistent_hour :
    (after 184050).Counts 184050 ∧ (after 184050).text.length = 8 ∧
      ∀ (m : Nat) (screen : Screen), 184050 = m + 1 →
        ∃ shown, (after m).clockInterrupt screen = .ok (after 184050, shown) ∧
          shown.lig = screen.lig ∧ shown.col = screen.col ∧
          Screen.ChangesOnly (fun r c => r = 0 ∧ 70 ≤ c ∧ c < 78) screen shown :=
  clock_consistent 184050 (by decide)

end Time

end IntelX86Kernel

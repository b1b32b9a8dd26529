import IntelX86Kernel.Screen

/-! The cursor and the writes of `console_putbytes`. -/

namespace IntelX86Kernel

def Write.Inside (w : Write) : Prop :=
  MEM_VIDEO.toNat ≤ w.start.toNat ∧
    w.start.toNat + w.length ≤ MEM_VIDEO.toNat + T_SIZE * (MAX_LIG * MAX_COL)

instance (w : Write) : Decidable w.Inside := inferInstanceAs (Decidable (_ ∧ _))

namespace Screen

variable {s s' : Screen} {lig col : BitVec 32} {c : BitVec 8} {str : List (BitVec 8)}

def InRange (s : Screen) : Prop := s.lig.toNat < MAX_LIG ∧ s.col.toNat < MAX_COL

def WritesInside (s s' : Screen) : Prop := ∀ w ∈ s'.written, w ∈ s.written ∨ w.Inside

theorem WritesInside.refl : WritesInside s s := fun _ => Or.inl

theorem WritesInside.trans {s'' : Screen} (first : WritesInside s s')
    (second : WritesInside s' s'') : WritesInside s s'' := by
  intro w member
  rcases second w member with old | inside
  · exact first w old
  · exact .inr inside

theorem WritesInside.add {w : Write} (inside : w.Inside) (written : s'.written = w :: s.written) :
    WritesInside s s' := by
  intro w' member
  rw [written] at member
  rcases List.mem_cons.mp member with rfl | old
  · exact .inr inside
  · exact .inl old

theorem getPtrMem_toNat (row : lig.toNat < MAX_LIG) (column : col.toNat < MAX_COL) :
    (getPtrMem lig col).toNat = MEM_VIDEO.toNat + T_SIZE * (lig.toNat * MAX_COL + col.toNat) := by
  have base : MEM_VIDEO.toNat = 0xB8000 := rfl
  rw [MAX_LIG] at row
  rw [MAX_COL] at column
  rw [getPtrMem, getPosition, T_SIZE, MAX_COL, BitVec.toNat_add, BitVec.toNat_mul,
    BitVec.toNat_add, BitVec.toNat_mul, base]
  have eighty : (80 : BitVec 32).toNat = 80 := rfl
  have two : (2 : BitVec 32).toNat = 2 := rfl
  rw [eighty, two]
  omega

theorem writeChar_inside (row : lig.toNat < MAX_LIG) (column : col.toNat < MAX_COL) :
    WritesInside s (s.writeChar lig col c) := by
  have inside : Write.Inside ⟨getPtrMem lig col, 2⟩ := by
    have place := getPtrMem_toNat row column
    rw [MAX_LIG] at row
    rw [MAX_COL, T_SIZE] at *
    constructor
    · rw [place]
      exact Nat.le_add_right _ _
    · dsimp only
      rw [place, MAX_LIG, T_SIZE, MAX_COL]
      omega
  exact (WritesInside.add inside rfl).trans (WritesInside.add inside rfl)

theorem clearScreen_inside : WritesInside s s.clearScreen := by
  refine List.foldlRecOn (motive := fun t => WritesInside s t) _ _ .refl fun t before j row => ?_
  refine List.foldlRecOn (motive := fun t => WritesInside s t) _ _ before fun t before i column => ?_
  have small {n : Nat} (below : n < 80) : (BitVec.ofNat 32 n).toNat = n := by
    rw [BitVec.toNat_ofNat]
    omega
  have row' := List.mem_range.mp row
  have column' := List.mem_range.mp column
  refine before.trans (writeChar_inside ?_ ?_)
  · rw [small (Nat.lt_trans row' (by decide))]
    exact row'
  · rw [small column']
    exact column'

theorem scrollDown_inside : WritesInside s s.scrollDown := by
  have first : Write.Inside ⟨getPtrMem 0 0, T_SIZE * (getPosition 0 70).toNat⟩ := by decide
  have second : Write.Inside ⟨getPtrMem 1 0, T_SIZE * (getPosition 23 80).toNat⟩ := by decide
  have third : Write.Inside ⟨getPtrMem 24 0, MAX_COL⟩ := by decide
  exact ((WritesInside.add first rfl).trans (WritesInside.add second rfl)).trans
    (WritesInside.add third rfl)

/-- The characters that leave the cursor on the screen. -/
def Fits (s : Screen) (c : BitVec 8) : Prop :=
  (c = 8 → s.col ≠ 0) ∧ (c = 9 → s.col.toNat < 72) ∧
    (c ∉ [8, 9, 10, 12, 13] → s.col.toNat ≠ 79)

def Stays (s : Screen) (c : BitVec 8) (s' : Screen) : Prop :=
  s.treatChar c = .ok s' ∧ s'.InRange ∧ WritesInside s s'

theorem treatChar_of_switch {t : Screen} (switch : s.treatSwitch c = (t, some (lig, col)))
    (row : lig.toNat ≤ MAX_LIG) (writes : WritesInside s t) :
    ∃ s', s.treatChar c = .ok s' ∧ s'.lig.toNat < MAX_LIG ∧ s'.col = col ∧ WritesInside s s' := by
  have below : ¬ 80 ≤ lig := by
    rw [BitVec.le_def]
    exact Nat.not_le.mpr (Nat.lt_of_le_of_lt row (by decide))
  rw [treatChar, switch]
  dsimp only
  rw [if_neg below]
  by_cases last : 25 ≤ lig
  · rw [if_pos last]
    have lowest : (24 : BitVec 32).toNat < MAX_LIG := by decide
    exact ⟨_, rfl, lowest, rfl, writes.trans scrollDown_inside⟩
  · rw [if_neg last]
    exact ⟨_, rfl, Nat.not_le.mp last, rfl, writes⟩

theorem treatChar_backspace (inside : s.InRange) (column : s.col ≠ 0) :
    ∃ s', s.Stays 8 s' := by
  obtain ⟨row, bounded⟩ := inside
  have positive : 0 < s.col := by bv_omega
  have writes : WritesInside s (s.writeChar s.lig s.col 0) := writeChar_inside row bounded
  have switch : s.treatSwitch 8 = (s.writeChar s.lig s.col 0, some (s.lig - 1, s.col)) := by
    rw [treatSwitch, if_pos rfl, if_pos positive]
  by_cases first : s.lig = 0
  · refine ⟨(s.writeChar s.lig s.col 0).placeCursor (s.lig - 1 + 1) (s.col % 80), ?_, ?_, writes⟩
    · rw [treatChar, switch, first]
      rfl
    · constructor
      · change (s.lig - 1 + 1).toNat < MAX_LIG
        rw [first]
        decide
      · change (s.col % 80).toNat < MAX_COL
        rw [BitVec.toNat_umod]
        exact Nat.mod_lt _ (by decide)
  · have above : (s.lig - 1).toNat ≤ MAX_LIG := by
      rw [MAX_LIG] at row ⊢
      have nonzero : s.lig.toNat ≠ 0 := fun zero => first (BitVec.eq_of_toNat_eq zero)
      bv_omega
    obtain ⟨s', treated, row', same, writes'⟩ := treatChar_of_switch switch above writes
    exact ⟨s', treated, ⟨row', same ▸ bounded⟩, writes'⟩

def nextColumn (s : Screen) (c : BitVec 8) : BitVec 32 :=
  if c = 9 then (s.col / 8 + 1) * 8 else if c = 10 ∨ c = 12 ∨ c = 13 then 0 else s.col + 1

theorem treatSwitch_other (inside : s.InRange) (other : c ≠ 8) :
    ∃ t lig, s.treatSwitch c = (t, some (lig, s.nextColumn c)) ∧ lig.toNat ≤ MAX_LIG ∧
      WritesInside s t := by
  obtain ⟨row, column⟩ := inside
  rw [treatSwitch, if_neg other, nextColumn]
  split
  · exact ⟨s, s.lig, rfl, Nat.le_of_lt row, .refl⟩
  · split
    · next newline =>
      rw [if_pos (.inl newline)]
      refine ⟨s, s.lig + 1, rfl, ?_, .refl⟩
      rw [MAX_LIG] at row ⊢
      bv_omega
    · split
      · next feed =>
        rw [if_pos (.inr (.inl feed))]
        exact ⟨s.clearScreen, 0, rfl, Nat.zero_le _, clearScreen_inside⟩
      · split
        · next carriage =>
          rw [if_pos (.inr (.inr carriage))]
          exact ⟨s, s.lig, rfl, Nat.le_of_lt row, .refl⟩
        · next newline feed carriage =>
          rw [if_neg (by rintro (same | same | same) <;> contradiction)]
          exact ⟨s.writeChar s.lig s.col c, s.lig, rfl, Nat.le_of_lt row, writeChar_inside row column⟩

theorem nextColumn_fits (column : s.col.toNat < MAX_COL) (other : c ≠ 8) :
    (s.nextColumn c).toNat < MAX_COL ↔ s.Fits c := by
  rw [MAX_COL] at column ⊢
  rw [nextColumn, Fits]
  split
  · next tab =>
    subst tab
    have eight : (8 : BitVec 32).toNat = 8 := rfl
    have one : (1 : BitVec 32).toNat = 1 := rfl
    rw [BitVec.toNat_mul, BitVec.toNat_add, BitVec.toNat_udiv, eight, one]
    constructor
    · intro next
      refine ⟨fun same => absurd same (by decide), fun _ => ?_, fun apart => absurd ?_ apart⟩
      · omega
      · decide
    · rintro ⟨-, early, -⟩
      have early := early rfl
      omega
  · next tab =>
    split
    · next control =>
      refine ⟨fun _ => ⟨fun same => absurd same other, fun same => absurd same tab,
        fun apart => absurd ?_ apart⟩, fun _ => by decide⟩
      rcases control with rfl | rfl | rfl <;> decide
    · next control =>
      have ordinary : c ∉ [8, 9, 10, 12, 13] := by simp_all
      have one : (1 : BitVec 32).toNat = 1 := rfl
      rw [BitVec.toNat_add, one]
      constructor
      · intro next
        refine ⟨fun same => absurd same other, fun same => absurd same tab, fun _ => ?_⟩
        omega
      · rintro ⟨-, -, room⟩
        have room := room ordinary
        omega

/-- A character keeps the cursor and the writes on the screen exactly when it is not a
backspace in the first column, a tab in the last eight or an ordinary one in the last. -/
theorem treatChar_stays (inside : s.InRange) : (∃ s', s.Stays c s') ↔ s.Fits c := by
  by_cases backspace : c = 8
  · subst backspace
    constructor
    · rintro ⟨s', treated, -⟩
      refine ⟨fun _ first => ?_, fun same => absurd same (by decide), fun apart => absurd ?_ apart⟩
      · rw [treatChar, treatSwitch, if_pos rfl, first] at treated
        cases treated
      · decide
    · rintro ⟨column, -, -⟩
      exact treatChar_backspace inside (column rfl)
  · obtain ⟨t, lig, switch, row, writes⟩ := treatSwitch_other inside backspace
    obtain ⟨s', treated, row', column, writes'⟩ := treatChar_of_switch switch row writes
    rw [← nextColumn_fits inside.2 backspace]
    constructor
    · rintro ⟨s'', treated', inside', -⟩
      rw [treated, Except.ok.injEq] at treated'
      rw [← column, treated']
      exact inside'.2
    · intro bounded
      exact ⟨s', treated, ⟨row', column ▸ bounded⟩, writes'⟩

def StaysThrough (s s' : Screen) : List (BitVec 8) → Prop
  | [] => s' = s
  | c :: rest => ∃ s₁, s.Stays c s₁ ∧ s₁.StaysThrough s' rest

def AllFit (s : Screen) : List (BitVec 8) → Prop
  | [] => True
  | c :: rest => s.Fits c ∧ ∀ s₁, s.treatChar c = .ok s₁ → s₁.AllFit rest

instance (s : Screen) (c : BitVec 8) : Decidable (s.Fits c) :=
  inferInstanceAs (Decidable ((_ → _) ∧ (_ → _) ∧ (_ → _)))

instance AllFit.decidable : ∀ (s : Screen) (str : List (BitVec 8)), Decidable (s.AllFit str)
  | _, [] => .isTrue trivial
  | s, c :: rest =>
      match treated : s.treatChar c with
      | .ok s₁ =>
          have := AllFit.decidable s₁ rest
          decidable_of_iff (s.Fits c ∧ s₁.AllFit rest)
            (and_congr_right fun _ => ⟨fun fit s₂ same => by
              rw [treated, Except.ok.injEq] at same
              exact same ▸ fit, fun fit => fit s₁ treated⟩)
      | .error _ =>
          decidable_of_iff (s.Fits c) ⟨fun fits => ⟨fits, fun s₂ same => by
            rw [treated] at same
            cases same⟩, And.left⟩

theorem StaysThrough.putbytes (stays : s.StaysThrough s' str) : s.putbytes str = .ok s' := by
  induction str generalizing s with
  | nil => exact congrArg Except.ok (Eq.symm stays)
  | cons c rest ih =>
      obtain ⟨s₁, ⟨treated, -⟩, stays⟩ := stays
      rw [Screen.putbytes, treated]
      exact ih stays

theorem StaysThrough.inRange (stays : s.StaysThrough s' str) (inside : s.InRange) : s'.InRange := by
  induction str generalizing s with
  | nil => exact (show s' = s from stays) ▸ inside
  | cons c rest ih =>
      obtain ⟨s₁, ⟨-, inside₁, -⟩, stays⟩ := stays
      exact ih stays inside₁

theorem staysThrough_iff (inside : s.InRange) : (∃ s', s.StaysThrough s' str) ↔ s.AllFit str := by
  induction str generalizing s with
  | nil => exact ⟨fun _ => trivial, fun _ => ⟨s, rfl⟩⟩
  | cons c rest ih =>
      constructor
      · rintro ⟨s', s₁, stays, through⟩
        refine ⟨(treatChar_stays inside).mp ⟨s₁, stays⟩, fun s₂ treated => ?_⟩
        rw [stays.1, Except.ok.injEq] at treated
        subst treated
        exact (ih stays.2.1).mp ⟨s', through⟩
      · rintro ⟨fits, rest⟩
        obtain ⟨s₁, stays⟩ := (treatChar_stays inside).mpr fits
        obtain ⟨s', through⟩ := (ih stays.2.1).mpr (rest s₁ stays.1)
        exact ⟨s', s₁, stays, through⟩

theorem allFit_append {later : List (BitVec 8)} (stays : s.StaysThrough s' str) :
    s.AllFit (str ++ later) ↔ s.AllFit str ∧ s'.AllFit later := by
  induction str generalizing s with
  | nil =>
      have same : s' = s := stays
      rw [same]
      exact ⟨fun fit => ⟨trivial, fit⟩, And.right⟩
  | cons c rest ih =>
      obtain ⟨s₁, ⟨treated, -⟩, stays⟩ := stays
      have only (P : Screen → Prop) : (∀ s₂, s.treatChar c = .ok s₂ → P s₂) ↔ P s₁ := by
        refine ⟨fun all => all s₁ treated, fun holds s₂ treated' => ?_⟩
        rw [treated, Except.ok.injEq] at treated'
        exact treated' ▸ holds
      rw [List.cons_append, AllFit, AllFit, only, only, ih stays, and_assoc]

theorem allFit_of_append {later : List (BitVec 8)} (fit : s.AllFit (str ++ later)) :
    s.AllFit str := by
  induction str generalizing s with
  | nil => trivial
  | cons c rest ih => exact ⟨fit.1, fun s₁ treated => ih (fit.2 s₁ treated)⟩

/-- Calls of `console_putbytes` one after the other, each of them treating all its characters
with the cursor and the writes on the screen. -/
def CallsStay (s s' : Screen) : List (List (BitVec 8) × Int) → Prop
  | [] => s' = s
  | (str, len) :: calls => ∃ s₁, s.consolePutbytes str len = .ok s₁ ∧
      s.StaysThrough s₁ (str.take len.toNat) ∧ s₁.CallsStay s' calls

def characters (calls : List (List (BitVec 8) × Int)) : List (BitVec 8) :=
  calls.flatMap fun call => call.1.take call.2.toNat

/-- Console output stays on the screen exactly when every character fits. -/
theorem output_stays_on_screen (inside : s.InRange) (calls : List (List (BitVec 8) × Int)) :
    (∃ s', s.CallsStay s' calls) ↔ s.AllFit (characters calls) := by
  induction calls generalizing s with
  | nil => exact ⟨fun _ => trivial, fun _ => ⟨s, rfl⟩⟩
  | cons call calls ih =>
      obtain ⟨str, len⟩ := call
      have split : characters ((str, len) :: calls) =
        str.take len.toNat ++ characters calls := List.flatMap_cons
      rw [split]
      constructor
      · rintro ⟨s', s₁, -, through, stay⟩
        rw [allFit_append through]
        exact ⟨(staysThrough_iff inside).mp ⟨s₁, through⟩,
          (ih (through.inRange inside)).mp ⟨s', stay⟩⟩
      · intro fit
        obtain ⟨s₁, through⟩ := (staysThrough_iff inside).mpr (allFit_of_append fit)
        rw [allFit_append through] at fit
        obtain ⟨s', stay⟩ := (ih (through.inRange inside)).mpr fit.2
        exact ⟨s', s₁, through.putbytes, through, stay⟩

end Screen

open Screen

def Screen.blank (lig col : BitVec 32) : Screen := ⟨fun _ => 0, lig, col, []⟩

/-- Two calls, at the bottom of the screen. -/
theorem output_stays_on_screen_scrolling :
    ∃ s', (Screen.blank 24 77).CallsStay s' [([97, 10, 98], 2), ([9, 99, 8], 3)] := by
  exact (output_stays_on_screen ⟨by decide, by decide⟩ _).mpr (by decide +kernel)

/-- An ordinary character in the last column leaves the cursor beyond it. -/
theorem output_leaves_screen : ¬ ∀ (s : Screen) (calls : List (List (BitVec 8) × Int)),
    s.InRange → ∃ s', s.CallsStay s' calls := by
  intro stays
  have inside : (Screen.blank 0 79).InRange := ⟨by decide, by decide⟩
  obtain ⟨s', s₁, -, ⟨s₂, stay, -⟩, -⟩ := stays (Screen.blank 0 79) [([97], 1)] inside
  have fits := (treatChar_stays inside).mp ⟨s₂, stay⟩
  exact fits.2.2 (by decide) (by decide)

end IntelX86Kernel

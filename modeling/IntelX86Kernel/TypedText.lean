import IntelX86Kernel.Numerals
import IntelX86Kernel.Scancodes
import Mathlib.Data.Fintype.Basic

/-! What one types at the keyboard: characters by their codes on the pad, and text. -/

namespace IntelX86Kernel

open Keyboard
open Positional (value value_cons)

def altKey : Key := ⟨false, 0x38, by decide, by decide⟩

def padCodes : List (BitVec 8) := [0x52, 0x4f, 0x50, 0x51, 0x4b, 0x4c, 0x4d, 0x47, 0x48, 0x49]

def padKey (digit : Fin 10) : Key where
  extended := false
  code := padCodes.getD digit 0
  fits := by revert digit; decide
  known := by revert digit; decide

def tap (key : Key) : List Stroke := [.moves key false, .moves key true]

def altCode (digits : List (Fin 10)) : List Stroke :=
  [.moves altKey false] ++ digits.flatMap (fun digit => tap (padKey digit)) ++ [.moves altKey true]

namespace Desk

variable {desk : Desk} {event : KeyEvent} {k v : Nat}

theorem mods_zero (none : desk.mods = 0) (known : modifier k = some v) : desk.holds k = false := by
  have bit : desk.mods.getLsbD v = decide (down desk.holds v ≠ 0) :=
    shifts_getLsbD (modifier_lt known)
  have clear : desk.mods.getLsbD v = false := by
    rw [none]
    exact BitVec.getLsbD_zero
  rw [clear] at bit
  have empty := of_decide_eq_false bit.symm
  by_contra here
  apply empty
  rw [down]
  exact Nat.ne_of_gt (List.countP_pos_iff.mpr
    ⟨k, mem_modifierKeys.mpr known, eq_true_of_ne_false here⟩)

theorem moved_mods (other : modifier event.keycode.toNat = none) :
    (desk.moved event).mods = desk.mods := by
  rw [mods, moved_holds, down_other other, mods]

theorem moved_mods_press (known : modifier event.keycode.toNat = some v) (press : event.up = false)
    (free : desk.holds event.keycode.toNat = false) :
    (desk.moved event).mods = desk.mods ||| (1#32 <<< v) := by
  have counts := down_press known free
  rw [mods, moved_holds, press, Bool.not_false, counts, mods]
  symm
  apply shifts_or _ _ (modifier_lt known)
  · rw [Function.update_self]
    exact Nat.succ_ne_zero _
  · intro w apart
    rw [Function.update_of_ne apart]

structure UnderAlt (desk : Desk) : Prop where
  mods : desk.mods = 8
  held : desk.holds 56 = true

theorem altKey_press (none : desk.mods = 0) :
    desk.Expects ⟨altKey.keycode, false⟩ ∧ (desk.step ⟨altKey.keycode, false⟩).2 = [] ∧
      (desk.step ⟨altKey.keycode, false⟩).1.UnderAlt ∧
      (desk.step ⟨altKey.keycode, false⟩).1.code = desk.code := by
  have means : ∀ caps num, meaning 0 caps num altKey.keycode = some (.modifier 3) := by
    decide +kernel
  have known : modifier altKey.keycode.toNat = some 3 := rfl
  have free := mods_zero none known
  have step : desk.step ⟨altKey.keycode, false⟩ = (desk.moved ⟨altKey.keycode, false⟩, []) := by
    rw [Desk.step, none, means]
    rfl
  rw [step]
  refine ⟨fun up => (Bool.false_ne_true up).elim, rfl, ⟨?_, ?_⟩, rfl⟩
  · rw [moved_mods_press known rfl free, none]
    rfl
  · rw [moved_holds]
    exact Function.update_self _ _ _

theorem altKey_release (alt : desk.UnderAlt) (typing : desk.code ≠ -1) :
    desk.Expects ⟨altKey.keycode, true⟩ ∧
      (desk.step ⟨altKey.keycode, true⟩).2 = plainText [[desk.code.setWidth 8]] ∧
      (desk.step ⟨altKey.keycode, true⟩).1.mods = 0 ∧
      (desk.step ⟨altKey.keycode, true⟩).1.code = -1 := by
  have means : ∀ caps num, meaning 8 caps num altKey.keycode = some (.modifier 3) := by
    decide +kernel
  have known : modifier altKey.keycode.toNat = some 3 := rfl
  have releases : desk.releases ⟨altKey.keycode, true⟩ = true := by
    rw [releases, show desk.holds altKey.keycode.toNat = true from alt.held]
    rfl
  have last : down (desk.moved ⟨altKey.keycode, true⟩).holds 3 = 0 := by
    rw [moved_holds]
    rfl
  have step : desk.step ⟨altKey.keycode, true⟩ =
      ({ desk.moved ⟨altKey.keycode, true⟩ with code := -1 },
        plainText [[desk.code.setWidth 8]]) := by
    rw [Desk.step, alt.mods, means, releases]
    exact if_pos ⟨rfl, last, typing⟩
  rw [step]
  refine ⟨fun _ _ => of_decide_eq_true alt.held, rfl, ?_, rfl⟩
  have counts := down_release known (show desk.holds altKey.keycode.toNat = true from alt.held)
  have clear := shifts_and (down desk.holds) (down (desk.moved ⟨altKey.keycode, true⟩).holds)
    (modifier_lt known) last (by
      intro w apart
      rw [moved_holds, counts, Function.update_of_ne apart]
      rfl)
  change (desk.moved ⟨altKey.keycode, true⟩).mods = 0
  rw [mods, ← clear, ← mods, alt.mods]
  rfl

theorem UnderAlt.moved (alt : desk.UnderAlt) (other : modifier event.keycode.toNat = none) :
    (desk.moved event).UnderAlt := by
  refine ⟨(moved_mods other).trans alt.mods, ?_⟩
  rw [moved_holds, Function.update_of_ne, alt.held]
  intro same
  rw [← same] at other
  cases other

theorem padKey_tap (alt : desk.UnderAlt) (digit : Fin 10) :
    desk.ExpectsAll ((tap (padKey digit)).flatMap Stroke.events) ∧
      (desk.run ((tap (padKey digit)).flatMap Stroke.events)).2 = [] ∧
      (desk.run ((tap (padKey digit)).flatMap Stroke.events)).1.UnderAlt ∧
      (desk.run ((tap (padKey digit)).flatMap Stroke.events)).1.code =
        if desk.code = -1 then BitVec.ofNat 32 digit
        else desk.code * 10 + BitVec.ofNat 32 digit := by
  have all : ∀ digit : Fin 10,
      (∀ caps num, meaning 8 caps num (padKey digit).keycode =
        some (.digit 10 (BitVec.ofNat 8 digit))) ∧
      modifier (padKey digit).keycode.toNat = none ∧
      (BitVec.ofNat 8 digit).setWidth 32 = BitVec.ofNat 32 digit := by decide +kernel
  obtain ⟨means, other, wide⟩ := all digit
  generalize pressed : { desk.moved ⟨(padKey digit).keycode, false⟩ with
    code := if desk.code = -1 then BitVec.ofNat 32 digit
      else desk.code * 10 + BitVec.ofNat 32 digit } = next
  have press : desk.step ⟨(padKey digit).keycode, false⟩ = (next, []) := by
    rw [Desk.step, alt.mods, means, ← pressed, ← wide]
    rfl
  have alt' : next.UnderAlt := by
    rw [← pressed]
    exact { alt.moved other with }
  have held : next.holds (padKey digit).keycode.toNat = true := by
    rw [← pressed]
    change (desk.moved _).holds _ = true
    rw [moved_holds]
    exact Function.update_self _ _ _
  have release : next.step ⟨(padKey digit).keycode, true⟩ =
      (next.moved ⟨(padKey digit).keycode, true⟩, []) := by
    rw [Desk.step, alt'.mods, means, releases, held]
    rfl
  have run : desk.run ((tap (padKey digit)).flatMap Stroke.events) =
      (next.moved ⟨(padKey digit).keycode, true⟩, []) := by
    change desk.run [⟨_, false⟩, ⟨_, true⟩] = _
    simp only [Desk.run, press, release, List.append_nil]
  rw [run]
  refine ⟨⟨?_, ?_, trivial⟩, rfl, alt'.moved other, ?_⟩
  · exact fun up => (Bool.false_ne_true up).elim
  · intro _ known
    exact absurd other known
  · change next.code = _
    rw [← pressed]

theorem value_le (front : Nat) (digits : List Nat) : front ≤ value 10 front digits := by
  induction digits generalizing front with
  | nil => exact Nat.le_refl _
  | cons digit digits ih =>
      rw [value_cons]
      have rest := ih (front * 10 + digit)
      omega

theorem ofNat_ne_minus {n : Nat} (small : n < 2 ^ 31) : BitVec.ofNat 32 n ≠ -1 := by
  intro minus
  have number := congrArg BitVec.toNat minus
  rw [BitVec.toNat_ofNat, show (-1 : BitVec 32).toNat = 4294967295 from rfl] at number
  omega

theorem padKeys_run (alt : desk.UnderAlt) {front : Nat} {digits : List (Fin 10)}
    (code : desk.code = BitVec.ofNat 32 front)
    (small : value 10 front (digits.map Fin.val) < 2 ^ 31) :
    let events := (digits.flatMap fun digit => tap (padKey digit)).flatMap Stroke.events
    desk.ExpectsAll events ∧ (desk.run events).2 = [] ∧ (desk.run events).1.UnderAlt ∧
      (desk.run events).1.code = BitVec.ofNat 32 (value 10 front (digits.map Fin.val)) := by
  induction digits generalizing desk front with
  | nil => exact ⟨trivial, rfl, alt, code⟩
  | cons digit digits ih =>
      obtain ⟨expects, quiet, alt', next⟩ := padKey_tap alt digit
      have more := value_le (front * 10 + digit) (digits.map Fin.val)
      rw [List.map_cons, value_cons] at small ⊢
      have typing : desk.code ≠ -1 := by
        rw [code]
        exact ofNat_ne_minus (by omega)
      rw [if_neg typing, code] at next
      have appended : BitVec.ofNat 32 front * 10 + BitVec.ofNat 32 digit =
          BitVec.ofNat 32 (front * 10 + digit) := by
        rw [BitVec.ofNat_add, BitVec.ofNat_mul]
        rfl
      obtain ⟨expects', quiet', rest⟩ := ih alt' (next.trans appended) small
      intro events
      have split : events = (tap (padKey digit)).flatMap Stroke.events ++
          (digits.flatMap fun digit => tap (padKey digit)).flatMap Stroke.events := by
        simp only [events, List.flatMap_cons, List.flatMap_append]
      rw [split, run_append, expectsAll_append]
      exact ⟨⟨expects, expects'⟩, by rw [quiet, quiet']; rfl, rest⟩

theorem digits_run (alt : desk.UnderAlt) (fresh : desk.code = -1) {digits : List (Fin 10)}
    (typing : digits ≠ []) (small : value 10 0 (digits.map Fin.val) < 2 ^ 31) :
    let events := (digits.flatMap fun digit => tap (padKey digit)).flatMap Stroke.events
    desk.ExpectsAll events ∧ (desk.run events).2 = [] ∧ (desk.run events).1.UnderAlt ∧
      (desk.run events).1.code = BitVec.ofNat 32 (value 10 0 (digits.map Fin.val)) := by
  obtain ⟨first, rest, rfl⟩ := List.exists_cons_of_ne_nil typing
  rw [List.map_cons, value_cons, Nat.zero_mul, Nat.zero_add] at small ⊢
  obtain ⟨expects, quiet, alt', code⟩ := padKey_tap alt first
  rw [if_pos fresh] at code
  obtain ⟨expects', quiet', last⟩ := padKeys_run alt' code small
  intro events
  have split : events = (tap (padKey first)).flatMap Stroke.events ++
      (rest.flatMap fun digit => tap (padKey digit)).flatMap Stroke.events := by
    simp only [events, List.flatMap_cons, List.flatMap_append]
  rw [split, run_append, expectsAll_append]
  exact ⟨⟨expects, expects'⟩, by rw [quiet, quiet']; rfl, last⟩

theorem altCode_run (none : desk.mods = 0) (fresh : desk.code = -1) {digits : List (Fin 10)}
    (typing : digits ≠ []) (small : value 10 0 (digits.map Fin.val) < 2 ^ 31) :
    let events := (altCode digits).flatMap Stroke.events
    desk.ExpectsAll events ∧ (desk.run events).1.mods = 0 ∧ (desk.run events).1.code = -1 ∧
      (desk.run events).2 = plainText [[BitVec.ofNat 8 (value 10 0 (digits.map Fin.val))]] := by
  obtain ⟨expects, quiet, alt, code⟩ := altKey_press none
  generalize pressed : (desk.step ⟨altKey.keycode, false⟩).1 = under at alt code
  obtain ⟨expects', quiet', alt', code'⟩ := digits_run alt (code.trans fresh) typing small
  generalize middle : (digits.flatMap fun digit => tap (padKey digit)).flatMap Stroke.events = events'
    at expects' quiet' alt' code'
  have typed : (under.run events').1.code ≠ -1 := by
    rw [code']
    exact ofNat_ne_minus small
  obtain ⟨expects'', text, none', fresh'⟩ := altKey_release alt' typed
  have byte : (BitVec.ofNat 32 (value 10 0 (digits.map Fin.val))).setWidth 8 =
      BitVec.ofNat 8 (value 10 0 (digits.map Fin.val)) := by
    apply BitVec.eq_of_toNat_eq
    rw [BitVec.toNat_setWidth, BitVec.toNat_ofNat, BitVec.toNat_ofNat]
    omega
  intro events
  have split : events = ([⟨altKey.keycode, false⟩] ++ events') ++ [⟨altKey.keycode, true⟩] := by
    simp only [events, altCode, List.flatMap_append, middle]
    rfl
  rw [split, run_append, run_append, expectsAll_append, expectsAll_append]
  simp only [Desk.run, run_append, ExpectsAll, pressed, quiet, quiet', text, code', byte]
  exact ⟨⟨⟨⟨expects, trivial⟩, expects'⟩, expects'', trivial⟩, none', fresh', List.append_nil _⟩

end Desk

/-- A character is typed by its code on the pad under Alt, modulo 256, and the keyboard is ready
for the next one. A code that is a multiple of 256 types nothing. -/
theorem alt_code_typed {keyboard : Keyboard} {desk : Desk} (between : keyboard.Between desk)
    (none : desk.mods = 0) (fresh : desk.code = -1) {digits : List (Fin 10)} (typing : digits ≠ [])
    (small : value 10 0 (digits.map Fin.val) < 2 ^ 31) :
    ∃ next desk', keyboard.doScancodes ((altCode digits).flatMap Stroke.scancodes) = .ok next ∧
      next.Between desk' ∧ desk'.mods = 0 ∧ desk'.code = -1 ∧
      next.typed = keyboard.typed ++
        plainText [[BitVec.ofNat 8 (value 10 0 (digits.map Fin.val))]] := by
  obtain ⟨expects, none', fresh', text⟩ := Desk.altCode_run none fresh typing small
  obtain ⟨next, run, between', typed⟩ := between.strokes (altCode digits) expects
  exact ⟨next, _, run, between', none', fresh', by rw [typed, text]⟩

/-- The character Æ of code page 437, whose code is 146, with two zeros in front, after boot. -/
theorem alt_code_typed_late : ∃ next desk',
    boot.ready.doScancodes ((altCode [0, 0, 1, 4, 6]).flatMap Stroke.scancodes) = .ok next ∧
      next.Between desk' ∧ desk'.mods = 0 ∧ desk'.code = -1 ∧
      next.typed = boot.ready.typed ++
        plainText [[BitVec.ofNat 8 (value 10 0 (([0, 0, 1, 4, 6] : List (Fin 10)).map Fin.val))]] :=
  alt_code_typed boot_between (by decide) rfl (by decide) (by decide)

def leftShift : Key := ⟨false, 0x2a, by decide, by decide⟩
def altgrKey : Key := ⟨true, 0x38, by decide, by decide⟩

def keyIn (map : KeyMap) (c : BitVec 8) : Option Key :=
  let n := map.entries.findIdx fun keysym =>
    keysym = 0xf000#16 ||| c.setWidth 16 ∨ keysym = 0xfb00#16 ||| c.setWidth 16 ∨
      (c = 13 ∧ keysym = 0xf201)
  if h : (BitVec.ofNat 8 n).toNat < 128 ∧ keycodeOf false (BitVec.ofNat 8 n) ≠ 0 then
    some ⟨false, BitVec.ofNat 8 n, h.1, h.2⟩
  else none

/-- A character by its key, alone or with shift or AltGr. -/
def chord (c : BitVec 8) : List Stroke :=
  match keyIn plainMap c, keyIn shiftMap c, keyIn altgrMap c with
  | some key, _, _ => tap key
  | none, some key, _ => [.moves leftShift false] ++ tap key ++ [.moves leftShift true]
  | none, none, some key => [.moves altgrKey false] ++ tap key ++ [.moves altgrKey true]
  | none, none, none => []

/-- The printable characters, and those of the keys Tab, Enter, Escape and Backspace. -/
def Typable (c : BitVec 8) : Prop := c ∈ [9, 13, 27, 127#8] ∨ 32 ≤ c.toNat ∧ c.toNat < 127

instance (c : BitVec 8) : Decidable (Typable c) := inferInstanceAs (Decidable (_ ∨ _))

/-- Nothing is held and Caps Lock is off. -/
def atRest (num : Bool) : Desk := ⟨∅, false, num, -1⟩

theorem chord_run_small : ∀ n < 128, Typable (BitVec.ofNat 8 n) → ∀ num,
    (atRest num).ExpectsAll ((chord (BitVec.ofNat 8 n)).flatMap Stroke.events) ∧
      (atRest num).run ((chord (BitVec.ofNat 8 n)).flatMap Stroke.events) =
        (atRest num, [BitVec.ofNat 8 n]) := by
  decide +kernel

theorem Typable.chord_run {c : BitVec 8} (typable : Typable c) (num : Bool) :
    (atRest num).ExpectsAll ((chord c).flatMap Stroke.events) ∧
      (atRest num).run ((chord c).flatMap Stroke.events) = (atRest num, [c]) := by
  have small : c.toNat < 128 := by
    rcases typable with key | ⟨-, printable⟩
    · have all : ∀ c ∈ [9, 13, 27, 127#8], c.toNat < 128 := by decide
      exact all c key
    · omega
  have same : BitVec.ofNat 8 c.toNat = c := by rw [BitVec.ofNat_toNat, BitVec.setWidth_eq]
  have all := chord_run_small c.toNat small
  rw [same] at all
  exact all typable num

theorem text_run {text : List (BitVec 8)} (typable : ∀ c ∈ text, Typable c) (num : Bool) :
    (atRest num).ExpectsAll ((text.flatMap chord).flatMap Stroke.events) ∧
      (atRest num).run ((text.flatMap chord).flatMap Stroke.events) = (atRest num, text) := by
  induction text with
  | nil => exact ⟨trivial, rfl⟩
  | cons c text ih =>
      obtain ⟨expects, run⟩ := (typable c List.mem_cons_self).chord_run num
      obtain ⟨expects', run'⟩ := ih fun c' member => typable c' (List.mem_cons_of_mem c member)
      rw [List.flatMap_cons, List.flatMap_append, Desk.expectsAll_append, Desk.run_append, run]
      exact ⟨⟨expects, expects'⟩, by rw [run']; rfl⟩

end IntelX86Kernel

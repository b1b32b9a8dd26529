import IntelX86Kernel.ModifierKeys

/-! What the symbols of the keymaps make the keyboard driver do. -/

namespace IntelX86Kernel

inductive Action where
  | nothing
  | text (strs : List (List (BitVec 8)))
  | led (flag : Nat)
  | hold
  | recount
  | modifier (value : BitVec 8)
  | digit (base : BitVec 32) (value : BitVec 8)
  deriving DecidableEq

def cursorText (key : BitVec 8) : Action := .text [[0x1b, 0x5b, key]]

def functionText (value : BitVec 8) : Action :=
  match funcTable value with
  | some str => .text [str]
  | none => .nothing

/-- A key of the pad: a character with Num Lock, else mostly a cursor or function key. -/
def padAction (num : Bool) (value : BitVec 8) : Action :=
  let char := .text [[padChars.getD value.toNat 0]]
  if num then char
  else
    match value.toNat with
    | 0 => functionText 21
    | 1 => functionText 23
    | 2 => cursorText 66
    | 3 => functionText 25
    | 4 => cursorText 68
    | 5 => cursorText 0x47
    | 6 => cursorText 67
    | 7 => functionText 20
    | 8 => cursorText 65
    | 9 => functionText 24
    | 15 => functionText 22
    | 16 => functionText 22
    | _ => char

def specAction (value : BitVec 8) : Action :=
  match value.toNat with
  | 0 => .recount
  | 1 => .text [[13]]
  | 7 => .led VC_CAPSLOCK
  | 8 => .led VC_NUMLOCK
  | 9 => .hold
  | _ => .nothing

def action (num : Bool) (type : Nat) (value : BitVec 8) : Action :=
  match type with
  | KT_LATIN => .text [[value]]
  | KT_FN => functionText value
  | KT_SPEC => specAction value
  | KT_PAD => padAction num value
  | KT_CUR => cursorText (curChars.getD value.toNat 0)
  | KT_SHIFT => .modifier value
  | KT_META => .text [[0x1b], [value]]
  | KT_ASCII => if value.toNat < 10 then .digit 10 value else .digit 16 (value - 10)
  | _ => .nothing

inductive Assigned : Nat → BitVec 8 → Prop where
  | latin (value : BitVec 8) : Assigned KT_LATIN value
  | fn (value : BitVec 8) : Assigned KT_FN value
  | spec {value : BitVec 8} (known : value.toNat ≠ 13 ∧ value.toNat ≠ 14 ∧ value.toNat < 19) :
      Assigned KT_SPEC value
  | pad {value : BitVec 8} (inside : value.toNat ≤ 20) : Assigned KT_PAD value
  | cons (value : BitVec 8) : Assigned KT_CONS value
  | cur {value : BitVec 8} (inside : value.toNat ≤ 4) : Assigned KT_CUR value
  | shift {value : BitVec 8} (inside : value.toNat < 4) : Assigned KT_SHIFT value
  | esc (value : BitVec 8) : Assigned KT_META value
  | ascii (value : BitVec 8) : Assigned KT_ASCII value

namespace Keyboard

/-- The driver has been initialised and translates with the keymaps, with no locks and no dead keys. -/
structure Ordinary (keyboard : Keyboard) : Prop where
  init : keyboard.init = true
  translates : keyboard.kbd.kbdmode = VC_XLATE
  modes : keyboard.kbd.modeflags = KBD_DEFMODE
  unlocked : keyboard.kbd.lockstate = 0
  unstuck : keyboard.kbd.slockstate = 0
  accent : keyboard.diacr = 0
  alive : keyboard.deadKeyNext = false
  shifts : keyboard.shiftState.toNat < 16

def sendAll (keyboard : Keyboard) (strs : List (List (BitVec 8))) : Keyboard :=
  strs.foldl putsQueue keyboard

/-- The counter of a modifier when one of its keys goes down or up. -/
def counted (keyboard : Keyboard) (value : BitVec 8) (up : Bool) : BitVec 8 :=
  let down := keyboard.kDown value.toNat
  if up then (if down ≠ 0 then down - 1 else down) else down + 1

def shifted (keyboard : Keyboard) (value : BitVec 8) (up : Bool) : Keyboard :=
  let down := keyboard.counted value up
  let bit := 1#32 <<< value.toNat
  { keyboard with
    kDown := Function.update keyboard.kDown value.toNat down
    shiftState := if down ≠ 0 then keyboard.shiftState ||| bit else keyboard.shiftState &&& ~~~bit }

def codeTyped (keyboard : Keyboard) : Keyboard :=
  { keyboard.putQueue (keyboard.npadch.setWidth 8) with npadch := -1 }

def shiftKey (keyboard : Keyboard) (value : BitVec 8) (up : Bool) : Keyboard :=
  if keyboard.rep then keyboard
  else
    let after := keyboard.shifted value up
    if up ∧ after.shiftState ≠ keyboard.shiftState ∧ keyboard.npadch ≠ -1 then after.codeTyped
    else after

def perform (keyboard : Keyboard) (up : Bool) : Action → Keyboard
  | .nothing => keyboard
  | .text strs => if up then keyboard else keyboard.sendAll strs
  | .led flag =>
      if up ∨ keyboard.rep then keyboard else { keyboard with kbd := keyboard.kbd.chgLed flag }
  | .hold => if up then keyboard else Keyboard.hold keyboard
  | .recount => if up then keyboard else keyboard.recounted
  | .modifier value => keyboard.shiftKey value up
  | .digit base value =>
      if up then keyboard
      else { keyboard with
        npadch := if keyboard.npadch = -1 then value.setWidth 32
          else keyboard.npadch * base + value.setWidth 32 }

variable {keyboard keyboard' : Keyboard} {up : Bool} {value : BitVec 8} {type : Nat}

theorem lookup_getD {α : Type} (table : List α) (default : α) {index : Nat}
    (inside : index < table.length) : lookup table index = .ok (table.getD index default) := by
  rw [lookup, List.getElem?_eq_getElem inside, List.getD_eq_getElem?_getD,
    List.getElem?_eq_getElem inside]
  rfl

theorem Ordinary.mode (ordinary : keyboard.Ordinary) (flag : Nat) :
    keyboard.kbd.mode flag = KBD_DEFMODE.getLsbD flag := by
  rw [KbdStruct.mode, ordinary.modes]

theorem Ordinary.doSelf (ordinary : keyboard.Ordinary) :
    keyboard.doSelf value up = .ok (keyboard.perform up (.text [[value]])) := by
  cases up with
  | true => rfl
  | false => simp [Keyboard.doSelf, perform, ordinary.accent, ordinary.alive, sendAll, putQueue]

theorem doFn_perform : keyboard.doFn value up = .ok (keyboard.perform up (functionText value)) := by
  rw [doFn, functionText]
  cases up with
  | true => cases funcTable value <;> rfl
  | false => cases funcTable value <;> rfl

theorem Ordinary.doCur (ordinary : keyboard.Ordinary) (inside : value.toNat ≤ 4) :
    keyboard.doCur value up = .ok (keyboard.perform up (cursorText (curChars.getD value.toNat 0))) := by
  have found := lookup_getD curChars 0 (Nat.lt_succ_of_le inside)
  have mode : keyboard.kbd.mode VC_CKMODE = false := ordinary.mode _
  rw [Keyboard.doCur, found, mode]
  cases up <;> rfl

theorem Ordinary.padChar (ordinary : keyboard.Ordinary) (inside : value.toNat ≤ 20) :
    keyboard.padChar value = .ok (keyboard.sendAll [[padChars.getD value.toNat 0]]) := by
  have found := lookup_getD padChars 0 (Nat.lt_succ_of_le inside)
  have mode : ∀ str, (keyboard.putsQueue str).kbd.mode VC_CRLF = false := fun _ => ordinary.mode _
  rw [Keyboard.padChar, found]
  simp [mode, sendAll, putQueue, bind, Except.bind]

theorem padAction_text (num : Bool) (value : BitVec 8) :
    padAction num value = .nothing ∨ ∃ strs, padAction num value = .text strs := by
  have function : ∀ v, functionText v = .nothing ∨ ∃ strs, functionText v = .text strs := by
    intro v
    rw [functionText]
    split
    · exact .inr ⟨_, rfl⟩
    · exact .inl rfl
  rw [padAction]
  split
  · exact .inr ⟨_, rfl⟩
  · split
    all_goals first | exact function _ | exact .inr ⟨_, rfl⟩

theorem Ordinary.doPad (ordinary : keyboard.Ordinary) (inside : value.toNat ≤ 20) :
    keyboard.doPad value up =
      .ok (keyboard.perform up (padAction (keyboard.kbd.led VC_NUMLOCK) value)) := by
  cases up with
  | true =>
      rcases padAction_text (keyboard.kbd.led VC_NUMLOCK) value with none | ⟨strs, text⟩
      · rw [none]
        rfl
      · rw [text]
        rfl
  | false =>
      have mode : keyboard.kbd.mode VC_APPLIC = false := ordinary.mode _
      have char := ordinary.padChar inside
      rw [Keyboard.doPad, if_neg Bool.false_ne_true, mode, if_neg (by simp), padAction]
      cases keyboard.kbd.led VC_NUMLOCK with
      | true => exact char
      | false =>
          rw [if_neg Bool.false_ne_true, if_neg Bool.false_ne_true]
          split
          all_goals simp only [*, doFn_perform]
          all_goals first | exact ordinary.doCur (by decide) | rfl

theorem Ordinary.doSpec (ordinary : keyboard.Ordinary)
    (known : value.toNat ≠ 13 ∧ value.toNat ≠ 14 ∧ value.toNat < 19) :
    keyboard.doSpec value up = .ok (keyboard.perform up (specAction value)) := by
  have fits : ¬ SPEC_FN_TABLE_SIZE ≤ value.toNat := by
    have size : SPEC_FN_TABLE_SIZE = 20 := rfl
    omega
  have cooked : ¬ ((keyboard.kbd.kbdmode = VC_RAW ∨ keyboard.kbd.kbdmode = VC_MEDIUMRAW) ∧
      value ≠ SAK) := by
    rw [ordinary.translates]
    intro raw
    rcases raw.1 with raw | raw <;> cases raw
  cases up with
  | true =>
      rw [Keyboard.doSpec, if_pos rfl, specAction]
      split <;> rfl
  | false =>
      have accent : ¬ keyboard.diacr ≠ 0 := not_not.mpr ordinary.accent
      have lines : (keyboard.putQueue 13).kbd.mode VC_CRLF = false := ordinary.mode _
      have applic : keyboard.kbd.mode VC_APPLIC = false := ordinary.mode _
      have returned : keyboard.enter = keyboard.perform false (.text [[13]]) := by
        rw [enter, if_neg accent, lines]
        rfl
      have caps : keyboard.capsToggle = keyboard.perform false (.led VC_CAPSLOCK) := by
        rw [capsToggle, perform]
        cases keyboard.rep <;> rfl
      have num : keyboard.num = keyboard.perform false (.led VC_NUMLOCK) := by
        rw [Keyboard.num, applic, if_neg Bool.false_ne_true, bareNum, perform]
        cases keyboard.rep <;> rfl
      rw [Keyboard.doSpec, if_neg Bool.false_ne_true, if_neg fits, if_neg cooked, specFn, specAction]
      generalize value.toNat = index at known
      have below := known.2.2
      interval_cases index
      all_goals first
        | exact congrArg Except.ok returned
        | exact congrArg Except.ok caps
        | exact congrArg Except.ok num
        | exact computeShiftstate_recounted
        | rfl
        | omega

theorem Ordinary.doShift (ordinary : keyboard.Ordinary) (inside : value.toNat < 4) :
    keyboard.doShift value up = .ok (keyboard.perform up (.modifier value)) := by
  have plain : value ≠ KG_CAPSSHIFT := by
    rintro rfl
    exact absurd inside (by decide)
  have fits : value.toNat < NR_SHIFT := by
    have size : NR_SHIFT = 9 := rfl
    omega
  have code : ¬ keyboard.kbd.kbdmode = VC_UNICODE := by
    rw [ordinary.translates]
    decide
  by_cases again : keyboard.rep = true
  · rw [Keyboard.doShift, perform, shiftKey, if_pos again, if_pos again]
  · rw [Keyboard.doShift, perform, shiftKey, if_neg again, if_neg again, if_neg plain]
    simp only [if_pos fits, typeCode, if_neg code]
    exact (apply_ite Except.ok _ _ _).symm

theorem Ordinary.keyHandler (ordinary : keyboard.Ordinary) (assigned : Assigned type value) :
    keyboard.keyHandler value up type =
      .ok (keyboard.perform up (action (keyboard.kbd.led VC_NUMLOCK) type value)) := by
  cases assigned with
  | latin => exact ordinary.doSelf
  | fn => exact doFn_perform
  | spec known => exact ordinary.doSpec known
  | pad inside => exact ordinary.doPad inside
  | cons => rfl
  | cur inside => exact ordinary.doCur inside
  | shift inside => exact ordinary.doShift inside
  | esc =>
      have mode : keyboard.kbd.mode VC_META = true := ordinary.mode _
      change keyboard.doMeta value up = _
      rw [doMeta, mode]
      cases up <;> rfl
  | ascii =>
      change keyboard.doAscii value up = .ok (keyboard.perform up (if _ then _ else _))
      rw [doAscii]
      by_cases small : value.toNat < 10
      · rw [if_pos small, if_pos small]
        cases up <;> rfl
      · rw [if_neg small, if_neg small]
        cases up <;> rfl

end Keyboard

end IntelX86Kernel

import IntelX86Kernel.KeyActions

/-! What the keyboard driver keeps, whatever scancodes come. -/

namespace IntelX86Kernel

/-- The action of a key under the modifiers, or `none` where there is no keymap. -/
def meaning (mods : BitVec 32) (caps num : Bool) (keycode : BitVec 8) : Option Action :=
  match keyMaps mods.toNat with
  | .ok (some map) =>
      let keysym := map.symbol keycode
      let type := KTYP keysym - 0xf0
      if type = KT_LETTER then
        let keysym :=
          if caps then
            match keyMaps (mods ^^^ 1#32).toNat with
            | .ok (some other) => other.symbol keycode
            | _ => keysym
          else keysym
        some (.text [[KVAL keysym]])
      else some (action num type (KVAL keysym))
  | _ => none

def assigned (type : Nat) (value : BitVec 8) : Bool :=
  match type with
  | KT_LATIN | KT_FN | KT_CONS | KT_META | KT_ASCII => true
  | KT_SPEC => value.toNat ≠ 13 && value.toNat ≠ 14 && value.toNat < 19
  | KT_PAD => value.toNat ≤ 20
  | KT_CUR => value.toNat ≤ 4
  | KT_SHIFT => value.toNat < 4
  | _ => false

theorem Assigned.of_assigned {type : Nat} {value : BitVec 8} (checked : assigned type value = true) :
    Assigned type value := by
  unfold assigned at checked
  split at checked
  · exact .latin value
  · exact .fn value
  · exact .cons value
  · exact .esc value
  · exact .ascii value
  · apply Assigned.spec
    simpa [and_assoc] using checked
  · exact .pad (of_decide_eq_true checked)
  · exact .cur (of_decide_eq_true checked)
  · exact .shift (of_decide_eq_true checked)
  · cases checked

def allMaps : List KeyMap :=
  [plainMap, shiftMap, altgrMap, ctrlMap, altgrCtrlMap, altMap, ctrlAltMap]

theorem keyMaps_mem {index : Nat} {map : KeyMap} (found : keyMaps index = .ok (some map)) :
    map ∈ allMaps := by
  unfold keyMaps at found
  split at found
  · split at found
    all_goals cases found
    all_goals simp [allMaps]
  · cases found

theorem keyMaps_ok {index : Nat} (inside : index < MAX_NR_KEYMAPS) :
    ∃ map, keyMaps index = .ok map := by
  unfold keyMaps
  rw [if_pos inside]
  exact ⟨_, rfl⟩

/-- A symbol has a handler that knows it, and it is KT_SHIFT for the modifier keys alone. -/
def Handled (keycode : Nat) (keysym : BitVec 16) : Prop :=
  0xf0 ≤ KTYP keysym ∧
    (KTYP keysym - 0xf0 = KT_LETTER ∨ assigned (KTYP keysym - 0xf0) (KVAL keysym) = true) ∧
    modifier keycode = if KTYP keysym - 0xf0 = KT_SHIFT then some (KVAL keysym).toNat else none

instance (keycode : Nat) (keysym : BitVec 16) : Decidable (Handled keycode keysym) :=
  inferInstanceAs (Decidable (_ ∧ _))

theorem entries_handled : ∀ map ∈ allMaps, map.entries.length = 128 ∧
    ∀ entry ∈ map.entries.zipIdx, Handled entry.2 entry.1 := by
  decide +kernel

theorem modifier_none {keycode : Nat} (large : 128 ≤ keycode) : modifier keycode = none := by
  unfold modifier
  split
  all_goals first | omega | rfl

theorem symbol_handled {map : KeyMap} (member : map ∈ allMaps) (keycode : BitVec 8) :
    Handled keycode.toNat (map.symbol keycode) := by
  obtain ⟨size, all⟩ := entries_handled map member
  rw [KeyMap.symbol, List.getD_eq_getElem?_getD]
  by_cases inside : keycode.toNat < map.entries.length
  · have entry := all (map.entries[keycode.toNat], keycode.toNat)
      (List.mk_mem_zipIdx_iff_getElem?.mpr (List.getElem?_eq_getElem inside))
    rw [List.getElem?_eq_getElem inside]
    exact entry
  · rw [List.getElem?_eq_none (Nat.le_of_not_lt inside)]
    have unassigned : 0xf0 ≤ KTYP 0xf200 ∧
        assigned (KTYP 0xf200 - 0xf0) (KVAL 0xf200) = true ∧
        KTYP 0xf200 - 0xf0 ≠ KT_SHIFT := by decide +kernel
    refine ⟨unassigned.1, .inr unassigned.2.1, ?_⟩
    rw [modifier_none (by omega)]
    exact (if_neg unassigned.2.2).symm

namespace Keyboard

variable {keyboard : Keyboard} {up : Bool} {keycode value : BitVec 8} {act : Action}

theorem Ordinary.shifted (ordinary : keyboard.Ordinary) (small : value.toNat < 4) :
    (keyboard.shifted value up).Ordinary := by
  have bits : ∀ n < 4, (1#32 <<< n).toNat < 2 ^ 4 := by decide
  have low : (keyboard.shifted value up).shiftState.toNat < 16 := by
    rw [Keyboard.shifted]
    dsimp only
    split
    · rw [BitVec.toNat_or]
      exact Nat.or_lt_two_pow ordinary.shifts (bits _ small)
    · rw [BitVec.toNat_and]
      exact Nat.lt_of_le_of_lt Nat.and_le_left ordinary.shifts
  exact { ordinary with shifts := low }

theorem Ordinary.shiftKey (ordinary : keyboard.Ordinary) (small : value.toNat < 4) :
    (keyboard.shiftKey value up).Ordinary := by
  have shifted : (keyboard.shifted value up).Ordinary := ordinary.shifted small
  rw [Keyboard.shiftKey]
  split
  · exact ordinary
  · dsimp only
    split
    · exact { shifted with }
    · exact shifted

theorem sendAll_eq (strs : List (List (BitVec 8))) :
    keyboard.sendAll strs = { keyboard with sent := keyboard.sent ++ strs.map CString.cut } := by
  induction strs generalizing keyboard with
  | nil => simp [sendAll]
  | cons str strs ih =>
      change (keyboard.putsQueue str).sendAll strs = _
      rw [ih]
      simp [putsQueue]

def Proper : Action → Prop
  | .modifier value => value.toNat < 4
  | _ => True

theorem Ordinary.perform (ordinary : keyboard.Ordinary) (proper : Proper act) :
    (keyboard.perform up act).Ordinary := by
  cases act with
  | nothing => exact ordinary
  | text strs =>
      rw [Keyboard.perform, sendAll_eq]
      split
      · exact ordinary
      · exact { ordinary with }
  | led flag =>
      rw [Keyboard.perform]
      split
      · exact ordinary
      · exact { ordinary with }
  | hold =>
      rw [Keyboard.perform, hold]
      split
      · exact ordinary
      · split
        · exact ordinary
        · exact { ordinary with }
  | recount =>
      rw [Keyboard.perform]
      split
      · exact ordinary
      · exact { ordinary with shifts := shifts_lt _ }
  | modifier value => exact ordinary.shiftKey proper
  | digit base value =>
      rw [Keyboard.perform]
      split
      · exact ordinary
      · exact { ordinary with }

theorem clearSlock_eq (unstuck : keyboard.kbd.slockstate = 0) : keyboard.clearSlock = keyboard := by
  rw [clearSlock, ← unstuck]

def means (keyboard : Keyboard) (keycode : BitVec 8) : Option Action :=
  meaning keyboard.shiftState (keyboard.kbd.led VC_CAPSLOCK) (keyboard.kbd.led VC_NUMLOCK) keycode

def respond (keyboard : Keyboard) (up : Bool) (keycode : BitVec 8) : Keyboard :=
  match keyboard.means keycode with
  | some act => keyboard.perform up act
  | none => keyboard.recounted

theorem action_proper {num : Bool} {type : Nat} (assigned : Assigned type value) :
    Proper (action num type value) := by
  have function : ∀ v, Proper (functionText v) := by
    intro v
    rw [functionText]
    split <;> trivial
  cases assigned with
  | latin => trivial
  | fn => exact function _
  | spec known =>
      change Proper (specAction value)
      rw [specAction]
      split <;> trivial
  | pad inside =>
      rcases padAction_text num value with none | ⟨strs, text⟩
      · change Proper (padAction num value)
        rw [none]
        trivial
      · change Proper (padAction num value)
        rw [text]
        trivial
  | cons => trivial
  | cur inside => trivial
  | shift inside => exact inside
  | esc => trivial
  | ascii =>
      change Proper (if _ then _ else _)
      split <;> trivial

theorem meaning_proper {mods : BitVec 32} {caps num : Bool}
    (known : meaning mods caps num keycode = some act) : Proper act := by
  unfold meaning at known
  split at known
  · rename_i map found
    obtain ⟨-, kind, -⟩ := symbol_handled (keyMaps_mem found) keycode
    dsimp only at known
    generalize KTYP (map.symbol keycode) - 0xf0 = type at kind known
    split at known
    · have text := Option.some.inj known
      rw [← text]
      trivial
    · rename_i other
      have same := Option.some.inj known
      have checked := kind.resolve_left other
      rw [← same]
      exact action_proper (.of_assigned checked)
  · cases known

theorem Ordinary.respond (ordinary : keyboard.Ordinary) :
    (keyboard.respond up keycode).Ordinary := by
  rw [Keyboard.respond]
  split
  · rename_i act known
    exact ordinary.perform (meaning_proper known)
  · exact { ordinary with shifts := shifts_lt _ }

theorem Ordinary.capsSymbol (ordinary : keyboard.Ordinary) (keysym : BitVec 16) :
    keyboard.capsSymbol keyboard.shiftState keycode keysym =
      .ok (if keyboard.kbd.led VC_CAPSLOCK then
        match keyMaps (keyboard.shiftState ^^^ 1#32).toNat with
        | .ok (some other) => other.symbol keycode
        | _ => keysym
      else keysym) := by
  have small : (keyboard.shiftState ^^^ 1#32).toNat < 2 ^ 4 := by
    rw [BitVec.toNat_xor]
    exact Nat.xor_lt_two_pow ordinary.shifts (by decide)
  have inside : (keyboard.shiftState ^^^ 1#32).toNat < MAX_NR_KEYMAPS :=
    Nat.lt_trans small (by decide)
  obtain ⟨found, present⟩ := keyMaps_ok inside
  rw [Keyboard.capsSymbol, present]
  split
  · cases found <;> rfl
  · rfl

theorem Ordinary.dispatch (ordinary : keyboard.Ordinary) :
    keyboard.dispatch up keycode false = .ok (keyboard.respond up keycode) := by
  have after : (keyboard.respond up keycode).clearSlock = keyboard.respond up keycode :=
    clearSlock_eq ordinary.respond.unstuck
  have final : (keyboard.shiftState ||| keyboard.kbd.slockstate.setWidth 32) ^^^
      keyboard.kbd.lockstate.setWidth 32 = keyboard.shiftState := by
    rw [ordinary.unstuck, ordinary.unlocked]
    simp
  have inside : keyboard.shiftState.toNat < MAX_NR_KEYMAPS :=
    Nat.lt_trans ordinary.shifts (by decide)
  obtain ⟨found, present⟩ := keyMaps_ok inside
  rw [Keyboard.dispatch, final, present]
  cases found with
  | none =>
      have unknown : keyboard.respond up keycode = keyboard.recounted := by
        simp only [Keyboard.respond, means, meaning, present]
      rw [unknown] at after ⊢
      simp only [bind, Except.bind, computeShiftstate_recounted, after]
  | some map =>
      obtain ⟨high, kind, -⟩ := symbol_handled (keyMaps_mem present) keycode
      have cooked : ¬ (false = true ∧ KTYP (map.symbol keycode) - 0xf0 ≠ KT_SPEC ∧
          KTYP (map.symbol keycode) - 0xf0 ≠ KT_SHIFT) := fun raw => Bool.false_ne_true raw.1
      simp only [Keyboard.respond, means, meaning, present] at after ⊢
      simp only [bind, Except.bind, if_pos high, if_neg cooked]
      generalize KTYP (map.symbol keycode) - 0xf0 = type at kind after
      by_cases letter : type = KT_LETTER
      · rw [if_pos letter, ordinary.capsSymbol]
        simp only [if_pos letter] at after ⊢
        rw [ordinary.keyHandler (.latin _)]
        exact congrArg Except.ok after
      · simp only [if_neg letter] at after ⊢
        rw [ordinary.keyHandler (.of_assigned (kind.resolve_left letter))]
        dsimp only
        rw [after, ite_self]

theorem Ordinary.track (ordinary : keyboard.Ordinary) :
    (keyboard.track up keycode).1.Ordinary := by
  cases up with
  | true => exact { ordinary with }
  | false => exact { ordinary with }

def keyed (keyboard : Keyboard) (up : Bool) (keycode : BitVec 8) : Keyboard :=
  (keyboard.track up keycode).1.respond (keyboard.track up keycode).2 keycode

theorem Ordinary.keyed (ordinary : keyboard.Ordinary) : (keyboard.keyed up keycode).Ordinary :=
  ordinary.track.respond

theorem Ordinary.handleKeycode (ordinary : keyboard.Ordinary) :
    keyboard.handleKeycode up keycode false = .ok (keyboard.keyed up keycode) := by
  have tracked : (keyboard.track up keycode).1.Ordinary := ordinary.track
  have cooked : ¬ (keyboard.track up keycode).1.kbd.kbdmode = VC_MEDIUMRAW := by
    rw [tracked.translates]
    decide
  have repeats : (keyboard.track up keycode).1.kbd.mode VC_REPEAT = true := tracked.mode _
  simp only [Keyboard.handleKeycode, if_neg cooked, repeats, or_true, if_true]
  exact tracked.dispatch

theorem kbdTranslate_ok (prev : PrevScancode) (scancode : BitVec 8) :
    ∃ answer, kbdTranslate prev scancode = .ok answer := by
  have small : (scancode &&& 0x7f#8).toNat < 128 := by
    rw [BitVec.toNat_and]
    exact Nat.lt_of_le_of_lt Nat.and_le_right (by decide)
  have high : (scancode &&& 0x7f#8).toNat - SC_LIM < highKeys.length := by
    have sizes : SC_LIM = 89 ∧ highKeys.length = 39 := ⟨rfl, rfl⟩
    omega
  have e0 : (scancode &&& 0x7f#8).toNat < e0Keys.length := small
  rw [kbdTranslate]
  cases prev with
  | zero => simp only [lookup_getD highKeys 0 high, bind, Except.bind]; split_ifs <;> exact ⟨_, rfl⟩
  | e0 => simp only [lookup_getD e0Keys 0 e0, bind, Except.bind]; split_ifs <;> exact ⟨_, rfl⟩
  | e1 => split_ifs <;> exact ⟨_, rfl⟩
  | pause => split_ifs <;> exact ⟨_, rfl⟩

def scanned (keyboard : Keyboard) (down : Bool) : PrevScancode × Option (BitVec 8) → Keyboard
  | (prev, none) => { keyboard with prevScancode := prev }
  | (prev, some keycode) => { keyboard with prevScancode := prev }.keyed (!down) keycode

theorem Ordinary.scanned (ordinary : keyboard.Ordinary) {down : Bool}
    (answer : PrevScancode × Option (BitVec 8)) : (keyboard.scanned down answer).Ordinary := by
  obtain ⟨prev, keycode⟩ := answer
  have next : { keyboard with prevScancode := prev }.Ordinary := { ordinary with }
  cases keycode with
  | none => exact next
  | some keycode => exact next.keyed

theorem Ordinary.handleScancode (ordinary : keyboard.Ordinary) {scancode : BitVec 8} {down : Bool}
    {answer : PrevScancode × Option (BitVec 8)}
    (translated : kbdTranslate keyboard.prevScancode scancode = .ok answer) :
    keyboard.handleScancode scancode down = .ok (keyboard.scanned down answer) := by
  have cooked : decide (keyboard.kbd.kbdmode = VC_RAW) = false := by
    rw [ordinary.translates]
    decide
  obtain ⟨prev, keycode⟩ := answer
  have next : { keyboard with prevScancode := prev }.Ordinary := { ordinary with }
  rw [Keyboard.handleScancode, cooked, if_neg Bool.false_ne_true, translated]
  cases keycode with
  | none => rfl
  | some keycode => exact next.handleKeycode

theorem Ordinary.kbdBh (ordinary : keyboard.Ordinary) : keyboard.kbdBh.Ordinary := by
  rw [Keyboard.kbdBh]
  split
  · exact { ordinary with }
  · exact ordinary

def ready (keyboard : Keyboard) : Keyboard :=
  if keyboard.init then keyboard else { keyboard with init := true }.kbdInit

theorem Ordinary.ready (ordinary : keyboard.Ordinary) : keyboard.ready = keyboard := by
  rw [Keyboard.ready, if_pos ordinary.init]

theorem boot_ready : boot.ready.Ordinary := by
  constructor <;> decide

theorem doScancode_noise {scancode : BitVec 8} (noise : scancode = 0x00 ∨ scancode = 0xff) :
    keyboard.doScancode scancode = .ok keyboard.ready := by
  rw [doScancode]
  apply if_neg
  rintro ⟨nonzero, known⟩
  exact noise.elim nonzero known

theorem doScancode_code (ordinary : keyboard.ready.Ordinary) {scancode : BitVec 8}
    (code : ¬ (scancode = 0x00 ∨ scancode = 0xff)) {answer : PrevScancode × Option (BitVec 8)}
    (translated : kbdTranslate keyboard.ready.prevScancode scancode = .ok answer) :
    keyboard.doScancode scancode =
      .ok (keyboard.ready.scanned (!scancode.getLsbD 7) answer).kbdBh := by
  rw [doScancode]
  refine (if_pos (not_or.mp code)).trans ?_
  change (keyboard.ready.handleScancode _ _).bind _ = _
  rw [ordinary.handleScancode translated]
  rfl

theorem doScancode_ready (ordinary : keyboard.ready.Ordinary) (scancode : BitVec 8) :
    ∃ after, keyboard.doScancode scancode = .ok after ∧ after.Ordinary := by
  by_cases noise : scancode = 0x00 ∨ scancode = 0xff
  · exact ⟨_, doScancode_noise noise, ordinary⟩
  · obtain ⟨answer, translated⟩ := kbdTranslate_ok keyboard.ready.prevScancode scancode
    exact ⟨_, doScancode_code ordinary noise translated, (ordinary.scanned answer).kbdBh⟩

theorem doScancodes_ready (ordinary : keyboard.ready.Ordinary) (scancodes : List (BitVec 8)) :
    ∃ after, keyboard.doScancodes scancodes = .ok after ∧ after.ready.Ordinary := by
  induction scancodes generalizing keyboard with
  | nil => exact ⟨keyboard, rfl, ordinary⟩
  | cons scancode scancodes ih =>
      obtain ⟨next, step, after⟩ := doScancode_ready ordinary scancode
      rw [doScancodes, step]
      exact ih (by rwa [after.ready])

end Keyboard

end IntelX86Kernel

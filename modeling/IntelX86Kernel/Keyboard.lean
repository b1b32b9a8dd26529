import IntelX86Kernel.Keymap
import Mathlib.Data.List.TakeWhile

/-! The keyboard driver: kernel/kbd-linux/scancode.c and keyboard.c, and its glue in
kernel/keyboard-glue.c. The functions of the glue that have an empty body are left out. -/

namespace IntelX86Kernel

def lookup {α : Type} (table : List α) (index : Nat) : Except Fault α :=
  match table[index]? with
  | some entry => .ok entry
  | none => .error .outOfBounds

def CString.cut (str : List (BitVec 8)) : CString where
  chars := str.takeWhile (· ≠ 0)
  noZero member := by simpa using List.mem_takeWhile_imp member

/-- `prev_scancode`: 0, 0xe0, 0xe1, and 0x100 behind the 0x1d of a Pause. -/
inductive PrevScancode where
  | zero | e0 | e1 | pause
  deriving DecidableEq

def E1_PAUSE : BitVec 8 := 119

/-- `keyboard_pckbd_translate`: the next `prev_scancode`, and the keycode if there is one. -/
def kbdTranslate (prev : PrevScancode) (scancode : BitVec 8) :
    Except Fault (PrevScancode × Option (BitVec 8)) :=
  if scancode = 0xe0 then .ok (.e0, none)
  else if scancode = 0xe1 then .ok (.e1, none)
  else if scancode = 0x00 ∨ scancode = 0xff then .ok (.zero, none)
  else
    let scancode := scancode &&& 0x7f#8
    match prev with
    | .e1 => .ok (if scancode = 0x1d then .pause else .zero, none)
    | .pause => .ok (.zero, if scancode = 0x45 then some E1_PAUSE else none)
    | .e0 =>
        if scancode = 0x2a ∨ scancode = 0x36 then .ok (.zero, none)
        else do
          let keycode ← lookup e0Keys scancode.toNat
          .ok (.zero, if keycode ≠ 0 then some keycode else none)
    | .zero =>
        if SC_LIM ≤ scancode.toNat then do
          let keycode ← lookup highKeys (scancode.toNat - SC_LIM)
          .ok (.zero, if keycode ≠ 0 then some keycode else none)
        else .ok (.zero, some scancode)

/-- `keyboard_pckbd_unexpected_up`: the release stays one, or is taken for a press. -/
def kbdUnexpectedUp (keycode : BitVec 8) : Bool :=
  if SC_LIM ≤ keycode.toNat ∨ keycode = 85 then false else true

def VC_NUMLOCK : Nat := 1
def VC_CAPSLOCK : Nat := 2

def VC_XLATE : BitVec 2 := 0
def VC_MEDIUMRAW : BitVec 2 := 1
def VC_RAW : BitVec 2 := 2
def VC_UNICODE : BitVec 2 := 3

def VC_APPLIC : Nat := 0
def VC_CKMODE : Nat := 1
def VC_REPEAT : Nat := 2
def VC_CRLF : Nat := 3
def VC_META : Nat := 4

/-- `struct kbd_struct`. Nothing changes `ledmode`, which is LED_SHOW_FLAGS. -/
structure KbdStruct where
  lockstate : BitVec 8
  slockstate : BitVec 8
  ledflagstate : BitVec 3
  kbdmode : BitVec 2
  modeflags : BitVec 5
  deriving DecidableEq

namespace KbdStruct

variable (kbd : KbdStruct) (flag : Nat)

def mode : Bool := kbd.modeflags.getLsbD flag
def led : Bool := kbd.ledflagstate.getLsbD flag
def chgLed : KbdStruct := { kbd with ledflagstate := kbd.ledflagstate ^^^ (1#3 <<< flag) }
def setLed : KbdStruct := { kbd with ledflagstate := kbd.ledflagstate ||| (1#3 <<< flag) }
def clrLed : KbdStruct := { kbd with ledflagstate := kbd.ledflagstate &&& ~~~(1#3 <<< flag) }
def chgLock : KbdStruct := { kbd with lockstate := kbd.lockstate ^^^ (1#8 <<< flag) }
def chgSlock : KbdStruct := { kbd with slockstate := kbd.slockstate ^^^ (1#8 <<< flag) }

end KbdStruct

def NR_SHIFT : Nat := 9
def KG_SHIFT : Nat := 0
def KG_CAPSSHIFT : BitVec 8 := 8

/-- The variables of the driver. `sent` are the strings given to `keyboard_data` so far. -/
structure Keyboard where
  init : Bool
  prevScancode : PrevScancode
  kDown : Nat → BitVec 8
  keyDown : BitVec 256
  deadKeyNext : Bool
  shiftState : BitVec 32
  npadch : BitVec 32
  diacr : BitVec 8
  rep : Bool
  kbd : KbdStruct
  stopped : Bool
  ledstate : BitVec 8
  sent : List CString

def KTYP (keysym : BitVec 16) : Nat := (keysym >>> 8).toNat
def KVAL (keysym : BitVec 16) : BitVec 8 := (keysym &&& 0xff#16).setWidth 8

@[match_pattern] def KT_LATIN : Nat := 0
@[match_pattern] def KT_FN : Nat := 1
@[match_pattern] def KT_SPEC : Nat := 2
@[match_pattern] def KT_PAD : Nat := 3
@[match_pattern] def KT_DEAD : Nat := 4
@[match_pattern] def KT_CONS : Nat := 5
@[match_pattern] def KT_CUR : Nat := 6
@[match_pattern] def KT_SHIFT : Nat := 7
@[match_pattern] def KT_META : Nat := 8
@[match_pattern] def KT_ASCII : Nat := 9
@[match_pattern] def KT_LOCK : Nat := 10
@[match_pattern] def KT_LETTER : Nat := 11
@[match_pattern] def KT_SLOCK : Nat := 12
@[match_pattern] def KT_DEAD2 : Nat := 13

def retDiacr : List (BitVec 8) := [0x60, 0x27, 0x5e, 0x7e, 0x22, 0x2c]

def accentTable : List (BitVec 8 × BitVec 8 × BitVec 8) := []

def padChars : List (BitVec 8) :=
  [48, 49, 50, 51, 52, 53, 54, 55, 56, 57, 43, 45, 42, 47, 13, 44, 46, 63, 40, 41, 0]

def appMap : List (BitVec 8) :=
  [112, 113, 114, 115, 116, 117, 118, 119, 120, 121, 108, 83, 82, 81, 77, 110, 110, 109, 80, 81, 0]

def curChars : List (BitVec 8) := [66, 68, 67, 65, 0]

namespace Keyboard

variable (keyboard : Keyboard) (value : BitVec 8) (up : Bool)

def boot : Keyboard where
  init := false
  prevScancode := .zero
  kDown _ := 0
  keyDown := 0
  deadKeyNext := false
  shiftState := 0
  npadch := -1
  diacr := 0
  rep := false
  kbd := ⟨0, 0, 0, 0, 0⟩
  stopped := false
  ledstate := 0xff
  sent := []

def putsQueue (str : List (BitVec 8)) : Keyboard :=
  { keyboard with sent := keyboard.sent ++ [CString.cut str] }

def putQueue (ch : BitVec 8) : Keyboard := keyboard.putsQueue [ch]

def toUtf8 (c : BitVec 16) : Keyboard :=
  if c.toNat < 0x80 then keyboard.putQueue (c.setWidth 8)
  else if c.toNat < 0x800 then
    (keyboard.putQueue ((0xc0#16 ||| (c >>> 6)).setWidth 8)).putQueue
      ((0x80#16 ||| (c &&& 0x3f#16)).setWidth 8)
  else
    ((keyboard.putQueue ((0xe0#16 ||| (c >>> 12)).setWidth 8)).putQueue
      ((0x80#16 ||| ((c >>> 6) &&& 0x3f#16)).setWidth 8)).putQueue
      ((0x80#16 ||| (c &&& 0x3f#16)).setWidth 8)

def applkey (key : BitVec 8) (mode : Bool) : Keyboard :=
  keyboard.putsQueue [0x1b, if mode then 0x4f else 0x5b, key]

def keyDownWord (i : Nat) : BitVec 32 := (keyboard.keyDown >>> (32 * i)).setWidth 32

/-- A key that is down, in the loop of `compute_shiftstate`. -/
def countKey (k : Nat) : Except Fault Keyboard := do
  let sym := plainMap.symbol (BitVec.ofNat 8 k) ^^^ 0xf000#16
  if KTYP sym = KT_SHIFT ∨ KTYP sym = KT_SLOCK then
    let val := if KVAL sym = KG_CAPSSHIFT then 0 else KVAL sym
    if val.toNat < NR_SHIFT then
      .ok { keyboard with
        kDown := Function.update keyboard.kDown val.toNat (keyboard.kDown val.toNat + 1)
        shiftState := keyboard.shiftState ||| (1#32 <<< val.toNat) }
    else .error .outOfBounds
  else .ok keyboard

def computeShiftstate : Except Fault Keyboard :=
  (List.range 8).foldlM (fun keyboard i =>
    if keyboard.keyDownWord i ≠ 0 then
      (List.range 32).foldlM (fun keyboard j =>
        if keyboard.keyDown.getLsbD (32 * i + j) then keyboard.countKey (32 * i + j)
        else .ok keyboard) keyboard
    else .ok keyboard) { keyboard with shiftState := 0, kDown := fun _ => 0 }

def enter : Keyboard :=
  let keyboard :=
    if keyboard.diacr ≠ 0 then { keyboard.putQueue keyboard.diacr with diacr := 0 } else keyboard
  let keyboard := keyboard.putQueue 13
  if keyboard.kbd.mode VC_CRLF then keyboard.putQueue 10 else keyboard

def capsToggle : Keyboard :=
  if keyboard.rep then keyboard else { keyboard with kbd := keyboard.kbd.chgLed VC_CAPSLOCK }

def capsOn : Keyboard :=
  if keyboard.rep then keyboard else { keyboard with kbd := keyboard.kbd.setLed VC_CAPSLOCK }

def hold : Keyboard :=
  if keyboard.rep then keyboard else { keyboard with stopped := !keyboard.stopped }

def bareNum : Keyboard :=
  if keyboard.rep then keyboard else { keyboard with kbd := keyboard.kbd.chgLed VC_NUMLOCK }

def num : Keyboard :=
  if keyboard.kbd.mode VC_APPLIC then keyboard.applkey 0x50 true else keyboard.bareNum

def compose : Keyboard := { keyboard with deadKeyNext := true }

/-- `spec_fn_table`. The functions that only call an empty function of the glue do nothing. -/
def specFn : Except Fault Keyboard :=
  match value.toNat with
  | 0 => keyboard.computeShiftstate
  | 1 => .ok keyboard.enter
  | 7 => .ok keyboard.capsToggle
  | 8 => .ok keyboard.num
  | 9 => .ok keyboard.hold
  | 13 => .ok keyboard.capsOn
  | 14 => .ok keyboard.compose
  | 19 => .ok keyboard.bareNum
  | _ => .ok keyboard

def SPEC_FN_TABLE_SIZE : Nat := 20
def SAK : BitVec 8 := 15

def doSpec : Except Fault Keyboard :=
  if up then .ok keyboard
  else if SPEC_FN_TABLE_SIZE ≤ value.toNat then .ok keyboard
  else if (keyboard.kbd.kbdmode = VC_RAW ∨ keyboard.kbd.kbdmode = VC_MEDIUMRAW) ∧ value ≠ SAK then
    .ok keyboard
  else keyboard.specFn value

def handleDiacr (ch : BitVec 8) : Keyboard × BitVec 8 :=
  let d := keyboard.diacr
  let keyboard := { keyboard with diacr := 0 }
  match accentTable.find? fun accent => accent.1 = d ∧ accent.2.1 = ch with
  | some accent => (keyboard, accent.2.2)
  | none => if ch = 0x20 ∨ ch = d then (keyboard, d) else (keyboard.putQueue d, ch)

def doSelf : Except Fault Keyboard :=
  if up then .ok keyboard
  else
    let (keyboard, value) :=
      if keyboard.diacr ≠ 0 then keyboard.handleDiacr value else (keyboard, value)
    if keyboard.deadKeyNext then .ok { keyboard with deadKeyNext := false, diacr := value }
    else .ok (keyboard.putQueue value)

def doDead2 : Except Fault Keyboard :=
  if up then .ok keyboard
  else if keyboard.diacr ≠ 0 then
    let (keyboard, value) := keyboard.handleDiacr value
    .ok { keyboard with diacr := value }
  else .ok { keyboard with diacr := value }

def doDead : Except Fault Keyboard := do
  let value ← lookup retDiacr value.toNat
  keyboard.doDead2 value up

def doFn : Except Fault Keyboard :=
  if up then .ok keyboard
  else
    match funcTable value with
    | some str => .ok (keyboard.putsQueue str)
    | none => .ok keyboard

def doCur : Except Fault Keyboard :=
  if up then .ok keyboard
  else do
    let key ← lookup curChars value.toNat
    .ok (keyboard.applkey key (keyboard.kbd.mode VC_CKMODE))

/-- The end of `do_pad`. -/
def padChar : Except Fault Keyboard := do
  let ch ← lookup padChars value.toNat
  let keyboard := keyboard.putQueue ch
  .ok (if value = 14 ∧ keyboard.kbd.mode VC_CRLF then keyboard.putQueue 10 else keyboard)

def doPad : Except Fault Keyboard :=
  if up then .ok keyboard
  else if keyboard.kbd.mode VC_APPLIC ∧ keyboard.kDown KG_SHIFT = 0 then do
    let key ← lookup appMap value.toNat
    .ok (keyboard.applkey key true)
  else if keyboard.kbd.led VC_NUMLOCK then keyboard.padChar value
  else
    match value.toNat with
    | 15 => keyboard.doFn 22 false
    | 16 => keyboard.doFn 22 false
    | 0 => keyboard.doFn 21 false
    | 1 => keyboard.doFn 23 false
    | 2 => keyboard.doCur 0 false
    | 3 => keyboard.doFn 25 false
    | 4 => keyboard.doCur 1 false
    | 6 => keyboard.doCur 2 false
    | 7 => keyboard.doFn 20 false
    | 8 => keyboard.doCur 3 false
    | 9 => keyboard.doFn 24 false
    | 5 => .ok (keyboard.applkey 0x47 (keyboard.kbd.mode VC_APPLIC))
    | _ => keyboard.padChar value

/-- The kludge at the end of `do_shift`. -/
def typeCode : Keyboard :=
  let keyboard' :=
    if keyboard.kbd.kbdmode = VC_UNICODE then keyboard.toUtf8 (keyboard.npadch.setWidth 16)
    else keyboard.putQueue (keyboard.npadch.setWidth 8)
  { keyboard' with npadch := -1 }

def doShift : Except Fault Keyboard :=
  if keyboard.rep then .ok keyboard
  else
    let oldState := keyboard.shiftState
    let (keyboard, value) :=
      if value = KG_CAPSSHIFT then
        (if up then keyboard else { keyboard with kbd := keyboard.kbd.clrLed VC_CAPSLOCK },
          (0 : BitVec 8))
      else (keyboard, value)
    if value.toNat < NR_SHIFT then
      let down := keyboard.kDown value.toNat
      let down := if up then (if down ≠ 0 then down - 1 else down) else down + 1
      let bit := 1#32 <<< value.toNat
      let keyboard := { keyboard with
        kDown := Function.update keyboard.kDown value.toNat down
        shiftState :=
          if down ≠ 0 then keyboard.shiftState ||| bit else keyboard.shiftState &&& ~~~bit }
      if up ∧ keyboard.shiftState ≠ oldState ∧ keyboard.npadch ≠ -1 then .ok keyboard.typeCode
      else .ok keyboard
    else .error .outOfBounds

def doMeta : Except Fault Keyboard :=
  if up then .ok keyboard
  else if keyboard.kbd.mode VC_META then .ok ((keyboard.putQueue 0x1b).putQueue value)
  else .ok (keyboard.putQueue (value ||| 0x80#8))

def doAscii : Except Fault Keyboard :=
  if up then .ok keyboard
  else
    let (base, digit) : BitVec 32 × BitVec 8 :=
      if value.toNat < 10 then (10, value) else (16, value - 10)
    let digit := digit.setWidth 32
    .ok { keyboard with
      npadch := if keyboard.npadch = -1 then digit else keyboard.npadch * base + digit }

def doLock : Except Fault Keyboard :=
  if up ∨ keyboard.rep then .ok keyboard
  else .ok { keyboard with kbd := keyboard.kbd.chgLock value.toNat }

def doSlock : Except Fault Keyboard := do
  let keyboard ← keyboard.doShift value up
  if up ∨ keyboard.rep then .ok keyboard
  else
    let kbd := keyboard.kbd.chgSlock value.toNat
    match ← keyMaps (kbd.lockstate ^^^ kbd.slockstate).toNat with
    | some _ => .ok { keyboard with kbd := kbd }
    | none => .ok { keyboard with kbd := { kbd with slockstate := 0 }.chgSlock value.toNat }

def keyHandler (type : Nat) : Except Fault Keyboard :=
  match type with
  | KT_LATIN => keyboard.doSelf value up
  | KT_FN => keyboard.doFn value up
  | KT_SPEC => keyboard.doSpec value up
  | KT_PAD => keyboard.doPad value up
  | KT_DEAD => keyboard.doDead value up
  | KT_CUR => keyboard.doCur value up
  | KT_SHIFT => keyboard.doShift value up
  | KT_META => keyboard.doMeta value up
  | KT_ASCII => keyboard.doAscii value up
  | KT_LOCK => keyboard.doLock value up
  | KT_SLOCK => keyboard.doSlock value up
  | KT_DEAD2 => keyboard.doDead2 value up
  | _ => .ok keyboard

def clearSlock : Keyboard := { keyboard with kbd := { keyboard.kbd with slockstate := 0 } }

def capsSymbol (shiftFinal : BitVec 32) (keycode : BitVec 8) (keysym : BitVec 16) :
    Except Fault (BitVec 16) :=
  if keyboard.kbd.led VC_CAPSLOCK then do
    match ← keyMaps (shiftFinal ^^^ 1#32).toNat with
    | some map => .ok (map.symbol keycode)
    | none => .ok keysym
  else .ok keysym

def dispatch (keycode : BitVec 8) (raw : Bool) : Except Fault Keyboard := do
  let shiftFinal :=
    (keyboard.shiftState ||| keyboard.kbd.slockstate.setWidth 32) ^^^
      keyboard.kbd.lockstate.setWidth 32
  match ← keyMaps shiftFinal.toNat with
  | none =>
      let keyboard ← keyboard.computeShiftstate
      .ok keyboard.clearSlock
  | some map =>
      let keysym := map.symbol keycode
      if 0xf0 ≤ KTYP keysym then
        let type := KTYP keysym - 0xf0
        if raw ∧ type ≠ KT_SPEC ∧ type ≠ KT_SHIFT then .ok keyboard
        else if type = KT_LETTER then
          let keysym ← keyboard.capsSymbol shiftFinal keycode keysym
          let keyboard ← keyboard.keyHandler (KVAL keysym) up KT_LATIN
          .ok keyboard.clearSlock
        else
          let keyboard ← keyboard.keyHandler (KVAL keysym) up type
          .ok (if type ≠ KT_SLOCK then keyboard.clearSlock else keyboard)
      else .ok (if !up ∧ !raw then keyboard.toUtf8 keysym else keyboard)

def keyBit (keycode : BitVec 8) : BitVec 256 := 1#256 <<< keycode.toNat

/-- `key_down`, `rep` and `up_flag` when a keycode comes. -/
def track (keycode : BitVec 8) : Keyboard × Bool :=
  let was := keyboard.keyDown.getLsbD keycode.toNat
  if up then
    ({ keyboard with rep := false, keyDown := keyboard.keyDown &&& ~~~(keyBit keycode) },
      if was then true else kbdUnexpectedUp keycode)
  else ({ keyboard with rep := was, keyDown := keyboard.keyDown ||| keyBit keycode }, false)

/-- `handle_scancode` from the keycode on. -/
def handleKeycode (keycode : BitVec 8) (raw : Bool) : Except Fault Keyboard :=
  let (keyboard, up) := keyboard.track up keycode
  let (keyboard, raw) :=
    if keyboard.kbd.kbdmode = VC_MEDIUMRAW then
      (keyboard.putQueue (keycode + if up then 0x80 else 0), true)
    else (keyboard, raw)
  if !keyboard.rep ∨ keyboard.kbd.mode VC_REPEAT then keyboard.dispatch up keycode raw
  else .ok keyboard

def handleScancode (scancode : BitVec 8) (down : Bool) : Except Fault Keyboard := do
  let raw := decide (keyboard.kbd.kbdmode = VC_RAW)
  let keyboard :=
    if raw then keyboard.putQueue (scancode ||| if down then 0 else 0x80#8) else keyboard
  let (prev, keycode) ← kbdTranslate keyboard.prevScancode scancode
  let keyboard := { keyboard with prevScancode := prev }
  match keycode with
  | none => .ok keyboard
  | some keycode => keyboard.handleKeycode (!down) keycode raw

/-- `kbd_leds`, which it calls, is empty in boot/crt0.S. -/
def kbdBh : Keyboard :=
  let leds := keyboard.kbd.ledflagstate.setWidth 8
  if leds ≠ keyboard.ledstate then { keyboard with ledstate := leds } else keyboard

def KBD_DEFMODE : BitVec 5 := (1#5 <<< VC_REPEAT) ||| (1#5 <<< VC_META)

def kbdInit : Keyboard :=
  { keyboard with kbd := ⟨0, 0, 0, VC_XLATE, KBD_DEFMODE⟩ }.kbdBh

def doScancode (scancode : BitVec 8) : Except Fault Keyboard := do
  let keyboard := if keyboard.init then keyboard else { keyboard with init := true }.kbdInit
  if scancode ≠ 0x00 ∧ scancode ≠ 0xff then
    let keyboard ← keyboard.handleScancode scancode (!scancode.getLsbD 7)
    .ok keyboard.kbdBh
  else .ok keyboard

def doScancodes (keyboard : Keyboard) : List (BitVec 8) → Except Fault Keyboard
  | [] => .ok keyboard
  | scancode :: scancodes => do
      let keyboard ← keyboard.doScancode scancode
      doScancodes keyboard scancodes

def typed : List (BitVec 8) := keyboard.sent.flatMap CString.chars

end Keyboard

end IntelX86Kernel

import IntelX86Kernel.State

/-! The text screen of kernel/screen.c. -/

namespace IntelX86Kernel

def MEM_VIDEO : BitVec 32 := 0xB8000
def MAX_LIG : Nat := 25
def MAX_COL : Nat := 80
def T_SIZE : Nat := 2
def STD_TEXT_COLOR : BitVec 32 := 2
def STD_BG_COLOR : BitVec 32 := 0

/-- The bytes that a write covers. -/
structure Write where
  start : BitVec 32
  length : Nat
  deriving DecidableEq

/-- `lig` and `col` are the cursor; `written` lists all writes to memory, the latest first. -/
structure Screen where
  memory : BitVec 32 → BitVec 8
  lig : BitVec 32
  col : BitVec 32
  written : List Write

def getPosition (lig col : BitVec 32) : BitVec 32 := lig * 80 + col

def getPtrMem (lig col : BitVec 32) : BitVec 32 := MEM_VIDEO + 2 * getPosition lig col

namespace Screen

variable (s : Screen)

def load16 (ptr : BitVec 32) : BitVec 16 := s.memory (ptr + 1) ++ s.memory ptr

def store16 (ptr : BitVec 32) (value : BitVec 16) : Screen :=
  { s with
    memory := Function.update (Function.update s.memory ptr (value.truncate 8)) (ptr + 1)
      ((value >>> 8).truncate 8)
    written := ⟨ptr, 2⟩ :: s.written }

def memmove (dest src : BitVec 32) (length : Nat) : Screen :=
  { s with
    memory := fun a => if (a - dest).toNat < length then s.memory (src + (a - dest)) else s.memory a
    written := ⟨dest, length⟩ :: s.written }

def memset (dest : BitVec 32) (value : BitVec 8) (length : Nat) : Screen :=
  { s with
    memory := fun a => if (a - dest).toNat < length then value else s.memory a
    written := ⟨dest, length⟩ :: s.written }

def writeColoredChar (lig col : BitVec 32) (c : BitVec 8) (cTexte cFond clignote : BitVec 32) :
    Screen :=
  let ptr := getPtrMem lig col
  let s := s.store16 ptr (c.signExtend 16)
  s.store16 ptr (((s.load16 ptr).zeroExtend 32 + (cTexte <<< 8) + (cFond <<< 12) +
    (clignote <<< 15)).truncate 16)

def writeChar (lig col : BitVec 32) (c : BitVec 8) : Screen :=
  s.writeColoredChar lig col c STD_TEXT_COLOR STD_BG_COLOR 0

def clearScreen : Screen :=
  (List.range MAX_LIG).foldl (fun s j =>
    (List.range MAX_COL).foldl (fun s i => s.writeChar (.ofNat 32 j) (.ofNat 32 i) 0) s) s

/-- The cursor of the display is not modelled. -/
def placeCursor (lig col : BitVec 32) : Screen := { s with lig := lig, col := col }

def scrollDown : Screen :=
  let s := s.memmove (getPtrMem 0 0) (getPtrMem 1 0) (T_SIZE * (getPosition 0 70).toNat)
  let s := s.memmove (getPtrMem 1 0) (getPtrMem 2 0) (T_SIZE * (getPosition 23 80).toNat)
  s.memset (getPtrMem 24 0) 0 MAX_COL

/-- The switch of `treat_char`, with `cursor_tmp` when it has been set. -/
def treatSwitch (c : BitVec 8) : Screen × Option (BitVec 32 × BitVec 32) :=
  if c = 8 then
    if 0 < s.col then (s.writeChar s.lig s.col 0, some (s.lig - 1, s.col)) else (s, none)
  else if c = 9 then (s, some (s.lig, (s.col / 8 + 1) * 8))
  else if c = 10 then (s, some (s.lig + 1, 0))
  else if c = 12 then (s.clearScreen, some (0, 0))
  else if c = 13 then (s, some (s.lig, 0))
  else (s.writeChar s.lig s.col c, some (s.lig, s.col + 1))

def treatChar (c : BitVec 8) : Except Fault Screen :=
  match s.treatSwitch c with
  | (_, none) => .error .uninitialised
  | (s, some (lig, col)) =>
      if 80 ≤ lig then .ok (s.placeCursor (lig + 1) (col % 80))
      else if 25 ≤ lig then .ok (s.scrollDown.placeCursor 24 col)
      else .ok (s.placeCursor lig col)

/-- The loop of `console_putbytes` over the characters that are left. -/
def putbytes (s : Screen) : List (BitVec 8) → Except Fault Screen
  | [] => .ok s
  | c :: rest => do
      let s ← s.treatChar c
      putbytes s rest

def consolePutbytes (str : List (BitVec 8)) (len : Int) : Except Fault Screen :=
  s.putbytes (str.take len.toNat)

end Screen

end IntelX86Kernel

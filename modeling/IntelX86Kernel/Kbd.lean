import IntelX86Kernel.State

/-! The keyboard buffer and the reads of the console in kernel/kbd.c. -/

namespace IntelX86Kernel

def BUFFER_SIZE : Nat := 1000

/-- A call to `cons_read` in its loop: what it was asked for and what it has so far. -/
structure Reader where
  length : Nat
  charLength : Nat
  string : Nat → BitVec 8

/-- `readers` has the processes that are inside `cons_read`. -/
structure Console where
  keyboardBuffer : Nat → BitVec 8
  echo : Bool
  writePosition : Nat
  readPosition : Nat
  readers : Nat → Option Reader

def Console.initial : Console where
  keyboardBuffer _ := 0
  echo := true
  writePosition := 0
  readPosition := 0
  readers _ := none

/-- The characters that `echo_command` prints. Characters are signed. -/
def echoCommand (c : BitVec 8) : List (BitVec 8) :=
  if c = 9 ∨ (32 ≤ c.toInt ∧ c.toInt ≤ 126) then [c]
  else if c = 13 then [10]
  else if c.toInt < 32 then [94, 64 + c]
  else if c = 127 then [8]
  else []

namespace Reader

def text (r : Reader) : List (BitVec 8) := (List.range r.charLength).map r.string

/-- A character that is not the end of the line: one more, or for a backspace one less. -/
def put (r : Reader) (ch : BitVec 8) : Reader :=
  if ch = 127 then
    { r with charLength := if 0 < r.charLength then r.charLength - 1 else r.charLength }
  else
    { r with
      string := Function.update r.string r.charLength ch
      charLength := r.charLength + 1 }

end Reader

namespace Console

variable (c : Console)

/-- The buffer after the loop of `keyboard_data`, and what was echoed. -/
def keyboardData (c : Console) : List (BitVec 8) → Console × List (BitVec 8)
  | [] => (c, [])
  | ch :: str =>
      let writePosition := c.writePosition + 1
      let next := { c with
        keyboardBuffer := Function.update c.keyboardBuffer c.writePosition ch
        writePosition := if writePosition = BUFFER_SIZE then 0 else writePosition }
      let printed := if c.echo then echoCommand ch else []
      let (next, more) := keyboardData next str
      (next, printed ++ more)

theorem keyboardData_readers (c : Console) (str : List (BitVec 8)) :
    (c.keyboardData str).1.readers = c.readers := by
  induction str generalizing c with
  | nil => rfl
  | cons ch str ih =>
      rw [keyboardData]
      exact ih _

def advance : Console :=
  { c with readPosition := if c.readPosition = BUFFER_SIZE - 1 then 0 else c.readPosition + 1 }

def setReader (pid : Nat) (r : Option Reader) : Console :=
  { c with readers := Function.update c.readers pid r }

theorem setReader_self (pid : Nat) (r : Option Reader) : (c.setReader pid r).readers pid = r :=
  Function.update_self _ _ _

theorem setReader_of_ne {pid other : Nat} (apart : other ≠ pid) (r : Option Reader) :
    (c.setReader pid r).readers other = c.readers other :=
  Function.update_of_ne apart _ _

end Console

inductive ConsoleEvent where
  | keyboardData (str : CString)
  | consEcho (on : Int)
  | consRead (pid length : Nat)
  | turn (pid : Nat)
  deriving DecidableEq

/-- What shows of an event. `took` has the text of the line when the call returns. -/
inductive ConsoleAnswer where
  | printed (bytes : List (BitVec 8))
  | done
  | returned (text : List (BitVec 8))
  | waits
  | took (ch : BitVec 8) (text : Option (List (BitVec 8)))
  deriving DecidableEq

def Console.turn (c : Console) (pid : Nat) (r : Reader) : Console × ConsoleAnswer :=
  let ch := c.keyboardBuffer c.readPosition
  if ch = 0 then (c, .waits)
  else if ch = 13 then (c.advance.setReader pid none, .took ch (some r.text))
  else
    let r := r.put ch
    if r.charLength < r.length then (c.advance.setReader pid (some r), .took ch none)
    else (c.advance.setReader pid none, .took ch (some r.text))

/-- `cons_read` reads nothing when it is asked for nothing. -/
def Console.step (c : Console) : ConsoleEvent → Except Fault (Console × ConsoleAnswer)
  | .keyboardData str =>
      let (c, printed) := c.keyboardData str.chars
      .ok (c, .printed printed)
  | .consEcho on => .ok ({ c with echo := decide (on ≠ 0) }, .done)
  | .consRead pid length =>
      match c.readers pid with
      | some _ => .error .disabled
      | none =>
          if length = 0 then .ok (c, .returned [])
          else .ok (c.setReader pid (some ⟨length, 0, fun _ => 0⟩), .done)
  | .turn pid =>
      match c.readers pid with
      | none => .error .disabled
      | some r => .ok (c.turn pid r)

end IntelX86Kernel

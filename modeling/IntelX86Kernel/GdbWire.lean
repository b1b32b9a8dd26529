import IntelX86Kernel.RunLength
import IntelX86Kernel.Doprnt

/-! The packets of kernel/gdb_serial.c and the serial line that they are sent over. -/

namespace IntelX86Kernel

open X86 (Word)

def BUFMAX : Nat := 400

/-- What comes in over the line and is still to be read, and what has been sent. -/
structure SerialLine where
  incoming : List (BitVec 8)
  sent : List (BitVec 8)
  deriving DecidableEq

namespace SerialLine

/-- `gdb_serial_recv`; there is no result while it waits for a character. -/
def recv (line : SerialLine) : Option (BitVec 8 × SerialLine) :=
  match line.incoming with
  | [] => none
  | ch :: incoming => some (ch, { line with incoming := incoming })

def send (line : SerialLine) (ch : BitVec 8) : SerialLine := { line with sent := line.sent ++ [ch] }

end SerialLine

def hexchars : List (BitVec 8) := "0123456789abcdef".toList.map chr

def hexchar (nibble : BitVec 8) : BitVec 8 := hexchars.getD nibble.toNat 0

def hex (ch : BitVec 8) : Word :=
  if chr '0' ≤ ch ∧ ch ≤ chr '9' then (ch - chr '0').setWidth 32
  else if chr 'a' ≤ ch ∧ ch ≤ chr 'f' then (ch - chr 'a' + 10).setWidth 32
  else if chr 'A' ≤ ch ∧ ch ≤ chr 'F' then (ch - chr 'A' + 10).setWidth 32
  else -1

/-- The bytes that are written to `out`, also before it fails, and whether it returns 0. -/
def hex2bin : List (BitVec 8) → Nat → List (BitVec 8) × Bool
  | _, 0 => ([], true)
  | digits, len + 1 =>
      let ch := hex (digits.getD 0 0) <<< 4 ||| hex (digits.getD 1 0)
      if ch.slt 0 then ([], false)
      else
        let (out, good) := hex2bin (digits.drop 2) len
        (ch.setWidth 8 :: out, good)

/-- `inbuf`, with its `BUFMAX + 1` characters. -/
@[ext] structure Buffer where
  chars : List (BitVec 8)
  sized : chars.length = BUFMAX + 1
  deriving DecidableEq

namespace Buffer

def zero : Buffer := ⟨List.replicate (BUFMAX + 1) 0, List.length_replicate⟩

def get (buffer : Buffer) (i : Nat) : BitVec 8 := buffer.chars.getD i 0

def set (buffer : Buffer) (i : Nat) (ch : BitVec 8) : Buffer where
  chars := buffer.chars.set i ch
  sized := by rw [List.length_set, buffer.sized]

def strlen (buffer : Buffer) : Nat := (buffer.chars.takeWhile (· ≠ 0)).length

/-- The loop that removes the sequence characters: `i` goes up from 3 and takes `count` values. -/
def dropSequence (buffer : Buffer) (i : Nat) : Nat → Buffer
  | 0 => buffer
  | count + 1 => (buffer.set (i - 3) (buffer.get i)).dropSequence (i + 1) count

end Buffer

def awaitStart : List (BitVec 8) → Option (List (BitVec 8))
  | [] => none
  | ch :: incoming => if ch &&& 0x7f = chr '$' then some incoming else awaitStart incoming

structure Reading where
  ch : BitVec 8
  buffer : Buffer
  count : Nat
  checksum : BitVec 8
  incoming : List (BitVec 8)

def readData (ch : BitVec 8) (buffer : Buffer) (count : Nat) (checksum : BitVec 8)
    (incoming : List (BitVec 8)) : Option Reading :=
  if count < BUFMAX then
    match incoming with
    | [] => none
    | ch :: incoming =>
        if ch = chr '#' ∧ (count = 0 ∨ buffer.get (count - 1) ≠ 0x7d) then
          some ⟨ch, buffer, count, checksum, incoming⟩
        else readData ch (buffer.set count ch) (count + 1) (checksum + ch) incoming
  else some ⟨ch, buffer, count, checksum, incoming⟩

structure Attempt where
  buffer : Buffer
  checksum : BitVec 8
  xmitcsum : BitVec 8
  line : SerialLine

def acknowledge (buffer : Buffer) (checksum xmitcsum : BitVec 8) (line : SerialLine) : Attempt :=
  if checksum ≠ xmitcsum then ⟨buffer, checksum, xmitcsum, line.send (chr '-')⟩
  else
    let line := line.send (chr '+')
    if buffer.get 2 = chr ':' then
      let line := (line.send (buffer.get 0)).send (buffer.get 1)
      -- `i <= count` lets no value through when the text is shorter than three characters
      ⟨buffer.dropSequence 3 (buffer.strlen + 1 - 3), checksum, xmitcsum, line⟩
    else ⟨buffer, checksum, xmitcsum, line⟩

def attempt (buffer : Buffer) (line : SerialLine) : Option Attempt := do
  let incoming ← awaitStart line.incoming
  let data ← readData (chr '$') buffer 0 0 incoming
  let buffer := data.buffer.set data.count 0
  let line := { line with incoming := data.incoming }
  if data.ch = chr '#' then
    let (high, line) ← line.recv
    let (low, line) ← line.recv
    let xmitcsum := (hex high <<< 4).setWidth 8 + (hex low).setWidth 8
    return acknowledge buffer data.checksum xmitcsum line
  return ⟨buffer, data.checksum, -1, line⟩

variable {incoming rest : List (BitVec 8)} {buffer : Buffer} {line : SerialLine} {count : Nat}
  {ch checksum : BitVec 8} {data : Reading} {a : Attempt}

theorem awaitStart_shorter (found : awaitStart incoming = some rest) :
    rest.length < incoming.length := by
  induction incoming with
  | nil => cases found
  | cons ch incoming ih =>
      rw [awaitStart] at found
      split at found
      · rw [Option.some.inj found]
        exact Nat.lt_succ_self _
      · exact Nat.lt_succ_of_lt (ih found)

theorem readData_shorter (read : readData ch buffer count checksum incoming = some data) :
    data.incoming.length ≤ incoming.length := by
  induction incoming generalizing ch buffer count checksum with
  | nil =>
      rw [readData] at read
      split at read
      · cases read
      · rw [← Option.some.inj read]
  | cons next incoming ih =>
      rw [readData] at read
      split at read
      · split at read
        · rw [← Option.some.inj read]
          exact Nat.le_succ _
        · exact Nat.le_succ_of_le (ih read)
      · rw [← Option.some.inj read]

theorem recv_shorter {line' : SerialLine} (received : line.recv = some (ch, line')) :
    line'.incoming.length < line.incoming.length := by
  rw [SerialLine.recv] at received
  split at received
  · cases received
  · rename_i text
    rw [← (Prod.mk.inj (Option.some.inj received)).2, text]
    exact Nat.lt_succ_self _

theorem acknowledge_incoming {xmitcsum : BitVec 8} :
    (acknowledge buffer checksum xmitcsum line).line.incoming = line.incoming := by
  rw [acknowledge]
  split
  · rfl
  · dsimp only
    split <;> rfl

theorem attempt_shorter (read : attempt buffer line = some a) :
    a.line.incoming.length < line.incoming.length := by
  simp only [attempt, Option.bind_eq_bind, Option.bind_eq_some_iff] at read
  obtain ⟨incoming, start, data, body, read⟩ := read
  have front := awaitStart_shorter start
  have behind := readData_shorter body
  split at read
  · simp only [Option.bind_eq_some_iff] at read
    obtain ⟨⟨high, first⟩, one, ⟨low, second⟩, two, read⟩ := read
    have one := recv_shorter one
    have two := recv_shorter two
    rw [← Option.some.inj read, acknowledge_incoming]
    dsimp only at one two ⊢
    omega
  · rw [← Option.some.inj read]
    exact Nat.lt_of_le_of_lt behind front

/-- The buffer when a packet has come in whose checksum is right. -/
def getpacket (buffer : Buffer) (line : SerialLine) : Option (Buffer × SerialLine) :=
  match _ : attempt buffer line with
  | none => none
  | some a =>
      if a.checksum = a.xmitcsum then some (a.buffer, a.line) else getpacket a.buffer a.line
termination_by line.incoming.length
decreasing_by exact attempt_shorter ‹_›

/-- A part of a packet: `data` is what stands in memory from the pointer on. -/
structure Outfrag where
  data : List (BitVec 8)
  len : Nat
  hexify : Bool

def Outfrag.bytes (f : Outfrag) : List (BitVec 8) :=
  if f.len = 0 then f.data.takeWhile (· ≠ 0) else f.data.take f.len

/-- A run of more than three of the same output character begins with the byte. -/
def runBegins (hexify : Bool) (c : BitVec 8) (rest : List (BitVec 8)) : Bool :=
  rest[0]? = some c &&
    if hexify then c >>> 4 = c &&& 0xf else rest[1]? = some c && rest[2]? = some c

def runLength (hexify : Bool) (c : BitVec 8) (rest : List (BitVec 8)) : Nat :=
  if hexify then 2 + RunLength.leading c (98 / 2 - 2) (rest.drop 1)
  else 4 + RunLength.leading c (98 - 4) (rest.drop 3)

def sendBytes (hexify : Bool) : List (BitVec 8) → List (BitVec 8)
  | [] => []
  | c :: rest =>
      if runBegins hexify c rest then
        let n := runLength hexify c rest
        let rl := if hexify then n * 2 else n
        [if hexify then hexchar (c &&& 0xf) else c, chr '*', .ofNat 8 (29 + rl - 1)] ++
          sendBytes hexify (rest.drop (n - 1))
      else if hexify then [hexchar (c >>> 4), hexchar (c &&& 0xf)] ++ sendBytes hexify rest
      else c :: sendBytes hexify rest
termination_by bytes => bytes.length
decreasing_by all_goals simp [List.length_drop]; try omega

def body (frags : List Outfrag) : List (BitVec 8) :=
  frags.flatMap fun f => sendBytes f.hexify f.bytes

def checksumOf (text : List (BitVec 8)) : BitVec 8 := text.foldl (· + ·) 0

def frame (text : List (BitVec 8)) : List (BitVec 8) :=
  chr '$' :: text ++
    [chr '#', hexchar (checksumOf text >>> 4), hexchar (checksumOf text % 16)]

/-- The loop of `putfrags` over the packets. -/
def resend (packet sent : List (BitVec 8)) : List (BitVec 8) → Option SerialLine
  | [] => none
  | ch :: incoming =>
      if ch &&& 0x7f = chr '+' then some ⟨incoming, sent ++ packet⟩
      else resend packet (sent ++ packet) incoming

def putfrags (frags : List Outfrag) (line : SerialLine) : Option SerialLine :=
  resend (frame (body frags)) line.sent line.incoming

end IntelX86Kernel

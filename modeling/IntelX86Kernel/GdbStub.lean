import IntelX86Kernel.GdbReading
import IntelX86Kernel.GdbMemory
import IntelX86Kernel.NumberFields
import IntelX86Kernel.ProcessorTables

/-! The commands of `gdb_serial_converse` in kernel/gdb_serial.c, and `debugger` in
kernel/debugger.c, which calls it without callbacks. -/

namespace IntelX86Kernel

open X86 (Word Memory)

def NSIG : Nat := 32

def wordBytes (v : Word) : List (BitVec 8) :=
  [v.extractLsb' 0 8, v.extractLsb' 8 8, v.extractLsb' 16 8, v.extractLsb' 24 8]

/-- `struct gdb_state`, as the bytes of its sixteen words: eax, ecx, edx, ebx, esp, ebp, esi, edi,
eip, eflags, cs, ss, ds, es, fs and gs. -/
@[ext] structure GdbState where
  bytes : List (BitVec 8)
  sized : bytes.length = 64
  deriving DecidableEq

namespace GdbState

def reg (regs : GdbState) (i : Nat) : Word :=
  regs.bytes.getD (4 * i + 3) 0 ++ regs.bytes.getD (4 * i + 2) 0 ++
    regs.bytes.getD (4 * i + 1) 0 ++ regs.bytes.getD (4 * i) 0

def write (regs : GdbState) (offset : Nat) (out : List (BitVec 8)) : GdbState where
  bytes := (regs.bytes.take offset ++ out ++ regs.bytes.drop (offset + out.length)).take 64
  sized := by
    have sized := regs.sized
    simp only [List.length_take, List.length_append, List.length_drop]
    omega

def setReg (regs : GdbState) (i : Nat) (v : Word) : GdbState := regs.write (4 * i) (wordBytes v)

def EIP : Nat := 8
def EFLAGS : Nat := 9

end GdbState

def EFL_TF : Word := 0x100

def gdbSetTraceFlag (traceEnable : Bool) (state : GdbState) : GdbState :=
  if traceEnable then state.setReg GdbState.EFLAGS (state.reg GdbState.EFLAGS ||| EFL_TF)
  else state.setReg GdbState.EFLAGS (state.reg GdbState.EFLAGS &&& ~~~EFL_TF)

inductive GdbAction where
  | more | cont | run | kill | detach
  deriving DecidableEq

/-- What `gdb_serial_converse` works on, but for the line: `inbuf` and its address, the parameter
block, the variables of the stub and the memory of the client. -/
structure Stub where
  inbuf : Buffer
  address : Word
  regs : GdbState
  signo : BitVec 8
  regsChanged : Bool
  connected : Bool
  gdbSerialDebug : Bool
  client : Client
  memory : Memory

/-- How a case of the switch ends: the packet that is sent then, if there is one, and `retval`. -/
structure CommandEnd where
  stub : Stub
  reply : Option (List Outfrag)
  action : GdbAction := .more

def literal (s : String) : List (BitVec 8) := s.toList.map chr ++ [0]

namespace Stub

def ok (s : Stub) (action : GdbAction := .more) : CommandEnd :=
  ⟨s, some [⟨literal "OK", 0, false⟩], action⟩

def errpacket (s : Stub) (errchar : BitVec 8) : CommandEnd :=
  ⟨s, some [⟨literal "E", 0, false⟩, ⟨[errchar], 1, true⟩], .more⟩

def unknown (s : Stub) : CommandEnd := ⟨s, some [⟨literal "", 0, false⟩], .more⟩

def report (s : Stub) : CommandEnd :=
  ⟨s, some [⟨literal "S", 0, false⟩, ⟨[s.signo], 1, true⟩], .more⟩

/-- `&inbuf[i]`. -/
def text (s : Stub) (i : Nat) : List (BitVec 8) := s.inbuf.chars.drop i

/-- The commands `H` and `T`, of which nothing is known without callbacks. -/
def thread (s : Stub) (i : Nat) (errchar : BitVec 8) : CommandEnd :=
  let endth := (strtol (s.text i) 16).2
  if endth = s.text i then s.errpacket errchar else s.unknown

def getRegs (s : Stub) : CommandEnd := ⟨s, some [⟨s.regs.bytes, 64, true⟩], .more⟩

def setRegs (s : Stub) : CommandEnd :=
  let (out, good) := hex2bin (s.text 1) 64
  let s := { s with regs := s.regs.write 0 out }
  if good then ok { s with regsChanged := true } else s.errpacket 4

def setReg (s : Stub) : Except Fault CommandEnd :=
  let (reg, eqp) := strtoul (s.text 1) 16
  if eqp = s.text 1 ∨ eqp[0]? ≠ some (chr '=') then .ok (s.errpacket 4)
  else if reg = 0x29 then .ok s.ok
  else if 64 < ((reg + 1) * 4).toNat then .ok (s.errpacket 4)
  else
    let (out, good) := hex2bin (eqp.drop 1) 4
    let offset := (reg * 4).toNat
    -- `reg + 1` has wrapped around, or its fourfold has: the place in front of the registers
    if 64 ≤ offset ∧ out ≠ [] then .error .outOfBounds
    else
      let s := { s with regs := s.regs.write offset out }
      if good then .ok (ok { s with regsChanged := true }) else .ok (s.errpacket 4)

def readMemory (s : Stub) : Except Fault CommandEnd :=
  let (addr, ptr) := strtoul (s.text 1) 16
  if ptr = s.text 1 ∨ ptr[0]? ≠ some (chr ',') then .ok (s.errpacket 2)
  else
    let ptr := ptr.drop 1
    let (len, ptr2) := strtoul ptr 16
    if ptr2 = ptr ∨ BUFMAX < (len * 2).toNat then .ok (s.errpacket 2)
    else
      let (copied, good) := gdbCopyin s.memory s.client addr len.toNat
      if BUFMAX + 1 < copied.length then .error .outOfBounds
      else
        let s := { s with inbuf := s.inbuf.filled copied }
        if good then .ok ⟨s, some [⟨s.inbuf.chars, len.toNat, true⟩], .more⟩
        else .ok (s.errpacket 3)

def writeArguments (s : Stub) : Option (Word × Word × List (BitVec 8)) :=
  let (addr, ptr) := strtoul (s.text 1) 16
  if ptr = s.text 1 ∨ ptr[0]? ≠ some (chr ',') then none
  else
    let ptr := ptr.drop 1
    let (len, ptr2) := strtoul ptr 16
    if ptr2 = ptr ∨ ptr2[0]? ≠ some (chr ':') then none
    else some (addr, len, ptr2.drop 1)

def pointer (s : Stub) (text : List (BitVec 8)) : Word :=
  s.address + .ofNat 32 (BUFMAX + 1 - text.length)

def copyout (s : Stub) (src : List (BitVec 8)) (addr : Word) : CommandEnd :=
  let (memory, good) := gdbCopyout s.memory s.client src addr
  let s := { s with memory := memory }
  if good then s.ok else s.errpacket 3

def writeMemory (s : Stub) : Except Fault CommandEnd :=
  match s.writeArguments with
  | none => .ok (s.errpacket 2)
  | some (addr, len, ptr2) =>
      if s.address + .ofNat 32 BUFMAX < s.pointer ptr2 + len * 2 then .ok (s.errpacket 2)
      -- the address has wrapped around, and `outbuf` is larger than the stack
      else if ptr2.length ≤ 2 * len.toNat then .error .outOfBounds
      else
        let (outbuf, good) := hex2bin ptr2 len.toNat
        if good then .ok (s.copyout outbuf addr) else .ok (s.errpacket 2)

/-- The loop of the command `X`: what it writes to `inbuf`, and whether it comes to `end`. -/
def dequote : List (BitVec 8) → List (BitVec 8) × Bool
  | [] => ([], true)
  | [c] => if c = 0x7d then ([], false) else ([c], true)
  | c :: d :: rest =>
      if c = 0x7d then
        let (out, good) := dequote rest
        ((d ^^^ 0x20) :: out, good)
      else
        let (out, good) := dequote (d :: rest)
        (c :: out, good)

def writeBinary (s : Stub) : CommandEnd :=
  match s.writeArguments with
  | none => s.errpacket 2
  | some (addr, len, ptr2) =>
      let stop := s.pointer ptr2 + len
      if s.address + .ofNat 32 BUFMAX < stop then s.errpacket 2
      else
        let (out, good) :=
          if s.pointer ptr2 < stop then dequote (ptr2.take len.toNat) else ([], true)
        let s := { s with inbuf := s.inbuf.filled out }
        if good then s.copyout out addr else s.errpacket 2

/-- What the commands to continue and to step have in common: `text` may hold a new eip. -/
def resume (s : Stub) (text : List (BitVec 8)) (step : Bool) (signo : BitVec 8) : CommandEnd :=
  let (newEip, ptr) := strtoul text 16
  let s := if ptr.length < text.length ∧ newEip ≠ s.regs.reg GdbState.EIP then
    { s with regs := s.regs.setReg GdbState.EIP newEip, regsChanged := true } else s
  ⟨{ s with regs := gdbSetTraceFlag step s.regs, signo := signo }, none, .cont⟩

def resumeSignal (s : Stub) (step : Bool) : CommandEnd :=
  let nsig := hex (s.inbuf.get 1) <<< 4 ||| hex (s.inbuf.get 2)
  if nsig.sle 0 ∨ (BitVec.ofNat 32 NSIG).sle nsig then s.errpacket 5
  else s.resume (s.text 3) step (nsig.setWidth 8)

def command (s : Stub) : Except Fault CommandEnd :=
  let c := s.inbuf.get 0
  if c = chr 'H' then .ok (s.thread 2 4)
  else if c = chr 'T' then .ok (s.thread 1 1)
  else if c = chr 'g' then .ok s.getRegs
  else if c = chr 'G' then .ok s.setRegs
  else if c = chr 'P' then s.setReg
  else if c = chr 'm' then s.readMemory
  else if c = chr 'M' then s.writeMemory
  else if c = chr 'X' then .ok s.writeBinary
  else if c = chr 'c' ∨ c = chr 's' then .ok (s.resume (s.text 1) (c = chr 's') 0)
  else if c = chr 'C' ∨ c = chr 'S' then .ok (s.resumeSignal (c = chr 'S'))
  else if c = chr '?' then .ok s.report
  else if c = chr 'D' then .ok (ok { s with connected := false } .detach)
  else if c = chr 'R' then .ok ⟨{ s with connected := false }, none, .run⟩
  else if c = chr 'k' then .ok ⟨{ s with connected := false }, none, .kill⟩
  else if c = chr 'd' then .ok (ok { s with gdbSerialDebug := !s.gdbSerialDebug })
  else if c = chr '!' then .ok s.ok
  else .ok s.unknown

end Stub

/-- Why `gdb_serial_converse` has not returned: it waits for a character, or it has gone wrong. -/
inductive Halt where
  | waiting
  | fault (fault : Fault)

theorem getpacket_shorter {buffer buffer' : Buffer} {line line' : SerialLine}
    (read : getpacket buffer line = some (buffer', line')) :
    line'.incoming.length < line.incoming.length := by
  obtain ⟨n, text, digits, accepts⟩ :=
    @getpacket_found buffer line.sent line.incoming buffer' line' read
  obtain ⟨garbage, packet, -, arrives, splits⟩ := accepts.splits
  have some := arrives.nonempty
  rw [splits, List.length_append, List.length_append]
  omega

def putreply (reply : Option (List Outfrag)) (line : SerialLine) : Option SerialLine :=
  match reply with
  | none => some line
  | some frags => putfrags frags line

theorem resend_shorter {packet sent incoming : List (BitVec 8)} {line : SerialLine}
    (returns : resend packet sent incoming = some line) :
    line.incoming.length < incoming.length := by
  induction incoming generalizing sent with
  | nil => cases returns
  | cons ch incoming ih =>
      rw [resend] at returns
      split at returns
      · rw [← Option.some.inj returns]
        exact Nat.lt_succ_self _
      · exact Nat.lt_succ_of_lt (ih returns)

theorem putreply_shorter {reply : Option (List Outfrag)} {line line' : SerialLine}
    (returns : putreply reply line = some line') :
    line'.incoming.length ≤ line.incoming.length := by
  cases reply with
  | none => rw [← Option.some.inj returns]
  | some frags => exact Nat.le_of_lt (resend_shorter returns)

/-- The loop of `gdb_serial_converse` from `getpacket` on. -/
def exchange (s : Stub) (line : SerialLine) : Except Halt (GdbAction × Stub × SerialLine) :=
  match _ : getpacket s.inbuf line with
  | none => .error .waiting
  | some (inbuf, line') =>
      match Stub.command { s with inbuf := inbuf, connected := true } with
      | .error fault => .error (.fault fault)
      | .ok served =>
          match _ : putreply served.reply line' with
          | none => .error .waiting
          | some line'' =>
              if served.action = .more then exchange served.stub line''
              else .ok (served.action, served.stub, line'')
termination_by line.incoming.length
decreasing_by
  exact Nat.lt_of_le_of_lt (putreply_shorter ‹_›) (getpacket_shorter ‹_›)

def gdbSerialConverse (s : Stub) (line : SerialLine) :
    Except Halt (GdbAction × Stub × SerialLine) :=
  let s := { s with regsChanged := false }
  match putreply s.report.reply line with
  | none => .error .waiting
  | some line => exchange s line

namespace X86Tss

def words (t : X86Tss) : List Word :=
  [t.eax, t.ecx, t.edx, t.ebx, t.esp, t.ebp, t.esi, t.edi, t.eip, t.eflags, t.cs, t.ss, t.ds, t.es,
    t.fs, t.gs]

def save (t : X86Tss) : GdbState where
  bytes := t.words.flatMap wordBytes
  sized := rfl

def restore (t : X86Tss) (state : GdbState) : X86Tss :=
  { t with
    eax := state.reg 0
    ecx := state.reg 1
    edx := state.reg 2
    ebx := state.reg 3
    esp := state.reg 4
    ebp := state.reg 5
    esi := state.reg 6
    edi := state.reg 7
    eip := state.reg 8
    eflags := state.reg 9
    cs := state.reg 10
    ss := state.reg 11
    ds := state.reg 12
    es := state.reg 13
    fs := state.reg 14
    gs := state.reg 15 }

end X86Tss

def SIGILL : BitVec 8 := 4
def SIGTRAP : BitVec 8 := 5
def SIGFPE : BitVec 8 := 8
def SIGSEGV : BitVec 8 := 11

def trapSignal (trapno : Word) : BitVec 8 :=
  if trapno ∈ [0, 4, 5, 7, 8, 9, 15] then SIGFPE
  else if trapno ∈ [1, 3] then SIGTRAP
  else if trapno ∈ [10, 11, 12, 13, 14] then SIGSEGV
  else SIGILL

structure Debugger where
  doDebug : Bool
  connected : Bool
  gdbSerialDebug : Bool
  memory : Memory

/-- `debugger` returns with the registers and the memory that gdb leaves, unless the machine is
restarted. What `inbuf` holds at first is not initialised. -/
def debugger (d : Debugger) (cr0 trapno : Word) (t : X86Tss) (inbuf : Buffer) (address : Word)
    (line : SerialLine) : Except Halt (Option (Debugger × X86Tss × SerialLine)) := do
  let stub : Stub := ⟨inbuf, address, t.save, trapSignal trapno, false, d.connected,
    d.gdbSerialDebug, ⟨cr0, t.cr3⟩, d.memory⟩
  let (action, s, line) ← gdbSerialConverse stub line
  if action = .kill then return none
  let doDebug := if action = .detach then false else d.doDebug
  return some (⟨doDebug, s.connected, s.gdbSerialDebug, s.memory⟩, t.restore s.regs, line)

end IntelX86Kernel

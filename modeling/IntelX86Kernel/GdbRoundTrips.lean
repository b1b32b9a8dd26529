import IntelX86Kernel.GdbSessions

/-! What gdb writes over the line and what it reads back. -/

namespace IntelX86Kernel

open X86 (Word Memory)

/-- A packet comes in with this text, behind `n` that are refused, and its answer is acknowledged
at the `k + 1`st time. -/
structure Queries (incoming : List (BitVec 8)) (n : Nat) (text : List (BitVec 8)) (k : Nat)
    (rest : List (BitVec 8)) : Prop where
  plain : text[2]? ≠ some (chr ':')
  arrives : ∃ digits nacks ack, Accepts incoming n text (some digits) (nacks ++ ack :: rest) ∧
    nacks.length = k ∧ (∀ c ∈ nacks, c &&& 0x7f ≠ chr '+') ∧ ack &&& 0x7f = chr '+'

/-- What has been sent for such a packet: an answer to each packet that has come in, and `k + 1`
times a packet that gdb expands to this message. Two more characters may follow the
acknowledgement of a packet of one character. -/
def Answered (sent sent' : List (BitVec 8)) (n : Nat) (text : List (BitVec 8)) (k : Nat)
    (message : List (BitVec 8)) : Prop :=
  ∃ echo data high low, sent' = sent ++ List.replicate n (chr '-') ++ chr '+' :: echo ++
      (List.replicate (k + 1) (chr '$' :: data ++ [chr '#', high, low])).flatten ∧
    (2 ≤ text.length → echo = []) ∧ chr '#' ∉ data ∧ packetCoding.expand data = message ∧
    xmitted high low = checksumOf data

theorem asks_frame {n : Nat} {garbage text nacks rest : List (BitVec 8)} {ack : BitVec 8}
    (refused : Rejected n garbage) (enclosed : Enclosed text) (plain : text[2]? ≠ some (chr ':'))
    (refusing : ∀ c ∈ nacks, c &&& 0x7f ≠ chr '+') (taken : ack &&& 0x7f = chr '+') :
    Queries (garbage ++ (frame text ++ (nacks ++ ack :: rest))) n text nacks.length rest :=
  ⟨plain, _, nacks, ack, accepts_frame refused enclosed, rfl, refusing, taken⟩

variable {s : Stub} {incoming sent rest text answer : List (BitVec 8)} {n k : Nat}
  {P : Stub → Prop}

def Does (s : Stub) (text answer : List (BitVec 8)) (P : Stub → Prop) : Prop :=
  ∀ inbuf : Buffer, inbuf.Holds text → ∃ s' frags,
    Stub.command { s with inbuf := inbuf, connected := true } = .ok ⟨s', some frags, .more⟩ ∧
      (∀ f ∈ frags, Legible f.hexify f.bytes) ∧ message frags = answer ∧ P s'

theorem exchange_asked (sent : List (BitVec 8)) (asks : Queries incoming n text k rest)
    (does : Does s text answer P) :
    ∃ s' sent', P s' ∧ Answered sent sent' n text k answer ∧
      exchange s ⟨incoming, sent⟩ = exchange s' ⟨rest, sent'⟩ := by
  obtain ⟨digits, nacks, ack, accepts, rfl, refused, taken⟩ := asks.arrives
  obtain ⟨older, read⟩ := getpacket_accepts s.inbuf sent accepts
  have short := accepts.short
  have whole : unsequenced text = text := if_neg asks.plain
  have holds : (older.filled (text ++ [0])).accepted.1.Holds text := by
    have accepted := @Buffer.accepted_holds older text short fun colon => absurd colon asks.plain
    rwa [whole] at accepted
  obtain ⟨s', frags, done, legible, same, after⟩ := does _ holds
  obtain ⟨number, expands⟩ := body_legible legible
  have replied (sent : List (BitVec 8)) : putreply (some frags) ⟨nacks ++ ack :: rest, sent⟩ =
      some ⟨rest, sent ++ (List.replicate (nacks.length + 1) (frame (body frags))).flatten⟩ :=
    resend_refused refused taken
  have turn := exchange_turn read done (replied _)
  rw [if_pos rfl] at turn
  refine ⟨s', _, after, ?_, turn⟩
  refine ⟨(older.filled (text ++ [0])).accepted.2, body frags, _, _, rfl, ?_, number,
    expands.trans same, xmitted_hexchar _⟩
  intro long
  rw [Buffer.accepted_echo short long]
  exact if_neg asks.plain

def OK : List (BitVec 8) := [chr 'O', chr 'K']

theorem ok_legible : ∀ f ∈ [(⟨literal "OK", 0, false⟩ : Outfrag)], Legible f.hexify f.bytes := by
  intro f member
  rw [List.mem_singleton.mp member]
  apply Or.inr
  have text : (⟨literal "OK", 0, false⟩ : Outfrag).bytes = OK := by decide
  rw [text]
  apply plain_short (by decide)
  simp only [OK, List.forall_mem_cons, List.not_mem_nil, false_imp_iff, implies_true, and_true]
  exact ⟨⟨by decide, by decide⟩, by decide, by decide⟩

theorem ok_message : message [⟨literal "OK", 0, false⟩] = OK := by decide

variable {bytes data : List (BitVec 8)} {addr : Word} {places : List Word} {i j : Nat}

structure Wrote (s : Stub) (places : List Word) (bytes : List (BitVec 8)) (s' : Stub) : Prop where
  inside : places.map s'.memory = bytes
  outside : ∀ a ∉ places, s'.memory a = s.memory a
  client : s'.client = s.client
  regs : s'.regs = s.regs

theorem copyout_wrote {s₀ : Stub} (memory : s₀.memory = s.memory) (client : s₀.client = s.client)
    (regs : s₀.regs = s.regs)
    (reaches : Reaches s.memory s.client addr bytes.length places)
    (whole : places.length = bytes.length) (distinct : places.Nodup)
    (room : bytes.length < 2 ^ 32) :
    ∃ s', s₀.copyout bytes addr = s'.ok ∧ Wrote s places bytes s' := by
  obtain ⟨m', written, outside, inside⟩ := writeBytes_places reaches distinct
  rw [whole, List.take_length] at inside
  rw [← gdbCopyout_eq reaches room, whole, decide_eq_true rfl] at written
  refine ⟨{ s₀ with memory := m' }, ?_, inside, outside, client, regs⟩
  simp only [Stub.copyout, memory, client, written, if_true]

def Writes (addr : Word) (bytes text : List (BitVec 8)) : Prop :=
  ∃ i j, text = Stub.writeText (chr 'M') i j addr (.ofNat 32 bytes.length) (bytes.flatMap hexPair) ∨
    ∃ data, Stub.dequote data = (bytes, true) ∧
      text = Stub.writeText (chr 'X') i j addr (.ofNat 32 data.length) data

theorem writes_does (room : s.address.toNat + BUFMAX < 2 ^ 32) (writes : Writes addr bytes text)
    (reaches : Reaches s.memory s.client addr bytes.length places)
    (whole : places.length = bytes.length) (distinct : places.Nodup)
    (short : bytes.length < 2 ^ 32) : Does s text OK (Wrote s places bytes) := by
  intro inbuf holds
  have wrote (s₀ : Stub) (memory : s₀.memory = s.memory) (client : s₀.client = s.client)
      (regs : s₀.regs = s.regs) : ∃ s' frags, s₀.copyout bytes addr = ⟨s', some frags, .more⟩ ∧
      (∀ f ∈ frags, Legible f.hexify f.bytes) ∧ message frags = OK ∧ Wrote s places bytes s' := by
    obtain ⟨s', same, wrote⟩ := copyout_wrote memory client regs reaches whole distinct short
    exact ⟨s', _, same, ok_legible, ok_message, wrote⟩
  obtain ⟨i, j, hexadecimal | ⟨data, dequoted, quoted⟩⟩ := writes
  · rw [hexadecimal] at holds
    have done : Stub.command { s with inbuf := inbuf, connected := true } = _ :=
      Stub.command_writeMemory room holds
    obtain ⟨s', frags, same, rest⟩ := wrote { s with inbuf := inbuf, connected := true } rfl rfl rfl
    exact ⟨s', frags, done.trans (congrArg Except.ok same), rest⟩
  · rw [quoted] at holds
    have done : Stub.command { s with inbuf := inbuf, connected := true } = _ :=
      Stub.command_writeBinary room dequoted holds
    obtain ⟨s', frags, same, rest⟩ :=
      wrote { s with inbuf := inbuf.filled bytes, connected := true } rfl rfl rfl
    exact ⟨s', frags, done.trans (congrArg Except.ok same), rest⟩

theorem reads_does (nonempty : bytes ≠ []) (few : 2 * bytes.length ≤ BUFMAX)
    (copied : gdbCopyin s.memory s.client addr bytes.length = (bytes, true)) :
    Does s (Stub.readText i j addr (.ofNat 32 bytes.length)) (bytes.flatMap hexPair) (Kept s) := by
  intro inbuf holds
  have limit : BUFMAX = 400 := rfl
  have size : (BitVec.ofNat 32 bytes.length).toNat = bytes.length := by
    rw [BitVec.toNat_ofNat]
    omega
  have double : (BitVec.ofNat 32 bytes.length * 2).toNat ≤ BUFMAX := by
    have two : (2 : Word).toNat = 2 := rfl
    rw [BitVec.toNat_mul, size, two]
    omega
  rw [← size] at copied
  have done : Stub.command { s with inbuf := inbuf, connected := true } = _ :=
    Stub.command_readMemory holds double copied (by omega)
  refine ⟨_, _, done, ?_, ?_, ⟨rfl, rfl, rfl, rfl⟩⟩
  · intro f member
    rw [List.mem_singleton.mp member]
    exact .inl rfl
  · have nonzero : ¬ bytes.length = 0 := fun none => nonempty (List.eq_nil_of_length_eq_zero none)
    have front : (inbuf.filled bytes).chars.take bytes.length = bytes := by
      rw [Buffer.filled_chars (by omega)]
      exact List.take_left' rfl
    rw [message, List.flatMap_singleton]
    simp only [textOf, Outfrag.bytes, if_true, size, if_neg nonzero, front]

variable {middle : List (BitVec 8)} {n' k' : Nat}

/-- Memory of the client that gdb writes, in hexadecimal or in binary, is what it reads back,
whatever else comes in over the line and however often it asks for an answer again. -/
theorem memory_over_line (room : s.address.toNat + BUFMAX < 2 ^ 32)
    (writes : Writes addr bytes text) (nonempty : bytes ≠ []) (few : 2 * bytes.length ≤ BUFMAX)
    (reaches : Reaches s.memory s.client addr bytes.length places)
    (whole : places.length = bytes.length) (distinct : places.Nodup)
    (asks : Queries incoming n text k middle)
    (asks' : Queries middle n' (Stub.readText i j addr (.ofNat 32 bytes.length)) k' rest) :
    ∃ s' sent' sent'', Wrote s places bytes s' ∧ Answered sent sent' n text k OK ∧
      Answered sent' sent'' n' (Stub.readText i j addr (.ofNat 32 bytes.length)) k'
        (bytes.flatMap hexPair) ∧
      exchange s ⟨incoming, sent⟩ = exchange s' ⟨rest, sent''⟩ := by
  have limit : BUFMAX = 400 := rfl
  have writing := writes_does room writes reaches whole distinct (by omega)
  obtain ⟨s', sent', wrote, answered, first⟩ := exchange_asked sent asks writing
  have copied : gdbCopyin s'.memory s'.client addr bytes.length = (bytes, true) := by
    rw [gdbCopyin_eq, wrote.client, readBytes_places (reaches.kept wrote.outside), wrote.inside,
      whole, decide_eq_true rfl]
  obtain ⟨s'', sent'', kept, answered', second⟩ :=
    exchange_asked sent' asks' (reads_does nonempty few copied)
  refine ⟨s'', sent', sent'', ?_, answered, answered', first.trans second⟩
  obtain ⟨inside, outside, client, regs⟩ := wrote
  rw [← kept.memory] at inside outside
  exact ⟨inside, outside, kept.client.trans client, kept.regs.trans regs⟩

def stopped : Stub where
  inbuf := .zero
  address := 0x1000
  regs := ⟨List.replicate 64 0, List.length_replicate⟩
  signo := 5
  regsChanged := false
  connected := false
  gdbSerialDebug := false
  client := ⟨0, 0⟩
  memory := fun _ => 0

/-- One byte at 0x10, with noise on the line and an answer that is asked for again. -/
theorem memory_over_line_byte : ∃ s' sent' sent'',
    Wrote stopped (X86.consecutive 0x10 1) [0xcc] s' ∧
    Answered [] sent' 0 (Stub.writeText (chr 'M') 0 0 0x10 (.ofNat 32 1) ([0xcc].flatMap hexPair)) 1
      OK ∧
    Answered sent' sent'' 0 (Stub.readText 0 0 0x10 (.ofNat 32 1)) 0 ([0xcc].flatMap hexPair) ∧
    exchange stopped ⟨[chr 'x'] ++ (frame (Stub.writeText (chr 'M') 0 0 0x10 (.ofNat 32 1)
        ([0xcc].flatMap hexPair)) ++ ([chr '-'] ++ chr '+' :: ([] ++
          (frame (Stub.readText 0 0 0x10 (.ofNat 32 1)) ++ ([] ++ chr '+' :: []))))), []⟩ =
      exchange s' ⟨[], sent''⟩ := by
  have ten : written 16 0x10 = [chr '1', chr '0'] := by
    simp [written, Positional.numeral]
    decide
  have one : written 16 (.ofNat 32 1) = [chr '1'] := by
    simp [written, Positional.numeral]
    decide
  have writing : Stub.writeText (chr 'M') 0 0 0x10 (.ofNat 32 1) ([0xcc].flatMap hexPair) =
      [chr 'M', chr '1', chr '0', chr ',', chr '1', chr ':', chr 'c', chr 'c'] := by
    rw [Stub.writeText, number, number, ten, one]
    decide
  have reading : Stub.readText 0 0 0x10 (.ofNat 32 1) =
      [chr 'm', chr '1', chr '0', chr ',', chr '1'] := by
    rw [Stub.readText, number, number, ten, one]
    decide
  have noise : Rejected 0 [chr 'x'] := .noise (by decide) .nil
  have write : Enclosed [chr 'M', chr '1', chr '0', chr ',', chr '1', chr ':', chr 'c', chr 'c'] :=
    ⟨by decide, .of_none (by decide), by decide⟩
  have read : Enclosed [chr 'm', chr '1', chr '0', chr ',', chr '1'] :=
    ⟨by decide, .of_none (by decide), by decide⟩
  have writes : Writes 0x10 [0xcc]
      (Stub.writeText (chr 'M') 0 0 0x10 (.ofNat 32 1) ([0xcc].flatMap hexPair)) :=
    ⟨0, 0, .inl rfl⟩
  rw [← writing] at write
  rw [← reading] at read
  refine memory_over_line (by decide) writes (by decide) (by decide) (reaches_flat rfl)
    X86.consecutive_length (X86.consecutive_distinct (by decide))
    (asks_frame noise write ?_ (by decide) (by decide))
    (asks_frame .nil read ?_ (by decide) (by decide))
  · rw [writing]
    decide
  · rw [reading]
    decide

/-- The registers that gdb sets are those that it reads back. -/
theorem registers_over_line (length : bytes.length = 64)
    (asks : Queries incoming n (chr 'G' :: bytes.flatMap hexPair) k middle)
    (asks' : Queries middle n' [chr 'g'] k' rest) :
    ∃ s' sent' sent'', s'.regs.bytes = bytes ∧ s'.regsChanged = true ∧ s'.memory = s.memory ∧
      Answered sent sent' n (chr 'G' :: bytes.flatMap hexPair) k OK ∧
      Answered sent' sent'' n' [chr 'g'] k' (bytes.flatMap hexPair) ∧
      exchange s ⟨incoming, sent⟩ = exchange s' ⟨rest, sent''⟩ := by
  have setting : Does s (chr 'G' :: bytes.flatMap hexPair) OK
      fun s' => s'.regs.bytes = bytes ∧ s'.regsChanged = true ∧ s'.memory = s.memory := by
    intro inbuf holds
    have done : Stub.command { s with inbuf := inbuf, connected := true } = _ :=
      Stub.command_setRegs length holds
    exact ⟨_, _, done, ok_legible, ok_message, rfl, rfl, rfl⟩
  obtain ⟨s', sent', ⟨regs, changed, memory⟩, answered, first⟩ :=
    exchange_asked sent asks setting
  have getting : Does s' [chr 'g'] (bytes.flatMap hexPair) (Kept s') := by
    intro inbuf holds
    have done : Stub.command { s' with inbuf := inbuf, connected := true } = _ :=
      Stub.command_getRegs holds
    refine ⟨_, _, done, ?_, ?_, ⟨rfl, rfl, rfl, rfl⟩⟩
    · intro f member
      rw [List.mem_singleton.mp member]
      exact .inl rfl
    · have all : s'.regs.bytes.take 64 = bytes := by
        rw [regs, ← length, List.take_length]
      rw [message, List.flatMap_singleton]
      simp only [textOf, Outfrag.bytes, if_true, all]
      rfl
  obtain ⟨s'', sent'', kept, answered', second⟩ := exchange_asked sent' asks' getting
  refine ⟨s'', sent', sent'', ?_, ?_, ?_, answered, answered', first.trans second⟩
  · rw [kept.regs, regs]
  · rw [kept.regsChanged, changed]
  · rw [kept.memory, memory]

theorem registers_over_line_ones : ∃ s' sent' sent'', s'.regs.bytes = List.replicate 64 1 ∧
    s'.regsChanged = true ∧ s'.memory = stopped.memory ∧
    Answered [] sent' 0 (chr 'G' :: (List.replicate 64 1).flatMap hexPair) 0 OK ∧
    Answered sent' sent'' 0 [chr 'g'] 0 ((List.replicate 64 1).flatMap hexPair) ∧
    exchange stopped ⟨[] ++ (frame (chr 'G' :: (List.replicate 64 1).flatMap hexPair) ++
        ([] ++ chr '+' :: ([] ++ (frame [chr 'g'] ++ ([] ++ chr '+' :: []))))), []⟩ =
      exchange s' ⟨[], sent''⟩ := by
  have set : Enclosed (chr 'G' :: (List.replicate 64 1).flatMap hexPair) :=
    ⟨by decide +kernel, .of_none (by decide +kernel), by decide +kernel⟩
  have get : Enclosed [chr 'g'] := ⟨by decide, .of_none (by decide), by decide⟩
  exact registers_over_line List.length_replicate
    (asks_frame .nil set (by decide +kernel) (by decide) (by decide))
    (asks_frame .nil get (by decide) (by decide) (by decide))

end IntelX86Kernel

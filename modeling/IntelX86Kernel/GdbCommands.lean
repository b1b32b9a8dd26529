import IntelX86Kernel.GdbStub

/-! What the commands do that gdb writes and reads registers and memory with. -/

namespace IntelX86Kernel

open X86 (Word Memory)

variable {bytes rest text : List (BitVec 8)} {c : BitVec 8} {k j : Nat} {u addr : Word}
  {s : Stub}

theorem hex_pair (c : BitVec 8) :
    (hex (hexchar (c >>> 4)) <<< 4 ||| hex (hexchar (c &&& 0xf))).slt 0 = false ∧
      (hex (hexchar (c >>> 4)) <<< 4 ||| hex (hexchar (c &&& 0xf))).setWidth 8 = c := by
  have table : ∀ n < 256, let c := BitVec.ofNat 8 n
      (hex (hexchar (c >>> 4)) <<< 4 ||| hex (hexchar (c &&& 0xf))).slt 0 = false ∧
        (hex (hexchar (c >>> 4)) <<< 4 ||| hex (hexchar (c &&& 0xf))).setWidth 8 = c := by
    decide +kernel
  have all := table c.toNat c.isLt
  rwa [BitVec.ofNat_toNat, BitVec.setWidth_eq] at all

theorem hex2bin_pairs : hex2bin (bytes.flatMap hexPair ++ rest) bytes.length = (bytes, true) := by
  induction bytes with
  | nil => rfl
  | cons c bytes ih =>
      obtain ⟨digits, value⟩ := hex_pair c
      have next : ((c :: bytes).flatMap hexPair ++ rest).drop 2 =
          bytes.flatMap hexPair ++ rest := rfl
      have high : ((c :: bytes).flatMap hexPair ++ rest).getD 0 0 = hexchar (c >>> 4) := rfl
      have low : ((c :: bytes).flatMap hexPair ++ rest).getD 1 0 = hexchar (c &&& 0xf) := rfl
      simp only [List.length_cons, hex2bin, high, low, digits, value, next, ih]
      rfl

theorem pairs_length : (bytes.flatMap hexPair).length = bytes.length * 2 := by
  induction bytes with
  | nil => rfl
  | cons c bytes ih =>
      have two : (hexPair c).length = 2 := rfl
      rw [List.flatMap_cons, List.length_append, two, ih, List.length_cons]
      omega

def number (k : Nat) (u : Word) : List (BitVec 8) := List.replicate k (chr '0') ++ written 16 u

theorem strtoul_number (ends : NumberEnds rest) : strtoul (number k u ++ rest) 16 = (u, rest) := by
  have read := strtoul_figures {} u 0 k (by decide : Radix 16) ends
  have plain : Directive.figures {} 16 u k = number k u := by
    simp [Directive.figures, Directive.alternate, number]
  rwa [plain] at read

theorem number_moves : rest ≠ number k u ++ rest := by
  intro same
  have length := congrArg List.length same
  have digits : 0 < (written 16 u).length := by
    rw [written, List.length_map]
    exact List.length_pos_iff.mpr Positional.numeral_ne_nil
  rw [number, List.length_append, List.length_append] at length
  omega

theorem numberEnds_cons (other : digitValue 36 c = none) : NumberEnds (c :: rest) := by
  intro d first
  rw [← Option.some.inj first]
  exact other

namespace Buffer

variable {buffer : Buffer}

theorem Holds.first (holds : buffer.Holds (c :: text)) : buffer.get 0 = c := by
  obtain ⟨stale, chars⟩ := holds
  rw [get, chars]
  rfl

theorem Holds.behind (holds : buffer.Holds (c :: text)) :
    ∃ stale, buffer.chars.drop 1 = text ++ 0 :: stale := by
  obtain ⟨stale, chars⟩ := holds
  refine ⟨stale, ?_⟩
  rw [chars]
  rfl

end Buffer

namespace Stub

theorem command_setRegs (length : bytes.length = 64)
    (holds : s.inbuf.Holds (chr 'G' :: bytes.flatMap hexPair)) :
    s.command = .ok (ok { s with regs := ⟨bytes, length⟩, regsChanged := true }) := by
  obtain ⟨stale, behind⟩ := holds.behind
  have all : s.regs.write 0 bytes = ⟨bytes, length⟩ := by
    have none : s.regs.bytes.drop 64 = [] :=
      List.drop_eq_nil_of_le (Nat.le_of_eq s.regs.sized)
    apply GdbState.ext
    change (s.regs.bytes.take 0 ++ bytes ++ s.regs.bytes.drop (0 + bytes.length)).take 64 = bytes
    rw [length, Nat.zero_add, none, List.take_zero, List.nil_append, List.append_nil]
    exact List.take_of_length_le (Nat.le_of_eq length)
  have read : hex2bin (s.text 1) 64 = (bytes, true) := by
    rw [Stub.text, behind, ← length]
    exact hex2bin_pairs
  rw [command, holds.first]
  change Except.ok s.setRegs = _
  rw [setRegs, read, ← all]
  rfl

theorem command_getRegs (holds : s.inbuf.Holds [chr 'g']) : s.command = .ok s.getRegs := by
  rw [command, holds.first]
  rfl

def writeText (c : BitVec 8) (k j : Nat) (addr len : Word) (data : List (BitVec 8)) :
    List (BitVec 8) :=
  c :: (number k addr ++ chr ',' :: (number j len ++ chr ':' :: data))

def readText (k j : Nat) (addr len : Word) : List (BitVec 8) :=
  chr 'm' :: (number k addr ++ chr ',' :: number j len)

variable {len : Word} {data : List (BitVec 8)}

theorem writeArguments_text (holds : s.inbuf.Holds (writeText c k j addr len data)) :
    ∃ stale, s.writeArguments = some (addr, len, data ++ 0 :: stale) ∧
      (data ++ 0 :: stale).length ≤ BUFMAX + 1 := by
  obtain ⟨stale, behind⟩ := holds.behind
  have text : s.text 1 =
      number k addr ++ chr ',' :: (number j len ++ chr ':' :: (data ++ 0 :: stale)) := by
    rw [Stub.text, behind]
    simp
  have comma : NumberEnds (chr ',' :: (number j len ++ chr ':' :: (data ++ 0 :: stale))) :=
    numberEnds_cons (by decide)
  have colon : NumberEnds (chr ':' :: (data ++ 0 :: stale)) := numberEnds_cons (by decide)
  have length := congrArg List.length text
  rw [Stub.text, List.length_drop, s.inbuf.sized] at length
  simp only [List.length_append, List.length_cons] at length
  refine ⟨stale, ?_, ?_⟩
  · simp only [writeArguments, text, strtoul_number comma, List.getElem?_cons_zero, ne_eq,
      not_true_eq_false, or_false, number_moves, if_false, List.drop_succ_cons, List.drop_zero,
      strtoul_number colon]
  · rw [List.length_append, List.length_cons]
    omega

theorem readMemory_text (holds : s.inbuf.Holds (readText k j addr len))
    (few : (len * 2).toNat ≤ BUFMAX)
    (copied : gdbCopyin s.memory s.client addr len.toNat = (bytes, true))
    (short : bytes.length ≤ BUFMAX + 1) :
    s.readMemory = .ok ⟨{ s with inbuf := s.inbuf.filled bytes },
      some [⟨(s.inbuf.filled bytes).chars, len.toNat, true⟩], .more⟩ := by
  obtain ⟨stale, behind⟩ := holds.behind
  have text : s.text 1 = number k addr ++ chr ',' :: (number j len ++ 0 :: stale) := by
    rw [Stub.text, behind]
    simp
  have comma : NumberEnds (chr ',' :: (number j len ++ 0 :: stale)) :=
    numberEnds_cons (by decide)
  have zero : NumberEnds (0 :: stale) := numberEnds_cons (by decide)
  simp only [readMemory, text, strtoul_number comma, List.getElem?_cons_zero, ne_eq,
    not_true_eq_false, or_false, number_moves, if_false, List.drop_succ_cons, List.drop_zero,
    strtoul_number zero, Nat.not_lt.mpr few, copied, Nat.not_lt.mpr short]
  rfl

theorem command_readMemory (holds : s.inbuf.Holds (readText k j addr len))
    (few : (len * 2).toNat ≤ BUFMAX)
    (copied : gdbCopyin s.memory s.client addr len.toNat = (bytes, true))
    (short : bytes.length ≤ BUFMAX + 1) :
    s.command = .ok ⟨{ s with inbuf := s.inbuf.filled bytes },
      some [⟨(s.inbuf.filled bytes).chars, len.toNat, true⟩], .more⟩ := by
  rw [command, holds.first]
  exact readMemory_text holds few copied short

theorem pointer_inside {n : Nat} (room : s.address.toNat + BUFMAX < 2 ^ 32)
    (long : n < text.length) (short : text.length ≤ BUFMAX + 1) :
    (s.pointer text).toNat = s.address.toNat + (BUFMAX + 1 - text.length) ∧
      (s.pointer text + .ofNat 32 n).toNat =
        s.address.toNat + (BUFMAX + 1 - text.length) + n ∧
      ¬ s.address + .ofNat 32 BUFMAX < s.pointer text + .ofNat 32 n := by
  have limit : BUFMAX = 400 := rfl
  rw [limit] at room short
  have front : (s.pointer text).toNat = s.address.toNat + (BUFMAX + 1 - text.length) := by
    rw [pointer, BitVec.toNat_add, BitVec.toNat_ofNat, limit]
    omega
  have behind : (s.pointer text + .ofNat 32 n).toNat =
      s.address.toNat + (BUFMAX + 1 - text.length) + n := by
    rw [BitVec.toNat_add, front, BitVec.toNat_ofNat, limit]
    omega
  refine ⟨front, behind, ?_⟩
  rw [BitVec.not_lt, BitVec.le_def, behind, BitVec.toNat_add, BitVec.toNat_ofNat, limit]
  omega

theorem command_writeMemory (room : s.address.toNat + BUFMAX < 2 ^ 32)
    (holds : s.inbuf.Holds
      (writeText (chr 'M') k j addr (.ofNat 32 bytes.length) (bytes.flatMap hexPair))) :
    s.command = .ok (s.copyout bytes addr) := by
  obtain ⟨stale, arguments, short⟩ := writeArguments_text holds
  have digits : (bytes.flatMap hexPair).length = bytes.length * 2 := pairs_length
  have long : bytes.length * 2 < (bytes.flatMap hexPair ++ 0 :: stale).length := by
    rw [List.length_append, List.length_cons, digits]
    omega
  have limit : BUFMAX = 400 := rfl
  have size : (BitVec.ofNat 32 bytes.length).toNat = bytes.length := by
    rw [BitVec.toNat_ofNat]
    omega
  have double : BitVec.ofNat 32 bytes.length * 2 = .ofNat 32 (bytes.length * 2) := by
    rw [BitVec.ofNat_mul]
    rfl
  obtain ⟨-, -, inside⟩ := pointer_inside room long short
  rw [← double] at inside
  rw [command, holds.first]
  change s.writeMemory = _
  rw [writeMemory, arguments]
  dsimp only
  rw [if_neg inside, size, if_neg (by omega), hex2bin_pairs]
  rfl

theorem command_writeBinary (room : s.address.toNat + BUFMAX < 2 ^ 32)
    (dequoted : dequote data = (bytes, true))
    (holds : s.inbuf.Holds (writeText (chr 'X') k j addr (.ofNat 32 data.length) data)) :
    s.command = .ok (copyout { s with inbuf := s.inbuf.filled bytes } bytes addr) := by
  obtain ⟨stale, arguments, short⟩ := writeArguments_text holds
  have long : data.length < (data ++ 0 :: stale).length := by
    rw [List.length_append, List.length_cons]
    omega
  have limit : BUFMAX = 400 := rfl
  have size : (BitVec.ofNat 32 data.length).toNat = data.length := by
    rw [BitVec.toNat_ofNat]
    omega
  obtain ⟨start, stop, inside⟩ := pointer_inside room long short
  have loop : (if s.pointer (data ++ 0 :: stale) <
        s.pointer (data ++ 0 :: stale) + .ofNat 32 data.length then
      dequote ((data ++ 0 :: stale).take data.length) else ([], true)) = (bytes, true) := by
    split
    · rw [List.take_left' rfl]
      exact dequoted
    · rename_i none
      rw [BitVec.lt_def, start, stop] at none
      have empty : data = [] := List.eq_nil_of_length_eq_zero (by omega)
      rw [empty] at dequoted
      exact dequoted
  rw [command, holds.first]
  change Except.ok s.writeBinary = _
  rw [writeBinary, arguments]
  dsimp only
  rw [if_neg inside, size, loop]
  rfl

end Stub

end IntelX86Kernel

import IntelX86Kernel.GdbSessions

/-! What `debugger` leaves of the registers and the memory of the task that it was called for. -/

namespace IntelX86Kernel

open X86 (Word Memory)

namespace GdbState

variable {regs : GdbState} {offset n i j : Nat} {out : List (BitVec 8)} {v : Word}

theorem write_bytes (inside : offset + out.length ≤ 64) :
    (regs.write offset out).bytes =
      regs.bytes.take offset ++ (out ++ regs.bytes.drop (offset + out.length)) := by
  have sized := regs.sized
  rw [← List.append_assoc]
  apply List.take_of_length_le
  simp only [List.length_append, List.length_take, List.length_drop]
  omega

theorem write_get (inside : offset + out.length ≤ 64) :
    (regs.write offset out).bytes.getD n 0 =
      if offset ≤ n ∧ n < offset + out.length then out.getD (n - offset) 0
      else regs.bytes.getD n 0 := by
  have sized := regs.sized
  have front : (regs.bytes.take offset).length = offset := by
    rw [List.length_take]
    omega
  rw [write_bytes inside]
  by_cases before : n < offset
  · rw [List.getD_append _ _ _ _ (by omega), if_neg (by omega), List.getD_eq_getElem?_getD,
      List.getElem?_take_of_lt before, ← List.getD_eq_getElem?_getD]
  · rw [List.getD_append_right _ _ _ _ (by omega), front]
    by_cases within : n < offset + out.length
    · rw [List.getD_append _ _ _ _ (by omega), if_pos (by omega)]
    · have place : offset + out.length + (n - offset - out.length) = n := by omega
      rw [List.getD_append_right _ _ _ _ (by omega), if_neg (by omega), List.getD_eq_getElem?_getD,
        List.getElem?_drop, place, ← List.getD_eq_getElem?_getD]

theorem reg_setReg (small : i < 16) :
    (regs.setReg i v).reg j = if j = i then v else regs.reg j := by
  have length : (wordBytes v).length = 4 := rfl
  have inside : 4 * i + (wordBytes v).length ≤ 64 := by omega
  simp only [reg, setReg, write_get inside, length]
  by_cases same : j = i
  · subst same
    have place (k : Nat) : 4 * j + k - 4 * j = k := by omega
    rw [if_pos (by omega), if_pos (by omega), if_pos (by omega), if_pos (by omega), if_pos rfl,
      place, place, place, Nat.sub_self]
    exact Memory.word_of_bytes v
  · rw [if_neg (by omega), if_neg (by omega), if_neg (by omega), if_neg (by omega), if_neg same]

end GdbState

namespace X86Tss

variable {t : X86Tss} {regs : GdbState} {v : Word}

theorem restore_save : t.restore t.save = t := by
  have word (v : Word) := Memory.word_of_bytes v
  cases t
  simp only [restore, mk.injEq, true_and, and_true]
  exact ⟨word _, word _, word _, word _, word _, word _, word _, word _, word _, word _, word _,
    word _, word _, word _, word _, word _⟩

theorem restore_eip :
    t.restore (regs.setReg GdbState.EIP v) = { t.restore regs with eip := v } := by
  have small : GdbState.EIP < 16 := by decide
  simp only [restore, GdbState.reg_setReg small]
  rfl

theorem restore_eflags :
    t.restore (regs.setReg GdbState.EFLAGS v) = { t.restore regs with eflags := v } := by
  have small : GdbState.EFLAGS < 16 := by decide
  simp only [restore, GdbState.reg_setReg small]
  rfl

theorem save_eflags : t.save.reg GdbState.EFLAGS = t.eflags := Memory.word_of_bytes _

end X86Tss

def traced (step : Bool) (eflags : Word) : Word :=
  if step then eflags ||| EFL_TF else eflags &&& ~~~EFL_TF

theorem gdbSetTraceFlag_eq {step : Bool} {regs : GdbState} :
    gdbSetTraceFlag step regs =
      regs.setReg GdbState.EFLAGS (traced step (regs.reg GdbState.EFLAGS)) := by
  cases step <;> rfl

theorem resumed_task {s s' : Stub} {t : X86Tss} {step : Bool} (saved : s.regs = t.save)
    (resumed : Resumed s s' step) :
    ∃ eip, t.restore s'.regs = { t with eip := eip, eflags := traced step t.eflags } ∧
      (s'.regsChanged = false → eip = t.eip) := by
  obtain ⟨regs, flags, same | other⟩ := resumed.regs
  · refine ⟨t.eip, ?_, fun _ => rfl⟩
    rw [flags, gdbSetTraceFlag_eq, X86Tss.restore_eflags, same.1, saved, X86Tss.restore_save,
      X86Tss.save_eflags]
  · obtain ⟨⟨eip, written⟩, changed⟩ := other
    refine ⟨eip, ?_, ?_⟩
    · have apart : GdbState.EFLAGS ≠ GdbState.EIP := by decide
      rw [flags, gdbSetTraceFlag_eq, X86Tss.restore_eflags, written, X86Tss.restore_eip, saved,
        X86Tss.restore_save, GdbState.reg_setReg (by decide), if_neg apart, X86Tss.save_eflags]
    · intro none
      rw [changed] at none
      cases none

variable {d d' : Debugger} {cr0 trapno : Word} {t t' : X86Tss} {inbuf : Buffer} {address : Word}
  {line line' : SerialLine}

def Debugger.stub (d : Debugger) (cr0 trapno : Word) (t : X86Tss) (inbuf : Buffer)
    (address : Word) : Stub :=
  ⟨inbuf, address, t.save, trapSignal trapno, false, d.connected, d.gdbSerialDebug, ⟨cr0, t.cr3⟩,
    d.memory⟩

theorem debugger_converses
    (returns : debugger d cr0 trapno t inbuf address line = .ok (some (d', t', line'))) :
    ∃ action s',
      gdbSerialConverse (d.stub cr0 trapno t inbuf address) line = .ok (action, s', line') ∧
      action ≠ .kill ∧ d'.memory = s'.memory ∧ t' = t.restore s'.regs := by
  have run : (gdbSerialConverse (d.stub cr0 trapno t inbuf address) line >>= fun result =>
      if result.1 = .kill then .ok none
      else .ok (some (⟨if result.1 = .detach then false else d.doDebug, result.2.1.connected,
        result.2.1.gdbSerialDebug, result.2.1.memory⟩, t.restore result.2.1.regs, result.2.2))) =
      .ok (some (d', t', line')) := returns
  cases converse : gdbSerialConverse (d.stub cr0 trapno t inbuf address) line with
  | error halt =>
      rw [converse] at run
      cases run
  | ok result =>
      obtain ⟨action, s', final⟩ := result
      rw [converse] at run
      dsimp only [bind, Except.bind] at run
      split at run
      · cases Except.ok.inj run
      · rename_i other
        obtain ⟨first, same⟩ := Prod.mk.inj (Option.some.inj (Except.ok.inj run))
        obtain ⟨second, third⟩ := Prod.mk.inj same
        rw [third]
        exact ⟨action, s', rfl, other, by rw [← first], second.symm⟩

/-- Whatever comes in, a conversation in which gdb does not write leaves the memory and the
registers as they were, but for the trace flag and the place where the task goes on. -/
theorem debugger_transparent
    (returns : debugger d cr0 trapno t inbuf address line = .ok (some (d', t', line'))) :
    ∃ started letters action s',
      putreply (d.stub cr0 trapno t inbuf address).report.reply line = some started ∧
      Conversation (d.stub cr0 trapno t inbuf address) started letters action s' line' ∧
      ((∀ c ∈ letters, c ∉ writers) → d'.memory = d.memory ∧
        if action = .cont then
          ∃ eip, t' = { t with eip := eip, eflags := traced (stepped letters) t.eflags } ∧
            (s'.regsChanged = false → eip = t.eip)
        else t' = t) := by
  obtain ⟨action, s', converse, other, memory, registers⟩ := debugger_converses returns
  simp only [gdbSerialConverse] at converse
  split at converse
  · cases converse
  · rename_i started reported
    obtain ⟨letters, conversation⟩ := conversation_of_returns converse
    refine ⟨started, letters, action, s', reported, conversation, ?_⟩
    intro quiet
    rw [memory, registers]
    rcases conversation.quiet quiet with ⟨kept, stays⟩ | ⟨resumed, cont⟩
    · refine ⟨kept.memory, ?_⟩
      rw [if_neg stays, kept.regs]
      exact X86Tss.restore_save
    · refine ⟨resumed.memory, ?_⟩
      rw [if_pos cont]
      exact resumed_task rfl resumed

theorem debugger_of_exchange {action : GdbAction} {s' : Stub} {started : SerialLine}
    (reported : putreply (d.stub cr0 trapno t inbuf address).report.reply line = some started)
    (turns : exchange (d.stub cr0 trapno t inbuf address) started = .ok (action, s', line'))
    (goesOn : action ≠ .kill) :
    ∃ d', debugger d cr0 trapno t inbuf address line =
      .ok (some (d', t.restore s'.regs, line')) := by
  have converse : gdbSerialConverse (d.stub cr0 trapno t inbuf address) line =
      .ok (action, s', line') := by
    simp only [gdbSerialConverse]
    split
    · rename_i none
      cases none.symm.trans reported
    · rename_i line reports
      rw [Option.some.inj (reports.symm.trans reported)]
      exact turns
  have run : debugger d cr0 trapno t inbuf address line =
      gdbSerialConverse (d.stub cr0 trapno t inbuf address) line >>= _ := rfl
  rw [run, converse]
  exact ⟨_, if_neg goesOn⟩

def X86Tss.zero : X86Tss := {}

def Debugger.zero : Debugger := ⟨true, true, false, fun _ => 0⟩

/-- gdb acknowledges the report and steps. -/
theorem debugger_transparent_step : ∃ d' t' line' started letters action s',
    debugger .zero 0 1 .zero .zero 0x1000 ⟨chr '+' :: frame [chr 's'], []⟩ =
        .ok (some (d', t', line')) ∧
      putreply (Debugger.zero.stub 0 1 .zero .zero 0x1000).report.reply
        ⟨chr '+' :: frame [chr 's'], []⟩ = some started ∧
      Conversation (Debugger.zero.stub 0 1 .zero .zero 0x1000) started letters action s' line' ∧
      ((∀ c ∈ letters, c ∉ writers) → d'.memory = Debugger.zero.memory ∧
        if action = .cont then
          ∃ eip, t' = { X86Tss.zero with
              eip := eip, eflags := traced (stepped letters) X86Tss.zero.eflags } ∧
            (s'.regsChanged = false → eip = X86Tss.zero.eip)
        else t' = X86Tss.zero) := by
  have enclosed : Enclosed [chr 's'] := ⟨by decide, .of_none (by decide), by decide⟩
  have accepts : Accepts ([] ++ (frame [chr 's'] ++ [])) 0 [chr 's'] _ [] :=
    accepts_frame .nil enclosed
  obtain ⟨older, read⟩ := getpacket_accepts .zero
    (frame (body [⟨literal "S", 0, false⟩, ⟨[5], 1, true⟩])) accepts
  have holds := @Buffer.accepted_holds older [chr 's'] (by decide) (by decide)
  obtain ⟨served, done, silent, cont⟩ : ∃ served,
      Stub.command { Debugger.zero.stub 0 1 .zero .zero 0x1000 with
        inbuf := (older.filled ([chr 's'] ++ [0])).accepted.1, connected := true } = .ok served ∧
      served.reply = none ∧ served.action = .cont := by
    rw [Stub.command, Buffer.Holds.first holds]
    exact ⟨_, rfl, rfl, rfl⟩
  have replied (line : SerialLine) : putreply served.reply line = some line := by
    rw [silent]
    rfl
  have turn := exchange_turn read done (replied _)
  rw [cont] at turn
  have reported : putreply (Debugger.zero.stub 0 1 .zero .zero 0x1000).report.reply
      ⟨chr '+' :: frame [chr 's'], []⟩ =
      some ⟨frame [chr 's'], frame (body [⟨literal "S", 0, false⟩, ⟨[5], 1, true⟩])⟩ := rfl
  obtain ⟨d', returns⟩ := debugger_of_exchange reported turn (by decide)
  obtain ⟨started, letters, action, s', transparent⟩ := debugger_transparent returns
  exact ⟨_, _, _, started, letters, action, s', returns, transparent⟩

end IntelX86Kernel

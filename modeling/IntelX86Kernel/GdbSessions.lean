import IntelX86Kernel.GdbCommands
import IntelX86Kernel.GdbKernel

/-! Whole conversations with gdb over the serial line. -/

namespace IntelX86Kernel

open X86 (Word Memory)

/-- A run of the loop of `gdb_serial_converse` until it returns, with the first characters of the
commands that were served. -/
inductive Conversation : Stub → SerialLine → List (BitVec 8) → GdbAction → Stub → SerialLine → Prop
  | last {s : Stub} {line line' line'' : SerialLine} {inbuf : Buffer} {served : CommandEnd}
      (read : getpacket s.inbuf line = some (inbuf, line'))
      (done : Stub.command { s with inbuf := inbuf, connected := true } = .ok served)
      (replied : putreply served.reply line' = some line'') (ends : served.action ≠ .more) :
      Conversation s line [inbuf.get 0] served.action served.stub line''
  | next {s s' : Stub} {line line' line'' final : SerialLine} {inbuf : Buffer} {served : CommandEnd}
      {letters : List (BitVec 8)} {action : GdbAction}
      (read : getpacket s.inbuf line = some (inbuf, line'))
      (done : Stub.command { s with inbuf := inbuf, connected := true } = .ok served)
      (replied : putreply served.reply line' = some line'') (more : served.action = .more)
      (later : Conversation served.stub line'' letters action s' final) :
      Conversation s line (inbuf.get 0 :: letters) action s' final

variable {s s' : Stub} {line line' line'' : SerialLine} {inbuf : Buffer} {served : CommandEnd}
  {letters : List (BitVec 8)} {action : GdbAction}

theorem exchange_turn (read : getpacket s.inbuf line = some (inbuf, line'))
    (done : Stub.command { s with inbuf := inbuf, connected := true } = .ok served)
    (replied : putreply served.reply line' = some line'') :
    exchange s line =
      if served.action = .more then exchange served.stub line''
      else .ok (served.action, served.stub, line'') := by
  rw [exchange]
  split
  · rename_i none
    rw [read] at none
    cases none
  · rename_i inbuf' next found
    rw [read] at found
    obtain ⟨rfl, rfl⟩ := Prod.mk.inj (Option.some.inj found)
    rw [done]
    dsimp only
    split
    · rename_i none
      rw [replied] at none
      cases none
    · rename_i final sent
      rw [replied] at sent
      rw [← Option.some.inj sent]

theorem Conversation.returns (conversation : Conversation s line letters action s' line') :
    exchange s line = .ok (action, s', line') := by
  induction conversation with
  | last read done replied ends => rw [exchange_turn read done replied, if_neg ends]
  | next read done replied more later ih => rw [exchange_turn read done replied, if_pos more, ih]

theorem conversation_of_returns (returns : exchange s line = .ok (action, s', line')) :
    ∃ letters, Conversation s line letters action s' line' := by
  induction size : line.incoming.length using Nat.strong_induction_on generalizing s line with
  | _ k ih =>
      rw [exchange] at returns
      split at returns
      · cases returns
      · rename_i inbuf next read
        split at returns
        · cases returns
        · rename_i served done
          split at returns
          · cases returns
          · rename_i final replied
            by_cases more : served.action = .more
            · rw [if_pos more] at returns
              have shorter : final.incoming.length < k := by
                rw [← size]
                exact Nat.lt_of_le_of_lt (putreply_shorter replied) (getpacket_shorter read)
              obtain ⟨letters, later⟩ := ih _ shorter returns rfl
              exact ⟨_, .next read done replied more later⟩
            · rw [if_neg more] at returns
              obtain ⟨rfl, same⟩ := Prod.mk.inj (Except.ok.inj returns)
              obtain ⟨rfl, rfl⟩ := Prod.mk.inj same
              exact ⟨_, .last read done replied more⟩

/-- What gdb sees of the client is the same, and what it may change. -/
structure Kept (s s' : Stub) : Prop where
  memory : s'.memory = s.memory
  client : s'.client = s.client
  regs : s'.regs = s.regs
  regsChanged : s'.regsChanged = s.regsChanged

structure Resumed (s s' : Stub) (step : Bool) : Prop where
  memory : s'.memory = s.memory
  client : s'.client = s.client
  regs : ∃ regs, s'.regs = gdbSetTraceFlag step regs ∧
    (regs = s.regs ∧ s'.regsChanged = s.regsChanged ∨
      (∃ eip, regs = s.regs.setReg GdbState.EIP eip) ∧ s'.regsChanged = true)

def writers : List (BitVec 8) := [chr 'G', chr 'P', chr 'M', chr 'X']

def steppers : List (BitVec 8) := [chr 's', chr 'S']

theorem Kept.trans {s'' : Stub} (first : Kept s s') (second : Kept s' s'') : Kept s s'' where
  memory := second.memory.trans first.memory
  client := second.client.trans first.client
  regs := second.regs.trans first.regs
  regsChanged := second.regsChanged.trans first.regsChanged

theorem Resumed.after {s'' : Stub} {step : Bool} (first : Kept s s')
    (second : Resumed s' s'' step) : Resumed s s'' step := by
  obtain ⟨memory, client, regs, traced, eip⟩ := second
  rw [first.regs, first.regsChanged] at eip
  exact ⟨memory.trans first.memory, client.trans first.client, regs, traced, eip⟩

theorem Kept.received : Kept s { s with inbuf := inbuf, connected := true } := ⟨rfl, rfl, rfl, rfl⟩

namespace Stub

def Quiet (s : Stub) (step : Prop) [Decidable step] (done : Except Fault CommandEnd) : Prop :=
  ∀ served, done = .ok served → Kept s served.stub ∧ served.action ≠ .cont ∨
    Resumed s served.stub (decide step) ∧ served.action = .cont

variable {step : Prop} [Decidable step] {done done' : Except Fault CommandEnd}

theorem Quiet.ite {p : Prop} [Decidable p] (yes : p → Quiet s step done)
    (no : ¬ p → Quiet s step done') : Quiet s step (if p then done else done') := by
  by_cases holds : p
  · rw [if_pos holds]
    exact yes holds
  · rw [if_neg holds]
    exact no holds

theorem Quiet.keeps (kept : Kept s served.stub) (stays : decide (served.action = .cont) = false) :
    Quiet s step (.ok served) := by
  intro served' same
  rw [← Except.ok.inj same]
  exact .inl ⟨kept, of_decide_eq_false stays⟩

theorem thread_quiet {i : Nat} {errchar : BitVec 8} : Quiet s step (.ok (s.thread i errchar)) := by
  simp only [thread]
  split
  · exact .keeps ⟨rfl, rfl, rfl, rfl⟩ rfl
  · exact .keeps ⟨rfl, rfl, rfl, rfl⟩ rfl

theorem readMemory_quiet : Quiet s step s.readMemory := by
  simp only [readMemory]
  apply Quiet.ite
  · intro error
    exact .keeps ⟨rfl, rfl, rfl, rfl⟩ rfl
  · intro address
    apply Quiet.ite
    · intro error
      exact .keeps ⟨rfl, rfl, rfl, rfl⟩ rfl
    · intro length
      apply Quiet.ite
      · intro overrun served fault
        cases fault
      · intro room
        apply Quiet.ite
        · intro good
          exact .keeps ⟨rfl, rfl, rfl, rfl⟩ rfl
        · intro error
          exact .keeps ⟨rfl, rfl, rfl, rfl⟩ rfl

theorem resume_quiet {text : List (BitVec 8)} {signo : BitVec 8} :
    Quiet s step (.ok (s.resume text (decide step) signo)) := by
  intro served same
  rw [← Except.ok.inj same]
  refine .inr ⟨?_, rfl⟩
  simp only [resume]
  split
  · exact ⟨rfl, rfl, _, rfl, .inr ⟨⟨_, rfl⟩, rfl⟩⟩
  · exact ⟨rfl, rfl, _, rfl, .inl ⟨rfl, rfl⟩⟩

theorem resumeSignal_quiet : Quiet s step (.ok (s.resumeSignal (decide step))) := by
  simp only [resumeSignal]
  split
  · exact .keeps ⟨rfl, rfl, rfl, rfl⟩ rfl
  · exact resume_quiet

theorem command_quiet (quiet : s.inbuf.get 0 ∉ writers) :
    Quiet s (s.inbuf.get 0 ∈ steppers) s.command := by
  simp only [writers, List.mem_cons, List.not_mem_nil, or_false, not_or] at quiet
  obtain ⟨noG, noP, noM, noX⟩ := quiet
  have kept : Kept s s := ⟨rfl, rfl, rfl, rfl⟩
  simp only [command, if_neg noG, if_neg noP, if_neg noM, if_neg noX]
  refine .ite (fun _ => thread_quiet) fun _ => .ite (fun _ => thread_quiet) fun _ =>
    .ite (fun _ => .keeps kept rfl) fun _ => .ite (fun _ => readMemory_quiet) fun _ =>
    .ite ?_ fun _ => .ite ?_ fun _ => .ite (fun _ => .keeps kept rfl) fun _ =>
    .ite (fun _ => .keeps ⟨rfl, rfl, rfl, rfl⟩ rfl) fun _ =>
    .ite (fun _ => .keeps ⟨rfl, rfl, rfl, rfl⟩ rfl) fun _ =>
    .ite (fun _ => .keeps ⟨rfl, rfl, rfl, rfl⟩ rfl) fun _ =>
    .ite (fun _ => .keeps ⟨rfl, rfl, rfl, rfl⟩ rfl) fun _ =>
    .ite (fun _ => .keeps kept rfl) fun _ => .keeps kept rfl
  · intro letter
    have step : decide (s.inbuf.get 0 ∈ steppers) = decide (s.inbuf.get 0 = chr 's') := by
      rcases letter with same | same <;> rw [same] <;> decide
    rw [← step]
    exact resume_quiet
  · intro letter
    have step : decide (s.inbuf.get 0 ∈ steppers) = decide (s.inbuf.get 0 = chr 'S') := by
      rcases letter with same | same <;> rw [same] <;> decide
    rw [← step]
    exact resumeSignal_quiet

end Stub

def stepped (letters : List (BitVec 8)) : Bool := letters.getLast?.any (· ∈ steppers)

theorem Conversation.nonempty (conversation : Conversation s line letters action s' line') :
    letters ≠ [] := by
  cases conversation with
  | last read done replied ends => exact List.cons_ne_nil _ _
  | next read done replied more later => exact List.cons_ne_nil _ _

theorem Conversation.quiet (conversation : Conversation s line letters action s' line')
    (quiet : ∀ c ∈ letters, c ∉ writers) :
    Kept s s' ∧ action ≠ .cont ∨ Resumed s s' (stepped letters) ∧ action = .cont := by
  induction conversation with
  | @last s line line' line'' inbuf served read done replied ends =>
      have command := Stub.command_quiet (quiet _ List.mem_cons_self) served done
      rcases command with ⟨kept, stays⟩ | ⟨resumed, cont⟩
      · exact .inl ⟨Kept.received.trans kept, stays⟩
      · exact .inr ⟨.after Kept.received resumed, cont⟩
  | @next s s' line line' line'' final inbuf served letters action read done replied more later
      ih =>
      have command := Stub.command_quiet (quiet _ List.mem_cons_self) served done
      rcases command with ⟨kept, -⟩ | ⟨-, cont⟩
      · have first := Kept.received.trans kept
        have last : stepped (inbuf.get 0 :: letters) = stepped letters := by
          obtain ⟨c, rest, rfl⟩ := List.exists_cons_of_ne_nil later.nonempty
          rw [stepped, stepped, List.getLast?_cons_cons]
        rw [last]
        rcases ih fun c member => quiet c (List.mem_cons_of_mem _ member) with
          ⟨kept', stays⟩ | ⟨resumed, cont⟩
        · exact .inl ⟨first.trans kept', stays⟩
        · exact .inr ⟨.after first resumed, cont⟩
      · rw [more] at cont
        cases cont

end IntelX86Kernel

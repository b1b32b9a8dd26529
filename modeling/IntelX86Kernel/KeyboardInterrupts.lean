import IntelX86Kernel.LineReads
import IntelX86Kernel.Printing
import IntelX86Kernel.TypedText

/-! From the keyboard interrupt to the processes that read the console. -/

namespace IntelX86Kernel

open Keyboard

def Console.receive (console : Console) : List CString → Console × List (BitVec 8)
  | [] => (console, [])
  | str :: strs =>
      let (console, printed) := console.keyboardData str.chars
      let (console, more) := console.receive strs
      (console, printed ++ more)

def keyboardInterrupt (keyboard : Keyboard) (console : Console) (scancode : BitVec 8) :
    Except Fault (Keyboard × Console × List (BitVec 8)) := do
  let next ← keyboard.doScancode scancode
  let (console, printed) := console.receive (next.sent.drop keyboard.sent.length)
  .ok (next, console, printed)

def keyboardInterrupts (keyboard : Keyboard) (console : Console) :
    List (BitVec 8) → Except Fault (Keyboard × Console × List (BitVec 8))
  | [] => .ok (keyboard, console, [])
  | scancode :: scancodes => do
      let (keyboard, console, printed) ← keyboardInterrupt keyboard console scancode
      let (keyboard, console, more) ← keyboardInterrupts keyboard console scancodes
      .ok (keyboard, console, printed ++ more)

variable {keyboard next : Keyboard} {console : Console} {scancode : BitVec 8}
  {scancodes text : List (BitVec 8)}

theorem Console.keyboardData_append (console : Console) (first second : List (BitVec 8)) :
    console.keyboardData (first ++ second) =
      (((console.keyboardData first).1.keyboardData second).1,
        (console.keyboardData first).2 ++ ((console.keyboardData first).1.keyboardData second).2) := by
  induction first generalizing console with
  | nil => rfl
  | cons ch first ih => simp only [List.cons_append, keyboardData, ih, List.append_assoc]

theorem Console.receive_eq (console : Console) (strs : List CString) :
    console.receive strs = console.keyboardData (strs.flatMap CString.chars) := by
  induction strs generalizing console with
  | nil => rfl
  | cons str strs ih => simp only [receive, List.flatMap_cons, keyboardData_append, ih]

namespace Keyboard

theorem perform_sent (keyboard : Keyboard) (up : Bool) (act : Action) :
    keyboard.sent <+: (keyboard.perform up act).sent := by
  cases act with
  | nothing => exact List.prefix_refl _
  | text strs =>
      rw [perform, sendAll_eq]
      split
      · exact List.prefix_refl _
      · exact List.prefix_append _ _
  | led flag =>
      rw [perform]
      split <;> exact List.prefix_refl _
  | hold =>
      rw [perform, hold]
      split_ifs <;> exact List.prefix_refl _
  | recount =>
      rw [perform]
      split <;> exact List.prefix_refl _
  | modifier value =>
      rw [perform, shiftKey]
      split
      · exact List.prefix_refl _
      · dsimp only
        split
        · exact List.prefix_append _ _
        · exact List.prefix_refl _
  | digit base value =>
      rw [perform]
      split <;> exact List.prefix_refl _

theorem scanned_sent (down : Bool) (answer : PrevScancode × Option (BitVec 8)) :
    keyboard.sent <+: (keyboard.scanned down answer).sent := by
  obtain ⟨prev, keycode⟩ := answer
  cases keycode with
  | none => exact List.prefix_refl _
  | some keycode =>
      rw [scanned, keyed, respond]
      split
      · have marked : keyboard.sent =
            ({ keyboard with prevScancode := prev }.track (!down) keycode).1.sent := by
          cases down <;> rfl
        have kept := ({ keyboard with prevScancode := prev }.track (!down) keycode).1.perform_sent
          ({ keyboard with prevScancode := prev }.track (!down) keycode).2
        rw [← marked] at kept
        exact kept _
      · cases down <;> exact List.prefix_refl _

theorem Ordinary.doScancode_sent (ordinary : keyboard.Ordinary)
    (run : keyboard.doScancode scancode = .ok next) : keyboard.sent <+: next.sent := by
  have ready := ordinary.ready
  by_cases noise : Noise scancode
  · rw [ordinary.noise noise] at run
    cases run
    exact List.prefix_refl _
  · obtain ⟨answer, translated⟩ := kbdTranslate_ok keyboard.ready.prevScancode scancode
    rw [doScancode_code (by rwa [ready]) noise translated, ready] at run
    obtain ⟨leds, same⟩ := kbdBh_eq (keyboard.scanned (!scancode.getLsbD 7) answer)
    rw [same] at run
    cases run
    exact scanned_sent _ _

end Keyboard

theorem keyboardInterrupts_sent (ordinary : keyboard.Ordinary) (console : Console)
    (run : keyboard.doScancodes scancodes = .ok next) :
    ∃ strs, next.sent = keyboard.sent ++ strs ∧
      keyboardInterrupts keyboard console scancodes = .ok (next, console.receive strs) := by
  induction scancodes generalizing keyboard console with
  | nil =>
      cases run
      exact ⟨[], (List.append_nil _).symm, rfl⟩
  | cons scancode scancodes ih =>
      have ready := ordinary.ready
      obtain ⟨middle, step, ordinary'⟩ := doScancode_ready (by rwa [ready]) scancode
      obtain ⟨strs, first⟩ := ordinary.doScancode_sent step
      rw [doScancodes, step] at run
      have dropped : middle.sent.drop keyboard.sent.length = strs := by
        rw [← first, List.drop_left]
      obtain ⟨strs', second, rest⟩ := ih ordinary' (console.receive strs).1 run
      refine ⟨strs ++ strs', ?_, ?_⟩
      · rw [second, ← first, List.append_assoc]
      · have both := console.receive_eq (strs ++ strs')
        rw [List.flatMap_append, Console.keyboardData_append, ← Console.receive_eq,
          ← Console.receive_eq] at both
        simp only [keyboardInterrupts, keyboardInterrupt, step, dropped, bind, Except.bind, rest, both]

/-- The console gets what the driver types, and the driver does not depend on it. -/
theorem keyboardInterrupts_typed (ordinary : keyboard.Ordinary) (console : Console)
    (run : keyboard.doScancodes scancodes = .ok next) (typed : next.typed = keyboard.typed ++ text) :
    keyboardInterrupts keyboard console scancodes = .ok (next, console.keyboardData text) := by
  obtain ⟨strs, sent, interrupts⟩ := keyboardInterrupts_sent ordinary console run
  rw [Keyboard.typed, Keyboard.typed, sent, List.flatMap_append] at typed
  rw [interrupts, Console.receive_eq, List.append_cancel_left typed]

theorem LineEnds.inside {line part : List (BitVec 8)} {length : Nat} (ends : LineEnds length [] part)
    (before : part <+: line) (open_ : 13 ∉ line)
    (fits : ∀ part, part <+: line → (lineEdit part).length < length) : False := by
  rcases ends with returned | full
  · have member := List.mem_of_getLast? returned
    exact open_ (before.subset member)
  · have room := fits part before
    rw [lineEdit, full] at room
    exact Nat.lt_irrefl _ room

/-- A line that is typed key by key and ended with Enter, when all that was typed before has been
taken, is what the next call of `cons_read` returns, after its backspaces, unless it fills the
text that the call asks for. It is echoed, and the keyboard is as before. -/
theorem typed_line_read {num : Bool} {written line : List (BitVec 8)} {pid length : Nat}
    (between : keyboard.Between (atRest num)) (follows : console.Follows written written)
    (idle : console.readers pid = none) (typable : ∀ c ∈ line, Typable c) (open_ : 13 ∉ line)
    (fits : ∀ part, part <+: line → (lineEdit part).length < length)
    (room : line.length < BUFFER_SIZE) :
    ∃ keyboard' console' printed console'',
      keyboardInterrupts keyboard console (((line ++ [13]).flatMap chord).flatMap Stroke.scancodes) =
        .ok (keyboard', console', printed) ∧
      keyboard'.Between (atRest num) ∧
      printed = (if console.echo then (line ++ [13]).flatMap echoCommand else []) ∧
      console'.Reads pid length (line ++ [13]) (lineEdit line) console'' := by
  have typable' : ∀ c ∈ line ++ [13], Typable c := by
    intro c member
    rcases List.mem_append.mp member with inside | last
    · exact typable c inside
    · rw [List.mem_singleton.mp last]
      decide
  obtain ⟨expects, run⟩ := text_run typable' num
  obtain ⟨keyboard', keys, between', typed⟩ := between.strokes _ expects
  rw [run] at between' typed
  have interrupts := keyboardInterrupts_typed between.shows.ordinary console keys typed
  have noZero : (0 : BitVec 8) ∉ line ++ [13] := by
    intro member
    exact absurd (typable' 0 member) (by decide)
  have positive : 0 < length := Nat.lt_of_le_of_lt (Nat.zero_le _) (fits [] (List.nil_prefix))
  have waits := (follows.keyboardData noZero).waits (by
    rw [List.length_append, List.length_append]
    exact Nat.add_le_add_left room _)
  rw [List.drop_left] at waits
  have complete : ∃ part, part <+: line ++ [13] ∧ LineEnds length [] part :=
    ⟨line ++ [13], List.prefix_refl _, .inl List.getLast?_concat⟩
  have idle' : (console.keyboardData (line ++ [13])).1.readers pid = none := by
    rw [Console.keyboardData_readers, idle]
  obtain ⟨part, rest, console'', reads⟩ := waits.readsLine idle' positive complete
  have whole : part = line ++ [13] := by
    rcases List.prefix_concat_iff.mp ⟨rest, reads.split.symm⟩ with all | before
    · exact all
    · exact (reads.ends.inside before open_ fits).elim
  have edited : lineEdit (line ++ [13]) = lineEdit line := by
    rw [lineEdit, List.foldl_append]
    rfl
  have read := reads.reads
  rw [whole, edited] at read
  exact ⟨keyboard', _, _, console'', interrupts, between', keyboardData_echo, read⟩

/-- After boot: a capital, a backspace and a brace that needs AltGr. -/
theorem typed_line_read_brace :
    let line := [0x41, 127, 0x7b#8]
    ∃ keyboard' console' printed console'',
      keyboardInterrupts boot.ready Console.initial
          (((line ++ [13]).flatMap chord).flatMap Stroke.scancodes) =
        .ok (keyboard', console', printed) ∧
      keyboard'.Between (atRest false) ∧
      printed = (if Console.initial.echo then (line ++ [13]).flatMap echoCommand else []) ∧
      console'.Reads 1 2 (line ++ [13]) (lineEdit line) console'' := by
  intro line
  have fits : ∀ part ∈ line.inits, (lineEdit part).length < 2 := by decide
  have between : boot.ready.Between (atRest false) := boot_between
  exact typed_line_read between Console.Follows.initial rfl (by decide) (by decide)
    (fun part before => fits part ((List.mem_inits part line).mpr before)) (by decide)

end IntelX86Kernel

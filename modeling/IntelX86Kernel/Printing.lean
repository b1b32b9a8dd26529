import IntelX86Kernel.ClockDisplay
import IntelX86Kernel.Formats
import IntelX86Kernel.Kbd
import IntelX86Kernel.Processes

/-! The callers of `_doprnt` in shared/printf.c and shared/sprintf.c, and those who call them. -/

namespace IntelX86Kernel

open X86 (Word Memory)
open Positional (numeral)

def PRINTF_BUFMAX : Nat := 128

structure PrintfState where
  buf : Nat → BitVec 8
  index : Nat
  calls : List (List (BitVec 8))

namespace PrintfState

variable (state : PrintfState)

def held : List (BitVec 8) := (List.range state.index).map state.buf

def flush : PrintfState := { state with calls := state.calls ++ [state.held], index := 0 }

def printfChar (c : BitVec 8) : PrintfState :=
  if c = 0 ∨ c = chr '\n' ∨ PRINTF_BUFMAX ≤ state.index then
    let state := state.flush
    { state with buf := Function.update state.buf 0 c, calls := state.calls ++ [[c]] }
  else { state with buf := Function.update state.buf state.index c, index := state.index + 1 }

end PrintfState

/-- The state at the end of `_doprnt`, and the last `flush`; `buf` is not initialised. -/
def vprintf (strings : Strings) (buf : Nat → BitVec 8) (fmt : List (BitVec 8)) (args : VaList) :
    Except DoprntFault (List (List (BitVec 8))) := do
  let out ← doprnt strings 0 fmt args
  let state := out.foldl PrintfState.printfChar ⟨buf, 0, []⟩
  .ok (if state.index ≠ 0 then state.flush.calls else state.calls)

def Screen.console (screen : Screen) : List (List (BitVec 8)) → Except Fault Screen
  | [] => .ok screen
  | call :: calls => do
      let screen ← screen.consolePutbytes call call.length
      screen.console calls

namespace PrintfState

variable {state : PrintfState} {c : BitVec 8} {out : List (BitVec 8)}

structure Printed (state : PrintfState) (out : List (BitVec 8)) : Prop where
  text : state.calls.flatten ++ state.held = out
  room : state.index ≤ PRINTF_BUFMAX
  sizes : ∀ call ∈ state.calls, call.length ≤ PRINTF_BUFMAX

theorem held_update {n : Nat} (least : state.index ≤ n) :
    (List.range state.index).map (Function.update state.buf n c) = state.held := by
  apply List.map_congr_left
  intro i member
  have below := List.mem_range.mp member
  exact Function.update_of_ne (by omega) _ _

theorem Printed.flush (printed : state.Printed out) : state.flush.Printed out := by
  refine ⟨?_, Nat.zero_le _, ?_⟩
  · rw [← printed.text]
    simp [PrintfState.flush, held]
  · intro call member
    rcases List.mem_append.mp member with member | member
    · exact printed.sizes call member
    · rw [List.mem_singleton.mp member, held, List.length_map, List.length_range]
      exact printed.room

theorem Printed.char (printed : state.Printed out) : (state.printfChar c).Printed (out ++ [c]) := by
  rw [printfChar]
  split
  · have flushed := printed.flush
    refine ⟨?_, Nat.zero_le _, ?_⟩
    · have text := flushed.text
      simp only [held, PrintfState.flush, List.range_zero, List.map_nil, List.append_nil] at text
      simp [held, PrintfState.flush, ← text]
    · intro call member
      rcases List.mem_append.mp member with member | member
      · exact flushed.sizes call member
      · rw [List.mem_singleton.mp member]
        exact (by decide : 1 ≤ PRINTF_BUFMAX)
  · rename_i room
    have inside : state.index < PRINTF_BUFMAX := by
      apply Nat.lt_of_not_le
      exact fun full => room (.inr (.inr full))
    refine ⟨?_, inside, printed.sizes⟩
    rw [← printed.text, List.append_assoc]
    congr 1
    rw [held, List.range_succ, List.map_append, held_update (Nat.le_refl _)]
    simp

theorem Printed.run (printed : state.Printed out) (more : List (BitVec 8)) :
    (more.foldl printfChar state).Printed (out ++ more) := by
  induction more generalizing state out with
  | nil => rwa [List.append_nil]
  | cons c more ih =>
      have step := ih (printed.char (c := c))
      rwa [List.append_assoc] at step

end PrintfState

theorem Screen.console_flatten {screen : Screen} {calls : List (List (BitVec 8))} :
    screen.console calls = screen.putbytes calls.flatten := by
  induction calls generalizing screen with
  | nil => rfl
  | cons call calls ih =>
      have all : call.take (call.length : Int).toNat = call := List.take_of_length_le (by omega)
      rw [console, consolePutbytes, all, List.flatten_cons, putbytes_append]
      cases screen.putbytes call with
      | error fault => rfl
      | ok printed => exact ih

section Printf

variable {strings : Strings} {buf : Nat → BitVec 8} {fmt out : List (BitVec 8)} {args : VaList}

theorem vprintf_calls (buf : Nat → BitVec 8) (printed : doprnt strings 0 fmt args = .ok out) :
    ∃ calls, vprintf strings buf fmt args = .ok calls ∧ calls.flatten = out ∧
      ∀ call ∈ calls, call.length ≤ PRINTF_BUFMAX := by
  have start : (⟨buf, 0, []⟩ : PrintfState).Printed [] := by
    refine ⟨rfl, Nat.zero_le _, ?_⟩
    intro call member
    cases member
  have finish := start.run out
  rw [List.nil_append] at finish
  rw [vprintf, printed]
  refine ⟨_, rfl, ?_⟩
  split
  · have flushed := finish.flush
    have text := flushed.text
    rw [PrintfState.held, PrintfState.flush, List.range_zero, List.map_nil, List.append_nil] at text
    exact ⟨text, flushed.sizes⟩
  · rename_i empty
    have text := finish.text
    rw [PrintfState.held, not_not.mp empty, List.range_zero, List.map_nil, List.append_nil] at text
    exact ⟨text, finish.sizes⟩

/-- `printf` gives `console_putbytes` the characters of `_doprnt` in their order, at most as many
at once as the buffer holds, and the screen is as if they came one by one. -/
theorem vprintf_putbytes (printed : doprnt strings 0 fmt args = .ok out) :
    ∃ calls, vprintf strings buf fmt args = .ok calls ∧ calls.flatten = out ∧
      (∀ call ∈ calls, call.length ≤ PRINTF_BUFMAX) ∧
      ∀ screen : Screen, screen.console calls = screen.putbytes out := by
  obtain ⟨calls, run, text, sizes⟩ := vprintf_calls buf printed
  refine ⟨calls, run, text, sizes, fun screen => ?_⟩
  rw [Screen.console_flatten, text]

/-- A line with a number. -/
theorem vprintf_putbytes_line :
    ∃ calls, vprintf (fun _ => []) (fun _ => 0) [chr '%', chr 'd', chr '\n'] (fun _ => 42) = .ok calls ∧
      calls.flatten = [chr '4', chr '2', chr '\n'] ∧
      (∀ call ∈ calls, call.length ≤ PRINTF_BUFMAX) ∧
      ∀ screen : Screen, screen.console calls = screen.putbytes [chr '4', chr '2', chr '\n'] :=
  vprintf_putbytes (by decide +kernel)

end Printf

def SPRINTF_UNLIMITED : Word := 0xFFFFFFF

structure SprintfState where
  memory : Memory
  buf : Word
  len : Word
  max : Word

namespace SprintfState

def savechar (state : SprintfState) (c : BitVec 8) : SprintfState :=
  if state.max ≠ SPRINTF_UNLIMITED ∧ state.len = state.max then state
  else
    { state with
      len := state.len + 1
      memory := Function.update state.memory state.buf c
      buf := state.buf + 1 }

/-- The common end of `vsprintf` and `vsnprintf`: the terminator and the value returned. -/
def finish (state : SprintfState) : Memory × Word :=
  (Function.update state.memory state.buf 0, state.len)

end SprintfState

def vsnprintf (strings : Strings) (memory : Memory) (s size : Word) (fmt : List (BitVec 8))
    (args : VaList) : Except DoprntFault (Memory × Word) := do
  let out ← doprnt strings 0 fmt args
  .ok (out.foldl SprintfState.savechar ⟨memory, s, 0, size⟩).finish

def vsprintf (strings : Strings) (memory : Memory) (s : Word) (fmt : List (BitVec 8))
    (args : VaList) : Except DoprntFault (Memory × Word) :=
  vsnprintf strings memory s SPRINTF_UNLIMITED fmt args

/-- The characters that are kept in an array of `size` bytes. -/
def kept (size : Word) (out : List (BitVec 8)) : List (BitVec 8) :=
  if size ≠ SPRINTF_UNLIMITED then out.take size.toNat else out

section Sprintf

variable {strings : Strings} {m : Memory} {s size : Word} {fmt out : List (BitVec 8)}
  {args : VaList} {c : BitVec 8}

theorem kept_length_le (size : Word) (out : List (BitVec 8)) :
    (kept size out).length ≤ out.length := by
  rw [kept]
  split
  · exact List.length_take_le' _ _
  · exact Nat.le_refl _

theorem kept_snoc (room : out.length < 2 ^ 32) :
    kept size (out ++ [c]) =
      if size ≠ SPRINTF_UNLIMITED ∧ BitVec.ofNat 32 (kept size out).length = size then kept size out
      else kept size out ++ [c] := by
  by_cases limited : size ≠ SPRINTF_UNLIMITED
  · have whole := size.isLt
    have stored : kept size out = out.take size.toNat := if_pos limited
    have length : (kept size out).length = min size.toNat out.length := by
      rw [stored, List.length_take]
    have full : BitVec.ofNat 32 (kept size out).length = size ↔ size.toNat ≤ out.length := by
      rw [length]
      constructor
      · intro same
        have value := congrArg BitVec.toNat same
        rw [BitVec.toNat_ofNat] at value
        omega
      · intro least
        apply BitVec.eq_of_toNat_eq
        rw [BitVec.toNat_ofNat]
        omega
    by_cases least : size.toNat ≤ out.length
    · rw [if_pos ⟨limited, full.mpr least⟩, stored, kept, if_pos limited,
        List.take_append_of_le_length least]
    · rw [if_neg fun both => least (full.mp both.2), stored, kept, if_pos limited,
        List.take_of_length_le (Nat.le_of_not_le least), List.take_of_length_le]
      simp
      omega
  · rw [if_neg fun both => limited both.1, kept, kept, if_neg limited, if_neg limited]

theorem savechar_run (room : out.length < 2 ^ 32) :
    out.foldl SprintfState.savechar ⟨m, s, 0, size⟩ =
      ⟨X86.Memory.overwrite m s (kept size out), s + .ofNat 32 (kept size out).length,
        .ofNat 32 (kept size out).length, size⟩ := by
  induction out using List.reverseRecOn with
  | nil =>
    have none : kept size [] = [] := by
      rw [kept, List.take_nil, ite_self]
    rw [none, X86.Memory.overwrite_nil]
    simp
  | append_singleton out c ih =>
    rw [List.length_append, List.length_singleton] at room
    have before : out.length < 2 ^ 32 := by omega
    rw [List.foldl_append, ih before, List.foldl_cons, List.foldl_nil, SprintfState.savechar,
      kept_snoc before]
    split
    · rfl
    · have small : (kept size out).length < 2 ^ 32 := Nat.lt_of_le_of_lt (kept_length_le _ _) before
      have next : BitVec.ofNat 32 (kept size out ++ [c]).length =
          BitVec.ofNat 32 (kept size out).length + 1 := by
        rw [List.length_append, List.length_singleton, BitVec.ofNat_add]
        rfl
      rw [next, ← BitVec.add_assoc, X86.Memory.overwrite_snoc small]

theorem vsnprintf_memory (printed : doprnt strings 0 fmt args = .ok out)
    (room : out.length < 2 ^ 32) :
    vsnprintf strings m s size fmt args =
      .ok (X86.Memory.overwrite m s (kept size out ++ [0]), .ofNat 32 (kept size out).length) := by
  have small : (kept size out).length < 2 ^ 32 := Nat.lt_of_le_of_lt (kept_length_le _ _) room
  rw [vsnprintf, printed]
  change Except.ok (SprintfState.finish _) = _
  rw [savechar_run room, SprintfState.finish, X86.Memory.overwrite_snoc small]

/-- `snprintf` stores what fits in `size` bytes and a zero behind it, and returns how much that
is; it stays inside the array exactly when the text is shorter than the array. -/
theorem vsnprintf_inside (printed : doprnt strings 0 fmt args = .ok out)
    (room : out.length < 2 ^ 32) :
    (∀ m : Memory, vsnprintf strings m s size fmt args =
      .ok (m.overwrite s (kept size out ++ [0]), .ofNat 32 (kept size out).length)) ∧
    ((∀ (m m' : Memory) (n a : Word), vsnprintf strings m s size fmt args = .ok (m', n) →
        size.toNat ≤ (a - s).toNat → m' a = m a) ↔ out.length < size.toNat) := by
  refine ⟨fun m => vsnprintf_memory printed room, ?_⟩
  have whole := size.isLt
  constructor
  · intro inside
    by_contra long
    have place : (s + size - s).toNat = size.toNat := by
      rw [BitVec.add_comm, BitVec.add_sub_cancel]
    have written : size.toNat < (kept size out ++ [0]).length := by
      rw [List.length_append, List.length_singleton, kept]
      split
      · rw [List.length_take]
        omega
      · omega
    have changed (m : Memory) : (kept size out ++ [0])[size.toNat] = m (s + size) := by
      have same := inside m _ _ (s + size) (vsnprintf_memory printed room) (Nat.le_of_eq place.symm)
      rw [X86.Memory.overwrite, place, List.getD_eq_getElem _ _ written] at same
      exact same
    have zero := changed fun _ => 0
    have one := changed fun _ => 1
    rw [zero] at one
    exact absurd one (by decide)
  · intro short m m' n a run outside
    have stored := kept_length_le size out
    rw [vsnprintf_memory printed room] at run
    cases run
    apply X86.Memory.overwrite_outside
    rw [List.length_append, List.length_singleton]
    omega

/-- Two digits and their terminator do not fit in an array of two bytes. -/
theorem vsnprintf_inside_two :
    (∀ m : Memory, vsnprintf (fun _ => []) m 4096 2 [chr '%', chr 'd'] (fun _ => 42) =
      .ok (m.overwrite 4096 (kept 2 [chr '4', chr '2'] ++ [0]),
        .ofNat 32 (kept 2 [chr '4', chr '2']).length)) ∧
    ((∀ (m m' : Memory) (n a : Word),
        vsnprintf (fun _ => []) m 4096 2 [chr '%', chr 'd'] (fun _ => 42) = .ok (m', n) →
        (2 : Word).toNat ≤ (a - 4096).toNat → m' a = m a) ↔
      [chr '4', chr '2'].length < (2 : Word).toNat) :=
  vsnprintf_inside (by decide +kernel) (by decide)

end Sprintf

section Clock

def clockFormat : List (BitVec 8) := "%02d:%02d:%02d".toList.map chr

theorem written_toDigits (n : Nat) :
    (Nat.toDigits 10 n).map (fun digit => BitVec.ofNat 8 digit.toNat) =
      (numeral 10 n).map fun digit => digs.getD digit 0 := by
  induction n using Nat.strong_induction_on with
  | _ n ih =>
    have table : ∀ digit < 10, BitVec.ofNat 8 (Nat.digitChar digit).toNat = digs.getD digit 0 := by
      decide
    rw [Nat.toDigits_eq_if (by decide)]
    by_cases small : n < 10
    · rw [if_pos small, Positional.numeral_of_lt small]
      simp only [List.map_cons, List.map_nil, table n small]
    · have least : 10 ≤ n := Nat.le_of_not_lt small
      rw [if_neg small, Positional.numeral_of_le (by decide) least, List.map_append, List.map_append,
        ih _ (by omega)]
      simp only [List.map_cons, List.map_nil, table (n % 10) (by omega)]

theorem length_written_pos (base u : Word) : 0 < (written base u).length := by
  rw [written, List.length_map]
  exact List.length_pos_iff.mpr Positional.numeral_ne_nil

theorem neg_toNat {v : Word} (negative : v.toInt < 0) : (-v).toNat = v.toInt.natAbs := by
  have value := BitVec.toInt_eq_toNat_cond v
  have bound := v.isLt
  rw [BitVec.toNat_neg]
  split at value <;> omega

theorem printNum_zeros (signChar : BitVec 8) (v : Word) (length : Nat) :
    ({ length := length, padc := chr '0' } : Directive).printNum signChar 10 v =
      .ok (signOf signChar ++
        (List.replicate (length - (signOf signChar).length - (written 10 v).length) (chr '0') ++
          written 10 v)) := by
  obtain ⟨left, zeros, right, width, padded, text⟩ := ({ length := length, padc := chr '0' } :
    Directive).printNum_field signChar v (by decide : Radix 10) (.inr rfl)
  have all := padded rfl
  have left_none : left = 0 := by omega
  have right_none : right = 0 := by omega
  have plain : ({ length := length, padc := chr '0' } : Directive).alternate 10 v = [] := by
    simp [Directive.alternate]
  have positive := length_written_pos 10 v
  have none : (-1 - ((written 10 v).length : Int)).toNat = 0 := by omega
  have spare : zeros = length - (signOf signChar).length - (written 10 v).length := by
    rw [all, Directive.spare, Directive.needed, plain]
    simp only [List.length_nil]
    omega
  rw [text, left_none, right_none, plain, none, spare]
  simp

theorem number_percent02d {v : Word} :
    ({ length := 2, padc := chr '0' } : Directive).number 10 true v = .ok (percent02d v.toInt) := by
  have digits (u : Word) : (Nat.toDigits 10 u.toNat).map (fun digit => BitVec.ofNat 8 digit.toNat) =
      written 10 u := written_toDigits u.toNat
  rw [Directive.number, if_pos rfl, percent02d]
  by_cases natural : 0 ≤ v.toInt
  · have same : v.toInt.natAbs = v.toNat := by
      have value := BitVec.toInt_eq_toNat_cond v
      have bound := v.isLt
      split at value <;> omega
    have printed := printNum_zeros 0 v 2
    rw [if_pos natural, if_neg (Int.not_lt.mpr natural), same, digits]
    exact printed
  · have negative : v.toInt < 0 := Int.not_le.mp natural
    have positive := length_written_pos 10 (-v)
    have full : 2 - (signOf (chr '-')).length - (written 10 (-v)).length = 0 := by
      have sign : (signOf (chr '-')).length = 1 := rfl
      omega
    have printed := printNum_zeros (chr '-') (-v) 2
    rw [full] at printed
    rw [if_neg natural, if_pos negative, ← neg_toNat negative, digits]
    exact printed

variable {strings : Strings} {fmt : List (BitVec 8)} {args : VaList}

theorem doprnt_percent02d :
    doprnt strings 0 (chr '%' :: chr '0' :: chr '2' :: chr 'd' :: fmt) args =
      (doprnt strings 0 fmt (args.after 1)).map (percent02d (args 0).toInt ++ ·) := by
  have parsed : Directive.parse (chr '0' :: chr '2' :: chr 'd' :: fmt) args =
      ({ length := 2, padc := chr '0' }, chr 'd' :: fmt, args) := rfl
  have decimal : conversion 0 (chr 'd') = some (10, true) := rfl
  rw [doprnt_directive parsed, convert_number decimal, number_percent02d]
  rfl

theorem doprnt_clockFormat :
    doprnt strings 0 clockFormat args = .ok (percent02d (args 0).toInt ++
      58 :: percent02d (args 1).toInt ++ 58 :: percent02d (args 2).toInt) := by
  have format : clockFormat = chr '%' :: chr '0' :: chr '2' :: chr 'd' :: chr ':' ::
      chr '%' :: chr '0' :: chr '2' :: chr 'd' :: chr ':' ::
      chr '%' :: chr '0' :: chr '2' :: chr 'd' :: [] := rfl
  have colon : chr ':' ≠ chr '%' := by decide
  rw [format, doprnt_percent02d, doprnt_text colon, doprnt_percent02d, doprnt_text colon,
    doprnt_percent02d, doprnt_nil]
  simp [Except.map, VaList.after, chr]

def Time.arguments (time : Time) (stack : VaList) : VaList :=
  .cons 0 (.cons time.minutes (.cons time.seconds stack))

/-- After any number of interrupts `sprintf` fills the nine bytes of the array of the interrupt
handler with the text that the handler displays, and writes no other byte. -/
theorem clock_sprintf (n : Nat) (stack : VaList) (m : Memory) (s : Word) :
    ∃ bytes, vsprintf strings m s clockFormat ((Time.after n).arguments stack) =
        .ok (m.overwrite s bytes, 8) ∧
      bytes = (Time.after n).text ++ [0] ∧ bytes.length = 9 := by
  obtain ⟨length, -⟩ := Time.after_text n
  have printed : doprnt strings 0 clockFormat ((Time.after n).arguments stack) =
      .ok (Time.after n).text :=
    doprnt_clockFormat
  refine ⟨_, ?_, rfl, ?_⟩
  · have all : kept SPRINTF_UNLIMITED (Time.after n).text = (Time.after n).text := by
      rw [kept, if_neg (not_not.mpr rfl)]
    rw [vsprintf, vsnprintf_memory printed (by omega), all, length]
    rfl
  · rw [List.length_append, length]
    rfl

end Clock

section Users

variable {strings : Strings} {buf : Nat → BitVec 8} {stack : VaList} {fmt : List (BitVec 8)}

def inTurn (first second : Except DoprntFault (List (List (BitVec 8)))) :
    Except DoprntFault (List (List (BitVec 8))) := do
  let calls ← first
  let more ← second
  .ok (calls ++ more)

theorem inTurn_text {first second : Except DoprntFault (List (List (BitVec 8)))}
    {text more : List (BitVec 8)} (printed : ∃ calls, first = .ok calls ∧ calls.flatten = text)
    (later : ∃ calls, second = .ok calls ∧ calls.flatten = more) :
    ∃ calls, inTurn first second = .ok calls ∧ calls.flatten = text ++ more := by
  obtain ⟨calls, rfl, rfl⟩ := printed
  obtain ⟨others, rfl, rfl⟩ := later
  exact ⟨calls ++ others, rfl, List.flatten_append⟩

theorem foldr_text {α : Type} {l : List α} {f : α → Except DoprntFault (List (List (BitVec 8)))}
    {text : α → List (BitVec 8)}
    (printed : ∀ x ∈ l, ∃ calls, f x = .ok calls ∧ calls.flatten = text x) :
    ∃ calls, l.foldr (fun x others => inTurn (f x) others) (.ok []) = .ok calls ∧
      calls.flatten = l.flatMap text := by
  induction l with
  | nil => exact ⟨[], rfl, rfl⟩
  | cons x l ih =>
      rw [List.foldr_cons, List.flatMap_cons]
      apply inTurn_text (printed x (List.mem_cons_self ..))
      exact ih fun later member => printed later (List.mem_cons_of_mem _ member)

/-- The calls of `printf` in `echo_command`, with what is behind the arguments on the stack. -/
def echoCalls (strings : Strings) (buf : Nat → BitVec 8) (stack : VaList) (c : BitVec 8) :
    Except DoprntFault (List (List (BitVec 8))) :=
  if c = 9 ∨ (32 ≤ c.toInt ∧ c.toInt ≤ 126) then
    vprintf strings buf [chr '%', chr 'c'] (.cons (c.signExtend 32) stack)
  else if c = 13 then vprintf strings buf [chr '\n'] stack
  else if c.toInt < 32 then
    vprintf strings buf [chr '^', chr '%', chr 'c'] (.cons (64 + c.signExtend 32) stack)
  else if c = 127 then vprintf strings buf [8] stack
  else .ok []

theorem doprnt_character {arg : Word} :
    doprnt strings 0 (chr '%' :: chr 'c' :: fmt) (.cons arg stack) =
      (doprnt strings 0 fmt stack).map (arg.truncate 8 :: ·) := by
  have parsed : Directive.parse (chr 'c' :: fmt) (.cons arg stack) =
      ({}, chr 'c' :: fmt, .cons arg stack) := rfl
  rw [doprnt_directive parsed]
  rfl

theorem echoCalls_text (c : BitVec 8) :
    ∃ calls, echoCalls strings buf stack c = .ok calls ∧ calls.flatten = echoCommand c := by
  have same (out : List (BitVec 8)) (fmt : List (BitVec 8)) (args : VaList)
      (printed : doprnt strings 0 fmt args = .ok out) :
      ∃ calls, vprintf strings buf fmt args = .ok calls ∧ calls.flatten = out := by
    obtain ⟨calls, run, text, -⟩ := vprintf_calls buf printed
    exact ⟨calls, run, text⟩
  have narrow : (c.signExtend 32).truncate 8 = c := by
    apply BitVec.eq_of_getLsbD_eq
    intro i inside
    simp only [BitVec.truncate_eq_setWidth, BitVec.getLsbD_setWidth, BitVec.getLsbD_signExtend]
    simp [inside]
    omega
  have control : (64 + c.signExtend 32).truncate 8 = 64 + c := by
    rw [BitVec.truncate_eq_setWidth, BitVec.setWidth_add _ _ (by decide), ← BitVec.truncate_eq_setWidth,
      ← BitVec.truncate_eq_setWidth, narrow]
    rfl
  rw [echoCalls, echoCommand]
  split
  · apply same
    rw [doprnt_character, doprnt_nil, narrow]
    rfl
  · split
    · apply same
      rw [doprnt_text (by decide), doprnt_nil]
      rfl
    · split
      · apply same
        rw [doprnt_text (by decide), doprnt_character, doprnt_nil, control]
        rfl
      · split
        · apply same
          rw [doprnt_text (by decide), doprnt_nil]
          rfl
        · exact ⟨[], rfl, rfl⟩

theorem keyboardData_echo {console : Console} {str : List (BitVec 8)} :
    (console.keyboardData str).2 = if console.echo then str.flatMap echoCommand else [] := by
  induction str generalizing console with
  | nil => simp [Console.keyboardData]
  | cons ch str ih =>
      rw [Console.keyboardData]
      dsimp only
      rw [ih]
      cases console.echo with
      | true => rfl
      | false => rfl

/-- The echo of all characters that the keyboard delivers, through `printf` to the screen. -/
theorem echo_on_screen (console : Console) (str : List (BitVec 8)) :
    ∃ calls, (if console.echo then
        str.foldr (fun ch others => inTurn (echoCalls strings buf stack ch) others) (.ok [])
      else .ok []) = .ok calls ∧
      ∀ screen : Screen, screen.console calls = screen.putbytes (console.keyboardData str).2 := by
  rw [keyboardData_echo]
  cases console.echo with
  | false => exact ⟨[], rfl, fun screen => rfl⟩
  | true =>
    obtain ⟨calls, run, text⟩ := foldr_text (l := str) (f := echoCalls strings buf stack)
      fun ch _ => echoCalls_text ch
    refine ⟨calls, run, fun screen => ?_⟩
    rw [Screen.console_flatten, text]
    rfl

namespace Kernel.Line

def printf (strings : Strings) (buf : Nat → BitVec 8) (stack : VaList) (line : Kernel.Line) (name : Word) :
    Except DoprntFault (List (List (BitVec 8))) :=
  let arguments := VaList.cons (.ofNat 32 line.pid) (.cons name stack)
  if line.level = 0 then vprintf strings buf ("-+= %04d %s\n".toList.map chr) arguments
  else
    inTurn ((List.range line.level).foldr
        (fun _ others => inTurn (vprintf strings buf [chr ' '] stack) others) (.ok []))
      (vprintf strings buf ("|--= %04d %s\n".toList.map chr) arguments)

def text (line : Kernel.Line) : List (BitVec 8) :=
  List.replicate line.level (chr ' ') ++
    ((if line.level = 0 then "-+= " else "|--= ").toList.map chr ++
      (List.replicate (4 - (written 10 (.ofNat 32 line.pid)).length) (chr '0') ++
        (written 10 (.ofNat 32 line.pid) ++
          (chr ' ' :: (line.name.map UInt8.toBitVec ++ [chr '\n'])))))

end Kernel.Line

theorem doprnt_behind {mark out : List (BitVec 8)} {args : VaList} (plain : ∀ c ∈ mark, c ≠ chr '%')
    (printed : doprnt strings 0 fmt args = .ok out) :
    doprnt strings 0 (mark ++ fmt) args = .ok (mark ++ out) := by
  induction mark with
  | nil => exact printed
  | cons c mark ih =>
      rw [List.cons_append, doprnt_text (plain c (List.mem_cons_self ..)),
        ih fun later member => plain later (List.mem_cons_of_mem _ member)]
      rfl

variable {line : Kernel.Line} {name : Word}

theorem doprnt_line (stack : VaList) (nonnull : name ≠ 0)
    (named : strings name = line.name.map UInt8.toBitVec) (small : line.pid < 2 ^ 31)
    (short : line.name.length ≤ 0x7fffffff) :
    doprnt strings 0 ("%04d %s\n".toList.map chr) (.cons (.ofNat 32 line.pid) (.cons name stack)) =
      .ok (List.replicate (4 - (written 10 (.ofNat 32 line.pid)).length) (chr '0') ++
        (written 10 (.ofNat 32 line.pid) ++
          (chr ' ' :: (line.name.map UInt8.toBitVec ++ [chr '\n'])))) := by
  have format : "%04d %s\n".toList.map chr =
      [chr '%', chr '0', chr '4', chr 'd', chr ' ', chr '%', chr 's', chr '\n'] := rfl
  have number : Directive.parse [chr '0', chr '4', chr 'd', chr ' ', chr '%', chr 's', chr '\n']
      (.cons (.ofNat 32 line.pid) (.cons name stack)) =
        ({ length := 4, padc := chr '0' }, chr 'd' :: [chr ' ', chr '%', chr 's', chr '\n'],
          .cons (.ofNat 32 line.pid) (.cons name stack)) := rfl
  have string : Directive.parse [chr 's', chr '\n'] (.cons name stack) =
      ({}, chr 's' :: [chr '\n'], .cons name stack) := rfl
  have natural : 0 ≤ (BitVec.ofNat 32 line.pid).toInt := by
    rw [BitVec.toInt_eq_toNat_of_lt]
    · exact Int.natCast_nonneg _
    · rw [BitVec.toNat_ofNat]
      omega
  have pid := printNum_zeros 0 (.ofNat 32 line.pid) 4
  have text : ({} : Directive).string (line.name.map UInt8.toBitVec) = line.name.map UInt8.toBitVec := by
    have limit : ({} : Directive).limit = 0x7fffffff := rfl
    have all : (line.name.map UInt8.toBitVec).take 0x7fffffff = line.name.map UInt8.toBitVec := by
      apply List.take_of_length_le
      rwa [List.length_map]
    rw [Directive.string_eq, limit, all]
    simp
  have after_number : VaList.after (.cons (.ofNat 32 line.pid) (.cons name stack)) 1 =
      .cons name stack := rfl
  have letter : ¬ (chr 's' = chr 'b' ∨ chr 's' = chr 'B') ∧ chr 's' ≠ chr 'c' := by decide
  have print_name : convert strings 0 {} (chr 's') (.cons name stack) =
      .ok (line.name.map UInt8.toBitVec, stack) := by
    rw [convert, if_neg letter.1, if_neg letter.2, if_pos rfl]
    change Except.ok (({} : Directive).string (if name = 0 then [] else strings name), _) = _
    rw [if_neg nonnull, named, text]
    rfl
  have newline : doprnt strings 0 [chr '\n'] stack = .ok [chr '\n'] := by
    rw [doprnt_text (by decide), doprnt_nil]
    rfl
  have rest : doprnt strings 0 [chr ' ', chr '%', chr 's', chr '\n'] (.cons name stack) =
      .ok (chr ' ' :: (line.name.map UInt8.toBitVec ++ [chr '\n'])) := by
    rw [doprnt_text (by decide), doprnt_directive string, print_name]
    change ((doprnt strings 0 [chr '\n'] stack).map _).map _ = _
    rw [newline]
    rfl
  have print_pid : ({ length := 4, padc := chr '0' } : Directive).number 10 true
      (VaList.cons (.ofNat 32 line.pid) (.cons name stack) 0) =
        ({ length := 4, padc := chr '0' } : Directive).printNum 0 10 (.ofNat 32 line.pid) := by
    rw [Directive.number, if_pos rfl]
    exact if_pos natural
  have decimal : conversion 0 (chr 'd') = some (10, true) := rfl
  rw [format, doprnt_directive number, convert_number decimal, print_pid]
  have width : (4 : Int) = ((4 : Nat) : Int) := rfl
  rw [width, pid]
  change (doprnt strings 0 [chr ' ', chr '%', chr 's', chr '\n'] (.cons name stack)).map _ = _
  rw [rest]
  simp [Except.map, signOf]

def Kernel.Line.printAll (strings : Strings) (buf : Nat → BitVec 8) (stack : VaList)
    (names : Kernel.Line → Word) (lines : List Kernel.Line) :
    Except DoprntFault (List (List (BitVec 8))) :=
  lines.foldr (fun line others => inTurn (line.printf strings buf stack (names line)) others) (.ok [])

theorem line_text (nonnull : name ≠ 0) (named : strings name = line.name.map UInt8.toBitVec)
    (small : line.pid < 2 ^ 31) (short : line.name.length ≤ 0x7fffffff) :
    ∃ calls, line.printf strings buf stack name = .ok calls ∧ calls.flatten = line.text := by
  have printed := doprnt_line stack nonnull named small short
  rw [Kernel.Line.printf, Kernel.Line.text]
  by_cases top : line.level = 0
  · have mark : ∀ c ∈ "-+= ".toList.map chr, c ≠ chr '%' := by decide
    obtain ⟨calls, run, text, -⟩ := vprintf_calls buf (doprnt_behind mark printed)
    refine ⟨calls, ?_, ?_⟩
    · rw [← run]
      exact if_pos top
    · rw [text, top]
      rfl
  · have mark : ∀ c ∈ "|--= ".toList.map chr, c ≠ chr '%' := by decide
    obtain ⟨calls, run, text, -⟩ := vprintf_calls buf (doprnt_behind mark printed)
    have blank : ∀ i ∈ List.range line.level,
        ∃ calls, vprintf strings buf [chr ' '] stack = .ok calls ∧ calls.flatten = [chr ' '] := by
      intro i _
      have space : doprnt strings 0 [chr ' '] stack = .ok [chr ' '] := by
        rw [doprnt_text (by decide), doprnt_nil]
        rfl
      obtain ⟨calls, run, text, -⟩ := vprintf_calls buf space
      exact ⟨calls, run, text⟩
    have blanks := foldr_text blank
    have indentation : (List.range line.level).flatMap (fun _ => [chr ' ']) =
        List.replicate line.level (chr ' ') := by
      rw [← List.map_eq_flatMap, List.map_const', List.length_range]
    rw [indentation] at blanks
    rw [if_neg top, if_neg top]
    exact inTurn_text blanks ⟨calls, run, text⟩

/-- The tree of the processes is printed on the screen line by line, each process in its depth
with its number in four digits and its name. -/
theorem printAll_text {names : Kernel.Line → Word} {lines : List Kernel.Line}
    (named : ∀ line ∈ lines, names line ≠ 0 ∧
      strings (names line) = line.name.map UInt8.toBitVec ∧ line.pid < 2 ^ 31 ∧
      line.name.length ≤ 0x7fffffff) :
    ∃ calls, Kernel.Line.printAll strings buf stack names lines = .ok calls ∧
      calls.flatten = lines.flatMap Kernel.Line.text ∧
      ∀ screen : Screen, screen.console calls =
        screen.putbytes (lines.flatMap Kernel.Line.text) := by
  have printed : ∀ line ∈ lines, ∃ calls,
      line.printf strings buf stack (names line) = .ok calls ∧ calls.flatten = line.text := by
    intro line member
    obtain ⟨nonnull, name, small, short⟩ := named line member
    exact line_text nonnull name small short
  obtain ⟨calls, run, text⟩ := foldr_text printed
  refine ⟨calls, run, text, fun screen => ?_⟩
  rw [Screen.console_flatten, text]

/-- Two processes. -/
theorem printAll_text_two :
    ∃ calls, Kernel.Line.printAll (fun _ => [97, 98]) (fun _ => 0) (fun _ => 0) (fun _ => 4096)
        [⟨0, 0, [97, 98]⟩, ⟨1, 12, [97, 98]⟩] = .ok calls ∧
      calls.flatten = [⟨0, 0, [97, 98]⟩, ⟨1, 12, [97, 98]⟩].flatMap Kernel.Line.text ∧
      ∀ screen : Screen, screen.console calls =
        screen.putbytes ([⟨0, 0, [97, 98]⟩, ⟨1, 12, [97, 98]⟩].flatMap Kernel.Line.text) :=
  printAll_text (by decide)

end Users

end IntelX86Kernel

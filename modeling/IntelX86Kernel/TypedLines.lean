import IntelX86Kernel.KeyboardQueue

/-! Which call of `cons_read` takes the characters of a line. -/

namespace IntelX86Kernel

open Transition

/-- A character taken in a turn, numbered by the steps before it, by a call that was asked for
`length` characters. -/
structure Take where
  turn : Nat
  char : BitVec 8
  length : Nat
  deriving DecidableEq

def Console.requested (c : Console) (pid : Nat) : Nat := (c.readers pid).elim 0 Reader.length

/-- What has been taken of the line that is not at its end yet, the latest first. -/
def line : List ConsoleStep → List Take
  | [] => []
  | t :: past =>
      match t.event, t.outcome with
      | .turn pid, .took ch _ =>
          if ch = 13 then [] else ⟨past.length, ch, t.before.requested pid⟩ :: line past
      | _, _ => line past

def mine (pid : Nat) : List ConsoleStep → List Take
  | [] => []
  | t :: past =>
      match t.event, t.outcome with
      | .consRead reader _, _ => if reader = pid then [] else mine pid past
      | .turn reader, .took ch _ =>
          if reader = pid then ⟨past.length, ch, t.before.requested reader⟩ :: mine pid past
          else mine pid past
      | _, _ => mine pid past

def edited (takes : List Take) : List (BitVec 8) :=
  takes.foldr (fun take text => if take.char = 127 then text.dropLast else text ++ [take.char]) []

def Short (takes : List Take) : Prop :=
  ∀ first, takes.getLast? = some first → takes.length < first.length

def callers : List ConsoleStep → List Nat
  | [] => []
  | t :: past =>
      match t.event with
      | .consRead pid _ => pid :: callers past
      | .keyboardData _ | .consEcho _ | .turn _ => callers past

/-- No call takes a character while another one has part of a line. -/
def Undivided (past : List ConsoleStep) (t : ConsoleStep) : Prop :=
  ∀ other ∈ callers past, t.event ≠ .turn other →
    t.before.keyboardBuffer t.before.readPosition ≠ 0 → (t.before.readers other).isSome →
    mine other past = []

/-- A call that returns at the end of a short line has taken that line and nothing else, and
a call returns inside a line only when the line is not short. -/
def Whole (past : List ConsoleStep) (t : ConsoleStep) : Prop :=
  ∀ pid ch text, t.event = .turn pid → t.outcome = .took ch (some text) →
    (ch = 13 → Short (line past) → line past = mine pid past ∧ text = edited (line past)) ∧
    (ch ≠ 13 → ¬ Short (line (t :: past)))

variable {history past : List ConsoleStep} {c c' : Console} {e : ConsoleEvent}
  {answer : ConsoleAnswer} {pid other : Nat} {r : Reader} {r' : Option Reader} {ch : BitVec 8}
  {text : Option (List (BitVec 8))} {takes : List Take} {take : Take}

theorem Reader.text_length (r : Reader) : r.text.length = r.charLength := by
  rw [Reader.text, List.length_map, List.length_range]

theorem Reader.text_put (r : Reader) (ch : BitVec 8) :
    (r.put ch).text = if ch = 127 then r.text.dropLast else r.text ++ [ch] := by
  rw [Reader.put]
  split
  · rw [Reader.text, Reader.text]
    dsimp only
    rcases Nat.eq_zero_or_pos r.charLength with none | some
    · rw [none]
      rfl
    · obtain ⟨n, same⟩ := Nat.exists_eq_succ_of_ne_zero (Nat.ne_of_gt some)
      rw [if_pos some, same, Nat.succ_sub_one, List.range_succ, List.map_append, List.map_singleton,
        List.dropLast_concat]
  · rw [Reader.text, Reader.text]
    dsimp only
    rw [List.range_succ, List.map_append, List.map_singleton, Function.update_self]
    congr 1
    refine List.map_congr_left fun i member => ?_
    exact Function.update_of_ne (Nat.ne_of_lt (List.mem_range.mp member)) _ _

theorem Reader.put_length (r : Reader) (ch : BitVec 8) : (r.put ch).length = r.length := by
  rw [Reader.put]
  split <;> rfl

theorem Reader.put_le (r : Reader) (ch : BitVec 8) : (r.put ch).charLength ≤ r.charLength + 1 := by
  rw [Reader.put]
  split
  · dsimp only
    split <;> omega
  · exact Nat.le_refl _

theorem not_short_cons (long : ¬ Short takes) : ¬ Short (take :: takes) := by
  intro short
  refine long fun first last => ?_
  have more := short first (by rw [List.getLast?_cons, last]; rfl)
  exact Nat.lt_of_succ_lt more

/-- How far a call has got. -/
structure Progress (past : List ConsoleStep) (pid : Nat) (r : Reader) : Prop where
  text : r.text = edited (mine pid past)
  count : r.charLength ≤ (mine pid past).length
  asked : ∀ take ∈ mine pid past, take.length = r.length
  part : ∃ older, line past = mine pid past ++ older

theorem Progress.keep {t : ConsoleStep} (progress : Progress past pid r)
    (own : mine pid (t :: past) = mine pid past)
    (part : line (t :: past) = line past ∨ mine pid past = []) : Progress (t :: past) pid r := by
  refine ⟨?_, ?_, ?_, ?_⟩
  · rw [own]
    exact progress.text
  · rw [own]
    exact progress.count
  · rw [own]
    exact progress.asked
  · rw [own]
    rcases part with same | none
    · rw [same]
      exact progress.part
    · rw [none]
      exact ⟨_, rfl⟩

theorem Progress.read {length : Nat} {string : Nat → BitVec 8} (none : mine pid past = []) :
    Progress past pid ⟨length, 0, string⟩ := by
  refine ⟨?_, Nat.zero_le _, ?_, ?_⟩
  · rw [none]
    rfl
  · rw [none]
    nofun
  · rw [none]
    exact ⟨_, rfl⟩

theorem Progress.put {t : ConsoleStep} (progress : Progress past pid r)
    (asks : take.length = r.length) (own : mine pid (t :: past) = take :: mine pid past)
    (part : line (t :: past) = take :: line past) :
    Progress (t :: past) pid (r.put take.char) := by
  refine ⟨?_, ?_, fun other member => ?_, ?_⟩
  · rw [own, Reader.text_put, progress.text]
    rfl
  · rw [own]
    exact (r.put_le take.char).trans (Nat.succ_le_succ progress.count)
  · rw [Reader.put_length]
    rw [own] at member
    rcases List.mem_cons.mp member with rfl | member
    · exact asks
    · exact progress.asked other member
  · obtain ⟨older, whole⟩ := progress.part
    refine ⟨older, ?_⟩
    rw [own, part, whole]
    rfl

theorem Progress.full (progress : Progress past pid r) (asks : take.length = r.length)
    (long : r.length ≤ r.charLength + 1) : ¬ Short (take :: mine pid past) := by
  intro short
  have count := progress.count
  cases last : (take :: mine pid past).getLast? with
  | none => exact absurd (List.getLast?_eq_none_iff.mp last) (List.cons_ne_nil _ _)
  | some first =>
      have less := short first last
      have asked : first.length = r.length := by
        rcases List.mem_cons.mp (List.mem_of_getLast? last) with rfl | member
        · exact asks
        · exact progress.asked first member
      rw [asked, List.length_cons] at less
      omega

/-- How far the calls have got with the line, which one call has begun and is still at unless
the line is long. -/
structure Lined (past : List ConsoleStep) (c : Console) : Prop where
  progress : ∀ pid r, c.readers pid = some r → Progress past pid r
  begun : line past = [] ∨ ¬ Short (line past) ∨
    ∃ pid r, c.readers pid = some r ∧ line past = mine pid past

theorem Lined.initial : Lined [] Console.initial := ⟨nofun, .inl rfl⟩

theorem Lined.quiet (lined : Lined past c) (readers : c'.readers = c.readers)
    (same : line (⟨c, e, answer, c'⟩ :: past) = line past)
    (own : ∀ pid r, c.readers pid = some r →
      mine pid (⟨c, e, answer, c'⟩ :: past) = mine pid past) :
    Lined (⟨c, e, answer, c'⟩ :: past) c' := by
  constructor
  · intro pid r reading
    rw [readers] at reading
    exact (lined.progress pid r reading).keep (own pid r reading) (.inl same)
  · rw [same]
    rcases lined.begun with none | long | ⟨pid, r, reading, whole⟩
    · exact .inl none
    · exact .inr (.inl long)
    · refine .inr (.inr ⟨pid, r, ?_, ?_⟩)
      · rw [readers]
        exact reading
      · rw [own pid r reading]
        exact whole

theorem Lined.read (lined : Lined past c) (idle : c.readers pid = none) (length : Nat)
    (answer : ConsoleAnswer) :
    Lined (⟨c, .consRead pid length, answer, c.setReader pid (some ⟨length, 0, fun _ => 0⟩)⟩ ::
      past) (c.setReader pid (some ⟨length, 0, fun _ => 0⟩)) := by
  let t : ConsoleStep :=
    ⟨c, .consRead pid length, answer, c.setReader pid (some ⟨length, 0, fun _ => 0⟩)⟩
  have new : mine pid (t :: past) = [] := if_pos rfl
  have old {other : Nat} (apart : other ≠ pid) : mine other (t :: past) = mine other past :=
    if_neg apart.symm
  constructor
  · intro other r reading
    by_cases here : other = pid
    · subst here
      rw [Console.setReader_self] at reading
      rw [← Option.some.inj reading]
      exact .read new
    · rw [Console.setReader_of_ne _ here] at reading
      exact (lined.progress other r reading).keep (old here) (.inl rfl)
  · rcases lined.begun with none | long | ⟨other, r, reading, whole⟩
    · exact .inl none
    · exact .inr (.inl long)
    · have apart : other ≠ pid := by
        rintro rfl
        rw [idle] at reading
        cases reading
      refine .inr (.inr ⟨other, r, ?_, whole.trans (old apart).symm⟩)
      rw [Console.setReader_of_ne _ apart]
      exact reading

theorem Lined.own (lined : Lined past c) (reading : c.readers pid = some r)
    (undivided : ∀ other, other ≠ pid → c.readers other ≠ none → mine other past = []) :
    ¬ Short (line past) ∨ line past = mine pid past := by
  obtain ⟨older, part⟩ := (lined.progress pid r reading).part
  have empty (none : line past = []) : line past = mine pid past := by
    rw [none] at part ⊢
    exact (List.append_eq_nil_iff.mp part.symm).1.symm
  rcases lined.begun with none | long | ⟨other, r', reading', whole⟩
  · exact .inr (empty none)
  · exact .inl long
  · by_cases same : other = pid
    · exact .inr (same ▸ whole)
    · have nothing := undivided other same (by rw [reading']; nofun)
      exact .inr (empty (whole.trans nothing))

theorem Lined.turn (lined : Lined past c) (reading : c.readers pid = some r)
    (undivided : ∀ other, other ≠ pid → c.readers other ≠ none → mine other past = [])
    (takes : r.Takes ch r' text) :
    Lined (⟨c, .turn pid, .took ch text, c.advance.setReader pid r'⟩ :: past)
        (c.advance.setReader pid r') ∧
      Whole past ⟨c, .turn pid, .took ch text, c.advance.setReader pid r'⟩ := by
  let t : ConsoleStep := ⟨c, .turn pid, .took ch text, c.advance.setReader pid r'⟩
  let x : Take := ⟨past.length, ch, c.requested pid⟩
  have asks : x.length = r.length := by
    change (c.readers pid).elim 0 Reader.length = r.length
    rw [reading]
    rfl
  have progress := lined.progress pid r reading
  have own := lined.own reading undivided
  have new : mine pid (t :: past) = x :: mine pid past := if_pos rfl
  have others {other : Nat} {r'' : Reader} (apart : other ≠ pid)
      (reading' : t.after.readers other = some r'') : Progress (t :: past) other r'' := by
    have before : c.readers other = some r'' := by
      rw [← reading']
      exact (Console.setReader_of_ne _ apart r').symm
    have nothing := undivided other apart (by rw [before]; nofun)
    exact (lined.progress other r'' before).keep (if_neg apart.symm) (.inr nothing)
  have returned (ended : r' = none) {other : Nat} {r'' : Reader}
      (reading' : t.after.readers other = some r'') : other ≠ pid := by
    rintro rfl
    rw [show t.after.readers other = r' from Console.setReader_self _ _ _, ended] at reading'
    cases reading'
  have longer (inside : ch ≠ 13) (long : (r.put ch).length ≤ (r.put ch).charLength) :
      ¬ Short (line (t :: past)) := by
    rw [show line (t :: past) = x :: line past from if_neg inside]
    rcases own with long' | same
    · exact not_short_cons long'
    · rw [same]
      refine progress.full asks ?_
      rw [Reader.put_length] at long
      exact long.trans (r.put_le ch)
  cases takes with
  | line ended =>
      refine ⟨⟨fun other r'' reading' => others (returned rfl reading') reading',
        .inl (if_pos ended)⟩, fun pid' ch' text' turn took => ?_⟩
      cases turn
      cases took
      refine ⟨fun _ short => ?_, fun inside => absurd ended inside⟩
      have same := own.resolve_left (not_not.mpr short)
      exact ⟨same, same ▸ progress.text⟩
  | more inside short =>
      have grown : line (t :: past) = x :: line past := if_neg inside
      refine ⟨⟨fun other r'' reading' => ?_, ?_⟩, nofun⟩
      · by_cases here : other = pid
        · subst here
          rw [Console.setReader_self] at reading'
          rw [← Option.some.inj reading']
          exact progress.put asks new grown
        · exact others here reading'
      · rcases own with long | same
        · refine .inr (.inl ?_)
          change ¬ Short (line (t :: past))
          rw [grown]
          exact not_short_cons long
        · refine .inr (.inr ⟨pid, r.put ch, Console.setReader_self _ _ _, ?_⟩)
          change line (t :: past) = mine pid (t :: past)
          rw [grown, new, same]
  | full inside long =>
      refine ⟨⟨fun other r'' reading' => others (returned rfl reading') reading',
        .inr (.inl (longer inside long))⟩, fun pid' ch' text' turn took => ?_⟩
      cases turn
      cases took
      exact ⟨fun ended => absurd ended inside, fun _ => longer inside long⟩

theorem Lined.step (lined : Lined past c) (run : c.step e = .ok (c', answer))
    (known : ∀ pid, (c.readers pid).isSome → pid ∈ callers past)
    (undivided : Undivided past ⟨c, e, answer, c'⟩) :
    Lined (⟨c, e, answer, c'⟩ :: past) c' ∧ Whole past ⟨c, e, answer, c'⟩ := by
  cases e with
  | keyboardData str =>
      cases run
      refine ⟨lined.quiet ?_ rfl fun _ _ _ => rfl, fun _ _ _ turn _ => by cases turn⟩
      exact Console.keyboardData_readers c str.chars
  | consEcho on =>
      cases run
      exact ⟨lined.quiet rfl rfl fun _ _ _ => rfl, fun _ _ _ turn _ => by cases turn⟩
  | consRead pid length =>
      rw [Console.step] at run
      split at run
      · cases run
      · next idle =>
        split at run
        · cases run
          refine ⟨lined.quiet rfl rfl fun other r reading => if_neg ?_, fun _ _ _ turn _ => by cases turn⟩
          rintro rfl
          rw [idle] at reading
          cases reading
        · cases run
          exact ⟨lined.read idle length .done, fun _ _ _ turn _ => by cases turn⟩
  | turn pid =>
      rw [Console.step] at run
      split at run
      · cases run
      · next r reading =>
        rcases c.turn_eq pid r with ⟨-, waits⟩ | ⟨found, r', text, takes, took⟩
        · rw [waits] at run
          cases run
          exact ⟨lined.quiet rfl rfl fun _ _ _ => rfl, fun _ _ _ _ took => by cases took⟩
        · rw [took] at run
          cases run
          refine lined.turn reading (fun other apart inside => ?_) takes
          have active := Option.isSome_iff_ne_none.mpr inside
          exact undivided other (known other active) (fun same => apart (by cases same; rfl)) found
            active

/-- No call takes a character while another one has part of a line, looks for one with none
left after a whole round of the buffer, or leaves more than 999 waiting. -/
def Served (past : List ConsoleStep) (t : ConsoleStep) : Prop :=
  Undivided past t ∧ Fresh past t ∧ Roomy past t

instance (past : List ConsoleStep) (t : ConsoleStep) : Decidable (Served past t) :=
  inferInstanceAs (Decidable ((∀ other ∈ callers past, _ → _ → _ → _) ∧ _ ∧ _))

end IntelX86Kernel

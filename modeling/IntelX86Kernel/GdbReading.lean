import IntelX86Kernel.GdbPackets

/-! What `getpacket` makes of what comes in over the line. -/

namespace IntelX86Kernel

namespace Buffer

variable {buffer stale : Buffer} {text front rest : List (BitVec 8)} {i : Nat} {ch : BitVec 8}

def filled (buffer : Buffer) (text : List (BitVec 8)) : Buffer where
  chars := (text ++ buffer.chars.drop text.length).take (BUFMAX + 1)
  sized := by
    have sized := buffer.sized
    simp only [List.length_take, List.length_append, List.length_drop]
    omega

theorem filled_chars (short : text.length ≤ BUFMAX + 1) :
    (buffer.filled text).chars = text ++ buffer.chars.drop text.length := by
  have sized := buffer.sized
  apply List.take_of_length_le
  simp only [List.length_append, List.length_drop]
  omega

theorem filled_nil : buffer.filled [] = buffer := by
  apply Buffer.ext
  exact filled_chars (Nat.zero_le _)

theorem filled_snoc (short : text.length ≤ BUFMAX) :
    (buffer.filled text).set text.length ch = buffer.filled (text ++ [ch]) := by
  have sized := buffer.sized
  apply Buffer.ext
  have longer : (text ++ [ch]).length ≤ BUFMAX + 1 := by
    rw [List.length_append]
    exact Nat.succ_le_succ short
  rw [filled_chars longer]
  change (buffer.filled text).chars.set text.length ch = _
  have place : text.length < buffer.chars.length := by omega
  rw [filled_chars (Nat.le_succ_of_le short), List.set_append_right _ _ (Nat.le_refl _),
    Nat.sub_self, List.drop_eq_getElem_cons place, List.set_cons_zero, List.length_append,
    List.length_singleton, List.append_assoc, List.singleton_append]

theorem filled_get (short : text.length ≤ BUFMAX + 1) (inside : i < text.length) :
    (buffer.filled text).get i = text.getD i 0 := by
  rw [get, filled_chars short]
  exact List.getD_append _ _ _ _ inside

def Holds (buffer : Buffer) (text : List (BitVec 8)) : Prop :=
  ∃ stale, buffer.chars = text ++ 0 :: stale

end Buffer

/-- Every `#` is escaped. -/
def Escaped (text : List (BitVec 8)) : Prop :=
  ∀ front rest, text = front ++ chr '#' :: rest → front.getLast? = some 0x7d

/-- Data that fits the buffer and ends where the next `#` comes in. -/
structure Enclosed (text : List (BitVec 8)) : Prop where
  short : text.length < BUFMAX
  escaped : Escaped text
  last : text.getLast? ≠ some 0x7d

variable {buffer : Buffer} {front text rest : List (BitVec 8)} {ch sum : BitVec 8}

theorem ends_iff (buffer : Buffer) (short : front.length ≤ BUFMAX) :
    front.length = 0 ∨ (buffer.filled front).get (front.length - 1) ≠ 0x7d ↔
      front.getLast? ≠ some 0x7d := by
  rcases List.eq_nil_or_concat front with rfl | ⟨before, c, rfl⟩
  · simp
  · have inside : before.length < (before ++ [c]).length := by simp
    have last : (before ++ [c]).length - 1 = before.length := by simp
    rw [List.concat_eq_append] at short ⊢
    rw [last, Buffer.filled_get (Nat.le_succ_of_le short) inside]
    simp

theorem readData_next (short : front.length < BUFMAX)
    (escaped : ch = chr '#' → front.getLast? = some 0x7d)
    {before : BitVec 8} :
    readData before (buffer.filled front) front.length sum (ch :: rest) =
      readData ch (buffer.filled (front ++ [ch])) (front ++ [ch]).length (sum + ch) rest := by
  have goes : ¬ (ch = chr '#' ∧
      (front.length = 0 ∨ (buffer.filled front).get (front.length - 1) ≠ 0x7d)) := by
    rintro ⟨number, ends⟩
    exact (ends_iff buffer (Nat.le_of_lt short)).mp ends (escaped number)
  rw [readData, if_pos short, if_neg goes, Buffer.filled_snoc (Nat.le_of_lt short),
    List.length_append,
    List.length_singleton]

theorem readData_text (short : (front ++ text).length ≤ BUFMAX)
    (escaped : Escaped (front ++ text)) :
    readData ch (buffer.filled front) front.length sum (text ++ rest) =
      readData (text.getLastD ch) (buffer.filled (front ++ text)) (front ++ text).length
        (text.foldl (· + ·) sum) rest := by
  induction text generalizing front ch sum with
  | nil =>
      rw [List.append_nil]
      rfl
  | cons c text ih =>
      have assoc : front ++ c :: text = (front ++ [c]) ++ text := by simp
      have room : front.length < BUFMAX := by
        rw [List.length_append, List.length_cons] at short
        omega
      have next : c = chr '#' → front.getLast? = some 0x7d := by
        intro number
        rw [number] at escaped
        exact escaped front text rfl
      rw [assoc] at short escaped ⊢
      rw [List.cons_append, readData_next room next, ih short escaped, List.getLastD_cons,
        List.foldl_cons]

theorem readData_start (short : text.length ≤ BUFMAX) (escaped : Escaped text) :
    readData ch buffer 0 0 (text ++ rest) =
      readData (text.getLastD ch) (buffer.filled text) text.length (checksumOf text) rest := by
  have start := @readData_text buffer [] text rest ch 0 short escaped
  rwa [Buffer.filled_nil] at start

theorem readData_enclosed (enclosed : Enclosed text) :
    readData ch buffer 0 0 (text ++ chr '#' :: rest) =
      some ⟨chr '#', buffer.filled text, text.length, checksumOf text, rest⟩ := by
  have ends := (ends_iff buffer (Nat.le_of_lt enclosed.short)).mpr enclosed.last
  rw [readData_start (Nat.le_of_lt enclosed.short) enclosed.escaped, readData,
    if_pos enclosed.short, if_pos ⟨rfl, ends⟩]

theorem readData_full (full : text.length = BUFMAX) (escaped : Escaped text) :
    readData ch buffer 0 0 (text ++ rest) =
      some ⟨text.getLastD ch, buffer.filled text, text.length, checksumOf text, rest⟩ := by
  rw [readData_start (Nat.le_of_eq full) escaped]
  unfold readData
  rw [full, if_neg (Nat.lt_irrefl _)]

/-- A packet as it comes in, with its data and with what the two digits of its checksum say. There
are no digits when the data fills the buffer. -/
inductive Arrives : List (BitVec 8) → List (BitVec 8) → Option (BitVec 8) → Prop
  | enclosed {start high low : BitVec 8} {text : List (BitVec 8)}
      (starts : start &&& 0x7f = chr '$') (enclosed : Enclosed text) :
      Arrives (start :: text ++ [chr '#', high, low]) text (some (xmitted high low))
  | brimful {start high low : BitVec 8} {text : List (BitVec 8)}
      (starts : start &&& 0x7f = chr '$') (full : text.length = BUFMAX) (escaped : Escaped text)
      (last : text.getLastD (chr '$') = chr '#') :
      Arrives (start :: text ++ [high, low]) text (some (xmitted high low))
  | overlong {start : BitVec 8} {text : List (BitVec 8)}
      (starts : start &&& 0x7f = chr '$') (full : text.length = BUFMAX) (escaped : Escaped text)
      (last : text.getLastD (chr '$') ≠ chr '#') : Arrives (start :: text) text none

/-- What comes in without a packet that is accepted, and how many packets of it are refused. -/
inductive Rejected : Nat → List (BitVec 8) → Prop
  | nil : Rejected 0 []
  | noise {n : Nat} {c : BitVec 8} {garbage : List (BitVec 8)} (other : c &&& 0x7f ≠ chr '$')
      (later : Rejected n garbage) : Rejected n (c :: garbage)
  | damaged {n : Nat} {packet text garbage : List (BitVec 8)} {digits : Option (BitVec 8)}
      (arrives : Arrives packet text digits) (wrong : checksumOf text ≠ digits.getD (-1))
      (later : Rejected n garbage) : Rejected (digits.toList.length + n) (packet ++ garbage)

variable {sent garbage incoming packet : List (BitVec 8)} {digits : Option (BitVec 8)} {n : Nat}

def arrived (buffer : Buffer) (text : List (BitVec 8)) (digits : Option (BitVec 8))
    (line : SerialLine) :
    Attempt :=
  match digits with
  | some xmitcsum => acknowledge (buffer.filled (text ++ [0])) (checksumOf text) xmitcsum line
  | none => ⟨buffer.filled (text ++ [0]), checksumOf text, -1, line⟩

theorem Arrives.short (arrives : Arrives packet text digits) : text.length ≤ BUFMAX := by
  cases arrives with
  | enclosed starts enclosed => exact Nat.le_of_lt enclosed.short
  | brimful starts full escaped last => exact Nat.le_of_eq full
  | overlong starts full escaped last => exact Nat.le_of_eq full

theorem attempt_noise (other : ch &&& 0x7f ≠ chr '$') :
    attempt buffer ⟨ch :: rest, sent⟩ = attempt buffer ⟨rest, sent⟩ := by
  rw [attempt, attempt, awaitStart, if_neg other]

theorem attempt_start {data : Reading} (starts : ch &&& 0x7f = chr '$')
    (read : readData (chr '$') buffer 0 0 incoming = some data) :
    attempt buffer ⟨ch :: incoming, sent⟩ =
      if data.ch = chr '#' then
        match data.incoming with
        | high :: low :: rest => some (acknowledge (data.buffer.set data.count 0) data.checksum
            (xmitted high low) ⟨rest, sent⟩)
        | _ => none
      else some ⟨data.buffer.set data.count 0, data.checksum, -1, ⟨data.incoming, sent⟩⟩ := by
  rw [attempt, awaitStart, if_pos starts]
  dsimp only [bind, Option.bind]
  rw [read]
  dsimp only
  split
  · cases data.incoming with
    | nil => rfl
    | cons high incoming =>
        cases incoming with
        | nil => rfl
        | cons low rest => rfl
  · rfl

theorem attempt_arrives (arrives : Arrives packet text digits) :
    attempt buffer ⟨packet ++ rest, sent⟩ = some (arrived buffer text digits ⟨rest, sent⟩) := by
  cases arrives with
  | @enclosed start high low text starts enclosed =>
      have line : start :: text ++ [chr '#', high, low] ++ rest =
          start :: (text ++ chr '#' :: high :: low :: rest) := by simp
      rw [line, attempt_start starts (readData_enclosed enclosed), if_pos rfl,
        Buffer.filled_snoc (Nat.le_of_lt enclosed.short)]
      rfl
  | brimful starts full escaped last =>
      rw [List.append_assoc, List.cons_append, attempt_start starts (readData_full full escaped),
        if_pos last, Buffer.filled_snoc (Nat.le_of_eq full)]
      rfl
  | overlong starts full escaped last =>
      rw [List.cons_append, attempt_start starts (readData_full full escaped), if_neg last,
        Buffer.filled_snoc (Nat.le_of_eq full)]
      rfl

theorem getpacket_wrong {line : SerialLine} {a : Attempt} (read : attempt buffer line = some a)
    (wrong : a.checksum ≠ a.xmitcsum) : getpacket buffer line = getpacket a.buffer a.line := by
  rw [getpacket]
  split
  · rename_i none
    rw [read] at none
    cases none
  · rename_i other
    rw [read] at other
    rw [← Option.some.inj other, if_neg wrong]

theorem getpacket_right {line : SerialLine} {a : Attempt} (read : attempt buffer line = some a)
    (right : a.checksum = a.xmitcsum) : getpacket buffer line = some (a.buffer, a.line) := by
  rw [getpacket]
  split
  · rename_i none
    rw [read] at none
    cases none
  · rename_i other
    rw [read] at other
    rw [← Option.some.inj other, if_pos right]

theorem getpacket_noise (other : ch &&& 0x7f ≠ chr '$') :
    getpacket buffer ⟨ch :: rest, sent⟩ = getpacket buffer ⟨rest, sent⟩ := by
  rw [getpacket, getpacket, attempt_noise other]

theorem arrived_wrong (wrong : checksumOf text ≠ digits.getD (-1)) :
    arrived buffer text digits ⟨rest, sent⟩ =
      ⟨buffer.filled (text ++ [0]), checksumOf text, digits.getD (-1),
        ⟨rest, sent ++ List.replicate digits.toList.length (chr '-')⟩⟩ := by
  cases digits with
  | none =>
      rw [arrived, Option.toList_none, List.length_nil, List.replicate_zero, List.append_nil]
      rfl
  | some xmitcsum =>
      rw [Option.getD_some] at wrong
      rw [arrived, acknowledge, if_pos wrong]
      rfl

theorem getpacket_refused (buffer : Buffer) (sent rest : List (BitVec 8))
    (refused : Rejected n garbage) :
    ∃ buffer', getpacket buffer ⟨garbage ++ rest, sent⟩ =
      getpacket buffer' ⟨rest, sent ++ List.replicate n (chr '-')⟩ := by
  induction refused generalizing buffer sent with
  | nil => exact ⟨buffer, by simp⟩
  | noise other later ih =>
      obtain ⟨buffer', same⟩ := ih buffer sent
      exact ⟨buffer', (getpacket_noise other).trans same⟩
  | @damaged n packet text garbage digits arrives wrong later ih =>
      have read := @attempt_arrives buffer text (garbage ++ rest) sent packet digits arrives
      rw [arrived_wrong wrong] at read
      obtain ⟨buffer', same⟩ := ih (buffer.filled (text ++ [0]))
        (sent ++ List.replicate digits.toList.length (chr '-'))
      refine ⟨buffer', ?_⟩
      rw [List.append_assoc, ← List.replicate_add] at same
      rw [List.append_assoc, getpacket_wrong read wrong]
      exact same

def sequenceOf (text : List (BitVec 8)) : List (BitVec 8) :=
  if text[2]? = some (chr ':') then text.take 2 else []

def unsequenced (text : List (BitVec 8)) : List (BitVec 8) :=
  if text[2]? = some (chr ':') then text.drop 3 else text

namespace Buffer

theorem holds_filled (short : text.length ≤ BUFMAX) : (buffer.filled (text ++ [0])).Holds text := by
  have room : (text ++ [0]).length ≤ BUFMAX + 1 := by
    rw [List.length_append]
    exact Nat.succ_le_succ short
  refine ⟨buffer.chars.drop (text ++ [0]).length, ?_⟩
  rw [filled_chars room, List.append_assoc]
  rfl

theorem strlen_le (holds : buffer.Holds text) : buffer.strlen ≤ text.length := by
  obtain ⟨stale, chars⟩ := holds
  rw [strlen, chars]
  clear chars
  induction text with
  | nil => exact Nat.le_refl _
  | cons c text ih =>
      rw [List.cons_append, List.takeWhile_cons]
      split
      · exact Nat.succ_le_succ ih
      · exact Nat.zero_le _

theorem strlen_eq (holds : buffer.Holds text) (noZero : 0 ∉ text) :
    buffer.strlen = text.length := by
  obtain ⟨stale, chars⟩ := holds
  have all : ∀ c ∈ text, decide (c ≠ 0) = true := by
    intro c member
    apply decide_eq_true
    rintro rfl
    exact noZero member
  have ends : (0 :: stale).takeWhile (fun c : BitVec 8 => decide (c ≠ 0)) = [] := rfl
  rw [strlen, chars, List.takeWhile_append_of_pos all, ends, List.append_nil]

theorem dropSequence_from (buffer : Buffer) (place count : Nat)
    (room : place + 3 + count ≤ BUFMAX + 1) :
    (buffer.filled ((buffer.chars.drop 3).take place)).dropSequence (place + 3) count =
      buffer.filled ((buffer.chars.drop 3).take (place + count)) := by
  induction count generalizing place with
  | zero => rfl
  | succ count ih =>
      have sized := buffer.sized
      have length : ((buffer.chars.drop 3).take place).length = place := by
        rw [List.length_take, List.length_drop]
        omega
      have short : ((buffer.chars.drop 3).take place).length ≤ BUFMAX := by omega
      have inside : place + 3 < buffer.chars.length := by omega
      have moved : (buffer.filled ((buffer.chars.drop 3).take place)).get (place + 3) =
          buffer.chars[place + 3] := by
        rw [get, filled_chars (Nat.le_succ_of_le short), List.getD_append_right _ _ _ _ (by omega),
          length]
        simp [List.getD_eq_getElem?_getD, List.getElem?_drop, inside]
      have next : (buffer.chars.drop 3).take (place + 1) =
          (buffer.chars.drop 3).take place ++ [buffer.chars[place + 3]] := by
        rw [List.take_add_one, List.getElem?_drop, Nat.add_comm 3 place,
          List.getElem?_eq_getElem inside]
        rfl
      have step := @filled_snoc buffer _ buffer.chars[place + 3] short
      have later := ih (place + 1) (by omega)
      have total : place + 1 + count = place + (count + 1) := by omega
      rw [length, ← next] at step
      rw [total, Nat.add_right_comm place 1 3] at later
      rw [dropSequence, moved, Nat.add_sub_cancel, step, later]

theorem holds_dropSequence (holds : buffer.Holds text) (long : 3 ≤ text.length)
    (noZero : 0 ∉ text) :
    (buffer.dropSequence 3 (buffer.strlen + 1 - 3)).Holds (text.drop 3) := by
  have length := strlen_eq holds noZero
  obtain ⟨stale, chars⟩ := holds
  have sized := buffer.sized
  have total := congrArg List.length chars
  rw [List.length_append, List.length_cons] at total
  have moved := dropSequence_from buffer 0 (buffer.strlen + 1 - 3) (by omega)
  rw [List.take_zero, filled_nil, Nat.zero_add, Nat.zero_add] at moved
  have text' : (buffer.chars.drop 3).take (buffer.strlen + 1 - 3) = text.drop 3 ++ [0] := by
    have size : (text.drop 3 ++ [0]).length = buffer.strlen + 1 - 3 := by
      rw [List.length_append, List.length_drop, List.length_singleton]
      omega
    rw [chars, List.drop_append_of_le_length long, ← List.singleton_append, ← List.append_assoc]
    exact List.take_left' size
  rw [moved, text']
  apply holds_filled
  rw [List.length_drop]
  omega

def accepted (buffer : Buffer) : Buffer × List (BitVec 8) :=
  if buffer.get 2 = chr ':' then
    (buffer.dropSequence 3 (buffer.strlen + 1 - 3), [buffer.get 0, buffer.get 1])
  else (buffer, [])

theorem acknowledge_accepted {line : SerialLine} {xmitcsum : BitVec 8} (right : sum = xmitcsum) :
    acknowledge buffer sum xmitcsum line =
      ⟨buffer.accepted.1, sum, xmitcsum,
        ⟨line.incoming, line.sent ++ chr '+' :: buffer.accepted.2⟩⟩ := by
  rw [acknowledge, if_neg (not_not.mpr right), accepted]
  dsimp only
  split
  · simp [SerialLine.send]
  · rfl

theorem filled_text (short : text.length ≤ BUFMAX) (inside : i ≤ text.length) :
    (buffer.filled (text ++ [0])).get i = (text ++ [0]).getD i 0 := by
  have length : (text ++ [0]).length = text.length + 1 := by
    rw [List.length_append, List.length_singleton]
  apply filled_get
  · omega
  · omega

/-- The third character decides about the sequence characters, but it may be an older one when the
text is shorter. -/
theorem third (short : text.length ≤ BUFMAX) (long : 2 ≤ text.length) :
    (buffer.filled (text ++ [0])).get 2 = chr ':' ↔ text[2]? = some (chr ':') := by
  rw [filled_text short long]
  match text, long with
  | [a, b], _ =>
      have none : ([a, b] : List (BitVec 8))[2]? = none := rfl
      have zero : ([a, b] ++ [0]).getD 2 0 = (0 : BitVec 8) := rfl
      rw [none, zero]
      decide
  | a :: b :: c :: text, _ => exact Option.some_inj.symm

theorem accepted_holds (short : text.length ≤ BUFMAX)
    (noZero : text[2]? = some (chr ':') → 0 ∉ text) :
    (buffer.filled (text ++ [0])).accepted.1.Holds (unsequenced text) := by
  have holds : (buffer.filled (text ++ [0])).Holds text := holds_filled short
  rw [accepted, unsequenced]
  by_cases long : 2 ≤ text.length
  · by_cases sequenced : text[2]? = some (chr ':')
    · have three : 3 ≤ text.length := (List.getElem?_eq_some_iff.mp sequenced).1
      rw [if_pos ((third short long).mpr sequenced), if_pos sequenced]
      exact holds_dropSequence holds three (noZero sequenced)
    · rw [if_neg fun found => sequenced ((third short long).mp found), if_neg sequenced]
      exact holds
  · have none : text[2]? = none := List.getElem?_eq_none (by omega)
    have strlen := strlen_le holds
    have nothing : (buffer.filled (text ++ [0])).strlen + 1 - 3 = 0 := by omega
    have other : ¬ text[2]? = some (chr ':') := by
      rw [none]
      exact (Option.some_ne_none _).symm
    rw [if_neg other, nothing]
    split
    · exact holds
    · exact holds

theorem accepted_echo (short : text.length ≤ BUFMAX) (long : 2 ≤ text.length) :
    (buffer.filled (text ++ [0])).accepted.2 = sequenceOf text := by
  rw [accepted, sequenceOf]
  by_cases sequenced : text[2]? = some (chr ':')
  · rw [if_pos ((third short long).mpr sequenced), if_pos sequenced,
      filled_text short (Nat.zero_le _), filled_text short (Nat.le_of_succ_le long)]
    match text, long with
    | a :: b :: text, _ => rfl
  · rw [if_neg fun found => sequenced ((third short long).mp found), if_neg sequenced]

end Buffer

def answer (digits : Option (BitVec 8)) (echo : List (BitVec 8)) : List (BitVec 8) :=
  if digits.isSome then chr '+' :: echo else []

/-- The packet that is accepted, behind what is refused. -/
structure Accepts (incoming : List (BitVec 8)) (n : Nat) (text : List (BitVec 8))
    (digits : Option (BitVec 8)) (rest : List (BitVec 8)) : Prop where
  right : checksumOf text = digits.getD (-1)
  splits : ∃ garbage packet, Rejected n garbage ∧ Arrives packet text digits ∧
    incoming = garbage ++ (packet ++ rest)

theorem Escaped.of_none (none : chr '#' ∉ text) : Escaped text := by
  rintro front rest rfl
  exact absurd (List.mem_append_right front List.mem_cons_self) none

theorem accepts_frame (refused : Rejected n garbage) (enclosed : Enclosed text) :
    Accepts (garbage ++ (frame text ++ rest)) n text (some (checksumOf text)) rest := by
  refine ⟨rfl, garbage, frame text, refused, ?_, rfl⟩
  have arrives := @Arrives.enclosed (chr '$') (hexchar (checksumOf text >>> 4))
    (hexchar (checksumOf text % 16)) text (by decide) enclosed
  rwa [xmitted_hexchar] at arrives

theorem arrived_right (right : checksumOf text = digits.getD (-1)) :
    arrived buffer text digits ⟨rest, sent⟩ =
      ⟨if digits.isSome then (buffer.filled (text ++ [0])).accepted.1
        else buffer.filled (text ++ [0]), checksumOf text, digits.getD (-1),
        ⟨rest, sent ++ answer digits (buffer.filled (text ++ [0])).accepted.2⟩⟩ := by
  cases digits with
  | none =>
      have nothing : sent ++ [] = sent := List.append_nil sent
      simp only [arrived, answer, Option.isSome_none, Bool.false_eq_true, if_false, nothing]
      rfl
  | some xmitcsum =>
      rw [Option.getD_some] at right
      rw [arrived, Buffer.acknowledge_accepted right]
      rfl

theorem getpacket_accepts (buffer : Buffer) (sent : List (BitVec 8))
    (accepts : Accepts incoming n text digits rest) :
    ∃ older : Buffer, getpacket buffer ⟨incoming, sent⟩ =
      some (if digits.isSome then (older.filled (text ++ [0])).accepted.1
          else older.filled (text ++ [0]),
        ⟨rest, sent ++ List.replicate n (chr '-') ++
          answer digits (older.filled (text ++ [0])).accepted.2⟩) := by
  obtain ⟨garbage, packet, refused, arrives, splits⟩ := accepts.splits
  obtain ⟨older, skipped⟩ := getpacket_refused buffer sent (packet ++ rest) refused
  have read := @attempt_arrives older text rest (sent ++ List.replicate n (chr '-')) packet digits
    arrives
  rw [arrived_right accepts.right] at read
  refine ⟨older, ?_⟩
  rw [splits, skipped, getpacket_right read accepts.right]

theorem Escaped.snoc (escaped : Escaped front) (next : ch = chr '#' → front.getLast? = some 0x7d) :
    Escaped (front ++ [ch]) := by
  intro before rest same
  rcases List.eq_nil_or_concat rest with rfl | ⟨rest, c, rfl⟩
  · obtain ⟨rfl, last⟩ := List.append_inj' same rfl
    exact next (List.cons.inj last).1
  · rw [List.concat_eq_append, ← List.cons_append, ← List.append_assoc] at same
    exact escaped before rest (List.append_inj' same rfl).1

structure Runaway (buffer : Buffer) (front incoming : List (BitVec 8)) (ch sum : BitVec 8)
    (data : Reading) (text : List (BitVec 8)) : Prop where
  buffer : data.buffer = buffer.filled (front ++ text)
  count : data.count = (front ++ text).length
  checksum : data.checksum = text.foldl (· + ·) sum
  ends : incoming = text ++ chr '#' :: data.incoming ∧ data.ch = chr '#' ∧
      Enclosed (front ++ text) ∨
    incoming = text ++ data.incoming ∧ data.ch = text.getLastD ch ∧
      (front ++ text).length = BUFMAX ∧ Escaped (front ++ text)

variable {data : Reading}

theorem readData_stops (full : front.length = BUFMAX) (escaped : Escaped front)
    (read : readData ch (buffer.filled front) front.length sum incoming = some data) :
    Runaway buffer front incoming ch sum data [] := by
  unfold readData at read
  rw [full, if_neg (Nat.lt_irrefl _)] at read
  rw [← Option.some.inj read]
  refine ⟨?_, ?_, rfl, .inr ⟨rfl, rfl, ?_, ?_⟩⟩
  · rw [List.append_nil]
  · rw [List.append_nil, full]
  · rw [List.append_nil, full]
  · rw [List.append_nil]
    exact escaped

theorem readData_gone (short : front.length ≤ BUFMAX) (escaped : Escaped front)
    (read : readData ch (buffer.filled front) front.length sum incoming = some data) :
    ∃ text, Runaway buffer front incoming ch sum data text := by
  induction incoming generalizing front ch sum with
  | nil =>
      rcases Nat.lt_or_eq_of_le short with room | full
      · rw [readData, if_pos room] at read
        cases read
      · exact ⟨[], readData_stops full escaped read⟩
  | cons c incoming ih =>
      rcases Nat.lt_or_eq_of_le short with room | full
      · by_cases ends : c = chr '#' ∧
            (front.length = 0 ∨ (buffer.filled front).get (front.length - 1) ≠ 0x7d)
        · rw [readData, if_pos room, if_pos ends] at read
          rw [← Option.some.inj read]
          have last := (ends_iff buffer short).mp ends.2
          refine ⟨[], ?_, ?_, rfl, .inl ⟨?_, ends.1, ?_⟩⟩
          · rw [List.append_nil]
          · rw [List.append_nil]
          · rw [ends.1]
            rfl
          · rw [List.append_nil]
            exact ⟨room, escaped, last⟩
        · have next : c = chr '#' → front.getLast? = some 0x7d := by
            intro number
            by_contra other
            exact ends ⟨number, (ends_iff buffer short).mpr other⟩
          rw [readData_next room next] at read
          have longer : (front ++ [c]).length ≤ BUFMAX := by
            rw [List.length_append]
            exact room
          obtain ⟨text, gone⟩ := ih longer (escaped.snoc next) read
          have assoc : front ++ [c] ++ text = front ++ c :: text := by simp
          refine ⟨c :: text, ?_, ?_, gone.checksum, ?_⟩
          · rw [gone.buffer, assoc]
          · rw [gone.count, assoc]
          · rcases gone.ends with ⟨line, number, enclosed⟩ | ⟨line, last, full, escaped⟩
            · rw [assoc] at enclosed
              exact .inl ⟨congrArg (c :: ·) line, number, enclosed⟩
            · rw [assoc] at full escaped
              refine .inr ⟨congrArg (c :: ·) line, ?_, full, escaped⟩
              rw [last, List.getLastD_cons]
      · exact ⟨[], readData_stops full escaped read⟩

variable {a : Attempt}

theorem Runaway.stored (gone : Runaway buffer [] incoming ch sum data text) :
    data.buffer.set data.count 0 = buffer.filled (text ++ [0]) := by
  have short : text.length ≤ BUFMAX := by
    rcases gone.ends with ⟨-, -, enclosed⟩ | ⟨-, -, full, -⟩
    · exact Nat.le_of_lt enclosed.short
    · exact Nat.le_of_eq full
  rw [gone.buffer, gone.count]
  exact Buffer.filled_snoc short

theorem two_digits {f : BitVec 8 → BitVec 8 → List (BitVec 8) → Attempt}
    (read : (match incoming with
      | high :: low :: rest => some (f high low rest)
      | _ => none) = some a) :
    ∃ high low rest, incoming = high :: low :: rest ∧ a = f high low rest := by
  split at read
  · exact ⟨_, _, _, rfl, (Option.some.inj read).symm⟩
  · cases read

theorem attempt_gone (read : attempt buffer ⟨incoming, sent⟩ = some a) :
    ∃ noise packet text digits rest, (∀ c ∈ noise, c &&& 0x7f ≠ chr '$') ∧
      Arrives packet text digits ∧ incoming = noise ++ (packet ++ rest) ∧
      a = arrived buffer text digits ⟨rest, sent⟩ := by
  induction incoming with
  | nil => cases read
  | cons c incoming ih =>
      by_cases starts : c &&& 0x7f = chr '$'
      · cases got : readData (chr '$') buffer 0 0 incoming with
        | none =>
            rw [attempt, awaitStart, if_pos starts] at read
            dsimp only [bind, Option.bind] at read
            rw [got] at read
            cases read
        | some data =>
            have escaped : Escaped [] := by
              intro front rest same
              have length := congrArg List.length same
              simp at length
            rw [attempt_start starts got] at read
            rw [← @Buffer.filled_nil buffer] at got
            have short : ([] : List (BitVec 8)).length ≤ BUFMAX := Nat.zero_le BUFMAX
            obtain ⟨text, gone⟩ := readData_gone short escaped got
            rw [gone.stored] at read
            rcases gone.ends with ⟨line, number, enclosed⟩ | ⟨line, last, full, escaped⟩
            · rw [if_pos number] at read
              obtain ⟨high, low, rest, digits, same⟩ := two_digits read
              refine ⟨[], c :: text ++ [chr '#', high, low], text, some (xmitted high low), rest,
                fun d member => absurd member List.not_mem_nil, .enclosed starts enclosed, ?_, ?_⟩
              · rw [line, digits]
                simp
              · rw [same, gone.checksum]
                rfl
            · by_cases number : data.ch = chr '#'
              · rw [if_pos number] at read
                obtain ⟨high, low, rest, digits, same⟩ := two_digits read
                rw [last] at number
                refine ⟨[], c :: text ++ [high, low], text, some (xmitted high low), rest,
                  fun d member => absurd member List.not_mem_nil,
                  .brimful starts full escaped number, ?_, ?_⟩
                · rw [line, digits]
                  simp
                · rw [same, gone.checksum]
                  rfl
              · rw [if_neg number] at read
                rw [last] at number
                refine ⟨[], c :: text, text, none, data.incoming,
                  fun d member => absurd member List.not_mem_nil,
                  .overlong starts full escaped number, ?_, ?_⟩
                · rw [line]
                  simp
                · rw [← Option.some.inj read, gone.checksum]
                  rfl
      · rw [attempt_noise starts] at read
        obtain ⟨noise, packet, text, digits, rest, other, arrives, line, same⟩ := ih read
        refine ⟨c :: noise, packet, text, digits, rest, ?_, arrives, congrArg (c :: ·) line, same⟩
        intro d member
        rcases List.mem_cons.mp member with rfl | later
        · exact starts
        · exact other d later

theorem Rejected.quiet {noise : List (BitVec 8)} (other : ∀ c ∈ noise, c &&& 0x7f ≠ chr '$')
    (refused : Rejected n garbage) : Rejected n (noise ++ garbage) := by
  induction noise with
  | nil => exact refused
  | cons c noise ih =>
      have later := ih fun d member => other d (List.mem_cons_of_mem c member)
      exact .noise (other c List.mem_cons_self) later

theorem Arrives.nonempty (arrives : Arrives packet text digits) : 0 < packet.length := by
  cases arrives <;> simp

/-- Whatever comes in, what `getpacket` returns with is a packet with the right checksum. -/
theorem getpacket_found {buffer' : Buffer} {line : SerialLine}
    (read : getpacket buffer ⟨incoming, sent⟩ = some (buffer', line)) :
    ∃ n text digits, Accepts incoming n text digits line.incoming := by
  induction size : incoming.length using Nat.strong_induction_on
    generalizing incoming buffer sent with
  | _ k ih =>
      cases got : attempt buffer ⟨incoming, sent⟩ with
      | none =>
          rw [getpacket] at read
          split at read
          · cases read
          · rename_i other
            rw [got] at other
            cases other
      | some a =>
          obtain ⟨noise, packet, text, digits, rest, other, arrives, incomingSplits, same⟩ :=
            attempt_gone got
          rw [same] at got
          by_cases right : checksumOf text = digits.getD (-1)
          · rw [arrived_right right] at got
            rw [getpacket_right got right] at read
            have line := congrArg SerialLine.incoming (Prod.mk.inj (Option.some.inj read)).2
            refine ⟨0, text, digits, right, noise, packet, ?_, arrives, ?_⟩
            · have quiet := Rejected.nil.quiet other
              rwa [List.append_nil] at quiet
            · rw [incomingSplits, ← line]
          · rw [arrived_wrong right] at got
            rw [getpacket_wrong got right] at read
            have shorter : rest.length < k := by
              have nonempty := arrives.nonempty
              rw [← size, incomingSplits, List.length_append, List.length_append]
              omega
            obtain ⟨n, text', digits', accepts⟩ := ih rest.length shorter read rfl
            obtain ⟨garbage, packet', refused, arrives', splits⟩ := accepts.splits
            refine ⟨digits.toList.length + n, text', digits', accepts.right,
              noise ++ (packet ++ garbage), packet',
              (refused.damaged arrives right).quiet other, arrives', ?_⟩
            rw [incomingSplits, splits]
            simp only [List.append_assoc]

def contents (text : List (BitVec 8)) (digits : Option (BitVec 8)) : List (BitVec 8) :=
  if digits.isSome then unsequenced text else text

theorem accepted_contents {older : Buffer} (short : text.length ≤ BUFMAX)
    (noZero : text[2]? = some (chr ':') → 0 ∉ text) :
    (if digits.isSome then (older.filled (text ++ [0])).accepted.1
      else older.filled (text ++ [0])).Holds (contents text digits) := by
  rw [contents]
  split
  · exact Buffer.accepted_holds short noZero
  · exact Buffer.holds_filled short

theorem Accepts.short (accepts : Accepts incoming n text digits rest) : text.length ≤ BUFMAX := by
  obtain ⟨garbage, packet, refused, arrives, splits⟩ := accepts.splits
  exact arrives.short

/-- `getpacket` returns exactly when a packet with the right checksum has come in. It has answered
each packet before that with `-`, if it had digits, and it leaves on the line what comes behind. -/
theorem getpacket_reads (buffer : Buffer) (incoming sent rest : List (BitVec 8)) :
    ((∃ buffer' sent', getpacket buffer ⟨incoming, sent⟩ = some (buffer', ⟨rest, sent'⟩)) ↔
      ∃ n text digits, Accepts incoming n text digits rest) ∧
    ∀ n text digits, Accepts incoming n text digits rest →
      ∃ buffer' echo, getpacket buffer ⟨incoming, sent⟩ =
          some (buffer', ⟨rest, sent ++ List.replicate n (chr '-') ++ answer digits echo⟩) ∧
        ((text[2]? = some (chr ':') → 0 ∉ text) → buffer'.Holds (contents text digits)) ∧
        (2 ≤ text.length → echo = sequenceOf text) := by
  refine ⟨⟨?_, ?_⟩, ?_⟩
  · rintro ⟨buffer', sent', read⟩
    exact getpacket_found read
  · rintro ⟨n, text, digits, accepts⟩
    obtain ⟨older, read⟩ := getpacket_accepts buffer sent accepts
    exact ⟨_, _, read⟩
  · intro n text digits accepts
    obtain ⟨older, read⟩ := getpacket_accepts buffer sent accepts
    exact ⟨_, _, read, accepted_contents accepts.short, Buffer.accepted_echo accepts.short⟩

end IntelX86Kernel

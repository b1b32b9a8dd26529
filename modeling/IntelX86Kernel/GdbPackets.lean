import IntelX86Kernel.GdbWire

/-! What the packets say that `putfrags` sends, and what `getpacket` makes of the packets and of
everything else that comes in. -/

namespace IntelX86Kernel

open X86 (Word)
open RunLength (Coding)

/-- How gdb reads the data of a packet: the character behind a star is 28 more than the length
of the run. -/
def packetCoding : Coding (BitVec 8) where
  mark := chr '*'
  count n := n.toNat - 28
  Symbol c := c ≠ chr '*' ∧ c ≠ chr '#'
  Count n := n ≠ chr '#'
  noMark symbol := symbol.1 rfl

def hexPair (c : BitVec 8) : List (BitVec 8) := [hexchar (c >>> 4), hexchar (c &&& 0xf)]

def textOf (hexify : Bool) (bytes : List (BitVec 8)) : List (BitVec 8) :=
  if hexify then bytes.flatMap hexPair else bytes

/-- Bytes that mean themselves, and whose runs have other counts than the `#` that stands for
seven. -/
structure Plain (bytes : List (BitVec 8)) : Prop where
  symbols : ∀ c ∈ bytes, packetCoding.Symbol c
  runs : ∀ c, ¬ List.replicate 7 c <:+: bytes

def Legible (hexify : Bool) (bytes : List (BitVec 8)) : Prop := hexify = true ∨ Plain bytes

variable {hexify : Bool} {c : BitVec 8} {bytes front rest : List (BitVec 8)}
  {frags : List Outfrag}

theorem Legible.suffix (legible : Legible hexify bytes) (suffix : rest <:+ bytes) :
    Legible hexify rest := by
  rcases legible with hexified | plain
  · exact .inl hexified
  · refine .inr ⟨fun c member => plain.symbols c (suffix.subset member), fun c run => ?_⟩
    exact plain.runs c (run.trans suffix.isInfix)

theorem textOf_append :
    textOf hexify (front ++ rest) = textOf hexify front ++ textOf hexify rest := by
  cases hexify with
  | true => exact List.flatMap_append
  | false => rfl

theorem hexchar_symbol (nibble : BitVec 8) (small : nibble.toNat < 16) :
    packetCoding.Symbol (hexchar nibble) := by
  have table : ∀ n < 16, hexchars.getD n 0 ≠ chr '*' ∧ hexchars.getD n 0 ≠ chr '#' := by decide
  exact table nibble.toNat small

theorem high_nibble (c : BitVec 8) : (c >>> 4).toNat < 16 := by
  rw [BitVec.toNat_ushiftRight, Nat.shiftRight_eq_div_pow]
  have bound := c.isLt
  omega

theorem low_nibble (c : BitVec 8) : (c &&& 0xf).toNat < 16 := by
  have mask : ((0xf : BitVec 8)).toNat = 2 ^ 4 - 1 := rfl
  rw [BitVec.toNat_and, mask, Nat.and_two_pow_sub_one_eq_mod]
  exact Nat.mod_lt _ (by decide)

theorem front_of_three (first : rest[0]? = some c) (second : rest[1]? = some c)
    (third : rest[2]? = some c) : rest = c :: c :: c :: rest.drop 3 := by
  have split (n : Nat) (here : rest[n]? = some c) : rest.drop n = c :: rest.drop (n + 1) := by
    obtain ⟨inside, read⟩ := List.getElem?_eq_some_iff.mp here
    rw [List.drop_eq_getElem_cons inside, read]
  calc rest = rest.drop 0 := rfl
    _ = c :: c :: c :: rest.drop 3 := by rw [split 0 first, split 1 second, split 2 third]

theorem run_splits (begins : runBegins hexify c rest = true) :
    c :: rest = List.replicate (runLength hexify c rest) c ++
        rest.drop (runLength hexify c rest - 1) ∧
      (if hexify then 2 else 4) ≤ runLength hexify c rest ∧
      runLength hexify c rest ≤ if hexify then 49 else 98 := by
  rw [runBegins, Bool.and_eq_true, decide_eq_true_eq] at begins
  obtain ⟨first, begins⟩ := begins
  rw [runLength]
  cases hexify with
  | true =>
      simp only [if_true]
      have places := RunLength.leading_le (c := c) (98 / 2 - 2) (rest.drop 1)
      have run := RunLength.leading_drop (c := c) (98 / 2 - 2) (rest.drop 1)
      generalize RunLength.leading c (98 / 2 - 2) (rest.drop 1) = more at places run ⊢
      have text : rest = c :: rest.drop 1 := by
        cases rest with
        | nil => cases first
        | cons d rest => rw [← Option.some.inj first]; rfl
      refine ⟨?_, Nat.le_add_right .., by omega⟩
      have place : 2 + more - 1 = 1 + more := by omega
      rw [List.replicate_add, List.append_assoc, place, ← List.drop_drop, run]
      exact congrArg (c :: ·) text
  | false =>
      simp only [Bool.false_eq_true, if_false, Bool.and_eq_true, decide_eq_true_eq] at begins ⊢
      have places := RunLength.leading_le (c := c) (98 - 4) (rest.drop 3)
      have run := RunLength.leading_drop (c := c) (98 - 4) (rest.drop 3)
      generalize RunLength.leading c (98 - 4) (rest.drop 3) = more at places run ⊢
      have text : rest = c :: c :: c :: rest.drop 3 := by
        obtain ⟨second, third⟩ := begins
        exact front_of_three first second third
      refine ⟨?_, Nat.le_add_right .., by omega⟩
      have place : 4 + more - 1 = 3 + more := by omega
      rw [List.replicate_add, List.append_assoc, place, ← List.drop_drop, run]
      exact congrArg (c :: ·) text

theorem count_of_run {rl : Nat} (positive : 0 < rl) (small : rl ≤ 98) :
    packetCoding.count (.ofNat 8 (29 + rl - 1)) = rl := by
  have value : (BitVec.ofNat 8 (29 + rl - 1)).toNat = 29 + rl - 1 := by
    rw [BitVec.toNat_ofNat]
    omega
  change (BitVec.ofNat 8 (29 + rl - 1)).toNat - 28 = rl
  omega

theorem run_countable {rl : Nat} (small : rl ≤ 98) (other : rl ≠ 7) :
    packetCoding.Count (.ofNat 8 (29 + rl - 1)) := by
  intro same
  have value := congrArg BitVec.toNat same
  rw [BitVec.toNat_ofNat] at value
  change (29 + rl - 1) % 256 = 35 at value
  omega

theorem textOf_run {n : Nat} (begins : runBegins hexify c rest = true) :
    textOf hexify (List.replicate n c) =
      List.replicate (if hexify then n * 2 else n) (if hexify then hexchar (c &&& 0xf) else c) := by
  rw [runBegins, Bool.and_eq_true] at begins
  cases hexify with
  | true =>
      have nibbles : c >>> 4 = c &&& 0xf := of_decide_eq_true begins.2
      have pair : hexPair c = List.replicate 2 (hexchar (c &&& 0xf)) := by
        rw [hexPair, nibbles]
        rfl
      change (List.replicate n c).flatMap hexPair = _
      rw [List.flatMap_replicate, pair, List.flatten_replicate_replicate]
      rfl
  | false => rfl

def runSize (hexify : Bool) (c : BitVec 8) (rest : List (BitVec 8)) : Nat :=
  if hexify then runLength hexify c rest * 2 else runLength hexify c rest

theorem runSize_bounds (begins : runBegins hexify c rest = true) :
    0 < runSize hexify c rest ∧ runSize hexify c rest ≤ 98 := by
  obtain ⟨-, least, most⟩ := run_splits begins
  rw [runSize]
  cases hexify with
  | true =>
      rw [if_pos rfl] at least most ⊢
      omega
  | false =>
      rw [if_neg Bool.false_ne_true] at least most ⊢
      omega

theorem runSize_count (begins : runBegins hexify c rest = true)
    (legible : Legible hexify (c :: rest)) :
    packetCoding.Count (.ofNat 8 (29 + runSize hexify c rest - 1)) := by
  apply run_countable (runSize_bounds begins).2
  intro seven
  rw [runSize] at seven
  rcases legible with hexified | plain
  · rw [if_pos hexified] at seven
    omega
  · obtain ⟨splits, -, -⟩ := run_splits begins
    cases hexify with
    | true =>
        rw [if_pos rfl] at seven
        omega
    | false =>
        rw [if_neg Bool.false_ne_true] at seven
        rw [seven] at splits
        apply plain.runs c
        rw [splits]
        exact (List.prefix_append _ _).isInfix

theorem sendBytes_spells (legible : Legible hexify bytes) :
    packetCoding.Spells (sendBytes hexify bytes) (textOf hexify bytes) := by
  fun_induction sendBytes hexify bytes with
  | case1 =>
      cases hexify with
      | true => exact .nil
      | false => exact .nil
  | case2 c rest begins n rl ih =>
      obtain ⟨splits, -, -⟩ := run_splits begins
      obtain ⟨positive, small⟩ := runSize_bounds begins
      have behind := ih (legible.suffix ((List.drop_suffix _ _).trans (List.suffix_cons _ _)))
      have symbol : packetCoding.Symbol (if hexify then hexchar (c &&& 0xf) else c) := by
        split
        · exact hexchar_symbol _ (low_nibble c)
        · rename_i plain
          rcases legible with hexified | bytes
          · exact absurd hexified plain
          · exact bytes.symbols c List.mem_cons_self
      have run := Coding.Spells.run symbol (runSize_count begins legible) behind
      rw [count_of_run positive small] at run
      rw [splits, textOf_append, textOf_run begins]
      exact run
  | case3 c rest other hexified ih =>
      have behind := ih (.inl hexified)
      rw [textOf, if_pos hexified] at behind ⊢
      exact .once (hexchar_symbol _ (high_nibble c)) (.once (hexchar_symbol _ (low_nibble c)) behind)
  | case4 c rest other plain ih =>
      rcases legible with hexified | bytes
      · exact absurd hexified plain
      · have behind := ih (Legible.suffix (.inr bytes) (List.suffix_cons _ _))
        rw [textOf, if_neg plain] at behind ⊢
        exact .once (bytes.symbols c List.mem_cons_self) behind

def message (frags : List Outfrag) : List (BitVec 8) :=
  frags.flatMap fun f => textOf f.hexify f.bytes

theorem body_spells (legible : ∀ f ∈ frags, Legible f.hexify f.bytes) :
    packetCoding.Spells (body frags) (message frags) := by
  induction frags with
  | nil => exact .nil
  | cons f frags ih =>
      have first := sendBytes_spells (legible f List.mem_cons_self)
      have later := ih fun g member => legible g (List.mem_cons_of_mem f member)
      rw [body, message, List.flatMap_cons, List.flatMap_cons]
      exact first.append later

def xmitted (high low : BitVec 8) : BitVec 8 := (hex high <<< 4).setWidth 8 + (hex low).setWidth 8

theorem xmitted_hexchar (sum : BitVec 8) :
    xmitted (hexchar (sum >>> 4)) (hexchar (sum % 16)) = sum := by
  have table : ∀ n < 256, xmitted (hexchar (BitVec.ofNat 8 n >>> 4))
      (hexchar (BitVec.ofNat 8 n % 16)) = BitVec.ofNat 8 n := by decide +kernel
  have all := table sum.toNat sum.isLt
  rwa [BitVec.ofNat_toNat, BitVec.setWidth_eq] at all

theorem resend_refused {packet sent nacks : List (BitVec 8)} {ack : BitVec 8}
    (refused : ∀ c ∈ nacks, c &&& 0x7f ≠ chr '+') (taken : ack &&& 0x7f = chr '+') :
    resend packet sent (nacks ++ ack :: rest) =
      some ⟨rest, sent ++ (List.replicate (nacks.length + 1) packet).flatten⟩ := by
  induction nacks generalizing sent with
  | nil =>
      rw [List.nil_append, resend, if_pos taken]
      simp
  | cons c nacks ih =>
      have first := refused c List.mem_cons_self
      have later : ∀ d ∈ nacks, d &&& 0x7f ≠ chr '+' := fun d member =>
        refused d (List.mem_cons_of_mem c member)
      rw [List.cons_append, resend, if_neg first, ih later, List.length_cons, List.append_assoc,
        List.replicate_succ (n := nacks.length + 1), List.flatten_cons]

theorem body_legible (legible : ∀ f ∈ frags, Legible f.hexify f.bytes) :
    chr '#' ∉ body frags ∧ packetCoding.expand (body frags) = message frags := by
  have spells := body_spells legible
  refine ⟨?_, spells.expand⟩
  intro member
  rcases spells.written member with symbol | star | count
  · exact symbol.2 rfl
  · exact absurd star (by decide)
  · exact count rfl

/-- A packet is sent once more for each character that does not acknowledge it. Its data has no
`#` in it, gdb expands it to what the parts say, and the digits behind it are those of the sum. -/
theorem putfrags_message {sent nacks : List (BitVec 8)} {ack : BitVec 8}
    (legible : ∀ f ∈ frags, Legible f.hexify f.bytes)
    (refused : ∀ c ∈ nacks, c &&& 0x7f ≠ chr '+') (taken : ack &&& 0x7f = chr '+') :
    ∃ data high low, putfrags frags ⟨nacks ++ ack :: rest, sent⟩ =
        some ⟨rest, sent ++ (List.replicate (nacks.length + 1)
          (chr '$' :: data ++ [chr '#', high, low])).flatten⟩ ∧
      chr '#' ∉ data ∧ packetCoding.expand data = message frags ∧
      xmitted high low = checksumOf data := by
  obtain ⟨number, expands⟩ := body_legible legible
  exact ⟨body frags, _, _, resend_refused refused taken, number, expands, xmitted_hexchar _⟩

theorem plain_short (short : bytes.length < 7) (symbols : ∀ c ∈ bytes, packetCoding.Symbol c) :
    Plain bytes := by
  refine ⟨symbols, fun c run => ?_⟩
  have length := run.length_le
  rw [List.length_replicate] at length
  omega

/-- The report of a signal, which is refused once. -/
theorem putfrags_message_signal : ∃ data high low,
    putfrags [⟨[chr 'S', 0], 0, false⟩, ⟨[5], 1, true⟩] ⟨[chr '-'] ++ chr '+' :: [], []⟩ =
        some ⟨[], [] ++ (List.replicate ([chr '-'].length + 1)
          (chr '$' :: data ++ [chr '#', high, low])).flatten⟩ ∧
      chr '#' ∉ data ∧
      packetCoding.expand data = message [⟨[chr 'S', 0], 0, false⟩, ⟨[5], 1, true⟩] ∧
      xmitted high low = checksumOf data := by
  apply putfrags_message
  · intro f member
    rcases List.mem_cons.mp member with rfl | member
    · apply Or.inr
      have text : (⟨[chr 'S', 0], 0, false⟩ : Outfrag).bytes = [chr 'S'] := by decide
      rw [text]
      apply plain_short (by decide)
      intro c single
      rw [List.mem_singleton.mp single]
      exact ⟨by decide, by decide⟩
    · rw [List.mem_singleton.mp member]
      exact .inl rfl
  · decide
  · decide

end IntelX86Kernel

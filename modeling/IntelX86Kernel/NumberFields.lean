import IntelX86Kernel.Doprnt

/-! What the number conversions of `_doprnt` print, and how shared/strtol.c and shared/strtoul.c
read it back. -/

namespace IntelX86Kernel

open X86 (Word)
open Positional (numeral value)

def Radix (base : Word) : Prop := 2 ≤ base.toNat ∧ base.toNat ≤ 16

instance radixDecidable (base : Word) : Decidable (Radix base) := inferInstanceAs (Decidable (_ ∧ _))

def written (base u : Word) : List (BitVec 8) :=
  (numeral base.toNat u.toNat).map fun digit => digs.getD digit 0

variable {base u : Word} {d : Directive}

theorem digitLoop_written {room : Nat} {buf : List (BitVec 8)} (radix : Radix base)
    (positive : 0 < room) (small : u.toNat < 2 ^ room) :
    digitLoop base room u buf = .ok (written base u ++ buf) := by
  obtain ⟨two, sixteen⟩ := radix
  have nonzero : base ≠ 0 := by
    intro zero
    rw [zero] at two
    exact absurd two (by decide)
  induction room generalizing u buf with
  | zero => omega
  | succ room ih =>
      have remainder : (u % base).toNat = u.toNat % base.toNat := BitVec.toNat_umod
      have quotient : (u / base).toNat = u.toNat / base.toNat := BitVec.toNat_udiv
      have digit : (u % base).toNat < 16 := by
        rw [remainder]
        exact Nat.lt_of_lt_of_le (Nat.mod_lt _ (by omega)) sixteen
      have table : ¬ digs.length ≤ (u % base).toNat := by
        have length : digs.length = 17 := by decide
        omega
      rw [digitLoop, if_neg nonzero, if_neg table]
      by_cases last : u / base = 0
      · have least : u.toNat < base.toNat := by
          rw [last] at quotient
          exact (Nat.div_eq_zero_iff_lt (by omega)).mp quotient.symm
        rw [if_neg (not_not.mpr last), written, Positional.numeral_of_lt least, remainder,
          Nat.mod_eq_of_lt least]
        rfl
      · have more : base.toNat ≤ u.toNat := by
          apply Nat.le_of_not_lt
          intro least
          apply last
          apply BitVec.eq_of_toNat_eq
          rw [quotient, Nat.div_eq_of_lt least]
          rfl
        have room_positive : 0 < room := by
          apply Nat.pos_of_ne_zero
          intro zero
          rw [zero] at small
          omega
        have less : (u / base).toNat < 2 ^ room := by
          rw [quotient]
          apply Nat.div_lt_of_lt_mul
          calc
            u.toNat < 2 ^ room * 2 := by rwa [← Nat.pow_succ]
            _ ≤ 2 ^ room * base.toNat := Nat.mul_le_mul_left _ two
            _ = base.toNat * 2 ^ room := Nat.mul_comm _ _
        rw [if_pos last, ih room_positive less, written, written,
          Positional.numeral_of_le (by omega) more, quotient, remainder, List.map_append,
          List.append_assoc]
        rfl

theorem digitLoop_maxbuf (radix : Radix base) :
    digitLoop base MAXBUF u [] = .ok (written base u) := by
  have room : u.toNat < 2 ^ MAXBUF := u.isLt
  rw [digitLoop_written radix (by decide) room, List.append_nil]

theorem printnum_written (radix : Radix base) : printnum u base = .ok (written base u) :=
  digitLoop_maxbuf radix

def Directive.alternate (d : Directive) (base u : Word) : List (BitVec 8) :=
  if u ≠ 0 ∧ d.altfmt then
    if base = 8 then [chr '0'] else if base = 16 then [chr '0', chr 'x'] else []
  else []

def signOf (signChar : BitVec 8) : List (BitVec 8) := if signChar ≠ 0 then [signChar] else []

structure Directive.Parsed (d : Directive) : Prop where
  padc : d.padc = chr ' ' ∨ d.padc = chr '0'
  plusSign : d.plusSign = 0 ∨ d.plusSign = chr ' ' ∨ d.plusSign = chr '+'

def Directive.needed (d : Directive) (signChar : BitVec 8) (base u : Word) : Int :=
  (signOf signChar).length + (d.alternate base u).length + max d.prec (written base u).length

def Directive.spare (d : Directive) (signChar : BitVec 8) (base u : Word) : Nat :=
  (d.length - d.needed signChar base u).toNat

theorem signOf_length {signChar : BitVec 8} :
    ((signOf signChar).length : Int) = if signChar ≠ 0 then 1 else 0 := by
  rw [signOf]
  split <;> rfl

/-- A number stands in its field with blanks before it, or behind it, or with zeros in it. -/
theorem Directive.printNum_field (d : Directive) (signChar : BitVec 8) (u : Word) (radix : Radix base)
    (padc : d.padc = chr ' ' ∨ d.padc = chr '0') :
    ∃ left zeros right : Nat, left + zeros + right = d.spare signChar base u ∧
      (d.padc = chr '0' → zeros = d.spare signChar base u) ∧
      d.printNum signChar base u = .ok (List.replicate left (chr ' ') ++ signOf signChar ++
        d.alternate base u ++ List.replicate ((d.prec - (written base u).length).toNat) (chr '0') ++
        List.replicate zeros (chr '0') ++ written base u ++ List.replicate right (chr ' ')) := by
  have zero_blank : chr '0' ≠ chr ' ' := by decide
  have blank_zero : chr ' ' ≠ chr '0' := by decide
  have spare (n : Int) (same : n = d.length - d.needed signChar base u) :
      n.toNat = d.spare signChar base u := by rw [Directive.spare, same]
  have length : (if 0 < d.prec - (written base u).length then
        (if signChar ≠ 0 then d.length - (written base u).length - 1
          else d.length - (written base u).length) - (d.alternate base u).length -
            (d.prec - (written base u).length)
      else (if signChar ≠ 0 then d.length - (written base u).length - 1
          else d.length - (written base u).length) - (d.alternate base u).length) =
      d.length - d.needed signChar base u := by
    rw [Directive.needed, signOf_length]
    split <;> split <;> omega
  rw [printNum, digitLoop_maxbuf radix]
  dsimp only [bind, Except.bind]
  rw [← Directive.alternate, length, ← signOf]
  have used (n : Int) : (min n 0 - 1).toNat = 0 := by omega
  rcases padc with blank | zero
  · rw [blank]
    cases d.ladjust with
    | false =>
      refine ⟨d.spare signChar base u, 0, 0, rfl, fun zero => absurd zero blank_zero, ?_⟩
      simp [blank_zero, spare]
    | true =>
      refine ⟨0, 0, d.spare signChar base u, Nat.zero_add _, fun zero => absurd zero blank_zero, ?_⟩
      simp [blank_zero, spare]
  · rw [zero]
    refine ⟨0, d.spare signChar base u, 0, Nat.zero_add _, fun _ => rfl, ?_⟩
    simp [zero_blank, spare, used]

def isspace (c : BitVec 8) : Bool :=
  c = chr ' ' || c = 12 || c = chr '\n' || c = chr '\r' || c = chr '\t' || c = 11

/-- The tests of the loops of `strtol` and `strtoul`: the value of a digit. -/
def digitValue (base : Int) (c : BitVec 8) : Option Nat :=
  if chr '0' ≤ c ∧ c ≤ chr '9' ∧ (c.toNat : Int) - 48 < base then some (c.toNat - 48)
  else if chr 'a' ≤ c ∧ c ≤ chr 'z' ∧ (c.toNat : Int) - 97 + 10 < base then some (c.toNat - 97 + 10)
  else if chr 'A' ≤ c ∧ c ≤ chr 'Z' ∧ (c.toNat : Int) - 65 + 10 < base then some (c.toNat - 65 + 10)
  else none

def digitsLoop (base : Int) (v : Word) : List (BitVec 8) → Word × List (BitVec 8)
  | [] => (v, [])
  | c :: p =>
      match digitValue base c with
      | some digit => digitsLoop base (v * .ofInt 32 base + .ofNat 32 digit) p
      | none => (v, c :: p)

/-- What `strtol` and `strtoul` do behind the blanks and the sign. -/
def scanNumber (base : Int) (p : List (BitVec 8)) : Word × List (BitVec 8) :=
  let hexadecimal :=
    (base = 16 ∨ base = 0) ∧ p[0]? = some (chr '0') ∧ (p[1]? = some (chr 'x') ∨ p[1]? = some (chr 'X'))
  let (base, p) := if hexadecimal then (16, p.drop 2) else (base, p)
  let base := if base = 0 then if p[0]? = some (chr '0') then 8 else 10 else base
  digitsLoop base 0 p

/-- The number and what `out_p` points to. -/
def strtoul (p : List (BitVec 8)) (base : Int) : Word × List (BitVec 8) :=
  scanNumber base (p.dropWhile isspace)

/-- The branch for a `+` does not move `p`. -/
def strtol (p : List (BitVec 8)) (base : Int) : Word × List (BitVec 8) :=
  let p := p.dropWhile isspace
  let isNeg := p[0]? = some (chr '-')
  let (v, p) := scanNumber base (if isNeg then p.drop 1 else p)
  (if isNeg then -v else v, p)

/-- Text that goes on with no letter and no digit. -/
def NumberEnds (rest : List (BitVec 8)) : Prop := ∀ c, rest[0]? = some c → digitValue 36 c = none

variable {c : BitVec 8} {rest : List (BitVec 8)} {b : Int}

theorem digs_value {digit : Nat} (small : digit < 16) (inBase : (digit : Int) < b) :
    digitValue b (digs.getD digit 0) = some digit := by
  have table : ∀ digit < 16, let c := digs.getD digit 0
      (chr '0' ≤ c ∧ c ≤ chr '9' ∧ c.toNat = 48 + digit) ∨
        (¬ c ≤ chr '9' ∧ chr 'a' ≤ c ∧ c ≤ chr 'z' ∧ c.toNat = 87 + digit) := by decide
  rw [digitValue]
  rcases table digit small with ⟨low, high, number⟩ | ⟨above, low, high, number⟩
  · have less : ((digs.getD digit 0).toNat : Int) - 48 < b := by omega
    rw [if_pos ⟨low, high, less⟩, number, Nat.add_sub_cancel_left]
  · have other : ¬ (chr '0' ≤ digs.getD digit 0 ∧ digs.getD digit 0 ≤ chr '9' ∧
        ((digs.getD digit 0).toNat : Int) - 48 < b) := fun decimal => above decimal.2.1
    have less : ((digs.getD digit 0).toNat : Int) - 97 + 10 < b := by omega
    rw [if_neg other, if_pos ⟨low, high, less⟩, number]
    congr 1
    have ten : ¬ digit < 10 := by
      intro ten
      have decimal : ∀ digit < 10, digs.getD digit 0 ≤ chr '9' := by decide
      exact above (decimal digit ten)
    omega

theorem digitValue_none (small : b ≤ 36) (ends : digitValue 36 c = none) :
    digitValue b c = none := by
  simp only [digitValue] at ends ⊢
  split at ends
  · cases ends
  · split at ends
    · cases ends
    · split at ends
      · cases ends
      · rename_i digit lower upper
        rw [if_neg, if_neg, if_neg]
        · exact fun inside => upper ⟨inside.1, inside.2.1, by omega⟩
        · exact fun inside => lower ⟨inside.1, inside.2.1, by omega⟩
        · exact fun inside => digit ⟨inside.1, inside.2.1, by omega⟩

theorem digitsLoop_end (small : b ≤ 36) (ends : NumberEnds rest) {v : Word} :
    digitsLoop b v rest = (v, rest) := by
  cases rest with
  | nil => rfl
  | cons c rest => rw [digitsLoop, digitValue_none small (ends c rfl)]

theorem digitsLoop_digits {digits : List Nat} (front : Nat) (radix : Radix base)
    (inBase : ∀ digit ∈ digits, digit < base.toNat) (ends : NumberEnds rest) :
    digitsLoop base.toNat (.ofNat 32 front) (digits.map (fun digit => digs.getD digit 0) ++ rest) =
      (.ofNat 32 (value base.toNat front digits), rest) := by
  obtain ⟨two, sixteen⟩ := radix
  induction digits generalizing front with
  | nil => exact digitsLoop_end (by omega) ends
  | cons digit digits ih =>
      have less : digit < base.toNat := inBase digit (List.mem_cons_self ..)
      have read : digitValue base.toNat (digs.getD digit 0) = some digit :=
        digs_value (by omega) (by omega)
      have next : BitVec.ofNat 32 front * .ofInt 32 base.toNat + .ofNat 32 digit =
          .ofNat 32 (front * base.toNat + digit) := by
        rw [BitVec.ofInt_natCast, ← BitVec.ofNat_mul, ← BitVec.ofNat_add]
      rw [List.map_cons, List.cons_append, digitsLoop, read]
      dsimp only
      rw [next, ih _ fun later member => inBase later (List.mem_cons_of_mem _ member)]
      rfl

theorem digitsLoop_written {k : Nat} (radix : Radix base) (ends : NumberEnds rest) :
    digitsLoop base.toNat 0 (List.replicate k (chr '0') ++ written base u ++ rest) = (u, rest) := by
  have large : 1 < base.toNat := radix.1
  have zeros : List.replicate k (chr '0') ++ written base u =
      (List.replicate k 0 ++ numeral base.toNat u.toNat).map fun digit => digs.getD digit 0 := by
    rw [List.map_append, List.map_replicate]
    rfl
  have inBase : ∀ digit ∈ List.replicate k 0 ++ numeral base.toNat u.toNat, digit < base.toNat := by
    intro digit member
    rcases List.mem_append.mp member with pad | member
    · rw [List.eq_of_mem_replicate pad]
      omega
    · exact Positional.lt_of_mem_numeral large member
  have loop := digitsLoop_digits 0 radix inBase ends
  rw [zeros]
  calc
    _ = (BitVec.ofNat 32 (value base.toNat 0 (List.replicate k 0 ++ numeral base.toNat u.toNat)),
        rest) := loop
    _ = (u, rest) := by
      rw [Positional.value_append, Positional.value_zeros, Positional.value_numeral large,
        BitVec.ofNat_toNat, BitVec.setWidth_eq]

theorem no_hexadecimal {k : Nat} (radix : Radix base) (ends : NumberEnds rest) {x : BitVec 8}
    (letter : x = chr 'x' ∨ x = chr 'X') :
    (List.replicate k (chr '0') ++ written base u ++ rest)[1]? ≠ some x := by
  intro second
  have digit (e : BitVec 8) (member : e ∈ List.replicate k (chr '0') ++ written base u) : e ≠ x := by
    have other : ∀ digit < 16, digs.getD digit 0 ≠ chr 'x' ∧ digs.getD digit 0 ≠ chr 'X' := by decide
    rcases List.mem_append.mp member with pad | member
    · rw [List.eq_of_mem_replicate pad]
      rcases letter with rfl | rfl <;> decide
    · obtain ⟨digit, among, rfl⟩ := List.mem_map.mp member
      have less := Positional.lt_of_mem_numeral radix.1 among
      obtain ⟨small, capital⟩ := other digit (Nat.lt_of_lt_of_le less radix.2)
      rcases letter with rfl | rfl
      · exact small
      · exact capital
  have nonempty : 0 < (List.replicate k (chr '0') ++ written base u).length := by
    rw [List.length_append, written, List.length_map]
    have some : 0 < (numeral base.toNat u.toNat).length :=
      List.length_pos_iff.mpr Positional.numeral_ne_nil
    omega
  by_cases inside : 1 < (List.replicate k (chr '0') ++ written base u).length
  · rw [List.getElem?_append_left inside] at second
    exact digit x (List.mem_of_getElem? second) rfl
  · have one : (List.replicate k (chr '0') ++ written base u).length = 1 := by omega
    rw [List.getElem?_append_right (by omega), one] at second
    have none := ends x second
    rcases letter with rfl | rfl <;> exact absurd none (by decide)

theorem scanNumber_plain {k : Nat} (radix : Radix base) (ends : NumberEnds rest) :
    scanNumber base.toNat (List.replicate k (chr '0') ++ written base u ++ rest) = (u, rest) := by
  have decimal : ¬ (((base.toNat : Int) = 16 ∨ (base.toNat : Int) = 0) ∧
      (List.replicate k (chr '0') ++ written base u ++ rest)[0]? = some (chr '0') ∧
      ((List.replicate k (chr '0') ++ written base u ++ rest)[1]? = some (chr 'x') ∨
        (List.replicate k (chr '0') ++ written base u ++ rest)[1]? = some (chr 'X'))) := by
    rintro ⟨-, -, small | capital⟩
    · exact no_hexadecimal radix ends (.inl rfl) small
    · exact no_hexadecimal radix ends (.inr rfl) capital
  have nonzero : (base.toNat : Int) ≠ 0 := by
    have two := radix.1
    omega
  rw [scanNumber]
  simp only [if_neg decimal, if_neg nonzero]
  exact digitsLoop_written radix ends

theorem scanNumber_field {k : Nat} (radix : Radix base) (ends : NumberEnds rest) :
    scanNumber base.toNat
      (d.alternate base u ++ List.replicate k (chr '0') ++ written base u ++ rest) = (u, rest) := by
  rw [Directive.alternate]
  split
  · split
    · have more : [chr '0'] ++ List.replicate k (chr '0') = List.replicate (k + 1) (chr '0') := rfl
      rw [more]
      exact scanNumber_plain radix ends
    · split
      · rename_i sixteen
        subst sixteen
        have behind := digitsLoop_written (u := u) (k := k) radix ends
        rw [scanNumber]
        simpa using behind
      · exact scanNumber_plain radix ends
  · exact scanNumber_plain radix ends

def Directive.figures (d : Directive) (base u : Word) (k : Nat) : List (BitVec 8) :=
  d.alternate base u ++ List.replicate k (chr '0') ++ written base u

theorem mem_alternate (member : c ∈ d.alternate base u) : c = chr '0' ∨ c = chr 'x' := by
  rw [Directive.alternate] at member
  split at member
  · split at member
    · exact .inl (List.mem_singleton.mp member)
    · split at member
      · simpa using member
      · cases member
  · cases member

theorem mem_figures {k : Nat} (radix : Radix base) (member : c ∈ d.figures base u k) :
    isspace c = false ∧ c ≠ chr '-' := by
  have table : ∀ digit < 16, isspace (digs.getD digit 0) = false ∧ digs.getD digit 0 ≠ chr '-' := by
    decide
  rcases List.mem_append.mp member with front | digits
  · rcases List.mem_append.mp front with prefixed | pad
    · rcases mem_alternate prefixed with rfl | rfl <;> decide
    · rw [List.eq_of_mem_replicate pad]
      decide
  · obtain ⟨digit, among, rfl⟩ := List.mem_map.mp digits
    exact table digit (Nat.lt_of_lt_of_le (Positional.lt_of_mem_numeral radix.1 among) radix.2)

theorem figures_cons {k : Nat} (radix : Radix base) (d : Directive) (u : Word) :
    ∃ c figures, d.figures base u k = c :: figures ∧ isspace c = false ∧ c ≠ chr '-' := by
  have nonempty : d.figures base u k ≠ [] := by
    apply List.append_ne_nil_of_right_ne_nil
    intro none
    exact Positional.numeral_ne_nil (List.map_eq_nil_iff.mp none)
  obtain ⟨c, figures, parts⟩ := List.exists_cons_of_ne_nil nonempty
  have member : c ∈ d.figures base u k := by
    rw [parts]
    exact List.mem_cons_self ..
  exact ⟨c, figures, parts, mem_figures radix member⟩

theorem skip_blanks {left : Nat} {p : List (BitVec 8)} :
    (List.replicate left (chr ' ') ++ p).dropWhile isspace = p.dropWhile isspace := by
  induction left with
  | zero => rfl
  | succ left ih =>
      rw [List.replicate_succ, List.cons_append, List.dropWhile_cons_of_pos (by decide)]
      exact ih

theorem skip_none {p : List (BitVec 8)} (other : isspace c = false) :
    (c :: p).dropWhile isspace = c :: p := by
  apply List.dropWhile_cons_of_neg
  rw [other]
  exact Bool.false_ne_true

theorem scanNumber_figures {k : Nat} (radix : Radix base) (ends : NumberEnds rest) :
    scanNumber base.toNat (d.figures base u k ++ rest) = (u, rest) :=
  scanNumber_field radix ends

theorem strtoul_figures (d : Directive) (u : Word) (left k : Nat) (radix : Radix base) (ends : NumberEnds rest) :
    strtoul (List.replicate left (chr ' ') ++ (d.figures base u k ++ rest)) base.toNat =
      (u, rest) := by
  obtain ⟨c, figures, parts, other, -⟩ := figures_cons (k := k) radix d u
  have scan := scanNumber_figures (d := d) (u := u) (k := k) radix ends
  rw [parts] at scan ⊢
  rw [strtoul, skip_blanks, List.cons_append, skip_none other]
  exact scan

theorem strtol_figures (d : Directive) (u : Word) (left k : Nat) (radix : Radix base) (ends : NumberEnds rest) :
    strtol (List.replicate left (chr ' ') ++ (d.figures base u k ++ rest)) base.toNat =
      (u, rest) := by
  obtain ⟨c, figures, parts, other, sign⟩ := figures_cons (k := k) radix d u
  have scan := scanNumber_figures (d := d) (u := u) (k := k) radix ends
  rw [parts] at scan ⊢
  rw [strtol, skip_blanks, List.cons_append, skip_none other]
  simpa [sign] using scan

theorem strtol_minus (d : Directive) (u : Word) (left k : Nat) (radix : Radix base) (ends : NumberEnds rest) :
    strtol (List.replicate left (chr ' ') ++ (chr '-' :: (d.figures base u k ++ rest))) base.toNat =
      (-u, rest) := by
  have scan := scanNumber_figures (d := d) (u := u) (k := k) radix ends
  rw [strtol, skip_blanks, skip_none (by decide)]
  simp [scan]

/-- The number in front of which there is a `+` is not read. -/
theorem strtol_plus (left : Nat) (p : List (BitVec 8)) (radix : Radix base) :
    strtol (List.replicate left (chr ' ') ++ (chr '+' :: p)) base.toNat = (0, chr '+' :: p) := by
  have nonzero : base.toNat ≠ 0 := by
    have two := radix.1
    omega
  have minus : chr '+' ≠ chr '-' := by decide
  have zero : chr '+' ≠ chr '0' := by decide
  have none : digitValue base.toNat (chr '+') = none := by
    simp [digitValue, chr]
  rw [strtol, skip_blanks, skip_none (by decide)]
  simp [minus, zero, scanNumber, nonzero, digitsLoop, none]

namespace Directive

variable {fmt fmt' : List (BitVec 8)} {args later : VaList}

theorem flags_parsed (parsed : d.Parsed) : (d.flags fmt).1.Parsed := by
  induction fmt generalizing d with
  | nil => exact parsed
  | cons c fmt ih =>
      simp only [flags]
      split
      · exact ih ⟨parsed.padc, parsed.plusSign⟩
      · split
        · exact ih ⟨parsed.padc, parsed.plusSign⟩
        · split
          · exact ih ⟨parsed.padc, .inr (.inr rfl)⟩
          · split
            · apply ih
              split
              · exact ⟨parsed.padc, .inr (.inl rfl)⟩
              · exact parsed
            · exact parsed

theorem zeroPad_parsed (parsed : d.Parsed) : (d.zeroPad fmt).1.Parsed := by
  rw [zeroPad]
  split
  · exact ⟨.inr rfl, parsed.plusSign⟩
  · exact parsed

theorem width_parsed (parsed : d.Parsed) : (d.width fmt args).1.Parsed := by
  cases fmt with
  | nil => exact parsed
  | cons c fmt =>
      simp only [width]
      split
      · exact ⟨parsed.padc, parsed.plusSign⟩
      · split
        · split
          · exact ⟨parsed.padc, parsed.plusSign⟩
          · exact ⟨parsed.padc, parsed.plusSign⟩
        · exact parsed

theorem precision_parsed (parsed : d.Parsed) : (d.precision fmt args).1.Parsed := by
  cases fmt with
  | nil => exact parsed
  | cons c fmt =>
      simp only [precision]
      split
      · exact ⟨parsed.padc, parsed.plusSign⟩
      · split
        · exact ⟨parsed.padc, parsed.plusSign⟩
        · exact parsed

theorem dot_parsed (parsed : d.Parsed) : (d.dot fmt args).1.Parsed := by
  rw [dot]
  split
  · exact precision_parsed parsed
  · exact parsed

theorem parse_parsed (fmt : List (BitVec 8)) (args : VaList) : (parse fmt args).1.Parsed := by
  have default : ({} : Directive).Parsed := ⟨.inl rfl, .inl rfl⟩
  rw [parse]
  exact dot_parsed (width_parsed (zeroPad_parsed (flags_parsed default)))

end Directive

variable {strings : Strings} {radix : Word} {fmt : List (BitVec 8)} {args later : VaList}
  {signed : Bool}

theorem doprnt_number (parsed : Directive.parse fmt args = (d, [c], later))
    (number : conversion radix c = some (base, signed)) :
    doprnt strings radix (chr '%' :: fmt) args = d.number base signed (later 0) := by
  rw [doprnt_directive parsed, convert_number number]
  cases d.number base signed (later 0) with
  | error fault => rfl
  | ok out =>
      change (doprnt strings radix [] _).map _ = _
      rw [doprnt_nil]
      exact congrArg Except.ok (List.append_nil out)

theorem Directive.printNum_figures (d : Directive) (signChar : BitVec 8) (u : Word)
    (padc : d.padc = chr ' ' ∨ d.padc = chr '0') (radix : Radix base) :
    ∃ left k right : Nat, left + (signOf signChar).length + (d.figures base u k).length + right =
        max d.length.toNat (d.needed signChar base u).toNat ∧
      d.printNum signChar base u = .ok (List.replicate left (chr ' ') ++ (signOf signChar ++
        (d.figures base u k ++ List.replicate right (chr ' ')))) := by
  obtain ⟨left, zeros, right, width, -, text⟩ := d.printNum_field signChar u radix padc
  refine ⟨left, (d.prec - (written base u).length).toNat + zeros, right, ?_, ?_⟩
  · rw [figures, List.length_append, List.length_append, List.length_replicate]
    rw [spare, needed] at width
    rw [needed]
    omega
  · rw [text, figures, List.replicate_add]
    simp only [List.append_assoc]

theorem NumberEnds.blanks (ends : NumberEnds rest) (right : Nat) : NumberEnds (List.replicate right (chr ' ') ++ rest) := by
  cases right with
  | zero => exact ends
  | succ right =>
      intro c first
      cases first
      decide

theorem strtoul_unsigned (padc : d.padc = chr ' ' ∨ d.padc = chr '0') (radix : Radix base)
    (ends : NumberEnds rest) :
    ∃ text right, d.number base false u = .ok text ∧ d.length ≤ text.length ∧
      strtoul (text ++ rest) base.toNat = (u, List.replicate right (chr ' ') ++ rest) := by
  obtain ⟨left, k, right, width, printed⟩ := d.printNum_figures 0 u padc radix
  refine ⟨_, right, printed, ?_, ?_⟩
  · simp only [List.length_append, List.length_replicate]
    omega
  · have read := strtoul_figures d u left k radix (ends.blanks right)
    simpa [signOf] using read

theorem strtol_signed (parsed : d.Parsed) (radix : Radix base) (ends : NumberEnds rest) :
    ∃ text, d.number base true u = .ok text ∧ d.length ≤ text.length ∧
      ((∃ right, strtol (text ++ rest) base.toNat = (u, List.replicate right (chr ' ') ++ rest)) ↔
        ¬ (d.plusSign = chr '+' ∧ 0 ≤ u.toInt)) := by
  rw [Directive.number, if_pos rfl]
  by_cases natural : 0 ≤ u.toInt
  · rw [if_pos natural]
    obtain ⟨left, k, right, width, printed⟩ :=
      d.printNum_figures d.plusSign u parsed.padc radix
    have after : NumberEnds (List.replicate right (chr ' ') ++ rest) := ends.blanks right
    refine ⟨_, printed, ?_, ?_⟩
    · simp only [List.length_append, List.length_replicate]
      omega
    · rcases parsed.plusSign with none | blank | plus
      · have read := strtol_figures d u left k radix after
        have other : ¬ (0 = chr '+' ∧ 0 ≤ u.toInt) := fun plus => absurd plus.1 (by decide)
        rw [none]
        refine iff_of_true ⟨right, ?_⟩ other
        simpa [signOf] using read
      · have read := strtol_figures d u (left + 1) k radix after
        have other : ¬ (chr ' ' = chr '+' ∧ 0 ≤ u.toInt) := fun plus => absurd plus.1 (by decide)
        have sign : signOf (chr ' ') = [chr ' '] := rfl
        rw [blank, sign]
        refine iff_of_true ⟨right, ?_⟩ other
        rw [List.replicate_succ'] at read
        simpa using read
      · have sign : signOf (chr '+') = [chr '+'] := rfl
        rw [plus, sign]
        refine iff_of_false ?_ (not_not.mpr ⟨rfl, natural⟩)
        rintro ⟨blanks, read⟩
        have stuck := strtol_plus left
          (d.figures base u k ++ (List.replicate right (chr ' ') ++ rest)) radix
        have same : chr '+' :: (d.figures base u k ++ (List.replicate right (chr ' ') ++ rest)) =
            List.replicate blanks (chr ' ') ++ rest := by
          simp only [List.append_assoc, List.cons_append, List.nil_append] at read
          rw [stuck] at read
          exact congrArg Prod.snd read
        cases blanks with
        | zero =>
          have length := congrArg List.length same
          simp at length
          omega
        | succ blanks =>
          have head := (List.cons.inj same).1
          exact absurd head (by decide)
  · rw [if_neg natural]
    obtain ⟨left, k, right, width, printed⟩ :=
      d.printNum_figures (chr '-') (-u) parsed.padc radix
    have after : NumberEnds (List.replicate right (chr ' ') ++ rest) := ends.blanks right
    refine ⟨_, printed, ?_, ?_⟩
    · simp only [List.length_append, List.length_replicate]
      omega
    · have read := strtol_minus d (-u) left k radix after
      have sign : signOf (chr '-') = [chr '-'] := rfl
      rw [BitVec.neg_neg] at read
      refine iff_of_true ⟨right, ?_⟩ fun plus => natural plus.2
      rw [sign]
      simpa using read

/-- What a number conversion prints is read back by `strtol`, or by `strtoul` if it is unsigned,
exactly when there is no `+` in front of it. -/
theorem doprnt_read_back (parsed : Directive.parse fmt args = (d, [c], later))
    (number : conversion radix c = some (base, signed)) (inRange : Radix base) (ends : NumberEnds rest) :
    ∃ text, doprnt strings radix (chr '%' :: fmt) args = .ok text ∧ d.length ≤ text.length ∧
      ((∃ right, (if signed then strtol else strtoul) (text ++ rest) base.toNat =
          (later 0, List.replicate right (chr ' ') ++ rest)) ↔
        ¬ (signed = true ∧ d.plusSign = chr '+' ∧ 0 ≤ (later 0).toInt)) := by
  have flags : d.Parsed := by
    have parsed_flags := Directive.parse_parsed fmt args
    rwa [parsed] at parsed_flags
  rw [doprnt_number parsed number]
  cases signed with
  | false =>
    obtain ⟨text, right, printed, width, read⟩ :=
      strtoul_unsigned (u := later 0) flags.padc inRange ends
    exact ⟨text, printed, width, iff_of_true ⟨right, read⟩ fun plus => Bool.false_ne_true plus.1⟩
  | true =>
    obtain ⟨text, printed, width, read⟩ := strtol_signed (u := later 0) flags inRange ends
    refine ⟨text, printed, width, ?_⟩
    rw [if_pos rfl, read]
    simp only [true_and]

/-- A negative number in a field of eight characters, with blanks behind it. -/
theorem doprnt_read_back_minus :
    ∃ text, doprnt (fun _ => []) 0 [chr '%', chr '-', chr '8', chr 'd'] (fun _ => -42) = .ok text ∧
      (8 : Int) ≤ text.length ∧
      ((∃ right, (if true then strtol else strtoul) (text ++ [chr ';']) (10 : Word).toNat =
          (-42, List.replicate right (chr ' ') ++ [chr ';'])) ↔
        ¬ (true = true ∧ (0 : BitVec 8) = chr '+' ∧ 0 ≤ (-42 : Word).toInt)) := by
  have ends : NumberEnds [chr ';'] := by
    intro c first
    rw [← Option.some.inj first]
    decide
  have parsed : Directive.parse [chr '-', chr '8', chr 'd'] (fun _ => (-42 : Word)) =
      ({ length := 8, ladjust := true }, [chr 'd'], fun _ => -42) := rfl
  exact doprnt_read_back parsed rfl (by decide) ends

end IntelX86Kernel

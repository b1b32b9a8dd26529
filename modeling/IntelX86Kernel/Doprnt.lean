import IntelX86Kernel.ByteMemory
import IntelX86Kernel.Numerals

/-! The formatted printing of shared/doprnt.c. What `_doprnt` hands to `putc` is the list of
characters that the functions here return. -/

namespace IntelX86Kernel

open X86 (Word)

def chr (c : Char) : BitVec 8 := .ofNat 8 c.toNat

inductive DoprntFault where
  | division
  | bufferUnderrun
  | digitTable
  | shiftCount
  | stringEnd
  deriving DecidableEq, Repr

abbrev VaList := Nat → Word

def VaList.cons (arg : Word) (args : VaList) : VaList
  | 0 => arg
  | i + 1 => args i

def VaList.after (args : VaList) (n : Nat) : VaList := fun i => args (i + n)

def isdigit (d : BitVec 8) : Bool := chr '0' ≤ d && d ≤ chr '9'

def MAXBUF : Nat := 32

def digs : List (BitVec 8) := "0123456789abcdef".toList.map chr ++ [0]

/-- The `do` loop of `printnum`, with the bytes of `buf` that are left and the digits written. -/
def digitLoop (base : Word) : Nat → Word → List (BitVec 8) → Except DoprntFault (List (BitVec 8))
  | 0, _, _ => .error .bufferUnderrun
  | room + 1, u, buf =>
      if base = 0 then .error .division
      else if digs.length ≤ (u % base).toNat then .error .digitTable
      else
        let buf := digs.getD (u % base).toNat 0 :: buf
        if u / base ≠ 0 then digitLoop base room (u / base) buf else .ok buf

def printnum (u base : Word) : Except DoprntFault (List (BitVec 8)) := digitLoop base MAXBUF u []

/-- What stands between `%` and the conversion; `plusSign` is 0 where there is none. -/
structure Directive where
  length : Int := 0
  prec : Int := -1
  ladjust : Bool := false
  padc : BitVec 8 := chr ' '
  plusSign : BitVec 8 := 0
  altfmt : Bool := false
  deriving DecidableEq

namespace Directive

def flags (d : Directive) : List (BitVec 8) → Directive × List (BitVec 8)
  | [] => (d, [])
  | c :: fmt =>
      if c = chr '#' then flags { d with altfmt := true } fmt
      else if c = chr '-' then flags { d with ladjust := true } fmt
      else if c = chr '+' then flags { d with plusSign := chr '+' } fmt
      else if c = chr ' ' then
        flags (if d.plusSign = 0 then { d with plusSign := chr ' ' } else d) fmt
      else (d, c :: fmt)

def zeroPad (d : Directive) (fmt : List (BitVec 8)) : Directive × List (BitVec 8) :=
  if fmt.head? = some (chr '0') then ({ d with padc := chr '0' }, fmt.tail) else (d, fmt)

/-- The loops over the digits of a width and of a precision; `int` overflow is undefined. -/
def digits (n : Int) : List (BitVec 8) → Int × List (BitVec 8)
  | [] => (n, [])
  | c :: fmt => if isdigit c then digits (10 * n + (c.toNat - 48)) fmt else (n, c :: fmt)

def width (d : Directive) (fmt : List (BitVec 8)) (args : VaList) :
    Directive × List (BitVec 8) × VaList :=
  match fmt with
  | [] => (d, [], args)
  | c :: rest =>
      if isdigit c then
        ({ d with length := (digits d.length (c :: rest)).1 }, (digits d.length (c :: rest)).2, args)
      else if c = chr '*' then
        let length := (args 0).toInt
        if length < 0 then
          ({ d with length := -length, ladjust := !d.ladjust }, rest, args.after 1)
        else ({ d with length := length }, rest, args.after 1)
      else (d, c :: rest, args)

/-- The branch after a `.`. -/
def precision (d : Directive) (fmt : List (BitVec 8)) (args : VaList) :
    Directive × List (BitVec 8) × VaList :=
  match fmt with
  | [] => (d, [], args)
  | c :: rest =>
      if isdigit c then
        ({ d with prec := (digits 0 (c :: rest)).1 }, (digits 0 (c :: rest)).2, args)
      else if c = chr '*' then ({ d with prec := (args 0).toInt }, rest, args.after 1)
      else (d, c :: rest, args)

def dot (d : Directive) (fmt : List (BitVec 8)) (args : VaList) :
    Directive × List (BitVec 8) × VaList :=
  if fmt.head? = some (chr '.') then d.precision fmt.tail args else (d, fmt, args)

def long (fmt : List (BitVec 8)) : List (BitVec 8) :=
  if fmt.head? = some (chr 'l') then fmt.tail else fmt

def parse (fmt : List (BitVec 8)) (args : VaList) : Directive × List (BitVec 8) × VaList :=
  let (d, fmt) := flags {} fmt
  let (d, fmt) := d.zeroPad fmt
  let (d, fmt, args) := d.width fmt args
  let (d, fmt, args) := d.dot fmt args
  (d, long fmt, args)

/-- The loop over `n` that measures the string before it is right-adjusted. -/
def stringCount (prec : Int) (n : Int) : List (BitVec 8) → Int
  | [] => n
  | _ :: p => if n < prec then stringCount prec (n + 1) p else n

def stringChars (prec : Int) (n : Int) : List (BitVec 8) → List (BitVec 8) × Int
  | [] => ([], n)
  | c :: p =>
      if prec < n + 1 then ([], n + 1)
      else (c :: (stringChars prec (n + 1) p).1, (stringChars prec (n + 1) p).2)

/-- The case `s`; the string is empty for a null pointer. -/
def string (d : Directive) (p : List (BitVec 8)) : List (BitVec 8) :=
  let prec := if d.prec = -1 then 0x7fffffff else d.prec
  let left :=
    if 0 < d.length ∧ ¬d.ladjust then
      List.replicate (d.length - stringCount prec 0 p).toNat (chr ' ')
    else []
  let (shown, n) := stringChars prec 0 p
  let right :=
    if n < d.length ∧ d.ladjust then List.replicate (d.length - n).toNat (chr ' ') else []
  left ++ shown ++ right

/-- The code at `print_num`; `signChar` is 0 where there is none. -/
def printNum (d : Directive) (signChar : BitVec 8) (base u : Word) :
    Except DoprntFault (List (BitVec 8)) := do
  let alternate :=
    if u ≠ 0 ∧ d.altfmt then
      if base = 8 then [chr '0'] else if base = 16 then [chr '0', chr 'x'] else []
    else []
  let written ← digitLoop base MAXBUF u []
  let prec := d.prec - written.length
  let length := d.length - written.length
  let length := if signChar ≠ 0 then length - 1 else length
  let length := length - alternate.length
  let length := if 0 < prec then length - prec else length
  let blanks := if d.padc = chr ' ' ∧ ¬d.ladjust then List.replicate length.toNat (chr ' ') else []
  let length := if d.padc = chr ' ' ∧ ¬d.ladjust then min length 0 - 1 else length
  let sign := if signChar ≠ 0 then [signChar] else []
  let zeros := List.replicate prec.toNat (chr '0')
  let padding := if d.padc = chr '0' then List.replicate length.toNat (chr '0') else []
  let length := if d.padc = chr '0' then min length 0 - 1 else length
  let right := if d.ladjust then List.replicate length.toNat (chr ' ') else []
  .ok (blanks ++ sign ++ alternate ++ zeros ++ padding ++ written ++ right)

def number (d : Directive) (base : Word) (signed : Bool) (arg : Word) :
    Except DoprntFault (List (BitVec 8)) :=
  if signed then
    if 0 ≤ arg.toInt then d.printNum d.plusSign base arg else d.printNum (chr '-') base (-arg)
  else d.printNum 0 base arg

end Directive

/-- The characters that `*p > 32` holds of, for a signed `char`. -/
def isName (c : BitVec 8) : Bool := 32 < c.toInt

def separator (any : Bool) : BitVec 8 := if any then chr ',' else chr '<'

def bitNames (u base : Word) : List (BitVec 8) → Bool → Except DoprntFault (List (BitVec 8))
  | [], any => .ok (if any then [chr '>'] else [])
  | [_], _ => .error .stringEnd
  | i :: c :: p, any =>
      if ¬isName c then
        if 1 ≤ c.toInt ∧ c.toInt ≤ 32 ∧ c.toInt ≤ i.toInt ∧ i.toInt - c.toInt < 32 then do
          let field := u >>> (c.toInt - 1).toNat &&& ((2 : Word) <<< (i.toInt - c.toInt).toNat - 1)
          let value ← printnum field base
          let rest ← bitNames u base (p.dropWhile isName) true
          .ok (separator any :: p.takeWhile isName ++ value ++ rest)
        else .error .shiftCount
      else if 1 ≤ i.toInt ∧ i.toInt ≤ 32 then
        if u &&& (1 : Word) <<< (i.toInt - 1).toNat ≠ 0 then do
          let rest ← bitNames u base ((c :: p).dropWhile isName) true
          .ok (separator any :: (c :: p).takeWhile isName ++ rest)
        else bitNames u base ((c :: p).dropWhile isName) any
      else .error .shiftCount
termination_by p => p.length
decreasing_by
  · exact Nat.lt_succ_of_le (Nat.le_succ_of_le (List.dropWhile_sublist _).length_le)
  · exact Nat.lt_succ_of_le (List.dropWhile_sublist _).length_le
  · exact Nat.lt_succ_of_le (List.dropWhile_sublist _).length_le

def printBits (u : Word) (p : List (BitVec 8)) : Except DoprntFault (List (BitVec 8)) := do
  let base := p.headD 0
  let value ← printnum u (base.signExtend 32)
  if u = 0 then .ok value
  else do
    let names ← bitNames u (base.signExtend 32) p.tail false
    .ok (value ++ names)

/-- The bases of the conversions that go to `print_signed` and to `print_unsigned`. -/
def conversion (radix : Word) (c : BitVec 8) : Option (Word × Bool) :=
  if c = chr 'o' ∨ c = chr 'O' then some (8, false)
  else if c = chr 'd' ∨ c = chr 'i' ∨ c = chr 'D' then some (10, true)
  else if c = chr 'u' ∨ c = chr 'U' then some (10, false)
  else if c = chr 'x' ∨ c = chr 'X' then some (16, false)
  else if c = chr 'z' ∨ c = chr 'Z' then some (16, true)
  else if c = chr 'r' ∨ c = chr 'R' then some (radix, true)
  else if c = chr 'n' ∨ c = chr 'N' then some (radix, false)
  else none

abbrev Strings := Word → List (BitVec 8)

/-- The switch over the conversion: what it prints and the arguments that follow. -/
def convert (strings : Strings) (radix : Word) (d : Directive) (c : BitVec 8) (args : VaList) :
    Except DoprntFault (List (BitVec 8) × VaList) :=
  if c = chr 'b' ∨ c = chr 'B' then do
    let out ← printBits (args 0) (strings (args 1))
    .ok (out, args.after 2)
  else if c = chr 'c' then .ok ([(args 0).truncate 8], args.after 1)
  else if c = chr 's' then
    .ok (d.string (if args 0 = 0 then [] else strings (args 0)), args.after 1)
  else if c = chr 'p' then do
    let out ← { d with padc := chr '0', length := 8 }.number 16 false (args 0)
    .ok (chr '0' :: chr 'x' :: out, args.after 1)
  else
    match conversion radix c with
    | some (base, signed) => do
        let out ← d.number base signed (args 0)
        .ok (out, args.after 1)
    | none => .ok ([c], args)

namespace Directive

variable {d : Directive} {fmt : List (BitVec 8)} {args : VaList}

theorem flags_length : (d.flags fmt).2.length ≤ fmt.length := by
  induction fmt generalizing d with
  | nil => exact Nat.le_refl _
  | cons c fmt ih =>
      have later (e : Directive) : (e.flags fmt).2.length ≤ fmt.length + 1 := Nat.le_succ_of_le ih
      simp only [flags]
      split
      · exact later _
      · split
        · exact later _
        · split
          · exact later _
          · split
            · exact later _
            · exact Nat.le_refl _

theorem digits_length {n : Int} : (digits n fmt).2.length ≤ fmt.length := by
  induction fmt generalizing n with
  | nil => exact Nat.le_refl _
  | cons c fmt ih =>
      simp only [digits]
      split
      · exact Nat.le_succ_of_le ih
      · exact Nat.le_refl _

theorem tail_length : fmt.tail.length ≤ fmt.length := by
  rw [List.length_tail]
  exact Nat.sub_le _ _

theorem width_length : (d.width fmt args).2.1.length ≤ fmt.length := by
  cases fmt with
  | nil => exact Nat.le_refl _
  | cons c fmt =>
      simp only [width]
      split
      · exact digits_length
      · split
        · split
          · exact Nat.le_succ _
          · exact Nat.le_succ _
        · exact Nat.le_refl _

theorem precision_length : (d.precision fmt args).2.1.length ≤ fmt.length := by
  cases fmt with
  | nil => exact Nat.le_refl _
  | cons c fmt =>
      simp only [precision]
      split
      · exact digits_length
      · split
        · exact Nat.le_succ _
        · exact Nat.le_refl _

theorem parse_length (fmt : List (BitVec 8)) (args : VaList) :
    (parse fmt args).2.1.length ≤ fmt.length := by
  have zero (e : Directive) (fmt : List (BitVec 8)) : (e.zeroPad fmt).2.length ≤ fmt.length := by
    rw [zeroPad]
    split
    · exact tail_length
    · exact Nat.le_refl _
  have dot (e : Directive) (fmt : List (BitVec 8)) (args : VaList) :
      (e.dot fmt args).2.1.length ≤ fmt.length := by
    rw [Directive.dot]
    split
    · exact Nat.le_trans precision_length tail_length
    · exact Nat.le_refl _
  have long (fmt : List (BitVec 8)) : (Directive.long fmt).length ≤ fmt.length := by
    rw [Directive.long]
    split
    · exact tail_length
    · exact Nat.le_refl _
  rw [parse]
  apply Nat.le_trans (long _)
  apply Nat.le_trans (dot _ _ _)
  apply Nat.le_trans width_length
  exact Nat.le_trans (zero _ _) flags_length

end Directive

/-- `_doprnt`, as long as it does not divide by zero or leave an array. -/
def doprnt (strings : Strings) (radix : Word) (fmt : List (BitVec 8)) (args : VaList) :
    Except DoprntFault (List (BitVec 8)) :=
  match fmt with
  | [] => .ok []
  | c :: fmt =>
      if c ≠ chr '%' then do
        let rest ← doprnt strings radix fmt args
        .ok (c :: rest)
      else
        match _parsed : Directive.parse fmt args with
        | (_, [], _) => .ok []
        | (d, c :: fmt', later) => do
            let (out, later) ← convert strings radix d c later
            let rest ← doprnt strings radix fmt' later
            .ok (out ++ rest)
termination_by fmt.length
decreasing_by
  · exact Nat.lt_succ_self _
  · have shorter := Directive.parse_length fmt args
    rw [_parsed] at shorter
    exact Nat.lt_succ_of_lt shorter

section Runs

variable {strings : Strings} {radix base : Word} {signed : Bool} {fmt fmt' : List (BitVec 8)}
  {args later : VaList} {d : Directive} {c : BitVec 8}

theorem doprnt_nil : doprnt strings radix [] args = .ok [] := by rw [doprnt]

theorem doprnt_text (text : c ≠ chr '%') :
    doprnt strings radix (c :: fmt) args = (doprnt strings radix fmt args).map (c :: ·) := by
  rw [doprnt, if_pos text]
  rfl

theorem doprnt_directive (parsed : Directive.parse fmt args = (d, c :: fmt', later)) :
    doprnt strings radix (chr '%' :: fmt) args =
      (convert strings radix d c later).bind fun printed =>
        (doprnt strings radix fmt' printed.2).map (printed.1 ++ ·) := by
  rw [doprnt, if_neg (not_not.mpr rfl)]
  split
  · rename_i e after empty
    rw [parsed] at empty
    cases empty
  · rename_i e c' fmt'' after same
    rw [parsed] at same
    cases same
    rfl

theorem convert_number (number : conversion radix c = some (base, signed)) :
    convert strings radix d c args =
      (d.number base signed (args 0)).map fun out => (out, args.after 1) := by
  have plain : c ≠ chr 'b' ∧ c ≠ chr 'B' ∧ c ≠ chr 'c' ∧ c ≠ chr 's' ∧ c ≠ chr 'p' := by
    refine ⟨?_, ?_, ?_, ?_, ?_⟩ <;>
    · rintro rfl
      simp [conversion, chr] at number
  obtain ⟨b, capital, character, string, pointer⟩ := plain
  rw [convert, if_neg (not_or.mpr ⟨b, capital⟩), if_neg character, if_neg string, if_neg pointer,
    number]
  rfl

end Runs

end IntelX86Kernel

import IntelX86Kernel.NumberFields

/-! The formats that `_doprnt` takes, as a syntax with its own meaning. -/

namespace IntelX86Kernel

open X86 (Word)
open Positional (value)

inductive Flag where
  | alternate | left | plus | blank
  deriving DecidableEq

def Flag.character : Flag → BitVec 8
  | .alternate => chr '#'
  | .left => chr '-'
  | .plus => chr '+'
  | .blank => chr ' '

inductive Amount where
  | digits (ds : List Nat)
  | argument

def Amount.characters : Amount → List (BitVec 8)
  | .digits ds => ds.map fun digit => digs.getD digit 0
  | .argument => [chr '*']

def Amount.Plain : Amount → Prop
  | .digits ds => ds ≠ [] ∧ (∀ digit ∈ ds, digit < 10) ∧ value 10 0 ds < 2 ^ 31
  | .argument => True

structure Specification where
  flags : List Flag := []
  zero : Bool := false
  width : Option Amount := none
  /-- The inner option is empty for a `.` on its own. -/
  precision : Option (Option Amount) := none
  long : Bool := false
  letter : BitVec 8

namespace Specification

def characters (s : Specification) : List (BitVec 8) :=
  s.flags.map Flag.character ++ ((if s.zero then [chr '0'] else []) ++
    ((s.width.elim [] Amount.characters) ++
      ((s.precision.elim [] fun amount => chr '.' :: amount.elim [] Amount.characters) ++
        ((if s.long then [chr 'l'] else []) ++ [s.letter]))))

def Letter (c : BitVec 8) : Prop := isdigit c = false ∧ c ∉ "#-+ *.l".toList.map chr

instance letterDecidable (c : BitVec 8) : Decidable (Letter c) :=
  inferInstanceAs (Decidable (_ ∧ _))

structure Plain (s : Specification) : Prop where
  letter : Letter s.letter
  width : ∀ amount, s.width = some amount → amount.Plain
  /-- Otherwise the first zero of the width would be the flag. -/
  leading : s.zero = false → ∀ ds, s.width ≠ some (.digits (0 :: ds))
  precision : ∀ amount, s.precision = some (some amount) → amount.Plain

def flagged (s : Specification) : Directive where
  altfmt := .alternate ∈ s.flags
  ladjust := .left ∈ s.flags
  plusSign := if .plus ∈ s.flags then chr '+' else if .blank ∈ s.flags then chr ' ' else 0
  padc := if s.zero then chr '0' else chr ' '

/-- A negative width from the arguments adjusts to the other side. -/
def widened (d : Directive) (args : VaList) : Option Amount → Directive × VaList
  | none => (d, args)
  | some (.digits ds) => ({ d with length := value 10 0 ds }, args)
  | some .argument =>
      ({ d with length := (args 0).toInt.natAbs, ladjust := xor d.ladjust ((args 0).toInt < 0) },
        args.after 1)

def limited (d : Directive) (args : VaList) : Option (Option Amount) → Directive × VaList
  | some (some (.digits ds)) => ({ d with prec := value 10 0 ds }, args)
  | some (some .argument) => ({ d with prec := (args 0).toInt }, args.after 1)
  | _ => (d, args)

def meaning (s : Specification) (args : VaList) : Directive × VaList :=
  let (d, args) := widened s.flagged args s.width
  limited d args s.precision

end Specification

/-- A format is text and directives. -/
inductive Piece where
  | text (c : BitVec 8)
  | directive (s : Specification)

namespace Piece

def characters : Piece → List (BitVec 8)
  | text c => [c]
  | directive s => chr '%' :: s.characters

def Plain : Piece → Prop
  | text c => c ≠ chr '%'
  | directive s => s.Plain

def print (strings : Strings) (radix : Word) : List Piece → VaList →
    Except DoprntFault (List (BitVec 8))
  | [], _ => .ok []
  | text c :: pieces, args => (print strings radix pieces args).map (c :: ·)
  | directive s :: pieces, args =>
      (convert strings radix (s.meaning args).1 s.letter (s.meaning args).2).bind fun printed =>
        (print strings radix pieces printed.2).map (printed.1 ++ ·)

end Piece

section Parsing

variable {d : Directive} {rest : List (BitVec 8)} {args : VaList} {c : BitVec 8}

theorem flags_stop (stop : ∀ flag : Flag, rest.head? ≠ some flag.character) :
    d.flags rest = (d, rest) := by
  cases rest with
  | nil => rfl
  | cons c rest =>
      have alternate : c ≠ chr '#' := fun same => stop .alternate (congrArg some same)
      have left : c ≠ chr '-' := fun same => stop .left (congrArg some same)
      have plus : c ≠ chr '+' := fun same => stop .plus (congrArg some same)
      have blank : c ≠ chr ' ' := fun same => stop .blank (congrArg some same)
      rw [Directive.flags, if_neg alternate, if_neg left, if_neg plus, if_neg blank]

theorem flags_characters {flags : List Flag} (stop : ∀ flag : Flag, rest.head? ≠ some flag.character) :
    d.flags (flags.map Flag.character ++ rest) =
      ({ d with
          altfmt := d.altfmt || .alternate ∈ flags
          ladjust := d.ladjust || .left ∈ flags
          plusSign := if .plus ∈ flags then chr '+' else
            if d.plusSign = 0 ∧ .blank ∈ flags then chr ' ' else d.plusSign }, rest) := by
  induction flags generalizing d with
  | nil =>
      rw [List.map_nil, List.nil_append, flags_stop stop]
      simp
  | cons flag flags ih =>
      have minus : chr '-' ≠ chr '#' := by decide
      have plus : chr '+' ≠ chr '#' ∧ chr '+' ≠ chr '-' ∧ chr '+' ≠ 0#8 := by decide
      have blank : chr ' ' ≠ chr '#' ∧ chr ' ' ≠ chr '-' ∧ chr ' ' ≠ chr '+' := by decide
      rw [List.map_cons, List.cons_append, Directive.flags]
      cases flag with
      | alternate =>
        rw [Flag.character, if_pos rfl, ih]
        simp
      | left =>
        rw [Flag.character, if_neg minus, if_pos rfl, ih]
        simp
      | plus =>
        rw [Flag.character, if_neg plus.1, if_neg plus.2.1, if_pos rfl, ih]
        simp [plus.2.2]
      | blank =>
        rw [Flag.character, if_neg blank.1, if_neg blank.2.1, if_neg blank.2.2, if_pos rfl]
        by_cases unset : d.plusSign = 0
        · have unset' : d.plusSign = 0#8 := unset
          rw [if_pos unset, ih]
          simp [unset']
        · have set : d.plusSign ≠ 0#8 := unset
          rw [if_neg unset, ih]
          simp [set]

theorem digit_isdigit {digit : Nat} (small : digit < 10) :
    isdigit (digs.getD digit 0) = true ∧ (digs.getD digit 0).toNat = 48 + digit := by
  have table : ∀ digit < 10, isdigit (digs.getD digit 0) = true ∧
      (digs.getD digit 0).toNat = 48 + digit := by decide
  exact table digit small

theorem digits_characters {ds : List Nat} (front : Nat) (small : ∀ digit ∈ ds, digit < 10)
    (stop : ∀ c, rest.head? = some c → isdigit c = false) :
    Directive.digits front ((ds.map fun digit => digs.getD digit 0) ++ rest) =
      ((value 10 front ds : Int), rest) := by
  induction ds generalizing front with
  | nil =>
      cases rest with
      | nil => rfl
      | cons c rest =>
          have other : isdigit c = false := stop c rfl
          rw [List.map_nil, List.nil_append, Directive.digits, other]
          rfl
  | cons digit ds ih =>
      obtain ⟨decimal, number⟩ := digit_isdigit (small digit (List.mem_cons_self ..))
      have next : (10 * (front : Int) + (((digs.getD digit 0).toNat : Int) - 48)) =
          ((front * 10 + digit : Nat) : Int) := by
        rw [number]
        omega
      rw [List.map_cons, List.cons_append, Directive.digits, if_pos decimal, next,
        ih _ fun later member => small later (List.mem_cons_of_mem _ member)]
      rfl

def NoAmount (rest : List (BitVec 8)) : Prop :=
  ∀ c, rest.head? = some c → isdigit c = false ∧ c ≠ chr '*'

theorem width_characters {width : Option Amount} (plain : ∀ amount, width = some amount → amount.Plain)
    (initial : d.length = 0) (stop : NoAmount rest) :
    d.width (width.elim [] Amount.characters ++ rest) args =
      ((Specification.widened d args width).1, rest, (Specification.widened d args width).2) := by
  cases width with
  | none =>
    cases rest with
    | nil => rfl
    | cons c rest =>
        obtain ⟨digit, star⟩ := stop c rfl
        rw [Option.elim_none, List.nil_append, Directive.width, if_neg (Bool.eq_false_iff.mp digit),
          if_neg star]
        rfl
  | some amount =>
    cases amount with
    | digits ds =>
      obtain ⟨nonempty, small, -⟩ := plain _ rfl
      obtain ⟨digit, ds, rfl⟩ := List.exists_cons_of_ne_nil nonempty
      have decimal := (digit_isdigit (small digit (List.mem_cons_self ..))).1
      have loop := digits_characters 0 small fun c first => (stop c first).1
      rw [List.map_cons, List.cons_append, Nat.cast_zero] at loop
      rw [Option.elim_some, Amount.characters, List.map_cons, List.cons_append, Directive.width,
        if_pos decimal, initial, loop]
      rfl
    | argument =>
      have plain_star : isdigit (chr '*') = false := by decide
      rw [Option.elim_some, Amount.characters, List.singleton_append, Directive.width,
        if_neg (Bool.eq_false_iff.mp plain_star), if_pos rfl]
      dsimp only [Specification.widened]
      by_cases negative : (args 0).toInt < 0
      · have size : ((args 0).toInt.natAbs : Int) = -(args 0).toInt := by omega
        simp [negative, size]
      · have size : ((args 0).toInt.natAbs : Int) = (args 0).toInt := by omega
        simp [negative, size]

theorem dot_characters {precision : Option (Option Amount)}
    (plain : ∀ amount, precision = some (some amount) → amount.Plain)
    (stop : NoAmount rest) (dot : rest.head? ≠ some (chr '.')) :
    d.dot ((precision.elim [] fun amount => chr '.' :: amount.elim [] Amount.characters) ++ rest) args =
      ((Specification.limited d args precision).1, rest,
        (Specification.limited d args precision).2) := by
  cases precision with
  | none => rw [Option.elim_none, List.nil_append, Directive.dot, if_neg dot]; rfl
  | some amount =>
    rw [Option.elim_some, List.cons_append, Directive.dot, List.head?_cons, if_pos rfl, List.tail_cons]
    cases amount with
    | none =>
      cases rest with
      | nil => rfl
      | cons c rest =>
          obtain ⟨digit, star⟩ := stop c rfl
          rw [Option.elim_none, List.nil_append, Directive.precision,
            if_neg (Bool.eq_false_iff.mp digit), if_neg star]
          rfl
    | some amount =>
      cases amount with
      | digits ds =>
        obtain ⟨nonempty, small, -⟩ := plain _ rfl
        obtain ⟨digit, ds, rfl⟩ := List.exists_cons_of_ne_nil nonempty
        have decimal := (digit_isdigit (small digit (List.mem_cons_self ..))).1
        have loop := digits_characters 0 small fun c first => (stop c first).1
        rw [List.map_cons, List.cons_append, Nat.cast_zero] at loop
        rw [Option.elim_some, Amount.characters, List.map_cons, List.cons_append,
          Directive.precision, if_pos decimal, loop]
        rfl
      | argument =>
        have plain_star : isdigit (chr '*') = false := by decide
        rw [Option.elim_some, Amount.characters, List.singleton_append, Directive.precision,
          if_neg (Bool.eq_false_iff.mp plain_star), if_pos rfl]
        rfl

theorem head_append {p q : List (BitVec 8)} {First : BitVec 8 → Prop}
    (front : ∀ c, p.head? = some c → First c) (back : p = [] → ∀ c, q.head? = some c → First c) :
    ∀ c, (p ++ q).head? = some c → First c := by
  cases p with
  | nil => exact back rfl
  | cons c p => exact front

namespace Specification

variable {s : Specification}

def ending (s : Specification) (rest : List (BitVec 8)) : List (BitVec 8) :=
  (if s.long then [chr 'l'] else []) ++ s.letter :: rest

def limits (s : Specification) : List (BitVec 8) :=
  s.precision.elim [] fun amount => chr '.' :: amount.elim [] Amount.characters

theorem ending_head (plain : s.Plain) :
    ∀ c, (s.ending rest).head? = some c → c = chr 'l' ∨ Letter c := by
  rw [ending]
  cases s.long with
  | true =>
    intro c first
    cases first
    exact .inl rfl
  | false =>
    intro c first
    cases first
    exact .inr plain.letter

theorem limits_head (plain : s.Plain) :
    ∀ c, (s.limits ++ s.ending rest).head? = some c → c = chr '.' ∨ c = chr 'l' ∨ Letter c := by
  apply head_append
  · intro c first
    rw [limits] at first
    cases precision : s.precision with
    | none =>
      rw [precision] at first
      cases first
    | some amount =>
      rw [precision] at first
      cases first
      exact .inl rfl
  · intro _ c first
    exact .inr (ending_head plain c first)

theorem width_head (plain : s.Plain) :
    ∀ c, (s.width.elim [] Amount.characters ++ (s.limits ++ s.ending rest)).head? = some c →
      (isdigit c = true ∧ (s.zero = false → c ≠ chr '0')) ∨ c = chr '*' ∨ c = chr '.' ∨
        c = chr 'l' ∨ Letter c := by
  apply head_append
  · intro c first
    cases width : s.width with
    | none =>
      rw [width] at first
      cases first
    | some amount =>
      rw [width] at first
      cases amount with
      | argument =>
        cases first
        exact .inr (.inl rfl)
      | digits ds =>
        obtain ⟨nonempty, small, -⟩ := plain.width _ width
        obtain ⟨digit, ds, rfl⟩ := List.exists_cons_of_ne_nil nonempty
        cases first
        have decimal := digit_isdigit (small digit (List.mem_cons_self ..))
        refine .inl ⟨decimal.1, fun flag same => ?_⟩
        have number : (digs.getD digit 0).toNat = (chr '0').toNat := congrArg BitVec.toNat same
        have zero : digit = 0 := by
          have value : (chr '0').toNat = 48 := rfl
          rw [decimal.2, value] at number
          omega
        exact plain.leading flag ds (by rw [width, zero])
  · intro _ c first
    exact .inr (.inr (limits_head plain c first))

theorem Letter.ne {c : BitVec 8} (letter : Letter c) (other : BitVec 8)
    (special : other ∈ "#-+ *.l".toList.map chr) : c ≠ other := by
  rintro rfl
  exact letter.2 special

theorem Letter.ne_flag {c : BitVec 8} (letter : Letter c) (flag : Flag) : c ≠ flag.character := by
  apply letter.ne
  cases flag <;> decide

theorem ending_stop (rest : List (BitVec 8)) (plain : s.Plain) :
    NoAmount (s.ending rest) ∧ (s.ending rest).head? ≠ some (chr '.') := by
  constructor
  · intro c first
    rcases ending_head plain c first with rfl | letter
    · decide
    · exact ⟨letter.1, letter.ne _ (by decide)⟩
  · intro first
    rcases ending_head plain _ first with same | letter
    · exact absurd same (by decide)
    · exact letter.ne _ (by decide) rfl

theorem limits_stop (plain : s.Plain) : NoAmount (s.limits ++ s.ending rest) := by
  intro c first
  rcases limits_head plain c first with rfl | rfl | letter
  · decide
  · decide
  · exact ⟨letter.1, letter.ne _ (by decide)⟩

theorem width_stop (plain : s.Plain) (flag : Flag) :
    (s.width.elim [] Amount.characters ++ (s.limits ++ s.ending rest)).head? ≠
      some flag.character := by
  have other : isdigit flag.character = false ∧ flag.character ≠ chr '*' ∧
      flag.character ≠ chr '.' ∧ flag.character ≠ chr 'l' := by
    cases flag <;> decide
  intro first
  rcases width_head plain _ first with ⟨digit, -⟩ | star | dot | long | letter
  · rw [other.1] at digit
    cases digit
  · exact other.2.1 star
  · exact other.2.2.1 dot
  · exact other.2.2.2 long
  · exact letter.ne_flag flag rfl

/-- The zero is the flag exactly when the specification has it. -/
theorem zeroPad_characters (plain : s.Plain) (blank : d.padc = chr ' ') :
    d.zeroPad ((if s.zero then [chr '0'] else []) ++
        (s.width.elim [] Amount.characters ++ (s.limits ++ s.ending rest))) =
      ({ d with padc := if s.zero then chr '0' else chr ' ' },
        s.width.elim [] Amount.characters ++ (s.limits ++ s.ending rest)) := by
  cases flag : s.zero with
  | true => rfl
  | false =>
    have other : (s.width.elim [] Amount.characters ++ (s.limits ++ s.ending rest)).head? ≠
        some (chr '0') := by
      intro first
      rcases width_head plain _ first with ⟨-, nonzero⟩ | star | dot | long | letter
      · exact nonzero flag rfl
      · exact absurd star (by decide)
      · exact absurd dot (by decide)
      · exact absurd long (by decide)
      · exact absurd letter.1 (by decide)
    rw [if_neg Bool.false_ne_true, if_neg Bool.false_ne_true, List.nil_append, Directive.zeroPad,
      if_neg other, ← blank]

theorem long_characters (plain : s.Plain) : Directive.long (s.ending rest) = s.letter :: rest := by
  rw [ending]
  cases s.long with
  | true => rfl
  | false =>
    have other : s.letter ≠ chr 'l' := plain.letter.ne _ (by decide)
    have first : (s.letter :: rest).head? ≠ some (chr 'l') := fun same => other (Option.some.inj same)
    rw [if_neg Bool.false_ne_true, List.nil_append, Directive.long, if_neg first]

theorem parse_characters (plain : s.Plain) :
    Directive.parse (s.characters ++ rest) args =
      ((s.meaning args).1, s.letter :: rest, (s.meaning args).2) := by
  have shape : s.characters ++ rest = s.flags.map Flag.character ++
      ((if s.zero then [chr '0'] else []) ++
        (s.width.elim [] Amount.characters ++ (s.limits ++ s.ending rest))) := by
    simp only [characters, limits, ending, List.append_assoc, List.singleton_append]
  have stop (flag : Flag) : ((if s.zero then [chr '0'] else []) ++
      (s.width.elim [] Amount.characters ++ (s.limits ++ s.ending rest))).head? ≠
        some flag.character := by
    cases s.zero with
    | true =>
      intro first
      have same := Option.some.inj first
      cases flag <;> exact absurd same (by decide)
    | false => exact width_stop plain flag
  obtain ⟨noAmount, noDot⟩ := ending_stop rest plain
  have flagged : { ({} : Directive) with
      altfmt := false || .alternate ∈ s.flags
      ladjust := false || .left ∈ s.flags
      plusSign := if .plus ∈ s.flags then chr '+' else
        if (0 : BitVec 8) = 0 ∧ .blank ∈ s.flags then chr ' ' else 0
      padc := if s.zero then chr '0' else chr ' ' } = s.flagged := by
    simp only [Specification.flagged, Bool.false_or, true_and]
  rw [Directive.parse, shape, flags_characters stop]
  dsimp only
  rw [zeroPad_characters plain rfl]
  dsimp only
  rw [width_characters plain.width rfl (limits_stop plain)]
  dsimp only
  rw [limits, dot_characters plain.precision noAmount noDot]
  dsimp only
  rw [long_characters plain, flagged]
  rfl

end Specification

variable {strings : Strings} {radix : Word}

/-- `_doprnt` prints the pieces of a format in their order, each with the arguments that the
pieces before it have left. -/
theorem doprnt_pieces {pieces : List Piece} (plain : ∀ piece ∈ pieces, piece.Plain) :
    doprnt strings radix (pieces.flatMap Piece.characters) args =
      Piece.print strings radix pieces args := by
  induction pieces generalizing args with
  | nil => exact doprnt_nil
  | cons piece pieces ih =>
      have first : piece.Plain := plain piece (List.mem_cons_self ..)
      have others := fun later member => plain later (List.mem_cons_of_mem _ member)
      cases piece with
      | text c =>
        rw [List.flatMap_cons, Piece.characters, List.singleton_append, doprnt_text first, ih others,
          Piece.print]
      | directive s =>
        rw [List.flatMap_cons, Piece.characters, List.cons_append,
          doprnt_directive (Specification.parse_characters first), Piece.print]
        simp only [ih others]

/-- A width from the arguments and a precision in the format. -/
theorem doprnt_pieces_width :
    doprnt (fun _ => []) 0 ([.text (chr '['), .directive ⟨[.left], false, some .argument,
        some (some (.digits [3])), false, chr 'd'⟩].flatMap Piece.characters) (fun _ => -5) =
      Piece.print (fun _ => []) 0 [.text (chr '['), .directive ⟨[.left], false, some .argument,
        some (some (.digits [3])), false, chr 'd'⟩] (fun _ => -5) := by
  apply doprnt_pieces
  intro piece member
  rcases List.mem_cons.mp member with rfl | member
  · exact (by decide : chr '[' ≠ chr '%')
  · rw [List.mem_singleton.mp member]
    refine ⟨by decide, ?_, ?_, ?_⟩
    · intro amount same
      cases same
      trivial
    · intro _ ds same
      cases same
    · intro amount same
      cases same
      exact (by decide : [3] ≠ [] ∧ (∀ digit ∈ [3], digit < 10) ∧ value 10 0 [3] < 2 ^ 31)

end Parsing

section Text

variable {strings : Strings} {radix : Word} {fmt p : List (BitVec 8)} {args later : VaList}
  {d : Directive} {prec n : Int}

theorem stringCount_take : Directive.stringCount prec n p = n + (p.take (prec - n).toNat).length := by
  induction p generalizing n with
  | nil => simp [Directive.stringCount]
  | cons c p ih =>
      rw [Directive.stringCount]
      split
      · have more : (prec - n).toNat = (prec - (n + 1)).toNat + 1 := by omega
        rw [ih, more, List.take_succ_cons, List.length_cons]
        omega
      · have full : (prec - n).toNat = 0 := by omega
        rw [full]
        simp

/-- The loop counts the character on which it breaks off. -/
theorem stringChars_take : Directive.stringChars prec n p =
    (p.take (prec - n).toNat,
      n + (p.take (prec - n).toNat).length + if (prec - n).toNat < p.length then 1 else 0) := by
  induction p generalizing n with
  | nil => simp [Directive.stringChars]
  | cons c p ih =>
      rw [Directive.stringChars]
      split
      · have full : (prec - n).toNat = 0 := by omega
        rw [full]
        simp
      · have more : (prec - n).toNat = (prec - (n + 1)).toNat + 1 := by omega
        rw [ih, more, List.take_succ_cons, List.length_cons, List.length_cons]
        simp only [Nat.add_lt_add_iff_right, Prod.mk.injEq, true_and]
        omega

def Directive.limit (d : Directive) : Nat := (if d.prec = -1 then 0x7fffffff else d.prec).toNat

theorem Directive.string_eq : d.string p =
    List.replicate (if d.ladjust then 0 else (d.length - (p.take d.limit).length).toNat) (chr ' ') ++
      p.take d.limit ++
      List.replicate (if d.ladjust then (d.length - ((p.take d.limit).length +
        if d.limit < p.length then 1 else 0)).toNat else 0) (chr ' ') := by
  rw [Directive.string, stringCount_take, stringChars_take]
  dsimp only
  rw [Int.sub_zero, ← Directive.limit]
  cases d.ladjust with
  | false =>
    by_cases positive : 0 < d.length
    · simp [positive]
    · simp [positive]
      omega
  | true => simp

/-- A format that is one directive for a string prints the string up to the precision, in a field
that has the width unless a shortened string is adjusted to the left: then a blank is missing. -/
theorem doprnt_string (parsed : Directive.parse fmt args = (d, [chr 's'], later))
    (text : (if later 0 = 0 then [] else strings (later 0)) = p) :
    ∃ left right : Nat,
      doprnt strings radix (chr '%' :: fmt) args = .ok (List.replicate left (chr ' ') ++
        p.take d.limit ++ List.replicate right (chr ' ')) ∧
      (if d.ladjust then left = 0 else right = 0) ∧
      (((left + (p.take d.limit).length + right : Nat) : Int) =
          max d.length (p.take d.limit).length ↔
        ¬ (d.ladjust = true ∧ d.limit < p.length ∧ ((p.take d.limit).length : Int) < d.length)) ∧
      (d.ladjust = true ∧ d.limit < p.length ∧ ((p.take d.limit).length : Int) < d.length →
        ((left + (p.take d.limit).length + right : Nat) : Int) + 1 = d.length) := by
  have printed : doprnt strings radix (chr '%' :: fmt) args = .ok (d.string p) := by
    have letter : ¬ (chr 's' = chr 'b' ∨ chr 's' = chr 'B') ∧ chr 's' ≠ chr 'c' := by decide
    rw [doprnt_directive parsed, convert, if_neg letter.1, if_neg letter.2, if_pos rfl, text]
    change (doprnt strings radix [] _).map _ = _
    rw [doprnt_nil]
    exact congrArg Except.ok (List.append_nil _)
  refine ⟨_, _, printed.trans (congrArg Except.ok d.string_eq), ?_, ?_, ?_⟩
  · cases d.ladjust with
    | false => rfl
    | true => rfl
  · cases d.ladjust with
    | false =>
      refine iff_of_true ?_ fun short => Bool.false_ne_true short.1
      simp only [Bool.false_eq_true, if_false]
      omega
    | true =>
      simp only [if_true, true_and]
      by_cases cut : d.limit < p.length
      · simp only [cut, if_true, true_and]
        omega
      · simp only [cut, if_false, false_and, not_false_eq_true, iff_true]
        omega
  · rintro ⟨left, cut, short⟩
    simp only [left, if_true, cut]
    omega

/-- The string `abc` in `%-5.2s`. -/
theorem doprnt_string_cut :
    ∃ left right : Nat,
      doprnt (fun _ => [97, 98, 99]) 0 [chr '%', chr '-', chr '5', chr '.', chr '2', chr 's']
        (fun _ => 4096) = .ok (List.replicate left (chr ' ') ++
          List.take 2 [97, 98, 99] ++ List.replicate right (chr ' ')) ∧
      (if true then left = 0 else right = 0) ∧
      (((left + (List.take 2 [97, 98, 99]).length + right : Nat) : Int) =
          max 5 (List.take 2 [97, 98, 99]).length ↔
        ¬ (true = true ∧ 2 < [97, 98, 99].length ∧ ((List.take 2 [97, 98, 99]).length : Int) < 5)) ∧
      (true = true ∧ 2 < [97, 98, 99].length ∧ ((List.take 2 [97, 98, 99]).length : Int) < 5 →
        ((left + (List.take 2 [97, 98, 99]).length + right : Nat) : Int) + 1 = 5) := by
  have parsed : Directive.parse [chr '-', chr '5', chr '.', chr '2', chr 's'] (fun _ => (4096 : Word)) =
      ({ length := 5, prec := 2, ladjust := true }, [chr 's'], fun _ => 4096) := rfl
  exact doprnt_string (p := [97, 98, 99]) parsed rfl

end Text

section Bits

/-- The name of a bit, or of the bits from `low` to `high`, counted from one. -/
inductive BitName where
  | bit (number : BitVec 8) (name : List (BitVec 8))
  | field (high low : BitVec 8) (name : List (BitVec 8))

namespace BitName

def characters : BitName → List (BitVec 8)
  | bit number name => number :: name
  | field high low name => high :: low :: name

def Plain : BitName → Prop
  | bit number name =>
      1 ≤ number.toNat ∧ number.toNat ≤ 32 ∧ name ≠ [] ∧ ∀ c ∈ name, isName c = true
  | field high low name =>
      1 ≤ low.toNat ∧ low.toNat ≤ high.toNat ∧ high.toNat ≤ 32 ∧ ∀ c ∈ name, isName c = true

def fieldValue (u : Word) (high low : Nat) : Word := .ofNat 32 (u.toNat / 2 ^ (low - 1) % 2 ^ (high - low + 1))

def shown (u base : Word) : BitName → Option (List (BitVec 8))
  | bit number name => if u.getLsbD (number.toNat - 1) then some name else none
  | field high low name => some (name ++ written base (fieldValue u high.toNat low.toNat))

end BitName

def listed : Bool → List (List (BitVec 8)) → List (BitVec 8)
  | any, [] => if any then [chr '>'] else []
  | any, part :: parts => separator any :: part ++ listed true parts

variable {u base : Word} {c : BitVec 8} {name p : List (BitVec 8)} {any : Bool}

theorem bit_set {i : Nat} (inside : i < 32) : u &&& (1 : Word) <<< i ≠ 0 ↔ u.getLsbD i = true := by
  have table : ∀ i < 32, BitVec.twoPow 32 i ≠ 0 := by decide
  have power : (1 : Word) <<< i = BitVec.twoPow 32 i := (BitVec.twoPow_eq 32 i).symm
  rw [power, BitVec.and_twoPow]
  by_cases set : u.getLsbD i = true
  · rw [if_pos set]
    exact iff_of_true (table i inside) set
  · rw [if_neg set]
    exact iff_of_false (not_not.mpr rfl) set

theorem field_value {i j : Nat} (inside : j < 32) :
    u >>> i &&& ((2 : Word) <<< j - 1) = .ofNat 32 (u.toNat / 2 ^ i % 2 ^ (j + 1)) := by
  have table : ∀ j < 32, ((2 : Word) <<< j - 1).toNat = 2 ^ (j + 1) - 1 := by decide
  apply BitVec.eq_of_toNat_eq
  rw [BitVec.toNat_and, table j inside, BitVec.toNat_ushiftRight, Nat.shiftRight_eq_div_pow,
    Nat.and_two_pow_sub_one_eq_mod, BitVec.toNat_ofNat]
  symm
  apply Nat.mod_eq_of_lt
  calc
    u.toNat / 2 ^ i % 2 ^ (j + 1) ≤ u.toNat / 2 ^ i := Nat.mod_le _ _
    _ ≤ u.toNat := Nat.div_le_self _ _
    _ < 2 ^ 32 := u.isLt

theorem takeWhile_name (names : ∀ c ∈ name, isName c = true)
    (control : ∀ c, p.head? = some c → isName c = false) :
    (name ++ p).takeWhile isName = name ∧ (name ++ p).dropWhile isName = p := by
  induction name with
  | nil =>
      cases p with
      | nil => exact ⟨rfl, rfl⟩
      | cons c p =>
          have stop : ¬ isName c = true := Bool.eq_false_iff.mp (control c rfl)
          exact ⟨List.takeWhile_cons_of_neg stop, List.dropWhile_cons_of_neg stop⟩
  | cons c name ih =>
      have first : isName c = true := names c (List.mem_cons_self ..)
      obtain ⟨taken, dropped⟩ := ih fun later member => names later (List.mem_cons_of_mem _ member)
      rw [List.cons_append, List.takeWhile_cons_of_pos first, List.dropWhile_cons_of_pos first, taken]
      exact ⟨rfl, dropped⟩

theorem control {number : BitVec 8} (small : number.toNat ≤ 32) :
    isName number = false ∧ number.toInt = number.toNat := by
  have same : number.toInt = number.toNat := BitVec.toInt_eq_toNat_of_lt (by omega)
  refine ⟨?_, same⟩
  rw [isName, same]
  exact decide_eq_false (by omega)

theorem names_head {names : List BitName} (plain : ∀ item ∈ names, item.Plain) :
    ∀ c, (names.flatMap BitName.characters).head? = some c → isName c = false := by
  intro c first
  cases names with
  | nil => cases first
  | cons item names =>
      have known := plain item (List.mem_cons_self ..)
      cases item with
      | bit number name =>
        cases first
        exact (control known.2.1).1
      | field high low name =>
        cases first
        exact (control known.2.2.1).1

theorem bitNames_listed {names : List BitName} (radix : Radix base)
    (plain : ∀ item ∈ names, item.Plain) :
    bitNames u base (names.flatMap BitName.characters) any =
      .ok (listed any (names.filterMap (BitName.shown u base))) := by
  induction names generalizing any with
  | nil => rw [List.flatMap_nil, bitNames]; rfl
  | cons item names ih =>
      have known := plain item (List.mem_cons_self ..)
      have others := fun later member => plain later (List.mem_cons_of_mem _ member)
      have stop := names_head others
      rw [List.flatMap_cons]
      cases item with
      | bit number name =>
        obtain ⟨least, most, nonempty, letters⟩ := known
        obtain ⟨c, name, rfl⟩ := List.exists_cons_of_ne_nil nonempty
        obtain ⟨taken, dropped⟩ := takeWhile_name letters stop
        have letter : isName c = true := letters c (List.mem_cons_self ..)
        have same := (control most).2
        have place : (number.toInt - 1).toNat = number.toNat - 1 := by omega
        have inside : 1 ≤ number.toInt ∧ number.toInt ≤ 32 := by omega
        have set := bit_set (u := u) (i := number.toNat - 1) (by omega)
        rw [BitName.characters, List.cons_append, List.cons_append, bitNames,
          if_neg (not_not.mpr letter), if_pos inside, place]
        rw [List.cons_append] at taken dropped
        rw [taken, dropped, List.filterMap_cons, BitName.shown]
        by_cases bit : u.getLsbD (number.toNat - 1) = true
        · rw [if_pos (set.mpr bit), if_pos bit, ih others]
          rfl
        · rw [if_neg fun shift => bit (set.mp shift), if_neg bit, ih others]
      | field high low name =>
        obtain ⟨least, order, most, letters⟩ := known
        obtain ⟨taken, dropped⟩ := takeWhile_name letters stop
        have bound := control (Nat.le_trans order most)
        have same := (control most).2
        have same' := bound.2
        have inside : 1 ≤ low.toInt ∧ low.toInt ≤ 32 ∧ low.toInt ≤ high.toInt ∧
            high.toInt - low.toInt < 32 := by omega
        have place : (low.toInt - 1).toNat = low.toNat - 1 := by omega
        have size : (high.toInt - low.toInt).toNat = high.toNat - low.toNat := by omega
        have value := field_value (u := u) (i := low.toNat - 1) (j := high.toNat - low.toNat) (by omega)
        rw [BitName.characters, List.cons_append, List.cons_append, bitNames,
          if_pos (Bool.eq_false_iff.mp bound.1), if_pos inside, place, size, value, taken, dropped]
        dsimp only
        rw [printnum_written radix, ih others]
        simp [BitName.shown, listed, BitName.fieldValue, bind, Except.bind]

theorem printBits_listed {first : BitVec 8} {names : List BitName}
    (radix : Radix (first.signExtend 32)) (plain : ∀ item ∈ names, item.Plain) :
    printBits u (first :: names.flatMap BitName.characters) =
      .ok (written (first.signExtend 32) u ++ if u = 0 then [] else
        listed false (names.filterMap (BitName.shown u (first.signExtend 32)))) := by
  rw [printBits, List.headD_cons, printnum_written radix]
  by_cases zero : u = 0
  · rw [if_pos zero, List.append_nil]
    exact if_pos zero
  · rw [if_neg zero, List.tail_cons, bitNames_listed radix plain]
    exact if_neg zero

variable {strings : Strings} {radix : Word} {fmt : List (BitVec 8)} {args later : VaList}
  {d : Directive}

/-- The conversion `b` prints a number, and between `<` and `>` the names of the bits that are set
in it and the values of its fields, in the order of the string that describes them. -/
theorem doprnt_bits {first : BitVec 8} {names : List BitName} (letter : c = chr 'b' ∨ c = chr 'B')
    (parsed : Directive.parse fmt args = (d, [c], later))
    (description : strings (later 1) = first :: names.flatMap BitName.characters)
    (inRange : Radix (first.signExtend 32)) (plain : ∀ item ∈ names, item.Plain) :
    doprnt strings radix (chr '%' :: fmt) args =
      .ok (written (first.signExtend 32) (later 0) ++ if later 0 = 0 then [] else
        listed false (names.filterMap (BitName.shown (later 0) (first.signExtend 32)))) := by
  rw [doprnt_directive parsed, convert, if_pos letter, description, printBits_listed inRange plain]
  change (doprnt strings radix [] _).map _ = _
  rw [doprnt_nil]
  exact congrArg Except.ok (List.append_nil _)

/-- A field and two bits of a number that is printed in hexadecimal. -/
theorem doprnt_bits_fields :
    doprnt (fun _ => 16 :: [.field 4 3 [70, 61], .bit 2 [84], .bit 1 [79]].flatMap BitName.characters)
        0 [chr '%', chr 'b'] (fun _ => 11) =
      .ok (written ((16 : BitVec 8).signExtend 32) 11 ++ if (11 : Word) = 0 then [] else
        listed false ([.field 4 3 [70, 61], .bit 2 [84], .bit 1 [79]].filterMap
          (BitName.shown 11 ((16 : BitVec 8).signExtend 32)))) := by
  have parsed : Directive.parse [chr 'b'] (fun _ => (11 : Word)) = ({}, [chr 'b'], fun _ => 11) := rfl
  apply doprnt_bits (.inl rfl) parsed rfl (by decide)
  intro item member
  simp only [List.mem_cons, List.not_mem_nil, or_false] at member
  rcases member with rfl | rfl | rfl
  · exact (by decide : 1 ≤ (3 : BitVec 8).toNat ∧ (3 : BitVec 8).toNat ≤ (4 : BitVec 8).toNat ∧
      (4 : BitVec 8).toNat ≤ 32 ∧ ∀ c ∈ [(70 : BitVec 8), 61], isName c = true)
  · exact (by decide : 1 ≤ (2 : BitVec 8).toNat ∧ (2 : BitVec 8).toNat ≤ 32 ∧
      [(84 : BitVec 8)] ≠ [] ∧ ∀ c ∈ [(84 : BitVec 8)], isName c = true)
  · exact (by decide : 1 ≤ (1 : BitVec 8).toNat ∧ (1 : BitVec 8).toNat ≤ 32 ∧
      [(79 : BitVec 8)] ≠ [] ∧ ∀ c ∈ [(79 : BitVec 8)], isName c = true)

end Bits

end IntelX86Kernel

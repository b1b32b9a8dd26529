import Mathlib.Data.List.Basic

/-! Text in which a symbol may stand for a run of itself, with a mark and a count behind it.
Nothing here depends on a program. -/

namespace RunLength

/-- The mark of a run, what the counts mean, and which symbols and counts are written. -/
structure Coding (α : Type) where
  mark : α
  count : α → Nat
  Symbol : α → Prop
  Count : α → Prop
  noMark : ¬ Symbol mark

variable {α : Type} {k : Coding α} {c : α} {coded coded' text text' : List α}

/-- The written text and the text that it stands for. -/
inductive Coding.Spells (k : Coding α) : List α → List α → Prop
  | nil : k.Spells [] []
  | once {c : α} {coded text : List α} (symbol : k.Symbol c) (rest : k.Spells coded text) :
      k.Spells (c :: coded) (c :: text)
  | run {c n : α} {coded text : List α} (symbol : k.Symbol c) (count : k.Count n)
      (rest : k.Spells coded text) :
      k.Spells (c :: k.mark :: n :: coded) (List.replicate (k.count n) c ++ text)

theorem Coding.Spells.head (spells : k.Spells coded text) : coded.head? ≠ some k.mark := by
  intro first
  cases spells with
  | nil => cases first
  | once symbol rest =>
      rw [Option.some.inj first] at symbol
      exact k.noMark symbol
  | run symbol count rest =>
      rw [Option.some.inj first] at symbol
      exact k.noMark symbol

section Expand

variable [DecidableEq α]

def Coding.expand (k : Coding α) : List α → List α
  | c :: d :: n :: rest =>
      if d = k.mark then List.replicate (k.count n) c ++ k.expand rest
      else c :: k.expand (d :: n :: rest)
  | rest => rest

theorem expand_cons (plain : coded.head? ≠ some k.mark) :
    k.expand (c :: coded) = c :: k.expand coded := by
  cases coded with
  | nil => rfl
  | cons d rest =>
      have other : d ≠ k.mark := fun same => plain (congrArg some same)
      cases rest with
      | nil => rfl
      | cons n rest => rw [Coding.expand, if_neg other]

theorem expand_run {n : α} :
    k.expand (c :: k.mark :: n :: coded) = List.replicate (k.count n) c ++ k.expand coded := by
  rw [Coding.expand, if_pos rfl]

theorem Coding.Spells.expand (spells : k.Spells coded text) : k.expand coded = text := by
  induction spells with
  | nil => rfl
  | once symbol rest ih => rw [expand_cons rest.head, ih]
  | run symbol count rest ih => rw [expand_run, ih]

end Expand

theorem Coding.Spells.append (spells : k.Spells coded text) (spells' : k.Spells coded' text') :
    k.Spells (coded ++ coded') (text ++ text') := by
  induction spells with
  | nil => exact spells'
  | once symbol rest ih => exact .once symbol ih
  | run symbol count rest ih =>
      rw [List.append_assoc]
      exact .run symbol count ih

theorem Coding.Spells.written (spells : k.Spells coded text) (member : c ∈ coded) :
    k.Symbol c ∨ c = k.mark ∨ k.Count c := by
  induction spells with
  | nil => cases member
  | once symbol rest ih =>
      rcases List.mem_cons.mp member with rfl | later
      · exact .inl symbol
      · exact ih later
  | run symbol count rest ih =>
      rcases List.mem_cons.mp member with rfl | member
      · exact .inl symbol
      · rcases List.mem_cons.mp member with rfl | member
        · exact .inr (.inl rfl)
        · rcases List.mem_cons.mp member with rfl | later
          · exact .inr (.inr count)
          · exact ih later

section Leading

variable [DecidableEq α]

def leading (c : α) : Nat → List α → Nat
  | 0, _ => 0
  | _ + 1, [] => 0
  | room + 1, d :: rest => if d = c then leading c room rest + 1 else 0

theorem leading_le (room : Nat) (rest : List α) : leading c room rest ≤ room := by
  induction room generalizing rest with
  | zero => exact Nat.le_of_eq rfl
  | succ room ih =>
      cases rest with
      | nil => exact Nat.zero_le _
      | cons d rest =>
          rw [leading]
          split
          · exact Nat.succ_le_succ (ih rest)
          · exact Nat.zero_le _

theorem leading_drop (room : Nat) (rest : List α) :
    List.replicate (leading c room rest) c ++ rest.drop (leading c room rest) = rest := by
  induction room generalizing rest with
  | zero => rfl
  | succ room ih =>
      cases rest with
      | nil => rfl
      | cons d rest =>
          rw [leading]
          split
          · rename_i same
            rw [List.replicate_succ, List.cons_append, List.drop_succ_cons, ih, same]
          · rfl

end Leading

end RunLength

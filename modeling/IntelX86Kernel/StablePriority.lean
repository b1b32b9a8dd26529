import Mathlib.Data.List.Sort
import Mathlib.Order.Defs.LinearOrder

/-! Stable priority queues: what was added, in that order, against a list in which the oldest
element of greatest priority is last. Nothing here depends on what the elements are. -/

namespace StablePriority

variable {α P : Type} [LinearOrder P] {key key' : α → P} {e : α} {arrivals l init : List α}

/-- The list is in order of priority, and among equals the latest arrival comes first. -/
structure Arranged (key : α → P) (arrivals l : List α) : Prop where
  perm : l.Perm arrivals
  sorted : l.Pairwise fun x y => key x ≤ key y
  stable : ∀ v, (l.filter fun x => decide (key x = v)).reverse =
    arrivals.filter fun x => decide (key x = v)

def OldestGreatest (key : α → P) (arrivals : List α) (e : α) : Prop :=
  (∀ x ∈ arrivals, key x ≤ key e) ∧
    ∃ older newer, arrivals = older ++ e :: newer ∧ ∀ x ∈ older, key x < key e

theorem Arranged.nil : Arranged key [] [] :=
  ⟨.refl _, .nil, fun _ => rfl⟩

def place (key : α → P) (e : α) (l : List α) : List α :=
  l.orderedInsert (fun x y => key x ≤ key y) e

theorem mem_place {x : α} : x ∈ place key e l ↔ x = e ∨ x ∈ l :=
  List.mem_orderedInsert _

theorem filter_place {v : P} : (place key e l).filter (fun x => decide (key x = v)) =
    if key e = v then e :: l.filter (fun x => decide (key x = v))
    else l.filter fun x => decide (key x = v) := by
  induction l with
  | nil => by_cases equal : key e = v <;> simp [place, equal]
  | cons y rest ih =>
      rw [place, List.orderedInsert_cons]
      split
      · by_cases equal : key e = v <;> simp [equal]
      · next above =>
        change (y :: place key e rest).filter _ = _
        rw [List.filter_cons, ih, List.filter_cons]
        by_cases equal : key e = v
        · have other : key y ≠ v := fun same => above (equal.trans same.symm).le
          simp [equal, other]
        · simp [equal]

theorem Arranged.add (arranged : Arranged key arrivals l) :
    Arranged key (arrivals ++ [e]) (place key e l) := by
  constructor
  · have front := (List.perm_orderedInsert (fun x y => key x ≤ key y) e l).trans
      (arranged.perm.cons e)
    exact front.trans (List.perm_append_singleton e arrivals).symm
  · have total : Std.Total fun x y => key x ≤ key y := ⟨fun x y => le_total _ _⟩
    have trans : IsTrans α fun x y => key x ≤ key y := ⟨fun x y z => le_trans⟩
    exact List.Pairwise.orderedInsert e l arranged.sorted
  · intro v
    rw [filter_place, List.filter_append, ← arranged.stable v]
    by_cases equal : key e = v <;> simp [equal]

theorem Arranged.erase [DecidableEq α] (arranged : Arranged key arrivals l)
    (nodup : arrivals.Nodup) : Arranged key (arrivals.erase e) (l.erase e) := by
  constructor
  · exact arranged.perm.erase e
  · exact arranged.sorted.sublist List.erase_sublist
  · intro v
    have distinct : l.Nodup := arranged.perm.nodup_iff.mpr nodup
    have same := arranged.stable v
    rw [← List.filter_reverse] at same ⊢
    rw [distinct.erase_eq_filter, nodup.erase_eq_filter, ← List.filter_reverse,
      List.filter_comm, same, List.filter_comm]

theorem Arranged.last (arranged : Arranged key arrivals (init ++ [e])) :
    OldestGreatest key arrivals e := by
  constructor
  · intro x member
    rw [← arranged.perm.mem_iff, List.mem_append, List.mem_singleton] at member
    rcases member with front | rfl
    · obtain ⟨-, -, below⟩ := List.pairwise_append.mp arranged.sorted
      exact below x front e (List.mem_singleton.mpr rfl)
    · exact le_rfl
  · have same := arranged.stable (key e)
    rw [List.filter_append, List.reverse_append] at same
    simp only [List.filter_cons, List.filter_nil, decide_true, if_true, List.reverse_cons,
      List.reverse_nil, List.nil_append, List.cons_append] at same
    obtain ⟨older, newer, split, none, -, -⟩ := List.filter_eq_cons_iff.mp same.symm
    refine ⟨older, newer, split, fun x member => ?_⟩
    have different := none x member
    have inside : x ∈ init ++ [e] := by
      rw [arranged.perm.mem_iff, split]
      exact List.mem_append_left _ member
    rw [List.mem_append, List.mem_singleton] at inside
    rcases inside with front | rfl
    · obtain ⟨-, -, below⟩ := List.pairwise_append.mp arranged.sorted
      have le := below x front e (List.mem_singleton.mpr rfl)
      exact lt_of_le_of_ne le fun equal => different (by simpa using equal)
    · simp at different

theorem Arranged.congr (arranged : Arranged key arrivals l)
    (same : ∀ x ∈ arrivals, key' x = key x) : Arranged key' arrivals l := by
  have same' : ∀ x ∈ l, key' x = key x := fun x member =>
    same x (arranged.perm.mem_iff.mp member)
  constructor
  · exact arranged.perm
  · apply arranged.sorted.imp_of_mem
    intro x y left right below
    rw [same' x left, same' y right]
    exact below
  · intro v
    have first : l.filter (fun x => decide (key' x = v)) =
        l.filter fun x => decide (key x = v) :=
      List.filter_congr fun x member => by rw [same' x member]
    have second : arrivals.filter (fun x => decide (key' x = v)) =
        arrivals.filter fun x => decide (key x = v) :=
      List.filter_congr fun x member => by rw [same x member]
    rw [first, second, arranged.stable v]

end StablePriority

import Mathlib.Data.List.Nodup
import Mathlib.Logic.Function.Basic

/-! Circular doubly linked lists, given by their two pointer fields and a head.

Nothing here depends on what the nodes are. -/

namespace DoublyLinked

variable {α : Type} {f g prev next : α → α} {a b c x y head : α} {l pre post : List α}

def Path (f : α → α) : α → List α → α → Prop
  | a, [], b => f a = b
  | a, x :: rest, b => f a = x ∧ Path f x rest b

theorem path_append : Path f a (pre ++ x :: post) b ↔ Path f a pre x ∧ Path f x post b := by
  induction pre generalizing a with
  | nil => rfl
  | cons y pre ih => simp [Path, ih, and_assoc]

theorem Path.congr (same : ∀ x ∈ a :: l, g x = f x) (path : Path f a l b) : Path g a l b := by
  induction l generalizing a with
  | nil => exact (same a List.mem_cons_self).trans path
  | cons x rest ih =>
      obtain ⟨first, path⟩ := path
      have step := (same a List.mem_cons_self).trans first
      exact ⟨step, ih (fun y member => same y (List.mem_cons_of_mem _ member)) path⟩

theorem getLastD_mem : l.getLastD a ∈ a :: l := by
  induction l generalizing a with
  | nil => exact List.mem_cons_self
  | cons x rest ih =>
      rw [List.getLastD_cons]
      exact List.mem_cons_of_mem _ ih

theorem headD_mem : l.headD a ∈ a :: l := by
  cases l with
  | nil => exact List.mem_cons_self
  | cons x rest => exact List.mem_cons_of_mem _ List.mem_cons_self

theorem getLastD_mem_append : pre.getLastD a ∈ a :: (pre ++ post) :=
  List.cons_subset_cons _ (List.subset_append_left _ _) getLastD_mem

theorem headD_mem_append : post.headD a ∈ a :: (pre ++ post) :=
  List.cons_subset_cons _ (List.subset_append_right _ _) headD_mem

theorem Path.last (path : Path f a l b) : f (l.getLastD a) = b := by
  induction l generalizing a with
  | nil => exact path
  | cons x rest ih =>
      rw [List.getLastD_cons]
      exact ih path.2

theorem Path.mem (path : Path f a l b) (member : x ∈ a :: l) : f x ∈ b :: l := by
  induction l generalizing a with
  | nil =>
      rw [List.mem_singleton.mp member, show f a = b from path]
      exact List.mem_cons_self
  | cons y rest ih =>
      obtain ⟨first, path⟩ := path
      rcases List.mem_cons.mp member with rfl | inside
      · rw [first]
        exact List.mem_cons_of_mem _ List.mem_cons_self
      · rcases List.mem_cons.mp (ih path inside) with same | further
        · exact List.mem_cons.mpr (.inl same)
        · exact List.mem_cons_of_mem _ (List.mem_cons_of_mem _ further)

theorem Path.redirect [DecidableEq α] (nodup : (a :: l).Nodup) (path : Path f a l b) :
    Path (Function.update f (l.getLastD a) c) a l c := by
  induction l generalizing a with
  | nil => exact Function.update_self ..
  | cons x rest ih =>
      obtain ⟨first, path⟩ := path
      obtain ⟨fresh, nodup⟩ := List.nodup_cons.mp nodup
      rw [List.getLastD_cons]
      have other : a ≠ rest.getLastD x := fun same => fresh (same ▸ getLastD_mem)
      exact ⟨(Function.update_of_ne other _ _).trans first, ih nodup path⟩

theorem Path.split (path : Path f a (pre ++ post) b) :
    Path f a pre (post.headD b) ∧ (post = [] ∨ Path f (post.headD b) post.tail b) := by
  cases post with
  | nil =>
      rw [List.append_nil] at path
      exact ⟨path, .inl rfl⟩
  | cons y post =>
      obtain ⟨first, rest⟩ := path_append.mp path
      exact ⟨first, .inr rest⟩

theorem Path.insert [DecidableEq α] (nodup : (a :: (pre ++ post)).Nodup)
    (fresh : x ∉ a :: (pre ++ post)) (path : Path f a (pre ++ post) b) :
    Path (Function.update (Function.update f x (post.headD b)) (pre.getLastD a) x) a
      (pre ++ x :: post) b := by
  rw [← List.cons_append] at nodup fresh
  obtain ⟨first, rest⟩ := path.split
  obtain ⟨front, -, apart⟩ := List.nodup_append.mp nodup
  have outside := not_or.mp (mt List.mem_append.mpr fresh)
  have last : pre.getLastD a ≠ x := fun same => outside.1 (same ▸ getLastD_mem)
  apply path_append.mpr
  constructor
  · apply Path.redirect front
    apply first.congr
    intro y member
    have other : y ≠ x := fun same => outside.1 (same ▸ member)
    exact Function.update_of_ne other _ _
  · have here : Function.update (Function.update f x (post.headD b)) (pre.getLastD a) x x =
        post.headD b := by
      rw [Function.update_of_ne last.symm, Function.update_self]
    cases post with
    | nil => exact here
    | cons y post =>
        rcases rest with empty | rest
        · cases empty
        · refine ⟨here, rest.congr fun z member => ?_⟩
          have behind : z ≠ pre.getLastD a := (apart _ getLastD_mem z member).symm
          have other : z ≠ x := fun same => outside.2 (same ▸ member)
          rw [Function.update_of_ne behind, Function.update_of_ne other]

theorem Path.remove [DecidableEq α] (nodup : (a :: (pre ++ x :: post)).Nodup)
    (path : Path f a (pre ++ x :: post) b) :
    Path (Function.update f (pre.getLastD a) (f x)) a (pre ++ post) b := by
  rw [← List.cons_append] at nodup
  obtain ⟨first, rest⟩ := path_append.mp path
  obtain ⟨front, -, apart⟩ := List.nodup_append.mp nodup
  cases post with
  | nil =>
      rw [List.append_nil]
      exact (show f x = b from rest) ▸ first.redirect front
  | cons y post =>
      obtain ⟨here, rest⟩ := rest
      apply path_append.mpr
      constructor
      · rw [here]
        exact first.redirect front
      · apply rest.congr
        intro z member
        exact Function.update_of_ne
          (apart _ getLastD_mem z (List.mem_cons_of_mem _ member)).symm _ _

/-- Both fields visit the same nodes, each once, in opposite orders. -/
structure Circular (prev next : α → α) (head : α) (l : List α) : Prop where
  forward : Path next head l head
  backward : Path prev head l.reverse head
  nodup : (head :: l).Nodup

theorem getLastD_reverse : l.reverse.getLastD a = l.headD a := by
  cases l with
  | nil => rfl
  | cons x rest => simp

theorem headD_reverse : l.reverse.headD a = l.getLastD a := by
  rw [← getLastD_reverse, List.reverse_reverse]

theorem reverse_perm : (head :: (post.reverse ++ pre.reverse)).Perm (head :: (pre ++ post)) := by
  rw [← List.reverse_append]
  exact (List.reverse_perm _).cons head

theorem Circular.neighbours (circular : Circular prev next head (pre ++ post)) :
    next (pre.getLastD head) = post.headD head ∧ prev (post.headD head) = pre.getLastD head := by
  have backward := circular.backward
  rw [List.reverse_append] at backward
  have behind := backward.split.1.last
  rw [getLastD_reverse, headD_reverse] at behind
  exact ⟨circular.forward.split.1.last, behind⟩

theorem Circular.prev_mem (circular : Circular prev next head l) (member : x ∈ head :: l) :
    prev x ∈ head :: l := by
  have inside : x ∈ head :: l.reverse := by simpa using member
  simpa using circular.backward.mem inside

theorem mem_middle (member : a ∈ head :: (pre ++ post)) : a ∈ head :: (pre ++ x :: post) :=
  List.cons_subset_cons _ (List.Sublist.append_left (List.sublist_cons_self x post) pre).subset
    member

theorem Circular.around (circular : Circular prev next head (pre ++ x :: post)) :
    prev x = pre.getLastD head ∧ next x = post.headD head := by
  have front := circular.neighbours
  have all : pre ++ x :: post = (pre ++ [x]) ++ post := by simp
  rw [all] at circular
  have behind := circular.neighbours.1
  rw [List.getLastD_concat] at behind
  exact ⟨front.2, behind⟩

theorem Circular.fresh (circular : Circular prev next head (pre ++ x :: post)) :
    x ∉ head :: (pre ++ post) := by
  have nodup := circular.nodup
  rw [← List.cons_append, List.perm_middle.nodup_iff, List.cons_append, List.nodup_cons] at nodup
  exact nodup.1

theorem Circular.insert [DecidableEq α] (circular : Circular prev next head (pre ++ post))
    (fresh : x ∉ head :: (pre ++ post)) :
    Circular (Function.update (Function.update prev x (pre.getLastD head)) (post.headD head) x)
      (Function.update (Function.update next x (post.headD head)) (pre.getLastD head) x) head
      (pre ++ x :: post) := by
  constructor
  · exact circular.forward.insert circular.nodup fresh
  · have backward := circular.backward
    rw [List.reverse_append] at backward
    have outside := mt reverse_perm.mem_iff.mp fresh
    have path := backward.insert (reverse_perm.nodup_iff.mpr circular.nodup) outside
    rw [headD_reverse, getLastD_reverse] at path
    simpa using path
  · have nodup := circular.nodup
    simp only [List.nodup_cons, List.mem_append, List.mem_cons, not_or] at nodup fresh ⊢
    refine ⟨⟨nodup.1.1, Ne.symm fresh.1, nodup.1.2⟩, ?_⟩
    rw [List.nodup_middle, List.nodup_cons]
    exact ⟨by simpa using fresh.2, nodup.2⟩

theorem Circular.remove [DecidableEq α] (circular : Circular prev next head (pre ++ x :: post)) :
    Circular (Function.update prev (post.headD head) (prev x))
      (Function.update next (pre.getLastD head) (next x)) head (pre ++ post) := by
  constructor
  · exact circular.forward.remove circular.nodup
  · have backward := circular.backward
    have nodup : (head :: (post.reverse ++ x :: pre.reverse)).Nodup := by
      have all := reverse_perm.nodup_iff.mpr circular.nodup
      simpa using all
    have reverse : (pre ++ x :: post).reverse = post.reverse ++ x :: pre.reverse := by simp
    rw [reverse] at backward
    have path := backward.remove nodup
    rw [getLastD_reverse] at path
    simpa using path
  · exact circular.nodup.sublist (List.Sublist.cons_cons _
      (List.Sublist.append_left (List.sublist_cons_self x post) pre))

theorem Circular.congr {prev' next' : α → α} (circular : Circular prev next head l)
    (same : ∀ x ∈ head :: l, prev' x = prev x ∧ next' x = next x) :
    Circular prev' next' head l := by
  constructor
  · exact circular.forward.congr fun x member => (same x member).2
  · apply circular.backward.congr
    intro x member
    rw [List.mem_cons, List.mem_reverse, ← List.mem_cons] at member
    exact (same x member).1
  · exact circular.nodup

theorem circular_nil (forward : next head = head) (backward : prev head = head) :
    Circular prev next head [] :=
  ⟨forward, backward, by simp⟩

end DoublyLinked

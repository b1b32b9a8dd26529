import Mathlib.Data.List.Nodup
import Mathlib.Logic.Relation
import Mathlib.Order.Basic

/-! Forests given by lists of children, and their traversal.

A child has a greater number than its parent, so that every walk down comes to an end. -/

namespace Forest

variable {children : Nat → List Nat} {bound fuel a b c : Nat}

structure Ordered (children : Nat → List Nat) (bound : Nat) : Prop where
  younger : ∀ {b c}, c ∈ children b → b < c ∧ c < bound
  nodup : ∀ b, (children b).Nodup
  unique : ∀ {a b c}, c ∈ children a → c ∈ children b → a = b

abbrev Descends (children : Nat → List Nat) : Nat → Nat → Prop :=
  Relation.ReflTransGen fun b c => c ∈ children b

def preorder (children : Nat → List Nat) : Nat → Nat → List Nat
  | 0, _ => []
  | fuel + 1, a => a :: (children a).flatMap (preorder children fuel)

theorem Ordered.le (ordered : Ordered children bound) (descends : Descends children a c) :
    a ≤ c := by
  induction descends with
  | refl => exact Nat.le_refl _
  | tail _ child ih => exact Nat.le_trans ih (Nat.le_of_lt (ordered.younger child).1)

theorem Ordered.linear (ordered : Ordered children bound) (first : Descends children a c)
    (second : Descends children b c) : Descends children a b ∨ Descends children b a := by
  induction first with
  | refl => exact .inr second
  | @tail d c first child ih =>
      rcases Relation.ReflTransGen.cases_tail second with same | ⟨e, second, child'⟩
      · subst same
        exact .inl (first.tail child)
      · obtain rfl := ordered.unique child child'
        exact ih second

theorem Ordered.siblings (ordered : Ordered children bound) (left : b ∈ children a)
    (right : c ∈ children a) (descends : Descends children b c) : b = c := by
  rcases Relation.ReflTransGen.cases_tail descends with same | ⟨d, descends, child⟩
  · exact same.symm
  · obtain rfl := ordered.unique right child
    have up := ordered.le descends
    exact absurd (ordered.younger left).1 (Nat.not_lt.mpr up)

theorem mem_preorder (ordered : Ordered children bound) (enough : bound ≤ a + fuel)
    (inside : a < bound) : c ∈ preorder children fuel a ↔ Descends children a c := by
  induction fuel generalizing a with
  | zero => exact absurd inside (Nat.not_lt.mpr enough)
  | succ fuel ih =>
      have below (b : Nat) (child : b ∈ children a) :
          c ∈ preorder children fuel b ↔ Descends children b c := by
        obtain ⟨younger, used⟩ := ordered.younger child
        exact ih (by omega) used
      rw [preorder, List.mem_cons, List.mem_flatMap]
      constructor
      · rintro (same | ⟨b, child, visited⟩)
        · subst same
          exact .refl
        · have descends := (below b child).mp visited
          exact .head child descends
      · intro descends
        rcases Relation.ReflTransGen.cases_head descends with same | ⟨b, child, descends⟩
        · exact .inl same.symm
        · exact .inr ⟨b, child, (below b child).mpr descends⟩

theorem preorder_nodup (ordered : Ordered children bound) (enough : bound ≤ a + fuel)
    (inside : a < bound) : (preorder children fuel a).Nodup := by
  induction fuel generalizing a with
  | zero => exact absurd inside (Nat.not_lt.mpr enough)
  | succ fuel ih =>
      have deeper (b : Nat) (child : b ∈ children a) : bound ≤ b + fuel ∧ b < bound := by
        obtain ⟨younger, used⟩ := ordered.younger child
        exact ⟨by omega, used⟩
      have visited (b c : Nat) (child : b ∈ children a) (member : c ∈ preorder children fuel b) :
          Descends children b c :=
        (mem_preorder ordered (deeper b child).1 (deeper b child).2).mp member
      refine List.nodup_cons.mpr ⟨fun again => ?_, List.nodup_flatMap.mpr ⟨fun b child => ?_, ?_⟩⟩
      · obtain ⟨b, child, member⟩ := List.mem_flatMap.mp again
        have up := ordered.le (visited b a child member)
        exact absurd (ordered.younger child).1 (Nat.not_lt.mpr up)
      · exact ih (deeper b child).1 (deeper b child).2
      · refine List.Pairwise.imp_of_mem ?_ (ordered.nodup a)
        intro b c left right apart d first second
        have one := visited b d left first
        have two := visited c d right second
        rcases ordered.linear one two with down | down
        · exact apart (ordered.siblings left right down)
        · exact apart (ordered.siblings right left down).symm

/-- Where every node of a kind but the root has a parent of this kind, the root is
above all of them. -/
theorem descends_root {kind : Nat → Prop} (root : Nat)
    (held : ∀ c, kind c → c ≠ root → ∃ b, b < c ∧ kind b ∧ c ∈ children b) (c : Nat)
    (here : kind c) : Descends children root c := by
  induction c using Nat.strongRecOn with
  | _ c ih =>
      by_cases same : c = root
      · subst same
        exact .refl
      · obtain ⟨b, less, above, child⟩ := held c here same
        exact (ih b less above).tail child

end Forest

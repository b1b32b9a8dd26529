import Mathlib.Data.List.Sort

/-! Lists that are in order but for one stray element: before it and after it they are.

Keys may change at the stray, and it need not fit its neighbours. -/

/-- In order up to some point, where a stray may stand, and in order after that. -/
def NearlySorted {α β : Type} [LinearOrder β] (key : α → β) (stray : α → Prop) (l : List α) :
    Prop :=
  ∃ front back, l = front ++ back ∧ front.Pairwise (fun x y => key x ≤ key y) ∧
    (∀ x ∈ back.head?, stray x) ∧ back.tail.Pairwise fun x y => key x ≤ key y

namespace NearlySorted

variable {α β : Type} [LinearOrder β] {key key' : α → β} {stray stray' : α → Prop}
  {l front back : List α} {a z : α}

theorem of_sorted (sorted : l.Pairwise fun x y => key x ≤ key y) : NearlySorted key stray l := by
  refine ⟨l, [], (List.append_nil l).symm, sorted, ?_, .nil⟩
  simp

theorem sorted (nearly : NearlySorted key stray l) (none : ∀ x ∈ l, ¬ stray x) :
    l.Pairwise fun x y => key x ≤ key y := by
  obtain ⟨front, back, rfl, first, point, -⟩ := nearly
  cases back with
  | nil => simpa using first
  | cons x rest => exact absurd (point x rfl) (none x (by simp))

theorem imp (nearly : NearlySorted key stray l)
    (wider : ∀ x ∈ l, stray x → stray' x) : NearlySorted key stray' l := by
  obtain ⟨front, back, rfl, first, point, second⟩ := nearly
  refine ⟨front, back, rfl, first, ?_, second⟩
  intro x head
  exact wider x (List.mem_append_right _ (List.mem_of_mem_head? head)) (point x head)

theorem pairwise_keys (same : ∀ x ∈ l, key' x = key x)
    (sorted : l.Pairwise fun x y => key x ≤ key y) : l.Pairwise fun x y => key' x ≤ key' y := by
  apply sorted.imp_of_mem
  intro x y left right below
  rw [same x left, same y right]
  exact below

theorem congr (nearly : NearlySorted key stray l) (same : ∀ x ∈ l, key' x = key x) :
    NearlySorted key' stray l := by
  obtain ⟨front, back, rfl, first, point, second⟩ := nearly
  refine ⟨front, back, rfl, ?_, point, ?_⟩
  · exact pairwise_keys (fun x member => same x (List.mem_append_left _ member)) first
  · refine pairwise_keys (fun x member => ?_) second
    exact same x (List.mem_append_right _ (List.mem_of_mem_tail member))

theorem rekey (nearly : NearlySorted key stray l) (nodup : l.Nodup)
    (only : ∀ x ∈ l, stray x → x = z) (new : stray' z) (same : ∀ x, x ≠ z → key' x = key x) :
    NearlySorted key' stray' l := by
  have moved (part : List α) (absent : z ∉ part) (sorted : part.Pairwise fun x y => key x ≤ key y) :
      part.Pairwise fun x y => key' x ≤ key' y := by
    apply pairwise_keys _ sorted
    intro x member
    apply same
    rintro rfl
    exact absent member
  obtain ⟨front, back, rfl, first, point, second⟩ := nearly
  by_cases inside : z ∈ front
  · obtain ⟨before, after, rfl⟩ := List.append_of_mem inside
    have apart := List.nodup_append.mp nodup
    have distinct := List.nodup_middle.mp apart.1
    have absent := (List.nodup_cons.mp distinct).1
    have parts := List.pairwise_append.mp first
    cases back with
    | nil =>
        refine ⟨before, z :: after, by simp, ?_, ?_, ?_⟩
        · exact moved _ (fun member => absent (List.mem_append_left _ member)) parts.1
        · simpa using new
        · exact moved _ (fun member => absent (List.mem_append_right _ member))
            (List.pairwise_cons.mp parts.2.1).2
    | cons x rest =>
        have equal := only x (by simp) (point x rfl)
        exact absurd rfl (apart.2.2 z inside z (equal ▸ List.mem_cons_self))
  · cases back with
    | nil =>
        refine ⟨front, [], rfl, moved _ inside first, by simp, .nil⟩
    | cons x rest =>
        have equal := only x (by simp) (point x rfl)
        subst equal
        have distinct := (List.nodup_cons.mp (List.nodup_append.mp nodup).2.1).1
        refine ⟨front, x :: rest, rfl, moved _ inside first, ?_, moved _ distinct second⟩
        simpa using new

theorem orderedInsert_sorted (sorted : l.Pairwise fun x y => key x ≤ key y) :
    (l.orderedInsert (fun x y => key x ≤ key y) a).Pairwise fun x y => key x ≤ key y := by
  have total : Std.Total fun x y => key x ≤ key y := ⟨fun x y => le_total _ _⟩
  have trans : IsTrans α fun x y => key x ≤ key y := ⟨fun x y z => le_trans⟩
  exact List.Pairwise.orderedInsert a l sorted

theorem orderedInsert_append :
    (front ++ back).orderedInsert (fun x y => key x ≤ key y) a =
      if ∃ x ∈ front, key a ≤ key x then
        front.orderedInsert (fun x y => key x ≤ key y) a ++ back
      else front ++ back.orderedInsert (fun x y => key x ≤ key y) a := by
  induction front with
  | nil => simp
  | cons x rest ih =>
      by_cases stop : key a ≤ key x
      · simp [stop]
      · rw [List.cons_append, List.orderedInsert_cons, if_neg stop, ih,
          List.orderedInsert_cons, if_neg stop]
        by_cases later : ∃ y ∈ rest, key a ≤ key y
        · simp [later]
        · simp [later, stop]

theorem insert (nearly : NearlySorted key stray l) :
    NearlySorted key stray (l.orderedInsert (fun x y => key x ≤ key y) a) := by
  obtain ⟨front, back, rfl, first, point, second⟩ := nearly
  rw [orderedInsert_append]
  split
  · exact ⟨_, back, rfl, orderedInsert_sorted first, point, second⟩
  · next beyond =>
    have extended : (front ++ [a]).Pairwise fun x y => key x ≤ key y := by
      apply List.pairwise_append.mpr
      refine ⟨first, List.pairwise_singleton _ _, ?_⟩
      intro x left y right
      rw [List.mem_singleton.mp right]
      exact le_of_not_ge fun stop => beyond ⟨x, left, stop⟩
    cases back with
    | nil => exact ⟨front ++ [a], [], by simp, extended, by simp, .nil⟩
    | cons z rest =>
        rw [List.orderedInsert_cons]
        split
        · exact ⟨front ++ [a], z :: rest, by simp, extended, point, second⟩
        · exact ⟨front, z :: rest.orderedInsert _ a, rfl, first, point, orderedInsert_sorted second⟩

theorem erase [DecidableEq α] (nearly : NearlySorted key stray l)
    (other : ¬ stray a) : NearlySorted key stray (l.erase a) := by
  obtain ⟨front, back, rfl, first, point, second⟩ := nearly
  by_cases inside : a ∈ front
  · rw [List.erase_append_left _ inside]
    exact ⟨front.erase a, back, rfl, first.sublist List.erase_sublist, point, second⟩
  · rw [List.erase_append_right _ inside]
    cases back with
    | nil => exact ⟨front, [], by simp, first, by simp, .nil⟩
    | cons z rest =>
        have apart : z ≠ a := by
          rintro rfl
          exact other (point z rfl)
        rw [List.erase_cons_tail (by simpa using apart)]
        exact ⟨front, z :: rest.erase a, rfl, first, point, second.sublist List.erase_sublist⟩

theorem dropLast (nearly : NearlySorted key stray l) :
    NearlySorted key stray l.dropLast := by
  obtain ⟨front, back, rfl, first, point, second⟩ := nearly
  cases back with
  | nil =>
      apply of_sorted
      rw [List.append_nil]
      exact first.sublist (List.dropLast_sublist front)
  | cons z rest =>
      rw [List.dropLast_append_of_ne_nil (by simp)]
      cases rest with
      | nil =>
          apply of_sorted
          simpa using first
      | cons y rest =>
          refine ⟨front, z :: (y :: rest).dropLast, rfl, first, point, ?_⟩
          exact second.sublist (List.dropLast_sublist _)

end NearlySorted

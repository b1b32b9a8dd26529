import Mathlib.Data.List.Pairwise
import Mathlib.Order.Basic

/-! Finite maps whose keys are told apart by a comparator only. -/

structure Bindings (κ ν : Type) (same : κ → κ → Bool) where
  entries : List (κ × ν)
  distinct : entries.Pairwise fun first second => same first.1 second.1 = false

namespace Bindings

variable {κ ν : Type} {same : κ → κ → Bool} {key other : κ} {value : ν}

def empty : Bindings κ ν same := ⟨[], .nil⟩

def get (m : Bindings κ ν same) (key : κ) : Option ν :=
  (m.entries.find? fun entry => same entry.1 key).map Prod.snd

def size (m : Bindings κ ν same) : Nat := m.entries.length

def erase (m : Bindings κ ν same) (key : κ) : Bindings κ ν same where
  entries := m.entries.filter fun entry => !same entry.1 key
  distinct := m.distinct.sublist List.filter_sublist

abbrev Compares (same : κ → κ → Bool) : Prop := Equivalence fun a b => same a b = true

theorem Compares.comm (compares : Compares same) : same key other = same other key := by
  rw [Bool.eq_iff_iff]
  exact ⟨compares.symm, compares.symm⟩

theorem Compares.congr (compares : Compares same) (equal : same key other = true) (third : κ) :
    same key third = same other third := by
  rw [Bool.eq_iff_iff]
  exact ⟨compares.trans (compares.symm equal), compares.trans equal⟩

def insert (compares : Compares same) (m : Bindings κ ν same) (key : κ) (value : ν) :
    Bindings κ ν same where
  entries := (key, value) :: (m.erase key).entries
  distinct := by
    refine List.pairwise_cons.mpr ⟨fun entry kept => ?_, (m.erase key).distinct⟩
    have apart := (List.mem_filter.mp kept).2
    rw [Bool.not_eq_true'] at apart
    exact compares.comm.trans apart

theorem get_eq_some (compares : Compares same) (m : Bindings κ ν same) :
    m.get key = some value ↔ ∃ entry ∈ m.entries, same entry.1 key = true ∧ entry.2 = value := by
  obtain ⟨entries, distinct⟩ := m
  rw [get]
  induction entries with
  | nil => simp
  | cons entry rest ih =>
      obtain ⟨apart, distinct⟩ := List.pairwise_cons.mp distinct
      rw [List.find?_cons]
      cases found : same entry.1 key with
      | true =>
          simp only [Option.map_some, Option.some.injEq, List.mem_cons, exists_eq_or_imp, found,
            true_and]
          refine ⟨Or.inl, ?_⟩
          rintro (here | ⟨later, member, again, -⟩)
          · exact here
          · have equal := compares.trans found (compares.symm again)
            rw [apart later member] at equal
            cases equal
      | false =>
          simp only [List.mem_cons, exists_eq_or_imp, found, Bool.false_eq_true, false_and,
            false_or]
          exact ih distinct

theorem get_erase (compares : Compares same) (m : Bindings κ ν same) :
    (m.erase key).get other = if same key other = true then none else m.get other := by
  split
  · next equal =>
    rw [Option.eq_none_iff_forall_ne_some]
    intro value found
    obtain ⟨entry, kept, again, -⟩ := (get_eq_some compares _).mp found
    have apart := (List.mem_filter.mp kept).2
    rw [compares.comm, ← compares.congr equal, compares.comm] at again
    rw [again] at apart
    cases apart
  · next apart =>
    refine Option.ext fun value => ?_
    rw [get_eq_some compares, get_eq_some compares]
    refine exists_congr fun entry => ?_
    constructor
    · rintro ⟨kept, rest⟩
      exact ⟨(List.mem_filter.mp kept).1, rest⟩
    · rintro ⟨member, again, same'⟩
      refine ⟨List.mem_filter.mpr ⟨member, ?_⟩, again, same'⟩
      rw [Bool.not_eq_true', ← Bool.not_eq_true]
      exact fun equal => apart (compares.trans (compares.symm equal) again)

theorem get_insert (compares : Compares same) (m : Bindings κ ν same) :
    (m.insert compares key value).get other =
      if same key other = true then some value else m.get other := by
  rw [get, insert, List.find?_cons]
  dsimp only
  cases equal : same key other with
  | true => rfl
  | false =>
      have kept : (m.erase key).get other = _ := get_erase compares m
      rw [equal] at kept
      exact kept

theorem size_erase (compares : Compares same) (m : Bindings κ ν same) (key : κ) :
    (m.erase key).size + (if (m.get key).isSome then 1 else 0) = m.size := by
  obtain ⟨entries, distinct⟩ := m
  rw [size, erase, size, get]
  induction entries with
  | nil => rfl
  | cons entry rest ih =>
      obtain ⟨apart, distinct⟩ := List.pairwise_cons.mp distinct
      have before := ih distinct
      dsimp only at before ⊢
      rw [List.filter_cons, List.find?_cons]
      cases found : same entry.1 key with
      | true =>
          have none : rest.find? (fun entry => same entry.1 key) = none := by
            refine List.find?_eq_none.mpr fun later member again => ?_
            have equal := compares.trans found (compares.symm again)
            rw [apart later member] at equal
            cases equal
          rw [none] at before
          simpa using before
      | false =>
          simp only [Bool.not_false, if_true, List.length_cons]
          omega

theorem size_insert (compares : Compares same) (m : Bindings κ ν same) (key : κ) (value : ν) :
    (m.insert compares key value).size + (if (m.get key).isSome then 1 else 0) = m.size + 1 := by
  have erased := size_erase compares m key
  rw [size] at erased
  rw [size, insert, List.length_cons]
  omega

end Bindings

import IntelX86Kernel.Keyboard
import Mathlib.Tactic.IntervalCases

/-! The modifier keys of the keymaps, and how `compute_shiftstate` counts the ones that are down. -/

namespace IntelX86Kernel

/-- The keycodes of shift, AltGr, control and Alt, which have the same symbol in all keymaps. -/
def modifier (keycode : Nat) : Option Nat :=
  match keycode with
  | 42 | 54 => some 0
  | 100 => some 1
  | 29 | 97 => some 2
  | 56 => some 3
  | _ => none

def modifierKeys (v : Nat) : List Nat :=
  match v with
  | 0 => [42, 54]
  | 1 => [100]
  | 2 => [29, 97]
  | 3 => [56]
  | _ => []

def down (held : Nat → Bool) (v : Nat) : Nat := (modifierKeys v).countP held

def shiftBits (shift altgr ctrl alt : Bool) : BitVec 32 :=
  (if shift then 1 else 0) ||| (if altgr then 2 else 0) ||| (if ctrl then 4 else 0) |||
    (if alt then 8 else 0)

def shifts (count : Nat → Nat) : BitVec 32 :=
  shiftBits (count 0 ≠ 0) (count 1 ≠ 0) (count 2 ≠ 0) (count 3 ≠ 0)

theorem shifts_lt (count : Nat → Nat) : (shifts count).toNat < 16 := by
  have all : ∀ s g c a, (shiftBits s g c a).toNat < 16 := by decide
  exact all _ _ _ _

theorem modifier_lt {k v : Nat} (known : modifier k = some v) : v < 4 := by
  unfold modifier at known
  split at known <;> cases known <;> decide

theorem shifts_or (count count' : Nat → Nat) {v : Nat} (small : v < 4) (positive : count' v ≠ 0)
    (others : ∀ w, w ≠ v → count' w = count w) :
    shifts count ||| (1#32 <<< v) = shifts count' := by
  have all : ∀ s g c a, shiftBits s g c a ||| (1#32 <<< 0) = shiftBits true g c a ∧
      shiftBits s g c a ||| (1#32 <<< 1) = shiftBits s true c a ∧
      shiftBits s g c a ||| (1#32 <<< 2) = shiftBits s g true a ∧
      shiftBits s g c a ||| (1#32 <<< 3) = shiftBits s g c true := by decide
  have here := all (count 0 ≠ 0) (count 1 ≠ 0) (count 2 ≠ 0) (count 3 ≠ 0)
  have set : decide (count' v ≠ 0) = true := decide_eq_true positive
  rw [shifts, shifts]
  interval_cases v
  · rw [here.1, set, others 1 (by decide), others 2 (by decide), others 3 (by decide)]
  · rw [here.2.1, set, others 0 (by decide), others 2 (by decide), others 3 (by decide)]
  · rw [here.2.2.1, set, others 0 (by decide), others 1 (by decide), others 3 (by decide)]
  · rw [here.2.2.2, set, others 0 (by decide), others 1 (by decide), others 2 (by decide)]

theorem shifts_and (count count' : Nat → Nat) {v : Nat} (small : v < 4) (zero : count' v = 0)
    (others : ∀ w, w ≠ v → count' w = count w) :
    shifts count &&& ~~~(1#32 <<< v) = shifts count' := by
  have all : ∀ s g c a, shiftBits s g c a &&& ~~~(1#32 <<< 0) = shiftBits false g c a ∧
      shiftBits s g c a &&& ~~~(1#32 <<< 1) = shiftBits s false c a ∧
      shiftBits s g c a &&& ~~~(1#32 <<< 2) = shiftBits s g false a ∧
      shiftBits s g c a &&& ~~~(1#32 <<< 3) = shiftBits s g c false := by decide
  have here := all (count 0 ≠ 0) (count 1 ≠ 0) (count 2 ≠ 0) (count 3 ≠ 0)
  have clear : decide (count' v ≠ 0) = false := decide_eq_false (not_not.mpr zero)
  rw [shifts, shifts]
  interval_cases v
  · rw [here.1, clear, others 1 (by decide), others 2 (by decide), others 3 (by decide)]
  · rw [here.2.1, clear, others 0 (by decide), others 2 (by decide), others 3 (by decide)]
  · rw [here.2.2.1, clear, others 0 (by decide), others 1 (by decide), others 3 (by decide)]
  · rw [here.2.2.2, clear, others 0 (by decide), others 1 (by decide), others 2 (by decide)]

theorem shifts_getLsbD {count : Nat → Nat} {v : Nat} (small : v < 4) :
    (shifts count).getLsbD v = decide (count v ≠ 0) := by
  have all : ∀ s g c a, (shiftBits s g c a).getLsbD 0 = s ∧ (shiftBits s g c a).getLsbD 1 = g ∧
      (shiftBits s g c a).getLsbD 2 = c ∧ (shiftBits s g c a).getLsbD 3 = a := by decide
  have here := all (count 0 ≠ 0) (count 1 ≠ 0) (count 2 ≠ 0) (count 3 ≠ 0)
  interval_cases v
  · exact here.1
  · exact here.2.1
  · exact here.2.2.1
  · exact here.2.2.2

theorem shifts_congr {count count' : Nat → Nat} (same : ∀ v, count v = 0 ↔ count' v = 0) :
    shifts count = shifts count' := by
  have flags : ∀ v, decide (count v ≠ 0) = decide (count' v ≠ 0) := by
    intro v
    exact decide_eq_decide.mpr (not_congr (same v))
  rw [shifts, shifts, flags, flags, flags, flags]

theorem plainMap_modifier : ∀ k < 256,
    let sym := plainMap.symbol (BitVec.ofNat 8 k) ^^^ 0xf000#16
    (modifier k = none ∧ ¬ (KTYP sym = KT_SHIFT ∨ KTYP sym = KT_SLOCK)) ∨
      (KTYP sym = KT_SHIFT ∧ KVAL sym ≠ KG_CAPSSHIFT ∧ modifier k = some (KVAL sym).toNat) := by
  decide +kernel

namespace Keyboard

variable {keyboard : Keyboard} {k : Nat}

def among (keyboard : Keyboard) (keys : List Nat) (v : Nat) : Nat :=
  keys.countP fun k => keyboard.keyDown.getLsbD k ∧ modifier k = some v

def tallied (keyboard : Keyboard) (keys : List Nat) : Keyboard :=
  { keyboard with
    kDown := fun v => BitVec.ofNat 8 (keyboard.among keys v)
    shiftState := shifts (keyboard.among keys) }

theorem among_snoc (keys : List Nat) (v : Nat) :
    keyboard.among (keys ++ [k]) v = keyboard.among keys v +
      if keyboard.keyDown.getLsbD k ∧ modifier k = some v then 1 else 0 := by
  rw [among, List.countP_append, List.countP_singleton]
  simp [among]

theorem tallied_snoc_of_none (keys : List Nat)
    (none : ¬ keyboard.keyDown.getLsbD k ∨ modifier k = none) :
    keyboard.tallied (keys ++ [k]) = keyboard.tallied keys := by
  have same : keyboard.among (keys ++ [k]) = keyboard.among keys := by
    funext v
    rw [among_snoc, if_neg, Nat.add_zero]
    rintro ⟨held, known⟩
    rcases none with free | none
    · exact free held
    · rw [none] at known
      cases known
  rw [tallied, same, tallied]

theorem tallied_countKey (keys : List Nat) (small : k < 256)
    (held : keyboard.keyDown.getLsbD k) :
    (keyboard.tallied keys).countKey k = .ok (keyboard.tallied (keys ++ [k])) := by
  rcases plainMap_modifier k small with ⟨none, other⟩ | ⟨shift, plain, known⟩
  · rw [countKey, if_neg other, tallied_snoc_of_none keys (.inr none)]
  · generalize valueIs : KVAL (plainMap.symbol (BitVec.ofNat 8 k) ^^^ 0xf000#16) = value
      at plain known
    have below := modifier_lt known
    have fits : value.toNat < NR_SHIFT := Nat.lt_of_lt_of_le below (by decide)
    have count : keyboard.among (keys ++ [k]) =
        Function.update (keyboard.among keys) value.toNat (keyboard.among keys value.toNat + 1) := by
      funext v
      rw [among_snoc, known]
      by_cases same : v = value.toNat
      · rw [same, Function.update_self, if_pos ⟨held, rfl⟩]
      · rw [Function.update_of_ne same, if_neg, Nat.add_zero]
        rintro ⟨-, equal⟩
        exact same (Option.some.inj equal).symm
    have bits := shifts_or (keyboard.among keys) (keyboard.among (keys ++ [k])) below
      (by rw [count, Function.update_self]; exact Nat.succ_ne_zero _)
      (fun w apart => by rw [count, Function.update_of_ne apart])
    have counts : Function.update (keyboard.tallied keys).kDown value.toNat
        ((keyboard.tallied keys).kDown value.toNat + 1) = (keyboard.tallied (keys ++ [k])).kDown := by
      funext v
      change _ = BitVec.ofNat 8 (keyboard.among (keys ++ [k]) v)
      rw [count]
      by_cases same : v = value.toNat
      · rw [same, Function.update_self, Function.update_self]
        exact (BitVec.ofNat_add _ _).symm
      · rw [Function.update_of_ne same, Function.update_of_ne same]
        rfl
    simp only [countKey, if_pos (Or.inl shift), valueIs, if_neg plain, if_pos fits, counts]
    rw [show (keyboard.tallied keys).shiftState = shifts (keyboard.among keys) from rfl, bits]
    rfl

theorem tallied_keys (keyboard : Keyboard) (keys more : List Nat) (small : ∀ k ∈ more, k < 256) :
    more.foldlM (fun keyboard k =>
      if keyboard.keyDown.getLsbD k then keyboard.countKey k else .ok keyboard)
      (keyboard.tallied keys) = .ok (keyboard.tallied (keys ++ more)) := by
  induction more generalizing keys with
  | nil =>
      rw [List.append_nil]
      rfl
  | cons k more ih =>
      have rest := ih (keys ++ [k]) fun k' member => small k' (List.mem_cons_of_mem k member)
      rw [List.append_assoc, List.singleton_append] at rest
      have here : (if (keyboard.tallied keys).keyDown.getLsbD k
          then (keyboard.tallied keys).countKey k else .ok (keyboard.tallied keys)) =
          .ok (keyboard.tallied (keys ++ [k])) := by
        split
        · rename_i held
          exact tallied_countKey keys (small k List.mem_cons_self) held
        · rename_i free
          have free : ¬ keyboard.keyDown.getLsbD k := free
          rw [tallied_snoc_of_none keys (.inl free)]
      rw [List.foldlM_cons, here]
      exact rest

def wordKeys (i : Nat) : List Nat := (List.range 32).map (32 * i + ·)

theorem tallied_zero (keys : List Nat) {i : Nat} (zero : keyboard.keyDownWord i = 0) :
    keyboard.tallied (keys ++ wordKeys i) = keyboard.tallied keys := by
  have free : ∀ k ∈ wordKeys i, keyboard.keyDown.getLsbD k = false := by
    intro k member
    obtain ⟨j, inside, rfl⟩ := List.mem_map.mp member
    have bit := congrArg (BitVec.getLsbD · j) zero
    simpa [keyDownWord, List.mem_range.mp inside] using bit
  have same : keyboard.among (keys ++ wordKeys i) = keyboard.among keys := by
    funext v
    rw [among, among, List.countP_append, Nat.add_eq_left, List.countP_eq_zero]
    intro k member both
    rw [free k member] at both
    simp at both
  rw [tallied, same, tallied]

theorem tallied_words (keyboard : Keyboard) (keys words : List Nat) (small : ∀ i ∈ words, i < 8) :
    words.foldlM (fun keyboard i =>
      if keyboard.keyDownWord i ≠ 0 then
        (List.range 32).foldlM (fun keyboard j =>
          if keyboard.keyDown.getLsbD (32 * i + j) then keyboard.countKey (32 * i + j)
          else .ok keyboard) keyboard
      else .ok keyboard) (keyboard.tallied keys) =
        .ok (keyboard.tallied (keys ++ words.flatMap wordKeys)) := by
  induction words generalizing keys with
  | nil =>
      rw [List.flatMap_nil, List.append_nil]
      rfl
  | cons i words ih =>
      have rest := ih (keys ++ wordKeys i) fun i' member => small i' (List.mem_cons_of_mem i member)
      have below := small i List.mem_cons_self
      rw [List.append_assoc, ← List.flatMap_cons] at rest
      rw [List.foldlM_cons]
      by_cases zero : keyboard.keyDownWord i = 0
      · have word : (keyboard.tallied keys).keyDownWord i = 0 := zero
        rw [if_neg (not_not.mpr word)]
        rw [tallied_zero keys zero] at rest
        exact rest
      · have word : (keyboard.tallied keys).keyDownWord i ≠ 0 := zero
        have inner := keyboard.tallied_keys keys (wordKeys i) (by
          intro k member
          obtain ⟨j, inside, rfl⟩ := List.mem_map.mp member
          have short := List.mem_range.mp inside
          omega)
        rw [wordKeys, List.foldlM_map] at inner
        rw [if_pos word, inner]
        exact rest

def recounted (keyboard : Keyboard) : Keyboard :=
  { keyboard with
    kDown := fun v => BitVec.ofNat 8 (down keyboard.keyDown.getLsbD v)
    shiftState := shifts (down keyboard.keyDown.getLsbD) }

theorem filter_modifier (v : Nat) :
    ((List.range 8).flatMap wordKeys).filter (fun k => modifier k = some v) = modifierKeys v := by
  by_cases small : v < 4
  · have all : ∀ v < 4, ((List.range 8).flatMap wordKeys).filter (fun k => modifier k = some v) =
        modifierKeys v := by decide +kernel
    exact all v small
  · have none : modifierKeys v = [] := by
      unfold modifierKeys
      split <;> first | omega | rfl
    rw [none, List.filter_eq_nil_iff]
    intro k _ known
    exact small (modifier_lt (of_decide_eq_true known))

theorem computeShiftstate_recounted : keyboard.computeShiftstate = .ok keyboard.recounted := by
  have zero : keyboard.among [] = fun _ => 0 := rfl
  have start : { keyboard with shiftState := 0, kDown := fun _ => 0 } = keyboard.tallied [] := by
    rw [tallied, zero]
    rfl
  have run := keyboard.tallied_words [] (List.range 8) fun i => List.mem_range.mp
  have all : keyboard.among ((List.range 8).flatMap wordKeys) = down keyboard.keyDown.getLsbD := by
    funext v
    rw [down, ← filter_modifier, List.countP_filter]
    rw [among]
    congr
    funext k
    simp
  rw [computeShiftstate, start, run, List.nil_append, tallied, all, recounted]

end Keyboard

end IntelX86Kernel

import IntelX86Kernel.KeyboardRuns
import Mathlib.Data.Finset.Basic

/-! The keyboard as its user sees it, by the keys that are held, and the driver as an
implementation of that. -/

namespace IntelX86Kernel

/-- `code` is the number typed on the pad so far, or -1. -/
structure Desk where
  held : Finset Nat
  caps : Bool
  num : Bool
  code : BitVec 32
  deriving DecidableEq

structure KeyEvent where
  keycode : BitVec 8
  up : Bool
  deriving DecidableEq

def plainText (strs : List (List (BitVec 8))) : List (BitVec 8) :=
  strs.flatMap fun str => str.takeWhile (· ≠ 0)

namespace Desk

variable (desk : Desk)

def empty : Desk := ⟨∅, false, false, -1⟩

def holds (k : Nat) : Bool := decide (k ∈ desk.held)

def mods : BitVec 32 := shifts (down desk.holds)

/-- What an action does. A modifier types the code of the pad when its last key goes up. -/
def act (up again : Bool) : Action → Desk × List (BitVec 8)
  | .nothing | .hold | .recount => (desk, [])
  | .text strs => (desk, if up then [] else plainText strs)
  | .led flag =>
      if up || again then (desk, [])
      else
        ({ desk with
          caps := if flag = VC_CAPSLOCK then !desk.caps else desk.caps
          num := if flag = VC_NUMLOCK then !desk.num else desk.num }, [])
  | .modifier value =>
      if up ∧ down desk.holds value.toNat = 0 ∧ desk.code ≠ -1 then
        ({ desk with code := -1 }, plainText [[desk.code.setWidth 8]])
      else (desk, [])
  | .digit base value =>
      if up then (desk, [])
      else
        ({ desk with
          code := if desk.code = -1 then value.setWidth 32
            else desk.code * base + value.setWidth 32 }, [])

variable (event : KeyEvent)

def moved : Desk :=
  { desk with
    held := if event.up then desk.held.erase event.keycode.toNat
      else insert event.keycode.toNat desk.held }

/-- A release of some keys that are not held counts as a press that does not hold them. -/
def releases : Bool :=
  event.up && (desk.holds event.keycode.toNat || kbdUnexpectedUp event.keycode)

def again : Bool := !event.up && desk.holds event.keycode.toNat

def step : Desk × List (BitVec 8) :=
  match meaning desk.mods desk.caps desk.num event.keycode with
  | some act => (desk.moved event).act (desk.releases event) (desk.again event) act
  | none => (desk.moved event, [])

def run (desk : Desk) : List KeyEvent → Desk × List (BitVec 8)
  | [] => (desk, [])
  | event :: events =>
      let (next, text) := desk.step event
      let (final, more) := next.run events
      (final, text ++ more)

/-- A modifier key goes up only when it is held. -/
def Expects (event : KeyEvent) : Prop :=
  event.up = true → modifier event.keycode.toNat ≠ none → event.keycode.toNat ∈ desk.held

def ExpectsAll (desk : Desk) : List KeyEvent → Prop
  | [] => True
  | event :: events => desk.Expects event ∧ (desk.step event).1.ExpectsAll events

instance (event : KeyEvent) : Decidable (desk.Expects event) :=
  inferInstanceAs (Decidable (_ → _ → _))

instance decideExpectsAll (desk : Desk) (events : List KeyEvent) :
    Decidable (desk.ExpectsAll events) :=
  match events with
  | [] => .isTrue trivial
  | event :: events =>
      have := decideExpectsAll (desk.step event).1 events
      inferInstanceAs (Decidable (_ ∧ _))

end Desk

/-- The counters and the bits of the modifiers, the locks and the code are those of the keys that
are held. -/
structure Keyboard.Shows (keyboard : Keyboard) (desk : Desk) : Prop where
  ordinary : keyboard.Ordinary
  keys : ∀ k < 256, keyboard.keyDown.getLsbD k = desk.holds k
  counts : ∀ v, keyboard.kDown v = BitVec.ofNat 8 (down desk.holds v)
  bits : keyboard.shiftState = desk.mods
  caps : keyboard.kbd.led VC_CAPSLOCK = desk.caps
  num : keyboard.kbd.led VC_NUMLOCK = desk.num
  code : keyboard.npadch = desk.code

section Down

variable {held : Nat → Bool} {k v w : Nat}

theorem countP_update_of_notMem {keys : List Nat} (apart : k ∉ keys) (b : Bool) :
    keys.countP (Function.update held k b) = keys.countP held := by
  apply List.countP_congr
  intro x member
  rw [Function.update_of_ne]
  rintro rfl
  exact apart member

theorem countP_update_of_mem {keys : List Nat} (nodup : keys.Nodup) (member : k ∈ keys) :
    keys.countP (Function.update held k true) = keys.countP (Function.update held k false) + 1 := by
  induction keys with
  | nil => cases member
  | cons x keys ih =>
      rw [List.countP_cons, List.countP_cons]
      obtain ⟨fresh, nodup⟩ := List.nodup_cons.mp nodup
      by_cases same : x = k
      · subst same
        rw [countP_update_of_notMem fresh, countP_update_of_notMem fresh]
        simp
      · have inside := (List.mem_cons.mp member).resolve_left (Ne.symm same)
        rw [ih nodup inside, Function.update_of_ne same, Function.update_of_ne same]
        omega

theorem mem_modifierKeys : k ∈ modifierKeys v ↔ modifier k = some v := by
  constructor
  · intro member
    unfold modifierKeys at member
    split at member
    all_goals simp only [List.mem_cons, List.not_mem_nil, or_false] at member
    · rcases member with rfl | rfl <;> rfl
    · rw [member]
      rfl
    · rcases member with rfl | rfl <;> rfl
    · rw [member]
      rfl
  · intro known
    unfold modifier at known
    split at known <;> cases known <;> decide

theorem modifierKeys_nodup (v : Nat) : (modifierKeys v).Nodup := by
  unfold modifierKeys
  split <;> decide

theorem down_press (known : modifier k = some v) (free : held k = false) :
    down (Function.update held k true) = Function.update (down held) v (down held v + 1) := by
  have same : Function.update held k false = held := by rw [← free, Function.update_eq_self]
  funext w
  by_cases here : w = v
  · subst here
    rw [Function.update_self, down, countP_update_of_mem (modifierKeys_nodup w)
      (mem_modifierKeys.mpr known), same, down]
  · rw [Function.update_of_ne here, down, countP_update_of_notMem, down]
    rw [mem_modifierKeys, known]
    intro equal
    exact here (Option.some.inj equal).symm

theorem down_release (known : modifier k = some v) (here : held k = true) :
    down held = Function.update (down (Function.update held k false)) v
      (down (Function.update held k false) v + 1) := by
  have free : Function.update held k false k = false := Function.update_self _ _ _
  have pressed := down_press known free
  rwa [Function.update_idem, ← here, Function.update_eq_self] at pressed

theorem down_other (none : modifier k = none) (b : Bool) :
    down (Function.update held k b) = down held := by
  funext w
  rw [down, countP_update_of_notMem, down]
  rw [mem_modifierKeys, none]
  exact Option.some_ne_none w |>.symm

theorem down_le (held : Nat → Bool) (v : Nat) : down held v ≤ 2 := by
  have size : (modifierKeys v).length ≤ 2 := by
    unfold modifierKeys
    split <;> decide
  exact Nat.le_trans List.countP_le_length size

theorem down_congr {held' : Nat → Bool} (same : ∀ k < 256, held k = held' k) :
    down held = down held' := by
  funext v
  apply List.countP_congr
  intro k member
  have small : k < 128 := by
    by_contra large
    rw [mem_modifierKeys, modifier_none (Nat.le_of_not_lt large)] at member
    cases member
  rw [same k (Nat.lt_trans small (by decide))]

end Down

def Action.recounts : Action → Bool
  | .recount => true
  | _ => false

def Action.modifies : Action → Option Nat
  | .modifier value => some value.toNat
  | _ => none

theorem action_modifies {num : Bool} {type : Nat} {value : BitVec 8}
    (assigned : Assigned type value) :
    (action num type value).modifies = if type = KT_SHIFT then some value.toNat else none := by
  have function : ∀ v, (functionText v).modifies = none := by
    intro v
    rw [functionText]
    split <;> rfl
  cases assigned with
  | latin => rfl
  | fn => exact function _
  | spec known =>
      change (specAction value).modifies = none
      rw [specAction]
      split <;> rfl
  | pad inside =>
      change (padAction num value).modifies = none
      rcases Keyboard.padAction_text num value with none | ⟨strs, text⟩
      · rw [none]
        rfl
      · rw [text]
        rfl
  | cons => rfl
  | cur inside => rfl
  | shift inside => rfl
  | esc => rfl
  | ascii =>
      change (if _ then _ else _ : Action).modifies = none
      split <;> rfl

theorem meaning_modifies {mods : BitVec 32} {caps num : Bool} {keycode : BitVec 8} {act : Action}
    (known : meaning mods caps num keycode = some act) :
    modifier keycode.toNat = act.modifies := by
  unfold meaning at known
  split at known
  · rename_i map found
    obtain ⟨-, kind, shift⟩ := symbol_handled (keyMaps_mem found) keycode
    dsimp only at known
    generalize KTYP (map.symbol keycode) - 0xf0 = type at kind known shift
    rw [shift]
    split at known
    · rename_i letter
      rw [letter, ← Option.some.inj known]
      rfl
    · rename_i other
      have checked := kind.resolve_left other
      rw [← Option.some.inj known]
      exact (action_modifies (.of_assigned checked)).symm
  · cases known

namespace Keyboard

variable {keyboard : Keyboard} {desk : Desk} {event : KeyEvent}

theorem keyBit_getLsbD (keycode : BitVec 8) (k : Nat) :
    (keyBit keycode).getLsbD k = decide (k = keycode.toNat) := by
  have inside : keycode.toNat < 256 := keycode.isLt
  rw [keyBit, BitVec.getLsbD_shiftLeft, BitVec.getLsbD_one]
  by_cases same : k = keycode.toNat
  · simp [same, inside]
  · simp [same]
    omega

theorem moved_holds : (desk.moved event).holds =
    Function.update desk.holds event.keycode.toNat !event.up := by
  funext k
  rw [Desk.holds, Desk.moved]
  by_cases same : k = event.keycode.toNat
  · cases event.up <;> simp [same]
  · cases event.up <;> simp [same, Desk.holds]

structure Marked (keyboard : Keyboard) (desk : Desk) (event : KeyEvent) : Prop where
  ordinary : keyboard.Ordinary
  keys : ∀ k < 256, keyboard.keyDown.getLsbD k = (desk.moved event).holds k
  counts : ∀ v, keyboard.kDown v = BitVec.ofNat 8 (down desk.holds v)
  bits : keyboard.shiftState = desk.mods
  caps : keyboard.kbd.led VC_CAPSLOCK = desk.caps
  num : keyboard.kbd.led VC_NUMLOCK = desk.num
  code : keyboard.npadch = desk.code
  rep : keyboard.rep = desk.again event

theorem Shows.track (shows : keyboard.Shows desk) (event : KeyEvent) :
    (keyboard.track event.up event.keycode).1.Marked desk event ∧
      (keyboard.track event.up event.keycode).2 = desk.releases event ∧
      (keyboard.track event.up event.keycode).1.typed = keyboard.typed := by
  have here := shows.keys event.keycode.toNat event.keycode.isLt
  obtain ⟨keycode, up⟩ := event
  cases up with
  | true =>
      refine ⟨⟨shows.ordinary.track, ?_, shows.counts, shows.bits, shows.caps, shows.num,
        shows.code, rfl⟩, ?_, rfl⟩
      · intro k small
        rw [moved_holds]
        change (keyboard.keyDown &&& ~~~(keyBit keycode)).getLsbD k = _
        rw [BitVec.getLsbD_and, BitVec.getLsbD_not, keyBit_getLsbD, shows.keys k small]
        by_cases same : k = keycode.toNat
        · simp [same]
        · simp [same, small]
      · change (if keyboard.keyDown.getLsbD keycode.toNat then true else kbdUnexpectedUp keycode) = _
        rw [here, Desk.releases]
        cases desk.holds keycode.toNat <;> rfl
  | false =>
      refine ⟨⟨shows.ordinary.track, ?_, shows.counts, shows.bits, shows.caps, shows.num,
        shows.code, here⟩, rfl, rfl⟩
      intro k small
      rw [moved_holds]
      change (keyboard.keyDown ||| keyBit keycode).getLsbD k = _
      rw [BitVec.getLsbD_or, keyBit_getLsbD, shows.keys k small]
      by_cases same : k = keycode.toNat
      · simp [same]
      · simp [same]

theorem Marked.shows (marked : keyboard.Marked desk event)
    (same : down (desk.moved event).holds = down desk.holds) :
    keyboard.Shows (desk.moved event) := by
  refine ⟨marked.ordinary, marked.keys, ?_, ?_, marked.caps, marked.num, marked.code⟩
  · rw [same]
    exact marked.counts
  · rw [Desk.mods, same]
    exact marked.bits

theorem typed_sendAll (strs : List (List (BitVec 8))) :
    (keyboard.sendAll strs).typed = keyboard.typed ++ plainText strs := by
  rw [sendAll_eq, typed, List.flatMap_append, List.flatMap_map]
  rfl

theorem chgLed_led (kbd : KbdStruct) (flag led : Nat) (small : led < 3) :
    (kbd.chgLed flag).led led = if flag = led then !kbd.led led else kbd.led led := by
  rw [KbdStruct.led, KbdStruct.chgLed, BitVec.getLsbD_xor, BitVec.getLsbD_shiftLeft,
    BitVec.getLsbD_one, KbdStruct.led]
  by_cases same : flag = led
  · simp [same, small]
  · rw [if_neg same]
    by_cases below : led < flag
    · simp [below]
    · have apart : led - flag ≠ 0 := by omega
      simp [apart]

theorem recounted_shows (ordinary : keyboard.Ordinary)
    (keys : ∀ k < 256, keyboard.keyDown.getLsbD k = desk.holds k)
    (caps : keyboard.kbd.led VC_CAPSLOCK = desk.caps)
    (num : keyboard.kbd.led VC_NUMLOCK = desk.num) (code : keyboard.npadch = desk.code) :
    keyboard.recounted.Shows desk := by
  have same := down_congr keys
  refine ⟨{ ordinary with shifts := shifts_lt _ }, keys, ?_, ?_, caps, num, code⟩
  · intro v
    rw [← same]
    rfl
  · rw [Desk.mods, ← same]
    rfl

theorem Shows.perform (shows : keyboard.Shows desk) {act : Action} (other : act.modifies = none)
    (up : Bool) :
    (keyboard.perform up act).Shows (desk.act up keyboard.rep act).1 ∧
      (keyboard.perform up act).typed = keyboard.typed ++ (desk.act up keyboard.rep act).2 := by
  cases act with
  | nothing => exact ⟨shows, (List.append_nil _).symm⟩
  | text strs =>
      rw [Keyboard.perform, Desk.act]
      cases up with
      | true => exact ⟨shows, (List.append_nil _).symm⟩
      | false =>
          refine ⟨?_, typed_sendAll strs⟩
          rw [if_neg Bool.false_ne_true, sendAll_eq]
          exact { shows with ordinary := { shows.ordinary with } }
  | led flag =>
      rw [Keyboard.perform, Desk.act]
      by_cases quiet : up ∨ keyboard.rep
      · rw [if_pos quiet, if_pos (by simpa using quiet)]
        exact ⟨shows, (List.append_nil _).symm⟩
      · rw [if_neg quiet, if_neg (by simpa using quiet)]
        refine ⟨?_, (List.append_nil _).symm⟩
        refine { shows with ordinary := { shows.ordinary with }, caps := ?_, num := ?_ }
        · rw [chgLed_led _ _ _ (by decide), shows.caps]
        · rw [chgLed_led _ _ _ (by decide), shows.num]
  | hold =>
      refine ⟨?_, ?_⟩
      · rw [Keyboard.perform, Keyboard.hold]
        split_ifs
        · exact shows
        · exact shows
        · exact { shows with ordinary := { shows.ordinary with } }
      · rw [Keyboard.perform, Keyboard.hold]
        split_ifs <;> exact (List.append_nil _).symm
  | recount =>
      rw [Keyboard.perform, Desk.act]
      cases up with
      | true => exact ⟨shows, (List.append_nil _).symm⟩
      | false => exact ⟨recounted_shows shows.ordinary shows.keys shows.caps shows.num shows.code,
          (List.append_nil _).symm⟩
  | modifier value => cases other
  | digit base value =>
      rw [Keyboard.perform, Desk.act]
      cases up with
      | true => exact ⟨shows, (List.append_nil _).symm⟩
      | false =>
          refine ⟨?_, (List.append_nil _).symm⟩
          refine { shows with ordinary := { shows.ordinary with }, code := ?_ }
          rw [← shows.code]
          rfl

theorem ofNat_ne_zero {n : Nat} (small : n ≤ 2) (positive : n ≠ 0) : BitVec.ofNat 8 n ≠ 0 := by
  interval_cases n
  · exact absurd rfl positive
  · decide
  · decide

theorem Marked.shifted {value : BitVec 8} {up : Bool} {n : Nat} (marked : keyboard.Marked desk event)
    (small : value.toNat < 4) (counted : keyboard.counted value up = BitVec.ofNat 8 n)
    (counts : down (desk.moved event).holds = Function.update (down desk.holds) value.toNat n) :
    (keyboard.shifted value up).Shows (desk.moved event) := by
  have fits : n ≤ 2 := by
    have all := down_le (desk.moved event).holds value.toNat
    rwa [counts, Function.update_self] at all
  have others : ∀ w, w ≠ value.toNat → down (desk.moved event).holds w = down desk.holds w := by
    intro w apart
    rw [counts, Function.update_of_ne apart]
  refine ⟨marked.ordinary.shifted small, marked.keys, ?_, ?_, marked.caps, marked.num, marked.code⟩
  · intro v
    change Function.update keyboard.kDown value.toNat (keyboard.counted value up) v = _
    rw [counted]
    by_cases same : v = value.toNat
    · rw [same, counts, Function.update_self, Function.update_self]
    · rw [Function.update_of_ne same, others v same]
      exact marked.counts v
  · change (if keyboard.counted value up ≠ 0 then _ else _) = _
    rw [counted, marked.bits, Desk.mods, Desk.mods]
    by_cases zero : n = 0
    · have clear : ¬ BitVec.ofNat 8 n ≠ 0 := by
        rw [zero]
        decide
      rw [if_neg clear]
      apply shifts_and _ _ small _ others
      rw [counts, Function.update_self, zero]
    · rw [if_pos (ofNat_ne_zero fits zero)]
      apply shifts_or _ _ small _ others
      rwa [counts, Function.update_self]

theorem Marked.press {value : BitVec 8} (marked : keyboard.Marked desk event)
    (known : modifier event.keycode.toNat = some value.toNat) (press : event.up = false)
    (free : desk.holds event.keycode.toNat = false) :
    keyboard.shiftKey value false = keyboard.shifted value false ∧
      (keyboard.shifted value false).Shows (desk.moved event) := by
  have moved : (desk.moved event).holds =
      Function.update desk.holds event.keycode.toNat !event.up := moved_holds
  have counts := down_press known free
  rw [press, Bool.not_false] at moved
  rw [← moved] at counts
  have rep : ¬ keyboard.rep = true := by
    rw [marked.rep, Desk.again, free, Bool.and_false]
    exact Bool.false_ne_true
  refine ⟨?_, marked.shifted (modifier_lt known) ?_ counts⟩
  · rw [shiftKey, if_neg rep]
    exact if_neg fun typing => Bool.false_ne_true typing.1
  · rw [counted, if_neg Bool.false_ne_true, marked.counts, BitVec.ofNat_add]
    rfl

theorem Marked.release {value : BitVec 8} (marked : keyboard.Marked desk event)
    (known : modifier event.keycode.toNat = some value.toNat) (release : event.up = true)
    (here : desk.holds event.keycode.toNat = true) :
    (keyboard.shifted value true).Shows (desk.moved event) ∧
      ((keyboard.shifted value true).shiftState ≠ keyboard.shiftState ↔
        down (desk.moved event).holds value.toNat = 0) := by
  have moved : (desk.moved event).holds =
      Function.update desk.holds event.keycode.toNat !event.up := moved_holds
  have counts := down_release known here
  rw [release, Bool.not_true] at moved
  rw [← moved] at counts
  have before : down desk.holds value.toNat = down (desk.moved event).holds value.toNat + 1 := by
    rw [counts, Function.update_self]
  have positive : BitVec.ofNat 8 (down desk.holds value.toNat) ≠ 0 :=
    ofNat_ne_zero (down_le _ _) (by omega)
  have counted : keyboard.counted value true =
      BitVec.ofNat 8 (down (desk.moved event).holds value.toNat) := by
    rw [Keyboard.counted, if_pos rfl, marked.counts, if_pos positive, before, BitVec.ofNat_add]
    exact BitVec.add_sub_cancel _ _
  have after : down (desk.moved event).holds = Function.update (down desk.holds) value.toNat
      (down (desk.moved event).holds value.toNat) := by
    rw [counts, Function.update_idem, Function.update_eq_self]
  have shows := marked.shifted (modifier_lt known) counted after
  refine ⟨shows, ?_⟩
  rw [shows.bits, marked.bits, Desk.mods, Desk.mods]
  constructor
  · intro changed
    by_contra remains
    apply changed
    apply shifts_congr
    intro w
    by_cases same : w = value.toNat
    · rw [same, before]
      omega
    · rw [counts, Function.update_of_ne same]
  · intro zero equal
    have bit := congrArg (BitVec.getLsbD · value.toNat) equal
    simp only [shifts_getLsbD (modifier_lt known), zero, before] at bit
    cases bit

theorem Marked.shiftKey {value : BitVec 8} (marked : keyboard.Marked desk event)
    (known : modifier event.keycode.toNat = some value.toNat) (expects : desk.Expects event) :
    (keyboard.shiftKey value (desk.releases event)).Shows
        ((desk.moved event).act (desk.releases event) (desk.again event) (.modifier value)).1 ∧
      (keyboard.shiftKey value (desk.releases event)).typed = keyboard.typed ++
        ((desk.moved event).act (desk.releases event) (desk.again event) (.modifier value)).2 := by
  have held : event.up = true → desk.holds event.keycode.toNat = true := by
    intro up
    apply decide_eq_true
    apply expects up
    rw [known]
    exact Option.some_ne_none _
  cases here : desk.holds event.keycode.toNat with
  | false =>
      have press : event.up = false := by
        by_contra up
        rw [held (eq_true_of_ne_false up)] at here
        cases here
      have down : desk.releases event = false := by rw [Desk.releases, press, Bool.false_and]
      obtain ⟨key, shows⟩ := marked.press known press here
      rw [down, key]
      exact ⟨shows, (List.append_nil _).symm⟩
  | true =>
      cases up : event.up with
      | false =>
          have down : desk.releases event = false := by rw [Desk.releases, up, Bool.false_and]
          have again : keyboard.rep = true := by rw [marked.rep, Desk.again, up, here]; rfl
          have same : (desk.moved event).holds = desk.holds := by
            rw [moved_holds, up, Bool.not_false, ← here, Function.update_eq_self]
          rw [down, Keyboard.shiftKey, if_pos again]
          exact ⟨marked.shows (by rw [same]), (List.append_nil _).symm⟩
      | true =>
          have releases : desk.releases event = true := by
            rw [Desk.releases, up, here]
            rfl
          have fresh : ¬ keyboard.rep = true := by
            rw [marked.rep, Desk.again, up]
            exact Bool.false_ne_true
          obtain ⟨shows, last⟩ := marked.release known up here
          have code : (desk.moved event).code = keyboard.npadch := marked.code.symm
          have key : keyboard.shiftKey value true =
              if true = true ∧ down (desk.moved event).holds value.toNat = 0 ∧ keyboard.npadch ≠ -1
              then (keyboard.shifted value true).codeTyped else keyboard.shifted value true := by
            rw [Keyboard.shiftKey, if_neg fresh]
            exact if_congr (and_congr_right' (and_congr_left' last)) rfl rfl
          rw [releases, key, Desk.act, code]
          split
          · refine ⟨{ shows with ordinary := { shows.ordinary with }, code := rfl }, ?_⟩
            rw [codeTyped, typed, putQueue, putsQueue, List.flatMap_append]
            rfl
          · exact ⟨shows, (List.append_nil _).symm⟩

theorem Shows.keyed (shows : keyboard.Shows desk) (expects : desk.Expects event) :
    (keyboard.keyed event.up event.keycode).Shows (desk.step event).1 ∧
      (keyboard.keyed event.up event.keycode).typed = keyboard.typed ++ (desk.step event).2 := by
  obtain ⟨marked, releases, typed⟩ := shows.track event
  have known : (keyboard.track event.up event.keycode).1.means event.keycode =
      meaning desk.mods desk.caps desk.num event.keycode := by
    rw [means, marked.bits, marked.caps, marked.num]
  rw [Keyboard.keyed, respond, known, releases, ← typed, Desk.step]
  generalize (keyboard.track event.up event.keycode).1 = marker at marked
  cases acts : meaning desk.mods desk.caps desk.num event.keycode with
  | none =>
      exact ⟨recounted_shows marked.ordinary marked.keys marked.caps marked.num marked.code,
        (List.append_nil _).symm⟩
  | some act =>
      have modifies := meaning_modifies acts
      by_cases other : act.modifies = none
      · rw [other] at modifies
        have same : down (desk.moved event).holds = down desk.holds := by
          rw [moved_holds, down_other modifies]
        have done := (marked.shows same).perform other (desk.releases event)
        rwa [marked.rep] at done
      · cases act with
        | modifier value => exact marked.shiftKey modifies expects
        | _ => exact absurd rfl other

end Keyboard

end IntelX86Kernel

import IntelX86Kernel.HeldKeys

/-! The scancodes that keys send, and what the driver types for them. -/

namespace IntelX86Kernel

def keycodeOf (extended : Bool) (code : BitVec 8) : BitVec 8 :=
  if extended then e0Keys.getD code.toNat 0
  else if SC_LIM ≤ code.toNat then highKeys.getD (code.toNat - SC_LIM) 0
  else code

structure Key where
  extended : Bool
  code : BitVec 8
  fits : code.toNat < 128
  known : keycodeOf extended code ≠ 0

def Key.keycode (key : Key) : BitVec 8 := keycodeOf key.extended key.code

def makeOrBreak (code : BitVec 8) (up : Bool) : BitVec 8 := code ||| if up then 0x80#8 else 0

def FAKE_SHIFTS : List (BitVec 8) := [0x2a, 0xaa, 0x36, 0xb6]

/-- What the keyboard sends scancodes for: a key that goes down, repeats or goes up, the Pause key,
and a fake shift around another key. -/
inductive Stroke where
  | moves (key : Key) (up : Bool)
  | pause
  | fakeShift (code : BitVec 8) (fake : code ∈ FAKE_SHIFTS)

namespace Stroke

def scancodes : Stroke → List (BitVec 8)
  | .moves key up =>
      (if key.extended then [0xe0] else []) ++ [makeOrBreak key.code up]
  | .pause => [0xe1, 0x1d, 0x45, 0xe1, 0x9d, 0xc5]
  | .fakeShift code _ => [0xe0, code]

def events : Stroke → List KeyEvent
  | .moves key up => [⟨key.keycode, up⟩]
  | .pause => [⟨E1_PAUSE, false⟩, ⟨E1_PAUSE, true⟩]
  | .fakeShift _ _ => []

end Stroke

def Noise (scancode : BitVec 8) : Prop := scancode = 0x00 ∨ scancode = 0xff

instance (scancode : BitVec 8) : Decidable (Noise scancode) := inferInstanceAs (Decidable (_ ∨ _))

def keyPrev (extended : Bool) : PrevScancode := if extended then .e0 else .zero

def Translates (extended up : Bool) (code : BitVec 8) : Prop :=
  ¬ Noise (makeOrBreak code up) ∧ (makeOrBreak code up).getLsbD 7 = up ∧
    kbdTranslate (keyPrev extended) (makeOrBreak code up) =
      .ok (.zero, some (keycodeOf extended code))

instance (extended up : Bool) (code : BitVec 8) : Decidable (Translates extended up code) :=
  inferInstanceAs (Decidable (_ ∧ _))

theorem translates_small : ∀ extended up : Bool, ∀ n < 128,
    keycodeOf extended (BitVec.ofNat 8 n) ≠ 0 → Translates extended up (BitVec.ofNat 8 n) := by
  decide +kernel

theorem Key.translates (key : Key) (up : Bool) : Translates key.extended up key.code := by
  have code : BitVec.ofNat 8 key.code.toNat = key.code := by
    rw [BitVec.ofNat_toNat, BitVec.setWidth_eq]
  have all := translates_small key.extended up key.code.toNat key.fits
  rw [code] at all
  exact all key.known

namespace Keyboard

variable {keyboard : Keyboard} {desk : Desk} {scancode : BitVec 8} {scancodes : List (BitVec 8)}

theorem kbdBh_eq (keyboard : Keyboard) :
    ∃ leds, keyboard.kbdBh = { keyboard with ledstate := leds } := by
  rw [kbdBh]
  split
  · exact ⟨_, rfl⟩
  · exact ⟨keyboard.ledstate, rfl⟩

/-- The driver is at the beginning of a scancode sequence and shows the desk. -/
structure Between (keyboard : Keyboard) (desk : Desk) : Prop where
  shows : keyboard.Shows desk
  prev : keyboard.prevScancode = .zero

theorem Ordinary.noise (ordinary : keyboard.Ordinary) (noise : Noise scancode) :
    keyboard.doScancode scancode = .ok keyboard := by
  rw [doScancode_noise noise, ordinary.ready]

theorem Ordinary.filter (ordinary : keyboard.Ordinary) (scancodes : List (BitVec 8)) :
    keyboard.doScancodes scancodes =
      keyboard.doScancodes (scancodes.filter fun scancode => ¬ Noise scancode) := by
  induction scancodes generalizing keyboard with
  | nil => rfl
  | cons scancode scancodes ih =>
      by_cases noise : Noise scancode
      · rw [doScancodes, ordinary.noise noise, List.filter_cons_of_neg (by simpa using noise)]
        exact ih ordinary
      · have ready : keyboard.ready.Ordinary := by rwa [ordinary.ready]
        obtain ⟨next, step, after⟩ := doScancode_ready ready scancode
        rw [doScancodes, step, List.filter_cons_of_pos (by simpa using noise), doScancodes, step]
        exact ih after

theorem doScancodes_append (keyboard : Keyboard) (first second : List (BitVec 8)) :
    keyboard.doScancodes (first ++ second) =
      (keyboard.doScancodes first).bind fun next => next.doScancodes second := by
  induction first generalizing keyboard with
  | nil => rfl
  | cons scancode first ih =>
      rw [List.cons_append, doScancodes, doScancodes]
      cases keyboard.doScancode scancode with
      | error fault => rfl
      | ok next => exact ih next

theorem Shows.part (shows : keyboard.Shows desk) {prev : PrevScancode} (code : ¬ Noise scancode)
    (translated : kbdTranslate keyboard.prevScancode scancode = .ok (prev, none)) :
    ∃ next, keyboard.doScancode scancode = .ok next ∧ next.Shows desk ∧
      next.prevScancode = prev ∧ next.typed = keyboard.typed := by
  have ready := shows.ordinary.ready
  have step := doScancode_code (by rw [ready]; exact shows.ordinary) code
    (by rw [ready]; exact translated)
  obtain ⟨leds, same⟩ := kbdBh_eq (keyboard.ready.scanned (!scancode.getLsbD 7) (prev, none))
  rw [ready, scanned] at same
  rw [ready, scanned, same] at step
  exact ⟨_, step, { shows with ordinary := { shows.ordinary with } }, rfl, rfl⟩

theorem perform_prev (up : Bool) (act : Action) :
    (keyboard.perform up act).prevScancode = keyboard.prevScancode := by
  cases act with
  | nothing => rfl
  | text strs =>
      rw [perform, sendAll_eq]
      split <;> rfl
  | led flag =>
      rw [perform]
      split <;> rfl
  | hold =>
      rw [perform, hold]
      split_ifs <;> rfl
  | recount =>
      rw [perform]
      split <;> rfl
  | modifier value =>
      rw [perform, shiftKey]
      split
      · rfl
      · dsimp only
        split <;> rfl
  | digit base value =>
      rw [perform]
      split <;> rfl

theorem keyed_prev (up : Bool) (keycode : BitVec 8) :
    (keyboard.keyed up keycode).prevScancode = keyboard.prevScancode := by
  have marked : (keyboard.track up keycode).1.prevScancode = keyboard.prevScancode := by
    cases up <;> rfl
  rw [keyed, respond]
  split
  · rw [perform_prev, marked]
  · exact marked

theorem Shows.last (shows : keyboard.Shows desk) {keycode : BitVec 8} (code : ¬ Noise scancode)
    (translated : kbdTranslate keyboard.prevScancode scancode = .ok (.zero, some keycode))
    (expects : desk.Expects ⟨keycode, scancode.getLsbD 7⟩) :
    ∃ next, keyboard.doScancode scancode = .ok next ∧
      next.Between (desk.step ⟨keycode, scancode.getLsbD 7⟩).1 ∧
      next.typed = keyboard.typed ++ (desk.step ⟨keycode, scancode.getLsbD 7⟩).2 := by
  have ready := shows.ordinary.ready
  have step := doScancode_code (by rw [ready]; exact shows.ordinary) code
    (by rw [ready]; exact translated)
  rw [ready, scanned, Bool.not_not] at step
  have start : { keyboard with prevScancode := .zero }.Shows desk :=
    { shows with ordinary := { shows.ordinary with } }
  obtain ⟨after, typed⟩ := start.keyed expects
  obtain ⟨leds, same⟩ := kbdBh_eq
    ({ keyboard with prevScancode := .zero }.keyed (scancode.getLsbD 7) keycode)
  rw [same] at step
  refine ⟨_, step, ⟨{ after with ordinary := { after.ordinary with } }, ?_⟩, typed⟩
  exact keyed_prev _ _

theorem Between.moves (between : keyboard.Between desk) (key : Key) (up : Bool)
    (expects : desk.Expects ⟨key.keycode, up⟩) :
    ∃ next, keyboard.doScancodes (Stroke.moves key up).scancodes = .ok next ∧
      next.Between (desk.step ⟨key.keycode, up⟩).1 ∧
      next.typed = keyboard.typed ++ (desk.step ⟨key.keycode, up⟩).2 := by
  obtain ⟨code, bit, translated⟩ := key.translates up
  have last : ∀ {start : Keyboard}, start.Shows desk → start.prevScancode = keyPrev key.extended →
      ∃ next, start.doScancodes [makeOrBreak key.code up] = .ok next ∧
        next.Between (desk.step ⟨key.keycode, up⟩).1 ∧
        next.typed = start.typed ++ (desk.step ⟨key.keycode, up⟩).2 := by
    intro start shows prev
    rw [← prev] at translated
    rw [← bit] at expects
    obtain ⟨next, step, done⟩ := shows.last code translated expects
    rw [bit] at done
    refine ⟨next, ?_, done⟩
    rw [doScancodes, step]
    rfl
  rw [Stroke.scancodes]
  cases extended : key.extended with
  | false =>
      apply last between.shows
      rw [between.prev, extended]
      rfl
  | true =>
      have escape : kbdTranslate keyboard.prevScancode 0xe0 = .ok (.e0, none) := rfl
      obtain ⟨middle, step, shows, prev, typed⟩ := between.shows.part (by decide) escape
      rw [← typed]
      obtain ⟨next, rest, done⟩ := last shows (by rw [prev, extended]; rfl)
      refine ⟨next, ?_, done⟩
      rw [if_pos rfl, List.singleton_append, doScancodes, step]
      exact rest

theorem Between.pause (between : keyboard.Between desk) :
    ∃ next, keyboard.doScancodes Stroke.pause.scancodes = .ok next ∧
      next.Between (desk.run Stroke.pause.events).1 ∧
      next.typed = keyboard.typed ++ (desk.run Stroke.pause.events).2 := by
  have expects : ∀ (desk : Desk) (up : Bool), desk.Expects ⟨E1_PAUSE, up⟩ :=
    fun _ _ _ pressed => absurd rfl pressed
  have half : ∀ {start : Keyboard} {desk : Desk} (ctrl lock : BitVec 8), start.Shows desk →
      ¬ Noise ctrl ∧ kbdTranslate .e1 ctrl = .ok (.pause, none) →
      ¬ Noise lock ∧ kbdTranslate .pause lock = .ok (.zero, some E1_PAUSE) →
      ∃ next, start.doScancodes [0xe1, ctrl, lock] = .ok next ∧
        next.Between (desk.step ⟨E1_PAUSE, lock.getLsbD 7⟩).1 ∧
        next.typed = start.typed ++ (desk.step ⟨E1_PAUSE, lock.getLsbD 7⟩).2 := by
    intro start desk ctrl lock shows first second
    have escape : kbdTranslate start.prevScancode 0xe1 = .ok (.e1, none) := rfl
    obtain ⟨one, step, shows, prev, typed⟩ := shows.part (by decide) escape
    obtain ⟨two, step', shows, prev', typed'⟩ := shows.part first.1 (by rw [prev]; exact first.2)
    obtain ⟨three, step'', done⟩ :=
      shows.last second.1 (by rw [prev']; exact second.2) (expects _ _)
    rw [← typed, ← typed']
    refine ⟨three, ?_, done⟩
    simp only [doScancodes, step, step', step'', bind, Except.bind]
  obtain ⟨middle, first, between', typed⟩ :=
    half 0x1d 0x45 between.shows (by decide) (by decide)
  obtain ⟨next, second, between'', typed'⟩ :=
    half 0x9d 0xc5 between'.shows (by decide) (by decide)
  refine ⟨next, ?_, between'', ?_⟩
  · have both := doScancodes_append keyboard [0xe1, 0x1d, 0x45] [0xe1, 0x9d, 0xc5]
    rw [first] at both
    exact both.trans second
  · rw [typed', typed, List.append_assoc]
    change _ = _ ++ (_ ++ (_ ++ []))
    rw [List.append_nil]
    rfl

theorem Between.fakeShift (between : keyboard.Between desk) {code : BitVec 8}
    (fake : code ∈ FAKE_SHIFTS) :
    ∃ next, keyboard.doScancodes [0xe0, code] = .ok next ∧ next.Between desk ∧
      next.typed = keyboard.typed := by
  have ignored : ∀ code ∈ FAKE_SHIFTS,
      ¬ Noise code ∧ kbdTranslate .e0 code = .ok (.zero, none) := by decide
  obtain ⟨plain, translated⟩ := ignored code fake
  have escape : kbdTranslate keyboard.prevScancode 0xe0 = .ok (.e0, none) := rfl
  obtain ⟨one, step, shows, prev, typed⟩ := between.shows.part (by decide) escape
  obtain ⟨two, step', shows, prev', typed'⟩ := shows.part plain (by rw [prev]; exact translated)
  refine ⟨two, ?_, ⟨shows, prev'⟩, by rw [typed', typed]⟩
  simp only [doScancodes, step, step', bind, Except.bind]

theorem Between.stroke (between : keyboard.Between desk) (stroke : Stroke)
    (expects : desk.ExpectsAll stroke.events) :
    ∃ next, keyboard.doScancodes stroke.scancodes = .ok next ∧
      next.Between (desk.run stroke.events).1 ∧
      next.typed = keyboard.typed ++ (desk.run stroke.events).2 := by
  cases stroke with
  | moves key up =>
      obtain ⟨next, run, after, typed⟩ := between.moves key up expects.1
      refine ⟨next, run, after, ?_⟩
      rw [typed]
      exact congrArg (keyboard.typed ++ ·) (List.append_nil _).symm
  | pause => exact between.pause
  | fakeShift code fake =>
      obtain ⟨next, run, after, typed⟩ := between.fakeShift fake
      exact ⟨next, run, after, by rw [typed]; exact (List.append_nil _).symm⟩

end Keyboard

namespace Desk

theorem run_append (desk : Desk) (first second : List KeyEvent) :
    desk.run (first ++ second) =
      (((desk.run first).1.run second).1, (desk.run first).2 ++ ((desk.run first).1.run second).2) := by
  induction first generalizing desk with
  | nil => rfl
  | cons event first ih =>
      simp only [List.cons_append, run, ih, List.append_assoc]

theorem expectsAll_append {desk : Desk} {first second : List KeyEvent} :
    desk.ExpectsAll (first ++ second) ↔
      desk.ExpectsAll first ∧ (desk.run first).1.ExpectsAll second := by
  induction first generalizing desk with
  | nil => simp [ExpectsAll, run]
  | cons event first ih =>
      simp only [List.cons_append, ExpectsAll, run, ih, and_assoc]

end Desk

namespace Keyboard

variable {keyboard : Keyboard} {desk : Desk}

theorem Between.strokes (between : keyboard.Between desk) (strokes : List Stroke)
    (expects : desk.ExpectsAll (strokes.flatMap Stroke.events)) :
    ∃ next, keyboard.doScancodes (strokes.flatMap Stroke.scancodes) = .ok next ∧
      next.Between (desk.run (strokes.flatMap Stroke.events)).1 ∧
      next.typed = keyboard.typed ++ (desk.run (strokes.flatMap Stroke.events)).2 := by
  induction strokes generalizing keyboard desk with
  | nil => exact ⟨keyboard, rfl, between, (List.append_nil _).symm⟩
  | cons stroke strokes ih =>
      rw [List.flatMap_cons, Desk.expectsAll_append] at expects
      obtain ⟨middle, run, between', typed⟩ := between.stroke stroke expects.1
      obtain ⟨next, rest, between'', typed'⟩ := ih between' expects.2
      rw [List.flatMap_cons, List.flatMap_cons, Desk.run_append]
      refine ⟨next, ?_, between'', ?_⟩
      · rw [doScancodes_append, run]
        exact rest
      · rw [typed', typed, List.append_assoc]

theorem boot_between : boot.ready.Between .empty := by
  have nothing : ∀ k, Desk.empty.holds k = false := fun k => decide_eq_false (Finset.notMem_empty k)
  have none : ∀ v, down Desk.empty.holds v = 0 := by
    intro v
    rw [down, List.countP_eq_zero]
    intro k _ here
    rw [nothing] at here
    cases here
  refine ⟨⟨boot_ready, ?_, ?_, ?_, rfl, rfl, rfl⟩, rfl⟩
  · intro k _
    rw [nothing]
    exact BitVec.getLsbD_zero
  · intro v
    rw [none]
    rfl
  · rw [Desk.mods, shifts, none, none, none, none]
    rfl

theorem doScancodes_boot {scancodes : List (BitVec 8)} {keyboard : Keyboard}
    (run : boot.ready.doScancodes scancodes = .ok keyboard) :
    ∃ keyboard', boot.doScancodes scancodes = .ok keyboard' ∧ keyboard'.ready = keyboard.ready ∧
      keyboard'.typed = keyboard.typed := by
  have ready : boot.ready.ready = boot.ready := boot_ready.ready
  cases scancodes with
  | nil =>
      cases run
      exact ⟨boot, rfl, ready.symm, rfl⟩
  | cons scancode scancodes =>
      refine ⟨keyboard, ?_, rfl, rfl⟩
      have same : boot.doScancode scancode = boot.ready.doScancode scancode := by
        change (if _ then Except.bind (boot.ready.handleScancode _ _) _ else _) =
          (if _ then Except.bind (boot.ready.ready.handleScancode _ _) _ else _)
        rw [ready]
        rfl
      rw [doScancodes, same]
      exact run

end Keyboard

open Keyboard

def Keyboard.desk (keyboard : Keyboard) : Desk where
  held := (Finset.range 256).filter fun k => keyboard.keyDown.getLsbD k
  caps := keyboard.kbd.led VC_CAPSLOCK
  num := keyboard.kbd.led VC_NUMLOCK
  code := keyboard.npadch

theorem Keyboard.desk_holds {keyboard : Keyboard} {k : Nat} (small : k < 256) :
    keyboard.keyDown.getLsbD k = keyboard.desk.holds k := by
  rw [Desk.holds, desk]
  simp [small]

/-- Whatever bytes come, the driver stays inside its tables, in the mode it starts in and without
locks and dead keys; and a press of a key that means nothing, or has no keymap under the
modifiers that are on, makes its counters and bits again those of the keys that are held. -/
theorem scancodes_inside_tables (scancodes : List (BitVec 8)) :
    ∃ keyboard, boot.doScancodes scancodes = .ok keyboard ∧ keyboard.ready.Ordinary ∧
      ∀ keycode : BitVec 8,
        (keyboard.ready.means keycode = none ∨ ∃ act, keyboard.ready.means keycode = some act ∧
          act.recounts = true) →
        (keyboard.ready.keyed false keycode).Shows (keyboard.ready.keyed false keycode).desk := by
  obtain ⟨keyboard, run, ordinary⟩ := doScancodes_ready boot_ready scancodes
  refine ⟨keyboard, run, ordinary, ?_⟩
  intro keycode idle
  have recounted : keyboard.ready.keyed false keycode =
      (keyboard.ready.track false keycode).1.recounted := by
    have same : (keyboard.ready.track false keycode).1.means keycode =
        keyboard.ready.means keycode := rfl
    rw [keyed, respond, same]
    rcases idle with none | ⟨act, known, recounts⟩
    · rw [none]
    · rw [known]
      cases act with
      | recount => rfl
      | _ => cases recounts
  rw [recounted]
  exact recounted_shows ordinary.track (fun k small => desk_holds small) rfl rfl rfl

/-- From the scancodes of keys, and whatever bytes that are none come in between, the driver types
what the keys that are held and the locks call for, and its counters and bits are theirs. -/
theorem scancodes_typed (strokes : List Stroke) (scancodes : List (BitVec 8))
    (sent : scancodes.filter (fun scancode => ¬ Noise scancode) =
      strokes.flatMap Stroke.scancodes)
    (expects : Desk.empty.ExpectsAll (strokes.flatMap Stroke.events)) :
    ∃ keyboard, boot.doScancodes scancodes = .ok keyboard ∧
      keyboard.ready.Shows (Desk.empty.run (strokes.flatMap Stroke.events)).1 ∧
      keyboard.typed = (Desk.empty.run (strokes.flatMap Stroke.events)).2 := by
  obtain ⟨keyboard, run, between, typed⟩ := boot_between.strokes strokes expects
  rw [← sent, ← boot_ready.filter] at run
  obtain ⟨keyboard', run', ready, typed'⟩ := doScancodes_boot run
  refine ⟨keyboard', run', ?_, ?_⟩
  · rw [ready, between.shows.ordinary.ready]
    exact between.shows
  · rw [typed', typed]
    exact List.nil_append _

/-- Right control and the key of an A, with a byte that is no scancode and a Pause. -/
theorem scancodes_typed_control :
    let control : Key := ⟨true, 0x1d, by decide, by decide⟩
    let a : Key := ⟨false, 0x10, by decide, by decide⟩
    let strokes := [.moves control false, .moves a false, .moves control true, .pause, .moves a true]
    ∃ keyboard, boot.doScancodes
        [0xe0, 0x1d, 0x10, 0x00, 0xe0, 0x9d, 0xe1, 0x1d, 0x45, 0xe1, 0x9d, 0xc5, 0x90] = .ok keyboard ∧
      keyboard.ready.Shows (Desk.empty.run (strokes.flatMap Stroke.events)).1 ∧
      keyboard.typed = (Desk.empty.run (strokes.flatMap Stroke.events)).2 :=
  scancodes_typed _ _ (by decide) (by decide)

end IntelX86Kernel

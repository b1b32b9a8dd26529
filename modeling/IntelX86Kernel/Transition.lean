import Mathlib.Data.List.Basic

/-! Runs of a fallible, deterministic transition function with their histories.

A history lists the steps taken, the latest one first. Nothing here depends on the
machine: states, events, outcomes and faults are parameters. -/

namespace Transition

variable {σ ε ο φ : Type}

structure Occurrence (σ ε ο : Type) where
  before : σ
  event : ε
  outcome : ο
  after : σ

inductive Run (step : σ → ε → Except φ (σ × ο)) (initial : σ → Prop) :
    List (Occurrence σ ε ο) → σ → Prop where
  | start {s : σ} (here : initial s) : Run step initial [] s
  | next {history : List (Occurrence σ ε ο)} {s s' : σ} {e : ε} {o : ο}
      (run : Run step initial history s) (taken : step s e = .ok (s', o)) :
      Run step initial (⟨s, e, o, s'⟩ :: history) s'

/-- Every step of the history meets a condition that may look at what came before. -/
def Meets (condition : List (Occurrence σ ε ο) → Occurrence σ ε ο → Prop) :
    List (Occurrence σ ε ο) → Prop
  | [] => True
  | t :: history => condition history t ∧ Meets condition history

variable {step : σ → ε → Except φ (σ × ο)} {initial : σ → Prop}
  {condition : List (Occurrence σ ε ο) → Occurrence σ ε ο → Prop}

/-- The invariant rule: what holds at the start and is kept by every step that
meets the condition holds after every run whose steps meet it. -/
theorem Run.invariant {I : List (Occurrence σ ε ο) → σ → Prop}
    (base : ∀ s, initial s → I [] s)
    (preserved : ∀ history s e o s', Run step initial history s → Meets condition history →
      I history s → step s e = .ok (s', o) → condition history ⟨s, e, o, s'⟩ →
      I (⟨s, e, o, s'⟩ :: history) s')
    {history : List (Occurrence σ ε ο)} {s : σ} (run : Run step initial history s)
    (meets : Meets condition history) : I history s := by
  induction run with
  | start here => exact base _ here
  | next run taken ih => exact preserved _ _ _ _ _ run meets.2 (ih meets.2) taken meets.1

/-- The rule for what every step keeps, whatever came before it. -/
theorem Run.always {I : List (Occurrence σ ε ο) → σ → Prop}
    (base : ∀ s, initial s → I [] s)
    (preserved : ∀ history s e o s', Run step initial history s → I history s →
      step s e = .ok (s', o) → I (⟨s, e, o, s'⟩ :: history) s')
    {history : List (Occurrence σ ε ο)} {s : σ} (run : Run step initial history s) :
    I history s := by
  induction run with
  | start here => exact base _ here
  | next run taken ih => exact preserved _ _ _ _ _ run ih taken

theorem Run.stateInvariant {I : σ → Prop} (base : ∀ s, initial s → I s)
    (preserved : ∀ s e o s', I s → step s e = .ok (s', o) → I s')
    {history : List (Occurrence σ ε ο)} {s : σ} (run : Run step initial history s) : I s :=
  run.always (I := fun _ s => I s) base fun _ s e o s' _ kept taken => preserved s e o s' kept taken

theorem Run.mono {initial' : σ → Prop} (wider : ∀ s, initial s → initial' s)
    {history : List (Occurrence σ ε ο)} {s : σ} (run : Run step initial history s) :
    Run step initial' history s := by
  induction run with
  | start here => exact .start (wider _ here)
  | next _ taken ih => exact .next ih taken

theorem Run.split {history later earlier : List (Occurrence σ ε ο)} {s : σ}
    {t : Occurrence σ ε ο} (run : Run step initial history s)
    (split : history = later ++ t :: earlier) :
    Run step initial earlier t.before ∧ step t.before t.event = .ok (t.after, t.outcome) := by
  induction run generalizing later with
  | start here => simp at split
  | next run taken ih =>
      cases later with
      | nil =>
          simp only [List.nil_append, List.cons.injEq] at split
          obtain ⟨rfl, rfl⟩ := split
          exact ⟨run, taken⟩
      | cons head tail =>
          simp only [List.cons_append, List.cons.injEq] at split
          exact ih split.2

theorem Meets.split {history later earlier : List (Occurrence σ ε ο)} {t : Occurrence σ ε ο}
    (meets : Meets condition history) (split : history = later ++ t :: earlier) :
    condition earlier t ∧ Meets condition earlier := by
  induction later generalizing history with
  | nil =>
      subst split
      exact meets
  | cons head tail ih =>
      subst split
      exact ih meets.2 rfl

theorem Meets.imp {condition' : List (Occurrence σ ε ο) → Occurrence σ ε ο → Prop}
    {history : List (Occurrence σ ε ο)}
    (weaker : ∀ past t, condition past t → condition' past t) (meets : Meets condition history) :
    Meets condition' history := by
  induction history with
  | nil => trivial
  | cons t past ih => exact ⟨weaker past t meets.1, ih meets.2⟩

theorem Meets.and {condition' : List (Occurrence σ ε ο) → Occurrence σ ε ο → Prop}
    {history : List (Occurrence σ ε ο)} (first : Meets condition history)
    (second : Meets condition' history) :
    Meets (fun past t => condition past t ∧ condition' past t) history := by
  induction history with
  | nil => trivial
  | cons t past ih => exact ⟨⟨first.1, second.1⟩, ih first.2 second.2⟩

def exec (step : σ → ε → Except φ (σ × ο)) (history : List (Occurrence σ ε ο)) (s : σ) :
    List ε → Except φ (List (Occurrence σ ε ο) × σ)
  | [] => .ok (history, s)
  | e :: events =>
      match step s e with
      | .ok (s', o) => exec step (⟨s, e, o, s'⟩ :: history) s' events
      | .error fault => .error fault

theorem exec_run {history history' : List (Occurrence σ ε ο)} {s s' : σ} {events : List ε}
    (run : Run step initial history s)
    (executed : exec step history s events = .ok (history', s')) :
    Run step initial history' s' := by
  induction events generalizing history s with
  | nil =>
      simp only [exec, Except.ok.injEq, Prod.mk.injEq] at executed
      obtain ⟨rfl, rfl⟩ := executed
      exact run
  | cons e events ih =>
      simp only [exec] at executed
      split at executed
      · next s₁ o taken => exact ih (.next run taken) executed
      · cases executed

def reaches (step : σ → ε → Except φ (σ × ο)) (s : σ) (events : List ε)
    (check : List (Occurrence σ ε ο) → σ → Bool) : Bool :=
  match exec step [] s events with
  | .ok (history, s') => check history s'
  | .error _ => false

theorem reaches_run (step : σ → ε → Except φ (σ × ο)) {s : σ} (here : initial s)
    (events : List ε) (check : List (Occurrence σ ε ο) → σ → Bool)
    (checked : reaches step s events check = true) :
    ∃ history s', Run step initial history s' ∧ check history s' = true := by
  unfold reaches at checked
  split at checked
  · next history s' executed =>
    exact ⟨history, s', exec_run (.start here) executed, checked⟩
  · cases checked

instance Meets.decidable [∀ past t, Decidable (condition past t)] :
    ∀ history, Decidable (Meets condition history)
  | [] => .isTrue trivial
  | t :: history =>
      have := Meets.decidable history
      inferInstanceAs (Decidable (condition history t ∧ Meets condition history))

end Transition

import Mathlib.Data.List.Basic

/-! Machines that take an input at every step: the states they reach while every step meets
a condition. -/
namespace Ant.Library.Transition

variable {σ α : Type}

/-- The states reached from `start` by steps that are allowed. -/
inductive Reach (step : α → σ → Option σ) (allowed : σ → α → Prop) (start : σ) : σ → Prop
  | start : Reach step allowed start start
  | step (state next : σ) (input : α) (reached : Reach step allowed start state) (fair : allowed state input)
      (moved : step input state = some next) : Reach step allowed start next

section Rules
variable {step : α → σ → Option σ} {allowed : σ → α → Prop} {start : σ}

theorem Reach.invariant {state : σ} (reached : Reach step allowed start state) (invariant : σ → Prop)
    (first : invariant start)
    (keeps : ∀ state next input, invariant state → allowed state input → step input state = some next → invariant next) :
    invariant state := by
  induction reached with
  | start => exact first
  | step state next input _ fair moved ih => exact keeps state next input ih fair moved

theorem Reach.weaken {allowed' : σ → α → Prop} {state : σ} (reached : Reach step allowed start state)
    (weaker : ∀ state input, allowed state input → allowed' state input) : Reach step allowed' start state := by
  induction reached with
  | start => exact .start
  | step state next input _ fair moved ih => exact .step state next input ih (weaker state input fair) moved

end Rules

def follow (step : α → σ → Option σ) (allowed : σ → α → Bool) : List α → σ → Option σ
  | [],state => some state
  | input :: rest,state => if allowed state input then (step input state).bind (follow step allowed rest) else none

theorem reach_of_follow {step : α → σ → Option σ} {allowed : σ → α → Bool} {inputs : List α} {start last : σ} (state : σ)
    (reached : Reach step (fun state input => allowed state input = true) start state)
    (followed : follow step allowed inputs state = some last) :
    Reach step (fun state input => allowed state input = true) start last := by
  induction inputs generalizing state with
  | nil =>
    cases followed
    exact reached
  | cons input rest ih =>
    simp only [follow] at followed
    split at followed
    next fair =>
      obtain ⟨next,moved,others⟩ := Option.bind_eq_some_iff.mp followed
      exact ih next (.step state next input reached fair moved) others
    next => contradiction

end Ant.Library.Transition

import Mathlib.Data.List.Basic

/-! Steps that change a state and may fail on the way, with what they have done so far. -/
namespace Ant.Library.Effect

variable {ε σ α : Type}

abbrev Action (ε σ : Type) := σ → σ × Option ε

def done : Action ε σ := fun state => (state,none)

def fail (error : ε) : Action ε σ := fun state => (state,some error)

def andThen (first second : Action ε σ) : Action ε σ := fun state =>
  match first state with
  | (next,none) => second next
  | (next,some error) => (next,some error)

/-- A step whose failure is ignored; what it did before it failed stays. -/
def attempt (step : Action ε σ) : Action ε σ := fun state => ((step state).1,none)

def update (step : σ → Except ε σ) : Action ε σ := fun state =>
  match step state with
  | .ok next => (next,none)
  | .error error => (state,some error)

def mapError {ε' : Type} (rename : ε → ε') (step : Action ε σ) : Action ε' σ := fun state =>
  ((step state).1,(step state).2.map rename)

def forEach (body : α → Action ε σ) : List α → Action ε σ
  | [] => done
  | item :: rest => andThen (body item) (forEach body rest)

variable {step first : Action ε σ} {state final : σ} {ε' : Type} {body : α → Action ε σ}

theorem update_success {step : σ → Except ε σ} (ok : update step state = (final,none)) : step state = .ok final := by
  unfold update at ok
  split at ok
  next next reached =>
    cases ok
    exact reached
  next => cases ok

theorem mapError_success {rename : ε → ε'} (ok : mapError rename step state = (final,none)) : step state = (final,none) := by
  simp only [mapError,Prod.mk.injEq,Option.map_eq_none_iff] at ok
  rw [← ok.1,← ok.2]

theorem andThen_success {second : Action ε σ} (ok : andThen first second state = (final,none)) :
    ∃ middle, first state = (middle,none) ∧ second middle = (final,none) := by
  unfold andThen at ok
  split at ok
  next middle reached => exact ⟨middle,reached,ok⟩
  next => cases ok

theorem andThen_of_ok (first second : Action ε σ) (state middle : σ) (ok : first state = (middle,none)) :
    andThen first second state = second middle := by
  simp [andThen,ok]

theorem andThen_of_error (second : Action ε σ) {middle : σ} {error : ε} (failed : first state = (middle,some error)) :
    andThen first second state = (middle,some error) := by
  simp [andThen,failed]

theorem andThen_assoc (first second third : Action ε σ) :
    andThen (andThen first second) third = andThen first (andThen second third) := by
  funext state
  cases reached : first state with
  | mk middle result =>
    cases result with
    | none => simp only [andThen,reached]
    | some error => simp only [andThen,reached]

theorem andThen_done_right (step : Action ε σ) : andThen step done = step := by
  funext state
  cases reached : step state with
  | mk middle result => cases result <;> simp [andThen,done,reached]

theorem forEach_singleton {item : α} : forEach body [item] = body item :=
  andThen_done_right (body item)

theorem forEach_append (body : α → Action ε σ) (before after : List α) :
    forEach body (before ++ after) = andThen (forEach body before) (forEach body after) := by
  induction before with
  | nil => rfl
  | cons item before ih => rw [List.cons_append,forEach,ih,forEach,andThen_assoc]

section
variable (invariant : σ → Prop)
include invariant

theorem update_keeps {step : σ → Except ε σ}
    (keeps : ∀ state next, invariant state → step state = .ok next → invariant next) (state : σ) (holds : invariant state) :
    invariant (update step state).1 := by
  unfold update
  split
  next next reached => exact keeps state next holds reached
  next => exact holds

theorem attempt_keeps (keeps : ∀ state, invariant state → invariant (step state).1) (state : σ) (holds : invariant state) :
    invariant (attempt step state).1 := keeps state holds

theorem mapError_keeps {rename : ε → ε'} (keeps : ∀ state, invariant state → invariant (step state).1) (state : σ)
    (holds : invariant state) :
    invariant (mapError rename step state).1 := keeps state holds

theorem andThen_keeps (first second : Action ε σ) (one : ∀ state, invariant state → invariant (first state).1)
    (two : ∀ state, invariant state → invariant (second state).1) (state : σ) (holds : invariant state) :
    invariant (andThen first second state).1 := by
  have after := one state holds
  unfold andThen
  split
  next middle reached =>
    rw [reached] at after
    exact two middle after
  next middle error reached =>
    rw [reached] at after
    exact after

theorem forEach_keeps (body : α → Action ε σ) (items : List α)
    (step : ∀ item ∈ items, ∀ state, invariant state → invariant (body item state).1) (state : σ) (holds : invariant state) :
    invariant (forEach body items state).1 := by
  induction items generalizing state with
  | nil => exact holds
  | cons item items ih =>
    exact andThen_keeps invariant (body item) (forEach body items) (step item (by simp))
      (ih fun other member => step other (by simp [member])) state holds

end

/-- Two steps do the same, as far as a relation between their states can tell. -/
def Alike {τ : Type} (relation : σ → τ → Prop) (one : Action ε σ) (two : Action ε τ) : Prop :=
  ∀ state other, relation state other → (one state).2 = (two other).2 ∧ relation (one state).1 (two other).1

section
variable {τ : Type} {relation : σ → τ → Prop}

theorem andThen_alike {first second : Action ε σ} {first' second' : Action ε τ} (one : Alike relation first first')
    (two : Alike relation second second') : Alike relation (andThen first second) (andThen first' second') := by
  intro state other related
  obtain ⟨errors,after⟩ := one state other related
  cases reached : first state with
  | mk middle result =>
    cases also : first' other with
    | mk middle' result' =>
      rw [reached,also] at errors after
      subst errors
      cases result with
      | none =>
        rw [andThen_of_ok _ _ _ _ reached,andThen_of_ok _ _ _ _ also]
        exact two middle middle' after
      | some error =>
        rw [andThen_of_error _ reached,andThen_of_error _ also]
        exact ⟨rfl,after⟩

theorem forEach_alike {body : α → Action ε σ} {body' : α → Action ε τ} (items : List α)
    (step : ∀ item, Alike relation (body item) (body' item)) : Alike relation (forEach body items) (forEach body' items) := by
  induction items with
  | nil => exact fun _ _ related => ⟨rfl,related⟩
  | cons item items ih => exact andThen_alike (step item) ih

end

theorem forEach_map {β : Type} (body : β → Action ε σ) (name : α → β) (items : List α) :
    forEach body (items.map name) = forEach (fun item => body (name item)) items := by
  induction items with
  | nil => rfl
  | cons item items ih => rw [List.map_cons,forEach,ih,forEach]

theorem forEach_run (property : List α → σ → Prop) {items : List α}
    (step : ∀ before item after, items = before ++ item :: after → ∀ state next, property before state → body item state = (next,none) → property (before ++ [item]) next)
    (start : property [] state) (ok : forEach body items state = (final,none)) : property items final := by
  have onward : ∀ before after state, items = before ++ after → property before state →
      forEach body after state = (final,none) → property items final := by
    intro before after
    induction after generalizing before with
    | nil =>
      intro state split holds reached
      cases reached
      simpa [split] using holds
    | cons item after ih =>
      intro state split holds reached
      obtain ⟨middle,first,rest⟩ := andThen_success reached
      exact ih (before ++ [item]) middle (by simpa using split) (step before item after split state middle holds first) rest
  exact onward [] items state rfl start ok

end Ant.Library.Effect

import Mathlib.Data.List.Basic

/-! Alternatives that are tried in order until one succeeds. -/
namespace Ant.Library.Fallback

variable {α β γ : Type}

theorem findSome_flatMap (f : α → List β) (g : β → Option γ) (alternatives : List α) :
    (alternatives.flatMap f).findSome? g = alternatives.findSome? fun alternative => (f alternative).findSome? g := by
  induction alternatives with
  | nil => rfl
  | cons first rest ih =>
    rw [List.flatMap_cons,List.findSome?_append,ih,List.findSome?_cons]
    cases (f first).findSome? g with
    | none => rfl
    | some result => rfl

/-- Where only one alternative can give a result, the search ends with it exactly when nothing
before that alternative succeeds. -/
theorem findSome_eq_some_at [DecidableEq α] {f : α → Option β} {result : β} {chosen : α}
    (only : ∀ alternative, f alternative = some result → alternative = chosen) {alternatives : List α}
    (listed : chosen ∈ alternatives) : alternatives.findSome? f = some result ↔
      (∀ earlier ∈ alternatives.takeWhile (· ≠ chosen), f earlier = none) ∧ f chosen = some result := by
  induction alternatives with
  | nil => simp at listed
  | cons first rest ih =>
    by_cases same : first = chosen
    · subst same
      cases given : f first with
      | none =>
        have elsewhere : rest.findSome? f ≠ some result := by
          intro found
          obtain ⟨other,_,gives⟩ := List.exists_of_findSome?_eq_some found
          rw [only other gives,given] at gives
          cases gives
        simp [given,elsewhere]
      | some value => simp [given]
    · have later : chosen ∈ rest := (List.mem_cons.mp listed).resolve_left (Ne.symm same)
      cases given : f first with
      | none => simp [same,given,ih later]
      | some value =>
        have different : value ≠ result := fun equal => same (only first (equal ▸ given))
        simp [same,given,different]

end Ant.Library.Fallback

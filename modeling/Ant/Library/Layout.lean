import Mathlib.Data.List.Basic

/-! Code as a list of lines, and fragments of it that stand at an address. -/
namespace Ant.Library.Layout

variable {α : Type}

def Stands (code : List α) (base : Nat) (fragment : List α) : Prop :=
  ∀ index line, fragment[index]? = some line → code[base + index]? = some line

theorem stands_whole {code : List α} : Stands code 0 code := by
  intro index line found
  rwa [Nat.zero_add]

theorem stands_nil {code : List α} {base : Nat} : Stands code base [] := by
  intro index line found
  simp at found

theorem stands_cons (code : List α) (base : Nat) (line : α) (rest : List α) :
    Stands code base (line :: rest) ↔ code[base]? = some line ∧ Stands code (base + 1) rest := by
  constructor
  · intro stands
    refine ⟨by simpa using stands 0 line rfl,fun index other found => ?_⟩
    rw [Nat.add_assoc,Nat.add_comm 1 index]
    exact stands (index + 1) other (by simpa using found)
  · rintro ⟨first,others⟩ index other found
    cases index with
    | zero =>
      rw [← found]
      exact first
    | succ index =>
      have later := others index other found
      rwa [Nat.add_assoc,Nat.add_comm 1 index] at later

theorem stands_append (code : List α) (base : Nat) (first second : List α) :
    Stands code base (first ++ second) ↔ Stands code base first ∧ Stands code (base + first.length) second := by
  induction first generalizing base with
  | nil => simp [stands_nil]
  | cons line first ih =>
    rw [List.cons_append,stands_cons,stands_cons,ih,and_assoc,List.length_cons,Nat.add_assoc,Nat.add_comm 1]

end Ant.Library.Layout

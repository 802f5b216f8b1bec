import Mathlib.Data.List.Basic

/-! A list in which an element that is taken out leaves its place empty, and the elements that are
left, each with its place. -/
namespace Ant.Library.Tombstones
open List
variable {α : Type}

def numbered : Nat → List (Option α) → List (Nat × α)
  | _,[] => []
  | start,none :: rest => numbered (start + 1) rest
  | start,some item :: rest => (start,item) :: numbered (start + 1) rest

theorem numbered_append (start : Nat) (first second : List (Option α)) :
    numbered start (first ++ second) = numbered start first ++ numbered (start + first.length) second := by
  induction first generalizing start with
  | nil => simp [numbered]
  | cons place first ih =>
    have shift : start + 1 + first.length = start + (place :: first).length := by
      rw [length_cons]
      omega
    cases place with
    | none => rw [cons_append,numbered,numbered,ih,shift]
    | some item => rw [cons_append,numbered,numbered,ih,shift,cons_append]

section
variable (start : Nat) (places : List (Option α))
include start places

theorem numbered_range : ∀ item ∈ numbered start places, start ≤ item.1 ∧ item.1 < start + places.length := by
  induction places generalizing start with
  | nil => simp [numbered]
  | cons place rest ih =>
    intro item member
    rw [length_cons]
    cases place with
    | none =>
      have later := ih (start + 1) item member
      omega
    | some first =>
      rw [numbered,mem_cons] at member
      obtain rfl | inRest := member
      · omega
      · have later := ih (start + 1) item inRest
        omega

theorem numbered_dead (dead : ∀ place ∈ places, place = none) : numbered start places = [] := by
  induction places generalizing start with
  | nil => rfl
  | cons place rest ih =>
    rw [forall_mem_cons] at dead
    rw [dead.1,numbered,ih _ dead.2]

theorem numbered_split {number : Nat} {item : α} (there : (number,item) ∈ numbered start places) :
    ∃ before after, places = before ++ some item :: after ∧ number = start + before.length := by
  induction places generalizing start with
  | nil => simp [numbered] at there
  | cons place rest ih =>
    have further (inRest : (number,item) ∈ numbered (start + 1) rest) :
        ∃ before after, place :: rest = before ++ some item :: after ∧ number = start + before.length := by
      obtain ⟨before,after,rfl,rfl⟩ := ih (start + 1) inRest
      exact ⟨place :: before,after,rfl,by rw [length_cons]; omega⟩
    cases place with
    | none => exact further there
    | some first =>
      rw [numbered,mem_cons] at there
      obtain here | inRest := there
      · cases here
        exact ⟨[],rest,rfl,rfl⟩
      · exact further inRest

theorem numbered_first {number : Nat} {item : α} {rest : List (Nat × α)}
    (first : numbered start places = (number,item) :: rest) :
    ∃ dead after, places = dead ++ some item :: after ∧ (∀ place ∈ dead, place = none) ∧ number = start + dead.length ∧
      rest = numbered (number + 1) after := by
  induction places generalizing start with
  | nil => cases first
  | cons place places ih =>
    cases place with
    | none =>
      obtain ⟨dead,after,rfl,empty,rfl,remains⟩ := ih (start + 1) first
      refine ⟨none :: dead,after,rfl,?_,by rw [length_cons]; omega,remains⟩
      simpa using empty
    | some other =>
      rw [numbered,List.cons.injEq] at first
      obtain ⟨here,remains⟩ := first
      cases here
      exact ⟨[],places,rfl,by simp,rfl,remains.symm⟩

end

end Ant.Library.Tombstones

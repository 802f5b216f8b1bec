import Mathlib.Data.Nat.ModEq

/-! Linear probing around a circular table: the order in which the slots of a
table are visited from a home slot, and the search for the first free one. -/
namespace Ant.Library.Probe

def slot (size home step : Nat) : Nat := (home + step) % size

theorem slot_lt (size home step : Nat) (nonempty : 0 < size) : slot size home step < size :=
  Nat.mod_lt _ nonempty

theorem slot_zero {size home : Nat} (inside : home < size) : slot size home 0 = home :=
  Nat.mod_eq_of_lt inside

theorem slot_next (size home step : Nat) : (slot size home step + 1) % size = slot size home (step+1) := by
  unfold slot
  rw [Nat.mod_add_mod,Nat.add_assoc]

theorem exists_step {size home target : Nat} (inside : home < size) (bound : target < size) :
    ∃ step < size, slot size home step = target := by
  by_cases ahead : home ≤ target
  · refine ⟨target - home,by omega,?_⟩
    unfold slot
    rw [Nat.add_sub_cancel' ahead]
    exact Nat.mod_eq_of_lt bound
  · refine ⟨target + size - home,by omega,?_⟩
    unfold slot
    have turn : home + (target + size - home) = target + size := by omega
    rw [turn,Nat.add_mod_right]
    exact Nat.mod_eq_of_lt bound

def findFree (free : Nat → Bool) (size : Nat) : Nat → Nat → Option Nat
  | 0,_ => none
  | probes+1,index => if free index then some index else findFree free size probes ((index + 1) % size)

theorem findFree_none (free : Nat → Bool) (size home : Nat) (probes step : Nat)
    (result : findFree free size probes (slot size home step) = none) :
    ∀ between, step ≤ between → between < step + probes → free (slot size home between) = false := by
  induction probes generalizing step with
  | zero => intro between low high; omega
  | succ probes ih =>
    unfold findFree at result
    split at result
    next here => cases result
    next taken =>
      rw [slot_next] at result
      intro between low high
      rcases Nat.eq_or_lt_of_le low with rfl | later
      · simpa using taken
      · exact ih (step+1) result between later (by omega)

theorem findFree_isSome {free : Nat → Bool} {size home target : Nat} (inside : home < size) (bound : target < size)
    (isFree : free target = true) : ∃ found, findFree free size size home = some found := by
  cases result : findFree free size size home with
  | some found => exact ⟨found,rfl⟩
  | none =>
    obtain ⟨step,within,position⟩ := exists_step inside bound
    rw [← slot_zero inside] at result
    have taken := findFree_none free size home size 0 result step (Nat.zero_le _) (by omega)
    rw [position,isFree] at taken
    contradiction

end Ant.Library.Probe

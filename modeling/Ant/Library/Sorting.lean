import Mathlib.Data.List.Basic
import Mathlib.Data.Ordering.Basic

/-! Sorting by a `lessThan` predicate that compares several keys in turn. -/
namespace Ant.Library.Sorting

variable {α κ : Type}

private theorem not_lt_iff_isLE (cmp : α → α → Ordering) [Std.OrientedCmp cmp] (a b : α) :
    (!(cmp b a == .lt)) = (cmp a b).isLE := by
  have swapped : cmp b a = (cmp a b).swap := Std.OrientedCmp.eq_swap
  rw [swapped]
  cases cmp a b <;> rfl

theorem mergeSort_sorted (cmp : α → α → Ordering) [Std.TransCmp cmp] {lessThan : α → α → Bool}
    (same : ∀ a b, lessThan a b = (cmp a b == .lt)) {items : List α} :
    (items.mergeSort fun a b => !lessThan b a).Pairwise fun a b => lessThan b a = false := by
  have transitive : ∀ a b c, (!lessThan b a) = true → (!lessThan c b) = true → (!lessThan c a) = true := by
    intro a b c first second
    simp only [same,not_lt_iff_isLE] at first second ⊢
    exact Std.TransCmp.isLE_trans first second
  have total : ∀ a b, (!lessThan b a || !lessThan a b) = true := by
    intro a b
    have swapped : cmp b a = (cmp a b).swap := Std.OrientedCmp.eq_swap
    simp only [same]
    rw [swapped]
    cases cmp a b <;> rfl
  exact (List.pairwise_mergeSort transitive total items).imp fun ordered => by simpa using ordered

section Keys
variable [LT κ] [LE κ] [DecidableLT κ] [DecidableEq κ] [Ord κ] [Std.LawfulOrderOrd κ] [Std.LawfulOrderLT κ]
  [Std.LawfulEqOrd κ]

theorem lexicographic_lt (key : α → κ) (rest : α → α → Ordering) (a b : α) :
    (if key a ≠ key b then decide (key a < key b) else rest a b == .lt) = (compareLex (compareOn key) rest a b == .lt) := by
  split
  next different =>
    have below : compare (key a) (key b) = .lt ↔ key a < key b := Std.compare_eq_lt
    unfold compareLex compareOn
    cases order : compare (key a) (key b) <;> simp_all
  next same =>
    have equal : key a = key b := by simpa using same
    simp [compareLex,compareOn,equal]

end Keys

theorem then_lt (first rest : Ordering) :
    (if first ≠ .eq then first == .lt else rest == .lt) = (first.then rest == .lt) := by
  cases first <;> rfl

section Ascending
variable {β : Type}

def insertAscending (item : Nat × β) : List (Nat × β) → List (Nat × β)
  | [] => [item]
  | first :: rest => if item.1 < first.1 then item :: first :: rest else first :: insertAscending item rest

def ascending (items : List (Nat × β)) : List (Nat × β) := items.foldl (fun sorted item => insertAscending item sorted) []

theorem insertAscending_perm (item : Nat × β) (items : List (Nat × β)) : (insertAscending item items).Perm (item :: items) := by
  induction items with
  | nil => exact .refl _
  | cons first rest ih =>
    rw [insertAscending]
    split
    · exact .refl _
    · exact (ih.cons first).trans (.swap item first rest)

theorem insertAscending_sorted {item : Nat × β} {items : List (Nat × β)} (sorted : items.Pairwise fun a b => a.1 ≤ b.1) :
    (insertAscending item items).Pairwise fun a b => a.1 ≤ b.1 := by
  induction items with
  | nil => simp [insertAscending]
  | cons first rest ih =>
    rw [List.pairwise_cons] at sorted
    rw [insertAscending]
    split
    · next less =>
      refine List.pairwise_cons.mpr ⟨fun other member => ?_,List.pairwise_cons.mpr sorted⟩
      obtain rfl | later := List.mem_cons.mp member
      · exact Nat.le_of_lt less
      · exact Nat.le_trans (Nat.le_of_lt less) (sorted.1 other later)
    · next notLess =>
      refine List.pairwise_cons.mpr ⟨fun other member => ?_,ih sorted.2⟩
      obtain rfl | later := List.mem_cons.mp ((insertAscending_perm item rest).mem_iff.mp member)
      · exact Nat.le_of_not_lt notLess
      · exact sorted.1 other later

theorem ascending_perm (items : List (Nat × β)) : (ascending items).Perm items := by
  have go (done : List (Nat × β)) : (items.foldl (fun sorted item => insertAscending item sorted) done).Perm (done ++ items) := by
    induction items generalizing done with
    | nil => simp
    | cons item items ih =>
      refine (ih _).trans (((insertAscending_perm item done).append_right items).trans ?_)
      exact List.perm_middle.symm
  exact go []

end Ascending

end Ant.Library.Sorting

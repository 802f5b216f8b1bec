import Mathlib.Data.List.Dedup
import Mathlib.Data.List.Perm.Basic

/-! Lists of keyed values: a list that is sorted by its keys is made up of the groups of its keys. -/
namespace Ant.Library.Groups
open List

variable {κ α : Type} {le : κ → κ → Prop}

def spread (keys : List κ) (values : κ → List α) : List (κ × α) := keys.flatMap fun key => (values key).map fun value => (key,value)

theorem spread_perm (keys : List κ) {first second : κ → List α} (perm : ∀ key ∈ keys, (first key).Perm (second key)) :
    (spread keys first).Perm (spread keys second) := by
  induction keys with
  | nil => exact .refl _
  | cons key keys ih =>
    have here := (perm key mem_cons_self).map fun value => (key,value)
    exact here.append (ih fun other member => perm other (mem_cons_of_mem _ member))

variable {keys : List κ} {values : κ → List α} {key : κ} {items : List (κ × α)}

theorem spread_sorted (reflexive : ∀ key, le key key) (sorted : keys.Pairwise le) :
    (spread keys values).Pairwise fun a b => le a.1 b.1 := by
  induction keys with
  | nil => exact .nil
  | cons key keys ih =>
    rw [pairwise_cons] at sorted
    rw [spread,flatMap_cons,pairwise_append]
    refine ⟨?_,ih sorted.2,?_⟩
    · rw [pairwise_map]
      exact pairwise_of_forall fun _ _ => reflexive key
    · intro a here b later
      obtain ⟨value,_,rfl⟩ := mem_map.mp here
      obtain ⟨other,member,place⟩ := mem_flatMap.mp later
      obtain ⟨_,_,rfl⟩ := mem_map.mp place
      exact sorted.1 other member

/-- What differs at one key only differs as a whole. -/
theorem flatMap_eq_at {β : Type} (distinct : keys.Nodup) {first second : κ → List β} (member : key ∈ keys)
    (elsewhere : ∀ other ∈ keys, other ≠ key → first other = second other) (same : keys.flatMap first = keys.flatMap second) :
    first key = second key := by
  induction keys with
  | nil => contradiction
  | cons head keys ih =>
    rw [nodup_cons] at distinct
    rw [flatMap_cons] at same
    rcases mem_cons.mp member with rfl | later
    · have rest : keys.flatMap first = keys.flatMap second := by
        apply flatMap_congr
        intro other place
        exact elsewhere other (mem_cons_of_mem _ place) fun equal => distinct.1 (equal ▸ place)
      rw [rest] at same
      exact append_cancel_right same
    · have here := elsewhere head mem_cons_self fun equal => distinct.1 (equal ▸ later)
      rw [here] at same
      exact ih distinct.2 later (fun other place => elsewhere other (mem_cons_of_mem _ place)) (append_cancel_left same)

variable [DecidableEq κ]

/-- The values of one key, in the order of the list. -/
def group (key : κ) (items : List (κ × α)) : List α := (items.filter fun item => item.1 = key).map Prod.snd

theorem group_append (key : κ) (first second : List (κ × α)) : group key (first ++ second) = group key first ++ group key second := by
  simp [group]

theorem group_perm {first second : List (κ × α)} (perm : first.Perm second) (key : κ) : (group key first).Perm (group key second) :=
  (perm.filter _).map _

theorem mem_keys_iff (key : κ) (items : List (κ × α)) : group key items ≠ [] ↔ key ∈ items.map Prod.fst := by
  simp [group]

theorem group_own {other : κ} (values : List α) :
    group key (values.map fun value => (other,value)) = if other = key then values else [] := by
  by_cases same : other = key
  · simp [group,same,filter_map,Function.comp_def]
  · simp [group,same,Function.comp_def]

theorem group_spread (distinct : keys.Nodup) (member : key ∈ keys) : group key (spread keys values) = values key := by
  have absent (others : List κ) (missing : key ∉ others) : group key (spread others values) = [] := by
    induction others with
    | nil => rfl
    | cons other others ih =>
      rw [mem_cons,not_or] at missing
      rw [spread,flatMap_cons,group_append,group_own,if_neg (Ne.symm missing.1)]
      exact ih missing.2
  induction keys with
  | nil => contradiction
  | cons first keys ih =>
    rw [nodup_cons] at distinct
    rw [spread,flatMap_cons,group_append,group_own]
    split
    next same =>
      subst same
      have rest := absent keys distinct.1
      rw [spread] at rest
      rw [rest,append_nil]
    next other =>
      have later : key ∈ keys := (mem_cons.mp member).resolve_left (Ne.symm other)
      exact ih distinct.2 later

/-- The items of a least key come first. -/
theorem sorted_split (antisymm : ∀ a b, le a b → le b a → a = b) (sorted : items.Pairwise fun a b => le a.1 b.1)
    (least : ∀ item ∈ items, le key item.1) :
    items = ((group key items).map fun value => (key,value)) ++ items.filter fun item => item.1 ≠ key := by
  induction items with
  | nil => rfl
  | cons item items ih =>
    rw [pairwise_cons] at sorted
    have rest := ih sorted.2 fun other member => least other (mem_cons_of_mem _ member)
    by_cases same : item.1 = key
    · have front : (item :: items).filter (fun item => item.1 ≠ key) = items.filter fun item => item.1 ≠ key := by
        simp [same]
      have values : group key (item :: items) = item.2 :: group key items := by simp [group,same]
      rw [front,values,map_cons,cons_append,← rest,← same]
    · have gone : group key (item :: items) = [] := by
        rw [← Decidable.not_not (p := group key (item :: items) = []),← ne_eq,mem_keys_iff]
        intro member
        obtain ⟨other,place,rfl⟩ := mem_map.mp member
        rcases mem_cons.mp place with rfl | later
        · exact same rfl
        · exact same (antisymm _ _ (sorted.1 other later) (least item mem_cons_self))
      have kept : ∀ other ∈ item :: items, decide (other.1 ≠ key) = true := by
        intro other member
        have missing : key ∉ (item :: items).map Prod.fst := by rw [← mem_keys_iff,gone]; simp
        simpa using fun equal : other.1 = key => missing (equal ▸ mem_map_of_mem member)
      rw [gone,filter_eq_self.mpr kept]
      rfl

theorem eq_spread (antisymm : ∀ a b, le a b → le b a → a = b) (distinct : keys.Nodup) (ascending : keys.Pairwise le)
    (sorted : items.Pairwise fun a b => le a.1 b.1) (reflexive : ∀ key, le key key) (cover : ∀ item ∈ items, item.1 ∈ keys) :
    items = spread keys fun key => group key items := by
  induction keys generalizing items with
  | nil =>
    have empty : items = [] := eq_nil_iff_forall_not_mem.mpr fun item member => absurd (cover item member) not_mem_nil
    rw [empty]
    rfl
  | cons key keys ih =>
    rw [nodup_cons] at distinct
    rw [pairwise_cons] at ascending
    have least : ∀ item ∈ items, le key item.1 := by
      intro item member
      rcases mem_cons.mp (cover item member) with same | later
      · rw [same]
        exact reflexive key
      · exact ascending.1 _ later
    have parts := sorted_split antisymm sorted least
    have rest := ih distinct.2 ascending.2 (sorted.filter fun item => item.1 ≠ key) (by
      intro item member
      rw [mem_filter] at member
      exact (mem_cons.mp (cover item member.1)).resolve_left (by simpa using member.2))
    have same : spread keys (fun other => group other (items.filter fun item => item.1 ≠ key)) = spread keys fun other => group other items := by
      apply flatMap_congr
      intro other member
      have different : other ≠ key := fun equal => distinct.1 (equal ▸ member)
      have stays : group other (items.filter fun item => item.1 ≠ key) = group other items := by
        rw [group,filter_filter]
        congr 2
        funext item
        by_cases here : item.1 = other
        · simp [here,different]
        · simp [here]
      exact congrArg _ stays
    conv_lhs => rw [parts,rest,same]
    rfl

end Ant.Library.Groups

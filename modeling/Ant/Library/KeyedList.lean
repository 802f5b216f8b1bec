import Mathlib.Data.List.Nodup
import Mathlib.Data.List.Perm.Basic

/-! Lists of keys and what is read at them. A key where nothing is read does not show. -/
namespace Ant.Library.KeyedList
open List
variable {κ ν : Type} [DecidableEq κ]

def shown (read : κ → Option ν) (keys : List κ) : List (κ × ν) := keys.filterMap fun key => (read key).map fun value => (key,value)

omit [DecidableEq κ] in
theorem mem_shown (read : κ → Option ν) (keys : List κ) (key : κ) (value : ν) :
    (key,value) ∈ shown read keys ↔ key ∈ keys ∧ read key = some value := by
  simp only [shown,mem_filterMap,Option.map_eq_some_iff,Prod.mk.injEq]
  constructor
  · rintro ⟨other,member,found,read,rfl,rfl⟩
    exact ⟨member,read⟩
  · rintro ⟨member,read⟩
    exact ⟨key,member,value,read,rfl,rfl⟩

omit [DecidableEq κ] in
theorem shown_keys (read : κ → Option ν) (keys : List κ) :
    (shown read keys).map Prod.fst = keys.filter fun key => (read key).isSome := by
  induction keys with
  | nil => rfl
  | cons key keys ih =>
    unfold shown at ih ⊢
    cases value : read key with
    | none => simp [value,ih]
    | some value => simp [value,ih]

omit [DecidableEq κ] in
omit [DecidableEq κ] in
theorem shown_congr (first second : κ → Option ν) (keys : List κ) (same : ∀ key ∈ keys, first key = second key) :
    shown first keys = shown second keys := by
  exact filterMap_congr fun key member => by rw [same key member]

omit [DecidableEq κ] in
theorem shown_filter (read : κ → Option ν) (keys : List κ) :
    shown read (keys.filter fun key => (read key).isSome) = shown read keys := by
  induction keys with
  | nil => rfl
  | cons key keys ih =>
    unfold shown at ih ⊢
    cases value : read key with
    | none => simp [value,ih]
    | some value => simp [value,ih]

theorem filter_mem_of_sublist {part keys : List κ} (sublist : part.Sublist keys) (distinct : keys.Nodup) :
    (keys.filter fun key => key ∈ part) = part := by
  induction sublist with
  | slnil => rfl
  | @cons part keys key sublist ih =>
    rw [nodup_cons] at distinct
    have outside : key ∉ part := fun member => distinct.1 (sublist.subset member)
    rw [filter_cons_of_neg (by simpa using outside),ih distinct.2]
  | @cons_cons part keys key sublist ih =>
    rw [nodup_cons] at distinct
    have same : ∀ other ∈ keys, decide (other ∈ key :: part) = decide (other ∈ part) := by
      intro other member
      have different : other ≠ key := fun equal => distinct.1 (equal ▸ member)
      simp [different]
    rw [filter_cons_of_pos (by simp),filter_congr same,ih distinct.2]

/-- Two ways to go through keys show the same exactly when the second's keys that show stand in this
order among the first's, and the first reads at each of its keys what the second does. -/
theorem shown_eq_iff (first second : κ → Option ν) (keys others : List κ) (distinct : keys.Nodup) :
    shown first keys = shown second others ↔ (others.filter fun key => (second key).isSome).Sublist keys ∧
        ∀ key ∈ keys, first key = if key ∈ others then second key else none := by
  constructor
  · intro same
    constructor
    · rw [← shown_keys,← same,shown_keys]
      exact filter_sublist
    · intro key member
      have agree (value : ν) : first key = some value ↔ key ∈ others ∧ second key = some value := by
        rw [← mem_shown second others,← same,mem_shown]
        exact ⟨fun read => ⟨member,read⟩,fun both => both.2⟩
      split
      · next listed =>
        apply Option.ext
        intro value
        simpa [listed] using agree value
      · next unlisted =>
        rw [Option.eq_none_iff_forall_ne_some]
        intro value read
        exact unlisted ((agree value).mp read).1
  · rintro ⟨ordered,reads⟩
    have visible : ∀ key ∈ keys, (first key).isSome = decide (key ∈ others.filter fun key => (second key).isSome) := by
      intro key member
      rw [reads key member]
      split
      · next listed => simp [listed]
      · next unlisted => simp [unlisted]
    have keysSame : (keys.filter fun key => (first key).isSome) = others.filter fun key => (second key).isSome := by
      rw [filter_congr visible,filter_mem_of_sublist ordered distinct]
    rw [← shown_filter first,← shown_filter second,keysSame]
    apply shown_congr
    intro key member
    have listed : key ∈ others := mem_of_mem_filter member
    rw [reads key (ordered.subset member),if_pos listed]

end Ant.Library.KeyedList

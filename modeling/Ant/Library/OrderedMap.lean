import Mathlib.Data.List.Nodup

/-! Finite maps that keep the order in which their keys were added. -/
namespace Ant.Library.OrderedMap
open List

variable {κ α : Type} [DecidableEq κ]

def find (key : κ) : List (κ × α) → Option α
  | [] => none
  | (other,value) :: rest => if key = other then some value else find key rest

/-- A new key goes to the end; a new value of an old key stays in its place. -/
def put (key : κ) (value : α) : List (κ × α) → List (κ × α)
  | [] => [(key,value)]
  | (other,old) :: rest => if key = other then (key,value) :: rest else (other,old) :: put key value rest

@[simp] theorem find_nil (key : κ) : find key ([] : List (κ × α)) = none := rfl

theorem find_cons (key other : κ) (value : α) (rest : List (κ × α)) :
    find key ((other,value) :: rest) = if key = other then some value else find key rest := rfl

theorem put_nil (key : κ) (value : α) : put key value ([] : List (κ × α)) = [(key,value)] := rfl

theorem put_cons (key other : κ) (value old : α) (rest : List (κ × α)) :
    put key value ((other,old) :: rest) = if key = other then (key,value) :: rest else (other,old) :: put key value rest := rfl

theorem find_put (key other : κ) (value : α) (entries : List (κ × α)) :
    find other (put key value entries) = if other = key then some value else find other entries := by
  induction entries with
  | nil => simp [put_nil,find_cons]
  | cons entry rest ih =>
    obtain ⟨head,old⟩ := entry
    by_cases same : key = head
    · subst same
      by_cases asked : other = key
      · simp [put_cons,find_cons,asked]
      · simp [put_cons,find_cons,asked]
    · by_cases asked : other = head
      · subst asked
        simp [put_cons,find_cons,same,Ne.symm same]
      · simp [put_cons,find_cons,same,asked,ih]

theorem find_filter (keep : κ → Bool) (key : κ) (entries : List (κ × α)) :
    find key (entries.filter fun entry => keep entry.1) = if keep key then find key entries else none := by
  induction entries with
  | nil => simp
  | cons entry rest ih =>
    obtain ⟨head,old⟩ := entry
    by_cases kept : keep head = true
    · by_cases same : key = head
      · subst same
        simp [find_cons,kept]
      · simp [find_cons,kept,same,ih]
    · by_cases same : key = head
      · subst same
        simpa [kept] using ih
      · simp [find_cons,kept,same,ih]

theorem mem_keys_iff (key : κ) (entries : List (κ × α)) : key ∈ entries.map Prod.fst ↔ (find key entries).isSome := by
  induction entries with
  | nil => simp
  | cons entry rest ih =>
    obtain ⟨head,old⟩ := entry
    by_cases same : key = head
    · simp [find_cons,same]
    · simp [find_cons,same,ih]

section
variable (key : κ) (value : α) (entries : List (κ × α))
include key value entries

theorem find_of_mem (distinct : (entries.map Prod.fst).Nodup) (member : (key,value) ∈ entries) :
    find key entries = some value := by
  induction entries with
  | nil => contradiction
  | cons entry rest ih =>
    obtain ⟨head,old⟩ := entry
    obtain ⟨fresh,others⟩ := nodup_cons.mp distinct
    rcases mem_cons.mp member with here | below
    · cases here
      simp [find_cons]
    · have different : key ≠ head := by
        rintro rfl
        exact fresh (mem_map.mpr ⟨_,below,rfl⟩)
      simp [find_cons,different,ih others below]

theorem mem_of_find (found : find key entries = some value) : (key,value) ∈ entries := by
  induction entries with
  | nil => contradiction
  | cons entry rest ih =>
    obtain ⟨head,old⟩ := entry
    by_cases same : key = head
    · subst same
      simp only [find_cons,if_true,Option.some.injEq] at found
      simp [found]
    · exact mem_cons_of_mem _ (ih (by simpa [find_cons,same] using found))

theorem put_keys_nodup (distinct : (entries.map Prod.fst).Nodup) : ((put key value entries).map Prod.fst).Nodup := by
  induction entries with
  | nil => simp [put_nil]
  | cons entry rest ih =>
    obtain ⟨head,old⟩ := entry
    obtain ⟨fresh,others⟩ := nodup_cons.mp distinct
    by_cases same : key = head
    · subst same
      simpa [put_cons] using distinct
    · simp only [put_cons,same,if_false,map_cons,nodup_cons]
      refine ⟨?_,ih others⟩
      rw [mem_keys_iff,find_put,if_neg (Ne.symm same),← mem_keys_iff]
      exact fresh

theorem mem_put {entry : κ × α} (member : entry ∈ put key value entries) : entry = (key,value) ∨ entry ∈ entries := by
  induction entries with
  | nil => simpa [put_nil] using member
  | cons first rest ih =>
    rw [put_cons] at member
    split at member
    · rcases mem_cons.mp member with here | below
      · exact Or.inl here
      · exact Or.inr (mem_cons_of_mem _ below)
    · rcases mem_cons.mp member with here | below
      · exact Or.inr (here ▸ mem_cons_self)
      · exact (ih below).imp id (mem_cons_of_mem _)

end

section Values
variable {β : Type} (change : α → β)

theorem put_mapValues (key : κ) (value : α) (entries : List (κ × α)) :
    (put key value entries).map (Prod.map id change) = put key (change value) (entries.map (Prod.map id change)) := by
  induction entries with
  | nil => rfl
  | cons entry rest ih =>
    obtain ⟨head,old⟩ := entry
    by_cases same : key = head
    · simp [put_cons,same]
    · simp [put_cons,same,ih]

theorem find_mapValues (key : κ) (entries : List (κ × α)) :
    find key (entries.map (Prod.map id change)) = (find key entries).map change := by
  induction entries with
  | nil => rfl
  | cons entry rest ih =>
    obtain ⟨head,old⟩ := entry
    by_cases same : key = head
    · simp [find_cons,same]
    · simp [find_cons,same,ih]

end Values

end Ant.Library.OrderedMap

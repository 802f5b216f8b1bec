import Mathlib.Data.List.Forall2
import Mathlib.Data.List.Nodup
import Mathlib.Data.Finset.Card
import Mathlib.Data.Finset.Range

/-! Copying a graph of objects with a memo: a copy is allocated and remembered before its parts are
copied, so that cycles and sharing are kept. What a stretch of copying does to the store is one
relation, which composes. -/
namespace Ant.Library.GraphCopy
open List
variable {Node : Type}

structure Store (Node : Type) where
  heap : List Node
  seen : List (Nat × Nat)

def find (store : Store Node) (id : Nat) : Option Nat := store.seen.lookup id

def allocate (store : Store Node) (node : Node) : Store Node := {store with heap := store.heap ++ [node]}

def remember (store : Store Node) (id copy : Nat) : Store Node := {store with seen := (id,copy) :: store.seen}

def change (store : Store Node) (id : Nat) (f : Node → Node) : Store Node := {store with heap := store.heap.modify id f}

section
variable (store : Store Node)
include store

theorem find_remember (id copy other : Nat) :
    find (remember store id copy) other = if other = id then some copy else find store other := by
  unfold find remember
  rw [lookup_cons]
  by_cases same : other = id
  · simp [same]
  · have apart : (other == id) = false := by simpa using same
    simp [apart,same]

@[simp] theorem heap_remember (id copy : Nat) : (remember store id copy).heap = store.heap := rfl

end

def fill {α Value ε : Type} (clone : Store Node → Value → Except ε (Store Node × Value)) (value : α → Value)
    (push : α → Value → Node → Node) (copy : Nat) : List α → Store Node → Except ε (Store Node)
  | [],store => .ok store
  | part :: parts,store => match clone store (value part) with
    | .error failure => .error failure
    | .ok (cloned,result) => fill clone value push copy parts (change cloned copy (push part result))

variable {before after : Store Node} {pairs : List (Nat × Nat)} {hole : Option Nat} {id : Nat}

section Growth
variable (source : List Node) (same : (Nat → Nat → Prop) → Node → Node → Prop) (owns : Node → Option Nat) (reached : Nat → Prop)

/-- What a stretch of copying did, with the pairs of objects and copies that it made. One node may be
under construction outside of the stretch. A pair is remembered, or it belongs to a remembered one. -/
structure Grows (hole : Option Nat) (before after : Store Node) (pairs : List (Nat × Nat)) : Prop where
  longer : before.heap.length ≤ after.heap.length
  kept : ∀ id, id < before.heap.length → some id ≠ hole → after.heap[id]? = before.heap[id]?
  remembered : ∀ id copy, find before id = some copy → find after id = some copy
  recorded : ∀ id copy, find after id = some copy → find before id = some copy ∨ (id,copy) ∈ pairs
  range : ∀ pair ∈ pairs, before.heap.length ≤ pair.2 ∧ pair.2 < after.heap.length
  distinct : (pairs.map Prod.snd).Nodup
  done : ∀ pair ∈ pairs, ∃ node copy, source[pair.1]? = some node ∧ after.heap[pair.2]? = some copy ∧
    same (fun id copy => find before id = some copy ∨ (id,copy) ∈ pairs) node copy
  origin : ∀ pair ∈ pairs, (find after pair.1 = some pair.2 ∧ reached pair.1) ∨
    ∃ owner ∈ pairs, find after owner.1 = some owner.2 ∧ reached owner.1 ∧ ∃ node copy,
      source[owner.1]? = some node ∧ after.heap[owner.2]? = some copy ∧ owns node = some pair.1 ∧ owns copy = some pair.2

variable {source same owns reached}

theorem Grows.refl (hole : Option Nat) (store : Store Node) : Grows source same owns reached hole store store [] :=
  ⟨Nat.le_refl _,fun _ _ _ => rfl,fun _ _ found => found,fun _ _ found => .inl found,by simp,.nil,by simp,by simp⟩

theorem Grows.weaken (hole : Option Nat) (grows : Grows source same owns reached none before after pairs) :
    Grows source same owns reached hole before after pairs :=
  {grows with kept := fun id old _ => grows.kept id old (by simp)}

theorem Grows.change (store : Store Node) (id : Nat) (f : Node → Node) :
    Grows source same owns reached (some id) store (change store id f) [] where
  longer := by simp [GraphCopy.change]
  kept := by
    intro other _ different
    have apart : id ≠ other := fun equal => different (by rw [equal])
    simp [GraphCopy.change,apart]
  remembered := fun _ _ found => found
  recorded := fun _ _ found => .inl found
  range := by simp
  distinct := .nil
  done := by simp
  origin := by simp

variable (mono : ∀ (R S : Nat → Nat → Prop) (node copy : Node), (∀ id copy, R id copy → S id copy) → same R node copy → same S node copy)
include mono

theorem Grows.trans {first second third : Store Node} {more : List (Nat × Nat)}
    (outside : ∀ id, hole = some id → id < first.heap.length) (one : Grows source same owns reached hole first second pairs)
    (two : Grows source same owns reached hole second third more) :
    Grows source same owns reached hole first third (pairs ++ more) := by
  have new (pair : Nat × Nat) (member : pair ∈ pairs) : third.heap[pair.2]? = second.heap[pair.2]? := by
    have bounds := one.range pair member
    refine two.kept pair.2 bounds.2 ?_
    intro equal
    have := outside pair.2 equal.symm
    omega
  refine ⟨Nat.le_trans one.longer two.longer,?_,fun id copy found => two.remembered id copy (one.remembered id copy found),
    ?_,?_,?_,?_,?_⟩
  · intro id old different
    rw [two.kept id (Nat.lt_of_lt_of_le old one.longer) different,one.kept id old different]
  · intro id copy found
    rcases two.recorded id copy found with before | member
    · rcases one.recorded id copy before with before | member
      · exact .inl before
      · exact .inr (mem_append_left _ member)
    · exact .inr (mem_append_right _ member)
  · intro pair member
    rcases mem_append.mp member with member | member
    · have bounds := one.range pair member
      have := two.longer
      omega
    · have bounds := two.range pair member
      have := one.longer
      omega
  · rw [map_append]
    refine nodup_append'.mpr ⟨one.distinct,two.distinct,?_⟩
    intro id left right
    obtain ⟨pair,member,rfl⟩ := mem_map.mp left
    obtain ⟨other,later,equal⟩ := mem_map.mp right
    have := (one.range pair member).2
    have := (two.range other later).1
    omega
  · intro pair member
    rcases mem_append.mp member with member | member
    · obtain ⟨node,copy,found,made,relation⟩ := one.done pair member
      refine ⟨node,copy,found,(new pair member).trans made,mono _ _ node copy ?_ relation⟩
      rintro id copy (before | listed)
      · exact .inl before
      · exact .inr (mem_append_left _ listed)
    · obtain ⟨node,copy,found,made,relation⟩ := two.done pair member
      refine ⟨node,copy,found,made,mono _ _ node copy ?_ relation⟩
      rintro id copy (middle | listed)
      · rcases one.recorded id copy middle with before | listed
        · exact .inl before
        · exact .inr (mem_append_left _ listed)
      · exact .inr (mem_append_right _ listed)
  · intro pair member
    rcases mem_append.mp member with member | member
    · rcases one.origin pair member with ⟨found,here⟩ | ⟨owner,listed,found,here,node,copy,read,made,owned,copied⟩
      · exact .inl ⟨two.remembered _ _ found,here⟩
      · exact .inr ⟨owner,mem_append_left _ listed,two.remembered _ _ found,here,node,copy,read,
          (new owner listed).trans made,owned,copied⟩
    · rcases two.origin pair member with ⟨found,here⟩ | ⟨owner,listed,rest⟩
      · exact .inl ⟨found,here⟩
      · exact .inr ⟨owner,mem_append_right _ listed,rest⟩

theorem Grows.close {node start copy : Node} (read : source[id]? = some node) (unseen : find before id = none)
    (here : reached id)
    (filled : Grows source same owns reached (some before.heap.length) (remember (allocate before start) id before.heap.length) after pairs)
    (made : after.heap[before.heap.length]? = some copy)
    (relation : same (fun other copy => find after other = some copy) node copy) :
    Grows source same owns reached none before after ((id,before.heap.length) :: pairs) := by
  have opened : (remember (allocate before start) id before.heap.length).heap.length = before.heap.length + 1 := by
    simp [allocate]
  have longer := filled.longer
  have found : find after id = some before.heap.length := filled.remembered _ _ (by rw [find_remember,if_pos rfl])
  have recorded (other copy : Nat) (known : find after other = some copy) :
      find before other = some copy ∨ (other,copy) ∈ (id,before.heap.length) :: pairs := by
    rcases filled.recorded other copy known with early | member
    · rw [find_remember] at early
      split at early
      · next equal =>
        rw [equal,← Option.some.inj early]
        exact .inr (mem_cons_self ..)
      · exact .inl early
    · exact .inr (mem_cons_of_mem _ member)
  refine ⟨by omega,?_,?_,recorded,?_,?_,?_,?_⟩
  · intro other old _
    rw [filled.kept other (by omega) (by simp; omega)]
    simp [allocate,getElem?_append_left old]
  · intro other copy known
    refine filled.remembered other copy ?_
    have different : other ≠ id := by
      rintro rfl
      rw [unseen] at known
      exact absurd known (by simp)
    rw [find_remember,if_neg different]
    exact known
  · intro pair member
    rcases mem_cons.mp member with rfl | member
    · exact ⟨Nat.le_refl _,by omega⟩
    · have bounds := filled.range pair member
      omega
  · rw [map_cons,nodup_cons]
    refine ⟨?_,filled.distinct⟩
    intro member
    obtain ⟨pair,listed,equal⟩ := mem_map.mp member
    have bounds := filled.range pair listed
    omega
  · intro pair member
    rcases mem_cons.mp member with rfl | member
    · exact ⟨node,copy,read,made,mono _ _ node copy recorded relation⟩
    · obtain ⟨other,copied,found,written,related⟩ := filled.done pair member
      refine ⟨other,copied,found,written,mono _ _ other copied ?_ related⟩
      rintro one two (early | listed)
      · exact recorded one two (filled.remembered one two early)
      · exact .inr (mem_cons_of_mem _ listed)
  · intro pair member
    rcases mem_cons.mp member with rfl | member
    · exact .inl ⟨found,here⟩
    · rcases filled.origin pair member with direct | ⟨owner,listed,rest⟩
      · exact .inl direct
      · exact .inr ⟨owner,mem_cons_of_mem _ listed,rest⟩

omit mono in
theorem Grows.owned {part : Nat} {node owned nodeCopy ownedCopy : Node} (read : source[id]? = some node)
    (readPart : source[part]? = some owned) (unseen : find before id = none) (here : reached id)
    (owner : owns node = some part) (ownerCopy : owns nodeCopy = some before.heap.length)
    (relation : ∀ R : Nat → Nat → Prop, R part before.heap.length → same R node nodeCopy)
    (relationPart : ∀ R : Nat → Nat → Prop, same R owned ownedCopy) : Grows source same owns reached none before
      (remember (allocate (allocate before ownedCopy) nodeCopy) id (before.heap.length + 1))
      [(id,before.heap.length + 1),(part,before.heap.length)] := by
  have found : find (remember (allocate (allocate before ownedCopy) nodeCopy) id (before.heap.length + 1)) id =
      some (before.heap.length + 1) := by rw [find_remember,if_pos rfl]
  have made : (remember (allocate (allocate before ownedCopy) nodeCopy) id (before.heap.length + 1)).heap[before.heap.length + 1]? =
      some nodeCopy := by simp [allocate]
  have madePart : (remember (allocate (allocate before ownedCopy) nodeCopy) id (before.heap.length + 1)).heap[before.heap.length]? =
      some ownedCopy := by simp [allocate]
  refine ⟨by simp [allocate],?_,?_,?_,?_,by simp,?_,?_⟩
  · intro other old _
    simp [allocate,getElem?_append_left,old]
  · intro other copy known
    have different : other ≠ id := by
      rintro rfl
      rw [unseen] at known
      exact absurd known (by simp)
    rw [find_remember,if_neg different]
    exact known
  · intro other copy known
    rw [find_remember] at known
    split at known
    · next equal =>
      rw [equal,← Option.some.inj known]
      exact .inr (by simp)
    · exact .inl known
  · intro pair member
    simp only [mem_cons,not_mem_nil,or_false] at member
    rcases member with rfl | rfl
    · simp [allocate]
    · simp [allocate]
  · intro pair member
    simp only [mem_cons,not_mem_nil,or_false] at member
    rcases member with rfl | rfl
    · exact ⟨node,nodeCopy,read,made,relation _ (.inr (by simp))⟩
    · exact ⟨owned,ownedCopy,readPart,madePart,relationPart _⟩
  · intro pair member
    simp only [mem_cons,not_mem_nil,or_false] at member
    rcases member with rfl | rfl
    · exact .inl ⟨found,here⟩
    · exact .inr ⟨_,mem_cons_self ..,found,here,node,nodeCopy,read,made,owner,ownerCopy⟩

def Over (source : List Node) (store : Store Node) : Prop := source <+: store.heap

omit mono in
theorem Grows.over (grows : Grows source same owns reached hole before after pairs)
    (outside : ∀ id, hole = some id → source.length ≤ id) (above : Over source before) : Over source after := by
  have short : source.length ≤ before.heap.length := above.length_le
  refine prefix_iff_getElem?.mpr fun id old => ?_
  have different : some id ≠ hole := by
    intro equal
    have := outside id equal.symm
    omega
  rw [grows.kept id (by omega) different]
  exact prefix_iff_getElem?.mp above id old

section Parts
variable {α Value ε : Type} (related : (Nat → Nat → Prop) → Value → Value → Prop)
  (relatedMono : ∀ (R S : Nat → Nat → Prop) (value copy : Value), (∀ id copy, R id copy → S id copy) → related R value copy → related S value copy)
  (fits : Store Node → Prop)

variable (source same owns reached) in
def Copies (clone : Store Node → Value → Except ε (Store Node × Value)) (value : Value) : Prop :=
  ∀ store, Over source store → fits store → ∃ after copy pairs, clone store value = .ok (after,copy) ∧
    Grows source same owns reached none store after pairs ∧ related (fun id copy => find after id = some copy) value copy

variable {related fits}
include relatedMono

theorem fill_copies (clone : Store Node → Value → Except ε (Store Node × Value)) (value : α → Value) (push : α → Value → Node → Node)
    (copy : Nat) (new : source.length ≤ copy)
    (fitting : ∀ hole before after pairs, Grows source same owns reached hole before after pairs → fits before → fits after)
    (parts : List α) (each : ∀ part ∈ parts, Copies source same owns reached related fits clone (value part))
    (store : Store Node) (inside : copy < store.heap.length) (above : Over source store) (fit : fits store) :
    ∃ after values pairs, fill clone value push copy parts store = .ok after ∧
      Grows source same owns reached (some copy) store after pairs ∧
      List.Forall₂ (fun part result => related (fun id copy => find after id = some copy) (value part) result) parts values ∧
      after.heap[copy]? = (store.heap[copy]?).map fun node =>
        (parts.zip values).foldl (fun node entry => push entry.1 entry.2 node) node := by
  induction parts generalizing store with
  | nil => exact ⟨store,[],[],rfl,.refl _ store,.nil,by simp⟩
  | cons part parts ih =>
    obtain ⟨middle,result,made,cloned,grown,relation⟩ := each part (mem_cons_self ..) store above fit
    have pushed : Grows source same owns reached (some copy) middle (change middle copy (push part result)) [] := .change ..
    have here : ∀ id, some copy = some id → id < store.heap.length := by
      rintro id equal
      rwa [← Option.some.inj equal]
    have step := Grows.trans mono here (grown.weaken (some copy)) pushed
    have apart : ∀ id, some copy = some id → source.length ≤ id := by
      rintro id equal
      rwa [← Option.some.inj equal]
    obtain ⟨after,values,pairs,run,rest,relations,content⟩ := ih (fun other member => each other (mem_cons_of_mem _ member))
      (change middle copy (push part result)) (Nat.lt_of_lt_of_le inside step.longer) (step.over apart above)
      (fitting _ _ _ _ step fit)
    refine ⟨after,result :: values,_,?_,Grows.trans mono here step rest,.cons ?_ relations,?_⟩
    · rw [fill,cloned]
      exact run
    · refine relatedMono _ _ _ _ ?_ relation
      intro id copied found
      exact rest.remembered id copied found
    · have unchanged := grown.kept copy inside (by simp)
      rw [content]
      simp [change,unchanged,Function.comp_def]

end Parts

end Growth

def unseen (source : List Node) (store : Store Node) : Nat :=
  ((Finset.range source.length).filter fun id => find store id = none).card

theorem unseen_le (source : List Node) (before after : Store Node)
    (remembered : ∀ id copy, find before id = some copy → find after id = some copy) : unseen source after ≤ unseen source before := by
  refine Finset.card_le_card fun id member => ?_
  rw [Finset.mem_filter] at member ⊢
  refine ⟨member.1,?_⟩
  cases found : find before id with
  | none => rfl
  | some copy =>
    rw [remembered id copy found] at member
    exact absurd member.2 (by simp)

theorem unseen_remember (source : List Node) (store : Store Node) (node : Node) (id copy : Nat) (inside : id < source.length)
    (missing : find store id = none) : unseen source (remember (allocate store node) id copy) < unseen source store := by
  refine Finset.card_lt_card (Finset.ssubset_iff_of_subset ?_ |>.mpr ⟨id,?_,?_⟩)
  · intro other member
    rw [Finset.mem_filter,find_remember] at member
    rw [Finset.mem_filter]
    split at member
    · exact absurd member.2 (by simp)
    · exact member
  · simpa [missing] using inside
  · simp [find_remember]

end Ant.Library.GraphCopy

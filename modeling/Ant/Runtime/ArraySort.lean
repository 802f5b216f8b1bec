import Ant.Library.MergePasses
import Mathlib.Algebra.Order.Floor.Ring
import Mathlib.Data.List.GetD
import Mathlib.Data.Rat.Floor

/-! Sorting an array with a comparator. -/
namespace Ant.Runtime.ArraySort
open Library List

variable {α : Type}

inductive Slot (α : Type) where
  | hole
  | undefined
  | value (item : α)
  deriving DecidableEq,Repr

def Slot.item? : Slot α → Option α
  | .value item => some item
  | _ => none

def Slot.isUndefined : Slot α → Bool
  | .undefined => true
  | _ => false

def Slot.isHole : Slot α → Bool
  | .hole => true
  | _ => false

/-- The result of the comparator as an `int`: its integer part, if that fits. What a result that does
not fit becomes is left open. -/
def toInt (overflow : ℚ → Int) (result : ℚ) : Int :=
  let part := if result < 0 then ⌈result⌉ else ⌊result⌋
  if -2^31 ≤ part ∧ part < 2^31 then part else overflow result

/-- A consistent comparator answers with a number. -/
def jsCompareValues (overflow : ℚ → Int) (compareFn : α → α → ℚ) (a b : α) : Int := toInt overflow (compareFn a b)

def takesLeft (overflow : ℚ → Int) (compareFn : α → α → ℚ) (a b : α) : Bool := jsCompareValues overflow compareFn a b ≤ 0

def values (slots : List (Slot α)) : List α := slots.filterMap Slot.item?

def layout (items : List α) (undefined holes : Nat) : List (Slot α) :=
  items.map .value ++ List.replicate undefined .undefined ++ List.replicate holes .hole

/-- An array: its length, the slots of its dense buffer, none if it has no buffer, and the elements that it keeps as properties,
with a hole where there is none. The elements are data properties, and none is inherited. -/
structure ArrayObject (α : Type) where
  length : Nat
  dense : List (Slot α)
  indexed : Nat → Slot α

def Slot.or : Slot α → Slot α → Slot α
  | .hole,other => other
  | slot,_ => slot

def ArrayObject.isDense (array : ArrayObject α) : Bool := !array.dense.isEmpty

def denseGet (dense : List (Slot α)) (index : Nat) : Slot α := dense.getD index .undefined

/-- What `arr_has` and `arr_get` find below the length. -/
def arrGet (array : ArrayObject α) (index : Nat) : Slot α := (array.dense.getD index .hole).or (array.indexed index)

def contents (array : ArrayObject α) : List (Slot α) := (List.range array.length).map (arrGet array)

/-- The slots that are sorted: of an array with a buffer, those in the buffer. -/
def gather (array : ArrayObject α) : List (Slot α) :=
  if array.isDense then (List.range array.length).map (denseGet array.dense) else contents array

/-- In a dense array a hole counts as undefined. -/
def undefCount (dense : Bool) (slots : List (Slot α)) : Nat := slots.countP fun slot => slot.isUndefined || (dense && slot.isHole)

/-- `dense_set` drops what is beyond the buffer; `arr_set` and `arr_del` set and remove properties. -/
def writeback (array : ArrayObject α) (out : List (Slot α)) : ArrayObject α :=
  if array.isDense then {array with dense := array.dense.mapIdx fun index slot => out.getD index slot}
  else {array with indexed := fun index => out.getD index (array.indexed index)}

def builtinArraySort (overflow : ℚ → Int) (compareFn : α → α → ℚ) (array : ArrayObject α) : ArrayObject α :=
  if array.length = 0 then array
  else
    let gathered := gather array
    let vals := values gathered
    let undefined := undefCount array.isDense gathered
    let sorted := if vals.length ≤ 1 then vals else MergePasses.sort (takesLeft overflow compareFn) vals
    writeback array (layout sorted undefined (array.length - (vals.length + undefined)))

structure Consistent (compareFn : α → α → ℚ) (items : List α) : Prop where
  refl : ∀ a ∈ items, compareFn a a = 0
  symm : ∀ a ∈ items, ∀ b ∈ items, compareFn a b = 0 → compareFn b a = 0
  transEqual : ∀ a ∈ items, ∀ b ∈ items, ∀ c ∈ items, compareFn a b = 0 → compareFn b c = 0 → compareFn a c = 0
  transLess : ∀ a ∈ items, ∀ b ∈ items, ∀ c ∈ items, compareFn a b < 0 → compareFn b c < 0 → compareFn a c < 0
  transGreater : ∀ a ∈ items, ∀ b ∈ items, ∀ c ∈ items, 0 < compareFn a b → 0 < compareFn b c → 0 < compareFn a c

def Before (compareFn : α → α → ℚ) (x y : α × Nat) : Prop := compareFn x.1 y.1 < 0 ∨ compareFn x.1 y.1 = 0 ∧ x.2 < y.2

/-- A stable permutation of the values in the comparator's order, then the undefined ones, then the holes. -/
def Sorts (compareFn : α → α → ℚ) (slots result : List (Slot α)) : Prop :=
  ∃ tagged : List (α × Nat), tagged.Perm (values slots).zipIdx ∧ tagged.Pairwise (Before compareFn) ∧
    result = layout (tagged.map Prod.fst) (slots.countP Slot.isUndefined) (slots.countP Slot.isHole)

section Consistency
variable {compareFn : α → α → ℚ} {items : List α} (consistent : Consistent compareFn items) {a b c : α} (inA : a ∈ items) (inB : b ∈ items)
include consistent inA inB

theorem Consistent.flip_less (less : compareFn a b < 0) : 0 < compareFn b a := by
  obtain back | equal | is := lt_trichotomy (compareFn b a) 0
  · have self := consistent.transLess a inA b inB a inA less back
    exact absurd (consistent.refl a inA) self.ne
  · exact absurd (consistent.symm b inB a inA equal) less.ne
  · exact is

theorem Consistent.flip_greater (greater : 0 < compareFn a b) : compareFn b a < 0 := by
  obtain is | equal | back := lt_trichotomy (compareFn b a) 0
  · exact is
  · exact absurd (consistent.symm b inB a inA equal) greater.ne'
  · have self := consistent.transGreater a inA b inB a inA greater back
    exact absurd (consistent.refl a inA) self.ne'

variable (inC : c ∈ items)
include inC

theorem Consistent.less_equal (less : compareFn a b < 0) (equal : compareFn b c = 0) : compareFn a c < 0 := by
  have back := consistent.symm b inB c inC equal
  obtain is | same | greater := lt_trichotomy (compareFn a c) 0
  · exact is
  · exact absurd (consistent.transEqual a inA c inC b inB same back) less.ne
  · have swapped := consistent.flip_less inA inB less
    have beyond := consistent.transGreater b inB a inA c inC swapped greater
    exact absurd equal beyond.ne'

theorem Consistent.equal_less (equal : compareFn a b = 0) (less : compareFn b c < 0) : compareFn a c < 0 := by
  have back := consistent.symm a inA b inB equal
  obtain is | same | greater := lt_trichotomy (compareFn a c) 0
  · exact is
  · exact absurd (consistent.transEqual b inB a inA c inC back same) less.ne
  · have swapped := consistent.flip_less inB inC less
    have beyond := consistent.transGreater a inA c inC b inB greater swapped
    exact absurd equal beyond.ne'

theorem Consistent.before_trans {i j k : Nat} (first : Before compareFn (a,i) (b,j)) (second : Before compareFn (b,j) (c,k)) :
    Before compareFn (a,i) (c,k) := by
  obtain less | ⟨equal,place⟩ := first <;> obtain less' | ⟨equal',place'⟩ := second
  · exact Or.inl (consistent.transLess a inA b inB c inC less less')
  · exact Or.inl (consistent.less_equal inA inB inC less equal')
  · exact Or.inl (consistent.equal_less inA inB inC equal less')
  · exact Or.inr ⟨consistent.transEqual a inA b inB c inC equal equal',Nat.lt_trans place place'⟩

end Consistency

variable {items : List α}

theorem Consistent.mono {compareFn : α → α → ℚ} {others : List α} (consistent : Consistent compareFn others)
    (inside : ∀ item ∈ items, item ∈ others) : Consistent compareFn items where
  refl a inA := consistent.refl a (inside a inA)
  symm a inA b inB := consistent.symm a (inside a inA) b (inside b inB)
  transEqual a inA b inB c inC := consistent.transEqual a (inside a inA) b (inside b inB) c (inside c inC)
  transLess a inA b inB c inC := consistent.transLess a (inside a inA) b (inside b inB) c (inside c inC)
  transGreater a inA b inB c inC := consistent.transGreater a (inside a inA) b (inside b inB) c (inside c inC)

theorem zipIdx_places : items.zipIdx.Pairwise fun x y => x.2 < y.2 := by
  have places : (items.zipIdx.map Prod.snd).Pairwise (· < ·) := by
    rw [zipIdx_map_snd]
    exact pairwise_lt_range'
  exact pairwise_map.mp places

theorem sort_stable {compareFn : α → α → ℚ} (consistent : Consistent compareFn items) :
    (MergePasses.sort (fun x y : α × Nat => decide (compareFn x.1 y.1 ≤ 0)) items.zipIdx).Pairwise (Before compareFn) := by
  -- the order is one on the values of the array only
  have placed : items.zipIdx.attach.Pairwise fun x y => x.1.2 < y.1.2 := by
    apply (pairwise_map (f := Subtype.val) (R := fun x y : α × Nat => x.2 < y.2)).mp
    rw [attach_map_subtype_val]
    exact zipIdx_places
  have inside (entry : {entry // entry ∈ items.zipIdx}) : entry.1.1 ∈ items := fst_mem_of_mem_zipIdx entry.2
  have sorted := MergePasses.sort_pairwise (fun x y : {entry // entry ∈ items.zipIdx} => decide (compareFn x.1.1 y.1.1 ≤ 0))
    (fun x y => Before compareFn x.1 y.1) (fun x y => x.1.2 < y.1.2)
    (fun x y z first second => consistent.before_trans (inside x) (inside y) (inside z) first second)
    (fun x y place => by
      by_cases notGreater : compareFn x.1.1 y.1.1 ≤ 0
      · rw [if_pos (by simpa using notGreater)]
        exact (lt_or_eq_of_le notGreater).imp id fun equal => ⟨equal,place⟩
      · rw [if_neg (by simpa using notGreater)]
        exact Or.inl (consistent.flip_greater (inside x) (inside y) (not_le.mp notGreater))) placed
  have mapped := MergePasses.map_sort (fun x y : {entry // entry ∈ items.zipIdx} => decide (compareFn x.1.1 y.1.1 ≤ 0)) Subtype.val
    (fun x y => decide (compareFn x.1 y.1 ≤ 0)) (fun _ _ => rfl) items.zipIdx.attach
  rw [attach_map_subtype_val] at mapped
  rw [← mapped]
  exact pairwise_map.mpr sorted

theorem sort_short (le : α → α → Bool) (short : items.length ≤ 1) : MergePasses.sort le items = items := by
  unfold MergePasses.sort
  cases items with
  | nil => rfl
  | cons item items => rw [length_cons,MergePasses.passes,if_neg (by simpa using short)]

theorem slots_length (slots : List (Slot α)) :
    slots.length = (values slots).length + slots.countP Slot.isUndefined + slots.countP Slot.isHole := by
  induction slots with
  | nil => rfl
  | cons slot slots ih =>
    simp only [values] at ih
    simp only [countP_cons,values,filterMap_cons]
    cases slot <;> simp only [Slot.item?,Slot.isUndefined,Slot.isHole] <;> simp <;> omega

theorem undefCount_eq (dense : Bool) (slots : List (Slot α)) :
    undefCount dense slots = slots.countP Slot.isUndefined + if dense then slots.countP Slot.isHole else 0 := by
  induction slots with
  | nil => simp [undefCount]
  | cons slot slots ih =>
    unfold undefCount at ih ⊢
    simp only [countP_cons]
    rw [ih]
    cases slot <;> cases dense <;> simp only [Slot.isUndefined,Slot.isHole] <;> simp <;> omega

section Contents
variable {array : ArrayObject α} {out : List (Slot α)}

theorem values_append (first second : List (Slot α)) : values (first ++ second) = values first ++ values second := filterMap_append

theorem mem_values {slots : List (Slot α)} {item : α} : item ∈ values slots ↔ Slot.value item ∈ slots := by
  rw [values,mem_filterMap]
  constructor
  · rintro ⟨slot,member,same⟩
    cases slot with
    | value _ =>
      cases same
      exact member
    | undefined | hole => cases same
  · exact fun member => ⟨_,member,rfl⟩

theorem values_layout (items : List α) (undefined holes : Nat) : values (layout items undefined holes) = items := by
  rw [values,layout,filterMap_append,filterMap_append,filterMap_map]
  simp [Function.comp_def,Slot.item?]

theorem holes_layout {undefined holes : Nat} : (layout items undefined holes).countP Slot.isHole = holes := by
  simp [layout,countP_replicate,Slot.isHole]

theorem undefined_layout {undefined holes : Nat} : (layout items undefined holes).countP Slot.isUndefined = undefined := by
  simp [layout,countP_replicate,Slot.isUndefined]

theorem length_layout {undefined holes : Nat} : (layout items undefined holes).length = items.length + undefined + holes := by
  simp [layout,Nat.add_assoc]

theorem take_layout {undefined count : Nat} (least : items.length ≤ count) (most : count ≤ items.length + undefined) :
    (layout items undefined 0).take count = layout items (count - items.length) 0 := by
  rw [layout,replicate_zero,append_nil,take_append,take_of_length_le (by simpa using least)]
  simp only [length_map,take_replicate,layout,replicate_zero,append_nil]
  congr 2
  omega

/-- The slots of the buffer below the length, and what is found there. -/
def near (array : ArrayObject α) : List (Slot α) := array.dense.take array.length

def found (array : ArrayObject α) : List (Slot α) := (near array).mapIdx fun index slot => slot.or (array.indexed index)

def beyond (array : ArrayObject α) : List (Slot α) := (contents array).drop (near array).length

theorem near_length (array : ArrayObject α) : (near array).length ≤ array.length ∧ (near array).length ≤ array.dense.length := by
  rw [near,length_take]
  omega

theorem contents_length : (contents array).length = array.length := by simp [contents]

theorem contents_eq (array : ArrayObject α) : contents array = found array ++ beyond array := by
  have front : (contents array).take (near array).length = found array := by
    have short := near_length array
    refine ext_getElem (by simp [contents,found,short.1]) fun index left right => ?_
    have inside : index < (near array).length := by simpa [found] using right
    simp only [contents,found,getElem_take,getElem_map,getElem_range,getElem_mapIdx,arrGet,near]
    rw [getD_eq_getElem array.dense .hole (by omega)]
  rw [← front,beyond,take_append_drop]

theorem gather_dense (dense : array.isDense = true) :
    gather array = near array ++ replicate (array.length - array.dense.length) .undefined := by
  rw [gather,if_pos dense]
  refine ext_getElem (by simp [near]; omega) fun index left right => ?_
  simp only [getElem_map,getElem_range,getElem_append,near,length_take,getElem_take,getElem_replicate,denseGet]
  have below : index < array.length := by simpa using left
  split
  next inside => rw [getD_eq_getElem array.dense .undefined (by omega)]
  next outside => rw [getD_eq_default array.dense .undefined (by omega)]

theorem isDense_eq_false : array.isDense = false ↔ array.dense = [] := by simp [ArrayObject.isDense]

theorem contents_sparse (sparse : array.isDense = false) (size : out.length = array.length) :
    contents (writeback array out) = out := by
  have none_ := isDense_eq_false.mp sparse
  rw [writeback,sparse,if_neg Bool.false_ne_true]
  refine ext_getElem (by rw [contents_length,size]) fun index left right => ?_
  simp only [contents,getElem_map,getElem_range,arrGet,none_,getD_nil,Slot.or]
  exact getD_eq_getElem out _ right

theorem contents_dense (dense : array.isDense = true) (size : out.length = array.length)
    (filled : ∀ slot ∈ out, slot.isHole = false) :
    contents (writeback array out) = out.take (near array).length ++ beyond array := by
  have reach : (near array).length = min array.length array.dense.length := by rw [near,length_take]
  rw [writeback,if_pos dense]
  refine ext_getElem (by simp only [contents_length,length_append,length_take,beyond,length_drop,size]; omega)
    fun index left right => ?_
  have below : index < array.length := by rwa [contents_length] at left
  simp only [contents,getElem_map,getElem_range,getElem_append,length_take,beyond,getElem_take,getElem_drop]
  split
  next inside =>
    have kept := filled (out[index]) (getElem_mem (by omega))
    rw [arrGet,getD_eq_getElem _ _ (by rw [length_mapIdx]; omega),getElem_mapIdx,getD_eq_getElem out _ (by omega)]
    cases slot : out[index] with
    | hole => simp [slot,Slot.isHole] at kept
    | undefined => rfl
    | value item => rfl
  next outside =>
    have place : (near array).length + (index - min (near array).length out.length) = index := by omega
    rw [place,arrGet,arrGet,getD_eq_default _ _ (by rw [length_mapIdx]; omega),getD_eq_default _ _ (by omega)]

theorem values_gather (dense : array.isDense = true) : values (gather array) = values (near array) := by
  rw [gather_dense dense,values_append]
  simp [values,Slot.item?]

theorem contents_sort (overflow : ℚ → Int) (compareFn : α → α → ℚ) (array : ArrayObject α) :
    contents (builtinArraySort overflow compareFn array) =
      if array.isDense then layout (MergePasses.sort (takesLeft overflow compareFn) (values (near array)))
        ((near array).length - (values (near array)).length) 0 ++ beyond array
      else layout (MergePasses.sort (takesLeft overflow compareFn) (values (contents array)))
        ((contents array).countP Slot.isUndefined) ((contents array).countP Slot.isHole) := by
  have sorted : (if (values (gather array)).length ≤ 1 then values (gather array)
      else MergePasses.sort (takesLeft overflow compareFn) (values (gather array))) =
        MergePasses.sort (takesLeft overflow compareFn) (values (gather array)) := by
    split
    next short => rw [sort_short _ short]
    next => rfl
  have size (items : List α) : (MergePasses.sort (takesLeft overflow compareFn) items).length = items.length :=
    (MergePasses.sort_perm _ items).length_eq
  rw [builtinArraySort]
  split
  next none_ =>
    have blank : contents array = [] := by rw [contents,none_,range_zero,map_nil]
    simp [blank,near,none_,beyond,values,layout,MergePasses.sort,MergePasses.passes]
  next =>
    dsimp only
    rw [sorted]
    cases dense : array.isDense with
    | false =>
      have whole : gather array = contents array := by rw [gather,if_neg (by simp [dense])]
      have total := slots_length (contents array)
      have count := undefCount_eq false (contents array)
      rw [contents_length] at total
      simp only [Bool.false_eq_true,if_false,Nat.add_zero] at count
      rw [contents_sparse dense (by rw [length_layout,size,whole,count]; omega),whole,count,if_neg (by simp)]
      congr 1
      omega
    | true =>
      have same := values_gather dense
      have wide : (gather array).length = array.length := by rw [gather,if_pos dense,length_map,length_range]
      have total := slots_length (gather array)
      have inner := slots_length (near array)
      have count := undefCount_eq true (gather array)
      have short := near_length array
      rw [wide,same] at total
      rw [if_pos rfl] at count
      have none_ : array.length - ((values (gather array)).length + undefCount true (gather array)) = 0 := by
        rw [same]
        omega
      rw [none_,same,if_pos rfl,contents_dense dense (by rw [length_layout,size]; omega)]
      · rw [take_layout (by rw [size]; omega) (by rw [size]; omega),size]
      · intro slot member
        have holes := @holes_layout α (MergePasses.sort (takesLeft overflow compareFn) (values (near array)))
          (undefCount true (gather array)) 0
        simpa using countP_eq_zero.mp holes slot member

end Contents

theorem toInt_zero (overflow : ℚ → Int) : toInt overflow 0 = 0 := by simp [toInt]

/-- The pairs whose comparison is read as the comparator meant it. -/
def Understood (overflow : ℚ → Int) (compareFn : α → α → ℚ) (pair : α × α) : Prop :=
  jsCompareValues overflow compareFn pair.1 pair.2 ≤ 0 ↔ compareFn pair.1 pair.2 ≤ 0

instance (overflow : ℚ → Int) (compareFn : α → α → ℚ) (pair : α × α) : Decidable (Understood overflow compareFn pair) :=
  inferInstanceAs (Decidable (_ ↔ _))

/-- For any comparison function, what is in reach becomes a permutation of its values, then undefined elements and holes, and
what is beyond the buffer of a dense array stays. -/
theorem sort_permutes (overflow : ℚ → Int) (compareFn : α → α → ℚ) (array : ArrayObject α) :
    ∃ items, items.Perm (values (gather array)) ∧ contents (builtinArraySort overflow compareFn array) =
      if array.isDense then layout items ((near array).length - items.length) 0 ++ beyond array
      else layout items ((contents array).countP Slot.isUndefined) ((contents array).countP Slot.isHole) := by
  have perm (items : List α) := MergePasses.sort_perm (takesLeft overflow compareFn) items
  rw [contents_sort]
  cases dense : array.isDense with
  | false =>
    have whole : gather array = contents array := by rw [gather,if_neg (by simp [dense])]
    exact ⟨_,by rw [whole]; exact perm _,rfl⟩
  | true =>
    have kept := perm (values (near array))
    refine ⟨MergePasses.sort (takesLeft overflow compareFn) (values (near array)),by rwa [values_gather dense],?_⟩
    rw [kept.length_eq]
    rfl

section Order
variable {compareFn : α → α → ℚ} {slots result : List (Slot α)}

/-- The order of the elements of a sorted array. -/
def Slot.le (compareFn : α → α → ℚ) : Slot α → Slot α → Prop
  | .value a,.value b => compareFn a b ≤ 0
  | .value _,_ => True
  | .undefined,.value _ => False
  | .undefined,_ => True
  | .hole,slot => slot.isHole = true

instance (compareFn : α → α → ℚ) : DecidableRel (Slot.le compareFn)
  | .value a,.value b => inferInstanceAs (Decidable (compareFn a b ≤ 0))
  | .value _,.undefined | .value _,.hole => isTrue trivial
  | .undefined,.value _ => isFalse id
  | .undefined,.undefined | .undefined,.hole => isTrue trivial
  | .hole,slot => inferInstanceAs (Decidable (slot.isHole = true))

theorem layout_pairwise (undefined holes : Nat) (ordered : items.Pairwise fun a b => compareFn a b ≤ 0) :
    (layout items undefined holes).Pairwise (Slot.le compareFn) := by
  simp only [layout,pairwise_append,pairwise_map,pairwise_replicate,mem_append,mem_map,mem_replicate]
  refine ⟨⟨ordered,Or.inr trivial,?_⟩,Or.inr rfl,?_⟩
  · rintro slot ⟨item,-,rfl⟩ other ⟨-,rfl⟩
    trivial
  · rintro slot (⟨item,-,rfl⟩ | ⟨-,rfl⟩) other ⟨-,rfl⟩
    · trivial
    · trivial

theorem values_eq_nil (none_ : ∀ slot ∈ slots, slot.item? = none) : values slots = [] := by
  rw [values,filterMap_eq_nil_iff]
  exact none_

theorem pairwise_layout (ordered : slots.Pairwise (Slot.le compareFn)) :
    slots = layout (values slots) (slots.countP Slot.isUndefined) (slots.countP Slot.isHole) := by
  induction slots with
  | nil => rfl
  | cons slot slots ih =>
    obtain ⟨first,others⟩ := pairwise_cons.mp ordered
    have rest := ih others
    cases slot with
    | value item =>
      conv_lhs => rw [rest]
      simp [values,Slot.item?,Slot.isUndefined,Slot.isHole,layout]
    | undefined =>
      have none_ : values slots = [] := values_eq_nil fun other member => by
        have after := first other member
        cases other with
        | value item => exact absurd after id
        | undefined | hole => rfl
      rw [none_] at rest
      have whole : values (.undefined :: slots) = [] := none_
      conv_lhs => rw [rest]
      rw [whole]
      simp [countP_cons,Slot.isUndefined,Slot.isHole,layout,replicate_succ]
    | hole =>
      have alike : ∀ other ∈ slots, other = .hole := fun other member => by
        have after := first other member
        cases other with
        | hole => rfl
        | undefined | value => cases after
      have none_ : values slots = [] := values_eq_nil fun other member => by rw [alike other member]; rfl
      have defined : slots.countP Slot.isUndefined = 0 := countP_eq_zero.mpr fun other member => by
        simp [alike other member,Slot.isUndefined]
      rw [none_,defined] at rest
      have whole : values (.hole :: slots) = [] := none_
      conv_lhs => rw [rest]
      rw [whole]
      simp [countP_cons,defined,Slot.isUndefined,Slot.isHole,layout,replicate_succ]

theorem values_pairwise (ordered : slots.Pairwise (Slot.le compareFn)) : (values slots).Pairwise fun a b => compareFn a b ≤ 0 := by
  rw [values,pairwise_filterMap]
  refine ordered.imp fun {first second} below a found b found' => ?_
  cases first with
  | value item =>
    cases second with
    | value other =>
      cases found
      cases found'
      exact below
    | undefined | hole => cases found'
  | undefined | hole => cases found

theorem before_of_le {x y : α × Nat} (notGreater : compareFn x.1 y.1 ≤ 0) (place : x.2 < y.2) : Before compareFn x y :=
  (lt_or_eq_of_le notGreater).imp id fun equal => ⟨equal,place⟩

theorem zipIdx_pairwise (start : Nat) (ordered : items.Pairwise fun a b => compareFn a b ≤ 0) :
    (items.zipIdx start).Pairwise (Before compareFn) := by
  have marks : (items.zipIdx start).Pairwise fun x y => x.2 < y.2 := by
    apply (pairwise_map (f := Prod.snd) (R := (· < ·))).mp
    rw [zipIdx_map_snd]
    exact pairwise_lt_range'
  have kept : (items.zipIdx start).Pairwise fun x y => compareFn x.1 y.1 ≤ 0 := by
    apply (pairwise_map (f := Prod.fst) (R := fun a b => compareFn a b ≤ 0)).mp
    rw [zipIdx_map_fst]
    exact ordered
  exact kept.imp₂ (fun x y notGreater place => before_of_le notGreater place) marks

theorem sorted_tagged {overflow : ℚ → Int} (consistent : Consistent compareFn items)
    (understood : ∀ pair ∈ MergePasses.asks (takesLeft overflow compareFn) items, Understood overflow compareFn pair) :
    ∃ tagged : List (α × Nat), tagged.Perm items.zipIdx ∧ tagged.Pairwise (Before compareFn) ∧
      tagged.map Prod.fst = MergePasses.sort (takesLeft overflow compareFn) items := by
  have agree := MergePasses.sort_congr (takesLeft overflow compareFn) (fun a b => decide (compareFn a b ≤ 0)) items
    (fun pair asked => by
      have read := understood pair asked
      exact Bool.eq_iff_iff.mpr (by simpa [takesLeft,Understood] using read))
  have mapped := MergePasses.map_sort (fun x y : α × Nat => decide (compareFn x.1 y.1 ≤ 0)) Prod.fst
    (fun a b => decide (compareFn a b ≤ 0)) (fun _ _ => rfl) items.zipIdx
  rw [zipIdx_map_fst] at mapped
  exact ⟨_,MergePasses.sort_perm _ _,sort_stable consistent,by rw [agree,mapped]⟩

theorem understood_of_sorted {overflow : ℚ → Int} (consistent : Consistent compareFn items)
    (sorted : (MergePasses.sort (takesLeft overflow compareFn) items).Pairwise fun a b => compareFn a b ≤ 0) (pair : α × α)
    (asked : pair ∈ MergePasses.asks (takesLeft overflow compareFn) items) : Understood overflow compareFn pair := by
  have kept := MergePasses.asks_ordered (takesLeft overflow compareFn) pair asked
  have members : ∀ item ∈ MergePasses.ordered (takesLeft overflow compareFn) pair, item ∈ items :=
    fun item member => (MergePasses.sort_perm _ items).mem_iff.mp (kept.subset member)
  have relation := sorted.sublist kept
  unfold MergePasses.ordered at members relation
  by_cases takes : takesLeft overflow compareFn pair.1 pair.2 = true
  · rw [if_pos takes] at relation
    simp only [takesLeft,decide_eq_true_eq] at takes
    simp only [pairwise_cons,mem_singleton,forall_eq] at relation
    exact iff_of_true takes relation.1
  · rw [if_neg takes] at relation members
    simp only [mem_cons,not_mem_nil,or_false,forall_eq_or_imp,forall_eq] at members
    simp only [pairwise_cons,mem_singleton,forall_eq] at relation
    simp only [takesLeft,decide_eq_true_eq] at takes
    refine iff_of_false takes fun notGreater => ?_
    obtain less | equal := lt_or_eq_of_le notGreater
    · exact absurd relation.1 (not_le.mpr (consistent.flip_less members.2 members.1 less))
    · exact takes (by simp [jsCompareValues,equal,toInt_zero])

theorem Sorts.pairwise (sorts : Sorts compareFn slots result) : result.Pairwise (Slot.le compareFn) := by
  obtain ⟨tagged,-,sorted,rfl⟩ := sorts
  refine layout_pairwise _ _ (pairwise_map.mpr ?_)
  exact sorted.imp fun before => before.elim le_of_lt fun equal => equal.1.le

theorem Sorts.counts (sorts : Sorts compareFn slots result) : (values result).length = (values slots).length ∧
    result.countP Slot.isHole = slots.countP Slot.isHole := by
  obtain ⟨tagged,perm,-,rfl⟩ := sorts
  rw [values_layout,length_map,perm.length_eq,length_zipIdx]
  exact ⟨rfl,holes_layout⟩

theorem sorts_layout_iff {overflow : ℚ → Int} (consistent : Consistent compareFn (values slots)) :
    Sorts compareFn slots (layout (MergePasses.sort (takesLeft overflow compareFn) (values slots))
      (slots.countP Slot.isUndefined) (slots.countP Slot.isHole)) ↔
        ∀ pair ∈ MergePasses.asks (takesLeft overflow compareFn) (values slots), Understood overflow compareFn pair := by
  constructor
  · intro sorts
    have ordered := values_pairwise sorts.pairwise
    rw [values_layout] at ordered
    exact understood_of_sorted consistent ordered
  · intro understood
    obtain ⟨tagged,perm,sorted,same⟩ := sorted_tagged consistent understood
    exact ⟨tagged,perm,sorted,by rw [same]⟩

end Order

section Buffer
variable {compareFn : α → α → ℚ} {inner outer : List (Slot α)}

def Slot.fill : Slot α → Slot α
  | .hole => .undefined
  | slot => slot

theorem values_cons_length (slot : Slot α) (slots : List (Slot α)) :
    (values (slot :: slots)).length = slot.item?.toList.length + (values slots).length := by
  cases slot <;> simp [values,filterMap_cons,Slot.item?,Nat.add_comm]

theorem values_or (inner : List (Slot α)) (indexed : Nat → Slot α) :
    (values inner).Sublist (values (inner.mapIdx fun index slot => slot.or (indexed index))) := by
  induction inner generalizing indexed with
  | nil => exact Sublist.refl _
  | cons slot inner ih =>
    have later := ih fun index => indexed (index + 1)
    rw [mapIdx_cons]
    cases slot with
    | value item => exact later.cons_cons item
    | undefined => exact later
    | hole =>
      cases first : indexed 0 with
      | value item =>
        rw [Slot.or]
        exact later.cons item
      | undefined | hole => exact later

/-- The buffer holds every value that is found, and every hole of it stands for an undefined element. -/
theorem or_eq_fill (inner : List (Slot α)) (indexed : Nat → Slot α)
    (few : (values (inner.mapIdx fun index slot => slot.or (indexed index))).length ≤ (values inner).length)
    (none_ : (inner.mapIdx fun index slot => slot.or (indexed index)).countP Slot.isHole = 0) :
    (inner.mapIdx fun index slot => slot.or (indexed index)) = inner.map Slot.fill := by
  induction inner generalizing indexed with
  | nil => rfl
  | cons slot inner ih =>
    have least := (values_or inner fun index => indexed (index + 1)).length_le
    have later := ih fun index => indexed (index + 1)
    rw [mapIdx_cons] at few none_ ⊢
    rw [values_cons_length,values_cons_length] at few
    rw [countP_cons] at none_
    generalize (inner.mapIdx fun index slot => slot.or (indexed (index + 1))) = others at *
    rw [map_cons]
    cases slot with
    | value item | undefined =>
      have same := later (Nat.le_of_add_le_add_left few) (Nat.eq_zero_of_add_eq_zero_right none_)
      rw [same]
      rfl
    | hole =>
      have few : (indexed 0).item?.toList.length + (values others).length ≤ 0 + (values inner).length := few
      have none_ : others.countP Slot.isHole + (if (indexed 0).isHole = true then 1 else 0) = 0 := none_
      have same := later (by omega) (by omega)
      rw [same]
      cases first : indexed 0 with
      | hole => simp [first,Slot.isHole] at none_
      | undefined => rfl
      | value item =>
        rw [first] at few
        simp only [Slot.item?,Option.toList_some,length_singleton] at few
        omega

theorem values_fill (inner : List (Slot α)) : values (inner.map Slot.fill) = values inner := by
  rw [values,filterMap_map]
  refine filterMap_congr fun slot _ => ?_
  cases slot <;> rfl

theorem holes_fill (inner : List (Slot α)) : (inner.map Slot.fill).countP Slot.isHole = 0 := by
  rw [countP_eq_zero]
  intro slot member
  obtain ⟨other,-,rfl⟩ := mem_map.mp member
  cases other <;> simp [Slot.fill,Slot.isHole]

/-- A sorted buffer has the elements that it had, with every hole as an undefined element. -/
theorem mem_layout_fill (perm : items.Perm (values inner)) (slot : Slot α) :
    slot ∈ layout items (inner.length - (values inner).length) 0 ↔ slot ∈ inner.map Slot.fill := by
  have known (item : α) : item ∈ items ↔ Slot.value item ∈ inner := by rw [perm.mem_iff,mem_values]
  have whole : (values inner).length = inner.countP fun slot => slot.item?.isSome := length_filterMap_eq_countP ..
  have most : (values inner).length ≤ inner.length := length_filterMap_le ..
  simp only [layout,replicate_zero,append_nil,mem_append,mem_map,mem_replicate]
  cases slot with
  | value item =>
    constructor
    · rintro (⟨other,member,same⟩ | ⟨-,same⟩)
      · cases same
        exact ⟨_,(known _).mp member,rfl⟩
      · cases same
    · rintro ⟨other,member,same⟩
      cases other with
      | value _ => cases same; exact Or.inl ⟨_,(known _).mpr member,rfl⟩
      | undefined | hole => cases same
  | undefined =>
    have some_ : inner.length - (values inner).length ≠ 0 ↔ ∃ slot ∈ inner, slot.item? = none := by
      rw [Nat.sub_ne_zero_iff_lt,lt_iff_le_and_ne,and_iff_right most,whole,Ne,countP_eq_length]
      simp
    rw [some_]
    constructor
    · rintro (⟨_,_,same⟩ | ⟨⟨other,member,none_⟩,-⟩)
      · cases same
      · cases other with
        | value _ => cases none_
        | undefined | hole => exact ⟨_,member,rfl⟩
    · rintro ⟨other,member,same⟩
      cases other with
      | value _ => cases same
      | undefined | hole => exact Or.inr ⟨⟨_,member,rfl⟩,rfl⟩
  | hole =>
    refine iff_of_false (fun either => ?_) ?_
    · rcases either with ⟨_,_,same⟩ | ⟨-,same⟩ <;> cases same
    · rintro ⟨other,-,same⟩
      cases other <;> cases same

theorem sorts_buffer_iff {overflow : ℚ → Int} {found : List (Slot α)} (consistent : Consistent compareFn (values (found ++ outer)))
    (fills : (values found).length ≤ (values inner).length → found.countP Slot.isHole = 0 → found = inner.map Slot.fill)
    (inside : (values inner).Sublist (values found)) :
    Sorts compareFn (found ++ outer) (layout (MergePasses.sort (takesLeft overflow compareFn) (values inner))
      (inner.length - (values inner).length) 0 ++ outer) ↔
        (found = inner.map Slot.fill ∧ outer.Pairwise (Slot.le compareFn) ∧
          ∀ slot ∈ found, ∀ other ∈ outer, slot.le compareFn other) ∧
        ∀ pair ∈ MergePasses.asks (takesLeft overflow compareFn) (values inner), Understood overflow compareFn pair := by
  have perm := MergePasses.sort_perm (takesLeft overflow compareFn) (values inner)
  have mem (slot : Slot α) := mem_layout_fill perm slot
  have consistent : Consistent compareFn (values inner) := consistent.mono fun item member => by
    rw [values_append]
    exact mem_append_left _ (inside.subset member)
  constructor
  · intro sorts
    obtain ⟨front,back,across⟩ := pairwise_append.mp sorts.pairwise
    obtain ⟨size,holes⟩ := sorts.counts
    rw [values_append,values_append,length_append,length_append,values_layout,perm.length_eq] at size
    rw [countP_append,countP_append,holes_layout] at holes
    have whole := fills (by omega) (by omega)
    have ordered := values_pairwise front
    rw [values_layout] at ordered
    refine ⟨⟨whole,back,fun slot member => across slot ?_⟩,understood_of_sorted consistent ordered⟩
    rw [whole] at member
    exact (mem slot).mpr member
  · rintro ⟨⟨whole,back,across⟩,understood⟩
    obtain ⟨tagged,sorted,before,same⟩ := sorted_tagged consistent understood
    have vals : values found = values inner := by rw [whole,values_fill]
    have count := slots_length found
    have holes : found.countP Slot.isHole = 0 := by rw [whole,holes_fill]
    have size : found.length = inner.length := by rw [whole,length_map]
    rw [vals,holes,size] at count
    have ordered : (MergePasses.sort (takesLeft overflow compareFn) (values inner)).Pairwise fun a b => compareFn a b ≤ 0 := by
      rw [← same,pairwise_map]
      exact before.imp fun either => either.elim le_of_lt fun equal => equal.1.le
    have result := pairwise_layout (pairwise_append.mpr ⟨layout_pairwise (inner.length - (values inner).length) 0 ordered,back,
      fun slot member => across slot (by rw [whole]; exact (mem slot).mp member)⟩)
    refine ⟨tagged ++ (values outer).zipIdx (values inner).length,?_,?_,?_⟩
    · rw [values_append,vals,zipIdx_append,Nat.zero_add]
      exact sorted.append_right _
    · refine pairwise_append.mpr ⟨before,zipIdx_pairwise _ (values_pairwise back),fun x first y second => ?_⟩
      have early := sorted.mem_iff.mp first
      have left : Slot.value x.1 ∈ found := by
        rw [← mem_values,vals]
        exact fst_mem_of_mem_zipIdx early
      have right : Slot.value y.1 ∈ outer := mem_values.mp (fst_mem_of_mem_zipIdx second)
      have place := snd_lt_of_mem_zipIdx early
      have later := le_snd_of_mem_zipIdx second
      exact before_of_le (across _ left _ right) (by omega)
    · rw [result,values_append,values_layout,map_append,zipIdx_map_fst,same,countP_append,countP_append,countP_append,
        countP_append,undefined_layout,holes_layout,holes]
      congr 2
      omega

end Buffer

/-- What is sorted is the whole array: the array has no buffer, or the buffer holds every value below its end, with no hole but
for undefined elements, and what is beyond the buffer is in order and after what is in it. -/
def InReach (compareFn : α → α → ℚ) (array : ArrayObject α) : Prop :=
  array.isDense = true → found array = (near array).map Slot.fill ∧ (beyond array).Pairwise (Slot.le compareFn) ∧
    ∀ slot ∈ found array, ∀ other ∈ beyond array, slot.le compareFn other

theorem sort_is_stable_iff (overflow : ℚ → Int) (compareFn : α → α → ℚ) (array : ArrayObject α)
    (consistent : Consistent compareFn (values (contents array))) :
    Sorts compareFn (contents array) (contents (builtinArraySort overflow compareFn array)) ↔ InReach compareFn array ∧
      ∀ pair ∈ MergePasses.asks (takesLeft overflow compareFn) (values (gather array)), Understood overflow compareFn pair := by
  rw [contents_sort,InReach]
  cases dense : array.isDense with
  | false =>
    have whole : gather array = contents array := by rw [gather,if_neg (by simp [dense])]
    rw [if_neg Bool.false_ne_true,whole,sorts_layout_iff consistent]
    simp
  | true =>
    rw [contents_eq] at consistent
    rw [if_pos rfl,values_gather dense,contents_eq,sorts_buffer_iff consistent (or_eq_fill _ _) (values_or _ _)]
    simp [found]

def difference (scale : ℚ) (a b : Int) : ℚ := scale * (a - b)

theorem difference_consistent {scale : ℚ} (positive : 0 < scale) (items : List Int) : Consistent (difference scale) items := by
  have less (a b : Int) : difference scale a b < 0 ↔ a < b := by
    rw [difference,← neg_pos,← mul_neg,mul_pos_iff_of_pos_left positive,neg_sub,sub_pos,Int.cast_lt]
  have equal (a b : Int) : difference scale a b = 0 ↔ a = b := by
    rw [difference,mul_eq_zero_iff_left positive.ne',sub_eq_zero,Int.cast_inj]
  have greater (a b : Int) : 0 < difference scale a b ↔ b < a := by
    rw [difference,mul_pos_iff_of_pos_left positive,sub_pos,Int.cast_lt]
  constructor
  · intro a _
    rw [equal]
  · intro a _ b _
    rw [equal,equal]
    exact Eq.symm
  · intro a _ b _ c _
    rw [equal,equal,equal]
    exact Eq.trans
  · intro a _ b _ c _
    rw [less,less,less]
    exact lt_trans
  · intro a _ b _ c _
    rw [greater,greater,greater]
    exact fun first second => lt_trans second first

/-- A full buffer, a value beyond it that comes last, and a hole at the end. -/
def sampleArray : ArrayObject Int where
  length := 10
  dense := [3,1,2,6,0,7,5,4].map .value
  indexed := fun index => if index = 8 then .value 9 else .hole

theorem sort_is_stable_of_integers : Consistent (difference 1) (values (contents sampleArray)) ∧
    Sorts (difference 1) (contents sampleArray) (contents (builtinArraySort (fun _ => 0) (difference 1) sampleArray)) := by
  have consistent := difference_consistent one_pos (values (contents sampleArray))
  refine ⟨consistent,(sort_is_stable_iff (fun _ => 0) (difference 1) sampleArray consistent).mpr ⟨fun _ => ?_,?_⟩⟩
  · decide +kernel
  · decide +kernel

/-- `[3,1,2]` with `12` set to zero, and then the places from `11` down to `3` set to four: the zero is not in the buffer. -/
def outOfReach : ArrayObject Int where
  length := 13
  dense := [.value 3,.value 1,.value 2] ++ List.replicate 9 (.value 4) ++ List.replicate 4 .hole
  indexed := fun index => if index = 12 then .value 0 else .hole

/-- A result between zero and one is read as "equal", a dense array loses its holes, and it loses an element that is not in the
buffer. -/
theorem fractions_and_holes_are_lost :
    ¬ Sorts (difference (1 / 2)) [.value 1,.value 0]
      (contents (builtinArraySort (fun _ => 0) (difference (1 / 2)) ⟨2,[.value 1,.value 0],fun _ => .hole⟩)) ∧
      ¬ Sorts (difference 1) [.hole,.value 7]
        (contents (builtinArraySort (fun _ => 0) (difference 1) ⟨2,[.hole,.value 7],fun _ => .hole⟩)) ∧
      values (contents outOfReach) = [3,1,2,4,4,4,4,4,4,4,4,4,0] ∧
      values (contents (builtinArraySort (fun _ => 0) (difference 1) outOfReach)) = [1,2,3,4,4,4,4,4,4,4,4,4] := by
  refine ⟨fun sorts => ?_,fun sorts => ?_,by decide,by decide +kernel⟩
  · have ordered := sorts.pairwise
    revert ordered
    decide +kernel
  · have holes := sorts.counts.2
    revert holes
    decide +kernel

end Ant.Runtime.ArraySort

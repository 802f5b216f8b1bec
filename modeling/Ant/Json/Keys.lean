import Ant.Library.KeyedList
import Ant.Library.Sorting
import Mathlib.Algebra.Group.Nat.Defs
import Mathlib.Data.List.TakeWhile

/-! The properties of an object that `JSON.stringify` goes through: by its shape, or by the keys that
a `for`-`in` loop would visit. Against them stand the keys that the language prescribes. -/
namespace Ant.Json.Keys
open Library.KeyedList Library.Sorting List

abbrev Bytes := List Nat

inductive Key where
  | string (name : Bytes)
  | symbol (offset : Nat)
  deriving DecidableEq,Repr

/-- The value is what the slot holds or the getter returns; what is never written (undefined, a
function or a symbol) is none. -/
structure Property (ν : Type) where
  key : Key
  enumerable : Bool
  getter : Bool
  setter : Bool
  value : Option ν
  deriving DecidableEq,Repr

structure Layer (ν : Type) where
  properties : List (Property ν)
  distinct : (properties.map Property.key).Nodup

structure Object (ν : Type) where
  own : Layer ν
  prototypes : List (Layer ν)

variable {ν : Type}

def Layer.names (layer : Layer ν) : List (Bytes × Property ν) :=
  layer.properties.filterMap fun property => match property.key with
    | .string name => some (name,property)
    | .symbol _ => none

def Layer.lookup (layer : Layer ν) (name : Bytes) : Option (Property ν) :=
  layer.properties.find? fun property => property.key = .string name

def cString (key : Bytes) : Bytes := key.takeWhile (· ≠ 0)

def isDigit (byte : Nat) : Bool := 0x30 ≤ byte && byte ≤ 0x39

def jsonKeyIsIndex (key : Bytes) : Bool :=
  match cString key with
  | [] => false
  | first :: rest => if first = 0x30 then rest.isEmpty else isDigit first && rest.all isDigit

def parseDigits (parsed : Nat) : Bytes → Option Nat
  | [] => some parsed
  | byte :: rest =>
    if isDigit byte = false then none
    else if (0xFFFFFFFF - (byte - 0x30)) / 10 < parsed then none
    else parseDigits (parsed * 10 + (byte - 0x30)) rest

def ownKeyIsArrayIndex : Bytes → Option Nat
  | [] => none
  | first :: rest =>
    if isDigit first = false then none
    else if rest ≠ [] ∧ first = 0x30 then none
    else if rest = [] then some (first - 0x30)
    else if 10 < rest.length + 1 then none
    else (parseDigits (first - 0x30) rest).bind fun parsed => if 0xFFFFFFFF ≤ parsed then none else some parsed

/-- The array of indices is kept from its last entry to its first. -/
def shiftIn {β : Type} (item : Nat × β) : List (Nat × β) → List (Nat × β)
  | [] => [item]
  | last :: before => if item.1 < last.1 then last :: shiftIn item before else item :: last :: before

def indexed (index : Bytes → Option Nat) (names : List (Bytes × Property ν)) : List (Nat × (Bytes × Property ν)) :=
  names.filterMap fun entry => (index entry.1).map fun number => (number,entry)

def forInOrder (layer : Layer ν) : List (Bytes × Property ν) :=
  if layer.names.all fun entry => (ownKeyIsArrayIndex entry.1).isNone then layer.names
  else ((indexed ownKeyIsArrayIndex layer.names).foldl (fun sorted item => shiftIn item sorted) []).reverse.map Prod.snd ++
    layer.names.filter fun entry => (ownKeyIsArrayIndex entry.1).isNone

structure Collected where
  seen : List Bytes
  out : List Bytes
  deriving DecidableEq,Repr

def forInKeysAdd (collected : Collected) (entry : Bytes × Property ν) : Collected :=
  if entry.1 ∈ collected.seen then collected
  else ⟨entry.1 :: collected.seen,if entry.2.enumerable then collected.out ++ [entry.1] else collected.out⟩

def forInKeysCollectOrdinaryOwn (collected : Collected) (layer : Layer ν) : Collected :=
  (forInOrder layer).foldl forInKeysAdd collected

def maxProtoChainDepth : Nat := 256

def jsForInKeys (object : Object ν) : List Bytes :=
  (((object.own :: object.prototypes).take maxProtoChainDepth).foldl forInKeysCollectOrdinaryOwn ⟨[],[]⟩).out

/-- The enumerable names by the shape, unless one of them looks like an index. -/
def jsonCollectOwnKeys (object : Object ν) : Option (List Bytes) :=
  let enumerable := object.own.names.filter fun entry => entry.2.enumerable
  if enumerable.any fun entry => jsonKeyIsIndex entry.1 then none else some (enumerable.map Prod.fst)

/-- The read by a C string: an own property, or else a getter that is inherited. -/
def jsGet (object : Object ν) (key : Bytes) : Option ν :=
  match object.own.lookup (cString key) with
  | some property => property.value
  | none => match object.prototypes.findSome? fun layer => layer.lookup (cString key) with
    | some property => if property.getter then property.value else none
    | none => none

def readFast (object : Object ν) (key : Bytes) : Option ν :=
  match object.own.lookup key with
  | none => none
  | some property => if property.getter || property.setter then jsGet object key else property.value

/-- An item of a replacer array. A number is printed in one way by the runtime and spelled in another
by the language; a boxed string or number is passed over by the runtime. -/
inductive Item where
  | string (name : Bytes)
  | number (printed spelled : Bytes) (printable : 0 ∉ printed)
  | boxed (spelled : Bytes)
  | other
  deriving DecidableEq,Repr

def Item.names (item : Item) (key : Bytes) : Bool :=
  match item with
  | .string name => name = key
  | .number printed _ _ => printed = key
  | _ => false

/-- The second argument, when it is no function: an object whose `length` is a number, with its items up to there, whether it is an
array or not, or anything else. -/
inductive Replacer where
  | none
  | list (isArray : Bool) (items : List Item)
  deriving DecidableEq,Repr

/-- The runtime takes any object with a length. -/
def Replacer.arr : Replacer → Option (List Item)
  | .none => .none
  | .list _ items => some items

def isKeyInReplacerArr (replacer : Replacer) (key : Bytes) : Bool :=
  match replacer.arr with
  | none => true
  | some items => items.any fun item => item.names key

def fastKeys (replacer : Replacer) (keys : List Bytes) : List Bytes := keys.filter (isKeyInReplacerArr replacer)

def genericKeys (replacer : Replacer) (object : Object ν) : List Bytes :=
  (jsForInKeys object).filter (isKeyInReplacerArr replacer)

def jsonMembers (replacer : Replacer) (object : Object ν) : List (Bytes × ν) :=
  match jsonCollectOwnKeys object with
  | some keys => shown (readFast object) (fastKeys replacer keys)
  | none => shown (jsGet object) (genericKeys replacer object)

/-! What the language prescribes. -/

def digitsValue (digits : Bytes) : Nat := digits.foldl (fun value byte => value * 10 + (byte - 0x30)) 0

def arrayIndex (key : Bytes) : Option Nat :=
  if key ≠ [] ∧ key.all isDigit ∧ (key.head? = some 0x30 → key.length = 1) ∧ digitsValue key < 0xFFFFFFFF then some (digitsValue key)
  else none

/-- Array indices in ascending order, then the other names in the order of their creation. -/
def ownOrder (layer : Layer ν) : List (Bytes × Property ν) :=
  (ascending (indexed arrayIndex layer.names)).map Prod.snd ++ layer.names.filter fun entry => (arrayIndex entry.1).isNone

def enumerableOwnKeys (object : Object ν) : List Bytes :=
  ((ownOrder object.own).filter fun entry => entry.2.enumerable).map Prod.fst

def get (object : Object ν) (key : Bytes) : Option ν :=
  match object.own.lookup key with
  | some property => property.value
  | none => (object.prototypes.findSome? fun layer => layer.lookup key).bind Property.value

def Item.spelled : Item → Option Bytes
  | .string name => some name
  | .number _ spelled _ => some spelled
  | .boxed spelled => some spelled
  | .other => none

def propertyList (items : List Item) : List Bytes := (items.filterMap Item.spelled).eraseDups

/-- The language takes an array only. -/
def Replacer.prescribed : Replacer → Option (List Item)
  | .list true items => some items
  | .list false _ | .none => .none

def prescribedKeys (replacer : Replacer) (object : Object ν) : List Bytes :=
  match replacer.prescribed with
  | none => enumerableOwnKeys object
  | some items => (propertyList items).filter fun key => key ∈ enumerableOwnKeys object

def specMembers (replacer : Replacer) (object : Object ν) : List (Bytes × ν) :=
  shown (get object) (prescribedKeys replacer object)

/-! The numerals. -/

def appendDigits (value : Nat) (digits : Bytes) : Nat := digits.foldl (fun value byte => value * 10 + (byte - 0x30)) value

theorem appendDigits_ge (value : Nat) (digits : Bytes) : value * 10^digits.length ≤ appendDigits value digits := by
  induction digits generalizing value with
  | nil => simp [appendDigits]
  | cons byte rest ih =>
    have tail := ih (value * 10 + (byte - 0x30))
    have grown : value * 10^(rest.length + 1) ≤ (value * 10 + (byte - 0x30)) * 10^rest.length := by
      rw [Nat.pow_succ,Nat.mul_comm (10^rest.length),← Nat.mul_assoc]
      exact Nat.mul_le_mul_right _ (Nat.le_add_right _ _)
    exact Nat.le_trans grown tail

theorem appendDigits_le (value : Nat) (digits : Bytes) : value ≤ appendDigits value digits := by
  have grown := appendDigits_ge value digits
  have positive : 0 < 10^digits.length := Nat.pow_pos (by omega)
  exact Nat.le_trans (Nat.le_mul_of_pos_right value positive) grown

theorem isDigit_range {byte : Nat} (digit : isDigit byte = true) : 0x30 ≤ byte ∧ byte ≤ 0x39 := by
  simpa [isDigit] using digit

theorem parseDigits_eq (parsed : Nat) (digits : Bytes) (small : parsed ≤ 0xFFFFFFFF) : parseDigits parsed digits =
      if digits.all isDigit = true ∧ appendDigits parsed digits ≤ 0xFFFFFFFF then some (appendDigits parsed digits) else none := by
  induction digits generalizing parsed with
  | nil => simp [parseDigits,appendDigits,small]
  | cons byte rest ih =>
    rw [parseDigits]
    cases digit : isDigit byte with
    | false => simp [digit]
    | true =>
      have range := isDigit_range digit
      have tail : appendDigits parsed (byte :: rest) = appendDigits (parsed * 10 + (byte - 0x30)) rest := rfl
      rw [if_neg (by simp),tail]
      split
      · next overflow =>
        have large := appendDigits_le (parsed * 10 + (byte - 0x30)) rest
        rw [if_neg]
        omega
      · next fits =>
        rw [ih _ (by omega)]
        simp [digit]

section
variable (first : Nat) (rest : Bytes)
include first rest

theorem digitsValue_cons : digitsValue (first :: rest) = appendDigits (first - 0x30) rest := by
  simp [digitsValue,appendDigits]

theorem arrayIndex_leading (digit : isDigit first = true) (leading : first ≠ 0x30) : arrayIndex (first :: rest) =
      if rest.all isDigit = true ∧ appendDigits (first - 0x30) rest < 0xFFFFFFFF then some (appendDigits (first - 0x30) rest)
      else none := by
  unfold arrayIndex
  rw [digitsValue_cons]
  simp [digit,leading]

theorem appendDigits_long (positive : 0 < first) (long : 10 ≤ rest.length) : 10^10 ≤ appendDigits first rest := by
  have powers : 10^10 ≤ 10^rest.length := Nat.pow_le_pow_right (by omega) long
  have grown : 10^rest.length ≤ first * 10^rest.length := Nat.le_mul_of_pos_left _ positive
  exact Nat.le_trans powers (Nat.le_trans grown (appendDigits_ge first rest))

theorem ownKeyIsArrayIndex_leading (digit : isDigit first = true) (leading : first ≠ 0x30) (longer : rest ≠ []) :
    ownKeyIsArrayIndex (first :: rest) = arrayIndex (first :: rest) := by
  have range := isDigit_range digit
  rw [arrayIndex_leading first rest digit leading,ownKeyIsArrayIndex]
  rw [if_neg (by simp [digit]),if_neg (by simp [leading]),if_neg longer]
  split
  · next long =>
    have large := appendDigits_long (first - 0x30) rest (by omega) (by omega)
    rw [if_neg (by omega)]
  · rw [parseDigits_eq _ _ (by omega)]
    by_cases digits : rest.all isDigit = true
    · by_cases small : appendDigits (first - 0x30) rest < 0xFFFFFFFF
      · rw [if_pos ⟨digits,Nat.le_of_lt small⟩,if_pos ⟨digits,small⟩]
        simp [Nat.not_le_of_lt small]
      · rw [if_neg (c := _ ∧ _ < _) (fun both => small both.2)]
        split
        · simp [Nat.le_of_not_lt small]
        · rfl
    · rw [if_neg (fun both => digits both.1),if_neg (fun both => digits both.1)]
      rfl

end

theorem ownKeyIsArrayIndex_eq (key : Bytes) : ownKeyIsArrayIndex key = arrayIndex key := by
  cases key with
  | nil => rfl
  | cons first rest =>
    cases digit : isDigit first with
    | false => simp [ownKeyIsArrayIndex,arrayIndex,digit]
    | true =>
      by_cases single : rest = []
      · have range := isDigit_range digit
        have small : first - 0x30 < 0xFFFFFFFF := by omega
        simp [ownKeyIsArrayIndex,arrayIndex,digitsValue,single,digit,small]
      · by_cases leading : first = 0x30
        · simp [ownKeyIsArrayIndex,arrayIndex,leading,single]
        · exact ownKeyIsArrayIndex_leading first rest digit leading single

variable {key : Bytes} {β : Type} {keys : List Bytes} {replacer : Replacer}

theorem cString_eq (terminated : 0 ∉ key) : cString key = key := by
  unfold cString
  rw [takeWhile_eq_self_iff]
  intro byte member
  simp only [decide_eq_true_eq]
  rintro rfl
  exact terminated member

theorem jsonKeyIsIndex_of_arrayIndex {index : Nat} (found : arrayIndex key = some index) : jsonKeyIsIndex key = true := by
  unfold arrayIndex at found
  split at found
  · next numeral =>
    obtain ⟨nonempty,digits,leading,_⟩ := numeral
    have whole : cString key = key := by
      apply cString_eq
      intro zero
      have range := isDigit_range (all_eq_true.mp digits 0 zero)
      omega
    unfold jsonKeyIsIndex
    rw [whole]
    cases key with
    | nil => exact absurd rfl nonempty
    | cons first rest =>
      simp only [all_cons] at digits
      by_cases zero : first = 0x30
      · simp_all
      · simp [zero,digits]
  · exact absurd found (by simp)

/-! The order of the keys. -/

theorem insertAscending_last (item : Nat × β) {last : Nat × β} {items : List (Nat × β)}
    (sorted : (items ++ [last]).Pairwise fun a b => a.1 ≤ b.1) : insertAscending item (items ++ [last]) =
      if item.1 < last.1 then insertAscending item items ++ [last] else items ++ [last] ++ [item] := by
  induction items with
  | nil =>
    simp only [nil_append,insertAscending]
    split <;> rfl
  | cons first rest ih =>
    rw [cons_append,pairwise_cons] at sorted
    have below : first.1 ≤ last.1 := sorted.1 last (by simp)
    rw [cons_append,insertAscending,ih sorted.2]
    by_cases early : item.1 < first.1
    · have less : item.1 < last.1 := Nat.lt_of_lt_of_le early below
      simp [insertAscending,early,less]
    · by_cases less : item.1 < last.1
      · simp [insertAscending,early,less]
      · simp [early,less]

theorem shiftIn_reverse (item : Nat × β) {items : List (Nat × β)} (sorted : items.reverse.Pairwise fun a b => a.1 ≤ b.1) :
    (shiftIn item items).reverse = insertAscending item items.reverse := by
  induction items with
  | nil => rfl
  | cons last before ih =>
    rw [reverse_cons] at sorted ⊢
    rw [insertAscending_last item sorted,shiftIn]
    split
    · rw [reverse_cons,ih (pairwise_append.mp sorted).1]
    · simp

theorem shiftIn_ascending (items : List (Nat × β)) :
    (items.foldl (fun sorted item => shiftIn item sorted) []).reverse = ascending items := by
  have go (done : List (Nat × β)) (sorted : done.reverse.Pairwise fun a b => a.1 ≤ b.1) :
      (items.foldl (fun sorted item => shiftIn item sorted) done).reverse =
        items.foldl (fun sorted item => insertAscending item sorted) done.reverse := by
    induction items generalizing done with
    | nil => rfl
    | cons item items ih =>
      have inserted := shiftIn_reverse item sorted
      have still : (shiftIn item done).reverse.Pairwise fun a b => a.1 ≤ b.1 := by
        rw [inserted]
        exact insertAscending_sorted sorted
      rw [foldl_cons,foldl_cons,ih _ still,inserted]
  exact go [] .nil

theorem indexed_nil_of_none {names : List (Bytes × Property ν)} (plain : ∀ entry ∈ names, arrayIndex entry.1 = none) :
    indexed arrayIndex names = [] := by
  unfold indexed
  rw [filterMap_eq_nil_iff]
  intro entry member
  simp [plain entry member]

theorem ownOrder_plain (layer : Layer ν) (plain : ∀ entry ∈ layer.names, arrayIndex entry.1 = none) :
    ownOrder layer = layer.names := by
  unfold ownOrder
  rw [indexed_nil_of_none plain]
  simpa [ascending] using plain

theorem forInOrder_eq (layer : Layer ν) : forInOrder layer = ownOrder layer := by
  have indices : ownKeyIsArrayIndex = arrayIndex := funext ownKeyIsArrayIndex_eq
  unfold forInOrder
  rw [indices]
  split
  · next plain =>
    rw [ownOrder_plain]
    simpa using plain
  · rw [shiftIn_ascending]
    rfl

/-! The names of one object and what is found at them. -/

section
variable (layer : Layer ν)
include layer

theorem mem_names (name : Bytes) (property : Property ν) :
    (name,property) ∈ layer.names ↔ property ∈ layer.properties ∧ property.key = .string name := by
  unfold Layer.names
  rw [mem_filterMap]
  constructor
  · rintro ⟨other,member,made⟩
    split at made
    · next key => simp_all
    · exact absurd made (by simp)
  · rintro ⟨member,key⟩
    exact ⟨property,member,by simp [key]⟩

theorem lookup_eq_some (name : Bytes) (property : Property ν) :
    layer.lookup name = some property ↔ (name,property) ∈ layer.names := by
  rw [mem_names]
  unfold Layer.lookup
  constructor
  · intro found
    exact ⟨mem_of_find?_eq_some found,by simpa using find?_some found⟩
  · rintro ⟨member,key⟩
    have present : (layer.properties.find? fun property => decide (property.key = .string name)).isSome := by
      rw [find?_isSome]
      exact ⟨property,member,by simpa using key⟩
    obtain ⟨other,found⟩ := Option.isSome_iff_exists.mp present
    have same : other.key = property.key := by
      rw [key]
      simpa using find?_some found
    rw [found,inj_on_of_nodup_map layer.distinct (mem_of_find?_eq_some found) member same]

theorem lookup_eq_none (name : Bytes) : layer.lookup name = none ↔ name ∉ layer.names.map Prod.fst := by
  rw [Option.eq_none_iff_forall_ne_some]
  constructor
  · intro missing member
    obtain ⟨⟨_,property⟩,entry,rfl⟩ := mem_map.mp member
    exact missing property ((lookup_eq_some layer _ property).mpr entry)
  · intro outside property found
    exact outside (mem_map.mpr ⟨_,(lookup_eq_some layer name property).mp found,rfl⟩)

theorem names_nodup : (layer.names.map Prod.fst).Nodup := by
  have projected : layer.names.map Prod.fst =
      (layer.properties.map Property.key).filterMap fun key => match key with
        | .string name => some name
        | .symbol _ => none := by
    unfold Layer.names
    rw [map_filterMap,filterMap_map]
    apply filterMap_congr
    intro property _
    cases key : property.key with
    | string name => simp [key]
    | symbol offset => simp [key]
  rw [projected]
  refine layer.distinct.filterMap ?_
  intro first second name left right
  cases first with
  | symbol offset => exact absurd left (by simp)
  | string one => cases second with
    | symbol offset => exact absurd right (by simp)
    | string other => simp_all

theorem ownOrder_perm : (ownOrder layer).Perm layer.names := by
  have indices : ∀ names : List (Bytes × Property ν), (indexed arrayIndex names).map Prod.snd =
      names.filter fun entry => (arrayIndex entry.1).isSome := by
    intro names
    induction names with
    | nil => rfl
    | cons entry names ih =>
      unfold indexed at ih ⊢
      cases index : arrayIndex entry.1 with
      | none => simp [index,ih]
      | some number => simp [index,ih]
  have numbered := (ascending_perm (indexed arrayIndex layer.names)).map Prod.snd
  rw [indices] at numbered
  have halves := filter_append_perm (fun entry : Bytes × Property ν => (arrayIndex entry.1).isSome) layer.names
  refine (numbered.append_right _).trans ?_
  simpa using halves

end

/-! The collection along the prototype chain. -/

theorem forInKeysAdd_run {entries : List (Bytes × Property ν)} (collected : Collected)
    (distinct : (entries.map Prod.fst).Nodup) : (entries.foldl forInKeysAdd collected).out = collected.out ++
      (entries.filter fun entry => entry.2.enumerable && decide (entry.1 ∉ collected.seen)).map Prod.fst ∧
    ∀ name, name ∈ (entries.foldl forInKeysAdd collected).seen ↔ name ∈ collected.seen ∨ name ∈ entries.map Prod.fst := by
  induction entries generalizing collected with
  | nil => simp
  | cons entry entries ih =>
    rw [map_cons,nodup_cons] at distinct
    obtain ⟨out,seen⟩ := ih (forInKeysAdd collected entry) distinct.2
    rw [foldl_cons,out]
    by_cases known : entry.1 ∈ collected.seen
    · have same : forInKeysAdd collected entry = collected := by simp [forInKeysAdd,known]
      constructor
      · simp [same,known]
      · intro name
        rw [seen,same,map_cons,mem_cons]
        constructor
        · rintro (before | later)
          · exact .inl before
          · exact .inr (.inr later)
        · rintro (before | rfl | later)
          · exact .inl before
          · exact .inl known
          · exact .inr later
    · have added : (forInKeysAdd collected entry).seen = entry.1 :: collected.seen := by simp [forInKeysAdd,known]
      constructor
      · have others : (entries.filter fun other => other.2.enumerable && decide (other.1 ∉ (forInKeysAdd collected entry).seen)) =
            entries.filter fun other => other.2.enumerable && decide (other.1 ∉ collected.seen) := by
          apply filter_congr
          intro other member
          have different : other.1 ≠ entry.1 := by
            intro equal
            exact distinct.1 (equal ▸ mem_map_of_mem member)
          simp [added,different]
        rw [others]
        cases visible : entry.2.enumerable with
        | false => simp [forInKeysAdd,known,visible]
        | true => simp [forInKeysAdd,known,visible]
      · intro name
        rw [seen,added,mem_cons,map_cons,mem_cons,or_assoc]
        tauto

theorem mem_ownOrder_filter (layer : Layer ν) (seen : List Bytes) (name : Bytes) :
    name ∈ ((ownOrder layer).filter fun entry => entry.2.enumerable && decide (entry.1 ∉ seen)).map Prod.fst ↔
      name ∉ seen ∧ ∃ property, layer.lookup name = some property ∧ property.enumerable = true := by
  simp only [mem_map,mem_filter,(ownOrder_perm layer).mem_iff,Bool.and_eq_true,decide_eq_true_eq,lookup_eq_some]
  constructor
  · rintro ⟨⟨_,property⟩,⟨member,visible,fresh⟩,rfl⟩
    exact ⟨fresh,property,member,visible⟩
  · rintro ⟨fresh,property,member,visible⟩
    exact ⟨(name,property),⟨member,visible,fresh⟩,rfl⟩

theorem ownOrder_nodup (layer : Layer ν) : ((ownOrder layer).map Prod.fst).Nodup :=
  ((ownOrder_perm layer).map Prod.fst).nodup_iff.mpr (names_nodup layer)

theorem forInKeysCollectOrdinaryOwn_eq (collected : Collected) (layer : Layer ν) :
    (forInKeysCollectOrdinaryOwn collected layer).out = collected.out ++
      ((ownOrder layer).filter fun entry => entry.2.enumerable && decide (entry.1 ∉ collected.seen)).map Prod.fst ∧
    ∀ name, name ∈ (forInKeysCollectOrdinaryOwn collected layer).seen ↔
      name ∈ collected.seen ∨ (layer.lookup name).isSome := by
  unfold forInKeysCollectOrdinaryOwn
  rw [forInOrder_eq]
  obtain ⟨out,seen⟩ := forInKeysAdd_run collected (ownOrder_nodup layer)
  refine ⟨out,fun name => ?_⟩
  have present : name ∈ (ownOrder layer).map Prod.fst ↔ (layer.lookup name).isSome := by
    rw [((ownOrder_perm layer).map Prod.fst).mem_iff,← Option.ne_none_iff_isSome,ne_eq,lookup_eq_none,not_not]
  rw [seen,present]

def firstAlong (layers : List (Layer ν)) (name : Bytes) : Option (Property ν) := layers.findSome? fun layer => layer.lookup name

theorem forInKeysCollectChain_eq (layers : List (Layer ν)) (collected : Collected) :
    ∃ more, (layers.foldl forInKeysCollectOrdinaryOwn collected).out = collected.out ++ more ∧ more.Nodup ∧
      ∀ name, name ∈ more ↔
        name ∉ collected.seen ∧ ∃ property, firstAlong layers name = some property ∧ property.enumerable = true := by
  induction layers generalizing collected with
  | nil => exact ⟨[],by simp,.nil,by simp [firstAlong]⟩
  | cons layer layers ih =>
    obtain ⟨out,seen⟩ := forInKeysCollectOrdinaryOwn_eq collected layer
    obtain ⟨more,rest,distinct,members⟩ := ih (forInKeysCollectOrdinaryOwn collected layer)
    refine ⟨((ownOrder layer).filter fun entry => entry.2.enumerable && decide (entry.1 ∉ collected.seen)).map Prod.fst ++ more,
      ?_,?_,?_⟩
    · rw [foldl_cons,rest,out,append_assoc]
    · refine nodup_append'.mpr ⟨(ownOrder_nodup layer).sublist (filter_sublist.map Prod.fst),distinct,?_⟩
      intro name here later
      obtain ⟨_,property,found,_⟩ := (mem_ownOrder_filter layer _ name).mp here
      exact ((members name).mp later).1 ((seen name).mpr (.inr (by simp [found])))
    · intro name
      rw [mem_append,mem_ownOrder_filter,members,seen]
      cases found : layer.lookup name with
      | none => simp [firstAlong,found]
      | some property => simp [firstAlong,found]

/-- A name that only the chain has, and has enumerable, within the depth that is followed. -/
def Inherits (object : Object ν) (name : Bytes) : Prop :=
  object.own.lookup name = none ∧
    ∃ property, firstAlong (object.prototypes.take (maxProtoChainDepth - 1)) name = some property ∧ property.enumerable = true

theorem mem_enumerableOwnKeys (object : Object ν) (name : Bytes) :
    name ∈ enumerableOwnKeys object ↔ ∃ property, object.own.lookup name = some property ∧ property.enumerable = true := by
  simpa [enumerableOwnKeys] using mem_ownOrder_filter object.own [] name

theorem jsForInKeys_eq (object : Object ν) : ∃ inherited, jsForInKeys object = enumerableOwnKeys object ++ inherited ∧
      (enumerableOwnKeys object ++ inherited).Nodup ∧ ∀ name, name ∈ inherited ↔ Inherits object name := by
  obtain ⟨out,seen⟩ := forInKeysCollectOrdinaryOwn_eq ⟨[],[]⟩ object.own
  obtain ⟨inherited,rest,distinct,members⟩ := forInKeysCollectChain_eq (object.prototypes.take (maxProtoChainDepth - 1))
    (forInKeysCollectOrdinaryOwn ⟨[],[]⟩ object.own)
  have own : (forInKeysCollectOrdinaryOwn ⟨[],[]⟩ object.own).out = enumerableOwnKeys object := by
    simpa [enumerableOwnKeys] using out
  have exactly (name : Bytes) : name ∈ inherited ↔ Inherits object name := by
    rw [members,seen,Inherits]
    simp
  refine ⟨inherited,?_,?_,exactly⟩
  · rw [← own,← rest]
    rfl
  · refine nodup_append'.mpr ⟨?_,distinct,?_⟩
    · exact (ownOrder_nodup object.own).sublist (filter_sublist.map Prod.fst)
    · intro name here later
      obtain ⟨property,found,_⟩ := (mem_enumerableOwnKeys object name).mp here
      rw [((exactly name).mp later).1] at found
      exact absurd found (by simp)

theorem jsonCollectOwnKeys_eq {object : Object ν} (fast : jsonCollectOwnKeys object = some keys) :
    keys = enumerableOwnKeys object := by
  simp only [jsonCollectOwnKeys] at fast
  split at fast
  · exact absurd fast (by simp)
  · next plain =>
    have ordinary : ∀ entry ∈ object.own.names, entry.2.enumerable = true → arrayIndex entry.1 = none := by
      intro entry member visible
      rw [Option.eq_none_iff_forall_ne_some]
      intro index found
      exact plain (any_eq_true.mpr ⟨entry,mem_filter.mpr ⟨member,visible⟩,jsonKeyIsIndex_of_arrayIndex found⟩)
    have numbered : ((ascending (indexed arrayIndex object.own.names)).map Prod.snd).filter (fun entry => entry.2.enumerable) = [] := by
      rw [filter_eq_nil_iff]
      intro entry member visible
      obtain ⟨⟨index,_⟩,listed,rfl⟩ := mem_map.mp member
      obtain ⟨other,named,made⟩ := mem_filterMap.mp ((ascending_perm _).mem_iff.mp listed)
      obtain ⟨number,found,same⟩ := Option.map_eq_some_iff.mp made
      cases same
      rw [ordinary _ named visible] at found
      exact absurd found (by simp)
    rw [← Option.some.inj fast,enumerableOwnKeys,ownOrder,filter_append,numbered,filter_filter]
    congr 1
    apply filter_congr
    intro entry member
    cases visible : entry.2.enumerable with
    | false => rfl
    | true => simp [ordinary entry member visible]

/-! Where the writers write what is prescribed. -/

/-- What is admitted is read under its C string as it stands, is listed under the language's spelling
and in the object's order, and nothing inherited gives a value. -/
structure Conforms (replacer : Replacer) (object : Object ν) : Prop where
  reads : ∀ name property, object.own.lookup name = some property → property.enumerable = true →
    isKeyInReplacerArr replacer name = true → jsGet object name = property.value
  listed : ∀ name property, object.own.lookup name = some property → property.enumerable = true →
    isKeyInReplacerArr replacer name = true → name ∉ prescribedKeys replacer object → property.value = none
  ordered : ((prescribedKeys replacer object).filter fun name => (get object name).isSome).Sublist
    ((enumerableOwnKeys object).filter (isKeyInReplacerArr replacer))
  inherits : ∀ name, Inherits object name → isKeyInReplacerArr replacer name = true → jsGet object name = none

section
variable {object : Object ν} {name : Bytes} {property : Property ν}

theorem get_own (found : object.own.lookup name = some property) : get object name = property.value := by
  simp [get,found]

theorem jsGet_terminated (terminated : 0 ∉ name) (found : object.own.lookup name = some property) :
    jsGet object name = property.value := by
  simp [jsGet,cString_eq terminated,found]

theorem prescribedKeys_own {object : Object ν} {name : Bytes} (prescribed : name ∈ prescribedKeys replacer object) :
    name ∈ enumerableOwnKeys object := by
  unfold prescribedKeys at prescribed
  split at prescribed
  · exact prescribed
  · simpa using (mem_filter.mp prescribed).2

theorem admitted_unlisted {object : Object ν} {name : Bytes} (own : name ∈ enumerableOwnKeys object)
    (admitted : isKeyInReplacerArr replacer name = true) (unlisted : name ∉ prescribedKeys replacer object) : 0 ∉ name := by
  cases replacer with
  | none => exact absurd own unlisted
  | list isArray items =>
    cases isArray with
    | false => exact absurd own unlisted
    | true =>
      obtain ⟨item,member,names⟩ := any_eq_true.mp admitted
      cases item with
      | string other =>
        have same : other = name := by simpa [Item.names] using names
        have listed : name ∈ propertyList items := by
          rw [propertyList,mem_eraseDups,mem_filterMap]
          exact ⟨.string other,member,by simp [Item.spelled,same]⟩
        exact absurd (mem_filter.mpr ⟨listed,by simpa using own⟩) unlisted
      | number printed spelled printable =>
        have same : printed = name := by simpa [Item.names] using names
        exact same ▸ printable
      | boxed spelled => exact absurd names (by simp [Item.names])
      | other => exact absurd names (by simp [Item.names])

theorem sublist_of_append {α : Type} {part first second : List α} (sublist : part.Sublist (first ++ second))
    (outside : ∀ item ∈ part, item ∉ second) : part.Sublist first := by
  obtain ⟨start,rest,rfl,inFirst,inSecond⟩ := sublist_append_iff.mp sublist
  cases rest with
  | nil => simpa using inFirst
  | cons item rest => exact absurd (inSecond.subset (mem_cons_self ..)) (outside item (by simp))

theorem generic_as_prescribed_iff (replacer : Replacer) (object : Object ν) :
    shown (jsGet object) (genericKeys replacer object) = specMembers replacer object ↔ Conforms replacer object := by
  obtain ⟨inherited,keys,distinct,members⟩ := jsForInKeys_eq object
  rw [genericKeys,keys,specMembers,shown_eq_iff _ _ _ _ (distinct.filter _),filter_append]
  have foreign (name : Bytes) (prescribed : name ∈ prescribedKeys replacer object) : ¬ Inherits object name := by
    intro inherits
    obtain ⟨property,found,_⟩ := (mem_enumerableOwnKeys object name).mp (prescribedKeys_own prescribed)
    rw [inherits.1] at found
    exact absurd found (by simp)
  constructor
  · rintro ⟨ordered,reads⟩
    have own (name : Bytes) (property : Property ν) (found : object.own.lookup name = some property)
        (visible : property.enumerable = true) (admitted : isKeyInReplacerArr replacer name = true) :
        jsGet object name = property.value ∧ (name ∉ prescribedKeys replacer object → property.value = none) := by
      have member := (mem_enumerableOwnKeys object name).mpr ⟨property,found,visible⟩
      have read := reads name (mem_append_left _ (mem_filter.mpr ⟨member,admitted⟩))
      by_cases listed : name ∈ prescribedKeys replacer object
      · rw [if_pos listed,get_own found] at read
        exact ⟨read,fun unlisted => absurd listed unlisted⟩
      · rw [if_neg listed] at read
        have value := jsGet_terminated (admitted_unlisted member admitted listed) found
        exact ⟨value,fun _ => value.symm.trans read⟩
    refine ⟨fun name property found visible admitted => (own name property found visible admitted).1,
      fun name property found visible admitted => (own name property found visible admitted).2,?_,?_⟩
    · apply sublist_of_append ordered
      intro name prescribed later
      exact foreign name (mem_of_mem_filter prescribed) ((members name).mp (mem_of_mem_filter later))
    · intro name inherits admitted
      have read := reads name (mem_append_right _ (mem_filter.mpr ⟨(members name).mpr inherits,admitted⟩))
      rwa [if_neg fun prescribed => foreign name prescribed inherits] at read
  · rintro ⟨reads,listed,ordered,inherits⟩
    refine ⟨ordered.trans (sublist_append_left _ _),?_⟩
    intro name member
    rcases mem_append.mp member with here | later
    · obtain ⟨own,admitted⟩ := mem_filter.mp here
      obtain ⟨property,found,visible⟩ := (mem_enumerableOwnKeys object name).mp own
      rw [reads name property found visible admitted]
      split
      · rw [get_own found]
      · next unlisted => exact listed name property found visible admitted unlisted
    · obtain ⟨foreigner,admitted⟩ := mem_filter.mp later
      have inheriting := (members name).mp foreigner
      rw [inherits name inheriting admitted,if_neg fun prescribed => foreign name prescribed inheriting]

theorem fast_as_generic (fast : jsonCollectOwnKeys object = some keys) (conforms : Conforms replacer object) :
    shown (readFast object) (fastKeys replacer keys) = specMembers replacer object := by
  have enumerable := jsonCollectOwnKeys_eq fast
  subst enumerable
  have distinct : (enumerableOwnKeys object).Nodup := (ownOrder_nodup object.own).sublist (filter_sublist.map Prod.fst)
  unfold fastKeys specMembers
  rw [shown_eq_iff _ _ _ _ (distinct.filter _)]
  refine ⟨conforms.ordered,?_⟩
  intro name member
  obtain ⟨own,admitted⟩ := mem_filter.mp member
  obtain ⟨property,found,visible⟩ := (mem_enumerableOwnKeys object name).mp own
  have read : readFast object name = property.value := by
    simp only [readFast,found]
    split
    · exact conforms.reads name property found visible admitted
    · rfl
  rw [read]
  split
  · rw [get_own found]
  · next unlisted => exact conforms.listed name property found visible admitted unlisted

end

/-- An object is written as prescribed, and by both writers alike where the fast one takes it. -/
def WrittenAsPrescribed (replacer : Replacer) (object : Object ν) : Prop :=
  jsonMembers replacer object = specMembers replacer object ∧
    ∀ keys, jsonCollectOwnKeys object = some keys →
      shown (readFast object) (fastKeys replacer keys) = shown (jsGet object) (genericKeys replacer object)

theorem writtenAsPrescribed_iff (replacer : Replacer) (object : Object ν) :
    WrittenAsPrescribed replacer object ↔ Conforms replacer object := by
  rw [← generic_as_prescribed_iff]
  constructor
  · rintro ⟨members,alike⟩
    unfold jsonMembers at members
    cases fast : jsonCollectOwnKeys object with
    | none => simpa [fast] using members
    | some keys =>
      rw [← alike keys fast]
      simpa [fast] using members
  · intro generic
    have conforms := (generic_as_prescribed_iff replacer object).mp generic
    constructor
    · unfold jsonMembers
      cases fast : jsonCollectOwnKeys object with
      | none => exact generic
      | some keys => exact fast_as_generic fast conforms
    · intro keys fast
      rw [generic,fast_as_generic fast conforms]

end Ant.Json.Keys

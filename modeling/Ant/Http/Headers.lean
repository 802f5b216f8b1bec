import Ant.Http.Writer
import Ant.Library.Groups
import Ant.Library.HttpMessage

/-! The `Headers` object: a list of names in lower case with their values, which iteration copies and
sorts anew for each entry it gives. The sort may put the values of one name in any order. -/
namespace Ant.Http.Headers
open Library.ByteLayout Library.ByteString Library.HttpMessage Library.Groups List

abbrev Entry := Bytes × Bytes

def isValidName (name : Bytes) : Bool := name != [] && name.all isToken

def isValidValue (value : Bytes) : Bool := value.all fun char => !(char == 0 || char == 13 || char == 10 || char > 127)

def lowercaseDup (name : Bytes) : Bytes := name.map fun char => if 65 ≤ char ∧ char ≤ 90 then char + 32 else char

def setCookie : Bytes := ascii "set-cookie"

def listDeleteName (list : List Entry) (lower : Bytes) : List Entry := list.filter fun entry => entry.1 ≠ lower

/-- The checks of `append` and `set`, with the message of the error. The arguments are C strings. -/
def checkedPair (name value : Bytes) : Except Bytes Entry :=
  let name := untilZero name
  let norm := trimBlanks (untilZero value)
  if !isValidName name then .error (ascii "Invalid header name: " ++ name)
  else if !isValidValue norm then .error (ascii "Invalid header value")
  else .ok (lowercaseDup name,norm)

def headersAppend (list : List Entry) (name value : Bytes) : Except Bytes (List Entry) := do
  let pair ← checkedPair name value
  return list ++ [pair]

def headersSet (list : List Entry) (name value : Bytes) : Except Bytes (List Entry) := do
  let pair ← checkedPair name value
  return listDeleteName list pair.1 ++ [pair]

def headersDelete (list : List Entry) (name : Bytes) : Except Bytes (List Entry) :=
  let name := untilZero name
  if !isValidName name then .error (ascii "Invalid header name") else .ok (listDeleteName list (lowercaseDup name))

def combined (values : List Bytes) : Bytes := join (ascii ", ") values

def headersGet (list : List Entry) (name : Bytes) : Except Bytes (Option Bytes) :=
  let name := untilZero name
  let values := group (lowercaseDup name) list
  if !isValidName name then .error (ascii "Invalid header name")
  else if lowercaseDup name = setCookie then .ok values.head?
  else if values = [] then .ok none
  else .ok (some (combined values))

/-- The merging of a sorted list; the first argument bounds its length. -/
def mergePairs : Nat → List Entry → List Entry
  | 0,_ => []
  | _,[] => []
  | fuel+1,(name,value) :: rest =>
    if name = setCookie then (name,value) :: mergePairs fuel rest
    else
      let same := rest.takeWhile fun entry => entry.1 = name
      (name,combined (value :: same.map Prod.snd)) :: mergePairs fuel (rest.drop same.length)

/-- From what `qsort` has left. -/
def buildSortedView (raw : List Entry) : List Entry := mergePairs raw.length raw

/-- Each step builds the view again; `sorts` gives what `qsort` leaves at each of them. -/
def advanceHeaders (sorts : Nat → List Entry) (index : Nat) : Option Entry := (buildSortedView (sorts index))[index]?

def iterate (sorts : Nat → List Entry) : Nat → Nat → Option (List Entry)
  | 0,_ => none
  | fuel+1,index => match advanceHeaders sorts index with
    | none => some []
    | some entry => (iterate sorts fuel (index + 1)).map (entry :: ·)

inductive Call where
  | append (name value : Bytes)
  | set (name value : Bytes)
  | delete (name : Bytes)
  deriving DecidableEq,Repr

def apply (list : List Entry) : Call → Except Bytes (List Entry)
  | .append name value => headersAppend list name value
  | .set name value => headersSet list name value
  | .delete name => headersDelete list name

def run (calls : List Call) : Except Bytes (List Entry) := calls.foldlM apply []

section Specification

abbrev Sendable (value : Bytes) : Prop := 0 ∉ value ∧ isValidValue (trimBlanks value) = true

def Call.Valid : Call → Prop
  | .append name value => isValidName name = true ∧ Sendable value
  | .set name value => isValidName name = true ∧ Sendable value
  | .delete name => isValidName name = true

instance : DecidablePred Call.Valid
  | .append name value => inferInstanceAs (Decidable (isValidName name = true ∧ Sendable value))
  | .set name value => inferInstanceAs (Decidable (isValidName name = true ∧ Sendable value))
  | .delete name => inferInstanceAs (Decidable (isValidName name = true))

/-- The values of a name after a call. -/
def revise (lower : Bytes) (values : List Bytes) : Call → List Bytes
  | .append name value => if lowercaseDup name = lower then values ++ [trimBlanks value] else values
  | .set name value => if lowercaseDup name = lower then [trimBlanks value] else values
  | .delete name => if lowercaseDup name = lower then [] else values

/-- The values of a name in the order in which they were appended. -/
def history (lower : Bytes) (calls : List Call) : List Bytes := calls.foldl (revise lower) []

def shown (name : Bytes) (values : List Bytes) : List Entry :=
  if name = setCookie then values.map fun value => (name,value) else [(name,combined values)]

/-- The names in order, each with its values as they were appended, and as `get` gives them. -/
structure Exact (calls : List Call) (list pairs : List Entry) : Prop where
  iterated : ∃ names : List Bytes, names.Pairwise (· ≤ ·) ∧ names.Nodup ∧ (∀ name, name ∈ names ↔ history name calls ≠ []) ∧
    pairs = names.flatMap fun name => shown name (history name calls)
  gets : ∀ name, isValidName name = true → headersGet list name =
    .ok (if lowercaseDup name = setCookie then (history setCookie calls).head?
      else if history (lowercaseDup name) calls = [] then none else some (combined (history (lowercaseDup name) calls)))

def IsSort (list raw : List Entry) : Prop := raw.Perm list ∧ raw.Pairwise fun a b => a.1 ≤ b.1

/-- The order of the two values of a name does not show. -/
def Alike (name first second : Bytes) : Prop :=
  if name = setCookie then first = second else first ++ ascii ", " ++ second = second ++ ascii ", " ++ first

end Specification

variable {name value first second : Bytes} {calls : List Call} {fuel : Nat}

section Calls

theorem isValidName_plain (valid : isValidName name = true) : (0 : UInt8) ∉ name :=
  not_mem_of_isToken (Bool.and_eq_true_iff.mp valid).2 (by decide)

theorem checkedPair_valid (valid : isValidName name = true) (sendable : Sendable value) :
    checkedPair name value = .ok (lowercaseDup name,trimBlanks value) := by
  simp [checkedPair,untilZero_plain (isValidName_plain valid),untilZero_plain sendable.1,valid,sendable.2]

theorem group_listDeleteName (list : List Entry) (name lower : Bytes) :
    group name (listDeleteName list lower) = if lower = name then [] else group name list := by
  rw [group,listDeleteName,filter_filter]
  split
  next same =>
    subst same
    simp
  next different =>
    congr 2
    funext entry
    by_cases here : entry.1 = name
    · simp [here,Ne.symm different]
    · simp [here]

theorem group_single (name lower value : Bytes) : group name [(lower,value)] = if lower = name then [value] else [] :=
  group_own [value]

theorem apply_valid (list : List Entry) {call : Call} (valid : call.Valid) :
    ∃ next, apply list call = .ok next ∧ ∀ name, group name next = revise name (group name list) call := by
  cases call with
  | append name value =>
    refine ⟨list ++ [(lowercaseDup name,trimBlanks value)],?_,?_⟩
    · rw [apply,headersAppend,checkedPair_valid valid.1 valid.2]
      rfl
    · intro other
      rw [group_append,group_single,revise]
      split <;> simp
  | set name value =>
    refine ⟨listDeleteName list (lowercaseDup name) ++ [(lowercaseDup name,trimBlanks value)],?_,?_⟩
    · rw [apply,headersSet,checkedPair_valid valid.1 valid.2]
      rfl
    · intro other
      rw [group_append,group_single,group_listDeleteName,revise]
      split <;> simp
  | delete name =>
    have accepted : isValidName name = true := valid
    refine ⟨listDeleteName list (lowercaseDup name),?_,?_⟩
    · simp [apply,headersDelete,untilZero_plain (isValidName_plain accepted),accepted]
    · intro other
      rw [group_listDeleteName,revise]

theorem run_valid (valid : ∀ call ∈ calls, call.Valid) :
    ∃ list, run calls = .ok list ∧ ∀ name, group name list = history name calls := by
  have go (start : List Entry) : ∃ list, calls.foldlM apply start = .ok list ∧
      ∀ name, group name list = calls.foldl (revise name) (group name start) := by
    induction calls generalizing start with
    | nil => exact ⟨start,rfl,fun _ => rfl⟩
    | cons call calls ih =>
      obtain ⟨next,applied,groups⟩ := apply_valid start (valid call mem_cons_self)
      obtain ⟨list,ran,last⟩ := ih (fun other member => valid other (mem_cons_of_mem _ member)) next
      refine ⟨list,?_,?_⟩
      · rw [foldlM_cons,applied]
        exact ran
      · intro name
        rw [last,groups,foldl_cons]
  exact go []

theorem headersGet_valid {list : List Entry} (groups : ∀ name, group name list = history name calls) (name : Bytes)
    (valid : isValidName name = true) : headersGet list name =
      .ok (if lowercaseDup name = setCookie then (history setCookie calls).head?
        else if history (lowercaseDup name) calls = [] then none else some (combined (history (lowercaseDup name) calls))) := by
  simp only [headersGet,untilZero_plain (isValidName_plain valid),valid,groups]
  split
  next contrary => simp at contrary
  next =>
    split
    next cookie => rw [cookie]
    next => split <;> rfl

end Calls

section Views

section
variable {names : List Bytes} {list raw : List Entry}

theorem mergePairs_cookies (values : List Bytes) (rest : List Entry) (fuel : Nat) :
    mergePairs (values.length + fuel) ((values.map fun value => (setCookie,value)) ++ rest) =
      (values.map fun value => (setCookie,value)) ++ mergePairs fuel rest := by
  induction values with
  | nil => simp
  | cons value values ih =>
    rw [length_cons,Nat.add_right_comm,map_cons,cons_append,mergePairs,ih]
    rfl

theorem takeWhile_spread (absent : name ∉ names) (values : Bytes → List Bytes) :
    (spread names values).takeWhile (fun entry => entry.1 = name) = [] := by
  cases items : spread names values with
  | nil => rfl
  | cons entry rest =>
    have member : entry ∈ spread names values := by simp [items]
    obtain ⟨other,place,here⟩ := mem_flatMap.mp member
    obtain ⟨_,_,rfl⟩ := mem_map.mp here
    have different : other ≠ name := fun same => absent (same ▸ place)
    simp [different]

theorem mergePairs_spread (distinct : names.Nodup) {values : Bytes → List Bytes} (filled : ∀ name ∈ names, values name ≠ [])
    (fuel : Nat) (enough : (spread names values).length ≤ fuel) :
    mergePairs fuel (spread names values) = names.flatMap fun name => shown name (values name) := by
  induction names generalizing fuel with
  | nil => cases fuel <;> rfl
  | cons name names ih =>
    rw [nodup_cons] at distinct
    have later := fun other member => filled other (mem_cons_of_mem name member)
    have parts : spread (name :: names) values = (values name).map (fun value => (name,value)) ++ spread names values := rfl
    rw [parts,length_append,length_map] at enough
    rw [parts,flatMap_cons,shown]
    split
    next cookie =>
      subst cookie
      obtain ⟨left,rfl⟩ := Nat.exists_eq_add_of_le (Nat.le_of_add_right_le enough)
      rw [mergePairs_cookies,ih distinct.2 later left (by omega)]
    next plain =>
      obtain ⟨value,others,same⟩ := exists_cons_of_ne_nil (filled name mem_cons_self)
      rw [same] at enough ⊢
      rw [length_cons] at enough
      obtain ⟨left,rfl⟩ := Nat.exists_eq_add_of_le' (show 1 ≤ fuel by omega)
      have own : ((others.map fun value => (name,value)) ++ spread names values).takeWhile (fun entry => entry.1 = name) =
          others.map fun value => (name,value) := by
        rw [takeWhile_append_of_pos (by simp),takeWhile_spread distinct.1,append_nil]
      simp only [map_cons,cons_append,mergePairs,if_neg plain,own,length_map]
      have behind : ((others.map fun value => (name,value)) ++ spread names values).drop others.length = spread names values := by
        rw [← length_map (fun value => (name,value)),drop_left]
      rw [behind,ih distinct.2 later left (by omega)]
      simp

section
variable (sort : IsSort list raw) (ascending : names.Pairwise (· ≤ ·)) (distinct : names.Nodup)
  (members : ∀ name, name ∈ names ↔ group name list ≠ [])
include sort ascending distinct members

/-- A sort of the list, by the groups of its names. -/
theorem isSort_eq_spread : raw = spread names fun name => group name raw := by
  apply eq_spread (fun _ _ => List.le_antisymm) distinct ascending sort.2 fun _ => List.le_refl _
  intro entry member
  rw [members,mem_keys_iff]
  exact mem_map_of_mem (sort.1.mem_iff.mp member)

theorem buildSortedView_of_isSort : buildSortedView raw = names.flatMap fun name => shown name (group name raw) := by
  have parts := isSort_eq_spread sort ascending distinct members
  have filled : ∀ name ∈ names, group name raw ≠ [] := by
    intro name member empty
    have perm := group_perm sort.1 name
    rw [empty] at perm
    exact (members name).mp member perm.symm.eq_nil
  conv_lhs => rw [parts]
  apply mergePairs_spread distinct filled
  rw [← parts]

end

end

theorem exists_sorted {α : Type} (key : α → Bytes) (items : List α) :
    ∃ sorted : List α, sorted.Perm items ∧ sorted.Pairwise fun a b => key a ≤ key b := by
  refine ⟨items.mergeSort fun a b => decide (key a ≤ key b),mergeSort_perm _ _,?_⟩
  have sorted : (items.mergeSort fun a b => decide (key a ≤ key b)).Pairwise fun a b => decide (key a ≤ key b) = true := by
    apply pairwise_mergeSort
    · intro a b c first second
      simpa using List.le_trans (of_decide_eq_true first) (of_decide_eq_true second)
    · intro a b
      simpa using List.le_total (key a) (key b)
  exact sorted.imp of_decide_eq_true

theorem names_exist (list : List Entry) : ∃ names : List Bytes, names.Pairwise (· ≤ ·) ∧ names.Nodup ∧
    ∀ name, name ∈ names ↔ group name list ≠ [] := by
  obtain ⟨names,perm,ascending⟩ := exists_sorted id (list.map Prod.fst).dedup
  refine ⟨names,ascending,perm.nodup_iff.mpr (nodup_dedup _),?_⟩
  intro name
  rw [perm.mem_iff,mem_dedup,mem_keys_iff]

end Views

section Iteration

section
variable {view : List Entry} {values : List Bytes} {list : List Entry} {names : List Bytes} {calls : List Call}

section
variable {sorts : Nat → List Entry} {pairs : List Entry}

theorem iterate_result (same : ∀ index, buildSortedView (sorts index) = view) {index : Nat}
    (ended : iterate sorts fuel index = some pairs) : pairs = view.drop index := by
  induction fuel generalizing index pairs with
  | zero => contradiction
  | succ fuel ih =>
    rw [iterate,advanceHeaders,same] at ended
    split at ended
    next past =>
      cases ended
      rw [drop_eq_nil_of_le (getElem?_eq_none_iff.mp past)]
    next entry here =>
      obtain ⟨rest,later,rfl⟩ := Option.map_eq_some_iff.mp ended
      obtain ⟨bound,rfl⟩ := List.getElem?_eq_some_iff.mp here
      rw [ih later,drop_eq_getElem_cons bound]

theorem iterate_ends (same : ∀ index, buildSortedView (sorts index) = view) (left index : Nat)
    (enough : view.length ≤ index + left) : (iterate sorts (left + 1) index).isSome = true := by
  induction left generalizing index with
  | zero =>
    have past : view[index]? = none := getElem?_eq_none_iff.mpr (by omega)
    simp [iterate,advanceHeaders,same,past]
  | succ left ih =>
    rw [iterate]
    split
    next => rfl
    next => simpa using ih (index + 1) (by omega)

theorem alike_self : Alike name value value := by
  rw [Alike]
  split <;> rfl

theorem shown_perm {first second : List Bytes} (perm : first.Perm second) (alike : ∀ a ∈ first, ∀ b ∈ first, Alike name a b)
    : shown name first = shown name second := by
  rw [shown,shown]
  split
  next cookie =>
    simp only [cookie] at alike
    have related (values : List Bytes) : values.Pairwise fun _ _ => True := pairwise_of_forall fun _ _ => trivial
    have same : first = second :=
      perm.eq_of_pairwise (fun a b left right _ _ => alike a left b (perm.mem_iff.mpr right)) (related _) (related _)
    rw [same]
  next plain =>
    simp only [Alike,plain] at alike
    rw [combined,combined,join_perm perm alike]

theorem alike_of_shown (same : shown name (first :: second :: values) = shown name (second :: first :: values)) :
    Alike name first second := by
  rw [shown,shown] at same
  rw [Alike]
  split at same
  next cookie =>
    rw [if_pos cookie]
    simp only [map_cons,List.cons.injEq,Prod.mk.injEq,true_and] at same
    exact same.1
  next plain =>
    rw [if_neg plain]
    simp only [List.cons.injEq,Prod.mk.injEq,true_and,and_true] at same
    exact (join_swap_iff ..).mp same

/-- The values of one name may come out in any order. -/
theorem isSort_of_order (ascending : names.Pairwise (· ≤ ·)) (distinct : names.Nodup)
    (members : ∀ name, name ∈ names ↔ group name list ≠ []) (perm : values.Perm (group name list)) :
    ∃ raw, IsSort list raw ∧ ∀ other ∈ names, group other raw = if other = name then values else group other list := by
  let order := fun other => if other = name then values else group other list
  refine ⟨spread names order,⟨?_,spread_sorted (fun _ => List.le_refl _) ascending⟩,?_⟩
  · obtain ⟨raw,sort⟩ : ∃ raw, IsSort list raw := exists_sorted Prod.fst list
    have perms : (spread names order).Perm (spread names fun other => group other raw) := by
      apply spread_perm
      intro other _
      simp only [order]
      split
      next same => exact same ▸ perm.trans (group_perm sort.1 name).symm
      next => exact (group_perm sort.1 other).symm
    rw [← isSort_eq_spread sort ascending distinct members] at perms
    exact perms.trans sort.1
  · intro other member
    exact group_spread distinct member

theorem view_of_exact {list raw : List Entry} (groups : ∀ name, group name list = history name calls)
    (sort : IsSort list raw) (ended : iterate (fun _ => raw) fuel 0 = some pairs) (exact_ : Exact calls list pairs)
    (ascending : names.Pairwise (· ≤ ·)) (distinct : names.Nodup) (members : ∀ name, name ∈ names ↔ group name list ≠ []) :
    (names.flatMap fun name => shown name (group name raw)) = names.flatMap fun name => shown name (history name calls) := by
  have result : pairs = buildSortedView raw := iterate_result (fun _ => rfl) ended
  obtain ⟨others,sorted,nodup,listed,same⟩ := exact_.iterated
  have perm : others.Perm names := (perm_ext_iff_of_nodup nodup distinct).mpr fun name => by
    rw [listed,members,groups]
  have equal : others = names := perm.eq_of_pairwise (fun _ _ _ _ => List.le_antisymm) sorted ascending
  rw [← buildSortedView_of_isSort sort ascending distinct members,← result,same,equal]

end

theorem alike_of_exact (groups : ∀ name, group name list = history name calls)
    (exact_ : ∀ sorts, (∀ index, IsSort list (sorts index)) → ∃ fuel pairs, iterate sorts fuel 0 = some pairs ∧ Exact calls list pairs)
    (here : first ∈ history name calls) (there : second ∈ history name calls) : Alike name first second := by
  by_cases equal : first = second
  · rw [equal]
    exact alike_self
  obtain ⟨names,ascending,distinct,members⟩ := names_exist list
  have named : name ∈ names := (members name).mpr (groups name ▸ ne_nil_of_mem here)
  -- any order of the values of the name must show as the one in which they were appended
  have shows (values : List Bytes) (perm : values.Perm (group name list)) : shown name values = shown name (history name calls) := by
    obtain ⟨raw,sort,orders⟩ := isSort_of_order ascending distinct members perm
    obtain ⟨fuel,pairs,ended,result⟩ := exact_ (fun _ => raw) fun _ => sort
    have same := view_of_exact groups sort ended result ascending distinct members
    have at_ := flatMap_eq_at distinct named (fun other member different => by
      rw [orders other member,if_neg different,groups]) same
    rwa [orders name named,if_pos rfl] at at_
  have rest : second ∈ (history name calls).erase first := (mem_erase_of_ne (Ne.symm equal)).mpr there
  have perm := (perm_cons_erase here).trans ((perm_cons_erase rest).cons first)
  rw [← groups] at perm
  apply alike_of_shown
  exact (shows _ perm.symm).trans (shows _ ((List.Perm.swap ..).trans perm.symm)).symm

theorem exact_of_alike (groups : ∀ name, group name list = history name calls)
    (alike : ∀ name, ∀ first ∈ history name calls, ∀ second ∈ history name calls, Alike name first second)
    (sorts : Nat → List Entry) (sorted : ∀ index, IsSort list (sorts index)) :
    ∃ fuel pairs, iterate sorts fuel 0 = some pairs ∧ Exact calls list pairs := by
  obtain ⟨names,ascending,distinct,members⟩ := names_exist list
  have same : ∀ index, buildSortedView (sorts index) = names.flatMap fun name => shown name (history name calls) := by
    intro index
    rw [buildSortedView_of_isSort (sorted index) ascending distinct members]
    apply flatMap_congr
    intro name _
    rw [← groups]
    exact (shown_perm (group_perm (sorted index).1 name).symm (groups name ▸ alike name)).symm
  obtain ⟨pairs,ended⟩ := Option.isSome_iff_exists.mp (iterate_ends same _ 0 (Nat.le_add_left _ _))
  refine ⟨_,pairs,ended,⟨names,ascending,distinct,?_,iterate_result same ended⟩,headersGet_valid groups⟩
  intro name
  rw [members,groups]

end

end Iteration

/-- Each `qsort` that is a sort gives the right iteration exactly when the order of the values of a name
does not show. -/
theorem headers_iterate_as_appended_iff (calls : List Call) (valid : ∀ call ∈ calls, call.Valid) :
    ∃ list, run calls = .ok list ∧
      ((∀ sorts, (∀ index, IsSort list (sorts index)) → ∃ fuel pairs, iterate sorts fuel 0 = some pairs ∧ Exact calls list pairs) ↔
        ∀ name, ∀ first ∈ history name calls, ∀ second ∈ history name calls, Alike name first second) := by
  obtain ⟨list,ran,groups⟩ := run_valid valid
  refine ⟨list,ran,?_,?_⟩
  · intro exact_ name first here second there
    exact alike_of_exact groups exact_ here there
  · exact exact_of_alike groups

def equalValues : List Call := [.append (ascii "b") (ascii "1"),.set (ascii "a") (ascii " 2"),.append (ascii "B") (ascii "1")]

theorem headers_iterate_equal_values : ∃ list, run equalValues = .ok list ∧
      ∀ sorts, (∀ index, IsSort list (sorts index)) → ∃ fuel pairs, iterate sorts fuel 0 = some pairs ∧
        Exact equalValues list pairs := by
  have valid : ∀ call ∈ equalValues, call.Valid := by decide
  obtain ⟨list,ran,iterates⟩ := headers_iterate_as_appended_iff _ valid
  refine ⟨list,ran,iterates.mpr ?_⟩
  intro name first here second there
  have lowered : lowercaseDup (ascii "B") = ascii "b" ∧ lowercaseDup (ascii "b") = ascii "b" ∧
    lowercaseDup (ascii "a") = ascii "a" ∧ ascii "a" ≠ ascii "b" := by decide
  simp only [history,equalValues,foldl_cons,revise] at here there
  suffices equal : first = second by
    rw [equal]
    exact alike_self
  split at here <;> split at there <;> simp_all

def twoValues : List Call := [.append (ascii "x") (ascii "1"),.append (ascii "x") (ascii "2")]

/-- The sort turns the two values of a name around. -/
theorem headers_iterate_reordered : ∃ list, run twoValues = .ok list ∧
      ¬ ∀ sorts, (∀ index, IsSort list (sorts index)) → ∃ fuel pairs, iterate sorts fuel 0 = some pairs ∧
        Exact twoValues list pairs := by
  have valid : ∀ call ∈ twoValues, call.Valid := by decide
  obtain ⟨list,ran,groups⟩ := run_valid valid
  refine ⟨list,ran,?_⟩
  intro exact_
  have one : ascii "1" ∈ history (ascii "x") twoValues := by decide
  have two : ascii "2" ∈ history (ascii "x") twoValues := by decide
  have alike := alike_of_exact groups exact_ one two
  rw [Alike,if_neg (by decide)] at alike
  exact absurd alike (by decide)

end Ant.Http.Headers

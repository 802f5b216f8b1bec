import Ant.Library.Tombstones
import Mathlib.Data.List.Forall2

/-! Maps and sets: a hash table whose entries are linked in the order of insertion, and traversals
that hold a pointer to the entry they come to next. Against it stands the language's list of
records, where a deleted record leaves its place empty and a traversal holds an index. -/
namespace Ant.Runtime.Collections
open Library.Tombstones List Option

inductive Kind where
  | map
  | set
  deriving DecidableEq,Repr

structure Record (κ ν : Type) where
  key : κ
  value : ν
  deriving DecidableEq,Repr

abbrev Entry (κ ν : Type) := Nat × Record κ ν

/-- The entries in the order of their links, and the next address; no address is given twice. -/
structure Table (κ ν : Type) where
  entries : List (Entry κ ν)
  fresh : Nat
  deriving DecidableEq,Repr

/-- What one step of a traversal gives. Reading an entry that was freed is a fault. -/
inductive Seen (κ ν : Type) where
  | visited (record : Record κ ν)
  | done
  | fault
  deriving DecidableEq,Repr

/-- Iterators, `for`-`of` loops and `forEach` calls take the same steps; `forEach` takes its first one
as it is called. -/
inductive Op (κ ν : Type) where
  | store (record : Record κ ν)
  | delete (key : κ)
  | clear
  | iterate
  | step (which : Nat)
  | forEach
  deriving DecidableEq,Repr

variable {κ ν : Type} [DecidableEq κ]

/-- A map takes the new value for a key that it has; a set keeps what it has. -/
def Kind.revise : Kind → ν → ν → ν
  | .map,_,new => new
  | .set,old,_ => old

def storeEntry (kind : Kind) (table : Table κ ν) (record : Record κ ν) : Table κ ν :=
  match table.entries.findIdx? fun entry => entry.2.key = record.key with
  | some place => {table with entries := table.entries.modify place fun entry =>
      (entry.1,⟨entry.2.key,kind.revise entry.2.value record.value⟩)}
  | none => ⟨table.entries ++ [(table.fresh,record)],table.fresh + 1⟩

def deleteEntry (table : Table κ ν) (key : κ) : Table κ ν :=
  {table with entries := table.entries.eraseP fun entry => entry.2.key = key}

def clearTable (table : Table κ ν) : Table κ ν := {table with entries := []}

def head (table : Table κ ν) : Option Nat := table.entries.head?.map Prod.fst

def nextOf (table : Table κ ν) (address : Nat) : Option Nat :=
  (table.entries.dropWhile fun entry => entry.1 ≠ address).tail.head?.map Prod.fst

def advance (table : Table κ ν) : Option Nat → Seen κ ν × Option Nat
  | none => (.done,none)
  | some address => match table.entries.find? fun entry => entry.1 = address with
    | none => (.fault,some address)
    | some entry => (.visited entry.2,nextOf table address)

structure State (κ ν : Type) where
  table : Table κ ν
  cursors : List (Option Nat)
  deriving DecidableEq,Repr

def State.empty : State κ ν := ⟨⟨[],0⟩,[]⟩

def perform (kind : Kind) (state : State κ ν) : Op κ ν → State κ ν × Option (Seen κ ν)
  | .store record => ({state with table := storeEntry kind state.table record},none)
  | .delete key => ({state with table := deleteEntry state.table key},none)
  | .clear => ({state with table := clearTable state.table},none)
  | .iterate => ({state with cursors := state.cursors ++ [head state.table]},none)
  | .step which => match state.cursors[which]? with
    | none => (state,none)
    | some current =>
      let moved := advance state.table current
      ({state with cursors := state.cursors.set which moved.2},some moved.1)
  | .forEach =>
    let moved := advance state.table (head state.table)
    ({state with cursors := state.cursors ++ [moved.2]},some moved.1)

/-! What the language prescribes. -/

structure Spec (κ ν : Type) where
  data : List (Option (Record κ ν))
  traversals : List (Option Nat)
  deriving DecidableEq,Repr

def Spec.empty : Spec κ ν := ⟨[],[]⟩

def storeRecord (kind : Kind) (record : Record κ ν) : List (Option (Record κ ν)) → List (Option (Record κ ν))
  | [] => [some record]
  | none :: rest => none :: storeRecord kind record rest
  | some old :: rest =>
    if old.key = record.key then some ⟨old.key,kind.revise old.value record.value⟩ :: rest
    else some old :: storeRecord kind record rest

def deleteRecord (key : κ) : List (Option (Record κ ν)) → List (Option (Record κ ν))
  | [] => []
  | none :: rest => none :: deleteRecord key rest
  | some old :: rest => if old.key = key then none :: rest else some old :: deleteRecord key rest

def nextRecord : Nat → List (Option (Record κ ν)) → Option (Record κ ν × Nat)
  | _,[] => none
  | index,none :: rest => nextRecord (index + 1) rest
  | index,some record :: _ => some (record,index + 1)

def visit (data : List (Option (Record κ ν))) : Option Nat → Seen κ ν × Option Nat
  | none => (.done,none)
  | some index => match nextRecord index (data.drop index) with
    | none => (.done,none)
    | some (record,next) => (.visited record,some next)

def prescribe (kind : Kind) (spec : Spec κ ν) : Op κ ν → Spec κ ν × Option (Seen κ ν)
  | .store record => ({spec with data := storeRecord kind record spec.data},none)
  | .delete key => ({spec with data := deleteRecord key spec.data},none)
  | .clear => ({spec with data := spec.data.map fun _ => none},none)
  | .iterate => ({spec with traversals := spec.traversals ++ [some 0]},none)
  | .step which => match spec.traversals[which]? with
    | none => (spec,none)
    | some index =>
      let moved := visit spec.data index
      ({spec with traversals := spec.traversals.set which moved.2},some moved.1)
  | .forEach =>
    let moved := visit spec.data (some 0)
    ({spec with traversals := spec.traversals ++ [moved.2]},some moved.1)

def given {σ : Type} (act : σ → Op κ ν → σ × Option (Seen κ ν)) : σ → List (Op κ ν) → List (Option (Seen κ ν))
  | _,[] => []
  | state,op :: ops => (act state op).2 :: given act (act state op).1 ops

def after {σ : Type} (act : σ → Op κ ν → σ × Option (Seen κ ν)) (state : σ) (ops : List (Op κ ν)) : σ :=
  ops.foldl (fun state op => (act state op).1) state

/-- A traversal may go on: the entry that came next when it last moved is still there, or none came
next and none was added since behind the last one it visited. -/
def MayGoOn (table : Table κ ν) : Option Nat → Option Nat → Prop
  | some address,_ => ∃ entry ∈ table.entries, entry.1 = address
  | none,some index => ∀ entry ∈ table.entries, entry.1 < index
  | none,none => True

def Ready (state : State κ ν) (spec : Spec κ ν) (which : Nat) : Prop :=
  ∀ current index, state.cursors[which]? = some current → spec.traversals[which]? = some index → MayGoOn state.table current index

/-- A cursor that is set stands at the first place that was not empty from the index on. -/
def Tracks (data : List (Option (Record κ ν))) : Option Nat → Option Nat → Prop
  | none,_ => True
  | some _,none => False
  | some address,some index => index ≤ address ∧ ∀ place, index ≤ place → place < address → data[place]? = some none

structure Related (state : State κ ν) (spec : Spec κ ν) : Prop where
  entries : state.table.entries = numbered 0 spec.data
  fresh : state.table.fresh = spec.data.length
  cursors : List.Forall₂ (Tracks spec.data) state.cursors spec.traversals

omit [DecidableEq κ] in
theorem nextRecord_numbered (index : Nat) (data : List (Option (Record κ ν))) :
    nextRecord index data = (numbered index data).head?.map fun entry => (entry.2,entry.1 + 1) := by
  induction data generalizing index with
  | nil => rfl
  | cons place rest ih =>
    cases place with
    | none => rw [nextRecord,numbered,ih]
    | some record => rfl

omit [DecidableEq κ] in
variable {data : List (Option (Record κ ν))} {index address : Nat} {record : Record κ ν} {current : Option Nat}
  {state : State κ ν} {spec : Spec κ ν}

theorem tracks_head : Tracks data ((numbered index (data.drop index)).head?.map Prod.fst) (some index) := by
  cases first : numbered index (data.drop index) with
  | nil => trivial
  | cons entry rest =>
    obtain ⟨address,record⟩ := entry
    obtain ⟨dead,behind,split,empty,rfl,_⟩ := numbered_first _ _ first
    refine ⟨Nat.le_add_right _ _,fun place lower upper => ?_⟩
    have inside : place - index < dead.length := by
      omega
    have here : data[place]? = (data.drop index)[place - index]? := by
      rw [getElem?_drop]
      congr 1
      omega
    rw [here,split,getElem?_append_left inside,getElem?_eq_getElem inside,empty _ (getElem_mem inside)]

omit [DecidableEq κ] in
theorem numbered_from (within : index ≤ data.length) :
    numbered 0 data = numbered 0 (data.take index) ++ numbered index (data.drop index) := by
  have parts := numbered_append 0 (data.take index) (data.drop index)
  rwa [take_append_drop,length_take,Nat.min_eq_left within,Nat.zero_add] at parts

section Visit
variable {data : List (Option (Record κ ν))} {table : Table κ ν} (entries : table.entries = numbered 0 data)
include entries

omit [DecidableEq κ] in
theorem advance_live (there : (address,record) ∈ table.entries) : advance table (some address) =
      (.visited record,(numbered (address + 1) (data.drop (address + 1))).head?.map Prod.fst) := by
  rw [entries] at there
  obtain ⟨before,behind,rfl,place⟩ := numbered_split _ _ there
  rw [Nat.zero_add] at place
  subst place
  have listed : table.entries = numbered 0 before ++ (before.length,record) :: numbered (before.length + 1) behind := by
    rw [entries,numbered_append,Nat.zero_add,numbered]
  have earlier : ∀ entry ∈ numbered 0 before, entry.1 ≠ before.length := by
    intro entry member
    have range := numbered_range _ _ entry member
    omega
  have found : table.entries.find? (fun entry => entry.1 = before.length) = some (before.length,record) := by
    rw [listed,find?_append,find?_eq_none.mpr (by simpa using earlier)]
    simp
  have rest : (table.entries.dropWhile fun entry => entry.1 ≠ before.length) =
      (before.length,record) :: numbered (before.length + 1) behind := by
    rw [listed,dropWhile_append_of_pos (by simpa using earlier)]
    simp
  have behindDrop : (before ++ some record :: behind).drop (before.length + 1) = behind := by
    rw [← drop_drop,drop_left]
    rfl
  rw [behindDrop]
  simp only [advance,found,nextOf,rest,tail_cons]

omit [DecidableEq κ] in
theorem visit_live (there : (address,record) ∈ table.entries) (tracks : Tracks data (some address) (some index)) :
    visit data (some index) = (.visited record,some (address + 1)) := by
  rw [entries] at there
  obtain ⟨before,behind,rfl,place⟩ := numbered_split _ _ there
  rw [Nat.zero_add] at place
  subst place
  obtain ⟨lower,dead⟩ := tracks
  have front : (before ++ some record :: behind).drop index = before.drop index ++ some record :: behind :=
    drop_append_of_le_length lower
  have empty : ∀ place ∈ before.drop index, place = none := by
    intro place member
    obtain ⟨offset,inside,rfl⟩ := getElem_of_mem member
    rw [length_drop] at inside
    have known := dead (index + offset) (by omega) (by omega)
    rw [getElem?_append_left (by omega),getElem?_eq_getElem (by omega),some_inj] at known
    rw [getElem_drop]
    exact known
  have first : numbered index ((before ++ some record :: behind).drop index) =
      (before.length,record) :: numbered (before.length + 1) behind := by
    rw [front,numbered_append,numbered_dead _ _ empty,nil_append,length_drop,Nat.add_sub_cancel' lower,numbered]
  simp only [visit,nextRecord_numbered,first,head?_cons,map_some]

omit [DecidableEq κ] in
theorem none_left_iff (index : Nat) : numbered index (data.drop index) = [] ↔ ∀ entry ∈ table.entries, entry.1 < index := by
  obtain within | beyond := Nat.le_or_ge index data.length
  · rw [entries,numbered_from within]
    constructor
    · intro nothing entry member
      rw [nothing,append_nil] at member
      have range := numbered_range _ _ entry member
      rw [length_take] at range
      omega
    · intro before
      rw [eq_nil_iff_forall_not_mem]
      intro entry member
      have small := before entry (mem_append_right _ member)
      have range := numbered_range _ _ entry member
      omega
  · rw [drop_of_length_le beyond]
    refine ⟨fun _ entry member => ?_,fun _ => rfl⟩
    rw [entries] at member
    have range := numbered_range _ _ entry member
    omega

omit [DecidableEq κ] in
theorem advance_visit {index : Option Nat} (tracks : Tracks data current index) :
    ((advance table current).1 = (visit data index).1 ↔ MayGoOn table current index) ∧
      (MayGoOn table current index → Tracks data (advance table current).2 (visit data index).2) := by
  cases current with
  | none =>
    refine ⟨?_,fun _ => trivial⟩
    cases index with
    | none => simp [advance,visit,MayGoOn]
    | some index =>
      rw [MayGoOn,← none_left_iff entries index]
      simp only [advance,visit,nextRecord_numbered]
      cases numbered index (data.drop index) with
      | nil => simp
      | cons entry rest => simp
  | some address =>
    cases index with
    | none => exact absurd tracks id
    | some index =>
      by_cases live : ∃ entry ∈ table.entries, entry.1 = address
      · obtain ⟨⟨_,record⟩,there,rfl⟩ := live
        have stepped := advance_live entries there
        have visited := visit_live entries there tracks
        rw [stepped,visited]
        exact ⟨⟨fun _ => ⟨_,there,rfl⟩,fun _ => rfl⟩,fun _ => tracks_head⟩
      · have missing : table.entries.find? (fun entry => entry.1 = address) = none := by
          rw [find?_eq_none]
          intro entry member
          simp only [decide_eq_true_eq]
          exact fun same => live ⟨entry,member,same⟩
        refine ⟨⟨fun same => ?_,fun there => absurd there live⟩,fun there => absurd there live⟩
        simp only [advance,missing,visit] at same
        split at same <;> simp at same

end Visit

/-! How the table and the list of records change together. -/

theorem numbered_storeRecord (kind : Kind) (record : Record κ ν) (data : List (Option (Record κ ν))) (start : Nat) :
    (storeEntry kind ⟨numbered start data,start + data.length⟩ record) =
      ⟨numbered start (storeRecord kind record data),start + (storeRecord kind record data).length⟩ := by
  induction data generalizing start with
  | nil => simp [storeEntry,storeRecord,numbered]
  | cons place rest ih =>
    have shift : start + 1 + rest.length = start + (rest.length + 1) := by omega
    cases place with
    | none =>
      have tail := ih (start + 1)
      simp only [storeRecord,numbered,length_cons]
      rw [← shift,tail]
      congr 1
      omega
    | some old =>
      have tail := ih (start + 1)
      simp only [storeRecord,numbered,storeEntry,findIdx?_cons] at tail ⊢
      by_cases same : old.key = record.key
      · simp [same,numbered]
      · simp only [same,decide_false,Bool.false_eq_true,if_false,numbered,length_cons]
        cases search : (numbered (start + 1) rest).findIdx? fun entry => entry.2.key = record.key with
        | none =>
          simp only [search,map_none,Table.mk.injEq] at tail ⊢
          rw [← tail.1,shift]
          exact ⟨rfl,by omega⟩
        | some found =>
          simp only [search,map_some,Table.mk.injEq] at tail ⊢
          rw [← tail.1]
          exact ⟨rfl,by omega⟩

theorem numbered_deleteRecord (key : κ) (data : List (Option (Record κ ν))) (start : Nat) :
    numbered start (deleteRecord key data) = (numbered start data).eraseP fun entry => entry.2.key = key := by
  induction data generalizing start with
  | nil => rfl
  | cons place rest ih =>
    cases place with
    | none => rw [deleteRecord,numbered,numbered,ih]
    | some old =>
      simp only [deleteRecord]
      by_cases same : old.key = key
      · simp [same,numbered]
      · simp [same,numbered,ih]

theorem length_deleteRecord (key : κ) (data : List (Option (Record κ ν))) : (deleteRecord key data).length = data.length := by
  induction data with
  | nil => rfl
  | cons place rest ih =>
    cases place with
    | none => simp [deleteRecord,ih]
    | some old =>
      simp only [deleteRecord]
      split <;> simp [ih]

def StaysEmpty (data later : List (Option (Record κ ν))) : Prop :=
  ∀ place : Nat, data[place]? = some none → later[place]? = some none

omit [DecidableEq κ] in
theorem StaysEmpty.cons {data later : List (Option (Record κ ν))} {first last : Option (Record κ ν)}
    (same : first = none → last = none) (rest : StaysEmpty data later) : StaysEmpty (first :: data) (last :: later) := by
  intro place empty
  cases place with
  | zero => simpa using same (by simpa using empty)
  | succ place => exact rest place empty

theorem storeRecord_empty {kind : Kind} {record : Record κ ν} {data : List (Option (Record κ ν))} :
    StaysEmpty data (storeRecord kind record data) := by
  induction data with
  | nil => simp [StaysEmpty]
  | cons first rest ih =>
    cases first with
    | none => exact .cons id ih
    | some old =>
      rw [storeRecord]
      split
      · exact .cons nofun fun _ empty => empty
      · exact .cons nofun ih

theorem deleteRecord_empty {key : κ} : StaysEmpty data (deleteRecord key data) := by
  induction data with
  | nil => simp [StaysEmpty]
  | cons first rest ih =>
    cases first with
    | none => exact .cons id ih
    | some old =>
      rw [deleteRecord]
      split
      · exact .cons nofun fun _ empty => empty
      · exact .cons nofun ih

omit [DecidableEq κ] in
theorem Tracks.later {later : List (Option (Record κ ν))} (stays : StaysEmpty data later) {index : Option Nat}
    (tracks : Tracks data current index) : Tracks later current index := by
  cases current with
  | none => trivial
  | some address =>
    cases index with
    | none => exact tracks
    | some index => exact ⟨tracks.1,fun place lower upper => stays place (tracks.2 place lower upper)⟩

omit [DecidableEq κ] in
theorem Related.change (related : Related state spec) (table : Table κ ν) (data : List (Option (Record κ ν)))
    (entries : table.entries = numbered 0 data) (fresh : table.fresh = data.length) (stays : StaysEmpty spec.data data) :
    Related {state with table := table} {spec with data := data} :=
  ⟨entries,fresh,related.cursors.imp fun _ _ => Tracks.later stays⟩

omit [DecidableEq κ] in
theorem Related.begin (related : Related state spec) (current index : Option Nat) (tracks : Tracks spec.data current index) :
    Related {state with cursors := state.cursors ++ [current]} {spec with traversals := spec.traversals ++ [index]} :=
  ⟨related.entries,related.fresh,rel_append related.cursors (.cons tracks .nil)⟩

omit [DecidableEq κ] in
theorem head_eq (related : Related state spec) : head state.table = (numbered 0 (spec.data.drop 0)).head?.map Prod.fst := by
  rw [head,related.entries,drop_zero]

omit [DecidableEq κ] in
section
variable {α β : Type} {rel : α → β → Prop} {first : List α} {second : List β}

theorem first_may_go_on (table : Table κ ν) : MayGoOn table (head table) (some 0) := by
  rw [head]
  cases entries : table.entries with
  | nil => simp [MayGoOn,entries]
  | cons entry rest =>
    rw [head?_cons,map_some,MayGoOn,entries]
    exact ⟨entry,mem_cons_self,rfl⟩

theorem related_at (related : List.Forall₂ rel first second) (place : Nat) : (first[place]? = none ∧ second[place]? = none) ∨
      ∃ one two, first[place]? = some one ∧ second[place]? = some two ∧ rel one two := by
  induction related generalizing place with
  | nil => exact Or.inl ⟨rfl,rfl⟩
  | cons head _ ih =>
    cases place with
    | zero => exact Or.inr ⟨_,_,rfl,rfl,head⟩
    | succ place => exact ih place

theorem related_set (related : List.Forall₂ rel first second) (place : Nat) {one : α} {two : β} (new : rel one two) :
    List.Forall₂ rel (first.set place one) (second.set place two) := by
  induction related generalizing place with
  | nil => exact .nil
  | cons head tail ih =>
    cases place with
    | zero => exact .cons new tail
    | succ place => exact .cons head (ih place)

end

def Undisturbed (state : State κ ν) (spec : Spec κ ν) : Op κ ν → Prop
  | .step which => Ready state spec which
  | _ => True

theorem perform_prescribe (kind : Kind) {state : State κ ν} {spec : Spec κ ν} (related : Related state spec) (op : Op κ ν) :
    ((perform kind state op).2 = (prescribe kind spec op).2 ↔ Undisturbed state spec op) ∧
      (Undisturbed state spec op → Related (perform kind state op).1 (prescribe kind spec op).1) := by
  cases op with
  | store record =>
    refine ⟨by simp [perform,prescribe,Undisturbed],fun _ => ?_⟩
    have stored := numbered_storeRecord kind record spec.data 0
    rw [Nat.zero_add,Nat.zero_add,← related.entries,← related.fresh] at stored
    refine related.change _ _ ?_ ?_ storeRecord_empty
    · exact congrArg Table.entries stored
    · exact congrArg Table.fresh stored
  | delete key =>
    refine ⟨by simp [perform,prescribe,Undisturbed],fun _ => ?_⟩
    refine related.change _ _ ?_ ?_ deleteRecord_empty
    · rw [deleteEntry,related.entries,numbered_deleteRecord]
    · rw [deleteEntry,related.fresh,length_deleteRecord]
  | clear =>
    refine ⟨by simp [perform,prescribe,Undisturbed],fun _ => ?_⟩
    refine related.change _ _ ?_ ?_ ?_
    · rw [clearTable,numbered_dead _ _ (by simp)]
    · rw [clearTable,related.fresh,length_map]
    · intro place empty
      rw [getElem?_map,empty]
      rfl
  | iterate =>
    refine ⟨by simp [perform,prescribe,Undisturbed],fun _ => related.begin _ _ ?_⟩
    rw [head_eq related]
    exact tracks_head
  | step which =>
    simp only [perform,prescribe,Undisturbed,Ready]
    obtain ⟨noCursor,noIndex⟩ | ⟨current,index,cursor,place,tracks⟩ := related_at related.cursors which
    · simp [noCursor,noIndex,related]
    · obtain ⟨agree,kept⟩ := advance_visit related.entries tracks
      have ready_iff : (∀ other next, current = other → index = next → MayGoOn state.table other next) ↔
          MayGoOn state.table current index := by
        refine ⟨fun all => all _ _ rfl rfl,?_⟩
        rintro ready _ _ rfl rfl
        exact ready
      simp only [cursor,place,Option.some.injEq,ready_iff]
      exact ⟨agree,fun ready => ⟨related.entries,related.fresh,related_set related.cursors which (kept ready)⟩⟩
  | forEach =>
    have tracks : Tracks spec.data (head state.table) (some 0) := by
      rw [head_eq related]
      exact tracks_head
    obtain ⟨agree,kept⟩ := advance_visit related.entries tracks
    have ready := first_may_go_on state.table
    refine ⟨?_,fun _ => related.begin _ _ (kept ready)⟩
    simp only [perform,prescribe,Undisturbed,iff_true,Option.some.injEq]
    exact agree.mpr ready

def RunsUndisturbed (kind : Kind) (state : State κ ν) (spec : Spec κ ν) (ops : List (Op κ ν)) : Prop :=
  ∀ before op behind, ops = before ++ op :: behind →
    Undisturbed (after (perform kind) state before) (after (prescribe kind) spec before) op

theorem runsUndisturbed_cons (kind : Kind) (state : State κ ν) (spec : Spec κ ν) (op : Op κ ν) (ops : List (Op κ ν)) :
    RunsUndisturbed kind state spec (op :: ops) ↔
      Undisturbed state spec op ∧ RunsUndisturbed kind (perform kind state op).1 (prescribe kind spec op).1 ops := by
  constructor
  · intro runs
    refine ⟨runs [] op ops rfl,fun before next behind split => ?_⟩
    exact runs (op :: before) next behind (by rw [split]; rfl)
  · rintro ⟨first,runs⟩ before next behind split
    cases before with
    | nil =>
      cases split
      exact first
    | cons other before =>
      cases split
      exact runs before next behind rfl

theorem given_iff {kind : Kind} {ops : List (Op κ ν)} (state : State κ ν) (spec : Spec κ ν) (related : Related state spec) :
    given (perform kind) state ops = given (prescribe kind) spec ops ↔ RunsUndisturbed kind state spec ops := by
  induction ops generalizing state spec with
  | nil => simp [given,RunsUndisturbed]
  | cons op ops ih =>
    obtain ⟨agree,kept⟩ := perform_prescribe kind related op
    rw [runsUndisturbed_cons,given,given,List.cons.injEq,agree]
    exact and_congr_right fun undisturbed => ih _ _ (kept undisturbed)

omit [DecidableEq κ] in
theorem related_empty : Related (State.empty : State κ ν) Spec.empty := ⟨rfl,rfl,.nil⟩

/-- The traversals of a map or a set visit what the language prescribes, whatever is stored, deleted
and cleared between their steps, exactly when each step is taken before the entry it comes to is
gone and, with none to come to, before one is added. -/
theorem traversals_visit_as_prescribed_iff (kind : Kind) (ops : List (Op κ ν)) :
    given (perform kind) State.empty ops = given (prescribe kind) Spec.empty ops ↔
      RunsUndisturbed kind State.empty Spec.empty ops :=
  given_iff _ _ related_empty

/-- An entry that is added after the last one was visited is missed, and a step to an entry that was
deleted reads freed memory. -/
theorem added_is_missed_and_deleted_is_read :
    let add : Nat → Op Nat Unit := fun key => .store ⟨key,()⟩
    given (perform .set) State.empty [add 1,.iterate,.step 0,add 2,.step 0] =
        [none,none,some (.visited ⟨1,()⟩),none,some .done] ∧
      given (prescribe .set) Spec.empty [add 1,.iterate,.step 0,add 2,.step 0] =
        [none,none,some (.visited ⟨1,()⟩),none,some (.visited ⟨2,()⟩)] ∧
      given (perform .set) State.empty [add 1,add 2,.forEach,.delete 2,.step 0] =
        [none,none,some (.visited ⟨1,()⟩),none,some .fault] ∧
      given (prescribe .set) Spec.empty [add 1,add 2,.forEach,.delete 2,.step 0] =
        [none,none,some (.visited ⟨1,()⟩),none,some .done] := by
  decide

end Ant.Runtime.Collections

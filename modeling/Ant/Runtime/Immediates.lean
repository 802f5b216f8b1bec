import Mathlib.Data.List.Nodup

/-! The immediates: one call of `process_immediates`, while the callbacks it runs schedule and clear
others, against one turn over those that waited when it began. -/
namespace Ant.Runtime.Immediates
open List

/-- `active` is the flag of the entry; `cleared` records that a call asked to clear it. -/
structure Entry (V : Type) where
  id : Nat
  callback : V
  active : Bool
  cleared : Bool
  deriving DecidableEq,Repr

inductive Handle where
  | number (id : Nat)
  | object (id : Nat)
  deriving DecidableEq,Repr

inductive Request (V : Type) where
  | set (callback : V)
  | clear (handle : Handle)
  deriving DecidableEq,Repr

structure State (V : Type) where
  entries : List (Entry V)
  nextId : Nat
  runs : List (Nat × V)
  deriving DecidableEq,Repr

section Model
variable {V : Type}

/-- The object has its number as a property, and the slot that is read instead is undefined: the
number this gives is that of no immediate. -/
def timerIdFromArg : Handle → Option Nat
  | .number id => some id
  | .object _ => none

def named : Handle → Nat
  | .number id => id
  | .object id => id

def change (id : Nat) (edit : Entry V → Entry V) : List (Entry V) → List (Entry V)
  | [] => []
  | entry :: rest => if entry.id = id then edit entry :: rest else entry :: change id edit rest

def setImmediate (callback : V) (state : State V) : State V :=
  {state with entries := state.entries ++ [⟨state.nextId,callback,true,false⟩], nextId := state.nextId + 1}

def clearImmediate (handle : Handle) (state : State V) : State V :=
  match timerIdFromArg handle with
  | some id => {state with entries := change id (fun entry => {entry with active := false, cleared := true}) state.entries}
  -- no flag changes, although the call names an entry
  | none => {state with entries := change (named handle) (fun entry => {entry with cleared := true}) state.entries}

def ask (state : State V) : Request V → State V
  | .set callback => setImmediate callback state
  | .clear handle => clearImmediate handle state

def call (behaviour : List (Nat × V) → List (Request V)) (state : State V) (entry : Entry V) (rest : List (Entry V)) : State V :=
  let runs := state.runs ++ [(entry.id,entry.callback)]
  (behaviour runs).foldl ask {state with entries := rest, runs := runs}

def processImmediates (behaviour : List (Nat × V) → List (Request V)) : Nat → State V → Option (State V)
  | 0,_ => none
  | fuel+1,state => match state.entries with
    | [] => some state
    | entry :: rest =>
      if entry.active then processImmediates behaviour fuel (call behaviour state entry rest)
      else processImmediates behaviour fuel {state with entries := rest}

end Model

section Turn
variable {V : Type}

def turn (behaviour : List (Nat × V) → List (Request V)) : Nat → State V → State V
  | 0,state => state
  | count+1,state => match state.entries with
    | [] => state
    | entry :: rest =>
      if entry.cleared then turn behaviour count {state with entries := rest}
      else turn behaviour count (call behaviour state entry rest)

/-- In the turn no entry was cleared by its object only when it came up, and at the end no entry that
was added is active. -/
def orderly (behaviour : List (Nat × V) → List (Request V)) : Nat → State V → Bool
  | 0,state => state.entries.all fun entry => !entry.active
  | count+1,state => match state.entries with
    | [] => true
    | entry :: rest =>
      if entry.cleared then !entry.active && orderly behaviour count {state with entries := rest}
      else orderly behaviour count (call behaviour state entry rest)

def due (state : State V) : List (Entry V) := state.entries.filter fun entry => !entry.cleared

/-- The loop ends, with the runs of the turn and with what the turn leaves for the next one. -/
def TakesTurn (behaviour : List (Nat × V) → List (Request V)) (state : State V) : Prop :=
  ∃ fuel last, processImmediates behaviour fuel state = some last ∧
    last.runs = (turn behaviour state.entries.length state).runs ∧
    due last = due (turn behaviour state.entries.length state)

def scheduled (nextId : Nat) (requests : List (Request V)) : State V := requests.foldl ask ⟨[],nextId,[]⟩

end Turn

variable {id count : Nat}

section Entries
variable {V : Type} {state : State V}

structure Inv (state : State V) : Prop where
  distinct : (state.entries.map Entry.id).Nodup
  below : ∀ entry ∈ state.entries, entry.id < state.nextId
  flagged : ∀ entry ∈ state.entries, entry.active = false → entry.cleared = true

theorem change_ids (id : Nat) {edit : Entry V → Entry V} (same : ∀ entry, (edit entry).id = entry.id)
    (entries : List (Entry V)) : (change id edit entries).map Entry.id = entries.map Entry.id := by
  induction entries with
  | nil => rfl
  | cons entry rest ih =>
    rw [change]
    split <;> simp [same,ih]

theorem mem_change {edit : Entry V → Entry V} {entries : List (Entry V)} {entry : Entry V}
    (member : entry ∈ change id edit entries) : (entry ∈ entries) ∨ ∃ old ∈ entries, old.id = id ∧ entry = edit old := by
  induction entries with
  | nil => contradiction
  | cons first rest ih =>
    rw [change] at member
    split at member
    next same =>
      rcases mem_cons.mp member with rfl | later
      · exact Or.inr ⟨first,mem_cons_self,same,rfl⟩
      · exact Or.inl (mem_cons_of_mem _ later)
    next =>
      rcases mem_cons.mp member with rfl | later
      · exact Or.inl mem_cons_self
      · rcases ih later with old | ⟨old,place,same,rfl⟩
        · exact Or.inl (mem_cons_of_mem _ old)
        · exact Or.inr ⟨old,mem_cons_of_mem _ place,same,rfl⟩

theorem change_inv {edited : List (Entry V)} {edit : Entry V → Entry V} (inv : Inv state)
    (edits : edited = change id edit state.entries) (same : ∀ entry, (edit entry).id = entry.id)
    (clears : ∀ entry, (edit entry).cleared = true) : Inv {state with entries := edited} := by
  subst edits
  refine ⟨?_,?_,?_⟩
  · rw [change_ids id same]
    exact inv.distinct
  · intro entry member
    rcases mem_change member with old | ⟨old,place,_,rfl⟩
    · exact inv.below entry old
    · rw [same]
      exact inv.below old place
  · intro entry member inactive
    rcases mem_change member with old | ⟨old,_,_,rfl⟩
    · exact inv.flagged entry old inactive
    · exact clears old

theorem ask_inv (inv : Inv state) (request : Request V) : Inv (ask state request) := by
  cases request with
  | clear handle =>
    cases handle with
    | number id => exact change_inv inv rfl (fun _ => rfl) (fun _ => rfl)
    | object id => exact change_inv inv rfl (fun _ => rfl) (fun _ => rfl)
  | set callback =>
    refine ⟨?_,?_,?_⟩
    · have fresh : state.nextId ∉ state.entries.map Entry.id := by
        intro member
        obtain ⟨entry,place,same⟩ := mem_map.mp member
        exact absurd (inv.below entry place) (by omega)
      simpa [ask,setImmediate,nodup_append] using ⟨inv.distinct,by simpa using fresh⟩
    · intro entry member
      rcases mem_append.mp member with old | new
      · exact Nat.lt_succ_of_lt (inv.below entry old)
      · rw [mem_singleton.mp new]
        exact Nat.lt_succ_self _
    · intro entry member inactive
      rcases mem_append.mp member with old | new
      · exact inv.flagged entry old inactive
      · rw [mem_singleton.mp new] at inactive
        contradiction

theorem asks_inv (inv : Inv state) (requests : List (Request V)) : Inv (requests.foldl ask state) := by
  induction requests generalizing state with
  | nil => exact inv
  | cons request rest ih => exact ih (ask_inv inv request)

theorem asks_runs (requests : List (Request V)) : (requests.foldl ask state).runs = state.runs := by
  induction requests generalizing state with
  | nil => rfl
  | cons request rest ih =>
    rw [foldl_cons,ih]
    rcases request with _ | (_ | _) <;> rfl

def Gone (id : Nat) (state : State V) : Prop := id < state.nextId ∧ id ∉ state.entries.map Entry.id

theorem asks_gone (gone : Gone id state) {requests : List (Request V)} : Gone id (requests.foldl ask state) := by
  induction requests generalizing state with
  | nil => exact gone
  | cons request rest ih =>
    apply ih
    cases request with
    | clear handle =>
      refine ⟨by cases handle <;> exact gone.1,?_⟩
      cases handle <;> simpa [ask,clearImmediate,timerIdFromArg,change_ids] using gone.2
    | set callback =>
      refine ⟨Nat.lt_succ_of_lt gone.1,?_⟩
      have other : id ≠ state.nextId := Nat.ne_of_lt gone.1
      simpa [ask,setImmediate,other] using gone.2

theorem rest_inv {entry : Entry V} {rest : List (Entry V)} (inv : Inv state) (entries : state.entries = entry :: rest)
    (runs : List (Nat × V)) : Inv ⟨rest,state.nextId,runs⟩ ∧ Gone entry.id ⟨rest,state.nextId,runs⟩ := by
  obtain ⟨distinct,below,flagged⟩ := inv
  rw [entries] at distinct below flagged
  have parts := nodup_cons.mp distinct
  refine ⟨⟨parts.2,?_,?_⟩,below entry mem_cons_self,parts.1⟩
  · intro other member
    exact below other (mem_cons_of_mem _ member)
  · intro other member
    exact flagged other (mem_cons_of_mem _ member)

end Entries

section Loop
variable {V : Type} {behaviour : List (Nat × V) → List (Request V)} {state : State V}

section
variable {fuel : Nat} {last : State V}

theorem call_inv {entry : Entry V} {rest : List (Entry V)} (inv : Inv state) (entries : state.entries = entry :: rest) :
    Inv (call behaviour state entry rest) := by
  apply asks_inv
  exact (rest_inv inv entries _).1

theorem call_runs (entry : Entry V) (rest : List (Entry V)) :
    (call behaviour state entry rest).runs = state.runs ++ [(entry.id,entry.callback)] := by
  rw [call,asks_runs]

theorem turn_runs (behaviour : List (Nat × V) → List (Request V)) (count : Nat) (gone : Gone id state) :
    ∃ more, (turn behaviour count state).runs = state.runs ++ more ∧ id ∉ more.map Prod.fst := by
  induction count generalizing state with
  | zero => exact ⟨[],by simp [turn]⟩
  | succ count ih =>
    rw [turn]
    split
    next => exact ⟨[],by simp⟩
    next entry rest entries =>
      have absent := gone.2
      rw [entries,map_cons,mem_cons] at absent
      have restGone (runs : List (Nat × V)) : Gone id ⟨rest,state.nextId,runs⟩ :=
        ⟨gone.1,fun member => absent (Or.inr member)⟩
      split
      next => exact ih (restGone state.runs)
      next =>
        have called : Gone id (call behaviour state entry rest) := asks_gone (restGone _)
        obtain ⟨more,runs,missing⟩ := ih called
        refine ⟨(entry.id,entry.callback) :: more,?_,?_⟩
        · rw [runs,call_runs,append_assoc,singleton_append]
        · simpa using ⟨fun same => absent (Or.inl same),by simpa using missing⟩

theorem processImmediates_ends (ended : processImmediates behaviour fuel state = some last) :
    last.entries = [] ∧ state.runs <+: last.runs := by
  induction fuel generalizing state with
  | zero => contradiction
  | succ fuel ih =>
    rw [processImmediates] at ended
    split at ended
    next none =>
      cases ended
      exact ⟨none,prefix_refl _⟩
    next entry rest entries =>
      split at ended
      next =>
        obtain ⟨empty,runs⟩ := ih ended
        rw [call_runs] at runs
        exact ⟨empty,(prefix_append _ _).trans runs⟩
      next =>
        have skipped := ih ended
        exact skipped

theorem processImmediates_idle (idle : ∀ entry ∈ state.entries, entry.active = false) :
    processImmediates behaviour (state.entries.length + 1) state = some {state with entries := []} := by
  obtain ⟨entries,nextId,runs⟩ := state
  induction entries with
  | nil => rfl
  | cons entry rest ih =>
    have inactive : entry.active = false := idle entry mem_cons_self
    rw [processImmediates]
    simp only [inactive,if_false]
    exact ih fun other member => idle other (mem_cons_of_mem _ member)

theorem processImmediates_busy (ended : processImmediates behaviour fuel state = some last) {entry : Entry V}
    (member : entry ∈ state.entries) (active : entry.active = true) : state.runs.length < last.runs.length := by
  induction fuel generalizing state with
  | zero => contradiction
  | succ fuel ih =>
    rw [processImmediates] at ended
    split at ended
    next none =>
      rw [none] at member
      contradiction
    next first rest entries =>
      split at ended
      next =>
        have runs := (processImmediates_ends ended).2.length_le
        rw [call_runs,length_append] at runs
        exact Nat.lt_of_succ_le runs
      next inactive =>
        rw [entries] at member
        rcases mem_cons.mp member with rfl | later
        · contradiction
        · have skipped := ih ended later
          exact skipped

theorem orderly_of_processImmediates (inv : Inv state) (ended : processImmediates behaviour fuel state = some last)
    (runs : last.runs = (turn behaviour count state).runs) : orderly behaviour count state = true := by
  induction count generalizing state fuel with
  | zero =>
    rw [orderly,all_eq_true]
    intro entry member
    cases active : entry.active with
    | false => rfl
    | true =>
      have longer := processImmediates_busy ended member active
      rw [runs] at longer
      exact absurd longer (Nat.lt_irrefl _)
  | succ count ih =>
    cases fuel with
    | zero => contradiction
    | succ fuel =>
      rw [processImmediates] at ended
      rw [turn] at runs
      rw [orderly]
      split at ended
      next => rfl
      next entry rest entries =>
        simp only [entries] at runs ⊢
        obtain ⟨restInv,gone⟩ := rest_inv inv entries state.runs
        cases cleared : entry.cleared with
        | true =>
          simp only [cleared,if_true] at runs ⊢
          cases active : entry.active with
          | false =>
            simp only [active,if_false] at ended
            simpa using ih restInv ended runs
          | true =>
            -- the loop runs the entry, and the turn never does
            simp only [active] at ended
            obtain ⟨more,turned,missing⟩ := turn_runs behaviour count gone
            obtain ⟨further,ran⟩ := (processImmediates_ends ended).2
            rw [call_runs,runs,turned,append_assoc] at ran
            have same := append_cancel_left ran
            exact absurd (by simp [← same]) missing
        | false =>
          have active : entry.active = true := by
            by_contra inactive
            have contrary := inv.flagged entry (by simp [entries]) (by simpa using inactive)
            rw [cleared] at contrary
            contradiction
          simp only [active,cleared,if_false] at ended runs ⊢
          exact ih (call_inv inv entries) ended runs

end

theorem due_of_idle (inv : Inv state) (idle : ∀ entry ∈ state.entries, entry.active = false) : due state = [] := by
  rw [due,filter_eq_nil_iff]
  intro entry member
  simp [inv.flagged entry member (idle entry member)]

theorem processImmediates_of_orderly (inv : Inv state) (order : orderly behaviour count state = true) :
    ∃ fuel last, processImmediates behaviour fuel state = some last ∧
      last.runs = (turn behaviour count state).runs ∧ due (turn behaviour count state) = [] := by
  induction count generalizing state with
  | zero =>
    rw [orderly,all_eq_true] at order
    have idle : ∀ entry ∈ state.entries, entry.active = false := by
      intro entry member
      simpa using order entry member
    exact ⟨_,_,processImmediates_idle idle,rfl,due_of_idle inv idle⟩
  | succ count ih =>
    rw [orderly] at order
    rw [turn]
    split at order
    next none => exact ⟨1,state,by simp [processImmediates,none],rfl,by simp [due,none]⟩
    next entry rest entries =>
      split at order
      next cleared =>
        obtain ⟨inactive,later⟩ := Bool.and_eq_true_iff.mp order
        obtain ⟨fuel,last,ended,runs,left⟩ := ih (rest_inv inv entries state.runs).1 later
        refine ⟨fuel + 1,last,?_,?_⟩
        · simpa [processImmediates,entries,show entry.active = false by simpa using inactive] using ended
        · simpa [cleared] using ⟨runs,left⟩
      next uncleared =>
        have active : entry.active = true := by
          by_contra inactive
          exact uncleared (inv.flagged entry (by simp [entries]) (by simpa using inactive))
        obtain ⟨fuel,last,ended,runs,left⟩ := ih (call_inv inv entries) order
        refine ⟨fuel + 1,last,?_,?_⟩
        · simpa [processImmediates,entries,active] using ended
        · simpa [uncleared] using ⟨runs,left⟩

theorem scheduled_inv (nextId : Nat) (requests : List (Request V)) : Inv (scheduled nextId requests) := by
  apply asks_inv
  exact ⟨nodup_nil,fun _ member => absurd member not_mem_nil,fun _ member => absurd member not_mem_nil⟩

theorem orderly_of_takesTurn (inv : Inv state) (takes : TakesTurn behaviour state) :
    orderly behaviour state.entries.length state = true := by
  obtain ⟨fuel,last,ended,runs,_⟩ := takes
  exact orderly_of_processImmediates inv ended runs

end Loop

/-- The loop also runs what the callbacks add, and what was cleared by its object; it takes one turn
exactly when there is no such entry. -/
theorem processImmediates_takes_turn_iff {V : Type} (behaviour : List (Nat × V) → List (Request V)) (nextId : Nat)
    (requests : List (Request V)) : TakesTurn behaviour (scheduled nextId requests) ↔
      orderly behaviour (scheduled nextId requests).entries.length (scheduled nextId requests) = true := by
  have inv := scheduled_inv nextId requests
  constructor
  · exact orderly_of_takesTurn inv
  · intro order
    obtain ⟨fuel,last,ended,runs,left⟩ := processImmediates_of_orderly inv order
    refine ⟨fuel,last,ended,runs,?_⟩
    rw [left,due,(processImmediates_ends ended).1]
    rfl

theorem scheduling_callbacks_starve {fuel : Nat} (nextId : Nat) (runs : List (Nat × Nat)) :
    processImmediates (fun _ => [.set 0]) fuel ⟨[⟨nextId,0,true,false⟩],nextId + 1,runs⟩ = none := by
  induction fuel generalizing nextId runs with
  | zero => rfl
  | succ fuel ih => exact ih (nextId + 1) _

/-- A callback that schedules itself again is run without end, and an immediate that was cleared by
its object is run. -/
theorem added_and_cleared_immediates_run :
    (∀ fuel, processImmediates (fun _ => [.set 0]) fuel (scheduled 1 [.set 0]) = none) ∧
      ¬ TakesTurn (fun _ => [.set 0]) (scheduled 1 [.set 0]) ∧
      ¬ TakesTurn (fun _ => []) (scheduled 1 [.set 0,.clear (.object 1)]) := by
  refine ⟨fun fuel => scheduling_callbacks_starve 1 [],?_,?_⟩
  · intro takes
    exact absurd (orderly_of_takesTurn (scheduled_inv 1 _) takes) (by decide)
  · intro takes
    exact absurd (orderly_of_takesTurn (scheduled_inv 1 _) takes) (by decide)

end Ant.Runtime.Immediates

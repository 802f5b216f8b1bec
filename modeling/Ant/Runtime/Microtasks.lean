import Mathlib.Algebra.Group.Nat.Defs
import Mathlib.Data.List.Infix

/-! The queues of ticks and microtasks: what one drain runs, while the jobs it runs queue others. An
entry keeps the number of its arguments in one byte. -/
namespace Ant.Runtime.Microtasks
open List

inductive Kind where
  | callback
  | promiseTrigger
  | thenableJob
  deriving DecidableEq,Repr

/-- A job as it is asked for; `subject` is the promise of a trigger, or `this` of a thenable job. -/
structure Job (V : Type) where
  kind : Kind
  callback : Option V
  subject : Option V
  args : List V
  deriving DecidableEq,Repr

structure Entry (V : Type) where
  job : Job V
  argc : Nat
  deriving DecidableEq,Repr

inductive Queue where
  | ticks
  | microtasks
  deriving DecidableEq,Repr

inductive Request (V : Type) where
  | nextTick (callback : V) (args : List V)
  | microtask (callback : V) (args : List V)
  | thenableJob (thenFn thenable resolve reject : V)
  | promiseTrigger (promise : V)
  | drain
  deriving DecidableEq,Repr

/-- `batch` was taken from the queue `phase`. `marked` are the promises with a trigger in the queue,
`queued` and `ran` all entries so far with their queues, and `calls` the jobs as they were run. -/
structure State (V : Type) where
  ticks : List (Entry V)
  microtasks : List (Entry V)
  phase : Queue
  batch : List (Entry V)
  marked : List V
  queued : List (Queue × Entry V)
  ran : List (Queue × Entry V)
  calls : List (Job V)

def empty {V : Type} : State V := ⟨[],[],.ticks,[],[],[],[],[]⟩

section Model
variable {V : Type} [DecidableEq V]

def queueMicrotaskEntry (queue : Queue) (job : Job V) (state : State V) : State V :=
  let entry : Entry V := ⟨job,job.args.length % 2^8⟩
  let queued := state.queued ++ [(queue,entry)]
  match queue with
  | .ticks => {state with ticks := state.ticks ++ [entry], queued := queued}
  | .microtasks => {state with microtasks := state.microtasks ++ [entry], queued := queued}

/-- `hasData` tells which promises have a state that can be marked. -/
def ask (hasData : V → Bool) (state : State V) : Request V → State V
  | .nextTick callback args => queueMicrotaskEntry .ticks ⟨.callback,some callback,none,args⟩ state
  | .microtask callback args => queueMicrotaskEntry .microtasks ⟨.callback,some callback,none,args⟩ state
  | .thenableJob thenFn thenable resolve reject =>
    queueMicrotaskEntry .microtasks ⟨.thenableJob,some thenFn,some thenable,[resolve,reject]⟩ state
  | .promiseTrigger promise =>
    if hasData promise && state.marked.contains promise then state
    else queueMicrotaskEntry .microtasks ⟨.promiseTrigger,none,some promise,[]⟩ {state with marked := promise :: state.marked}
  | .drain => state

def takeNextTickBatch (state : State V) : State V := {state with phase := .ticks, batch := state.ticks, ticks := []}

def takeMicrotaskBatch (state : State V) : State V :=
  {state with phase := .microtasks, batch := state.microtasks, microtasks := []}

/-- The next batch: the queue of the last one is emptied before the other one is looked at. -/
def takeBatch (state : State V) : Option (State V) :=
  if state.batch ≠ [] then some state
  else match state.phase,state.ticks,state.microtasks with
    | _,[],[] => none
    | .ticks,[],_ => some (takeMicrotaskBatch state)
    | .ticks,_,_ => some (takeNextTickBatch state)
    | .microtasks,_,[] => some (takeNextTickBatch state)
    | .microtasks,_,_ => some (takeMicrotaskBatch state)

def processMicrotaskEntry (entry : Entry V) : Job V := {entry.job with args := entry.job.args.take entry.argc}

def unmark (entry : Entry V) (marked : List V) : List V :=
  if entry.job.kind = .promiseTrigger then marked.filter fun promise => some promise ≠ entry.job.subject else marked

/-- One job; `behaviour` gives the calls that it makes, from all jobs so far with itself as the last. -/
def runEntry (hasData : V → Bool) (behaviour : List (Job V) → List (Request V)) (state : State V) (entry : Entry V)
    (rest : List (Entry V)) : State V :=
  let calls := state.calls ++ [processMicrotaskEntry entry]
  let started := {state with
    batch := rest, marked := unmark entry state.marked, ran := state.ran ++ [(state.phase,entry)], calls := calls}
  (behaviour calls).foldl (ask hasData) started

def step (hasData : V → Bool) (behaviour : List (Job V) → List (Request V)) (state : State V) : Option (State V) :=
  (takeBatch state).bind fun taken => match taken.batch with
    | [] => none
    | entry :: rest => some (runEntry hasData behaviour taken entry rest)

def drain (hasData : V → Bool) (behaviour : List (Job V) → List (Request V)) : Nat → State V → State V
  | 0,state => state
  | count+1,state => match step hasData behaviour state with
    | none => state
    | some next => drain hasData behaviour count next

end Model

section Order
variable {V : Type}

def entriesOf (queue : Queue) (entries : List (Queue × Entry V)) : List (Entry V) :=
  (entries.filter fun entry => entry.1 = queue).map Prod.snd

def pending (state : State V) : Queue → List (Entry V)
  | .ticks => state.ticks
  | .microtasks => state.microtasks

def taken (state : State V) : Queue → List (Entry V)
  | .ticks => match state.phase with
    | .ticks => state.batch
    | .microtasks => []
  | .microtasks => match state.phase with
    | .ticks => []
    | .microtasks => state.batch

def Finished (state : State V) : Prop := state.batch = [] ∧ state.ticks = [] ∧ state.microtasks = []

def Accounted (state : State V) : Prop :=
  ∀ queue, entriesOf queue state.queued = entriesOf queue state.ran ++ taken state queue ++ pending state queue

structure Inv (first : List (Entry V)) (state : State V) : Prop where
  accounted : Accounted state
  calls : state.calls = state.ran.map fun entry => processMicrotaskEntry entry.2
  counted : ∀ queue, ∀ entry ∈ entriesOf queue state.queued, entry.argc = entry.job.args.length % 2^8
  asked : first <+: entriesOf .ticks state.queued
  ticksFirst : state.phase = .microtasks ∨ entriesOf .microtasks state.ran ≠ [] → first <+: entriesOf .ticks state.ran

theorem entriesOf_concat (queue other : Queue) (entries : List (Queue × Entry V)) (entry : Entry V) :
    entriesOf queue (entries ++ [(other,entry)]) = entriesOf queue entries ++ (if other = queue then [entry] else []) := by
  by_cases same : other = queue
  · simp [entriesOf,same]
  · simp [entriesOf,same]

theorem mem_entriesOf {queue : Queue} {entry : Entry V} {entries : List (Queue × Entry V)} :
    entry ∈ entriesOf queue entries ↔ (queue,entry) ∈ entries := by
  simp [entriesOf]

variable {first : List (Entry V)} {state : State V}

theorem queueMicrotaskEntry_inv (inv : Inv first state) (queue : Queue) (job : Job V) :
    Inv first (queueMicrotaskEntry queue job state) := by
  have queued : (queueMicrotaskEntry queue job state).queued = state.queued ++ [(queue,⟨job,job.args.length % 2^8⟩)] := by
    cases queue <;> rfl
  refine ⟨?_,?_,?_,?_,?_⟩
  · intro other
    rw [queued,entriesOf_concat,inv.accounted other]
    cases queue <;> cases other <;> simp [queueMicrotaskEntry,pending,taken]
  · cases queue <;> exact inv.calls
  · intro other entry member
    rw [queued,entriesOf_concat] at member
    rcases mem_append.mp member with old | new
    · exact inv.counted other entry old
    · split at new
      next => rw [mem_singleton.mp new]
      next => contradiction
  · rw [queued,entriesOf_concat]
    exact inv.asked.trans (prefix_append _ _)
  · cases queue <;> exact inv.ticksFirst

theorem takeBatch_cases {next : State V} (took : takeBatch state = some next) : (state.batch ≠ [] ∧ next = state) ∨
      (state.batch = [] ∧ state.ticks ≠ [] ∧ next = takeNextTickBatch state) ∨
      (state.batch = [] ∧ state.microtasks ≠ [] ∧ (state.phase = .microtasks ∨ state.ticks = []) ∧
        next = takeMicrotaskBatch state) := by
  unfold takeBatch at took
  split at took
  next filled => exact Or.inl ⟨filled,(Option.some.inj took).symm⟩
  next blank =>
    split at took <;> cases took <;> simp_all

theorem finished_of_takeBatch (took : takeBatch state = none) : Finished state := by
  unfold takeBatch at took
  split at took
  next => contradiction
  next blank =>
    split at took <;> simp_all [Finished]

theorem takeNextTickBatch_inv (inv : Inv first state) (drained : state.batch = []) : Inv first (takeNextTickBatch state) := by
  refine ⟨?_,inv.calls,inv.counted,inv.asked,?_⟩
  · intro queue
    have before := inv.accounted queue
    cases queue <;> cases phase : state.phase <;> simp_all [takeNextTickBatch,taken,pending]
  · intro reason
    apply inv.ticksFirst
    simpa [takeNextTickBatch] using Or.inr reason

theorem takeMicrotaskBatch_inv (inv : Inv first state) (drained : state.batch = [])
    (turn : state.phase = .microtasks ∨ state.ticks = []) : Inv first (takeMicrotaskBatch state) := by
  refine ⟨?_,inv.calls,inv.counted,inv.asked,?_⟩
  · intro queue
    have before := inv.accounted queue
    cases queue <;> cases phase : state.phase <;> simp_all [takeMicrotaskBatch,taken,pending]
  · intro _
    rcases turn with inMicrotasks | noTicks
    · exact inv.ticksFirst (Or.inl inMicrotasks)
    · have all : entriesOf .ticks state.queued = entriesOf .ticks state.ran := by
        have before := inv.accounted .ticks
        cases phase : state.phase <;> simpa [taken,pending,drained,noTicks,phase] using before
      have asked := inv.asked
      rwa [all] at asked

theorem takeBatch_inv {next : State V} (inv : Inv first state) (took : takeBatch state = some next) :
    Inv first next ∧ next.batch ≠ [] ∧ next.ran = state.ran := by
  rcases takeBatch_cases took with ⟨filled,rfl⟩ | ⟨drained,waiting,rfl⟩ | ⟨drained,waiting,turn,rfl⟩
  · exact ⟨inv,filled,rfl⟩
  · exact ⟨takeNextTickBatch_inv inv drained,waiting,rfl⟩
  · exact ⟨takeMicrotaskBatch_inv inv drained turn,waiting,rfl⟩

theorem processMicrotaskEntry_eq_iff (entry : Entry V) :
    processMicrotaskEntry entry = entry.job ↔ entry.job.args.length ≤ entry.argc := by
  constructor
  · intro same
    have args : entry.job.args.take entry.argc = entry.job.args := congrArg Job.args same
    exact take_eq_self_iff _ |>.mp args
  · intro fits
    rw [processMicrotaskEntry,take_of_length_le fits]

theorem ran_counted (inv : Inv first state) {entry : Queue × Entry V} (member : entry ∈ state.ran) :
    entry.2.argc = entry.2.job.args.length % 2^8 := by
  apply inv.counted entry.1
  rw [inv.accounted entry.1]
  simp [mem_entriesOf,member]

theorem calls_as_given_iff (inv : Inv first state) :
    state.calls = state.ran.map (fun entry => entry.2.job) ↔ ∀ entry ∈ state.ran, entry.2.job.args.length < 2^8 := by
  rw [inv.calls,map_inj_left]
  apply forall_congr'
  intro entry
  apply imp_congr_right
  intro member
  rw [processMicrotaskEntry_eq_iff,ran_counted inv member]
  constructor
  · intro fits
    omega
  · intro small
    rw [Nat.mod_eq_of_lt small]

theorem complete_of_finished (inv : Inv first state) (finished : Finished state) (queue : Queue) :
    entriesOf queue state.ran = entriesOf queue state.queued := by
  obtain ⟨drained,noTicks,noMicrotasks⟩ := finished
  have all := inv.accounted queue
  cases queue <;> cases phase : state.phase <;> simp_all [taken,pending]

end Order

section Runs
variable {V : Type} [DecidableEq V] {hasData : V → Bool} {behaviour : List (Job V) → List (Request V)}
variable {first : List (Entry V)} {state : State V}

theorem ask_inv (inv : Inv first state) (request : Request V) : Inv first (ask hasData state request) := by
  cases request with
  | nextTick callback args => exact queueMicrotaskEntry_inv inv .ticks _
  | microtask callback args => exact queueMicrotaskEntry_inv inv .microtasks _
  | thenableJob thenFn thenable resolve reject => exact queueMicrotaskEntry_inv inv .microtasks _
  | drain => exact inv
  | promiseTrigger promise =>
    rw [ask]
    split
    next => exact inv
    next =>
      apply queueMicrotaskEntry_inv
      exact ⟨inv.accounted,inv.calls,inv.counted,inv.asked,inv.ticksFirst⟩

theorem asks_inv (inv : Inv first state) (requests : List (Request V)) : Inv first (requests.foldl (ask hasData) state) := by
  induction requests generalizing state with
  | nil => exact inv
  | cons request rest ih => exact ih (ask_inv inv request)

theorem asks_keep (requests : List (Request V)) :
    (requests.foldl (ask hasData) state).ran = state.ran ∧ (requests.foldl (ask hasData) state).batch = state.batch ∧
      (requests.foldl (ask hasData) state).phase = state.phase := by
  induction requests generalizing state with
  | nil => exact ⟨rfl,rfl,rfl⟩
  | cons request rest ih =>
    rw [foldl_cons,ih.1,ih.2.1,ih.2.2]
    cases request with
    | promiseTrigger promise =>
      rw [ask]
      split <;> exact ⟨rfl,rfl,rfl⟩
    | _ => exact ⟨rfl,rfl,rfl⟩

theorem runEntry_inv (inv : Inv first state) {entry : Entry V} {rest : List (Entry V)} (batch : state.batch = entry :: rest) :
    Inv first (runEntry hasData behaviour state entry rest) := by
  apply asks_inv
  refine ⟨?_,?_,inv.counted,inv.asked,?_⟩
  · intro queue
    rw [entriesOf_concat,inv.accounted queue]
    cases phase : state.phase <;> cases queue <;> simp [taken,pending,phase,batch]
  · simp [inv.calls]
  · intro reason
    rw [entriesOf_concat] at reason ⊢
    have before : first <+: entriesOf .ticks state.ran := by
      apply inv.ticksFirst
      cases phase : state.phase with
      | microtasks => exact Or.inl rfl
      | ticks => simpa [phase] using reason
    exact before.trans (prefix_append _ _)

theorem step_inv {next : State V} (inv : Inv first state) (stepped : step hasData behaviour state = some next) :
    Inv first next ∧ next.ran.length = state.ran.length + 1 := by
  obtain ⟨loaded,took,ran⟩ := Option.bind_eq_some_iff.mp stepped
  obtain ⟨loadedInv,_,same⟩ := takeBatch_inv inv took
  split at ran
  next => contradiction
  next entry rest batch =>
    cases ran
    refine ⟨runEntry_inv loadedInv batch,?_⟩
    rw [runEntry,(asks_keep _).1]
    simp [same]

theorem finished_of_stuck (inv : Inv first state) (stuck : step hasData behaviour state = none) : Finished state := by
  cases took : takeBatch state with
  | none => exact finished_of_takeBatch took
  | some loaded =>
    obtain ⟨entry,rest,batch⟩ := exists_cons_of_ne_nil (takeBatch_inv inv took).2.1
    simp [step,took,batch] at stuck

theorem drain_inv (hasData : V → Bool) (behaviour : List (Job V) → List (Request V)) (count : Nat) (inv : Inv first state) :
    Inv first (drain hasData behaviour count state) ∧ (Finished (drain hasData behaviour count state) ∨
        (drain hasData behaviour count state).ran.length = state.ran.length + count) := by
  induction count generalizing state with
  | zero => exact ⟨inv,Or.inr rfl⟩
  | succ count ih =>
    rw [drain]
    split
    next stuck => exact ⟨inv,Or.inl (finished_of_stuck inv stuck)⟩
    next next stepped =>
      obtain ⟨nextInv,longer⟩ := step_inv inv stepped
      obtain ⟨lastInv,ended⟩ := ih nextInv
      refine ⟨lastInv,ended.imp_right fun length => ?_⟩
      omega

def started (hasData : V → Bool) (requests : List (Request V)) : State V := requests.foldl (ask hasData) empty

theorem started_inv {hasData : V → Bool} {requests : List (Request V)} :
    Inv (started hasData requests).ticks (started hasData requests) := by
  have bare : Inv [] (empty : State V) := by
    refine ⟨?_,rfl,?_, nil_prefix,fun _ => nil_prefix⟩
    · rintro (_ | _) <;> rfl
    · intro queue entry member
      contradiction
  have inv : Inv [] (started hasData requests) := asks_inv bare requests
  obtain ⟨ran,batch,phase⟩ : (started hasData requests).ran = [] ∧ (started hasData requests).batch = [] ∧
      (started hasData requests).phase = .ticks := asks_keep requests
  refine ⟨inv.accounted,inv.calls,inv.counted,?_,?_⟩
  · have all := inv.accounted .ticks
    simp only [taken,phase,batch,ran] at all
    rw [all]
    exact prefix_refl _
  · intro reason
    simp [phase,ran,entriesOf] at reason

end Runs

section Service
variable {V : Type} [DecidableEq V]

/-- What a drain of `first` and what is queued later owes its jobs: each queue in order and no entry
twice, nothing left at the end, no stop before it, the first ticks before any microtask, and the
arguments as they were given. -/
structure Served (first : List (Entry V)) (count : Nat) (state : State V) : Prop where
  inOrder : ∀ queue, entriesOf queue state.ran <+: entriesOf queue state.queued
  complete : Finished state → ∀ queue, entriesOf queue state.ran = entriesOf queue state.queued
  busy : Finished state ∨ state.ran.length = count
  ticksFirst : entriesOf .microtasks state.ran ≠ [] → first <+: entriesOf .ticks state.ran
  asGiven : state.calls = state.ran.map fun entry => entry.2.job

/-- Order and completeness hold of every drain; the arguments arrive exactly when their number fits
into the byte that keeps it. -/
theorem drain_served_iff (hasData : V → Bool) (behaviour : List (Job V) → List (Request V)) (requests : List (Request V))
    (count : Nat) :
    Served (started hasData requests).ticks count (drain hasData behaviour count (started hasData requests)) ↔
      ∀ entry ∈ (drain hasData behaviour count (started hasData requests)).ran, entry.2.job.args.length < 2^8 := by
  obtain ⟨inv,ended⟩ := drain_inv hasData behaviour count started_inv
  constructor
  · intro served
    exact (calls_as_given_iff inv).mp served.asGiven
  · intro small
    refine ⟨?_,complete_of_finished inv,?_,?_,(calls_as_given_iff inv).mpr small⟩
    · intro queue
      rw [inv.accounted queue,append_assoc]
      exact prefix_append _ _
    · have idle : (started hasData requests).ran = [] := (asks_keep requests).1
      simpa [idle] using ended
    · intro ran
      exact inv.ticksFirst (Or.inr ran)

/-- A tick with 256 arguments is called with none. -/
theorem drain_drops_arguments : ¬ Served (started (fun _ => false) [.nextTick 0 (List.replicate 256 0)]).ticks 1
      (drain (fun _ => false) (fun _ => []) 1 (started (fun _ => false) [.nextTick 0 (List.replicate 256 0)])) := by
  intro served
  have lengths := congrArg (List.map fun job => job.args.length) served.asGiven
  have called : (drain (fun _ => false) (fun _ => []) 1
      (started (fun _ => false) [.nextTick 0 (List.replicate 256 0)])).calls.map (fun job => job.args.length) = [0] := by
    decide +kernel
  exact absurd lengths (by decide +kernel)

end Service

end Ant.Runtime.Microtasks

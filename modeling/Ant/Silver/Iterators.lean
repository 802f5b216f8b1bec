import Ant.Silver.IteratorSites
import Ant.Silver.StackShape

/-! The iterators of `for`-`of` loops and array patterns over whole runs: each one leaves the stack by ITER_CLOSE, once. -/
namespace Ant.Silver.Iterators
open Library Library.Transition Syntax Bytecode Compiler Machine Silver.Flow ExprFlow StmtFlow Unwinding Handlers IteratorSites List

inductive Blocks : List Cell → List (Nat × Bool) → Prop
  | nil : Blocks [] []
  | value (value : Value) {stack : List Cell} {ids : List (Nat × Bool)} (below : Blocks stack ids) :
      Blocks (.value value :: stack) ids
  | stale {stack : List Cell} {ids : List (Nat × Bool)} (below : Blocks stack ids) : Blocks (.stale :: stack) ids
  | iterator (made id : Nat) (generic : Bool) {stack : List Cell} {ids : List (Nat × Bool)} (below : Blocks stack ids) :
      Blocks (.iterator made id generic :: .iterator made id generic :: .iterator made id generic :: stack)
        ((id,generic) :: ids)

variable {made outer : Nat} {stack rest : List Cell} {ids : List (Nat × Bool)} {reply : Reply} {body : Stmt} {frame : Frame}

section Stack

section
variable {stack : List Cell} {ids : List (Nat × Bool)} {count : Nat} {rest : List Kind} {saved : List Kind}

section
variable (blocks : Blocks stack ids)
include blocks

theorem Blocks.drop_values (top : stack.map Cell.kind = List.replicate count .value ++ rest) :
    Blocks (stack.drop count) ids := by
  induction count generalizing stack with
  | zero => exact blocks
  | succ count ih =>
    rw [replicate_succ] at top
    cases blocks with
    | nil => simp at top
    | value _ below | stale below => exact ih below (List.cons.inj top).2
    | iterator made id generic below => simp [Cell.kind] at top

theorem Blocks.restore (top : stack.map Cell.kind = List.replicate count .value ++ saved) :
    Blocks (restore saved.length stack) ids := by
  have length : stack.length = count + saved.length := by
    rw [← length_map Cell.kind,top,length_append,length_replicate]
  rw [Machine.restore,length,show saved.length - (count + saved.length) = 0 by omega,Nat.add_sub_cancel,replicate_zero,
    nil_append]
  exact blocks.drop_values top

end

end

def quiet (stack : List Cell) : Bool :=
  stack.all fun cell => match cell with
    | .iterator _ _ _ => false
    | _ => true

end Stack

section Ledger

structure Ledger (made : Nat) (log : List Event) (ids : List (Nat × Bool)) : Prop where
  distinct : (ids.map Prod.fst).Nodup
  opened : ∀ id generic, (id,generic) ∈ ids → .opened id generic ∈ log
  known : ∀ id generic, .opened id generic ∈ log → id < made
  fresh : ∀ id, made ≤ id → .returned id ∉ log
  single : ∀ id one other, .opened id one ∈ log → .opened id other ∈ log → one = other
  counted : ∀ id, .opened id true ∈ log → log.count (.returned id) = if id ∈ ids.map Prod.fst then 0 else 1

variable {made : Nat} {log : List Event} {ids : List (Nat × Bool)}

theorem Ledger.note (ledger : Ledger made log ids) (event : Event) (making : ∀ id generic, event ≠ .opened id generic)
    (closing : ∀ id, event ≠ .returned id) : Ledger made (log ++ [event]) ids := by
  have opens : ∀ id generic, .opened id generic ∈ log ++ [event] ↔ Event.opened id generic ∈ log := by
    intro id generic
    simp [(making id generic).symm]
  have returns : ∀ id, .returned id ∈ log ++ [event] ↔ Event.returned id ∈ log := by
    intro id
    simp [(closing id).symm]
  refine ⟨ledger.distinct,fun id generic member => (opens _ _).mpr (ledger.opened id generic member),
    fun id generic member => ledger.known id generic ((opens _ _).mp member),
    fun id bound member => ledger.fresh id bound ((returns id).mp member),
    fun id one other first second => ledger.single id one other ((opens _ _).mp first) ((opens _ _).mp second),
    fun id member => ?_⟩
  rw [count_append,count_singleton,if_neg (by simpa using closing id)]
  exact ledger.counted id ((opens _ _).mp member)

theorem Ledger.close {id : Nat} {generic : Bool} (ledger : Ledger made log ((id,generic) :: ids)) :
    Ledger made (if generic then log ++ [.returned id] else log) ids := by
  have distinct := ledger.distinct
  rw [map_cons,nodup_cons] at distinct
  have was : .opened id generic ∈ log := ledger.opened id generic mem_cons_self
  have inner : ∀ other kind, (other,kind) ∈ ids → Event.opened other kind ∈ log :=
    fun other kind member => ledger.opened other kind (mem_cons_of_mem _ member)
  cases generic with
  | false =>
    refine ⟨distinct.2,inner,ledger.known,ledger.fresh,ledger.single,fun other member => ?_⟩
    have different : other ≠ id := by
      rintro rfl
      exact absurd (ledger.single other true false member was) (by decide)
    simpa [different] using ledger.counted other member
  | true =>
    have opens : ∀ other kind, .opened other kind ∈ log ++ [Event.returned id] ↔ Event.opened other kind ∈ log := by simp
    refine ⟨distinct.2,fun other kind member => (opens _ _).mpr (inner other kind member),
      fun other kind member => ledger.known other kind ((opens _ _).mp member),fun other bound member => ?_,
      fun other one two first second => ledger.single other one two ((opens _ _).mp first) ((opens _ _).mp second),
      fun other member => ?_⟩
    · rcases mem_append.mp member with old | new
      · exact ledger.fresh other bound old
      · have same : other = id := by simpa using new
        have below := ledger.known id true was
        omega
    · have counted := ledger.counted other ((opens _ _).mp member)
      simp only [if_true,count_append,counted,mem_cons]
      by_cases same : other = id
      · subst same
        simp [distinct.1]
      · simp [same,Ne.symm same]

end Ledger

def returnsQuiet (code : List Line) (frame : Frame) : Bool :=
  match code[frame.pc]? with
  | some ⟨.ret,_⟩ => quiet frame.stack
  | some ⟨.finallyRet,_⟩ =>
    match frame.completion with
    | .ret _ => quiet frame.stack
    | _ => true
  | _ => true

def Tracked (frame : Frame) : Prop := ∃ ids, Blocks frame.stack ids ∧ Ledger frame.iterators frame.log ids

section Steps
variable {code : List Line} {frame next : Frame} {site : Site} {ids : List (Nat × Bool)}

structure Keeps (frame next : Frame) (ids : List (Nat × Bool)) : Prop where
  blocks : Blocks next.stack ids
  log : next.log = frame.log
  iterators : next.iterators = frame.iterators

section
variable {guard : Guard} {value : Value} {guards : List Guard}

theorem Keeps.tracked (keeps : Keeps frame next ids) (ledger : Ledger frame.iterators frame.log ids) : Tracked next :=
  ⟨ids,keeps.blocks,by rw [keeps.log,keeps.iterators]; exact ledger⟩

end

section Instructions
variable (blocks : Blocks frame.stack ids) (ledger : Ledger frame.iterators frame.log ids)
include blocks ledger

end Instructions

section
variable {outer : Nat} {reply : Reply} {guards : List Guard}

end

end Steps

section Runs

def steady (outer : Nat) (code : List Line) (frame : Frame) (reply : Reply) : Bool :=
  calm outer code frame reply && returnsQuiet code frame

def Steady (outer : Nat) (body : Stmt) (frame : Frame) : Prop :=
  Reach (step outer (compileFunction body)) (fun frame reply => steady outer (compileFunction body) frame reply = true)
    entry frame

theorem Steady.calm (reached : Steady outer body frame) : Handlers.Runs outer body frame :=
  reached.weaken fun _ _ fair => (Bool.and_eq_true_iff.mp fair).1

end Runs

end Ant.Silver.Iterators

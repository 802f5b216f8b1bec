import Ant.Library.OrderedMap
import Ant.Silver.Bytecode

/-! One frame of the interpreter: `sv_execute_frame` of `engine.c` and the operations on handlers
and iterators, with what user code does at each step as an input. -/
namespace Ant.Silver.Machine
open Library Bytecode

structure Value where
  token : Nat
  truthy : Bool
  deriving DecidableEq,Repr

def undefined : Value := ⟨0,false⟩

def failure : Value := ⟨1,true⟩

/-- An iterator is three cells; a generic one is not built in. A `stale` cell is above a stack pointer that was raised. -/
inductive Cell where
  | value (value : Value)
  | iterator (made id : Nat) (generic : Bool)
  | stale
  deriving DecidableEq,Repr

def Cell.kind : Cell → Kind
  | .value _ => .value
  | .iterator made _ _ => .iterator made
  | .stale => .value

structure Handler where
  kind : HandlerKind
  ip : Nat
  savedSp : Nat
  made : Nat
  deriving DecidableEq,Repr

inductive Completion where
  | none
  | throw (value : Value)
  | ret (value : Value)
  | jump (target finallies pops : Nat)
  deriving DecidableEq,Repr

inductive Event where
  | opened (id : Nat) (generic : Bool)
  | exhausted (id : Nat)
  | failed (id : Nat)
  | returned (id : Nat)
  deriving DecidableEq,Repr

structure Frame where
  pc : Nat
  stack : List Cell
  handlers : List Handler
  completion : Completion
  locals : List (Nat × Value)
  iterators : Nat
  log : List Event
  deriving DecidableEq,Repr

def entry : Frame := ⟨0,[],[],.none,[],0,[]⟩

/-- What user code and the heap decide at a step: whether it throws, its value, and for iterators whether it is done
or generic. -/
structure Reply where
  throws : Bool
  value : Value
  done : Bool
  generic : Bool
  deriving DecidableEq,Repr

inductive Outcome where
  | running (frame : Frame)
  | returned (value : Value) (frame : Frame)
  | threw (value : Value) (frame : Frame)
  | corrupt
  deriving DecidableEq,Repr

def handlerMax : Nat := 128

def restore (depth : Nat) (stack : List Cell) : List Cell :=
  List.replicate (depth - stack.length) .stale ++ stack.drop (stack.length - depth)

def nextHandler (wanted : HandlerKind → Bool) : List Handler → Option (Handler × List Handler)
  | [] => none
  | handler :: rest => if wanted handler.kind then some (handler,rest) else nextHandler wanted rest

def isTry (kind : HandlerKind) : Bool := kind != .finallyBody

def throwTo (value : Value) (frame : Frame) : Outcome :=
  match nextHandler isTry frame.handlers with
  | none => .threw value {frame with handlers := [], completion := .none}
  | some (handler,rest) => .running {frame with
      pc := handler.ip
      stack := .value value :: restore handler.savedSp frame.stack
      handlers := rest
      completion := .throw value}

def returnTo (value : Value) (frame : Frame) : Outcome :=
  match nextHandler (· == .tryFinally) frame.handlers with
  | none => .returned value {frame with handlers := []}
  | some (handler,rest) => .running {frame with
      pc := handler.ip
      stack := .value value :: restore handler.savedSp frame.stack
      handlers := rest
      completion := .ret value}

def jumpTo (target finallies pops : Nat) (frame : Frame) : Outcome :=
  match if finallies > 0 then nextHandler (· == .tryFinally) frame.handlers else none with
  | some (handler,rest) => .running {frame with
      pc := handler.ip
      stack := .value undefined :: restore handler.savedSp frame.stack
      handlers := rest
      completion := .jump target (finallies - 1) (pops - (frame.handlers.length - rest.length))}
  | none => .running {frame with pc := target, handlers := frame.handlers.drop pops, completion := .none}

/-- `sv_op_try_pop`: the topmost handler of a `try`, wherever it is in the frame. -/
def tryPop : List Handler → List Handler
  | [] => []
  | handler :: rest => if isTry handler.kind then rest else handler :: tryPop rest

def finallyRet (frame : Frame) : Outcome :=
  match frame.handlers with
  | handler :: rest =>
    if handler.kind = .finallyBody then
      let below := {frame with handlers := rest, completion := .none}
      match frame.completion with
      | .throw value => throwTo value below
      | .ret value => returnTo value below
      | .jump target finallies pops => jumpTo target finallies pops below
      | .none => .running {below with pc := handler.ip}
    else throwTo failure frame
  | [] => throwTo failure frame

def topIterator : List Cell → Option (Nat × Bool)
  | .iterator _ id generic :: _ => some (id,generic)
  | _ => none

def note (event : Nat → Event) (frame : Frame) : Frame :=
  match topIterator frame.stack with
  | some (id,_) => {frame with log := frame.log ++ [event id]}
  | none => frame

def advance (reply : Reply) (done : Bool) (pushed : List Cell) (frame : Frame) : Outcome :=
  if reply.throws then throwTo reply.value (note .failed frame)
  else
    let frame := if done then note .exhausted frame else frame
    .running {frame with pc := frame.pc + 1, stack := pushed ++ frame.stack}

/-- `sv_op_iter_close`: only a generic iterator has a `return` method to call. -/
def iterClose (frame : Frame) : Frame :=
  let closed := match topIterator frame.stack with
    | some (_,true) => note .returned frame
    | _ => frame
  {closed with stack := frame.stack.drop 3}

def truthyTop : List Cell → Bool
  | .value value :: _ => value.truthy
  | _ => false

def pushOr (reply : Reply) (frame : Frame) (rest : List Cell) : Outcome :=
  if reply.throws then throwTo reply.value frame
  else .running {frame with pc := frame.pc + 1, stack := .value reply.value :: rest}

/-- One instruction; `outer` handlers are below those of the frame. -/
def execute (outer : Nat) (reply : Reply) (instr : Instr) (frame : Frame) : Outcome :=
  let next := {frame with pc := frame.pc + 1}
  match instr with
  | .eval => pushOr reply frame frame.stack
  | .op operands => pushOr reply frame (frame.stack.drop operands)
  | .store operands =>
    if reply.throws then throwTo reply.value frame else .running {next with stack := frame.stack.drop (operands + 1)}
  | .putPrivate _ => pushOr reply frame (frame.stack.drop 3)
  | .pop => .running {next with stack := frame.stack.drop 1}
  | .dup => .running {next with stack := frame.stack.take 1 ++ frame.stack}
  | .jmp target => .running {frame with pc := target}
  | .jmpTrue target =>
    .running {frame with
      pc := if truthyTop frame.stack then target else frame.pc + 1
      stack := frame.stack.drop 1}
  | .jmpFalse target =>
    .running {frame with
      pc := if truthyTop frame.stack then frame.pc + 1 else target
      stack := frame.stack.drop 1}
  | .jmpPeek target => .running {frame with pc := if reply.done then target else frame.pc + 1}
  | .putLocal slot =>
    match frame.stack with
    | .value value :: rest => .running {next with stack := rest, locals := OrderedMap.put slot value frame.locals}
    | stack => .running {next with stack := stack.drop 1}
  | .getLocal slot =>
    .running {next with stack := .value ((OrderedMap.find slot frame.locals).getD undefined) :: frame.stack}
  | .forIn => pushOr reply frame (frame.stack.drop 1)
  | .forOf =>
    if reply.throws then throwTo reply.value {frame with stack := frame.stack.drop 1}
    else .running {next with
      stack := List.replicate 3 (.iterator frame.pc frame.iterators reply.generic) ++ frame.stack.drop 1
      iterators := frame.iterators + 1
      log := frame.log ++ [.opened frame.iterators reply.generic]}
  | .iterNext =>
    advance reply reply.done [.value ⟨2,reply.done⟩,.value reply.value] frame
  | .iterClose => .running {iterClose frame with pc := frame.pc + 1}
  | .destructureNext => advance reply reply.done [.value (if reply.done then undefined else reply.value)] frame
  | .destructureRest => advance reply true [.value reply.value] frame
  | .tryPush finally_ handler =>
    if outer + frame.handlers.length < handlerMax then
      .running {next with
        handlers := ⟨if finally_ then .tryFinally else .tryCatch,handler,frame.stack.length,frame.pc⟩ :: frame.handlers}
    else .running next
  | .tryPop => .running {next with handlers := tryPop frame.handlers}
  | .catch_ => .running {next with completion := .none}
  | .finally_ resume =>
    if outer + frame.handlers.length < handlerMax then
      .running {next with handlers := ⟨.finallyBody,resume,0,frame.pc⟩ :: frame.handlers}
    else throwTo failure frame
  | .finallyDiscard =>
    .running {next with
      handlers := match frame.handlers with
        | handler :: rest => if handler.kind = .finallyBody then rest else handler :: rest
        | [] => []
      completion := .none}
  | .finallyRet => finallyRet frame
  | .unwindJmp target finallies pops => jumpTo target finallies pops frame
  | .throw =>
    match frame.stack with
    | .value value :: rest => throwTo value {frame with stack := rest}
    | stack => throwTo undefined {frame with stack := stack.drop 1}
  | .ret =>
    match frame.stack with
    | .value value :: rest => returnTo value {frame with stack := rest}
    | stack => returnTo undefined {frame with stack := stack.drop 1}
  | .exit _ _ _ => .corrupt
  | .stray none => .running next
  | .stray (some _) => .corrupt

def stepOutcome (outer : Nat) (code : List Line) (reply : Reply) (frame : Frame) : Outcome :=
  match code[frame.pc]? with
  | none => .corrupt
  | some line => execute outer reply line.instr frame

def step (outer : Nat) (code : List Line) (reply : Reply) (frame : Frame) : Option Frame :=
  match stepOutcome outer code reply frame with
  | .running next => some next
  | _ => none

end Ant.Silver.Machine

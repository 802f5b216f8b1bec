import Mathlib.Data.List.Basic

/-! The instructions that move control, handlers and the operand stack, and what is known
about the machine at each of them. -/
namespace Ant.Silver.Bytecode

inductive HandlerKind where
  | tryCatch
  | tryFinally
  | finallyBody
  deriving DecidableEq,Repr

/-- `eval` stands for every instruction that only pushes a value, `op` for those that take operands from the
stack, `store` for those that store the value above the operands of a place. `putPrivate` records whether the compiler
was to keep the value; the instruction leaves it either way. An `exit` is the jump
of a `break` or `continue` that is not patched yet: to the loop at a level, with the counts of `UNWIND_JMP` when it
leaves a `finally`. A jump that is never patched is `stray`. -/
inductive Instr where
  | eval
  | op (operands : Nat)
  | store (operands : Nat)
  | putPrivate (keep : Bool)
  | pop
  | dup
  | jmp (target : Nat)
  | jmpTrue (target : Nat)
  | jmpFalse (target : Nat)
  | jmpPeek (target : Nat)
  | putLocal (slot : Nat)
  | getLocal (slot : Nat)
  | forIn
  | forOf
  | iterNext
  | iterClose
  | destructureNext
  | destructureRest
  | tryPush (finally_ : Bool) (handler : Nat)
  | tryPop
  | catch_
  | finally_ (resume : Nat)
  | finallyDiscard
  | finallyRet
  | unwindJmp (target finallies pops : Nat)
  | throw
  | ret
  | exit (level : Nat) (continues : Bool) (unwind : Option (Nat × Nat))
  | stray (unwind : Option (Nat × Nat))
  deriving DecidableEq,Repr

/-- A cell of the operand stack: a value, or one of the three cells of the iterator made at an address. -/
inductive Kind where
  | value
  | iterator (made : Nat)
  deriving DecidableEq,Repr

/-- A handler that the source puts around an instruction: the address of the instruction that pushes it,
and the operand stack there. -/
structure Guard where
  kind : HandlerKind
  made : Nat
  cells : List Kind
  deriving DecidableEq,Repr

/-- Where an instruction stands in a `try` statement or loop: at the jump to the `finally` block after the protected
part completed, where an abrupt completion enters that block, on its last steps into it, at the end of an
exhausted loop, or where the breaks of the loop arrive. -/
inductive Mode where
  | plain
  | settled
  | entering
  | ready
  | exhausted
  | leaving
  deriving DecidableEq,Repr

structure Site where
  guards : List Guard
  cells : List Kind
  mode : Mode
  deriving DecidableEq,Repr

namespace Site

def push (kind : Kind) (site : Site) : Site := {site with cells := kind :: site.cells}

def drop (count : Nat) (site : Site) : Site := {site with cells := site.cells.drop count}

def values (count : Nat) (site : Site) : Site := {site with cells := List.replicate count .value ++ site.cells}

def iterate (made : Nat) (site : Site) : Site := {site with cells := List.replicate 3 (.iterator made) ++ site.cells}

def guard (kind : HandlerKind) (made : Nat) (site : Site) : Site :=
  {site with guards := ⟨kind,made,site.cells⟩ :: site.guards}

def unguard (site : Site) : Site := {site with guards := site.guards.tail}

def as (mode : Mode) (site : Site) : Site := {site with mode := mode}

end Site

structure Line where
  instr : Instr
  site : Site
  deriving DecidableEq,Repr

end Ant.Silver.Bytecode

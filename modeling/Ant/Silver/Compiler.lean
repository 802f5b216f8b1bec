import Ant.Silver.Bytecode
import Ant.Silver.Syntax

/-! `compile_expr`, `compile_stmt` and what they call in `compiler.c`, from the first address on. -/
namespace Ant.Silver.Compiler
open Syntax Bytecode

/-- `sv_loop_t`; `site` is what surrounds the loop. The level counts the loops around it. -/
structure Loop where
  label : Option Label
  isSwitch : Bool
  unwindDepth : Nat
  site : Site
  deriving DecidableEq,Repr

/-- The part of `sv_compiler_t` that statements read: the loops around, the kinds on the unwind stack, the next free
local, and a pending label. -/
structure Ctx where
  loops : List Loop
  unwinds : List HandlerKind
  locals : Nat
  pending : Option Label
  site : Site

def iterated (below : Site) (locals made : Nat) (elements : Site → Nat → List Line) : List Line :=
  let inside := below.iterate made
  let body := elements (inside.guard .tryCatch (made + 1)) (made + 2)
  let handler := made + 2 + body.length + 3
  ⟨.forOf,below.push .value⟩ :: ⟨.tryPush false handler,inside⟩ ::
    (body ++ [⟨.tryPop,inside.guard .tryCatch (made + 1)⟩,⟨.iterClose,inside⟩,⟨.jmp (handler + 5),below⟩,
      ⟨.catch_,inside.push .value⟩,⟨.putLocal locals,inside.push .value⟩,⟨.iterClose,inside⟩,
      ⟨.getLocal locals,below⟩,⟨.throw,below.push .value⟩])

/-- `compile_destructure_pattern` for arrays: the value on top is kept, or consumed, or left as the source. -/
def arrayPattern (keep consume : Bool) (site : Site) (locals base : Nat) (elements : Site → Nat → List Line) : List Line :=
  if keep || !consume then ⟨.dup,site.push .value⟩ :: iterated (site.push .value) locals (base + 1) elements
  else iterated site locals base elements

def objectPattern (keep consume : Bool) (site : Site) (base : Nat) (properties : Site → Nat → List Line) : List Line :=
  let dup := if keep then [⟨.dup,site.push .value⟩] else []
  let below := if keep then site.push .value else site
  dup ++ (properties (below.push .value) (base + dup.length) ++ if consume then [⟨.pop,below.push .value⟩] else [])

mutual

def compileExpr (site : Site) (locals base : Nat) : Expr → List Line
  | .leaf => [⟨.eval,site⟩]
  | .op operands => compileExprs site locals base operands ++ [⟨.op operands.count,site.values operands.count⟩]
  | .ternary test yes no =>
    let tested := compileExpr site locals base test
    let first := compileExpr site locals (base + tested.length + 1) yes
    let other := base + tested.length + 1 + first.length + 1
    let second := compileExpr site locals other no
    tested ++ ⟨.jmpFalse other,site.push .value⟩ ::
      (first ++ ⟨.jmp (other + second.length),site.push .value⟩ :: second)
  | .logical left right =>
    let first := compileExpr site locals base left
    let second := compileExpr site locals (base + first.length + 2) right
    first ++ ⟨.jmpPeek (base + first.length + 2 + second.length),site.push .value⟩ ::
      ⟨.pop,site.push .value⟩ :: second
  | .assign pattern value =>
    let first := compileExpr site locals base value
    first ++ compileLhsSet true site locals (base + first.length) pattern
termination_by structural expr => expr

def compileExprs (site : Site) (locals base : Nat) : Exprs → List Line
  | .nil => []
  | .cons head tail =>
    let first := compileExpr site locals base head
    first ++ compileExprs (site.push .value) locals (base + first.length) tail
termination_by structural exprs => exprs

/-- `compile_lhs_set` and `compile_destructure_store`: store the value on top, and keep it or not; `site` is without it. -/
def compileLhsSet (keep : Bool) (site : Site) (locals base : Nat) : Pattern → List Line
  | .place operands =>
    let kept := if keep then site.push .value else site
    let dup := if keep then [⟨.dup,site.push .value⟩] else []
    let first := compileExprs (kept.push .value) locals (base + dup.length) operands
    dup ++ (first ++ [⟨.store operands.count,(kept.push .value).values operands.count⟩])
  | .privateMember object =>
    let first := compileExpr (site.push .value) locals base object
    first ++ [⟨.eval,site.values 2⟩,⟨.putPrivate keep,site.values 3⟩]
  | .array elements => arrayPattern keep true site locals base fun inside at_ => compileElements inside (locals + 1) at_ elements
  | .object properties => objectPattern keep true site base fun inside at_ => compileProperties inside locals at_ properties
termination_by structural pattern => pattern

def compileElements (site : Site) (locals base : Nat) : Elements → List Line
  | .nil => []
  | .hole rest => ⟨.destructureNext,site⟩ :: ⟨.pop,site.push .value⟩ :: compileElements site locals (base + 2) rest
  | .item target rest =>
    let store := compileLhsSet false site locals (base + 1) target
    ⟨.destructureNext,site⟩ :: (store ++ compileElements site locals (base + 1 + store.length) rest)
  | .itemOr target fallback rest =>
    let value := compileExpr site locals (base + 5) fallback
    let store := compileLhsSet false site locals (base + 5 + value.length) target
    ⟨.destructureNext,site⟩ :: ⟨.dup,site.push .value⟩ :: ⟨.op 1,site.values 2⟩ ::
      ⟨.jmpFalse (base + 5 + value.length),site.values 2⟩ :: ⟨.pop,site.push .value⟩ ::
      (value ++ (store ++ compileElements site locals (base + 5 + value.length + store.length) rest))
  | .spread target rest =>
    let store := compileLhsSet false site locals (base + 1) target
    ⟨.destructureRest,site⟩ :: (store ++ compileElements site locals (base + 1 + store.length) rest)
termination_by structural elements => elements

def compileProperties (site : Site) (locals base : Nat) : Properties → List Line
  | .nil => []
  | .item key target rest =>
    let keys := compileExprs (site.push .value) locals (base + 1) key
    let store := compileLhsSet false site locals (base + 1 + keys.length + 1) target
    ⟨.dup,site⟩ :: (keys ++ ⟨.op (key.count + 1),(site.push .value).values key.count⟩ ::
      (store ++ compileProperties site locals (base + 1 + keys.length + 1 + store.length) rest))
  | .itemOr key target fallback rest =>
    let keys := compileExprs (site.push .value) locals (base + 1) key
    let value := compileExpr site locals (base + 1 + keys.length + 5) fallback
    let store := compileLhsSet false site locals (base + 1 + keys.length + 5 + value.length) target
    ⟨.dup,site⟩ :: (keys ++ ⟨.op (key.count + 1),(site.push .value).values key.count⟩ ::
      ⟨.dup,site.push .value⟩ :: ⟨.op 1,site.values 2⟩ ::
      ⟨.jmpFalse (base + 1 + keys.length + 5 + value.length),site.values 2⟩ :: ⟨.pop,site.push .value⟩ ::
      (value ++ (store ++ compileProperties site locals (base + 1 + keys.length + 5 + value.length + store.length) rest)))
termination_by structural properties => properties

end

def storeTop (binds : Bool) (site : Site) (locals base : Nat) (target : Pattern) : List Line :=
  match binds,target with
  | true,.array elements =>
    arrayPattern false false site locals base (fun inside at_ => compileElements inside (locals + 1) at_ elements) ++
      [⟨.pop,site.push .value⟩]
  | true,.object properties =>
    objectPattern false false site base (fun inside at_ => compileProperties inside locals at_ properties) ++
      [⟨.pop,site.push .value⟩]
  | _,_ => compileLhsSet false site locals base target

def tailReturn (site : Site) (locals base : Nat) : Expr → List Line
  | .ternary test yes no =>
    let tested := compileExpr site locals base test
    let first := tailReturn site locals (base + tested.length + 1) yes
    let other := base + tested.length + 1 + first.length
    tested ++ ⟨.jmpFalse other,site.push .value⟩ :: (first ++ tailReturn site locals other no)
  | value => compileExpr site locals base value ++ [⟨.ret,site.push .value⟩]
termination_by structural expr => expr

/-- Which of the loops around, with its label and whether it is a `switch`, innermost first, a `break` leaves
or a `continue` goes on with. -/
def exitTarget (continues : Bool) (label : Option Label) (loops : List (Option Label × Bool)) : Option Nat :=
  match continues,label with
  | true,none => loops.findIdx? fun loop => !loop.2
  | true,some _ => loops.findIdx? fun loop => loop.1 = label
  | false,none => if loops = [] then none else some 0
  | false,some _ => if loops = [] then none else some ((loops.findIdx? fun loop => loop.1 = label).getD 0)

def Loop.key (loop : Loop) : Option Label × Bool := (loop.label,loop.isSwitch)

def popsAndJump (site : Site) (level : Nat) (continues : Bool) : List HandlerKind → List Line
  | [] => [⟨.exit level continues none,site⟩]
  | kind :: rest =>
    ⟨if kind = .finallyBody then .finallyDiscard else .tryPop,site⟩ :: popsAndJump site.unguard level continues rest

def loopExit (ctx : Ctx) (level : Nat) (loop : Loop) (continues : Bool) : List Line :=
  let crossed := ctx.unwinds.take (ctx.unwinds.length - loop.unwindDepth)
  let finallies := crossed.count .tryFinally
  if finallies = 0 then popsAndJump ctx.site level continues crossed
  else [⟨.exit level continues (some (min finallies 255,min crossed.length 255)),ctx.site⟩]

def compileExit (ctx : Ctx) (continues : Bool) (label : Option Label) : List Line :=
  match exitTarget continues label (ctx.loops.map Loop.key) with
  | none => []
  | some index =>
    match ctx.loops[index]? with
    | none => []
    | some loop => loopExit ctx (ctx.loops.length - 1 - index) loop continues

def Ctx.pushLoop (ctx : Ctx) (label : Option Label) (isSwitch : Bool) : Ctx :=
  {ctx with loops := ⟨label.or ctx.pending,isSwitch,ctx.unwinds.length,ctx.site⟩ :: ctx.loops, pending := none}

def Ctx.unwind (ctx : Ctx) (kind : HandlerKind) (made : Nat) : Ctx :=
  {ctx with unwinds := kind :: ctx.unwinds, site := ctx.site.guard kind made}

def jumpTo (target : Option Nat) (unwind : Option (Nat × Nat)) : Instr :=
  match target,unwind with
  | some target,none => .jmp target
  | some target,some (finallies,pops) => .unwindJmp target finallies pops
  | none,unwind => .stray unwind

/-- The patches of one loop: its breaks at the end of the loop; the continues only where the loop patches them. -/
def patch (level breakAt : Nat) (continueAt : Option Nat) (line : Line) : Line :=
  match line.instr with
  | .exit target continues unwind =>
    if target = level then {line with instr := jumpTo (if continues then continueAt else some breakAt) unwind} else line
  | _ => line

def isLoopNode : Stmt → Bool
  | .whileLoop .. | .doWhile .. | .forLoop .. | .forIn .. | .forOf .. => true
  | _ => false

def compileOption (site : Site) (locals base : Nat) : Option Expr → List Line
  | none => []
  | some expr => compileExpr site locals base expr

def caseTests (site : Site) (locals base stub : Nat) : Cases → List Line
  | .nil => []
  | .cons none _ rest => caseTests site locals base stub rest
  | .cons (some test) _ rest =>
    let tested := compileExpr (site.values 2) locals (base + 1) test
    ⟨.dup,site.push .value⟩ :: (tested ++ ⟨.op 2,site.values 3⟩ :: ⟨.jmpTrue stub,site.values 2⟩ ::
      caseTests site locals (base + 1 + tested.length + 2) (stub + 2) rest)

def Ctx.plain (ctx : Ctx) : Ctx := {ctx with pending := none}

mutual

def compileStmt (ctx : Ctx) (base : Nat) : Stmt → List Line
  | .empty => []
  | .seq first second =>
    let code := compileStmt ctx.plain base first
    code ++ compileStmt ctx.plain (base + code.length) second
  | .expr value => compileExpr ctx.site ctx.locals base value ++ [⟨.pop,ctx.site.push .value⟩]
  | .declare binds target value =>
    let code := compileExpr ctx.site ctx.locals base value
    code ++ storeTop binds ctx.site ctx.locals (base + code.length) target
  | .ifThen test yes =>
    let tested := compileExpr ctx.site ctx.locals base test
    let body := compileStmt ctx.plain (base + tested.length + 1) yes
    tested ++ ⟨.jmpFalse (base + tested.length + 1 + body.length),ctx.site.push .value⟩ :: body
  | .ifElse test yes no =>
    let tested := compileExpr ctx.site ctx.locals base test
    let first := compileStmt ctx.plain (base + tested.length + 1) yes
    let other := base + tested.length + 1 + first.length + 1
    let second := compileStmt ctx.plain other no
    tested ++ ⟨.jmpFalse other,ctx.site.push .value⟩ :: (first ++ ⟨.jmp (other + second.length),ctx.site⟩ :: second)
  | .whileLoop test body =>
    let tested := compileExpr ctx.site ctx.locals base test
    let code := compileStmt (ctx.pushLoop none false) (base + tested.length + 1) body
    let next := base + tested.length + 1 + code.length
    tested ++ ⟨.jmpFalse (next + 1),ctx.site.push .value⟩ ::
      (code.map (patch ctx.loops.length (next + 1) (some next)) ++ [⟨.jmp base,ctx.site⟩])
  | .doWhile body test =>
    let code := compileStmt (ctx.pushLoop none false) base body
    let next := base + code.length
    let tested := compileExpr ctx.site ctx.locals next test
    code.map (patch ctx.loops.length (next + tested.length + 2) (some next)) ++
      (tested ++ [⟨.jmpFalse (next + tested.length + 2),ctx.site.push .value⟩,⟨.jmp base,ctx.site⟩])
  | .forLoop init test update body =>
    let first := compileStmt ctx.plain base init
    let start := base + first.length
    let tested := compileOption ctx.site ctx.locals start test
    let leave := if test.isSome then 1 else 0
    let code := compileStmt (ctx.pushLoop none false) (start + tested.length + leave) body
    let next := start + tested.length + leave + code.length
    let updated := compileOption ctx.site ctx.locals next update
    let tail := if update.isSome then [⟨.pop,ctx.site.push .value⟩,⟨.jmp start,ctx.site⟩] else [⟨.jmp start,ctx.site⟩]
    let done := next + updated.length + tail.length
    first ++ (tested ++ ((if test.isSome then [⟨.jmpFalse done,ctx.site.push .value⟩] else []) ++
      (code.map (patch ctx.loops.length done (some next)) ++ (updated ++ tail))))
  | .forIn binds target source body =>
    let sourced := compileExpr ctx.site ctx.locals base source
    let start := base + sourced.length + 4
    let inner := {ctx.pushLoop none false with locals := ctx.locals + 2}
    let stored := storeTop binds ctx.site (ctx.locals + 2) (start + 8) target
    let code := compileStmt inner (start + 8 + stored.length) body
    let next := start + 8 + stored.length + code.length
    sourced ++ ⟨.forIn,ctx.site.push .value⟩ :: ⟨.putLocal ctx.locals,ctx.site.push .value⟩ :: ⟨.eval,ctx.site⟩ ::
      ⟨.putLocal (ctx.locals + 1),ctx.site.push .value⟩ ::
      ⟨.getLocal (ctx.locals + 1),ctx.site⟩ :: ⟨.getLocal ctx.locals,ctx.site.push .value⟩ :: ⟨.op 1,ctx.site.values 2⟩ ::
      ⟨.op 2,ctx.site.values 2⟩ :: ⟨.jmpFalse (next + 4),ctx.site.push .value⟩ ::
      ⟨.getLocal ctx.locals,ctx.site⟩ :: ⟨.getLocal (ctx.locals + 1),ctx.site.push .value⟩ :: ⟨.op 2,ctx.site.values 2⟩ ::
      (stored ++ (code.map (patch ctx.loops.length (next + 4) (some next)) ++
        [⟨.getLocal (ctx.locals + 1),ctx.site⟩,⟨.op 1,ctx.site.push .value⟩,
          ⟨.putLocal (ctx.locals + 1),ctx.site.push .value⟩,⟨.jmp start,ctx.site⟩]))
  | .forOf binds target source body =>
    let sourced := compileExpr ctx.site ctx.locals base source
    let made := base + sourced.length
    let inside := ctx.site.iterate made
    let guarded := inside.guard .tryCatch (made + 1)
    let inner := {ctx with
      unwinds := .tryCatch :: ctx.unwinds, locals := ctx.locals + 1, site := guarded}.pushLoop none false
    let stored := storeTop binds guarded (ctx.locals + 1) (made + 4) target
    let code := compileStmt inner (made + 4 + stored.length) body
    let next := made + 4 + stored.length + code.length
    let leave := next + 3
    sourced ++ ⟨.forOf,ctx.site.push .value⟩ :: ⟨.tryPush false (leave + 3),inside⟩ ::
      ⟨.iterNext,guarded⟩ :: ⟨.jmpTrue (next + 1),guarded.values 2⟩ ::
      (stored ++ (code.map (patch ctx.loops.length leave (some next)) ++
        [⟨.jmp (made + 2),guarded⟩,⟨.pop,guarded.push .value⟩,⟨.tryPop,guarded.as .exhausted⟩,
          ⟨.tryPop,guarded.as .leaving⟩,⟨.iterClose,inside⟩,⟨.jmp (leave + 8),ctx.site⟩,
          ⟨.catch_,inside.push .value⟩,⟨.putLocal ctx.locals,inside.push .value⟩,⟨.iterClose,inside⟩,
          ⟨.getLocal ctx.locals,ctx.site⟩,⟨.throw,ctx.site.push .value⟩]))
  | .ret none => [⟨.eval,ctx.site⟩,⟨.ret,ctx.site.push .value⟩]
  | .ret (some value) => tailReturn ctx.site ctx.locals base value
  | .raise value => compileExpr ctx.site ctx.locals base value ++ [⟨.throw,ctx.site.push .value⟩]
  | .exit continues label => compileExit ctx continues label
  | .tryCatch body param handler =>
    let code := compileStmt (ctx.plain.unwind .tryCatch base) (base + 1) body
    let caught := base + 1 + code.length + 2
    let bound := match param with
      | none => [⟨.pop,ctx.site.push .value⟩]
      | some target => storeTop true ctx.site ctx.locals (caught + 1) target
    let after := compileStmt ctx.plain (caught + 1 + bound.length) handler
    ⟨.tryPush false caught,ctx.site⟩ :: (code ++ ⟨.tryPop,ctx.site.guard .tryCatch base⟩ ::
      ⟨.jmp (caught + 1 + bound.length + after.length),ctx.site⟩ :: ⟨.catch_,ctx.site.push .value⟩ :: (bound ++ after))
  | .tryFinally body final =>
    let code := compileStmt (ctx.plain.unwind .tryFinally base) (base + 1) body
    let last := base + 1 + code.length + 4
    let after := compileStmt (ctx.plain.unwind .finallyBody last) (last + 1) final
    ⟨.tryPush true (base + 1 + code.length + 2),ctx.site⟩ :: (code ++ ⟨.tryPop,ctx.site.guard .tryFinally base⟩ ::
      ⟨.jmp last,ctx.site.as .settled⟩ :: ⟨.pop,(ctx.site.push .value).as .entering⟩ ::
      ⟨.jmp last,ctx.site.as .ready⟩ :: ⟨.finally_ (last + 1 + after.length + 1),ctx.site.as .ready⟩ ::
      (after ++ [⟨.finallyRet,(ctx.plain.unwind .finallyBody last).site⟩]))
  | .tryBoth body param handler final =>
    let outer := ctx.plain.unwind .tryFinally base
    let code := compileStmt (outer.unwind .tryCatch (base + 1)) (base + 2) body
    let caught := base + 2 + code.length + 2
    let bound := match param with
      | none => [⟨.pop,outer.site.push .value⟩]
      | some target => storeTop true outer.site ctx.locals (caught + 1) target
    let handled := compileStmt outer (caught + 1 + bound.length) handler
    let settled := caught + 1 + bound.length + handled.length
    let last := settled + 4
    let after := compileStmt (ctx.plain.unwind .finallyBody last) (last + 1) final
    ⟨.tryPush true (settled + 2),ctx.site⟩ :: ⟨.tryPush false caught,outer.site⟩ ::
      (code ++ ⟨.tryPop,outer.site.guard .tryCatch (base + 1)⟩ :: ⟨.jmp settled,outer.site⟩ ::
      ⟨.catch_,outer.site.push .value⟩ :: (bound ++ (handled ++ ⟨.tryPop,outer.site⟩ ::
      ⟨.jmp last,ctx.site.as .settled⟩ :: ⟨.pop,(ctx.site.push .value).as .entering⟩ ::
      ⟨.jmp last,ctx.site.as .ready⟩ :: ⟨.finally_ (last + 1 + after.length + 1),ctx.site.as .ready⟩ ::
      (after ++ [⟨.finallyRet,(ctx.plain.unwind .finallyBody last).site⟩]))))
  | .switch value cases =>
    let code := compileExpr ctx.site ctx.locals base value
    let start := base + code.length
    let stubs := start + (caseTests ctx.site ctx.locals start 0 cases).length + 1
    let tests := caseTests ctx.site ctx.locals start stubs cases
    let inner := ctx.plain.pushLoop none true
    let bodies := stubs + (caseStubs inner 0 cases).length + 2
    let code_ := caseBodies inner bodies cases
    let done := bodies + code_.length
    code ++ (tests ++ ⟨.jmp (bodies - 2),ctx.site.push .value⟩ :: (caseStubs inner bodies cases ++
      ⟨.pop,ctx.site.push .value⟩ :: ⟨.jmp ((defaultStart inner bodies cases).getD done),ctx.site⟩ ::
      code_.map (patch ctx.loops.length done none)))
  | .labelled label body =>
    if isLoopNode body then compileStmt {ctx with pending := some label} base body
    else
      let code := compileStmt (ctx.plain.pushLoop (some label) false) base body
      code.map (patch ctx.loops.length (base + code.length) none)
termination_by structural stmt => stmt

def caseBodies (ctx : Ctx) (base : Nat) : Cases → List Line
  | .nil => []
  | .cons _ body rest =>
    let code := compileStmt ctx base body
    code ++ caseBodies ctx (base + code.length) rest
termination_by structural cases => cases

def caseStubs (ctx : Ctx) (base : Nat) : Cases → List Line
  | .nil => []
  | .cons none body rest => caseStubs ctx (base + (compileStmt ctx base body).length) rest
  | .cons (some _) body rest => ⟨.pop,ctx.site.push .value⟩ :: ⟨.jmp base,ctx.site⟩ ::
    caseStubs ctx (base + (compileStmt ctx base body).length) rest
termination_by structural cases => cases

def defaultStart (ctx : Ctx) (base : Nat) : Cases → Option Nat
  | .nil => none
  | .cons test body rest =>
    (defaultStart ctx (base + (compileStmt ctx base body).length) rest).or (if test.isNone then some base else none)
termination_by structural cases => cases

end

def compileFunction (body : Stmt) : List Line :=
  let ctx : Ctx := ⟨[],[],0,none,⟨[],[],.plain⟩⟩
  compileStmt ctx 0 body ++ [⟨.eval,ctx.site⟩,⟨.ret,ctx.site.push .value⟩]

end Ant.Silver.Compiler

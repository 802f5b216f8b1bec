import Ant.Silver.Compiler
import Ant.Silver.Machine

/-! What is on top of the stack at every line: instructions take values only, iterators are advanced and closed on top,
and above the innermost handler there are only values wherever something can throw. -/
namespace Ant.Silver.IteratorSites
open Syntax Bytecode Compiler Machine List

def takes : Instr → Nat
  | .op operands => operands
  | .store operands => operands + 1
  | .putPrivate _ => 3
  | .pop | .putLocal _ | .jmpTrue _ | .jmpFalse _ | .forIn | .forOf | .throw | .ret => 1
  | _ => 0

def onIterator : Instr → Bool
  | .iterNext | .iterClose | .destructureNext | .destructureRest => true
  | _ => false

def mayThrow : Instr → Bool
  | .eval | .op _ | .store _ | .putPrivate _ | .forIn | .forOf | .iterNext | .destructureNext | .destructureRest | .throw | .finallyRet => true
  | _ => false

def guardBase (guards : List Guard) : List Kind :=
  match guards.find? fun guard => isTry guard.kind with
  | none => []
  | some guard => guard.cells

/-- Only values are above what the innermost handler restores: no iterator is lost when something throws. -/
def Covered (site : Site) : Prop := ∃ count, site.cells = List.replicate count .value ++ guardBase site.guards

structure Shaped (line : Line) : Prop where
  values : ∃ rest, line.site.cells = List.replicate (takes line.instr) .value ++ rest
  iterator : onIterator line.instr = true → ∃ made rest, line.site.cells = List.replicate 3 (.iterator made) ++ rest
  covered : mayThrow line.instr = true → Covered line.site

variable {made level count locals base target : Nat} {site : Site} {continues : Bool}

section
variable {site : Site} {instr : Instr} {rest : List Kind}

theorem Covered.push (covered : Covered site) : Covered (site.push .value) := by
  obtain ⟨count,same⟩ := covered
  exact ⟨count + 1,by simp only [Site.push,same]; rfl⟩

theorem Covered.values (covered : Covered site) (more : Nat) : Covered (site.values more) := by
  obtain ⟨count,same⟩ := covered
  exact ⟨more + count,by simp only [Site.values,same]; rw [← append_assoc,replicate_append_replicate]⟩

theorem covered_guard {site : Site} {kind : HandlerKind} (tries : isTry kind = true) : Covered (site.guard kind made) :=
  ⟨0,by simp [Site.guard,guardBase,tries]⟩

theorem Covered.body (covered : Covered site) (made : Nat) : Covered (site.guard .finallyBody made) := by
  obtain ⟨count,same⟩ := covered
  exact ⟨count,by simpa [Site.guard,guardBase,isTry] using same⟩

theorem shaped_quiet {site : Site} (quiet : takes instr = 0) (other : onIterator instr = false)
    (calm : mayThrow instr = false) : Shaped ⟨instr,site⟩ :=
  ⟨⟨site.cells,by simp [quiet]⟩,by simp [other],by simp [calm]⟩

theorem shaped_values (top : site.cells = List.replicate (takes instr) .value ++ rest) (other : onIterator instr = false)
    (covered : Covered site) : Shaped ⟨instr,site⟩ :=
  ⟨⟨rest,top⟩,by simp [other],fun _ => covered⟩

theorem shaped_drop {rest : List Kind} (top : site.cells = List.replicate (takes instr) .value ++ rest)
    (other : onIterator instr = false) (calm : mayThrow instr = false) : Shaped ⟨instr,site⟩ :=
  ⟨⟨rest,top⟩,by simp [other],by simp [calm]⟩

theorem shaped_iterator (none_ : takes instr = 0) (top : site.cells = List.replicate 3 (.iterator made) ++ rest)
    (covered : mayThrow instr = true → Covered site) : Shaped ⟨instr,site⟩ :=
  ⟨⟨site.cells,by simp [none_]⟩,fun _ => ⟨made,rest,top⟩,covered⟩

end

theorem shaped_close : Shaped ⟨.iterClose,site.iterate made⟩ :=
  shaped_iterator rfl rfl (by simp [mayThrow])

def AllShaped (lines : List Line) : Prop := ∀ line ∈ lines, Shaped line

section
variable {lines : List Line} {instr : Instr} {site : Site} {elements : Site → Nat → List Line} {keep consume : Bool}

theorem all_nil : AllShaped [] := fun _ member => absurd member not_mem_nil

theorem all_cons {line : Line} (first : Shaped line) (others : AllShaped lines) :
    AllShaped (line :: lines) := forall_mem_cons.mpr ⟨first,others⟩

theorem all_quiet (calm : (takes instr,onIterator instr,mayThrow instr) = (0,false,false)) (later : AllShaped lines) :
    AllShaped (⟨instr,site⟩ :: lines) := by
  simp only [Prod.mk.injEq] at calm
  exact all_cons (shaped_quiet calm.1 calm.2.1 calm.2.2) later

theorem all_drop {rest : List Kind} (top : site.cells = List.replicate (takes instr) .value ++ rest)
    (calm : (onIterator instr,mayThrow instr) = (false,false)) (later : AllShaped lines) :
    AllShaped (⟨instr,site⟩ :: lines) := by
  simp only [Prod.mk.injEq] at calm
  exact all_cons (shaped_drop top calm.1 calm.2) later

theorem all_append {first second : List Line} (one : AllShaped first) (two : AllShaped second) :
    AllShaped (first ++ second) := forall_mem_append.mpr ⟨one,two⟩

theorem all_patch (shaped : AllShaped lines) {breakAt : Nat} {continueAt : Option Nat} :
    AllShaped (lines.map (patch level breakAt continueAt)) := by
  intro line member
  obtain ⟨⟨instr,site⟩,inside,rfl⟩ := mem_map.mp member
  have before := shaped _ inside
  cases instr with
  | exit target continues unwind =>
    simp only [patch]
    split
    · generalize (if continues = true then continueAt else some breakAt) = address
      cases address <;> cases unwind <;> exact shaped_quiet rfl rfl rfl
    · exact before
  | _ => exact before

theorem all_iterator (none_ : takes instr = 0) (top : ∃ made rest, site.cells = List.replicate 3 (.iterator made) ++ rest)
    (covered : Covered site) (later : AllShaped lines) : AllShaped (⟨instr,site⟩ :: lines) := by
  obtain ⟨made,rest,same⟩ := top
  exact all_cons (shaped_iterator none_ same fun _ => covered) later

theorem values_cells {site : Site} :
    (site.values count).cells = List.replicate count .value ++ site.cells := rfl

theorem push_values_cells {site : Site} :
    ((site.push .value).values count).cells = List.replicate (count + 1) .value ++ site.cells := by
  simp only [Site.push,Site.values,replicate_succ',append_assoc,singleton_append]

theorem iterated_shaped {below : Site} (covered : Covered below)
    (inner : ∀ inside start, Covered inside → (∃ made rest, inside.cells = List.replicate 3 (.iterator made) ++ rest) → AllShaped (elements inside start))
    : AllShaped (iterated below locals made elements) := by
  refine all_cons (shaped_values rfl rfl covered.push) (all_quiet rfl ?_)
  refine all_append (inner _ _ (covered_guard rfl) ⟨made,below.cells,rfl⟩) ?_
  refine all_quiet rfl (all_cons shaped_close ?_)
  refine all_quiet rfl (all_quiet rfl ?_)
  refine all_drop rfl rfl (all_cons shaped_close ?_)
  exact all_quiet rfl (all_cons (shaped_values rfl rfl covered.push) all_nil)

theorem array_shaped (covered : Covered site)
    (inner : ∀ inside start, Covered inside → (∃ made rest, inside.cells = List.replicate 3 (.iterator made) ++ rest) → AllShaped (elements inside start))
    : AllShaped (arrayPattern keep consume site locals base elements) := by
  unfold arrayPattern
  split
  · exact all_quiet rfl (iterated_shaped covered.push inner)
  · exact iterated_shaped covered inner

theorem object_shaped {properties : Site → Nat → List Line} (covered : Covered site)
    (inner : ∀ inside start, Covered inside → AllShaped (properties inside start)) :
    AllShaped (objectPattern keep consume site base properties) := by
  have core : ∀ below start, Covered below → AllShaped (properties (below.push .value) start ++
      if consume then [⟨.pop,below.push .value⟩] else []) := by
    intro below start covered
    refine all_append (inner _ _ covered.push) ?_
    cases consume with
    | true => exact all_drop rfl rfl all_nil
    | false => exact all_nil
  cases keep with
  | true => exact all_quiet rfl (core _ _ covered.push)
  | false => exact core _ _ covered

theorem default_shaped {rest : List Line} (covered : Covered site) (later : AllShaped rest) :
    AllShaped (⟨.dup,site.push .value⟩ :: ⟨.op 1,site.values 2⟩ :: ⟨.jmpFalse target,site.values 2⟩ ::
      ⟨.pop,site.push .value⟩ :: rest) :=
  all_quiet rfl (all_cons (shaped_values rfl rfl (covered.values 2))
    (all_drop rfl rfl (all_drop rfl rfl later)))

end

mutual

theorem expr_shaped : ∀ (expr : Expr) (site : Site) (locals base : Nat), Covered site →
    AllShaped (compileExpr site locals base expr)
  | .leaf,_,_,_,covered => all_cons (shaped_values rfl rfl covered) all_nil
  | .op operands,site,locals,base,covered =>
    all_append (exprs_shaped operands site locals base covered)
      (all_cons (shaped_values values_cells rfl (covered.values _)) all_nil)
  | .ternary test yes no,site,locals,base,covered =>
    all_append (expr_shaped test site locals base covered) (all_drop rfl rfl
      (all_append (expr_shaped yes site locals _ covered)
        (all_quiet rfl (expr_shaped no site locals _ covered))))
  | .logical left right,site,locals,base,covered =>
    all_append (expr_shaped left site locals base covered) (all_quiet rfl
      (all_drop rfl rfl (expr_shaped right site locals _ covered)))
  | .assign pattern value,site,locals,base,covered =>
    all_append (expr_shaped value site locals base covered) (lhsSet_shaped pattern true site locals _ covered)
termination_by structural expr => expr

theorem exprs_shaped : ∀ (exprs : Exprs) (site : Site) (locals base : Nat), Covered site →
    AllShaped (compileExprs site locals base exprs)
  | .nil,_,_,_,_ => all_nil
  | .cons head tail,site,locals,base,covered =>
    all_append (expr_shaped head site locals base covered) (exprs_shaped tail _ locals _ covered.push)
termination_by structural exprs => exprs

theorem lhsSet_shaped : ∀ (pattern : Pattern) (keep : Bool) (site : Site) (locals base : Nat), Covered site →
    AllShaped (compileLhsSet keep site locals base pattern)
  | .place operands,keep,site,locals,base,covered => by
    have core : ∀ below start, Covered below → AllShaped (compileExprs (below.push .value) locals start operands ++
        [⟨.store operands.count,(below.push .value).values operands.count⟩]) := by
      intro below start covered
      refine all_append (exprs_shaped operands _ locals start covered.push) (all_cons ?_ all_nil)
      exact shaped_values push_values_cells rfl (covered.push.values _)
    cases keep with
    | true => exact all_quiet rfl (core _ _ covered.push)
    | false => exact core _ _ covered
  | .privateMember object,_,_,locals,base,covered =>
    all_append (expr_shaped object _ locals base covered.push) (all_cons (shaped_values rfl rfl (covered.values 2))
      (all_cons (shaped_values rfl rfl (covered.values 3)) all_nil))
  | .array elements,_,_,locals,_,covered =>
    array_shaped covered fun inside start inner top => elements_shaped elements inside (locals + 1) start inner top
  | .object properties,_,_,locals,_,covered =>
    object_shaped covered fun inside start inner => properties_shaped properties inside locals start inner
termination_by structural pattern => pattern

theorem elements_shaped : ∀ (elements : Elements) (site : Site) (locals base : Nat), Covered site →
    (∃ made rest, site.cells = List.replicate 3 (.iterator made) ++ rest) →
    AllShaped (compileElements site locals base elements)
  | .nil,_,_,_,_,_ => all_nil
  | .hole rest,site,locals,_,covered,top =>
    all_iterator rfl top covered (all_drop rfl rfl (elements_shaped rest site locals _ covered top))
  | .item target rest,site,locals,_,covered,top | .spread target rest,site,locals,_,covered,top =>
    all_iterator rfl top covered
      (all_append (lhsSet_shaped target false site locals _ covered) (elements_shaped rest site locals _ covered top))
  | .itemOr target fallback rest,site,locals,_,covered,top =>
    all_iterator rfl top covered (default_shaped covered
      (all_append (expr_shaped fallback site locals _ covered) (all_append (lhsSet_shaped target false site locals _ covered)
        (elements_shaped rest site locals _ covered top))))
termination_by structural elements => elements

theorem properties_shaped : ∀ (properties : Properties) (site : Site) (locals base : Nat), Covered site →
    AllShaped (compileProperties site locals base properties)
  | .nil,_,_,_,_ => all_nil
  | .item key target rest,site,locals,_,covered =>
    all_quiet rfl (all_append (exprs_shaped key _ locals _ covered.push)
      (all_cons (shaped_values push_values_cells rfl (covered.push.values _))
        (all_append (lhsSet_shaped target false site locals _ covered) (properties_shaped rest site locals _ covered))))
  | .itemOr key target fallback rest,site,locals,_,covered =>
    all_quiet rfl (all_append (exprs_shaped key _ locals _ covered.push)
      (all_cons (shaped_values push_values_cells rfl (covered.push.values _)) (default_shaped covered
        (all_append (expr_shaped fallback site locals _ covered) (all_append (lhsSet_shaped target false site locals _ covered)
          (properties_shaped rest site locals _ covered))))))
termination_by structural properties => properties

end

theorem storeTop_shaped {binds : Bool} {target : Pattern} (covered : Covered site) :
    AllShaped (storeTop binds site locals base target) := by
  have stored := lhsSet_shaped target false site locals base covered
  cases binds with
  | false => cases target <;> exact stored
  | true =>
    cases target with
    | place operands => exact stored
    | privateMember object => exact stored
    | array elements =>
      refine all_append (array_shaped covered fun inside start inner top => ?_) (all_drop rfl rfl all_nil)
      exact elements_shaped elements inside (locals + 1) start inner top
    | object properties =>
      refine all_append (object_shaped covered fun inside start inner => ?_) (all_drop rfl rfl all_nil)
      exact properties_shaped properties inside locals start inner

theorem abrupt_shaped {instr : Instr} (one : takes instr = 1) (other : onIterator instr = false) {value : Expr}
    (covered : Covered site) : AllShaped (compileExpr site locals base value ++ [⟨instr,site.push .value⟩]) :=
  all_append (expr_shaped value site locals base covered)
    (all_cons (shaped_values (by rw [one]; rfl) other covered.push) all_nil)

theorem tailReturn_shaped {site : Site} {locals : Nat} (covered : Covered site) : ∀ (value : Expr) (base : Nat),
    AllShaped (tailReturn site locals base value)
  | .ternary test yes no,base =>
    all_append (expr_shaped test site locals base covered) (all_drop rfl rfl
      (all_append (tailReturn_shaped covered yes _) (tailReturn_shaped covered no _)))
  | .leaf,base | .op _,base | .logical _ _,base | .assign _ _,base => abrupt_shaped rfl rfl covered

theorem pops_shaped {kinds : List HandlerKind} (site : Site) : AllShaped (popsAndJump site level continues kinds) := by
  induction kinds generalizing site with
  | nil => exact all_quiet rfl all_nil
  | cons kind rest ih =>
    refine all_cons ?_ (ih site.unguard)
    split <;> exact shaped_quiet rfl rfl rfl

theorem exit_shaped {ctx : Ctx} {label : Option Label} : AllShaped (compileExit ctx continues label) := by
  unfold compileExit
  split
  · exact all_nil
  · split
    · exact all_nil
    · unfold loopExit
      dsimp only
      split
      · exact pops_shaped _
      · exact all_quiet rfl all_nil

theorem option_shaped (covered : Covered site) {expr : Option Expr} : AllShaped (compileOption site locals base expr) := by
  cases expr with
  | none => exact all_nil
  | some expr => exact expr_shaped expr site locals base covered

theorem param_shaped {param : Option Pattern} (covered : Covered site) :
    AllShaped (match param with
      | none => [⟨.pop,site.push .value⟩]
      | some target => storeTop true site locals base target) := by
  cases param with
  | none => exact all_drop rfl rfl all_nil
  | some target => exact storeTop_shaped covered

theorem caseTests_shaped {site : Site} {locals : Nat} (covered : Covered site) : ∀ (cases : Cases) (base stub : Nat),
    AllShaped (caseTests site locals base stub cases)
  | .nil,_,_ => all_nil
  | .cons none _ rest,base,stub => caseTests_shaped covered rest base stub
  | .cons (some test) _ rest,_,_ =>
    all_quiet rfl (all_append (expr_shaped test _ locals _ (covered.values 2))
      (all_cons (shaped_values rfl rfl (covered.values 3)) (all_drop rfl rfl
        (caseTests_shaped covered rest _ _))))

theorem caseStubs_shaped {ctx : Ctx} : ∀ (cases : Cases) (base : Nat), AllShaped (caseStubs ctx base cases)
  | .nil,_ => all_nil
  | .cons none _ rest,_ => caseStubs_shaped rest _
  | .cons (some _) _ rest,_ =>
    all_drop rfl rfl (all_quiet rfl (caseStubs_shaped rest _))

theorem finally_shaped {resume : Nat} {after : List Line} (covered : Covered site) (inner : AllShaped after) :
    AllShaped (⟨.jmp target,site.as .settled⟩ :: ⟨.pop,(site.push .value).as .entering⟩ ::
      ⟨.jmp target,site.as .ready⟩ :: ⟨.finally_ resume,site.as .ready⟩ ::
      (after ++ [⟨.finallyRet,site.guard .finallyBody made⟩])) := by
  refine all_quiet rfl (all_drop rfl rfl (all_quiet rfl (all_quiet rfl (all_append inner ?_))))
  exact all_cons (shaped_values rfl rfl (covered.body made)) all_nil

mutual

theorem stmt_shaped : ∀ (stmt : Stmt) (ctx : Ctx) (base : Nat), Covered ctx.site → AllShaped (compileStmt ctx base stmt)
  | .empty,_,_,_ => all_nil
  | .seq first second,ctx,base,covered =>
    all_append (stmt_shaped first ctx.plain base covered) (stmt_shaped second ctx.plain _ covered)
  | .expr value,ctx,base,covered => abrupt_shaped rfl rfl covered
  | .declare binds target value,ctx,base,covered =>
    all_append (expr_shaped value ctx.site ctx.locals base covered) (storeTop_shaped covered)
  | .ifThen test yes,ctx,base,covered =>
    all_append (expr_shaped test ctx.site ctx.locals base covered)
      (all_drop rfl rfl (stmt_shaped yes ctx.plain _ covered))
  | .ifElse test yes no,ctx,base,covered =>
    all_append (expr_shaped test ctx.site ctx.locals base covered) (all_drop rfl rfl
      (all_append (stmt_shaped yes ctx.plain _ covered)
        (all_quiet rfl (stmt_shaped no ctx.plain _ covered))))
  | .whileLoop test body,ctx,base,covered =>
    all_append (expr_shaped test ctx.site ctx.locals base covered) (all_drop rfl rfl
      (all_append (all_patch (stmt_shaped body (ctx.pushLoop none false) _ covered))
        (all_quiet rfl all_nil)))
  | .doWhile body test,ctx,base,covered =>
    all_append (all_patch (stmt_shaped body (ctx.pushLoop none false) _ covered))
      (all_append (expr_shaped test ctx.site ctx.locals _ covered) (all_drop rfl rfl
        (all_quiet rfl all_nil)))
  | .forLoop init test update body,ctx,base,covered => by
    refine all_append (stmt_shaped init ctx.plain base covered) (all_append (option_shaped covered) ?_)
    refine all_append ?_ (all_append (all_patch (stmt_shaped body (ctx.pushLoop none false) _ covered))
      (all_append (option_shaped covered) ?_))
    · split
      · exact all_drop rfl rfl all_nil
      · exact all_nil
    · split
      · exact all_drop rfl rfl (all_quiet rfl all_nil)
      · exact all_quiet rfl all_nil
  | .forIn binds target source body,ctx,base,covered => by
    refine all_append (expr_shaped source ctx.site ctx.locals base covered) ?_
    refine all_cons (shaped_values rfl rfl covered.push) (all_drop rfl rfl ?_)
    refine all_cons (shaped_values rfl rfl covered) (all_drop rfl rfl ?_)
    refine all_quiet rfl (all_quiet rfl ?_)
    refine all_cons (shaped_values rfl rfl (covered.values 2)) ?_
    refine all_cons (shaped_values rfl rfl (covered.values 2)) (all_drop rfl rfl ?_)
    refine all_quiet rfl (all_quiet rfl ?_)
    refine all_cons (shaped_values rfl rfl (covered.values 2)) (all_append (storeTop_shaped covered) ?_)
    refine all_append (all_patch (stmt_shaped body {ctx.pushLoop none false with locals := ctx.locals + 2} _ covered)) ?_
    refine all_quiet rfl (all_cons (shaped_values rfl rfl covered.push) ?_)
    exact all_drop rfl rfl (all_quiet rfl all_nil)
  | .forOf binds target source body,ctx,base,covered => by
    have inside : ∀ made, Covered ((ctx.site.iterate made).guard .tryCatch (made + 1)) :=
      fun made => covered_guard rfl
    refine all_append (expr_shaped source ctx.site ctx.locals base covered) ?_
    refine all_cons (shaped_values rfl rfl covered.push) (all_quiet rfl ?_)
    refine all_cons (shaped_iterator rfl rfl fun _ => inside _) (all_drop rfl rfl ?_)
    refine all_append (storeTop_shaped (inside _)) ?_
    refine all_append (all_patch (stmt_shaped body _ _ (inside _))) ?_
    refine all_quiet rfl (all_drop rfl rfl ?_)
    refine all_quiet rfl (all_quiet rfl ?_)
    refine all_cons shaped_close (all_quiet rfl ?_)
    refine all_quiet rfl (all_drop rfl rfl ?_)
    refine all_cons shaped_close (all_quiet rfl ?_)
    exact all_cons (shaped_values rfl rfl covered.push) all_nil
  | .ret none,_,_,covered =>
    all_cons (shaped_values rfl rfl covered) (all_drop rfl rfl all_nil)
  | .ret (some value),ctx,base,covered => tailReturn_shaped covered value base
  | .raise value,ctx,base,covered => abrupt_shaped rfl rfl covered
  | .exit continues label,ctx,_,_ => exit_shaped
  | .tryCatch body param handler,ctx,base,covered =>
    all_quiet rfl
      (all_append (stmt_shaped body (ctx.plain.unwind .tryCatch base) _ (covered_guard rfl))
        (all_quiet rfl (all_quiet rfl (all_quiet rfl
          (all_append (param_shaped covered) (stmt_shaped handler ctx.plain _ covered))))))
  | .tryFinally body final,ctx,base,covered =>
    all_quiet rfl
      (all_append (stmt_shaped body (ctx.plain.unwind .tryFinally base) _ (covered_guard rfl))
        (all_quiet rfl
          (finally_shaped covered (stmt_shaped final (ctx.plain.unwind .finallyBody _) _ (covered.body _)))))
  | .tryBoth body param handler final,ctx,base,covered => by
    have outer : Covered (ctx.site.guard .tryFinally base) := covered_guard rfl
    refine all_quiet rfl (all_quiet rfl ?_)
    refine all_append (stmt_shaped body ((ctx.plain.unwind .tryFinally base).unwind .tryCatch (base + 1)) _
      (covered_guard rfl)) ?_
    refine all_quiet rfl (all_quiet rfl ?_)
    refine all_quiet rfl (all_append (param_shaped outer) ?_)
    refine all_append (stmt_shaped handler (ctx.plain.unwind .tryFinally base) _ outer) ?_
    refine all_quiet rfl ?_
    exact finally_shaped covered (stmt_shaped final (ctx.plain.unwind .finallyBody _) _ (covered.body _))
  | .switch value cases,ctx,base,covered =>
    all_append (expr_shaped value ctx.site ctx.locals base covered) (all_append (caseTests_shaped covered cases _ _)
      (all_quiet rfl (all_append (caseStubs_shaped cases _) (all_drop rfl rfl
        (all_quiet rfl
          (all_patch (caseBodies_shaped cases (ctx.plain.pushLoop none true) _ covered)))))))
  | .labelled label body,ctx,base,covered => by
    simp only [compileStmt]
    split
    · exact stmt_shaped body {ctx with pending := some label} base covered
    · exact all_patch (stmt_shaped body (ctx.plain.pushLoop (some label) false) base covered)
termination_by structural stmt => stmt

theorem caseBodies_shaped : ∀ (cases : Cases) (ctx : Ctx) (base : Nat), Covered ctx.site →
    AllShaped (caseBodies ctx base cases)
  | .nil,_,_,_ => all_nil
  | .cons _ body rest,ctx,base,covered =>
    all_append (stmt_shaped body ctx base covered) (caseBodies_shaped rest ctx _ covered)
termination_by structural cases => cases

end

end Ant.Silver.IteratorSites

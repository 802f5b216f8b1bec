import Ant.Silver.ExprFlow

/-! The code of a statement leads from the handlers and the stack around it to the same, and so do its breaks and
continues, as long as they are tidy. -/
namespace Ant.Silver.StmtFlow
open Syntax Bytecode Compiler Silver.Flow ExprFlow List

/-- A loop, `switch` or labelled block around a statement; `patched` when it patches its continues, `crossed` when a
`for`-`of` loop stands between. -/
structure Around where
  label : Option Label
  isSwitch : Bool
  patched : Bool
  crossed : Bool

def Around.key (around : Around) : Option Label × Bool := (around.label,around.isSwitch)

def Around.cross (around : Around) : Around := {around with crossed := true}

/-- A `continue` does not go to a labelled block; strictly, no exit leaves the iterator of a `for`-`of` loop behind. -/
def tidyExit (strict : Bool) (around : List Around) (continues : Bool) (label : Option Label) : Bool :=
  match exitTarget continues label (around.map Around.key) with
  | none => true
  | some index =>
    match around[index]? with
    | none => true
    | some target => (!continues || target.patched) && (!strict || !target.crossed)

mutual

def tidy (strict : Bool) (around : List Around) (pending : Option Label) : Stmt → Bool
  | .empty | .expr _ | .declare .. | .ret _ | .raise _ => true
  | .seq first second => tidy strict around none first && tidy strict around none second
  | .ifThen _ yes => tidy strict around none yes
  | .ifElse _ yes no => tidy strict around none yes && tidy strict around none no
  | .whileLoop _ body | .doWhile body _ | .forIn _ _ _ body => tidy strict (⟨pending,false,true,false⟩ :: around) none body
  | .forLoop init _ _ body =>
    tidy strict around none init && tidy strict (⟨pending,false,true,false⟩ :: around) none body
  | .forOf _ _ _ body => tidy strict (⟨pending,false,true,false⟩ :: around.map Around.cross) none body
  | .exit continues label => tidyExit strict around continues label
  | .tryCatch body _ handler => tidy strict around none body && tidy strict around none handler
  | .tryFinally body final => tidy strict around none body && tidy strict around none final
  | .tryBoth body _ handler final =>
    tidy strict around none body && tidy strict around none handler && tidy strict around none final
  | .switch _ cases => tidyCases strict (⟨none,true,false,false⟩ :: around) cases
  | .labelled label body =>
    if isLoopNode body then tidy strict around (some label) body
    else tidy strict (⟨some label,false,false,false⟩ :: around) none body
termination_by structural stmt => stmt

def tidyCases (strict : Bool) (around : List Around) : Cases → Bool
  | .nil => true
  | .cons _ body rest => tidy strict around none body && tidyCases strict around rest
termination_by structural cases => cases

end

section Exits
variable (strict : Bool) (code : List Line) (patches : Patches)

structure Leaves (level : Nat) (loop : Loop) (around : Around) (site : Site) : Prop where
  inside : loop.unwindDepth ≤ site.guards.length
  goes : ∃ breakAt continueAt, patches level = some (breakAt,continueAt) ∧
    Arrives strict code breakAt ⟨site.guards.drop (site.guards.length - loop.unwindDepth),loop.site.cells,.plain⟩ ∧
    (around.patched = true → ∃ target, continueAt = some target ∧
      Arrives strict code target ⟨site.guards.drop (site.guards.length - loop.unwindDepth),loop.site.cells,.plain⟩)
  level : strict = true → around.crossed = false → loop.site.cells = site.cells ∧
    ∀ guard ∈ site.guards.take (site.guards.length - loop.unwindDepth), guard.kind = .tryFinally → guard.cells = site.cells

structure Exits (around : List Around) (ctx : Ctx) : Prop where
  unwinds : ctx.unwinds = ctx.site.guards.map Guard.kind
  keys : ctx.loops.map Loop.key = around.map Around.key
  leaves : ∀ index loop target, ctx.loops[index]? = some loop → around[index]? = some target →
    Leaves strict code patches (ctx.loops.length - 1 - index) loop target ctx.site

end Exits

variable {guards : List Guard} {cells : List Kind} {base start : Nat} {site out : Site}

section Rules
variable {strict : Bool} {code : List Line} {patches : Patches} {around : List Around} {ctx : Ctx}

theorem arrives_cells {pc : Nat} {other : List Kind} {mode : Mode} (same : strict = true → cells = other)
    (arrived : Arrives strict code pc ⟨guards,cells,mode⟩) : Arrives strict code pc ⟨guards,other,mode⟩ := by
  obtain ⟨there,found,sameGuards,sameCells,modes⟩ := arrived
  exact ⟨there,found,sameGuards,fun holds => (sameCells holds).trans (same holds),modes⟩

theorem guarded_tail {guard : Guard} {rest : List Guard} (guarded : Guarded strict code cells (guard :: rest)) :
    Guarded strict code cells rest := by
  cases rest with
  | nil => trivial
  | cons next rest =>
    exact ⟨fun holds => (guarded.2.2.1 holds).trans (guarded.1 holds),guarded.2.2.2⟩

theorem arrives_exit (strict : Bool) {line : Line} (found : code[base]? = some line)
    (same : line.site = site.as .leaving ∨ line.site = site.as .exhausted) (plain : site.mode = .plain) :
    Arrives strict code base site := by
  refine ⟨line.site,by simp [siteAt,found],?_,?_,Or.inr ⟨plain,?_⟩⟩
  all_goals rcases same with same | same <;> simp [same,Site.as]

section
variable (exits : Exits strict code patches around ctx)
include exits

theorem Exits.plain : Exits strict code patches around ctx.plain :=
  ⟨exits.unwinds,exits.keys,exits.leaves⟩

theorem Exits.reserve (locals : Nat) :
    Exits strict code patches around {ctx with locals := locals} :=
  ⟨exits.unwinds,exits.keys,exits.leaves⟩

theorem Exits.pend (label : Option Label) :
    Exits strict code patches around {ctx with pending := label} :=
  ⟨exits.unwinds,exits.keys,exits.leaves⟩

end

section
variable {level : Nat} {loop : Loop} {site : Site} {continues : Bool}

theorem Leaves.guard {target : Around} (kind : HandlerKind) (made : Nat)
    (leaves : Leaves strict code patches level loop target site) :
    Leaves strict code patches level loop target (site.guard kind made) := by
  have deeper : (site.guard kind made).guards.length - loop.unwindDepth =
      site.guards.length - loop.unwindDepth + 1 := by
    have inside := leaves.inside
    simp only [Site.guard,length_cons]
    omega
  constructor
  · exact Nat.le_succ_of_le leaves.inside
  · rw [deeper]
    exact leaves.goes
  · intro holds uncrossed
    obtain ⟨same,crossed⟩ := leaves.level holds uncrossed
    rw [deeper]
    refine ⟨same,fun guard member final => ?_⟩
    rcases mem_cons.mp member with rfl | inside
    · rfl
    · exact crossed guard inside final

section
variable (exits : Exits strict code patches around ctx)
include exits

theorem Exits.unwind (kind : HandlerKind) (made : Nat) : Exits strict code patches around (ctx.unwind kind made) := by
  refine ⟨?_,exits.keys,fun index loop target found known => (exits.leaves index loop target found known).guard kind made⟩
  simp [Ctx.unwind,Site.guard,exits.unwinds]

theorem Exits.cross (made locals : Nat) : Exits strict code patches (around.map Around.cross)
      {ctx with unwinds := .tryCatch :: ctx.unwinds, locals := locals,
                site := (ctx.site.iterate made).guard .tryCatch (made + 1)} := by
  refine ⟨by simp [Site.guard,Site.iterate,exits.unwinds],?_,?_⟩
  · rw [map_map]
    exact exits.keys
  · intro index loop target found known
    rw [getElem?_map] at known
    obtain ⟨inner,had,rfl⟩ := Option.map_eq_some_iff.mp known
    have leaves := exits.leaves index loop inner found had
    have moved : Leaves strict code patches (ctx.loops.length - 1 - index) loop inner.cross (ctx.site.iterate made) :=
      ⟨leaves.inside,leaves.goes,fun _ uncrossed => absurd uncrossed (by simp [Around.cross])⟩
    exact moved.guard .tryCatch (made + 1)

theorem Exits.pushLoop (label : Option Label) (isSwitch patched : Bool) (breakAt : Nat) (continueAt : Option Nat)
    (plain : ctx.site.mode = .plain) (breaks : Arrives strict code breakAt ctx.site)
    (continues : patched = true → ∃ target, continueAt = some target ∧ Arrives strict code target ctx.site) :
    Exits strict code (setPatch patches ctx.loops.length breakAt continueAt)
      (⟨label.or ctx.pending,isSwitch,patched,false⟩ :: around) (ctx.pushLoop label isSwitch) := by
  have whole : (⟨ctx.site.guards,ctx.site.cells,.plain⟩ : Site) = ctx.site := by rw [← plain]
  refine ⟨exits.unwinds,by simp [Ctx.pushLoop,Loop.key,Around.key,exits.keys],?_⟩
  intro index loop target found known
  have depth : ctx.unwinds.length = ctx.site.guards.length := by rw [exits.unwinds,length_map]
  cases index with
  | zero =>
    simp only [Ctx.pushLoop,getElem?_cons_zero,Option.some.injEq] at found known
    subst found known
    refine ⟨Nat.le_of_eq depth,⟨breakAt,continueAt,by simp [setPatch,Ctx.pushLoop],?_⟩,fun _ _ => ⟨rfl,?_⟩⟩
    · simp only [Ctx.pushLoop,depth,Nat.sub_self,drop_zero,whole]
      exact ⟨breaks,continues⟩
    · simp [Ctx.pushLoop,depth]
  | succ index =>
    simp only [Ctx.pushLoop,getElem?_cons_succ] at found known
    have leaves := exits.leaves index loop target found known
    have bound : index < ctx.loops.length := (List.getElem?_eq_some_iff.mp found).1
    have same : (ctx.pushLoop label isSwitch).loops.length - 1 - (index + 1) = ctx.loops.length - 1 - index := by
      simp only [Ctx.pushLoop,length_cons]
      omega
    rw [same]
    refine ⟨leaves.inside,?_,leaves.level⟩
    rw [setPatch,if_neg (by omega)]
    exact leaves.goes

end

theorem Leaves.target {target : Around} (leaves : Leaves strict code patches level loop target site)
    (patched : continues = true → target.patched = true) :
    ∃ address, (∀ unwind other, resolve patches ⟨.exit level continues unwind,other⟩ = ⟨jumpTo (some address) unwind,other⟩) ∧
      Arrives strict code address ⟨site.guards.drop (site.guards.length - loop.unwindDepth),loop.site.cells,.plain⟩ := by
  obtain ⟨breakAt,continueAt,known,breaks,goes⟩ := leaves.goes
  cases continues with
  | false => exact ⟨breakAt,fun unwind other => by simp [resolve,known],breaks⟩
  | true =>
    obtain ⟨address,rfl,arrived⟩ := goes (patched rfl)
    exact ⟨address,fun unwind other => by simp [resolve,known],arrived⟩

theorem pops_enter {level address : Nat} {continues : Bool}
    (known : ∀ other, resolve patches ⟨.exit level continues none,other⟩ = ⟨.jmp address,other⟩) {popped : List Guard}
    (base : Nat) (quiet : ∀ guard ∈ popped, guard.kind ≠ .tryFinally)
    (guarded : Guarded strict code cells (popped ++ guards)) (there : Arrives strict code address ⟨guards,cells,.plain⟩)
    (placed : Placed code patches base (popsAndJump ⟨popped ++ guards,cells,.plain⟩ level continues (popped.map Guard.kind))) :
    Enters strict code base (popsAndJump ⟨popped ++ guards,cells,.plain⟩ level continues (popped.map Guard.kind))
      ⟨popped ++ guards,cells,.plain⟩ := by
  induction popped generalizing base with
  | nil =>
    have found := ((placed_cons _ _ _).mp placed).1
    rw [known] at found
    exact ⟨arrives_line found,checks_line found (flows_jmp rfl there) ⟨guarded,rfl⟩⟩
  | cons guard rest ih =>
    obtain ⟨found,placedRest⟩ := (placed_cons _ _ _).mp placed
    have later := ih (base + 1) (fun other member => quiet other (mem_cons_of_mem _ member))
      (guarded_tail guarded) placedRest
    have plain := quiet guard mem_cons_self
    by_cases body : guard.kind = .finallyBody
    · simp only [body] at found
      refine ⟨arrives_line found,checks_cons found ?_ ⟨guarded,rfl⟩ later.2⟩
      exact ⟨guard,rest ++ guards,rfl,body,later.1⟩
    · simp only [if_neg body] at found
      refine ⟨arrives_line found,checks_cons found ?_ ⟨guarded,rfl⟩ later.2⟩
      refine ⟨guard,rest ++ guards,rfl,body,?_⟩
      rw [if_neg plain]
      exact later.1

theorem count_kind (guards : List Guard) (kind : HandlerKind) :
    (guards.map Guard.kind).count kind = guards.countP fun guard => guard.kind = kind := by
  rw [List.count,countP_map]
  exact countP_congr fun guard _ => by simp

theorem loopExit_enters {target : Around} {level base : Nat} (stable : Stable strict code ctx.site)
    (unwinds : ctx.unwinds = ctx.site.guards.map Guard.kind)
    (leaves : Leaves strict code patches level loop target ctx.site) (patched : continues = true → target.patched = true)
    (uncrossed : strict = true → target.crossed = false)
    (placed : Placed code patches base (loopExit ctx level loop continues)) :
    Enters strict code base (loopExit ctx level loop continues) ctx.site := by
  obtain ⟨address,known,arrived⟩ := leaves.target patched
  have same : strict = true → loop.site.cells = ctx.site.cells := fun holds => (leaves.level holds (uncrossed holds)).1
  have there := arrives_cells same arrived
  obtain ⟨loops,kinds,locals,pending,⟨guards,cells,mode⟩⟩ := ctx
  cases stable.plain
  obtain rfl : kinds = guards.map Guard.kind := unwinds
  simp only [loopExit,length_map,← map_take,count_kind] at placed ⊢
  have cut := take_append_drop (guards.length - loop.unwindDepth) guards
  split at placed
  next quiet =>
    rw [if_pos quiet]
    have silent : ∀ guard ∈ guards.take (guards.length - loop.unwindDepth), guard.kind ≠ .tryFinally := by
      simpa using quiet
    have popped := pops_enter (known none) base silent (by rw [cut]; exact stable.guarded) there
    rw [cut] at popped
    exact popped placed
  next final =>
    rw [if_neg final]
    have found := ((placed_cons _ _ _).mp placed).1
    rw [known] at found
    refine ⟨arrives_line found,checks_line found (fun small => ?_) (stable.line rfl)⟩
    have bounded : (guards.take (guards.length - loop.unwindDepth)).length ≤ 255 := by
      have short : guards.length < 256 := small
      rw [length_take]
      omega
    have fewer : (guards.take (guards.length - loop.unwindDepth)).countP (·.kind = .tryFinally) ≤ 255 :=
      Nat.le_trans countP_le_length bounded
    rw [Nat.min_eq_left bounded,Nat.min_eq_left fewer,length_take,Nat.min_eq_left (Nat.sub_le _ _)]
    exact ⟨Nat.sub_le _ _,rfl,fun holds => (leaves.level holds (uncrossed holds)).2,there⟩

theorem exit_runs {label : Option Label} (stable : Stable strict code ctx.site)
    (exits : Exits strict code patches around ctx) (neat : tidyExit strict around continues label = true) :
    Runs strict code patches base (compileExit ctx continues label) ctx.site ctx.site := by
  intro placed done
  unfold compileExit at placed done ⊢
  rw [tidyExit,← exits.keys] at neat
  cases chosen : exitTarget continues label (ctx.loops.map Loop.key) with
  | none => exact runs_nil (by simpa only [chosen] using placed) (by simpa only [chosen] using done)
  | some index =>
    simp only [chosen] at placed done neat ⊢
    cases found : ctx.loops[index]? with
    | none => exact runs_nil (by simpa only [found] using placed) (by simpa only [found] using done)
    | some loop =>
      have lengths := congrArg List.length exits.keys
      rw [length_map,length_map] at lengths
      have bound : index < around.length := lengths ▸ (List.getElem?_eq_some_iff.mp found).1
      have known : around[index]? = some around[index] := getElem?_eq_getElem bound
      simp only [found,known,Bool.and_eq_true,Bool.not_eq_true'] at placed neat ⊢
      refine loopExit_enters stable exits.unwinds (exits.leaves index loop _ found known) ?_ ?_ placed
      · intro goes
        simpa [goes] using neat.1
      · intro holds
        simpa [holds] using neat.2

end

end Rules

section Pieces
variable {strict : Bool} {code : List Line} {patches : Patches}

theorem runs_goto {target : Nat} {rest : List Line} (mid : Site) (stable : Stable strict code site)
    (there : Arrives strict code target site) (later : Runs strict code patches (base + 1) rest mid out) :
    Runs strict code patches base (⟨.jmp target,site⟩ :: rest) site out :=
  runs_next stable (fun _ => flows_jmp stable.plain there) later

section
variable {site : Site} {locals : Nat} {base made : Nat}

theorem test_runs {base leave : Nat} (test : Option Expr) (stable : Stable strict code site)
    (left : Arrives strict code leave site) : Runs strict code patches base (compileOption site locals base test ++
      if test.isSome then [⟨.jmpFalse leave,site.push .value⟩] else []) site site := by
  cases test with
  | none => exact runs_nil
  | some test =>
    refine runs_append (expr_runs test site locals base stable) ?_
    exact runs_next (stable.push .value) (fun next => ⟨next,left⟩) runs_nil

theorem update_enters {base : Nat} {update : Option Expr} (stable : Stable strict code site)
    (placed : Placed code patches base (compileOption site locals base update ++ if update.isSome then [⟨.pop,site.push .value⟩,⟨.jmp start,site⟩] else [⟨.jmp start,site⟩])) :
    Arrives strict code base site ∧ (Arrives strict code start site → Checks strict code base
      (compileOption site locals base update ++
        if update.isSome then [(⟨.pop,site.push .value⟩ : Line),⟨.jmp start,site⟩] else [⟨.jmp start,site⟩]).length) := by
  cases update with
  | none =>
    have back := ((placed_cons _ _ _).mp placed).1
    exact ⟨arrives_line back,fun there => checks_line back (flows_jmp stable.plain there) (stable.line rfl)⟩
  | some update =>
    obtain ⟨placedUpdate,placedTail⟩ := (placed_append _ _ _).mp placed
    simp only [Option.isSome_some,if_true,placed_cons] at placedTail
    obtain ⟨drops,back,-⟩ := placedTail
    have updated := expr_runs update site locals base stable placedUpdate (arrives_line drops)
    refine ⟨updated.1,fun there => ?_⟩
    rw [length_append]
    exact checks_append updated.2 (checks_cons drops (flows_pop stable.plain (arrives_line back))
      ((stable.push .value).line rfl) (checks_line back (flows_jmp stable.plain there) (stable.line rfl)))

theorem flows_settle (plain : site.mode = .plain) (next : Arrives strict code (base + 1) (site.as .settled)) :
    Flows strict code base ⟨.tryPop,site.guard .tryFinally made⟩ := by
  obtain ⟨guards,cells,mode⟩ := site
  cases plain
  exact ⟨_,_,rfl,by simp,next⟩

theorem runs_finally {base : Nat} {after : List Line} (stable : Stable strict code site)
    (body : Stable strict code (site.guard .finallyBody (base + 3)) → Runs strict code patches (base + 4) after (site.guard .finallyBody (base + 3)) (site.guard .finallyBody (base + 3))) :
    Runs strict code patches base
      (⟨.jmp (base + 3),site.as .settled⟩ :: ⟨.pop,(site.push .value).as .entering⟩ :: ⟨.jmp (base + 3),site.as .ready⟩ ::
        ⟨.finally_ (base + 4 + after.length + 1),site.as .ready⟩ ::
        (after ++ [⟨.finallyRet,site.guard .finallyBody (base + 3)⟩])) (site.as .settled) site := by
  obtain ⟨guards,cells,mode⟩ := site
  cases stable.plain
  intro placed done
  have pieces := placed
  simp only [placed_append,placed_cons] at pieces
  obtain ⟨-,-,-,enters,-,-⟩ := pieces
  have ends : base + 4 + after.length + 1 = base + (after.length + (0 + 1) + 1 + 1 + 1 + 1) := by omega
  have resumes : Arrives strict code (base + 4 + after.length + 1) ⟨guards,cells,.plain⟩ := by
    rw [ends]
    simpa only [length_cons,length_append,length_nil] using done
  have guarded := stable.guard .finallyBody (base + 3) ⟨_,_,enters,resumes⟩
  have jumps : Arrives strict code (base + 1) ⟨guards,.value :: cells,.entering⟩ →
      Flows strict code base ⟨.jmp (base + 3),⟨guards,cells,.settled⟩⟩ := fun _ => arrives_line enters
  refine runs_cons rfl ⟨stable.guarded,rfl⟩ (fun next _ => jumps next) ?_ placed done
  refine runs_cons rfl ⟨(stable.push .value).guarded,rfl⟩ (fun next _ => next) ?_
  refine runs_cons rfl ⟨stable.guarded,rfl⟩ (fun next _ => next) ?_
  refine runs_cons rfl ⟨stable.guarded,rfl⟩ (fun next _ => next) (runs_append (body guarded) ?_)
  exact runs_next guarded (fun _ => ⟨_,_,rfl,rfl,fun _ => rfl⟩) runs_nil

theorem runs_patch {base level breakAt : Nat} {continueAt : Option Nat} {lines : List Line} {site : Site}
    (run : Runs strict code (setPatch patches level breakAt continueAt) base lines site out) :
    Runs strict code patches base (lines.map (patch level breakAt continueAt)) site out := by
  intro placed done
  rw [placed_patch] at placed
  rw [length_map] at done
  have entered := run placed done
  exact ⟨entered.1,by rw [length_map]; exact entered.2⟩

theorem flows_leave (plain : site.mode = .plain) (next : Arrives strict code (base + 1) site) :
    Flows strict code base ⟨.tryPop,(site.guard .tryCatch made).as .leaving⟩ := by
  obtain ⟨guards,cells,mode⟩ := site
  cases plain
  exact ⟨_,_,rfl,by simp,next⟩

theorem runs_forOf_exit {base made locals : Nat} (stable : Stable strict code site)
    (guarded : Stable strict code ((site.iterate made).guard .tryCatch (made + 1)))
    (again : Arrives strict code start ((site.iterate made).guard .tryCatch (made + 1))) : Runs strict code patches base
      [⟨.jmp start,(site.iterate made).guard .tryCatch (made + 1)⟩,
        ⟨.pop,((site.iterate made).guard .tryCatch (made + 1)).push .value⟩,
        ⟨.tryPop,((site.iterate made).guard .tryCatch (made + 1)).as .exhausted⟩,
        ⟨.tryPop,((site.iterate made).guard .tryCatch (made + 1)).as .leaving⟩,⟨.iterClose,site.iterate made⟩,
        ⟨.jmp (base + 11),site⟩,⟨.catch_,(site.iterate made).push .value⟩,
        ⟨.putLocal locals,(site.iterate made).push .value⟩,⟨.iterClose,site.iterate made⟩,⟨.getLocal locals,site⟩,
        ⟨.throw,site.push .value⟩] ((site.iterate made).guard .tryCatch (made + 1)) site := by
  intro placed done
  have pieces := placed
  simp only [placed_cons] at pieces
  obtain ⟨-,-,exhausts,-⟩ := pieces
  have inside := stable.iterate made
  have drops : Arrives strict code (base + 1 + 1) (((site.iterate made).guard .tryCatch (made + 1)).as .exhausted) →
      Flows strict code (base + 1) ⟨.pop,((site.iterate made).guard .tryCatch (made + 1)).push .value⟩ :=
    fun _ => flows_pop guarded.plain (arrives_exit strict exhausts (Or.inr rfl) guarded.plain)
  refine runs_goto (((site.iterate made).guard .tryCatch (made + 1)).push .value) guarded again ?_ placed done
  refine runs_next (guarded.push .value) drops ?_
  refine runs_cons rfl ⟨guarded.guarded,rfl⟩ (fun next _ => ⟨_,_,rfl,by simp,next⟩) ?_
  refine runs_cons rfl ⟨guarded.guarded,rfl⟩ (fun next _ => flows_leave inside.plain next) ?_
  refine runs_on inside (runs_goto ((site.iterate made).push .value) stable done ?_)
  refine runs_on (inside.push .value) ?_
  refine runs_on (inside.push .value) ?_
  refine runs_on inside (runs_on stable ?_)
  exact runs_next (stable.push .value) (fun _ _ => rfl) runs_nil

theorem param_runs (param : Option Pattern) {locals base : Nat} (stable : Stable strict code site) :
    Runs strict code patches base (match param with
      | none => [⟨.pop,site.push .value⟩]
      | some target => storeTop true site locals base target) (site.push .value) site := by
  cases param with
  | none => exact runs_pop stable runs_nil
  | some target => exact storeTop_runs stable

end

end Pieces

section Switch
variable {strict : Bool} {code : List Line} {patches : Patches}

variable (strict code) in
def BodiesOpen (ctx : Ctx) (base : Nat) : Cases → Prop
  | .nil => True
  | .cons _ body rest =>
    Arrives strict code base ctx.site ∧ BodiesOpen ctx (base + (compileStmt ctx base body).length) rest

variable (strict code) in
def StubsOpen (site : Site) (stub : Nat) : Cases → Prop
  | .nil => True
  | .cons none _ rest => StubsOpen site stub rest
  | .cons (some _) _ rest => Arrives strict code stub (site.push .value) ∧ StubsOpen site (stub + 2) rest

theorem caseTests_length (site : Site) (locals : Nat) : ∀ (cases : Cases) (base stub other : Nat),
    (caseTests site locals base stub cases).length = (caseTests site locals base other cases).length
  | .nil,_,_,_ => rfl
  | .cons none _ rest,base,stub,other => caseTests_length site locals rest base stub other
  | .cons (some test) _ rest,base,stub,other => by
    simp only [caseTests,length_cons,length_append,caseTests_length site locals rest _ (stub + 2) (other + 2)]

theorem caseStubs_length (ctx : Ctx) : ∀ (cases : Cases) (base other : Nat),
    (caseStubs ctx base cases).length = (caseStubs ctx other cases).length
  | .nil,_,_ => rfl
  | .cons none _ rest,_,_ => caseStubs_length ctx rest _ _
  | .cons (some _) _ rest,_,_ => congrArg (· + 2) (caseStubs_length ctx rest _ _)

theorem caseTests_runs {site : Site} (locals : Nat) (stable : Stable strict code site) : ∀ (cases : Cases) (base stub : Nat),
    StubsOpen strict code site stub cases →
    Runs strict code patches base (caseTests site locals base stub cases) (site.push .value) (site.push .value)
  | .nil,base,_,_ => runs_nil
  | .cons none _ rest,base,stub,opened => caseTests_runs locals stable rest base stub opened
  | .cons (some test) _ rest,base,stub,opened => by
    refine runs_next (stable.push .value) (fun next => ⟨next,fun _ => rfl⟩) ?_
    refine runs_append (expr_runs test _ locals _ (stable.values 2)) ?_
    refine runs_on (stable.values 3) ?_
    exact runs_next (stable.values 2) (fun next => ⟨next,opened.1⟩) (caseTests_runs locals stable rest _ _ opened.2)

theorem caseStubs_enter (ctx : Ctx) (stable : Stable strict code ctx.site) : ∀ (cases : Cases) (base stub : Nat),
    BodiesOpen strict code ctx base cases → Placed code patches stub (caseStubs ctx base cases) →
    StubsOpen strict code ctx.site stub cases ∧ Checks strict code stub (caseStubs ctx base cases).length
  | .nil,_,stub,_,_ => ⟨trivial,checks_zero⟩
  | .cons none body rest,base,stub,opened,placed =>
    caseStubs_enter ctx stable rest _ stub opened.2 placed
  | .cons (some _) body rest,base,stub,opened,placed => by
    simp only [caseStubs,placed_cons] at placed
    obtain ⟨drops,goes,placedRest⟩ := placed
    have later := caseStubs_enter ctx stable rest _ _ opened.2 placedRest
    refine ⟨⟨arrives_line drops,later.1⟩,?_⟩
    exact checks_cons drops (flows_pop stable.plain (arrives_line goes)) ((stable.push .value).line rfl)
      (checks_cons goes (flows_jmp stable.plain opened.1) (stable.line rfl) later.2)

theorem defaultStart_arrives (ctx : Ctx) (done : Nat) (finish : Arrives strict code done ctx.site) : ∀ (cases : Cases) (base : Nat),
    BodiesOpen strict code ctx base cases →
    Arrives strict code ((defaultStart ctx base cases).getD done) ctx.site
  | .nil,_,_ => finish
  | .cons test body rest,base,opened => by
    have later := defaultStart_arrives ctx done finish rest _ opened.2
    cases chosen : defaultStart ctx (base + (compileStmt ctx base body).length) rest with
    | some start => simpa [defaultStart,chosen] using later
    | none => cases test <;> simp_all [defaultStart,opened.1]

end Switch

section Induction
variable {strict : Bool} {code : List Line}

mutual

theorem stmt_runs : ∀ (stmt : Stmt) (ctx : Ctx) (around : List Around) (patches : Patches) (base : Nat),
    Stable strict code ctx.site → Exits strict code patches around ctx → tidy strict around ctx.pending stmt = true →
    Runs strict code patches base (compileStmt ctx base stmt) ctx.site ctx.site
  | .empty,ctx,_,_,base,_,_,_ => runs_nil
  | .seq first second,ctx,around,patches,base,stable,exits,neat => by
    obtain ⟨one,two⟩ := Bool.and_eq_true_iff.mp neat
    exact runs_append (stmt_runs first ctx.plain around patches base stable exits.plain one)
      (stmt_runs second ctx.plain around patches _ stable exits.plain two)
  | .expr value,ctx,_,_,base,stable,_,_ =>
    runs_append (expr_runs value ctx.site ctx.locals base stable) (runs_pop stable runs_nil)
  | .declare binds target value,ctx,_,_,base,stable,_,_ =>
    runs_append (expr_runs value ctx.site ctx.locals base stable) (storeTop_runs stable)
  | .ifThen test yes,ctx,around,patches,base,stable,exits,neat => by
    refine runs_append (expr_runs test ctx.site ctx.locals base stable) ?_
    exact runs_cons rfl ((stable.push .value).line rfl) (fun next done => ⟨next,done⟩)
      (stmt_runs yes ctx.plain around patches _ stable exits.plain neat)
  | .ifElse test yes no,ctx,around,patches,base,stable,exits,neat => by
    obtain ⟨one,two⟩ := Bool.and_eq_true_iff.mp neat
    intro placed done
    simp only [compileStmt,placed_append,placed_cons] at placed
    obtain ⟨placedTest,branch,placedYes,skip,placedNo⟩ := placed
    have ends : ∀ first second third, base + (first + (second + (third + 1) + 1)) = base + first + 1 + second + 1 + third := by
      omega
    simp only [compileStmt,length_append,length_cons,ends] at done
    have other := stmt_runs no ctx.plain around patches _ stable exits.plain two placedNo done
    have first := stmt_runs yes ctx.plain around patches _ stable exits.plain one placedYes (arrives_line skip)
    have tested := expr_runs test ctx.site ctx.locals base stable placedTest (arrives_line branch)
    refine ⟨tested.1,?_⟩
    simp only [compileStmt,length_append,length_cons]
    refine checks_append tested.2 (checks_cons branch ⟨first.1,other.1⟩ ((stable.push .value).line rfl) ?_)
    exact checks_append first.2 (checks_cons skip (flows_jmp stable.plain done) (stable.line rfl) other.2)
  | .whileLoop test body,ctx,around,patches,base,stable,exits,neat => by
    intro placed done
    simp only [compileStmt,placed_append,placed_cons,placed_patch,length_map] at placed
    obtain ⟨placedTest,branch,placedBody,back,-⟩ := placed
    simp only [compileStmt,length_append,length_cons,length_map,length_nil] at done ⊢
    have ends : ∀ first second, base + (first + (second + (0 + 1) + 1)) = base + first + 1 + second + 1 := by omega
    rw [ends] at done
    have tested := expr_runs test ctx.site ctx.locals base stable placedTest (arrives_line branch)
    have inner := exits.pushLoop none false true _ _ stable.plain done fun _ => ⟨_,rfl,arrives_line back⟩
    have run := stmt_runs body (ctx.pushLoop none false) _ _ _ stable inner neat placedBody (arrives_line back)
    refine ⟨tested.1,?_⟩
    simp only [length_append,length_cons,length_map,length_nil]
    refine checks_append tested.2 (checks_cons branch ⟨run.1,done⟩ ((stable.push .value).line rfl) ?_)
    exact checks_append run.2 (checks_line back (flows_jmp stable.plain tested.1) (stable.line rfl))
  | .doWhile body test,ctx,around,patches,base,stable,exits,neat => by
    intro placed done
    simp only [compileStmt,placed_append,placed_cons,placed_patch,length_map] at placed
    obtain ⟨placedBody,placedTest,branch,back,-⟩ := placed
    simp only [compileStmt,length_append,length_cons,length_map,length_nil] at done ⊢
    have ends : ∀ first second, base + (first + (second + (0 + 1 + 1))) = base + first + second + 2 := by omega
    rw [ends] at done
    have tested := expr_runs test ctx.site ctx.locals _ stable placedTest (arrives_line branch)
    have inner := exits.pushLoop none false true _ _ stable.plain done fun _ => ⟨_,rfl,tested.1⟩
    have run := stmt_runs body (ctx.pushLoop none false) _ _ _ stable inner neat placedBody tested.1
    refine ⟨run.1,?_⟩
    simp only [length_append,length_cons,length_map,length_nil]
    refine checks_append run.2 (checks_append tested.2 ?_)
    exact checks_cons branch ⟨arrives_line back,done⟩ ((stable.push .value).line rfl)
      (checks_line back (flows_jmp stable.plain run.1) (stable.line rfl))
  | .forLoop init test update body,ctx,around,patches,base,stable,exits,neat => by
    obtain ⟨one,two⟩ := Bool.and_eq_true_iff.mp neat
    intro placed done
    have leave : ∀ target, (if test.isSome then [(⟨.jmpFalse target,ctx.site.push .value⟩ : Line)] else []).length =
        if test.isSome then 1 else 0 := by
      intro target
      cases test <;> rfl
    simp only [compileStmt,placed_append,placed_patch,length_map,leave] at placed
    obtain ⟨placedInit,placedTest,placedLeave,placedBody,placedUpdate,placedTail⟩ := placed
    simp only [compileStmt,length_append,length_map,leave,← Nat.add_assoc] at done
    have updated := update_enters stable ((placed_append _ _ _).mpr ⟨placedUpdate,placedTail⟩)
    have inner := exits.pushLoop none false true _ _ stable.plain done fun _ => ⟨_,rfl,updated.1⟩
    have run := stmt_runs body (ctx.pushLoop none false) _ _ _ stable inner two placedBody updated.1
    have tested := test_runs test stable done ((placed_append _ _ _).mpr ⟨placedTest,placedLeave⟩)
      (by rw [length_append,leave,← Nat.add_assoc]; exact run.1)
    have first := stmt_runs init ctx.plain around patches base stable exits.plain one placedInit tested.1
    refine ⟨first.1,?_⟩
    have tail := checks_append run.2 (updated.2 tested.1)
    have middle := checks_append tested.2 (by rw [length_append,leave,← Nat.add_assoc]; exact tail)
    have whole := checks_append first.2 middle
    simpa only [compileStmt,length_append,length_map,Nat.add_assoc] using whole
  | .forIn binds target source body,ctx,around,patches,base,stable,exits,neat => by
    intro placed done
    have pieces := placed
    simp only [compileStmt,placed_append,placed_cons,placed_patch,length_map] at pieces
    obtain ⟨-,-,-,-,-,starts,-,-,-,-,-,-,-,-,-,nexts,-⟩ := pieces
    have left := done
    simp only [compileStmt,length_append,length_cons,length_map,length_nil] at left
    have ends : ∀ sourced stored body,
        base + (sourced + (stored + (body + (0 + 1 + 1 + 1 + 1)) + 1 + 1 + 1 + 1 + 1 + 1 + 1 + 1 + 1 + 1 + 1 + 1)) =
          base + sourced + 4 + 8 + stored + body + 4 := by omega
    rw [ends] at left
    have inner := (exits.pushLoop none false true _ _ stable.plain left fun _ => ⟨_,rfl,arrives_line nexts⟩).reserve
      (ctx.locals + 2)
    refine runs_append (expr_runs source ctx.site ctx.locals base stable) ?_ placed done
    refine runs_on (stable.push .value) ?_
    refine runs_on (stable.push .value) (runs_on stable ?_)
    refine runs_on (stable.push .value) (runs_on stable ?_)
    refine runs_on (stable.push .value) (runs_on (stable.values 2) ?_)
    refine runs_on (stable.values 2) ?_
    refine runs_next (stable.push .value) (fun next => ⟨next,left⟩) (runs_on stable ?_)
    refine runs_on (stable.push .value) (runs_on (stable.values 2) ?_)
    refine runs_append (storeTop_runs stable) ?_
    refine runs_append (runs_patch (stmt_runs body {ctx.pushLoop none false with locals := ctx.locals + 2} _ _ _ stable
      inner neat)) ?_
    refine runs_on stable (runs_on (stable.push .value) ?_)
    refine runs_on (stable.push .value) ?_
    exact runs_goto ctx.site stable (arrives_line starts) runs_nil
  | .forOf binds target source body,ctx,around,patches,base,stable,exits,neat => by
    intro placed done
    have pieces := placed
    simp only [compileStmt,placed_append,placed_cons,placed_patch,length_map] at pieces
    obtain ⟨-,-,pushes,again,-,-,-,nexts,ends,-,leaves,-,-,catches,-⟩ := pieces
    have inside := stable.iterate (base + (compileExpr ctx.site ctx.locals base source).length)
    have guarded := inside.guard .tryCatch _ ⟨_,_,pushes,arrives_plain catches (inside.push .value).plain⟩
    -- The breaks arrive at the second TRY_POP of the exit, the end of the iteration at the first.
    have breaks := arrives_exit strict leaves (Or.inl rfl) guarded.plain
    have inner := (exits.cross _ (ctx.locals + 1)).pushLoop none false true _ _ guarded.plain breaks
      fun _ => ⟨_,rfl,arrives_line nexts⟩
    refine runs_append (expr_runs source ctx.site ctx.locals base stable) ?_ placed done
    refine runs_next (stable.push .value) (fun next => ⟨next,fun _ => rfl⟩) (runs_on inside ?_)
    refine runs_next guarded (fun next => ⟨next,_,rfl⟩) ?_
    refine runs_next (guarded.values 2) (fun next => ⟨next,arrives_line ends⟩) ?_
    refine runs_append (storeTop_runs guarded) ?_
    refine runs_append (runs_patch (stmt_runs body _ _ _ _ guarded inner neat)) ?_
    rw [length_map]
    exact runs_forOf_exit stable guarded (arrives_line again)
  | .ret none,ctx,_,_,base,stable,_,_ =>
    runs_on stable (runs_next (stable.push .value) (fun _ _ => rfl) runs_nil)
  | .ret (some value),ctx,_,_,base,stable,_,_ => fun placed _ => tailReturn_enters stable value base placed
  | .raise value,ctx,_,_,base,stable,_,_ =>
    fun placed _ => abrupt_enters .throw (fun _ _ => rfl) ⟨rfl,rfl⟩ value ctx.locals base stable placed
  | .exit continues label,ctx,_,_,_,stable,exits,neat => exit_runs stable exits neat
  | .tryCatch body param handler,ctx,around,patches,base,stable,exits,neat => by
    obtain ⟨one,two⟩ := Bool.and_eq_true_iff.mp neat
    intro placed done
    have pieces := placed
    simp only [compileStmt,placed_append,placed_cons] at pieces
    obtain ⟨pushes,-,-,-,catches,-⟩ := pieces
    have guarded : Stable strict code (ctx.site.guard .tryCatch base) :=
      stable.guard .tryCatch base ⟨_,_,pushes,arrives_plain catches (stable.push .value).plain⟩
    refine runs_on stable ?_ (fun next => next) ⟨rfl,rfl⟩ placed done
    refine runs_append (stmt_runs body (ctx.plain.unwind .tryCatch base) around patches _ guarded
      (exits.plain.unwind .tryCatch base) one) ?_
    refine runs_next guarded (flows_tryPop stable.plain) ?_
    refine runs_jump (ctx.site.push .value) stable ?_ ?_
    · simp only [length_cons,length_append]
      omega
    exact runs_on (stable.push .value) (runs_append (param_runs param stable)
      (stmt_runs handler ctx.plain around patches _ stable exits.plain two))
  | .tryFinally body final,ctx,around,patches,base,stable,exits,neat => by
    obtain ⟨one,two⟩ := Bool.and_eq_true_iff.mp neat
    intro placed done
    have pieces := placed
    simp only [compileStmt,placed_append,placed_cons] at pieces
    obtain ⟨pushes,-,-,-,enters,-⟩ := pieces
    have guarded : Stable strict code (ctx.site.guard .tryFinally base) :=
      stable.guard .tryFinally base ⟨_,_,pushes,arrives_line enters⟩
    refine runs_on stable ?_ (fun next => next) ⟨rfl,rfl⟩ placed done
    refine runs_append (stmt_runs body (ctx.plain.unwind .tryFinally base) around patches _ guarded
      (exits.plain.unwind .tryFinally base) one) ?_
    refine runs_next guarded (flows_settle stable.plain) ?_
    exact runs_finally stable fun inside => stmt_runs final (ctx.plain.unwind .finallyBody _) around patches _ inside
      (exits.plain.unwind .finallyBody _) two
  | .tryBoth body param handler final,ctx,around,patches,base,stable,exits,neat => by
    obtain ⟨protects,three⟩ := Bool.and_eq_true_iff.mp neat
    obtain ⟨one,two⟩ := Bool.and_eq_true_iff.mp protects
    intro placed done
    have pieces := placed
    simp only [compileStmt,placed_append,placed_cons] at pieces
    obtain ⟨pushes,pushesInner,-,-,-,catches,-,-,settles,-,enters,-⟩ := pieces
    have outer : Stable strict code (ctx.site.guard .tryFinally base) :=
      stable.guard .tryFinally base ⟨_,_,pushes,arrives_line enters⟩
    have inner : Stable strict code ((ctx.site.guard .tryFinally base).guard .tryCatch (base + 1)) :=
      outer.guard .tryCatch (base + 1) ⟨_,_,pushesInner,arrives_plain catches (outer.push .value).plain⟩
    refine runs_on stable (runs_on outer ?_) (fun next => next) ⟨rfl,rfl⟩ placed done
    refine runs_append (stmt_runs body ((ctx.plain.unwind .tryFinally base).unwind .tryCatch (base + 1)) around patches _
      inner ((exits.plain.unwind .tryFinally base).unwind .tryCatch (base + 1)) one) ?_
    refine runs_next inner (flows_tryPop outer.plain) ?_
    refine runs_goto ((ctx.site.guard .tryFinally base).push .value) outer (arrives_line settles) ?_
    refine runs_on (outer.push .value) (runs_append (param_runs param outer) ?_)
    refine runs_append (stmt_runs handler (ctx.plain.unwind .tryFinally base) around patches _ outer
      (exits.plain.unwind .tryFinally base) two) ?_
    refine runs_next outer (flows_settle stable.plain) ?_
    exact runs_finally stable fun inside => stmt_runs final (ctx.plain.unwind .finallyBody _) around patches _ inside
      (exits.plain.unwind .finallyBody _) three
  | .switch value cases,ctx,around,patches,base,stable,exits,neat => by
    intro placed done
    simp only [compileStmt] at placed done ⊢
    generalize testCount : (caseTests ctx.site ctx.locals _ 0 cases).length = tests at *
    have testLength : ∀ stub, (caseTests ctx.site ctx.locals (base + (compileExpr ctx.site ctx.locals base value).length)
        stub cases).length = tests := fun stub => (caseTests_length _ _ cases _ _ _).trans testCount
    generalize stubCount : (caseStubs (ctx.plain.pushLoop none true) 0 cases).length = stubs at *
    have stubLength : ∀ start, (caseStubs (ctx.plain.pushLoop none true) start cases).length = stubs :=
      fun start => (caseStubs_length _ cases _ _).trans stubCount
    simp only [placed_append,placed_cons,placed_patch,testLength,stubLength] at placed
    obtain ⟨placedValue,placedTests,defaults,placedStubs,drops,goes,placedBodies⟩ := placed
    simp only [length_append,length_cons,length_map,testLength,stubLength] at done
    have ends : ∀ valued bodies, base + (valued + (tests + (stubs + (bodies + 1 + 1) + 1))) =
        base + valued + tests + 1 + stubs + 2 + bodies := by omega
    rw [ends] at done
    have inner := exits.plain.pushLoop none true false _ none stable.plain done (by simp)
    have bodies := caseBodies_run cases (ctx.plain.pushLoop none true) _ _ _ stable inner rfl neat placedBodies done
    have stubsOpen := caseStubs_enter (ctx.plain.pushLoop none true) stable cases _ _ bodies.2 placedStubs
    have tested := caseTests_runs ctx.locals stable cases _ _ stubsOpen.1 placedTests
      (by rw [testLength]; exact arrives_line defaults)
    have valued := expr_runs value ctx.site ctx.locals base stable placedValue tested.1
    have chosen := defaultStart_arrives (ctx.plain.pushLoop none true) _ done cases _ bodies.2
    refine ⟨valued.1,?_⟩
    have last := checks_cons drops (flows_pop stable.plain (arrives_line goes)) ((stable.push .value).line rfl)
      (checks_cons goes (flows_jmp stable.plain chosen) (stable.line rfl) bodies.1.2)
    have middle := checks_cons defaults (flows_jmp (stable.push .value).plain (arrives_line drops))
      ((stable.push .value).line rfl) (checks_append stubsOpen.2 (by rw [stubLength]; exact last))
    have whole := checks_append valued.2 (checks_append tested.2 (by rw [testLength]; exact middle))
    simpa only [length_append,length_cons,length_map] using whole
  | .labelled label body,ctx,around,patches,base,stable,exits,neat => by
    simp only [compileStmt,tidy] at neat ⊢
    split
    next loops =>
      rw [if_pos loops] at neat
      exact stmt_runs body {ctx with pending := some label} around patches base stable (exits.pend _) neat
    next =>
      rw [if_neg (by assumption)] at neat
      intro placed done
      rw [placed_patch] at placed
      rw [length_map] at done
      have inner := exits.plain.pushLoop (some label) false false _ none stable.plain done (by simp)
      have run := stmt_runs body (ctx.plain.pushLoop (some label) false) _ _ _ stable inner neat placed done
      exact ⟨run.1,by rw [length_map]; exact run.2⟩
termination_by structural stmt => stmt

theorem caseBodies_run : ∀ (cases : Cases) (ctx : Ctx) (around : List Around) (patches : Patches) (base : Nat),
    Stable strict code ctx.site → Exits strict code patches around ctx → ctx.pending = none →
    tidyCases strict around cases = true → Placed code patches base (caseBodies ctx base cases) →
    Arrives strict code (base + (caseBodies ctx base cases).length) ctx.site →
    Enters strict code base (caseBodies ctx base cases) ctx.site ∧ BodiesOpen strict code ctx base cases
  | .nil,ctx,_,_,base,_,_,_,_,_,done => ⟨⟨done,checks_zero⟩,trivial⟩
  | .cons test body rest,ctx,around,patches,base,stable,exits,unlabelled,neat,placed,done => by
    obtain ⟨one,two⟩ := Bool.and_eq_true_iff.mp neat
    simp only [caseBodies,placed_append] at placed
    simp only [caseBodies,length_append,← Nat.add_assoc] at done
    have later := caseBodies_run rest ctx around patches _ stable exits unlabelled two placed.2 done
    have first := stmt_runs body ctx around patches base stable exits (unlabelled ▸ one) placed.1 later.1.1
    refine ⟨⟨first.1,?_⟩,first.1,later.2⟩
    simp only [caseBodies,length_append]
    exact checks_append first.2 later.1.2
termination_by structural cases => cases

end

end Induction

theorem resolve_unpatched (line : Line) : resolve (fun _ => none) line = line := by
  obtain ⟨instr,site⟩ := line
  cases instr <;> rfl

theorem function_placed (body : Stmt) : Placed (compileFunction body) (fun _ => none) 0 (compileFunction body) := by
  rw [Placed,map_congr_left fun line _ => resolve_unpatched line,map_id']
  exact Library.Layout.stands_whole

theorem function_flows {strict : Bool} {body : Stmt} (neat : tidy strict [] none body = true)
    (consume : strict = true → storesConsume (compileFunction body) = true) :
    Enters strict (compileFunction body) 0 (compileFunction body) ⟨[],[],.plain⟩ := by
  have stable : Stable strict (compileFunction body) ⟨[],[],.plain⟩ := ⟨trivial,rfl,consume⟩
  have exits : Exits strict (compileFunction body) (fun _ => none) [] ⟨[],[],0,none,⟨[],[],.plain⟩⟩ :=
    ⟨rfl,rfl,fun index loop target found _ => by simp at found⟩
  have pieces := function_placed body
  nth_rewrite 2 [compileFunction] at pieces
  simp only [placed_append,placed_cons] at pieces
  obtain ⟨placedBody,values,returns,-⟩ := pieces
  have run := stmt_runs body ⟨[],[],0,none,⟨[],[],.plain⟩⟩ [] (fun _ => none) 0 stable exits neat placedBody
    (arrives_line values)
  refine ⟨run.1,?_⟩
  have last := checks_cons values (arrives_line returns) (stable.line rfl)
    (checks_line returns (fun _ => rfl) ((stable.push .value).line rfl))
  have whole := checks_append run.2 last
  simpa only [compileFunction,length_append,length_cons,length_nil] using whole

end Ant.Silver.StmtFlow

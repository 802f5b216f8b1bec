import Ant.Silver.Flow

/-! The code of every expression and pattern leads from the stack it starts with to that stack with its value,
and what it jumps to expects the same. -/
namespace Ant.Silver.ExprFlow
open Syntax Bytecode Compiler Silver.Flow List

/-- No store to a private member stands where the value is to leave the stack. -/
def storesConsume (code : List Line) : Bool := code.all fun line => line.instr != .putPrivate false

section Sites
variable (strict : Bool) (code : List Line)

structure Stable (site : Site) : Prop where
  guarded : Guarded strict code site.cells site.guards
  plain : site.mode = .plain
  consume : strict = true → storesConsume code = true

end Sites

section Rules
variable {strict : Bool} {code : List Line} {patches : Patches}

section
variable {site : Site} (stable : Stable strict code site)
include stable

theorem Stable.push (kind : Kind) : Stable strict code (site.push kind) :=
  ⟨guarded_push stable.guarded,stable.plain,stable.consume⟩

theorem Stable.values (count : Nat) : Stable strict code (site.values count) :=
  ⟨guarded_append stable.guarded,stable.plain,stable.consume⟩

theorem Stable.iterate (made : Nat) : Stable strict code (site.iterate made) :=
  ⟨guarded_append stable.guarded,stable.plain,stable.consume⟩

theorem Stable.guard (kind : HandlerKind) (made : Nat) (leads : Leads strict code ⟨kind,made,site.cells⟩ site.guards) :
    Stable strict code (site.guard kind made) :=
  ⟨⟨fun _ => suffix_refl _,leads,stable.guarded⟩,stable.plain,stable.consume⟩

theorem Stable.line {instr : Instr} (ordinary : fits instr .plain = true) :
    Sited strict code ⟨instr,site⟩ := ⟨stable.guarded,by rw [stable.plain]; exact ordinary⟩

end

section
variable {base : Nat} {rest : List Line} {site : Site} {elements : Site → Nat → List Line} {keep consume : Bool}

theorem push_values (site : Site) (count : Nat) : (site.push .value).values count = site.values (count + 1) := by
  simp only [Site.push,Site.values,replicate_succ',append_assoc,singleton_append]

theorem drop_values (site : Site) (count : Nat) : (site.values count).drop count = site := by
  simp [Site.values,Site.drop]

theorem drop_push_values (site : Site) (count : Nat) : ((site.push .value).values count).drop (count + 1) = site := by
  rw [push_values,drop_values]

theorem runs_next {line : Line} {mid out : Site} (stable : Stable strict code line.site)
    (flows : Arrives strict code (base + 1) mid → Flows strict code base line)
    (later : Runs strict code patches (base + 1) rest mid out)
    (kept : resolve patches line = line ∧ fits line.instr .plain = true := by exact ⟨rfl,rfl⟩) :
    Runs strict code patches base (line :: rest) line.site out :=
  runs_cons kept.1 (stable.line kept.2) (fun next _ => flows next) later

theorem runs_on {line : Line} {mid out : Site} (stable : Stable strict code line.site)
    (later : Runs strict code patches (base + 1) rest mid out)
    (flows : Arrives strict code (base + 1) mid → Flows strict code base line := by exact fun next => next)
    (kept : resolve patches line = line ∧ fits line.instr .plain = true := by exact ⟨rfl,rfl⟩) :
    Runs strict code patches base (line :: rest) line.site out := runs_next stable flows later kept

theorem flows_pop {kind : Kind} (plain : site.mode = .plain) (next : Arrives strict code (base + 1) site) :
    Flows strict code base ⟨.pop,site.push kind⟩ := by
  have other : (site.push kind).mode ≠ .entering := by
    rw [show (site.push kind).mode = .plain from plain]
    decide
  simp only [Flows,if_neg other]
  exact next

theorem flows_jmp {base target : Nat} (plain : site.mode = .plain) (there : Arrives strict code target site) :
    Flows strict code base ⟨.jmp target,site⟩ := by
  simpa [Flows,plain] using there

theorem flows_tryPop {base made : Nat} (plain : site.mode = .plain) (next : Arrives strict code (base + 1) site) :
    Flows strict code base ⟨.tryPop,site.guard .tryCatch made⟩ := by
  obtain ⟨guards,cells,mode⟩ := site
  cases plain
  exact ⟨_,_,rfl,by simp,next⟩

theorem runs_pop {site out : Site} (stable : Stable strict code site)
    (later : Runs strict code patches (base + 1) rest site out) :
    Runs strict code patches base (⟨.pop,site.push .value⟩ :: rest) (site.push .value) out :=
  runs_next (stable.push .value) (flows_pop stable.plain) later

theorem runs_jump {base target : Nat} (mid : Site) (stable : Stable strict code site)
    (ends : target = base + 1 + rest.length) (later : Runs strict code patches (base + 1) rest mid site) :
    Runs strict code patches base (⟨.jmp target,site⟩ :: rest) site site :=
  runs_cons rfl (stable.line rfl) (fun _ done => flows_jmp stable.plain (ends ▸ done)) later

theorem runs_default {site out : Site} {value rest : List Line} (stable : Stable strict code site)
    (run : Runs strict code patches (base + 4) value site (site.push .value))
    (later : Runs strict code patches (base + 4 + value.length) rest (site.push .value) out) :
    Runs strict code patches base (⟨.dup,site.push .value⟩ :: ⟨.op 1,site.values 2⟩ ::
      ⟨.jmpFalse (base + 4 + value.length),site.values 2⟩ :: ⟨.pop,site.push .value⟩ :: (value ++ rest))
      (site.push .value) out := by
  intro placed done
  have pieces := placed
  simp only [placed_cons,placed_append] at pieces
  obtain ⟨-,-,-,-,-,placedRest⟩ := pieces
  have ends : base + 4 + value.length + rest.length = base + (value.length + rest.length + 4) := by omega
  have used := later placedRest (by simpa [ends] using done)
  refine runs_next (stable.push .value) (fun next => ⟨next,fun _ => rfl⟩) ?_ ⟨rfl,rfl⟩ placed done
  refine runs_on (stable.values 2) ?_
  exact runs_next (stable.values 2) (fun next => ⟨next,used.1⟩) (runs_pop stable (runs_append run later))

theorem runs_private (stable : Stable strict code site) :
    Runs strict code patches base [⟨.putPrivate keep,site.values 3⟩] (site.values 3)
      (if keep then site.push .value else site) := by
  cases keep with
  | true => exact runs_next (stable.values 3) (fun next => next) runs_nil
  | false =>
    intro placed done
    obtain ⟨found,-⟩ := (placed_cons _ _ _).mp placed
    -- The value stays; strictly there is no such line.
    have loose : strict ≠ true := fun holds => by
      simpa [resolve] using List.all_eq_true.mp (stable.consume holds) _ (mem_of_getElem? found)
    obtain ⟨there,known,guards,-,modes⟩ := done
    exact ⟨arrives_line found,checks_line found ⟨there,known,guards,fun holds => absurd holds loose,modes⟩
      ((stable.values 3).line rfl)⟩

theorem runs_iterated {below : Site} {locals made : Nat} (stable : Stable strict code below)
    (inner : ∀ inside start, Stable strict code inside → Runs strict code patches start (elements inside start) inside inside) :
    Runs strict code patches made (iterated below locals made elements) (below.push .value) below := by
  intro placed done
  have inside := stable.iterate made
  have pieces := placed
  simp only [iterated,placed_cons,placed_append] at pieces
  obtain ⟨-,pushes,-,-,-,-,catches,-⟩ := pieces
  have guarded : Stable strict code ((below.iterate made).guard .tryCatch (made + 1)) :=
    inside.guard .tryCatch (made + 1) ⟨_,_,pushes,arrives_plain catches (inside.push .value).plain⟩
  refine runs_next (stable.push .value) (fun next => ⟨next,fun _ => rfl⟩) ?_ ⟨rfl,rfl⟩ placed done
  refine runs_on inside (runs_append (inner _ _ guarded) ?_)
  refine runs_next guarded (flows_tryPop inside.plain) (runs_on inside ?_)
  refine runs_jump ((below.iterate made).push .value) stable (by simp) ?_
  refine runs_on (inside.push .value) ?_
  refine runs_on (inside.push .value) ?_
  refine runs_on inside (runs_on stable ?_)
  exact runs_next (stable.push .value) (fun _ _ => rfl) runs_nil

theorem runs_array {locals base : Nat} (stable : Stable strict code site)
    (inner : ∀ inside start, Stable strict code inside → Runs strict code patches start (elements inside start) inside inside) :
    Runs strict code patches base (arrayPattern keep consume site locals base elements) (site.push .value)
      (if keep || !consume then site.push .value else site) := by
  unfold arrayPattern
  split
  next =>
    exact runs_next (stable.push .value) (fun next => ⟨next,fun _ => rfl⟩) (runs_iterated (stable.push .value) inner)
  next => exact runs_iterated stable inner

theorem runs_object (properties : Site → Nat → List Line) (stable : Stable strict code site)
    (inner : ∀ below start, Stable strict code below → Runs strict code patches start (properties (below.push .value) start) (below.push .value) (below.push .value)) :
    Runs strict code patches base (objectPattern keep consume site base properties) (site.push .value)
      (let below := if keep then site.push .value else site
       if consume then below else below.push .value) := by
  have core : ∀ below start, Stable strict code below →
      Runs strict code patches start (properties (below.push .value) start ++
        if consume then [⟨.pop,below.push .value⟩] else []) (below.push .value)
        (if consume then below else below.push .value) := by
    intro below start stable
    refine runs_append (inner below start stable) ?_
    cases consume with
    | true => exact runs_pop stable runs_nil
    | false => exact runs_nil
  cases keep with
  | true =>
    exact runs_next (stable.push .value) (fun next => ⟨next,fun _ => rfl⟩) (core _ _ (stable.push .value))
  | false => exact core _ _ stable

end

end Rules

section Induction
variable {strict : Bool} {code : List Line} {patches : Patches} {site : Site}

mutual

theorem expr_runs : ∀ (expr : Expr) (site : Site) (locals base : Nat), Stable strict code site →
    Runs strict code patches base (compileExpr site locals base expr) site (site.push .value)
  | .leaf,site,_,_,stable => runs_on stable runs_nil
  | .op operands,site,locals,base,stable => by
    refine runs_append (exprs_run operands site locals base stable) ?_
    refine runs_next (stable.values _) (fun next => ?_) runs_nil
    simp only [Flows,drop_values]
    exact next
  | .ternary test yes no,site,locals,base,stable => by
    intro placed done
    simp only [compileExpr,placed_append,placed_cons,length_append,length_cons] at placed done ⊢
    obtain ⟨placedTest,branch,placedYes,skip,placedNo⟩ := placed
    have ends : ∀ first second third, base + (first + (second + (third + 1) + 1)) = base + first + 1 + second + 1 + third := by
      omega
    rw [ends] at done
    have other := expr_runs no site locals _ stable placedNo done
    have first := expr_runs yes site locals _ stable placedYes (arrives_line skip)
    have tested := expr_runs test site locals base stable placedTest (arrives_line branch)
    refine ⟨tested.1,?_⟩
    rw [length_append,length_cons,length_append,length_cons]
    refine checks_append tested.2 (checks_cons branch ⟨first.1,other.1⟩ ((stable.push .value).line rfl) ?_)
    exact checks_append first.2 (checks_cons skip (flows_jmp (stable.push .value).plain done)
      ((stable.push .value).line rfl) other.2)
  | .logical left right,site,locals,base,stable => by
    refine runs_append (expr_runs left site locals base stable) ?_
    refine runs_cons rfl ((stable.push .value).line rfl) (fun next done => ⟨next,?_⟩)
      (runs_pop stable (expr_runs right site locals _ stable))
    rw [length_cons] at done
    have shifted : ∀ first second, base + first + 1 + (second + 1) = base + first + 2 + second := by omega
    rwa [shifted] at done
  | .assign pattern value,site,locals,base,stable =>
    runs_append (expr_runs value site locals base stable) (lhsSet_runs pattern true site locals _ stable)
termination_by structural expr => expr

theorem exprs_run : ∀ (exprs : Exprs) (site : Site) (locals base : Nat), Stable strict code site →
    Runs strict code patches base (compileExprs site locals base exprs) site (site.values exprs.count)
  | .nil,site,_,base,_ => runs_nil
  | .cons head tail,site,locals,base,stable => by
    refine runs_append (expr_runs head site locals base stable) ?_
    rw [Exprs.count,← push_values]
    exact exprs_run tail _ locals _ (stable.push .value)
termination_by structural exprs => exprs

theorem lhsSet_runs : ∀ (pattern : Pattern) (keep : Bool) (site : Site) (locals base : Nat), Stable strict code site →
    Runs strict code patches base (compileLhsSet keep site locals base pattern) (site.push .value)
      (if keep then site.push .value else site)
  | .place operands,keep,site,locals,base,stable => by
    have core : ∀ below start, Stable strict code below →
        Runs strict code patches start (compileExprs (below.push .value) locals start operands ++
          [⟨.store operands.count,(below.push .value).values operands.count⟩]) (below.push .value) below := by
      intro below start stable
      refine runs_append (exprs_run operands _ locals start (stable.push .value)) ?_
      refine runs_next ((stable.push .value).values _) (fun next => ?_) runs_nil
      simp only [Flows,drop_push_values]
      exact next
    cases keep with
    | true =>
      exact runs_next (stable.push .value) (fun next => ⟨next,fun _ => rfl⟩) (core _ _ (stable.push .value))
    | false => exact core _ _ stable
  | .privateMember object,keep,site,locals,base,stable => by
    refine runs_append (expr_runs object _ locals base (stable.push .value)) (runs_on (stable.values 2) ?_)
    exact runs_private stable
  | .array elements,keep,site,locals,base,stable => by
    have inner : ∀ inside start, Stable strict code inside → Runs strict code patches start
        (compileElements inside (locals + 1) start elements) inside inside :=
      fun inside start => elements_run elements inside (locals + 1) start
    cases keep <;> exact runs_array stable inner
  | .object properties,keep,site,locals,base,stable => by
    have inner : ∀ below start, Stable strict code below → Runs strict code patches start
        (compileProperties (below.push .value) locals start properties) (below.push .value) (below.push .value) :=
      fun below start => properties_run properties below locals start
    cases keep <;> exact runs_object (fun inside start => compileProperties inside locals start properties) stable inner
termination_by structural pattern => pattern

theorem elements_run : ∀ (elements : Elements) (site : Site) (locals base : Nat), Stable strict code site →
    Runs strict code patches base (compileElements site locals base elements) site site
  | .nil,site,_,base,_ => runs_nil
  | .hole rest,site,locals,base,stable =>
    runs_on stable (runs_pop stable (elements_run rest site locals _ stable))
  | .item target rest,site,locals,base,stable =>
    runs_on stable
      (runs_append (lhsSet_runs target false site locals _ stable) (elements_run rest site locals _ stable))
  | .itemOr target fallback rest,site,locals,base,stable => by
    refine runs_on stable ?_
    refine runs_default stable (expr_runs fallback site locals (base + 5) stable) ?_
    exact runs_append (lhsSet_runs target false site locals _ stable) (elements_run rest site locals _ stable)
  | .spread target rest,site,locals,base,stable =>
    runs_on stable
      (runs_append (lhsSet_runs target false site locals _ stable) (elements_run rest site locals _ stable))
termination_by structural elements => elements

theorem properties_run : ∀ (properties : Properties) (site : Site) (locals base : Nat), Stable strict code site →
    Runs strict code patches base (compileProperties (site.push .value) locals base properties) (site.push .value)
      (site.push .value)
  | .nil,site,_,base,_ => runs_nil
  | .item key target rest,site,locals,base,stable => by
    have source := stable.push .value
    refine runs_next source (fun next => ⟨next,fun _ => rfl⟩) ?_
    refine runs_append (exprs_run key _ locals _ (source.push .value)) ?_
    refine runs_next ((source.push .value).values _) (fun next => ?_)
      (runs_append (lhsSet_runs target false _ locals _ source) (properties_run rest site locals _ stable))
    simp only [Flows,drop_push_values]
    exact next
  | .itemOr key target fallback rest,site,locals,base,stable => by
    have source := stable.push .value
    refine runs_next source (fun next => ⟨next,fun _ => rfl⟩) ?_
    refine runs_append (exprs_run key _ locals _ (source.push .value)) ?_
    refine runs_next ((source.push .value).values _) (fun next => ?_) (runs_default source
      (expr_runs fallback _ locals _ source)
      (runs_append (lhsSet_runs target false _ locals _ source) (properties_run rest site locals _ stable)))
    simp only [Flows,drop_push_values]
    exact next
termination_by structural properties => properties

end

theorem storeTop_runs {binds : Bool} {target : Pattern} {site : Site} {locals base : Nat} (stable : Stable strict code site) :
    Runs strict code patches base (storeTop binds site locals base target) (site.push .value) site := by
  have stored : Runs strict code patches base (compileLhsSet false site locals base target) (site.push .value) site :=
    lhsSet_runs target false site locals base stable
  cases binds with
  | false => cases target <;> exact stored
  | true =>
    cases target with
    | place operands => exact stored
    | privateMember object => exact stored
    | array elements =>
      refine runs_append (runs_array stable fun inside start => elements_run elements inside (locals + 1) start) ?_
      exact runs_pop stable runs_nil
    | object properties =>
      refine runs_append (runs_object (fun inside start => compileProperties inside locals start properties) stable
        fun below start => properties_run properties below locals start) ?_
      exact runs_pop stable runs_nil

theorem abrupt_enters (last : Instr) (never : ∀ at_, Flows strict code at_ ⟨last,site.push .value⟩)
    (kept : resolve patches ⟨last,site.push .value⟩ = ⟨last,site.push .value⟩ ∧ fits last .plain = true) (value : Expr) (locals base : Nat)
    (stable : Stable strict code site)
    (placed : Placed code patches base (compileExpr site locals base value ++ [⟨last,site.push .value⟩])) :
    Enters strict code base (compileExpr site locals base value ++ [⟨last,site.push .value⟩]) site := by
  obtain ⟨placedValue,placedLast⟩ := (placed_append _ _ _).mp placed
  have found := ((placed_cons _ _ _).mp placedLast).1
  rw [kept.1] at found
  have valued := expr_runs value site locals base stable placedValue (arrives_line found)
  refine ⟨valued.1,?_⟩
  rw [length_append]
  exact checks_append valued.2 (checks_line found (never _) ((stable.push .value).line kept.2))

theorem tailReturn_enters {locals : Nat} (stable : Stable strict code site) : ∀ (value : Expr) (base : Nat),
    Placed code patches base (tailReturn site locals base value) →
    Enters strict code base (tailReturn site locals base value) site
  | .ternary test yes no,base,placed => by
    simp only [tailReturn,placed_append,placed_cons] at placed
    obtain ⟨placedTest,branch,placedYes,placedNo⟩ := placed
    have first := tailReturn_enters stable yes _ placedYes
    have other := tailReturn_enters stable no _ placedNo
    have tested := expr_runs test site locals base stable placedTest (arrives_line branch)
    refine ⟨tested.1,?_⟩
    simp only [tailReturn,length_append,length_cons]
    exact checks_append tested.2 (checks_cons branch ⟨first.1,other.1⟩ ((stable.push .value).line rfl)
      (checks_append first.2 other.2))
  | .leaf,base,placed => abrupt_enters .ret (fun _ _ => rfl) ⟨rfl,rfl⟩ _ locals base stable placed
  | .op _,base,placed => abrupt_enters .ret (fun _ _ => rfl) ⟨rfl,rfl⟩ _ locals base stable placed
  | .logical _ _,base,placed => abrupt_enters .ret (fun _ _ => rfl) ⟨rfl,rfl⟩ _ locals base stable placed
  | .assign _ _,base,placed => abrupt_enters .ret (fun _ _ => rfl) ⟨rfl,rfl⟩ _ locals base stable placed

end Induction

end Ant.Silver.ExprFlow

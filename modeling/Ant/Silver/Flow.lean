import Ant.Library.Layout
import Ant.Silver.Compiler

/-! Where control goes from every line of the code that the compiler emits: the lines it goes to
expect the handlers and, strictly, the operand stack that the line leaves. -/
namespace Ant.Silver.Flow
open Library.Layout Syntax Bytecode Compiler List

section Definitions
variable (strict : Bool) (code : List Line)

def siteAt (pc : Nat) : Option Site := (code[pc]?).map Line.site

/-- Control may come to a line in the way that the site says; the operand stack counts only strictly. -/
def Arrives (pc : Nat) (site : Site) : Prop :=
  ∃ there, siteAt code pc = some there ∧ there.guards = site.guards ∧ (strict = true → there.cells = site.cells) ∧
    (there.mode = site.mode ∨ (site.mode = .plain ∧ (there.mode = .leaving ∨ there.mode = .exhausted)))

/-- Where a handler leads: a `catch` or the way into a `finally` block, with a value on the stack; the end of a `finally`
block goes on after it. -/
def Leads (guard : Guard) (rest : List Guard) : Prop :=
  match guard.kind with
  | .tryCatch => ∃ target there, code[guard.made]? = some ⟨.tryPush false target,there⟩ ∧
      Arrives strict code target ⟨rest,.value :: guard.cells,.plain⟩
  | .tryFinally => ∃ target there, code[guard.made]? = some ⟨.tryPush true target,there⟩ ∧
      Arrives strict code target ⟨rest,.value :: guard.cells,.entering⟩
  | .finallyBody => ∃ target there, code[guard.made]? = some ⟨.finally_ target,there⟩ ∧
      Arrives strict code target ⟨rest,guard.cells,.plain⟩

def Guarded (cells : List Kind) : List Guard → Prop
  | [] => True
  | guard :: rest => (strict = true → guard.cells <:+ cells) ∧ Leads strict code guard rest ∧ Guarded guard.cells rest

/-- A jump that leaves some handlers, `finally` blocks among them: what it leaves, and where it comes to. -/
def Unwinds (guards : List Guard) (cells : List Kind) (target finallies pops : Nat) : Prop :=
  pops ≤ guards.length ∧ (guards.take pops).countP (·.kind = .tryFinally) = finallies ∧
  (strict = true → ∀ guard ∈ guards.take pops, guard.kind = .tryFinally → guard.cells = cells) ∧
  Arrives strict code target ⟨guards.drop pops,cells,.plain⟩

def Flows (pc : Nat) (line : Line) : Prop :=
  let site := line.site
  match line.instr with
  | .eval | .getLocal _ | .destructureNext | .destructureRest => Arrives strict code (pc + 1) (site.push .value)
  | .op operands => Arrives strict code (pc + 1) ((site.drop operands).push .value)
  | .store operands => Arrives strict code (pc + 1) (site.drop (operands + 1))
  | .putPrivate _ => Arrives strict code (pc + 1) ((site.drop 3).push .value)
  | .pop => Arrives strict code (pc + 1) (if site.mode = .entering then (site.drop 1).as .ready else site.drop 1)
  | .putLocal _ => Arrives strict code (pc + 1) (site.drop 1)
  | .dup => Arrives strict code (pc + 1) (site.push .value) ∧ (strict = true → site.cells.head? = some .value)
  | .jmp target => Arrives strict code target (if site.mode = .settled then site.as .ready else site)
  | .jmpTrue target | .jmpFalse target =>
    Arrives strict code (pc + 1) (site.drop 1) ∧ Arrives strict code target (site.drop 1)
  | .jmpPeek target => Arrives strict code (pc + 1) site ∧ Arrives strict code target site
  | .forIn => Arrives strict code (pc + 1) ((site.drop 1).push .value)
  | .forOf => Arrives strict code (pc + 1) ((site.drop 1).iterate pc) ∧ (strict = true → site.cells.head? = some .value)
  | .iterNext => Arrives strict code (pc + 1) (site.values 2) ∧
      ∃ below, site.cells = List.replicate 3 (.iterator (pc - 2)) ++ below
  | .iterClose => Arrives strict code (pc + 1) (site.drop 3)
  | .tryPush finally_ _ =>
    Arrives strict code (pc + 1) (site.guard (if finally_ then .tryFinally else .tryCatch) pc)
  | .tryPop =>
    match site.mode with
    | .exhausted => ∃ guard rest, site.guards = guard :: rest ∧ guard.kind ≠ .finallyBody ∧
      Arrives strict code (pc + 1) (site.as .leaving)
    | _ => ∃ guard rest, site.guards = guard :: rest ∧ guard.kind ≠ .finallyBody ∧
      Arrives strict code (pc + 1) ⟨rest,site.cells,if guard.kind = .tryFinally then .settled else .plain⟩
  | .catch_ => Arrives strict code (pc + 1) site
  | .finally_ _ => Arrives strict code (pc + 1) ((site.guard .finallyBody pc).as .plain)
  | .finallyDiscard => ∃ guard rest, site.guards = guard :: rest ∧ guard.kind = .finallyBody ∧
      Arrives strict code (pc + 1) ⟨rest,site.cells,.plain⟩
  | .finallyRet => ∃ guard rest, site.guards = guard :: rest ∧ guard.kind = .finallyBody ∧
      (strict = true → guard.cells = site.cells)
  | .unwindJmp target finallies pops =>
    site.guards.length < 256 → Unwinds strict code site.guards site.cells target finallies pops
  | .throw | .ret => strict = true → site.cells.head? = some .value
  | .exit _ _ _ | .stray _ => False

/-- The few instructions that stand where a `finally` block is entered or a loop is left; all others are in plain code. -/
def fits : Instr → Mode → Bool
  | .finally_ _,mode => mode == .ready
  | .jmp _,mode => mode == .plain || mode == .settled || mode == .ready
  | .pop,mode => mode == .plain || mode == .entering
  | .tryPop,mode => mode == .plain || mode == .exhausted || mode == .leaving
  | _,mode => mode == .plain

structure Sited (line : Line) : Prop where
  guarded : Guarded strict code line.site.cells line.site.guards
  fits : fits line.instr line.site.mode = true

def Checks (base count : Nat) : Prop :=
  ∀ index, index < count → ∀ line, code[base + index]? = some line →
    Flows strict code (base + index) line ∧ Sited strict code line

end Definitions

section Rules
variable {strict : Bool} {code : List Line}

section
variable {base : Nat} {line : Line} {guards : List Guard} {cells : List Kind}

theorem checks_zero {base : Nat} : Checks strict code base 0 := fun _ impossible => absurd impossible (Nat.not_lt_zero _)

theorem checks_append {base first second : Nat} (one : Checks strict code base first)
    (two : Checks strict code (base + first) second) : Checks strict code base (first + second) := by
  intro index inside line found
  by_cases early : index < first
  · exact one index early line found
  · have split : base + index = base + first + (index - first) := by omega
    rw [split] at found ⊢
    exact two (index - first) (by omega) line found

theorem checks_line (found : code[base]? = some line) (flows : Flows strict code base line) (sited : Sited strict code line)
    : Checks strict code base 1 := by
  intro index inside other same
  obtain rfl : index = 0 := by omega
  rw [Nat.add_zero,found] at same
  cases same
  exact ⟨flows,sited⟩

theorem checks_cons {base count : Nat} (found : code[base]? = some line) (flows : Flows strict code base line)
    (sited : Sited strict code line) (rest : Checks strict code (base + 1) count) : Checks strict code base (count + 1) := by
  rw [Nat.add_comm]
  exact checks_append (checks_line found flows sited) rest

theorem arrives_line (found : code[base]? = some line) : Arrives strict code base line.site :=
  ⟨line.site,by simp [siteAt,found],rfl,fun _ => rfl,Or.inl rfl⟩

theorem arrives_plain (found : code[base]? = some line) (plain : line.site.mode = .plain) :
    Arrives strict code base ⟨line.site.guards,line.site.cells,.plain⟩ :=
  ⟨line.site,by simp [siteAt,found],rfl,fun _ => rfl,Or.inl plain⟩

theorem guarded_mono {cells more : List Kind} (guarded : Guarded strict code cells guards) (suffix : cells <:+ more) :
    Guarded strict code more guards := by
  cases guards with
  | nil => trivial
  | cons guard rest => exact ⟨fun holds => (guarded.1 holds).trans suffix,guarded.2⟩

theorem guarded_push (guarded : Guarded strict code cells guards) {kind : Kind} :
    Guarded strict code (kind :: cells) guards := guarded_mono guarded (suffix_cons _ _)

theorem guarded_append (guarded : Guarded strict code cells guards) {top : List Kind} :
    Guarded strict code (top ++ cells) guards := guarded_mono guarded (suffix_append _ _)

end

end Rules

abbrev Patches := Nat → Option (Nat × Option Nat)

def resolve (patches : Patches) (line : Line) : Line :=
  match line.instr with
  | .exit level continues unwind =>
    match patches level with
    | none => line
    | some (breakAt,continueAt) => {line with instr := jumpTo (if continues then continueAt else some breakAt) unwind}
  | _ => line

def setPatch (patches : Patches) (level breakAt : Nat) (continueAt : Option Nat) : Patches :=
  fun other => if other = level then some (breakAt,continueAt) else patches other

variable {line : Line} {base : Nat} {site mid out : Site}

theorem resolve_patch {patches : Patches} {level breakAt : Nat} {continueAt : Option Nat} :
    resolve patches (patch level breakAt continueAt line) = resolve (setPatch patches level breakAt continueAt) line := by
  obtain ⟨instr,site⟩ := line
  cases instr with
  | exit target continues unwind =>
    by_cases same : target = level
    · have jumps : ∀ address, resolve patches ⟨jumpTo address unwind,site⟩ = ⟨jumpTo address unwind,site⟩ := by
        intro address
        cases address <;> cases unwind <;> rfl
      simp only [patch,same,resolve,setPatch]
      exact jumps _
    · simp [patch,resolve,setPatch,same]
  | _ => rfl

theorem map_resolve_patch (patches : Patches) (level breakAt : Nat) (continueAt : Option Nat) (lines : List Line) :
    (lines.map (patch level breakAt continueAt)).map (resolve patches) =
      lines.map (resolve (setPatch patches level breakAt continueAt)) := by
  rw [map_map]
  exact map_congr_left fun line _ => resolve_patch

section Fragments
variable (strict : Bool) (code : List Line) (patches : Patches)

/-- The lines stand at the address once the loops around them have patched their exits. -/
def Placed (base : Nat) (lines : List Line) : Prop := Stands code base (lines.map (resolve patches))

def Enters (base : Nat) (lines : List Line) (site : Site) : Prop :=
  Arrives strict code base site ∧ Checks strict code base lines.length

def Runs (base : Nat) (lines : List Line) (site out : Site) : Prop :=
  Placed code patches base lines → Arrives strict code (base + lines.length) out → Enters strict code base lines site

end Fragments

section FragmentRules
variable {strict : Bool} {code : List Line} {patches : Patches}

theorem placed_append (base : Nat) (first second : List Line) : Placed code patches base (first ++ second) ↔
    Placed code patches base first ∧ Placed code patches (base + first.length) second := by
  rw [Placed,map_append,stands_append,length_map]
  rfl

theorem placed_cons (base : Nat) (line : Line) (rest : List Line) : Placed code patches base (line :: rest) ↔
    code[base]? = some (resolve patches line) ∧ Placed code patches (base + 1) rest := by
  rw [Placed,map_cons,stands_cons]
  rfl

theorem placed_patch (base level breakAt : Nat) (continueAt : Option Nat) (lines : List Line) :
    Placed code patches base (lines.map (patch level breakAt continueAt)) ↔
      Placed code (setPatch patches level breakAt continueAt) base lines := by
  rw [Placed,map_resolve_patch]
  rfl

theorem runs_nil : Runs strict code patches base [] site site :=
  fun _ done => ⟨done,checks_zero⟩

theorem runs_append {first second : List Line} (one : Runs strict code patches base first site mid)
    (two : Runs strict code patches (base + first.length) second mid out) :
    Runs strict code patches base (first ++ second) site out := by
  intro placed done
  obtain ⟨placedFirst,placedSecond⟩ := (placed_append base first second).mp placed
  rw [length_append,← Nat.add_assoc] at done
  have second := two placedSecond done
  have first := one placedFirst second.1
  refine ⟨first.1,?_⟩
  rw [length_append]
  exact checks_append first.2 second.2

theorem runs_cons {rest : List Line} (kept : resolve patches line = line) (sited : Sited strict code line)
    (flows : Arrives strict code (base + 1) mid → Arrives strict code (base + 1 + rest.length) out → Flows strict code base line)
    (later : Runs strict code patches (base + 1) rest mid out) :
    Runs strict code patches base (line :: rest) line.site out := by
  intro placed done
  obtain ⟨found,placedRest⟩ := (placed_cons base line rest).mp placed
  rw [kept] at found
  have shifted : base + (line :: rest).length = base + 1 + rest.length := by
    rw [length_cons]
    omega
  rw [shifted] at done
  have next := later placedRest done
  exact ⟨arrives_line found,checks_cons found (flows next.1 done) sited next.2⟩

end FragmentRules

end Ant.Silver.Flow

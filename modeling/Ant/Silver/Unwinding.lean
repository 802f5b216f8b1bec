import Ant.Silver.Machine
import Ant.Silver.StmtFlow
import Mathlib.Data.List.Forall2

/-! A frame that fits the site of its instruction, and how throws, returns and jumps through `finally` blocks
land at handlers that fit again. -/
namespace Ant.Silver.Unwinding
open Library Bytecode Machine Silver.Flow List

section Definitions
variable (strict : Bool) (code : List Line)

structure Entry (guard : Guard) (handler : Handler) : Prop where
  kind : handler.kind = guard.kind
  made : handler.made = guard.made
  pushed : match guard.kind with
    | .tryCatch => ∃ there, code[guard.made]? = some ⟨.tryPush false handler.ip,there⟩
    | .tryFinally => ∃ there, code[guard.made]? = some ⟨.tryPush true handler.ip,there⟩
    | .finallyBody => ∃ there, code[guard.made]? = some ⟨.finally_ handler.ip,there⟩
  depth : strict = true → guard.kind ≠ .finallyBody → handler.savedSp = guard.cells.length

def Matches (guards : List Guard) (handlers : List Handler) : Prop := List.Forall₂ (Entry strict code) guards handlers

/-- A pending jump, in a `finally` block around the code or below it. -/
def Owned (guards : List Guard) (target finallies pops : Nat) : Prop :=
  ∃ inner body rest, guards = inner ++ body :: rest ∧ (∀ guard ∈ inner, guard.kind ≠ .finallyBody) ∧
    body.kind = .finallyBody ∧ Unwinds strict code rest body.cells target finallies pops

def Completes (completion : Completion) (site : Site) : Prop :=
  match completion with
  | .jump target finallies pops =>
    match site.mode with
    | .settled => False
    | .entering => Unwinds strict code site.guards (site.cells.drop 1) target finallies pops
    | .ready => Unwinds strict code site.guards site.cells target finallies pops
    | _ => Owned strict code site.guards target finallies pops
  | _ => True

/-- At the exit of a loop that has run out, its handler is gone already. -/
def Popped (frame : Frame) (site : Site) : Prop :=
  site.mode = .leaving ∧ ∃ guard rest, site.guards = guard :: rest ∧ (∀ other ∈ rest, other.kind = .finallyBody) ∧
    Matches strict code rest frame.handlers

structure Good (frame : Frame) (site : Site) : Prop where
  handlers : Matches strict code site.guards frame.handlers ∨ Popped strict code frame site
  stack : strict = true → frame.stack.map Cell.kind = site.cells
  completion : Completes strict code frame.completion site

def Inv (frame : Frame) : Prop := ∃ line, code[frame.pc]? = some line ∧ Good strict code frame line.site

end Definitions

variable {frame : Frame} {site : Site} {handlers rest : List Handler} {before : List Guard}

section Unwinding
variable {strict : Bool} {code : List Line}

theorem Good.matched (good : Good strict code frame site) (inside : site.mode ≠ .leaving) :
    Matches strict code site.guards frame.handlers := by
  rcases good.handlers with matched | popped
  · exact matched
  · exact absurd popped.1 inside

theorem unwinds_cells {guards : List Guard} {cells other : List Kind} {target finallies pops : Nat}
    (unwinds : Unwinds strict code guards cells target finallies pops) (same : strict = true → cells = other) :
    Unwinds strict code guards other target finallies pops := by
  obtain ⟨bound,counted,level,there⟩ := unwinds
  exact ⟨bound,counted,fun holds guard member final => (level holds guard member final).trans (same holds),
    StmtFlow.arrives_cells same there⟩

theorem inv_of_arrives (arrived : Arrives strict code frame.pc site)
    (matched : Matches strict code site.guards frame.handlers)
    (stack : strict = true → frame.stack.map Cell.kind = site.cells)
    (completion : Completes strict code frame.completion site) : Inv strict code frame := by
  obtain ⟨there,found,guards,cells,modes⟩ := arrived
  obtain ⟨line,known,rfl⟩ := Option.map_eq_some_iff.mp found
  refine ⟨line,known,Or.inl (guards ▸ matched),fun holds => (stack holds).trans (cells holds).symm,?_⟩
  cases pending : frame.completion with
  | none | throw | ret => trivial
  | jump target finallies pops =>
    rw [pending] at completion
    simp only [Completes] at completion ⊢
    rcases modes with same | ⟨plain,leaving | exhausted⟩
    · rw [same,guards]
      split at completion
      · exact completion
      · exact unwinds_cells completion fun holds => by rw [cells holds]
      · exact unwinds_cells completion fun holds => (cells holds).symm
      · exact completion
    · rw [leaving,guards]
      simpa only [plain] using completion
    · rw [exhausted,guards]
      simpa only [plain] using completion

/-- The stack can be cut back to any part of the cells from below. -/
def Restores (stack : List Cell) (cells : List Kind) : Prop :=
  ∀ saved, saved <:+ cells → (restore saved.length stack).map Cell.kind = saved

section
variable {stack : List Cell} {cells : List Kind} {wanted : HandlerKind → Bool} {guards : List Guard} {handler : Handler}
  {frame next : Frame} {value : Value} {target finallies pops : Nat}

theorem restores_whole (same : stack.map Cell.kind = cells) : Restores stack cells := by
  rintro saved ⟨top,rfl⟩
  have length : stack.length = top.length + saved.length := by
    rw [← length_map Cell.kind,same,length_append]
  rw [restore,length,show saved.length - (top.length + saved.length) = 0 by omega,Nat.add_sub_cancel,
    replicate_zero,nil_append,map_drop,same,drop_left]

theorem restores_below (same : stack.map Cell.kind = cells) (top : cells.head? = some .value) :
    Restores (stack.drop 1) cells := by
  intro saved suffix
  cases cells with
  | nil => simp at top
  | cons kind rest =>
    obtain rfl : kind = .value := by simpa using top
    have below : (stack.drop 1).map Cell.kind = rest := by rw [map_drop,same]; rfl
    rcases suffix_cons_iff.mp suffix with rfl | inside
    · have length : (stack.drop 1).length = rest.length := by rw [← below,length_map]
      simp only [restore,length,length_cons,map_append,map_drop]
      rw [show rest.length + 1 - rest.length = 1 by omega,show rest.length - (rest.length + 1) = 0 by omega,← map_drop,
        below]
      rfl
    · exact restores_whole below saved inside

theorem nextHandler_matches (matched : Matches strict code guards handlers)
    (found : nextHandler wanted handlers = some (handler,rest)) :
    ∃ before guard below, guards = before ++ guard :: below ∧ (∀ other ∈ before, wanted other.kind = false) ∧
      wanted guard.kind = true ∧ Entry strict code guard handler ∧ Matches strict code below rest ∧
      handlers.length = before.length + 1 + rest.length := by
  induction matched with
  | nil => simp [nextHandler] at found
  | @cons guard top guards handlers entry tail ih =>
    simp only [nextHandler,entry.kind] at found
    split at found
    next hit =>
      obtain ⟨rfl,rfl⟩ := found
      exact ⟨[],guard,guards,rfl,by simp,hit,entry,tail,by simp; omega⟩
    next miss =>
      obtain ⟨before,other,below,rfl,skipped,hit,known,matched,length⟩ := ih found
      refine ⟨guard :: before,other,below,rfl,?_,hit,known,matched,by simp; omega⟩
      intro passed member
      rcases mem_cons.mp member with rfl | inside
      · simpa using miss
      · exact skipped passed inside

theorem nextHandler_none (matched : Matches strict code guards handlers) (found : nextHandler wanted handlers = none) :
    ∀ guard ∈ guards, wanted guard.kind = false := by
  induction matched with
  | nil => simp
  | @cons guard top guards handlers entry tail ih =>
    simp only [nextHandler,entry.kind] at found
    split at found
    · contradiction
    next miss =>
      intro other member
      rcases mem_cons.mp member with rfl | inside
      · simpa using miss
      · exact ih found other inside

section
variable {guard : Guard} {below : List Guard}

theorem guarded_inner (guarded : Guarded strict code cells (before ++ guard :: below)) :
    (strict = true → guard.cells <:+ cells) ∧ Leads strict code guard below ∧ Guarded strict code guard.cells below := by
  induction before with
  | nil => exact guarded
  | cons other before ih => exact ih (StmtFlow.guarded_tail guarded)

theorem Entry.lands (entry : Entry strict code guard handler) (leads : Leads strict code guard below)
    : Arrives strict code handler.ip (match guard.kind with
      | .tryCatch => ⟨below,.value :: guard.cells,.plain⟩
      | .tryFinally => ⟨below,.value :: guard.cells,.entering⟩
      | .finallyBody => ⟨below,guard.cells,.plain⟩) := by
  have pushed := entry.pushed
  unfold Leads at leads
  split at leads
  all_goals
    next kind =>
      simp only [kind] at pushed ⊢
      obtain ⟨there,known⟩ := pushed
      obtain ⟨target,site,found,arrived⟩ := leads
      rw [known] at found
      cases found
      exact arrived

theorem land_keeps {frame : Frame} {value : Value} {completion : Completion}
    (tries : ∀ kind, wanted kind = true → kind ≠ .finallyBody) (settled : ∀ site, Completes strict code completion site)
    (matched : Matches strict code guards frame.handlers) (guarded : Guarded strict code cells guards)
    (restores : strict = true → Restores frame.stack cells)
    (found : nextHandler wanted frame.handlers = some (handler,rest)) :
    Inv strict code {frame with
      pc := handler.ip, stack := .value value :: restore handler.savedSp frame.stack, handlers := rest
      completion := completion} := by
  obtain ⟨before,guard,below,rfl,-,hit,entry,matches_,-⟩ := nextHandler_matches matched found
  obtain ⟨suffix,leads,-⟩ := guarded_inner guarded
  have plain := tries _ hit
  have lands := entry.lands leads
  have stack : strict = true →
      (Cell.value value :: restore handler.savedSp frame.stack).map Cell.kind = .value :: guard.cells := by
    intro holds
    rw [map_cons,entry.depth holds plain,restores holds _ (suffix holds)]
    rfl
  cases kind : guard.kind with
  | finallyBody => exact absurd kind plain
  | tryCatch | tryFinally =>
    simp only [kind] at lands
    exact inv_of_arrives lands matches_ stack (settled _)

theorem throwTo_keeps (moved : throwTo value frame = .running next) (matched : Matches strict code guards frame.handlers)
    (guarded : Guarded strict code cells guards) (restores : strict = true → Restores frame.stack cells) :
    Inv strict code next := by
  unfold throwTo at moved
  split at moved
  · contradiction
  next handler rest found =>
    cases moved
    exact land_keeps (fun kind hit => by simpa [isTry] using hit) (fun _ => trivial) matched guarded
      restores found

theorem returnTo_keeps (moved : returnTo value frame = .running next) (matched : Matches strict code guards frame.handlers)
    (guarded : Guarded strict code cells guards) (restores : strict = true → Restores frame.stack cells) :
    Inv strict code next := by
  unfold returnTo at moved
  split at moved
  · contradiction
  next handler rest found =>
    cases moved
    exact land_keeps (fun kind hit => by rintro rfl; simp at hit) (fun _ => trivial) matched guarded
      restores found

theorem unwinds_rest {below : List Guard} (quiet : ∀ other ∈ before, other.kind ≠ .tryFinally)
    (final : guard.kind = .tryFinally) (some_ : 0 < finallies)
    (unwinds : Unwinds strict code (before ++ guard :: below) cells target finallies pops) :
    (strict = true → guard.cells = cells) ∧
      Unwinds strict code below cells target (finallies - 1) (pops - (before.length + 1)) := by
  obtain ⟨bound,counted,level,there⟩ := unwinds
  have silent : ∀ count, (before.take count).countP (fun other => decide (other.kind = .tryFinally)) = 0 := by
    intro count
    rw [countP_eq_zero]
    intro other member
    simpa using quiet other (mem_of_mem_take member)
  have past : before.length + 1 ≤ pops := by
    by_contra short
    rw [take_append_of_le_length (by omega),silent] at counted
    omega
  obtain ⟨more,rfl⟩ := Nat.exists_eq_add_of_le past
  have taken : (before ++ guard :: below).take (before.length + 1 + more) = before ++ guard :: below.take more := by
    rw [Nat.add_assoc,take_length_add_append,Nat.add_comm 1 more,take_succ_cons]
  have dropped : (before ++ guard :: below).drop (before.length + 1 + more) = below.drop more := by
    rw [Nat.add_assoc,drop_length_add_append,Nat.add_comm 1 more,drop_succ_cons]
  rw [taken] at counted level
  rw [dropped] at there
  have own : strict = true → guard.cells = cells := fun holds => level holds guard (by simp) final
  refine ⟨own,?_,?_,?_,?_⟩
  · simp only [length_append,length_cons] at bound
    omega
  · have whole := silent before.length
    rw [take_length] at whole
    rw [countP_append,countP_cons_of_pos (by simp [final])] at counted
    rw [Nat.add_sub_cancel_left]
    omega
  · rw [Nat.add_sub_cancel_left]
    exact fun holds other member => level holds other (by simp [member])
  · rw [Nat.add_sub_cancel_left]
    exact there

end

theorem jumpTo_keeps (moved : jumpTo target finallies pops frame = .running next)
    (matched : Matches strict code guards frame.handlers) (guarded : Guarded strict code cells guards)
    (stack : strict = true → frame.stack.map Cell.kind = cells)
    (unwinds : Unwinds strict code guards cells target finallies pops) : Inv strict code next := by
  unfold jumpTo at moved
  split at moved
  next handler rest found =>
    cases moved
    split at found
    next some_ =>
      obtain ⟨before,guard,below,rfl,skipped,hit,entry,matches_,length⟩ := nextHandler_matches matched found
      have final : guard.kind = .tryFinally := by simpa using hit
      obtain ⟨suffix,leads,-⟩ := guarded_inner guarded
      obtain ⟨own,left⟩ := unwinds_rest (fun other member => by simpa using skipped other member) final some_ unwinds
      have lands := entry.lands leads
      simp only [final] at lands
      refine inv_of_arrives lands matches_ (fun holds => ?_) ?_
      · rw [map_cons,entry.depth holds (by simp [final]),restores_whole (stack holds) _ (suffix holds)]
        rfl
      · rw [length,Nat.add_sub_cancel]
        exact unwinds_cells left fun holds => (own holds).symm
    next => contradiction
  next found =>
    cases moved
    refine inv_of_arrives unwinds.2.2.2 ?_ stack trivial
    exact List.forall₂_drop _ matched

end

end Unwinding

end Ant.Silver.Unwinding

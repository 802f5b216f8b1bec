import Ant.Library.Transition
import Ant.Silver.Unwinding

/-! Whole runs of a frame: at every instruction the handlers on the stack are those that the source puts around it,
and strictly so is the operand stack. -/
namespace Ant.Silver.Handlers
open Library Library.Transition Syntax Bytecode Compiler Machine Silver.Flow ExprFlow StmtFlow Unwinding List

/-- What the steps must meet: room for handlers, a loop that runs out only where no other handler of a `try` is around it,
and no pending jump when the protected part of a `try` with a `finally` completes. -/
def calm (outer : Nat) (code : List Line) (frame : Frame) (_ : Reply) : Bool :=
  match code[frame.pc]? with
  | some ⟨.tryPush _ _,_⟩ | some ⟨.finally_ _,_⟩ => outer + frame.handlers.length < handlerMax
  | some ⟨.tryPop,site⟩ =>
    if site.mode = .exhausted then site.guards.tail.all (·.kind = .finallyBody)
    else site.guards.head?.all (·.kind ≠ .tryFinally) || (match frame.completion with
      | .jump _ _ _ => false
      | _ => true)
  | _ => true

variable {guard : Guard} {rest : List Guard} {value : Value} {reply : Reply} {done strict : Bool} {pushed : List Cell}
  {outer : Nat} {handler : Handler} {handlers : List Handler} {frame : Frame} {code : List Line}

section Steps
variable {strict : Bool} {code : List Line} {frame next : Frame} {site : Site}

section
variable {handlers : List Handler} {guards : List Guard} {target finallies pops : Nat}

theorem completes_plain {completion : Completion} {other : Site} (plain : site.mode = .plain)
    (otherPlain : other.mode = .plain) (same : other.guards = site.guards)
    (completes : Completes strict code completion site) : Completes strict code completion other := by
  unfold Completes at completes ⊢
  split
  · simpa only [otherPlain,plain,same] using completes
  · trivial

theorem plain_step (other : Site) (good : Good strict code frame site) (plain : site.mode = .plain)
    (arrived : Arrives strict code next.pc other) (otherPlain : other.mode = .plain) (same : other.guards = site.guards)
    (handlers : next.handlers = frame.handlers) (completion : next.completion = frame.completion)
    (stack : strict = true → frame.stack.map Cell.kind = site.cells → next.stack.map Cell.kind = other.cells) :
    Inv strict code next := by
  refine inv_of_arrives arrived ?_ (fun holds => stack holds (good.stack holds)) ?_
  · rw [same,handlers]
    exact good.matched (by simp [plain])
  · rw [completion]
    exact completes_plain plain otherPlain same good.completion

theorem tryPop_matches (matched : Matches strict code (guard :: rest) handlers) (tries : guard.kind ≠ .finallyBody) :
    Matches strict code rest (tryPop handlers) := by
  cases matched with
  | cons entry tail =>
    rw [tryPop,entry.kind,if_pos (by simpa [isTry] using tries)]
    exact tail

theorem tryPop_finallies (matched : Matches strict code guards handlers)
    (bodies : ∀ guard ∈ guards, guard.kind = .finallyBody) : tryPop handlers = handlers := by
  induction matched with
  | nil => rfl
  | @cons guard handler guards handlers entry tail ih =>
    rw [tryPop,entry.kind,bodies guard mem_cons_self,if_neg (by decide),
      ih fun other member => bodies other (mem_cons_of_mem _ member)]

theorem owned_cons (tries : guard.kind ≠ .finallyBody) :
    Owned strict code (guard :: guards) target finallies pops ↔ Owned strict code guards target finallies pops := by
  constructor
  · rintro ⟨inner,body,rest,same,quiet,final,unwinds⟩
    cases inner with
    | nil =>
      simp only [nil_append,List.cons.injEq] at same
      exact absurd (same.1 ▸ final) tries
    | cons other inner =>
      simp only [cons_append,List.cons.injEq] at same
      exact ⟨inner,body,rest,same.2,fun one member => quiet one (mem_cons_of_mem _ member),final,unwinds⟩
  · rintro ⟨inner,body,rest,rfl,quiet,final,unwinds⟩
    refine ⟨guard :: inner,body,rest,rfl,fun one member => ?_,final,unwinds⟩
    rcases mem_cons.mp member with rfl | inside
    · exact tries
    · exact quiet one inside

theorem owned_body (final : guard.kind = .finallyBody) (owned : Owned strict code (guard :: guards) target finallies pops) :
    Unwinds strict code guards guard.cells target finallies pops := by
  obtain ⟨inner,body,rest,same,quiet,-,unwinds⟩ := owned
  cases inner with
  | nil =>
    obtain ⟨rfl,rfl⟩ := same
    exact unwinds
  | cons other inner =>
    simp only [cons_append,List.cons.injEq] at same
    exact absurd (same.1 ▸ final) (quiet other mem_cons_self)

end

section Instructions
variable (good : Good strict code frame site)
include good

theorem tryPop_keeps (inside : site.mode = .plain ∨ site.mode = .leaving) (top : site.guards = guard :: rest)
    (tries : guard.kind ≠ .finallyBody)
    (quiet : guard.kind = .tryFinally → ∀ target finallies pops, frame.completion ≠ .jump target finallies pops)
    (arrived : Arrives strict code (frame.pc + 1) ⟨rest,site.cells,if guard.kind = .tryFinally then .settled else .plain⟩) :
    Inv strict code {frame with pc := frame.pc + 1, handlers := tryPop frame.handlers} := by
  refine inv_of_arrives arrived ?_ good.stack ?_
  · rcases good.handlers with matched | ⟨-,other,below,same,bodies,matched⟩
    · rw [top] at matched
      exact tryPop_matches matched tries
    · rw [top] at same
      obtain ⟨-,rfl⟩ := same
      rw [tryPop_finallies matched bodies]
      exact matched
  · have completes := good.completion
    cases pending : frame.completion with
    | none | throw | ret => simp only [Completes]
    | jump target finallies pops =>
      have plain : guard.kind ≠ .tryFinally := fun final => quiet final _ _ _ pending
      simp only [pending,Completes,if_neg plain] at completes ⊢
      rw [top] at completes
      rcases inside with mode | mode <;> simp only [mode] at completes <;> exact (owned_cons tries).mp completes

theorem exhausted_keeps (mode : site.mode = .exhausted) (top : site.guards = guard :: rest)
    (tries : guard.kind ≠ .finallyBody) (alone : ∀ other ∈ rest, other.kind = .finallyBody)
    (arrived : Arrives strict code (frame.pc + 1) (site.as .leaving)) :
    Inv strict code {frame with pc := frame.pc + 1, handlers := tryPop frame.handlers} := by
  obtain ⟨there,found,guards,cells,modes⟩ := arrived
  obtain ⟨line,known,rfl⟩ := Option.map_eq_some_iff.mp found
  have leaving : line.site.mode = .leaving := by
    rcases modes with same | ⟨impossible,-⟩
    · exact same
    · simp [Site.as] at impossible
  have matched := good.matched (by simp [mode])
  rw [top] at matched
  refine ⟨line,known,Or.inr ⟨leaving,guard,rest,guards.trans top,alone,tryPop_matches matched tries⟩,
    fun holds => (good.stack holds).trans (cells holds).symm,?_⟩
  have completes := good.completion
  cases pending : frame.completion with
  | none | throw | ret => simp only [Completes]
  | jump target finallies pops =>
    simp only [pending,Completes,mode,leaving] at completes ⊢
    rw [guards]
    exact completes

variable (guarded : Guarded strict code site.cells site.guards)
include guarded

theorem throws_keeps {thrown : Frame} (moved : throwTo value thrown = .running next) (plain : site.mode = .plain)
    (handlers : thrown.handlers = frame.handlers) (restores : strict = true → Restores thrown.stack site.cells) :
    Inv strict code next :=
  throwTo_keeps moved (handlers ▸ good.matched (by simp [plain])) guarded restores

theorem pushOr_keeps {rest : List Cell} (other : Site) (plain : site.mode = .plain) (otherPlain : other.mode = .plain)
    (same : other.guards = site.guards) (arrived : Arrives strict code (frame.pc + 1) (other.push .value))
    (stack : strict = true → rest.map Cell.kind = other.cells) (moved : pushOr reply frame rest = .running next) :
    Inv strict code next := by
  unfold pushOr at moved
  split at moved
  · exact throws_keeps good guarded moved plain rfl (fun holds => restores_whole (good.stack holds))
  · cases moved
    refine plain_step _ good plain arrived otherPlain same rfl rfl fun holds _ => ?_
    rw [map_cons,stack holds]
    rfl

theorem advance_keeps (count : Nat) (plain : site.mode = .plain)
    (arrived : Arrives strict code (frame.pc + 1) (site.values count))
    (values : pushed.map Cell.kind = List.replicate count .value) (moved : advance reply done pushed frame = .running next) :
    Inv strict code next := by
  have noted : ∀ event, (note event frame).handlers = frame.handlers ∧ (note event frame).stack = frame.stack ∧
      (note event frame).completion = frame.completion ∧ (note event frame).pc = frame.pc := by
    unfold note
    split <;> simp
  unfold advance at moved
  split at moved
  · obtain ⟨handlers,stack,-,-⟩ := noted .failed
    refine throws_keeps good guarded moved plain handlers fun holds => ?_
    rw [stack]
    exact restores_whole (good.stack holds)
  · obtain ⟨handlers,stack,completion,pc⟩ := noted .exhausted
    cases moved
    refine plain_step (site.values count) good plain ?_ plain rfl ?_ ?_ fun holds same => ?_
    all_goals cases done <;> simp only [if_true,if_false,Bool.false_eq_true]
    · exact arrived
    · rw [pc]
      exact arrived
    · exact handlers
    · exact completion
    · rw [map_append,values,same]
      rfl
    · rw [map_append,values,stack,same]
      rfl

theorem finallyRet_keeps (plain : site.mode = .plain) (top : site.guards = guard :: rest) (body : guard.kind = .finallyBody)
    (level : strict = true → guard.cells = site.cells) (moved : finallyRet frame = .running next) :
    Inv strict code next := by
  have matched := good.matched (by simp [plain])
  have completes := good.completion
  rw [top] at matched guarded
  have leads := guarded.2.1
  have below := StmtFlow.guarded_tail guarded
  have restores : strict = true → Restores frame.stack site.cells := fun holds => restores_whole (good.stack holds)
  unfold finallyRet at moved
  split at moved
  next handler handlers known =>
    rw [known] at matched
    cases matched with
    | cons entry tail =>
      rw [if_pos (entry.kind.trans body)] at moved
      cases pending : frame.completion with
      | throw value =>
        simp only [pending] at moved
        exact throwTo_keeps moved tail below restores
      | ret value =>
        simp only [pending] at moved
        exact returnTo_keeps moved tail below restores
      | jump target finallies pops =>
        simp only [pending] at moved
        simp only [pending,Completes,plain,top] at completes
        exact jumpTo_keeps moved tail below good.stack (unwinds_cells (owned_body body completes) level)
      | none =>
        simp only [pending] at moved
        cases moved
        have lands := entry.lands leads
        simp only [body] at lands
        exact inv_of_arrives lands tail (fun holds => (good.stack holds).trans (level holds).symm) trivial
  next known =>
    rw [known] at matched
    cases matched

end Instructions

theorem step_running (moved : step outer code reply frame = some next) :
    ∃ line, code[frame.pc]? = some line ∧ execute outer reply line.instr frame = .running next := by
  unfold step stepOutcome at moved
  cases found : code[frame.pc]? with
  | none => simp [found] at moved
  | some line =>
    rw [found] at moved
    refine ⟨line,rfl,?_⟩
    split at moved
    next known => exact known.trans (congrArg Outcome.running (Option.some.inj moved))
    next => contradiction

theorem drop_step (count : Nat) (good : Good strict code frame site) (plain : site.mode = .plain)
    (arrived : Arrives strict code next.pc (site.drop count)) (handlers : next.handlers = frame.handlers)
    (completion : next.completion = frame.completion) (stack : next.stack = frame.stack.drop count) :
    Inv strict code next := by
  refine plain_step (site.drop count) good plain arrived plain rfl handlers completion fun _ same => ?_
  rw [stack,map_drop,same]
  rfl

theorem calm_pop
    (fair : (site.guards.head?.all (·.kind ≠ .tryFinally) || (match frame.completion with | .jump _ _ _ => false | _ => true)) = true)
    (top : site.guards = guard :: rest) (final : guard.kind = .tryFinally) :
    ∀ target finallies pops, frame.completion ≠ .jump target finallies pops := by
  intro target finallies pops pending
  simp [top,final,pending] at fair

theorem guard_keeps {kind : HandlerKind} (good : Good strict code frame site) (inside : site.mode ≠ .leaving)
    (entry : Entry strict code ⟨kind,frame.pc,site.cells⟩ handler)
    (completes : Completes strict code frame.completion ((site.guard kind frame.pc).as .plain))
    (arrived : Arrives strict code (frame.pc + 1) ((site.guard kind frame.pc).as .plain)) :
    Inv strict code {frame with pc := frame.pc + 1, handlers := handler :: frame.handlers} :=
  inv_of_arrives arrived (.cons entry (good.matched inside)) good.stack completes

theorem step_keeps (checks : Checks strict code 0 code.length) (bounded : frame.handlers.length < 256)
    (inv : Inv strict code frame) (fair : calm outer code frame reply = true)
    (moved : step outer code reply frame = some next) : Inv strict code next := by
  obtain ⟨⟨instr,site⟩,found,good⟩ := inv
  obtain ⟨flows,sited⟩ := checks frame.pc (List.getElem?_eq_some_iff.mp found).1 _ (by rw [Nat.zero_add]; exact found)
  rw [Nat.zero_add] at flows
  obtain ⟨line,known,ran⟩ := step_running moved
  rw [found] at known
  cases known
  obtain ⟨guarded,fit⟩ := sited
  simp only [calm,found] at fair
  have plain (only : fits instr = (· == .plain)) : site.mode = .plain := by simpa [only] using fit
  cases instr with
  | eval =>
    exact pushOr_keeps good guarded site (plain rfl) (plain rfl) rfl flows good.stack ran
  | op operands =>
    refine pushOr_keeps good guarded (site.drop operands) (plain rfl) (plain rfl) rfl flows (fun holds => ?_) ran
    rw [map_drop,good.stack holds]
    rfl
  | putPrivate =>
    refine pushOr_keeps good guarded (site.drop 3) (plain rfl) (plain rfl) rfl flows (fun holds => ?_) ran
    rw [map_drop,good.stack holds]
    rfl
  | forIn =>
    refine pushOr_keeps good guarded (site.drop 1) (plain rfl) (plain rfl) rfl flows (fun holds => ?_) ran
    rw [map_drop,good.stack holds]
    rfl
  | store operands =>
    simp only [execute] at ran
    split at ran
    · exact throws_keeps good guarded ran (plain rfl) rfl (fun holds => restores_whole (good.stack holds))
    · cases ran
      exact drop_step (operands + 1) good (plain rfl) flows rfl rfl rfl
  | pop =>
    cases ran
    have modes : site.mode = .plain ∨ site.mode = .entering := by simpa [fits] using fit
    rcases modes with plain | entering
    · simp only [Flows,plain] at flows
      exact drop_step 1 good plain flows rfl rfl rfl
    · simp only [Flows,entering] at flows
      refine inv_of_arrives flows (good.matched (by simp [entering])) (fun holds => ?_) ?_
      · rw [map_drop,good.stack holds]
        rfl
      · have completes := good.completion
        cases pending : frame.completion with
        | none | throw | ret => trivial
        | jump target finallies pops =>
          simp only [pending,Completes,entering] at completes
          exact completes
  | dup =>
    cases ran
    refine plain_step (site.push .value) good (plain rfl) flows.1 (plain rfl) rfl rfl rfl fun holds same => ?_
    have top := flows.2 holds
    rw [map_append,map_take,same]
    cases cells : site.cells with
    | nil => simp [cells] at top
    | cons kind rest =>
      obtain rfl : kind = .value := by simpa [cells] using top
      simp [Site.push,cells]
  | jmp target =>
    cases ran
    have modes : site.mode = .plain ∨ site.mode = .settled ∨ site.mode = .ready := by simpa [fits,or_assoc] using fit
    have completes := good.completion
    rcases modes with plain | settled | ready
    · simp only [Flows,plain] at flows
      exact plain_step site good plain flows plain rfl rfl rfl fun _ same => same
    · simp only [Flows,settled] at flows
      refine inv_of_arrives flows (good.matched (by simp [settled])) good.stack ?_
      cases pending : frame.completion with
      | none | throw | ret => trivial
      | jump => simp [pending,Completes,settled] at completes
    · simp only [Flows,ready] at flows
      exact inv_of_arrives flows (good.matched (by simp [ready])) good.stack completes
  | jmpTrue target =>
    cases ran
    refine drop_step 1 good (plain rfl) ?_ rfl rfl rfl
    split
    · exact flows.2
    · exact flows.1
  | jmpFalse target =>
    cases ran
    refine drop_step 1 good (plain rfl) ?_ rfl rfl rfl
    split
    · exact flows.1
    · exact flows.2
  | jmpPeek target =>
    cases ran
    refine plain_step site good (plain rfl) ?_ (plain rfl) rfl rfl rfl fun _ same => same
    split
    · exact flows.2
    · exact flows.1
  | putLocal slot =>
    simp only [execute] at ran
    split at ran
    next value rest known =>
      cases ran
      exact drop_step 1 good (plain rfl) flows rfl rfl (by rw [known]; rfl)
    next =>
      cases ran
      exact drop_step 1 good (plain rfl) flows rfl rfl rfl
  | getLocal slot =>
    cases ran
    exact plain_step (site.push .value) good (plain rfl) flows (plain rfl) rfl rfl rfl fun _ same => by rw [map_cons,same]; rfl
  | forOf =>
    have plain := plain rfl
    simp only [execute] at ran
    split at ran
    · exact throws_keeps good guarded ran plain rfl fun holds => restores_below (good.stack holds) (flows.2 holds)
    · cases ran
      refine plain_step _ good plain flows.1 plain rfl rfl rfl fun _ same => ?_
      rw [map_append,map_drop,same]
      rfl
  | iterNext =>
    exact advance_keeps good guarded 2 (plain rfl) flows.1 rfl ran
  | iterClose =>
    cases ran
    have kept : (iterClose frame).handlers = frame.handlers ∧ (iterClose frame).completion = frame.completion := by
      unfold iterClose note
      split <;> (try split) <;> simp
    exact drop_step 3 good (plain rfl) flows kept.1 kept.2 rfl
  | destructureNext | destructureRest =>
    exact advance_keeps good guarded 1 (plain rfl) flows rfl ran
  | tryPush finally_ handler =>
    have level := plain rfl
    simp only [execute] at ran
    rw [if_pos (by simpa using fair)] at ran
    cases ran
    have depth : strict = true → frame.stack.length = site.cells.length := fun holds => by
      rw [← good.stack holds,length_map]
    have whole : ∀ kind, (site.guard kind frame.pc).as .plain = site.guard kind frame.pc := by
      intro kind
      rw [← level]
      rfl
    have completes : ∀ kind, kind ≠ .finallyBody →
        Completes strict code frame.completion ((site.guard kind frame.pc).as .plain) := by
      intro kind tries
      have owned := good.completion
      cases pending : frame.completion with
      | none | throw | ret => trivial
      | jump =>
        simp only [pending,Completes,level] at owned
        exact (owned_cons tries).mpr owned
    cases finally_ <;> exact guard_keeps good (by simp [level]) ⟨rfl,rfl,⟨site,found⟩,fun holds _ => depth holds⟩
      (completes _ (by simp)) (by rw [whole]; exact flows)
  | tryPop =>
    cases ran
    have modes : site.mode = .plain ∨ site.mode = .exhausted ∨ site.mode = .leaving := by simpa [fits,or_assoc] using fit
    rcases modes with plain | exhausted | leaving
    · simp only [Flows,plain] at flows
      obtain ⟨guard,rest,top,tries,arrived⟩ := flows
      exact tryPop_keeps good (Or.inl plain) top tries (calm_pop (by simpa [plain] using fair) top) arrived
    · simp only [Flows,exhausted] at flows
      obtain ⟨guard,rest,top,tries,arrived⟩ := flows
      refine exhausted_keeps good exhausted top tries ?_ arrived
      simpa [exhausted,top] using fair
    · simp only [Flows,leaving] at flows
      obtain ⟨guard,rest,top,tries,arrived⟩ := flows
      exact tryPop_keeps good (Or.inr leaving) top tries (calm_pop (by simpa [leaving] using fair) top) arrived
  | catch_ =>
    cases ran
    exact inv_of_arrives flows (good.matched (by simp [plain rfl])) good.stack trivial
  | finally_ resume =>
    have ready : site.mode = .ready := by simpa [fits] using fit
    simp only [execute] at ran
    rw [if_pos (by simpa using fair)] at ran
    cases ran
    refine guard_keeps good (by simp [ready]) ⟨rfl,rfl,⟨site,found⟩,fun _ tries => absurd rfl tries⟩ ?_ flows
    have completes := good.completion
    cases pending : frame.completion with
    | none | throw | ret => trivial
    | jump =>
      simp only [pending,Completes,ready] at completes
      exact ⟨[],⟨.finallyBody,frame.pc,site.cells⟩,site.guards,rfl,by simp,rfl,completes⟩
  | finallyDiscard =>
    cases ran
    obtain ⟨guard,rest,top,body,arrived⟩ := flows
    have matched := good.matched (by simp [plain rfl])
    rw [top] at matched
    cases handlers : frame.handlers with
    | nil =>
      rw [handlers] at matched
      cases matched
    | cons handler below =>
      rw [handlers] at matched
      cases matched with
      | cons entry tail =>
        simp only [if_pos (entry.kind.trans body)]
        exact inv_of_arrives arrived tail good.stack trivial
  | finallyRet =>
    obtain ⟨guard,rest,top,body,level⟩ := flows
    exact finallyRet_keeps good guarded (plain rfl) top body level ran
  | unwindJmp target finallies pops =>
    have matched := good.matched (by simp [plain rfl])
    have short : site.guards.length < 256 := by rwa [matched.length_eq]
    exact jumpTo_keeps ran matched guarded good.stack (flows short)
  | throw =>
    have restores : strict = true → Restores (frame.stack.drop 1) site.cells :=
      fun holds => restores_below (good.stack holds) (flows holds)
    simp only [execute] at ran
    split at ran
    next value rest known => exact throws_keeps good guarded ran (plain rfl) rfl fun holds => by simpa [known] using restores holds
    next => exact throws_keeps good guarded ran (plain rfl) rfl restores
  | ret =>
    have restores : strict = true → Restores (frame.stack.drop 1) site.cells :=
      fun holds => restores_below (good.stack holds) (flows holds)
    have matched := good.matched (by simp [plain rfl])
    simp only [execute] at ran
    split at ran
    next value rest known => exact returnTo_keeps ran matched guarded fun holds => by simpa [known] using restores holds
    next => exact returnTo_keeps ran matched guarded restores
  | exit => exact flows.elim
  | stray => exact flows.elim

end Steps

section Bound

section
variable {value : Value} {frame next : Frame} {reply : Reply}

theorem nextHandler_shorter {wanted : HandlerKind → Bool} {rest : List Handler}
    (found : nextHandler wanted handlers = some (handler,rest)) : rest.length ≤ handlers.length := by
  induction handlers with
  | nil => simp [nextHandler] at found
  | cons top handlers ih =>
    simp only [nextHandler] at found
    split at found
    · cases found
      simp
    · exact Nat.le_succ_of_le (ih found)

theorem tryPop_shorter : (tryPop handlers).length ≤ handlers.length := by
  induction handlers with
  | nil => simp [tryPop]
  | cons top handlers ih =>
    rw [tryPop]
    split
    · simp
    · simpa using ih

theorem throwTo_shorter (moved : throwTo value frame = .running next) : next.handlers.length ≤ frame.handlers.length := by
  unfold throwTo at moved
  split at moved
  · contradiction
  next found =>
    cases moved
    exact nextHandler_shorter found

theorem returnTo_shorter (moved : returnTo value frame = .running next) : next.handlers.length ≤ frame.handlers.length := by
  unfold returnTo at moved
  split at moved
  · contradiction
  next found =>
    cases moved
    exact nextHandler_shorter found

theorem jumpTo_shorter {target finallies pops : Nat} (moved : Machine.jumpTo target finallies pops frame = .running next) :
    next.handlers.length ≤ frame.handlers.length := by
  unfold Machine.jumpTo at moved
  split at moved
  next found =>
    cases moved
    split at found
    · exact nextHandler_shorter found
    · contradiction
  next =>
    cases moved
    simp

theorem note_handlers {event : Nat → Event} {frame : Frame} : (note event frame).handlers = frame.handlers := by
  unfold note
  split <;> rfl

theorem pushOr_shorter {rest : List Cell} (moved : pushOr reply frame rest = .running next) :
    next.handlers.length ≤ frame.handlers.length := by
  unfold pushOr at moved
  split at moved
  · exact throwTo_shorter moved
  · cases moved
    exact Nat.le_refl _

theorem advance_shorter (moved : advance reply done pushed frame = .running next) :
    next.handlers.length ≤ frame.handlers.length := by
  unfold advance at moved
  split at moved
  · have shorter := throwTo_shorter moved
    rwa [note_handlers] at shorter
  · cases moved
    cases done <;> simp [note_handlers]

theorem finallyRet_shorter (moved : finallyRet frame = .running next) : next.handlers.length ≤ frame.handlers.length := by
  unfold finallyRet at moved
  split at moved
  next handler rest known =>
    rw [known]
    split at moved
    · refine Nat.le_succ_of_le ?_
      split at moved
      · exact throwTo_shorter moved
      · exact returnTo_shorter moved
      · exact jumpTo_shorter moved
      · cases moved
        exact Nat.le_refl _
    · have shorter := throwTo_shorter moved
      rwa [known,length_cons] at shorter
  next known => exact throwTo_shorter moved

theorem execute_bounded {instr : Instr} (bounded : frame.handlers.length ≤ handlerMax)
    (ran : execute outer reply instr frame = .running next) : next.handlers.length ≤ handlerMax := by
  have same : next.handlers.length ≤ frame.handlers.length ∨ next.handlers.length ≤ handlerMax := by
    cases instr with
    | eval | op | putPrivate | forIn => exact Or.inl (pushOr_shorter ran)
    | iterNext | destructureNext | destructureRest => exact Or.inl (advance_shorter ran)
    | finallyRet => exact Or.inl (finallyRet_shorter ran)
    | unwindJmp => exact Or.inl (jumpTo_shorter ran)
    | tryPop =>
      cases ran
      exact Or.inl tryPop_shorter
    | pop | dup | jmp | jmpTrue | jmpFalse | jmpPeek | getLocal | catch_ =>
      cases ran
      exact Or.inl (Nat.le_refl _)
    | iterClose =>
      cases ran
      refine Or.inl (Nat.le_of_eq ?_)
      unfold iterClose
      split <;> simp [note_handlers]
    | store | forOf =>
      simp only [execute] at ran
      split at ran
      · have shorter := throwTo_shorter ran
        exact Or.inl shorter
      · cases ran
        exact Or.inl (Nat.le_refl _)
    | putLocal =>
      simp only [execute] at ran
      split at ran <;> cases ran <;> exact Or.inl (Nat.le_refl _)
    | tryPush =>
      simp only [execute] at ran
      split at ran
      · cases ran
        refine Or.inr ?_
        simp only [length_cons]
        omega
      · cases ran
        exact Or.inl (Nat.le_refl _)
    | finally_ =>
      simp only [execute] at ran
      split at ran
      · cases ran
        refine Or.inr ?_
        simp only [length_cons]
        omega
      · exact Or.inl (throwTo_shorter ran)
    | finallyDiscard =>
      cases ran
      refine Or.inl ?_
      cases frame.handlers with
      | nil => simp
      | cons handler rest =>
        simp only [length_cons]
        split <;> simp
    | throw =>
      simp only [execute] at ran
      split at ran <;> have shorter := throwTo_shorter ran <;> exact Or.inl shorter
    | ret =>
      simp only [execute] at ran
      split at ran <;> have shorter := returnTo_shorter ran <;> exact Or.inl shorter
    | exit => cases ran
    | stray unwind =>
      cases unwind with
      | none =>
        cases ran
        exact Or.inl (Nat.le_refl _)
      | some => cases ran
  omega

end

end Bound

section Runs

def Runs (outer : Nat) (body : Stmt) (frame : Frame) : Prop :=
  Reach (step outer (compileFunction body)) (fun frame reply => calm outer (compileFunction body) frame reply = true)
    entry frame

theorem run_keeps {body : Stmt} (neat : tidy strict [] none body = true)
    (consume : strict = true → storesConsume (compileFunction body) = true) (reached : Runs outer body frame) :
    Inv strict (compileFunction body) frame ∧ frame.handlers.length < 256 := by
  have flows := function_flows neat consume
  have room : handlerMax < 256 := by decide
  have both : Inv strict (compileFunction body) frame ∧ frame.handlers.length ≤ handlerMax := by
    refine Reach.invariant reached (fun frame => Inv strict (compileFunction body) frame ∧
      frame.handlers.length ≤ handlerMax) ⟨?_,by decide⟩ ?_
    · exact inv_of_arrives flows.1 .nil (fun _ => rfl) trivial
    · rintro state next reply ⟨inv,bounded⟩ fair moved
      obtain ⟨line,-,ran⟩ := step_running moved
      exact ⟨step_keeps flows.2 (by omega) inv fair moved,execute_bounded bounded ran⟩
  exact ⟨both.1,by omega⟩

def pushedBy (handlers : List Handler) : List (HandlerKind × Nat) := handlers.map fun handler => (handler.kind,handler.made)

def lexical (guards : List Guard) : List (HandlerKind × Nat) := guards.map fun guard => (guard.kind,guard.made)

/-- A throw goes to the `catch` or `finally` of the innermost `try`, loop or pattern around the instruction, or leaves
the frame when there is none. -/
def Delivers (code : List Line) (frame : Frame) (site : Site) (value : Value) : Prop :=
  match site.guards.find? fun guard => isTry guard.kind with
  | none => ∃ last, throwTo value frame = .threw value last
  | some guard => ∃ next final there, throwTo value frame = .running next ∧
      code[guard.made]? = some ⟨.tryPush final next.pc,there⟩

theorem matches_lexical {guards : List Guard} (matched : Matches strict code guards handlers) :
    pushedBy handlers = lexical guards := by
  induction matched with
  | nil => rfl
  | cons entry _ ih => simp only [pushedBy,lexical,map_cons,entry.kind,entry.made] at ih ⊢; rw [ih]

theorem matches_delivers {site : Site} (matched : Matches strict code site.guards frame.handlers) :
    Delivers code frame site value := by
  unfold Delivers throwTo
  cases found : nextHandler isTry frame.handlers with
  | none =>
    have absent : site.guards.find? (fun guard => isTry guard.kind) = none := by
      rw [find?_eq_none]
      intro guard member
      simpa using nextHandler_none matched found guard member
    rw [absent]
    exact ⟨_,rfl⟩
  | some pair =>
    obtain ⟨before,guard,below,same,skipped,hit,entry,-,-⟩ := nextHandler_matches matched found
    have first : site.guards.find? (fun guard => isTry guard.kind) = some guard := by
      rw [same,find?_append,find?_eq_none.mpr fun other member => by simpa using skipped other member,
        Option.none_or,find?_cons,hit]
    rw [first]
    have pushed := entry.pushed
    cases kind : guard.kind with
    | finallyBody => simp [kind,isTry] at hit
    | tryCatch | tryFinally =>
      simp only [kind] at pushed
      obtain ⟨there,known⟩ := pushed
      exact ⟨_,_,there,rfl,known⟩

/-- In a calm run the handlers of the frame are those around the instruction, at the exit of a loop that has run out
those around the loop, and throws are delivered to the innermost one. -/
theorem handlers_lexical (body : Stmt) (neat : tidy false [] none body = true) (outer : Nat) (frame : Frame)
    (reached : Runs outer body frame) : ∃ site, siteAt (compileFunction body) frame.pc = some site ∧
      (pushedBy frame.handlers = lexical site.guards ∧ (∀ value, Delivers (compileFunction body) frame site value) ∨
        site.mode = .leaving ∧ pushedBy frame.handlers = lexical site.guards.tail) := by
  obtain ⟨⟨line,found,good⟩,-⟩ := run_keeps neat (by simp) reached
  refine ⟨line.site,by simp [siteAt,found],?_⟩
  rcases good.handlers with matched | ⟨leaving,guard,rest,same,-,matched⟩
  · exact Or.inl ⟨matches_lexical matched,fun value => matches_delivers matched⟩
  · rw [same]
    exact Or.inr ⟨leaving,matches_lexical matched⟩

/-- `for (x of []) {} try { throw 1 } catch {}`. -/
def loopBeforeTry : Stmt := .seq (.forOf true (.place .nil) .leaf .empty) (.tryCatch (.raise .leaf) none .empty)

def doneReply : Reply := ⟨false,undefined,true,false⟩

theorem handlers_lexical_after_loop : ∃ frame, Runs 0 loopBeforeTry frame ∧ frame.handlers.length = 1 ∧
    ∃ site, siteAt (compileFunction loopBeforeTry) frame.pc = some site ∧ (pushedBy frame.handlers = lexical site.guards ∧
        (∀ value, Delivers (compileFunction loopBeforeTry) frame site value) ∨
        site.mode = .leaving ∧ pushedBy frame.handlers = lexical site.guards.tail) := by
  have followed : (follow (step 0 (compileFunction loopBeforeTry)) (calm 0 (compileFunction loopBeforeTry))
      (List.replicate 12 doneReply) entry).map (fun frame => frame.handlers.length) = some 1 := by decide +kernel
  obtain ⟨frame,run,one⟩ := Option.map_eq_some_iff.mp followed
  have reached : Runs 0 loopBeforeTry frame := reach_of_follow entry .start run
  exact ⟨frame,reached,one,handlers_lexical loopBeforeTry (by decide +kernel) 0 frame reached⟩

/-- `try { for (x of []) {} throw 1 } catch {}`. -/
def loopInTry : Stmt := .tryCatch (.seq (.forOf true (.place .nil) .leaf .empty) (.raise .leaf)) none .empty

/-- The exit of the exhausted loop pops the handler of the `try` around it: the throw is not caught. -/
theorem handler_popped_twice : ∃ frame site last,
    follow (step 0 (compileFunction loopInTry)) (fun _ _ => true) (List.replicate 12 doneReply) entry = some frame ∧
      siteAt (compileFunction loopInTry) frame.pc = some site ∧ site.mode = .plain ∧
      lexical site.guards = [(.tryCatch,0)] ∧ pushedBy frame.handlers = [] ∧
      stepOutcome 0 (compileFunction loopInTry) doneReply frame = .threw undefined last :=
  ⟨⟨19,[.value undefined],[],.none,[],1,[.opened 0 false,.exhausted 0]⟩,⟨[⟨.tryCatch,0,[]⟩],[.value],.plain⟩,
    ⟨19,[],[],.none,[],1,[.opened 0 false,.exhausted 0]⟩,by decide +kernel⟩

end Runs

end Ant.Silver.Handlers

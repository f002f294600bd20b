import LakeNative.Compiler.Derivation
import LakeNative.Compiler.Machine

/-! # Blocks behind which a dying actor is noticed

`IS_DYING` is looked at in `quantum_loop_block` alone. A block that may set it goes on there, and
the blocks that wait, park, or stay in their branch do not set it.
-/

namespace LakeNative.Control

open LakeNative.Runtime LakeNative.Compiler

variable {W : Type} {rt : RtFuncs W} {ctx : CompilerCtx}

/-- The actor is dying once it has called `rt_die_actor`, and no call that parks, accesses
memory or passes the arguments of a `self(...)` marks it. The others may as well, as
`rt_allocate` does when there is no memory. -/
structure MarksDying (rt : RtFuncs W) : Prop where
  dies : ∀ args world, rt.isDying (rt.call "rt_die_actor" args world).2 = true
  parks : ∀ name args world, isParkAware name = true →
    rt.isDying (rt.call name args world).2 = rt.isDying world
  accesses : ∀ name args world, isUnrollSafeSideEffect name = true →
    rt.isDying (rt.call name args world).2 = rt.isDying world
  resets : ∀ world, rt.isDying (rt.resetArena world) = rt.isDying world
  recopies : ∀ args world, rt.isDying (rt.recopy args world).2 = rt.isDying world

/-- The block goes on through `quantum_loop_block`, or leaves the flag as it is. -/
def Watched (rt : RtFuncs W) (block : Block W) : Prop :=
  ∀ exec, (∃ next, (block exec).2 = .goto next) ∨
    rt.isDying (block exec).1.world = rt.isDying exec.world

/-! ## The blocks of statements -/

theorem watched_goto {block : Block W} (goesOn : ∀ exec, ∃ next, (block exec).2 = .goto next) :
    Watched rt block := fun exec => .inl (goesOn exec)

/-- A block traps with the state that it started in. -/
theorem watched_orTrap {result : ExecCtx W → Option (ExecCtx W × Exit)}
    (goesOn : ∀ exec after exit, result exec = some (after, exit) →
      (∃ next, exit = .goto next) ∨ rt.isDying after.world = rt.isDying exec.world) :
    Watched rt fun exec => orTrap exec (result exec) := by
  intro exec
  dsimp only
  cases isResult : result exec with
  | none => exact .inr rfl
  | some pair => exact goesOn exec pair.1 pair.2 isResult

/-- Words are passed to the branch without a change of the flag. -/
theorem isDying_passSelf (marks : MarksDying rt) (machine : String) (argTypes : List String)
    (values : List Word) (world : W) :
    rt.isDying (passSelf rt ctx machine argTypes values world).2 = rt.isDying world := by
  rw [passSelf]
  dsimp only
  split
  · exact marks.resets world
  · exact marks.recopies _ world

theorem watched_rtCallBlock (marks : MarksDying rt) (id : Nat) (callee : String) (base count : Nat) :
    Watched rt (rtCallBlock rt id callee base count) := by
  intro exec
  rw [rtCallBlock]
  dsimp only
  split
  · rename_i isPark
    right
    rw [← marks.parks callee (exec.staged base count) exec.world isPark]
    rcases rt.call callee (exec.staged base count) exec.world with ⟨value, world⟩
    cases value <;> rfl
  · exact .inl ⟨id + 1, rfl⟩

theorem watched_changeStateBlock (marks : MarksDying rt) (candidates : List BranchInfo)
    (select : Memory → (Nat → Word) → Nat) (argTypes : List String) (base : Nat) :
    Watched rt (changeStateBlock rt ctx candidates select argTypes base) :=
  fun _ => .inr (isDying_passSelf marks _ _ _ _)

theorem watched_fusedSelfBlock (marks : MarksDying rt) (candidates : List BranchInfo)
    (select : Memory → (Nat → Word) → Nat) (argTypes : List String) (folded : List Folded) :
    Watched rt (fusedSelfBlock rt ctx candidates select argTypes folded) := by
  apply watched_orTrap
  intro exec after exit isResult
  rcases bind_some isResult with ⟨values, -, result⟩
  cases result
  exact .inr (isDying_passSelf marks _ _ _ _)

theorem watched_waitBlock (wait : WaitExpr) (dispatch : Word → Option Nat) (filter : List Folded)
    (starts : List Nat) (id : Nat) : Watched rt (waitBlock rt wait dispatch filter starts id) := by
  intro exec
  rw [waitBlock]
  split
  · exact .inr rfl
  · dsimp only
    rcases chosenHandler rt wait dispatch filter exec with - | handler
    · exact .inr rfl
    · exact .inl ⟨_, rfl⟩

/-- A block for a call of `rt_die_actor` makes that call and goes on, unless an argument traps. -/
theorem die_call_made {id : Nat} {scope : Scope} {ty : Ty} {args : List Expr} {emitted : Emitted W}
    (compiled : compileFusedRtCall rt ctx id scope "rt_die_actor" args = some emitted ∨
      ctx.declaredRt "rt_die_actor" = true ∧
        compileCall rt ctx id scope "rt_die_actor" ty args = some emitted) :
    ∀ entry ∈ emitted.code, ∀ exec, (entry.2 exec).2 = .trap ∨
      (entry.2 exec).2 = .goto (id + 1) ∧ ∃ values, (entry.2 exec).1.world =
        (rt.call "rt_die_actor" values exec.world).2 := by
  have made : ∀ exec values, (withResult exec (rt.call "rt_die_actor" values exec.world)).world =
      (rt.call "rt_die_actor" values exec.world).2 := by
    intro exec values
    rcases rt.call "rt_die_actor" values exec.world with ⟨value, world⟩
    cases value <;> rfl
  intro entry member exec
  rcases compiled with isFused | ⟨declared, isCall⟩
  · rcases bind_some isFused with ⟨folded, -, result⟩
    cases result
    rcases List.mem_singleton.mp member with rfl
    dsimp only
    rcases evalAll folded (exec.view rt) with - | values
    · exact .inl rfl
    · exact .inr ⟨rfl, values, made exec values⟩
  · rw [compileCall] at isCall
    dsimp only at isCall
    rw [if_pos declared] at isCall
    cases isCall
    rcases List.mem_singleton.mp member with rfl
    exact .inr ⟨rfl, exec.staged scope.jumpArgsBase args.length, made exec _⟩

/-! ## The code of a branch -/

/-- All blocks of the code are watched. -/
def AllWatched (rt : RtFuncs W) (code : Code W) : Prop := ∀ entry ∈ code, Watched rt entry.2

theorem AllWatched.append {first second : Code W} (watched : AllWatched rt first)
    (alsoWatched : AllWatched rt second) : AllWatched rt (first ++ second) :=
  List.forall_mem_append.mpr ⟨watched, alsoWatched⟩

theorem AllWatched.single {id : Nat} {block : Block W} (watched : Watched rt block) :
    AllWatched rt [(id, block)] :=
  List.forall_mem_singleton.mpr watched

theorem watched_fastCode (op : FastOp W) (ids : List Nat) (next : Nat) :
    AllWatched rt (fastCode op ids next) := by
  intro entry member
  rcases List.mem_map.mp member with ⟨id, -, rfl⟩
  apply watched_orTrap
  intro exec after exit isResult
  rcases Option.map_eq_some_iff.mp isResult with ⟨result, -, isPair⟩
  cases isPair
  exact .inl ⟨next, rfl⟩

theorem watched_compilePure {id : Nat} {scope : Scope} {expr : Expr} {emitted : Emitted W}
    (compiled : compilePure rt ctx id scope expr = some emitted) : AllWatched rt emitted.code := by
  rcases bind_some compiled with ⟨⟨op, added⟩, -, result⟩
  cases result
  exact watched_fastCode op [id] (id + 1)

theorem watched_compileTuple {id : Nat} {scope : Scope} {elems : List Expr} {emitted : Emitted W}
    (compiled : compileTuple rt ctx id scope elems = some emitted) : AllWatched rt emitted.code := by
  rcases bind_some compiled with ⟨folded, -, result⟩
  cases result
  apply AllWatched.single
  apply watched_orTrap
  intro exec after exit isResult
  rcases bind_some isResult with ⟨filled, -, isPair⟩
  cases isPair
  exact .inl ⟨id + 1, rfl⟩

theorem watched_compileFusedRtCall {id : Nat} {scope : Scope} {callee : String} {args : List Expr}
    {emitted : Emitted W} (compiled : compileFusedRtCall rt ctx id scope callee args = some emitted) :
    AllWatched rt emitted.code := by
  rcases bind_some compiled with ⟨folded, -, result⟩
  cases result
  apply AllWatched.single
  apply watched_orTrap
  intro exec after exit isResult
  rcases bind_some isResult with ⟨values, -, isPair⟩
  cases isPair
  exact .inl ⟨id + 1, rfl⟩

theorem watched_compileFusedSelfCall (marks : MarksDying rt) {id : Nat} {scope : Scope}
    {args : List Expr} {emitted : Emitted W}
    (compiled : compileFusedSelfCall rt ctx id scope args = some emitted) :
    AllWatched rt emitted.code := by
  rcases bind_some compiled with ⟨folded, -, later⟩
  rcases bind_some later with ⟨select, -, result⟩
  cases result
  exact .single (watched_fusedSelfBlock marks _ _ _ _)

theorem watched_compileCall (marks : MarksDying rt) {id : Nat} {scope : Scope} {callee : String}
    {ty : Ty} {args : List Expr} {emitted : Emitted W}
    (compiled : compileCall rt ctx id scope callee ty args = some emitted) :
    AllWatched rt emitted.code := by
  rw [compileCall] at compiled
  dsimp only at compiled
  split at compiled
  · cases compiled
    exact .single (watched_rtCallBlock marks _ _ _ _)
  · split at compiled
    · cases compiled
      exact .single (watched_goto fun exec => ⟨id + 1, rfl⟩)
    · rcases bind_some compiled with ⟨select, -, result⟩
      split at result
      · cases result
        exact .single (watched_changeStateBlock marks _ _ _ _)
      · cases result
        exact .single (watched_goto fun exec => ⟨id + 1, rfl⟩)

/-- Every block that the pipeline emits is watched. -/
theorem watched_code (marks : MarksDying rt) {task : Compiler.Task W} {emitted : Emitted W}
    (derived : Compiles rt ctx task emitted) : AllWatched rt emitted.code := by
  induction derived with
  | @rule premises task emitted isRule compiled derived induction =>
  have first : ∀ {part others}, premises = part :: others → AllWatched rt part.2.code := by
    rintro part others rfl
    exact induction part List.mem_cons_self
  have second : ∀ {part other}, premises = [part, other] → AllWatched rt other.2.code := by
    rintro part other rfl
    exact induction other (List.mem_cons_of_mem _ List.mem_cons_self)
  have stages : ∀ id slot, AllWatched rt [(id, (stageBlock id slot : Block W))] := fun id slot =>
    .single (watched_goto fun exec => ⟨id + 1, rfl⟩)
  cases isRule with
  | fast isFast => exact watched_compilePure isFast
  | tuple isTuple => exact watched_compileTuple isTuple
  | fusedSelf isFused => exact watched_compileFusedSelfCall marks isFused
  | fusedRt isFused => exact watched_compileFusedRtCall isFused
  | call called => exact (first rfl).append (watched_compileCall marks called)
  | @string id _ _ _ => exact .single (watched_goto fun exec => ⟨id + 1, rfl⟩)
  | @letOpen id _ _ _ => exact .single (watched_goto fun exec => ⟨id + 1, rfl⟩)
  | @letValue _ _ _ _ _ _ next _ =>
      exact (first rfl).append (.single (watched_goto fun exec => ⟨next + 1, rfl⟩))
  | index _ _ =>
      exact ((((first rfl).append (stages _ _)).append (second rfl)).append (stages _ _)).append
        (.single (watched_rtCallBlock marks _ _ _ _))
  | kTable _ _ => exact (first rfl).append (.single (watched_goto fun exec => ⟨_, rfl⟩))
  | «when» _ _ =>
      refine (((first rfl).append (.single ?_)).append (second rfl)).append ?_
      · exact watched_goto fun exec => ⟨_, rfl⟩
      · intro entry member
        rcases List.mem_map.mp member with ⟨exit, -, rfl⟩
        exact watched_goto fun exec => ⟨_, rfl⟩
  | wait _ _ _ _ => exact .append (.single (watched_waitBlock _ _ _ _ _)) (first rfl)
  | argsCons _ => exact ((first rfl).append (stages _ _)).append (second rfl)
  | argsNil | seqNil | armsNil | handlersNil | bodyNil => exact nofun
  | letTerminal _ | seqLast _ | bodyJoin _ _ | bodyLast _ => exact first rfl
  | seqCons _ | armsSelf _ | armsOn _ | handlersCons | bodyStmt _ =>
      exact (first rfl).append (second rfl)
  | bodyFlush _ => exact (watched_fastCode _ _ _).append (first rfl)

/-! ## The code of a machine -/

theorem watched_compileBranch (marks : MarksDying rt) {factor : Nat} {patterns : List Pattern}
    {body : List Expr} {emitted : Emitted W}
    (compiled : compileBranch rt ctx factor patterns body = some emitted) :
    AllWatched rt emitted.code := by
  rw [compileBranch] at compiled
  split at compiled
  · rcases bind_some compiled with ⟨⟨iterations, state⟩, -, later⟩
    rcases bind_some later with ⟨exit, isExit, result⟩
    cases result
    refine .append (.single ?_) (watched_code marks (compiles_seq _ isExit))
    apply watched_orTrap
    intro exec after exit isResult
    rcases Option.map_eq_some_iff.mp isResult with ⟨chunk, -, isPair⟩
    cases isPair
    exact .inl ⟨_, rfl⟩
  · exact watched_code marks (compiles_body body compiled)

/-- A statement before the `self(...)` of an unrolled loop makes no other call than an access. -/
def OnlyAccesses : PreStmt → Prop
  | .letVar _ _ => True
  | .sideEffect callee _ => isUnrollSafeSideEffect callee = true

theorem onlyAccesses_classified {stmt : Expr} {pre : PreStmt}
    (classified : classifyPreStmt stmt = some pre) : OnlyAccesses pre := by
  unfold classifyPreStmt at classified
  split at classified
  · split at classified
    · cases classified
      trivial
    · cases classified
  · split at classified
    · rename_i safe
      cases classified
      exact (Bool.and_eq_true_iff.mp safe).1
    · cases classified
  · cases classified

theorem onlyAccesses_selfArm {machine : String} {count : Nat} {body : List Expr}
    {pre : List PreStmt} {args : List Expr} (isArm : selfArm machine count body = some (pre, args)) :
    ∀ stmt ∈ pre, OnlyAccesses stmt := by
  unfold selfArm at isArm
  split at isArm
  · split at isArm
    · rcases Option.map_eq_some_iff.mp isArm with ⟨stmts, isMapped, isPair⟩
      cases isPair
      intro stmt member
      have mapped : some stmt ∈ pre.map some := List.mem_map_of_mem member
      rw [← mapM_eq_some_iff.mp isMapped] at mapped
      rcases List.mem_map.mp mapped with ⟨source, -, classified⟩
      exact onlyAccesses_classified classified
    · cases isArm
  · cases isArm

theorem onlyAccesses_unrollInfo {factor : Nat} {patterns : List Pattern} {body : List Expr}
    {info : TailLoopInfo} (isInfo : unrollInfo ctx factor patterns body = some info) :
    ∀ stmt ∈ info.preStmts, OnlyAccesses stmt := by
  unfold unrollInfo at isInfo
  split at isInfo
  · rcases detectTailLoop_cases isInfo with ⟨-, loop, -, -, -, -, -, -, isArm, -⟩
    exact onlyAccesses_selfArm isArm
  · cases isInfo

/-- The accesses before the `self(...)` leave the flag as it is. -/
theorem isDying_op (marks : MarksDying rt) {state next : BranchState} {stmt : PreStmt}
    {op : FastOp W} (safe : OnlyAccesses stmt)
    (compiled : compilePreStmt rt ctx state stmt = some (op, next)) {exec after : ExecCtx W}
    (runs : op exec = some after) : rt.isDying after.world = rt.isDying exec.world := by
  cases stmt with
  | letVar name default =>
      rcases bind_some compiled with ⟨value, -, result⟩
      cases result
      rcases Option.map_eq_some_iff.mp runs with ⟨word, -, rfl⟩
      rfl
  | sideEffect callee args =>
      rcases bind_some compiled with ⟨folded, -, result⟩
      cases result
      rcases Option.map_eq_some_iff.mp runs with ⟨values, -, rfl⟩
      exact marks.accesses callee values exec.world safe

theorem isDying_ops (marks : MarksDying rt) :
    ∀ {stmts : List PreStmt} {state next : BranchState} {ops : List (FastOp W)},
      (∀ stmt ∈ stmts, OnlyAccesses stmt) →
      compilePreStmts rt ctx state stmts = some (ops, next) → ∀ {exec after : ExecCtx W},
      ops.foldlM (fun exec op => op exec) exec = some after →
      rt.isDying after.world = rt.isDying exec.world
  | [], _, _, _, _, compiled, _, _, runs => by
      cases compiled
      cases runs
      rfl
  | stmt :: stmts, _, _, _, safe, compiled, exec, after, runs => by
      rcases bind_some compiled with ⟨⟨op, middle⟩, isFirst, later⟩
      rcases bind_some later with ⟨⟨others, last⟩, isRest, result⟩
      cases result
      rw [List.foldlM_cons] at runs
      rcases bind_some runs with ⟨between, ranFirst, ranRest⟩
      rcases List.forall_mem_cons.mp safe with ⟨firstSafe, restSafe⟩
      exact (isDying_ops marks restSafe isRest ranRest).trans (isDying_op marks firstSafe isFirst ranFirst)

/-- No iteration marks the actor. -/
def Calm (rt : RtFuncs W) (iterations : List (Iteration W)) : Prop :=
  ∀ iteration ∈ iterations, ∀ exec after, iteration.run rt exec = some after →
    rt.isDying after.world = rt.isDying exec.world

theorem calm_compileIterations (marks : MarksDying rt) {info : TailLoopInfo}
    (safe : ∀ stmt ∈ info.preStmts, OnlyAccesses stmt) :
    ∀ {count : Nat} {state final : BranchState} {iterations : List (Iteration W)},
      compileIterations rt ctx info state count = some (iterations, final) → Calm rt iterations
  | 0, _, _, _, compiled => by
      cases compiled
      exact nofun
  | count + 1, _, _, _, compiled => by
      rcases bind_some compiled with ⟨⟨iteration, middle⟩, isFirst, later⟩
      rcases bind_some later with ⟨⟨others, last⟩, isRest, result⟩
      cases result
      refine List.forall_mem_cons.mpr ⟨?_, calm_compileIterations marks safe isRest⟩
      intro exec after runs
      rcases bind_some isFirst with ⟨cond, -, later⟩
      rcases bind_some later with ⟨⟨pre, inner⟩, isPre, later⟩
      rcases bind_some later with ⟨args, -, result⟩
      cases result
      rcases bind_some runs with ⟨between, ranPre, later⟩
      rcases bind_some later with ⟨values, -, result⟩
      cases result
      have same : rt.isDying between.world = rt.isDying exec.world :=
        isDying_ops marks safe isPre ranPre
      exact same

theorem isDying_runChunk {truthy : Bool} {iterations : List (Iteration W)} (calm : Calm rt iterations)
    {exec final : ExecCtx W} {count : Nat}
    (runs : runChunk rt truthy exec iterations = some (final, count)) :
    rt.isDying final.world = rt.isDying exec.world := by
  induction iterations generalizing exec count with
  | nil =>
      cases runs
      rfl
  | cons iteration iterations induction =>
      rcases List.forall_mem_cons.mp calm with ⟨firstCalm, restCalm⟩
      rcases bind_some runs with ⟨cond, -, later⟩
      split at later
      · rcases bind_some later with ⟨between, ranFirst, later⟩
        rcases bind_some later with ⟨⟨last, others⟩, ranRest, result⟩
        cases result
        exact (induction restCalm ranRest).trans (firstCalm _ _ ranFirst)
      · cases later
        rfl

/-- The blocks of a machine are watched and its loops are calm. -/
structure WatchedMachine (rt : RtFuncs W) (machine : List (BranchCode W)) : Prop where
  blocks : ∀ branch ∈ machine, AllWatched rt branch.code
  loops : ∀ branch ∈ machine, ∀ loop, branch.loop = some loop → Calm rt loop.iterations

theorem watched_compileMachine (marks : MarksDying rt) {factor : Nat}
    {branches : List (List Pattern × List Expr)} {machine : List (BranchCode W)}
    (compiled : compileMachine rt ctx factor branches = some machine) : WatchedMachine rt machine := by
  suffices both : ∀ branch ∈ machine, AllWatched rt branch.code ∧
      ∀ loop, branch.loop = some loop → Calm rt loop.iterations from
    ⟨fun branch member => (both branch member).1, fun branch member => (both branch member).2⟩
  intro branch member
  have mapped : some branch ∈ machine.map some := List.mem_map_of_mem member
  rw [compileMachine] at compiled
  rw [← mapM_eq_some_iff.mp compiled] at mapped
  rcases List.mem_map.mp mapped with ⟨source, -, isCompiled⟩
  rcases bind_some isCompiled with ⟨emitted, isEmitted, later⟩
  have watched := watched_compileBranch marks isEmitted
  split at later
  · rename_i info isInfo
    rcases bind_some later with ⟨⟨iterations, state⟩, isIterations, result⟩
    cases result
    refine ⟨watched, fun loop isLoop => ?_⟩
    cases isLoop
    exact calm_compileIterations marks (onlyAccesses_unrollInfo isInfo) isIterations
  · cases later
    exact ⟨watched, nofun⟩

/-! ## Calls of a machine -/

theorem quantumLoop_stops (rt : RtFuncs W) (call : Call W) (overBudget : Bool) (next : Nat)
    (isDying : rt.isDying call.exec.world = true) :
    call.quantumLoop rt overBudget next = { call with blockId := next }.stop .done := by
  rw [Call.quantumLoop]
  exact if_pos isDying

theorem exec_quantumLoop (rt : RtFuncs W) (call : Call W) (overBudget : Bool) (next : Nat) :
    (call.quantumLoop rt overBudget next).exec = call.exec := by
  rw [Call.quantumLoop]
  dsimp only
  split
  · rfl
  · split <;> rfl

/-- A block behind which the actor is dying ends the call, which returns `STOP_DONE`. -/
theorem dying_step_done {machine : List (BranchCode W)} (watched : WatchedMachine rt machine)
    {call next : Call W} {overBudget : Bool} (alive : rt.isDying call.exec.world = false)
    (step : CallStep rt machine call overBudget next)
    (dies : rt.isDying next.exec.world = true) : next.stopped = some .done := by
  have isWatched : ∀ {block : Block W}, call.AtBlock machine block → Watched rt block := by
    rintro block ⟨branch, isBranch, member, -⟩
    exact watched.blocks branch (List.mem_of_getElem? isBranch) _ member
  have left : ∀ {block : Block W} {exec : ExecCtx W} {exit : Exit}, call.AtBlock machine block →
      block call.exec = (exec, exit) → (∀ next, exit ≠ .goto next) → rt.isDying exec.world = false := by
    intro block exec exit isBlock runs notGoto
    rcases isWatched isBlock call.exec with ⟨next, isGoto⟩ | same
    · rw [runs] at isGoto
      exact absurd isGoto (notGoto next)
    · rw [runs] at same
      exact same.trans alive
  have chunk : ∀ {loop : UnrolledLoop W} {final : ExecCtx W} {count : Nat},
      call.AtLoop machine loop →
      runChunk rt loop.continueWhenTruthy call.exec loop.iterations = some (final, count) →
      rt.isDying (commit loop.paramCount call.exec final).world = false := by
    rintro loop final count ⟨branch, isBranch, hasLoop, -⟩ runs
    have calm := watched.loops branch (List.mem_of_getElem? isBranch) loop hasLoop
    exact (isDying_runChunk calm runs).trans alive
  cases step with
  | noBranch => rfl
  | noBlock => rfl
  | goto _ isBlock runs =>
      rw [exec_quantumLoop] at dies
      rw [quantumLoop_stops rt _ _ _ dies]
      rfl
  | wait _ isBlock runs => exact absurd dies (Bool.eq_false_iff.mp (left isBlock runs nofun))
  | park _ isBlock runs => exact absurd dies (Bool.eq_false_iff.mp (left isBlock runs nofun))
  | enter _ isBlock runs =>
      rw [exec_quantumLoop] at dies
      exact absurd dies (Bool.eq_false_iff.mp (left isBlock runs nofun))
  | enterSame _ isBlock runs same =>
      have alive := left isBlock runs nofun
      rw [Call.backEdge] at dies
      dsimp only at dies
      split at dies
      · exact absurd dies (Bool.eq_false_iff.mp alive)
      · exact absurd dies (Bool.eq_false_iff.mp alive)
  | chunk _ isLoop runs =>
      have alive := chunk isLoop runs
      rw [Call.loopEdge] at dies
      dsimp only at dies
      split at dies
      · exact absurd dies (Bool.eq_false_iff.mp alive)
      · exact absurd dies (Bool.eq_false_iff.mp alive)
  | leave _ isLoop runs =>
      rw [exec_quantumLoop] at dies
      exact absurd dies (Bool.eq_false_iff.mp (chunk isLoop runs))

end LakeNative.Control

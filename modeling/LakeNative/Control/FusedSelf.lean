import LakeNative.Compiler.FoldPlaces
import LakeNative.Compiler.Derivation

/-! # `self(...)` of pure arguments

A call `self(...)` whose arguments are pure is one block, which writes their values to the
variables at once. All other calls stage the values of their arguments one by one first.
-/

namespace LakeNative.Control

open LakeNative.Runtime LakeNative.Compiler LakeNative.NumberedCode LakeNative.Transitions

variable {W : Type} {rt : RtFuncs W} {ctx : CompilerCtx}

/-! ## The two forms -/

theorem foldWithSelf_of_fold {literals : Literals} {state : BranchState} {expr : Expr}
    {folded : Folded} (isFolded : fold literals state expr = some folded) :
    foldWithSelf literals true state expr = some folded := by
  rw [fold] at isFolded
  fun_induction foldWithSelf literals false state expr generalizing folded with
  | case1 | case2 | case3 => exact isFolded
  | case4 _ never => cases never
  | case5 => cases isFolded
  | case6 name ty notSelf =>
      rw [foldWithSelf]
      · exact isFolded
      · exact notSelf
  | case7 receiver index induction =>
      rcases bind_some isFolded with ⟨pointer, isPointer, result⟩
      rw [foldWithSelf, induction isPointer]
      exact result
  | case8 receiver index first second =>
      rcases bind_some isFolded with ⟨pointer, isPointer, result⟩
      rcases bind_some result with ⟨offset, isOffset, result⟩
      rw [foldWithSelf, first isPointer, second isOffset]
      exact result
  | case9 op left right first second =>
      rcases bind_some isFolded with ⟨leftValue, isLeft, result⟩
      rcases bind_some result with ⟨rightValue, isRight, result⟩
      rw [foldWithSelf, first isLeft, second isRight]
      exact result
  | case10 inner induction =>
      rcases bind_some isFolded with ⟨value, isValue, result⟩
      rw [foldWithSelf, induction isValue]
      exact result
  | case11 callee ty pointer offset others first second =>
      rcases bind_some isFolded with ⟨bits, isBits, result⟩
      rcases bind_some result with ⟨pointerValue, isPointer, result⟩
      rcases bind_some result with ⟨offsetValue, isOffset, result⟩
      rw [foldWithSelf, isBits, first isPointer, second isOffset]
      exact result
  | case12 => cases isFolded

/-- Evaluate an argument to `TEMP_VAL`. -/
def evalBlock (rt : RtFuncs W) (value : Folded) (id : Nat) : Block W := fun exec =>
  orTrap exec (((value (exec.view rt)).map fun value => exec.setTemp value).map fun exec =>
    (exec, .goto (id + 1)))

/-- Evaluate and stage pure arguments from the given index on. -/
def stagingCode (rt : RtFuncs W) (base index id : Nat) : List Folded → Code W
  | [] => []
  | value :: folded =>
      [(id, evalBlock rt value id)] ++ [(id + 1, stageBlock (id + 1) (base + index))] ++
        stagingCode rt base (index + 1) (id + 2) folded

theorem compileExpr_pure {stmt : Expr} (pure : isPure stmt = true) (id : Nat) (scope : Scope) :
    compileExpr rt ctx id scope stmt = compilePure rt ctx id scope stmt := by
  cases stmt with
  | letVar | when | wait | string | tuple | unit | other => cases pure
  | jump ident args =>
      rw [compileExpr.eq_def]
      dsimp only
      rw [if_pos pure]
  | index receiver index => rw [compileExpr, if_pos pure]
  | num | bool | atom | var | neg | tupleIndex | binary =>
      rw [compileExpr]
      · rw [if_pos pure]
      all_goals simp

theorem compilePure_folded {stmt : Expr} {scope : Scope} {folded : Folded} (pure : isPure stmt = true)
    (isFolded : fold ctx.toLiterals scope.toBranchState stmt = some folded) (id : Nat) :
    compilePure rt ctx id scope stmt =
      some ⟨.continued (id + 1), [(id, evalBlock rt folded id)], scope, [], []⟩ := by
  have isFast := foldWithSelf_of_fold isFolded
  cases stmt with
  | letVar => cases pure
  | _ =>
      rw [compilePure, compileFast, isFast]
      · rfl
      · simp

theorem compileArgs_pure {args : List Expr} {folded : List Folded} (pure : allPure args = true)
    (base count : Nat) {index id : Nat} {scope : Scope}
    (isFolded : args.mapM (fold ctx.toLiterals scope.toBranchState) = some folded)
    (isBase : scope.jumpArgsBase = base) :
    compileArgs rt ctx base count index id scope args =
      some ⟨.continued (id + 2 * args.length), stagingCode rt base index id folded, scope, [], []⟩ := by
  induction args generalizing folded index id scope with
  | nil =>
      cases isFolded
      rw [compileArgs]
      rfl
  | cons arg args induction =>
      rw [allPure, Bool.and_eq_true] at pure
      rw [List.mapM_cons] at isFolded
      rcases bind_some isFolded with ⟨value, isValue, result⟩
      rcases bind_some result with ⟨values, areValues, result⟩
      cases result
      let inner : Scope := { scope with jumpArgsBase := base + count }
      have sameScope : { inner with jumpArgsBase := base } = scope := by
        rw [← isBase]
      have compiled := @induction values pure.2 (index + 1) (id + 2) { inner with jumpArgsBase := base }
        areValues rfl
      have first := @compilePure_folded W rt ctx arg inner value pure.1 isValue id
      have behind : id + 2 + 2 * args.length = id + 2 * (arg :: args).length := by
        rw [List.length_cons]
        omega
      rw [behind] at compiled
      rw [compileArgs, compileExpr_pure pure.1]
      change (compilePure rt ctx id inner arg).bind _ = _
      rw [first]
      change (compileArgs rt ctx base count (index + 1) (id + 2) _ args).bind _ = _
      rw [compiled, sameScope]
      rfl

theorem mem_stagingCode {base index id number : Nat} {folded : List Folded} {block : Block W} :
    (number, block) ∈ stagingCode rt base index id folded ↔
      ∃ pos value, folded[pos]? = some value ∧
        ((number = id + 2 * pos ∧ block = evalBlock rt value number) ∨
        (number = id + 2 * pos + 1 ∧ block = stageBlock number (base + (index + pos)))) := by
  induction folded generalizing index id with
  | nil => simp [stagingCode]
  | cons first folded induction =>
      rw [stagingCode, List.mem_append, List.mem_append, induction, List.mem_singleton,
        List.mem_singleton, Prod.mk.injEq, Prod.mk.injEq]
      constructor
      · rintro ((⟨rfl, rfl⟩ | ⟨rfl, rfl⟩) | ⟨pos, value, atPos, isBlock⟩)
        · exact ⟨0, first, rfl, .inl ⟨rfl, rfl⟩⟩
        · exact ⟨0, first, rfl, .inr ⟨rfl, rfl⟩⟩
        · refine ⟨pos + 1, value, atPos, ?_⟩
          have number : id + 2 + 2 * pos = id + 2 * (pos + 1) := by omega
          have slot : index + 1 + pos = index + (pos + 1) := by omega
          rwa [number, slot] at isBlock
      · rintro ⟨pos, value, atPos, isBlock⟩
        cases pos with
        | zero =>
            cases atPos
            rcases isBlock with isEval | isStage
            · rcases isEval with ⟨rfl, rfl⟩
              exact .inl (.inl ⟨rfl, rfl⟩)
            · rcases isStage with ⟨rfl, rfl⟩
              exact .inl (.inr ⟨rfl, rfl⟩)
        | succ pos =>
            refine .inr ⟨pos, value, atPos, ?_⟩
            have number : id + 2 + 2 * pos = id + 2 * (pos + 1) := by omega
            have slot : index + 1 + pos = index + (pos + 1) := by omega
            rwa [number, slot]

/-- A call of `self` with pure arguments, none of which has the type of a fat pointer. -/
structure SelfCall (rt : RtFuncs W) (ctx : CompilerCtx) where
  id : Nat
  scope : Scope
  args : List Expr
  pure : allPure args = true
  scalar : ∀ type ∈ exprTypeStrs args scope.lakeTypeOf, isPointerLikeType type = false
  folded : List Folded
  isFolded : args.mapM (fold ctx.toLiterals scope.toBranchState) = some folded
  select : Memory → (Nat → Word) → Nat
  isSelect : selectBranch ctx.switch (ctx.branchesForHash ctx.currentMachine
    (hashCallArgs ctx.hasher args scope.lakeTypeOf)) = some select

namespace SelfCall

variable (call : SelfCall rt ctx)

def base : Nat := call.scope.jumpArgsBase

def candidates : List BranchInfo :=
  ctx.branchesForHash ctx.currentMachine (hashCallArgs ctx.hasher call.args call.scope.lakeTypeOf)

def argTypes : List String := exprTypeStrs call.args call.scope.lakeTypeOf

/-- The number of the plain form's last block. -/
def callId : Nat := call.id + 2 * call.args.length

def fused : Block W := fusedSelfBlock rt ctx call.candidates call.select call.argTypes call.folded

def changeState : Block W :=
  changeStateBlock rt ctx call.candidates call.select call.argTypes call.base

/-- The arguments staged one by one, and the call. -/
def plainCode : Code W :=
  stagingCode rt call.base 0 call.id call.folded ++ [(call.callId, call.changeState)]

/-- The compiler takes the fused form. -/
theorem compileFusedSelfCall_eq : compileFusedSelfCall rt ctx call.id call.scope call.args =
    some ⟨.stateChange (call.id + 1), [(call.id, call.fused)], call.scope, [], []⟩ := by
  rw [compileFusedSelfCall, call.isFolded, call.isSelect]
  rfl

/-- Without it, the staging and the call of all other `self(...)` are these. -/
theorem compileArgs_eq : compileArgs rt ctx call.base call.args.length 0 call.id call.scope
    call.args = some ⟨.continued call.callId,
      stagingCode rt call.base 0 call.id call.folded, call.scope, [], []⟩ :=
  compileArgs_pure call.pure _ _ call.isFolded rfl

theorem compileCall_eq (noFunction : ctx.declaredRt "self" = false)
    (noVariable : call.scope.get "self" = none) (ty : Ty) :
    compileCall rt ctx call.callId call.scope "self" ty call.args =
      some ⟨.stateChange (call.callId + 1), [(call.callId, call.changeState)], call.scope, [], []⟩ := by
  rw [compileCall, noFunction]
  simp only [Bool.false_eq_true, if_false, noVariable, ite_self, if_true]
  rw [call.isSelect]
  rfl

theorem length_folded : call.folded.length = call.args.length := length_of_mapM call.isFolded

end SelfCall

/-! ## Staging -/

/-- The others write nothing that the actor reads, now or when its arena is reset. -/
def Undisturbed (rt : RtFuncs W) (before after : W) : Prop :=
  rt.load after = rt.load before ∧ rt.load (rt.resetArena after) = rt.load (rt.resetArena before)

theorem Undisturbed.trans {first second third : W} (left : Undisturbed rt first second)
    (right : Undisturbed rt second third) : Undisturbed rt first third :=
  ⟨right.1.trans left.1, right.2.trans left.2⟩

/-- A block runs, and the others that run behind it leave the actor's memory as it is. -/
def QuietRuns (rt : RtFuncs W) (block : Block W) (before : Point W) (exit : Exit)
    (after : Point W) : Prop :=
  BlockRuns rt block before exit after ∧ Undisturbed rt (block before.ctx).1.world after.ctx.world

abbrev QuietStep (rt : RtFuncs W) (code : Code W) : Point W → Exit → Point W → Prop :=
  CodeStep Point.blockId (QuietRuns rt) code

/-- The quantum has not expired, and the next block runs at once. -/
theorem quietStep_at_once (code : Code W) (exec : ExecCtx W) {id next : Nat} {block : Block W}
    {after : ExecCtx W}
    (registered : (id, block) ∈ code) (runs : block exec = (after, .goto next))
    (alive : rt.isDying after.world = false) :
    QuietStep rt code ⟨id, exec⟩ (.goto next) ⟨next, after⟩ := by
  refine ⟨block, registered, .block runs alive rfl (.refl _ _), ?_⟩
  rw [runs]
  exact ⟨rfl, rfl⟩

namespace SelfCall

variable (call : SelfCall rt ctx)

/-- So many arguments are staged and nothing else that the call reads has changed. -/
structure Staged (exec : ExecCtx W) (count : Nat) (now : ExecCtx W) : Prop where
  vars : now.actor.vars = exec.actor.vars
  ownPid : now.actor.ownPid = exec.actor.ownPid
  branchId : now.branchId = exec.branchId
  world : Undisturbed rt exec.world now.world
  done : ∀ index < count, ∀ value, call.folded[index]? = some value →
    value (exec.view rt) = some (now.jumpArgs (call.base + index))
  kept : ∀ slot, slot < call.base ∨ call.base + count ≤ slot →
    now.jumpArgs slot = exec.jumpArgs slot

theorem Staged.view {exec now : ExecCtx W} {count : Nat} (staged : call.Staged exec count now) :
    now.view rt = exec.view rt := by
  rw [ExecCtx.view, ExecCtx.view, staged.vars, staged.ownPid, staged.world.1]

/-- At an even number the next argument is to be evaluated, at an odd one it is in
`TEMP_VAL`. -/
def Progress (exec : ExecCtx W) (point : Point W) : Prop :=
  ∃ count, call.Staged exec count point.ctx ∧
    (point.blockId = call.id + 2 * count ∨ point.blockId = call.id + 2 * count + 1 ∧
      ∀ value, call.folded[count]? = some value →
        value (exec.view rt) = some point.ctx.actor.tempVal)

theorem Staged.others {exec after resumed : ExecCtx W} {count : Nat} {exit : Exit}
    (staged : call.Staged exec count after) (others : OthersRan exit after resumed)
    (quiet : Undisturbed rt after.world resumed.world) : call.Staged exec count resumed where
  vars := others.vars.trans staged.vars
  ownPid := others.ownPid.trans staged.ownPid
  branchId := others.branchId.trans staged.branchId
  world := staged.world.trans quiet
  done index below value atIndex := by
    rw [others.jumpArgs]
    exact staged.done index below value atIndex
  kept slot outside := by
    rw [others.jumpArgs]
    exact staged.kept slot outside

theorem Staged.setTemp {exec now : ExecCtx W} {count : Nat} (staged : call.Staged exec count now)
    (value : Word) : call.Staged exec count (now.setTemp value) where
  vars := staged.vars
  ownPid := staged.ownPid
  branchId := staged.branchId
  world := staged.world
  done := staged.done
  kept := staged.kept

theorem Staged.stage {exec now : ExecCtx W} {count : Nat} (staged : call.Staged exec count now)
    (isNext : ∀ value, call.folded[count]? = some value →
      value (exec.view rt) = some now.actor.tempVal) :
    call.Staged exec (count + 1) (now.setJumpArg (call.base + count) now.actor.tempVal) where
  vars := staged.vars
  ownPid := staged.ownPid
  branchId := staged.branchId
  world := staged.world
  done index below value atIndex := by
    rw [ExecCtx.jumpArgs_setJumpArg]
    by_cases isLast : index = count
    · subst isLast
      rw [Function.update_self]
      exact isNext value atIndex
    · rw [Function.update_of_ne (by omega)]
      exact staged.done index (by omega) value atIndex
  kept slot outside := by
    rw [ExecCtx.jumpArgs_setJumpArg, Function.update_of_ne (by omega)]
    exact staged.kept slot (by omega)

theorem progress_step {exec : ExecCtx W} {before after : Point W} {exit : Exit}
    (progress : call.Progress exec before) (step : QuietStep rt call.plainCode before exit after) :
    call.Progress exec after := by
  rcases step with ⟨block, member, taken, quiet⟩
  rcases progress with ⟨count, staged, place⟩
  cases taken with
  | @block id next current ran resumed exit runs alive resumes others =>
  dsimp only at staged place quiet member
  rw [runs] at quiet
  rw [plainCode, List.mem_append, mem_stagingCode, List.mem_singleton] at member
  rcases member with ⟨pos, value, atPos, ⟨number, rfl⟩ | ⟨number, rfl⟩⟩ | isCall
  · -- An argument is evaluated.
    rcases by omega with rfl : pos = count
    rw [evalBlock, staged.view] at runs
    cases isValue : value (exec.view rt) with
    | none =>
        rw [isValue] at runs
        cases runs
        cases resumes
    | some word =>
        rw [isValue] at runs
        cases runs
        cases resumes
        refine ⟨pos, (staged.setTemp call word).others call others quiet, .inr ⟨congrArg (· + 1) number, ?_⟩⟩
        intro other atOther
        cases atPos.symm.trans atOther
        rw [isValue, others.tempVal rfl]
        rfl
  · -- Its value is staged.
    rcases by omega with rfl : pos = count
    rcases place with isEven | ⟨-, isNext⟩
    · omega
    · cases runs
      cases resumes
      rw [Nat.zero_add] at others quiet
      exact ⟨pos + 1, (staged.stage call isNext).others call others quiet,
        .inl (congrArg (· + 1) number)⟩
  · -- The call does not come back.
    rcases Prod.mk.inj isCall with ⟨-, rfl⟩
    cases runs
    cases resumes

/-- Where the arguments are staged, they have the values that they have at the start. -/
theorem staged_of_run {exec : ExecCtx W} {history : List (Stage (Point W) Exit)} {now : ExecCtx W}
    (run : Run (QuietStep rt call.plainCode) ⟨call.id, exec⟩ history ⟨call.callId, now⟩) :
    call.Staged exec call.args.length now := by
  have start : call.Progress exec ⟨call.id, exec⟩ :=
    ⟨0, ⟨rfl, rfl, rfl, ⟨rfl, rfl⟩, nofun, fun _ _ => rfl⟩, .inl rfl⟩
  have progress := (run.invariant start fun _ _ _ progress step =>
    call.progress_step progress step).2
  rcases progress with ⟨count, staged, place⟩
  dsimp only [callId] at place
  rcases by omega with rfl : count = call.args.length
  exact staged

/-- What a quiet run stages are the values of all arguments. -/
theorem evalAll_of_staged {exec now : ExecCtx W} (staged : call.Staged exec call.args.length now) :
    evalAll call.folded (exec.view rt) =
      some ((List.range call.args.length).map fun index => now.jumpArgs (call.base + index)) := by
  rw [evalAll, mapM_eq_some_iff]
  apply List.ext_getElem
  · simp [call.length_folded]
  · intro index inside _
    rw [List.length_map] at inside
    rw [call.length_folded] at inside
    simp only [List.getElem_map, List.getElem_range]
    exact staged.done index inside _ (List.getElem?_eq_getElem _)

/-- Undisturbed, a call whose arguments do not trap comes to its last block. -/
theorem exists_run {exec : ExecCtx W} {values : List Word} (alive : rt.isDying exec.world = false)
    (evaluates : evalAll call.folded (exec.view rt) = some values) {count : Nat}
    (within : count ≤ call.args.length) :
    ∃ history now, Run (QuietStep rt call.plainCode) ⟨call.id, exec⟩ history
      ⟨call.id + 2 * count, now⟩ ∧ now.world = exec.world ∧ call.Staged exec count now := by
  induction count with
  | zero => exact ⟨[], exec, .refl, rfl, rfl, rfl, rfl, ⟨rfl, rfl⟩, nofun, fun _ _ => rfl⟩
  | succ count induction =>
      rcases induction (Nat.le_of_succ_le within) with ⟨history, now, run, sameWorld, staged⟩
      have inside : count < call.folded.length := by
        rw [call.length_folded]
        omega
      have atCount := List.getElem?_eq_getElem inside
      have inValues : count < values.length := by
        rw [length_of_mapM evaluates]
        exact inside
      have isValue := getElem?_of_mapM evaluates atCount
      rw [List.getElem?_eq_getElem inValues] at isValue
      have stillAlive : rt.isDying now.world = false := sameWorld ▸ alive
      have evalRuns : evalBlock rt call.folded[count] (call.id + 2 * count) now =
          (now.setTemp values[count], .goto (call.id + 2 * count + 1)) := by
        rw [evalBlock, staged.view, isValue]
        rfl
      have evaluated := quietStep_at_once call.plainCode now
        (List.mem_append_left _ (mem_stagingCode.mpr ⟨count, _, atCount, .inl ⟨rfl, rfl⟩⟩))
        evalRuns stillAlive
      have stored := quietStep_at_once call.plainCode (now.setTemp values[count])
        (List.mem_append_left _ (mem_stagingCode.mpr ⟨count, _, atCount, .inr ⟨rfl, rfl⟩⟩))
        rfl stillAlive
      rw [Nat.zero_add] at stored
      refine ⟨_, _, (run.next evaluated).next stored, sameWorld,
        (staged.setTemp call values[count]).stage call fun value atIndex => ?_⟩
      cases atCount.symm.trans atIndex
      exact isValue

/-! ## The two ends -/

/-- The literals are compared with the bytes that the reset of the arena leaves. -/
def resetMemory (rt : RtFuncs W) (exec : ExecCtx W) : Memory :=
  rt.bytes (rt.resetArena exec.world)

theorem selected : selectBranch ctx.switch call.candidates = some call.select := call.isSelect

/-- The branch that the values select. -/
def target (exec : ExecCtx W) (values : List Word) : Nat :=
  call.select (resetMemory rt exec) fun slot => values[slot]?.getD (exec.actor.vars slot)

/-- Both forms enter the same branch, whose parameters have the values of the arguments,
and reset the arena. -/
structure SameEntry (exec now : ExecCtx W) (values : List Word) : Prop where
  enters : (call.fused exec).2 = .enter ∧ (call.changeState now).2 = .enter
  branch : (call.fused exec).1.branchId = (call.changeState now).1.branchId
  params : ∀ branch ∈ call.candidates, branch.branchId = (call.fused exec).1.branchId →
    ∀ slot < branch.guards.length,
      (call.fused exec).1.actor.vars slot = (call.changeState now).1.actor.vars slot ∧
      ∀ value, values[slot]? = some value → (call.fused exec).1.actor.vars slot = value
  arena : (call.fused exec).1.world = rt.resetArena exec.world ∧
    (call.changeState now).1.world = rt.resetArena now.world

/-- The fused form does what every undisturbed run of the plain one does, and traps if that
does. -/
def Refines (exec : ExecCtx W) : Prop :=
  match evalAll call.folded (exec.view rt) with
  | none => (call.fused exec).2 = .trap ∧ ∀ history now,
      ¬ Run (QuietStep rt call.plainCode) ⟨call.id, exec⟩ history ⟨call.callId, now⟩
  | some values =>
      (rt.isDying exec.world = false → ∃ history now,
        Run (QuietStep rt call.plainCode) ⟨call.id, exec⟩ history ⟨call.callId, now⟩) ∧
      ∀ history now, Run (QuietStep rt call.plainCode) ⟨call.id, exec⟩ history
        ⟨call.callId, now⟩ → call.SameEntry exec now values

/-- A word that only one of the forms writes is what it replaces, and so is one that only
one of them compares. -/
structure Agrees (exec : ExecCtx W) (values : List Word) : Prop where
  compared : 1 < call.candidates.length →
    call.args.length ≤ findBestGuardPos call.candidates →
    (call.select (resetMemory rt exec) fun pos => exec.jumpArgs (call.base + pos)) =
      call.select (resetMemory rt exec) exec.actor.vars
  params : ∀ branch ∈ call.candidates, branch.branchId = call.target exec values →
    ∀ slot < branch.guards.length,
      (∀ value, values[slot]? = some value → argCount call.candidates ≤ slot →
        value = exec.actor.vars slot) ∧
      (call.args.length ≤ slot → slot < argCount call.candidates →
        exec.jumpArgs (call.base + slot) = exec.actor.vars slot)

theorem passSelf_scalar (machine : String) (values : List Word) (world : W) :
    passSelf rt ctx machine call.argTypes values world = (values, rt.resetArena world) := by
  have noPointers : (values.zipIdx.filter fun value => !ctx.isRetMachine machine &&
      isPointerLikeType (call.argTypes[value.2]?.getD "")) = [] := by
    rw [List.filter_eq_nil_iff]
    intro value _
    cases atIndex : call.argTypes[value.2]? with
    | none => simp [isPointerLikeType, trim]
    | some type => simp [call.scalar type (List.mem_of_getElem? atIndex)]
  rw [passSelf, noPointers]
  rfl

/-- What the fused form does. -/
theorem fused_eq {exec : ExecCtx W} (inBranch : exec.branchId = ctx.currentBranch)
    {values : List Word} (evaluates : evalAll call.folded (exec.view rt) = some values) :
    call.fused exec = ({ exec.setVars values with
      world := rt.resetArena exec.world
      branchId := call.target exec values }, .enter) := by
  simp only [fused, fusedSelfBlock, evaluates, call.passSelf_scalar, Option.bind_eq_bind,
    Option.bind_some, orTrap]
  congr 2
  split
  · rename_i sameBranch
    rcases List.length_eq_one_iff.mp sameBranch.1 with ⟨only, isOnly⟩
    have isCurrent := sameBranch.2
    have selected := call.selected
    rw [isOnly] at selected isCurrent
    rw [target, selectBranch_single selected, inBranch]
    exact (Option.some.inj isCurrent).symm
  · rfl

theorem fused_trap {exec : ExecCtx W} (traps : evalAll call.folded (exec.view rt) = none) :
    call.fused exec = (exec, .trap) := by
  rw [fused, fusedSelfBlock, traps]
  rfl

/-- What the call behind the staging does. -/
theorem changeState_eq (now : ExecCtx W) :
    call.changeState now = ({ now.setVars (now.staged call.base (argCount call.candidates)) with
      world := rt.resetArena now.world
      branchId := call.select (resetMemory rt now) fun pos => now.jumpArgs (call.base + pos) },
      .enter) := by
  rw [changeState, changeStateBlock, call.passSelf_scalar]
  rfl

theorem memory_of_staged {exec now : ExecCtx W} {count : Nat} (staged : call.Staged exec count now) :
    resetMemory rt now = resetMemory rt exec := by
  funext fatPtr
  simp only [resetMemory, RtFuncs.bytes, staged.world.2]

theorem jumpArgs_of_staged {exec now : ExecCtx W} {values : List Word}
    (staged : call.Staged exec call.args.length now)
    (evaluates : evalAll call.folded (exec.view rt) = some values) (slot : Nat) :
    now.jumpArgs (call.base + slot) =
      values[slot]?.getD (exec.jumpArgs (call.base + slot)) := by
  rw [call.evalAll_of_staged staged, Option.some.injEq] at evaluates
  rw [← evaluates, List.getElem?_map]
  by_cases inside : slot < call.args.length
  · rw [List.getElem?_range inside]
    rfl
  · rw [List.getElem?_eq_none (by simpa using inside), staged.kept _ (by omega)]
    rfl

theorem getElem?_staged (now : ExecCtx W) (base count slot : Nat) :
    (now.staged base count)[slot]? =
      if slot < count then some (now.jumpArgs (base + slot)) else none := by
  rw [ExecCtx.staged, List.getElem?_map]
  split
  · rename_i inside
    rw [List.getElem?_range inside]
    rfl
  · rename_i outside
    rw [List.getElem?_eq_none (by simpa using outside)]
    rfl

section Ends

variable {exec now : ExecCtx W} {values : List Word}

theorem length_values (evaluates : evalAll call.folded (exec.view rt) = some values) :
    values.length = call.args.length := by
  rw [length_of_mapM evaluates, call.length_folded]

theorem fusedVar (inBranch : exec.branchId = ctx.currentBranch)
    (evaluates : evalAll call.folded (exec.view rt) = some values) (slot : Nat) :
    (call.fused exec).1.actor.vars slot = values[slot]?.getD (exec.actor.vars slot) := by
  rw [call.fused_eq inBranch evaluates]
  rfl

theorem plainVar (staged : call.Staged exec call.args.length now)
    (evaluates : evalAll call.folded (exec.view rt) = some values) (slot : Nat) :
    (call.changeState now).1.actor.vars slot =
      if slot < argCount call.candidates then
        values[slot]?.getD (exec.jumpArgs (call.base + slot))
      else
        exec.actor.vars slot := by
  rw [call.changeState_eq, ← call.jumpArgs_of_staged staged evaluates, ← staged.vars]
  change ((now.staged _ _)[slot]?).getD _ = _
  rw [getElem?_staged]
  split <;> rfl

/-- Both forms write a parameter alike exactly if only one writes it, it keeps its word. -/
theorem param_iff (inBranch : exec.branchId = ctx.currentBranch)
    (staged : call.Staged exec call.args.length now)
    (evaluates : evalAll call.folded (exec.view rt) = some values) (slot : Nat) :
    ((call.fused exec).1.actor.vars slot = (call.changeState now).1.actor.vars slot ∧
      ∀ value, values[slot]? = some value → (call.fused exec).1.actor.vars slot = value) ↔
    (∀ value, values[slot]? = some value → argCount call.candidates ≤ slot →
      value = exec.actor.vars slot) ∧
    (call.args.length ≤ slot → slot < argCount call.candidates →
      exec.jumpArgs (call.base + slot) = exec.actor.vars slot) := by
  have lengths := call.length_values evaluates
  rw [call.fusedVar inBranch evaluates, call.plainVar staged evaluates]
  cases atSlot : values[slot]? with
  | some value =>
      have inside := (List.getElem?_eq_some_iff.mp atSlot).1
      constructor
      · rintro ⟨same, -⟩
        refine ⟨fun other isOther beyond => ?_, fun outside => by omega⟩
        cases isOther
        rw [if_neg (Nat.not_lt_of_le beyond)] at same
        exact same
      · rintro ⟨keeps, -⟩
        refine ⟨?_, fun other isOther => Option.some.inj isOther⟩
        split
        · rfl
        · exact keeps value rfl (by omega)
  | none =>
      have outside : values.length ≤ slot := List.getElem?_eq_none_iff.mp atSlot
      constructor
      · rintro ⟨same, -⟩
        refine ⟨nofun, fun _ counted => ?_⟩
        rw [if_pos counted] at same
        exact same.symm
      · rintro ⟨-, keeps⟩
        refine ⟨?_, nofun⟩
        split
        · rename_i counted
          exact (keeps (by omega) counted).symm
        · rfl

/-- Both forms compare the same word, unless the call has no argument at its position. -/
theorem branch_iff (inBranch : exec.branchId = ctx.currentBranch)
    (staged : call.Staged exec call.args.length now)
    (evaluates : evalAll call.folded (exec.view rt) = some values) :
    (call.fused exec).1.branchId = (call.changeState now).1.branchId ↔
      (1 < call.candidates.length → call.args.length ≤ findBestGuardPos call.candidates →
        (call.select (resetMemory rt exec) fun pos => exec.jumpArgs (call.base + pos)) =
          call.select (resetMemory rt exec) exec.actor.vars) := by
  have lengths := call.length_values evaluates
  have words := call.jumpArgs_of_staged staged evaluates
  have isFused : (call.fused exec).1.branchId = call.target exec values := by
    rw [call.fused_eq inBranch evaluates]
  have isPlain : (call.changeState now).1.branchId = call.select (resetMemory rt exec)
      fun pos => now.jumpArgs (call.base + pos) := by
    rw [call.changeState_eq, call.memory_of_staged staged]
  rw [isFused, isPlain, target]
  have beyond : call.args.length ≤ findBestGuardPos call.candidates →
      values[findBestGuardPos call.candidates]? = none := fun outside =>
    List.getElem?_eq_none (by omega)
  have sameVars : call.args.length ≤ findBestGuardPos call.candidates →
      (call.select (resetMemory rt exec) fun slot =>
        values[slot]?.getD (exec.actor.vars slot)) =
      call.select (resetMemory rt exec) exec.actor.vars := fun outside =>
    selectBranch_congr call.selected _ fun _ => by
      rw [beyond outside]
      rfl
  have sameStaged : call.args.length ≤ findBestGuardPos call.candidates →
      (call.select (resetMemory rt exec) fun pos => now.jumpArgs (call.base + pos)) =
      call.select (resetMemory rt exec) fun pos => exec.jumpArgs (call.base + pos) :=
    fun outside => selectBranch_congr call.selected _ fun _ => by
      rw [words, beyond outside]
      rfl
  constructor
  · intro same many outside
    rw [← sameVars outside, same, sameStaged outside]
  · intro agree
    by_cases outside : 1 < call.candidates.length ∧
        call.args.length ≤ findBestGuardPos call.candidates
    · rw [sameVars outside.2, sameStaged outside.2, agree outside.1 outside.2]
    · refine selectBranch_congr call.selected _ fun many => ?_
      have inside : findBestGuardPos call.candidates < values.length := by omega
      rw [words, List.getElem?_eq_getElem inside]
      rfl

theorem sameEntry_iff (inBranch : exec.branchId = ctx.currentBranch)
    (staged : call.Staged exec call.args.length now)
    (evaluates : evalAll call.folded (exec.view rt) = some values) :
    call.SameEntry exec now values ↔ call.Agrees exec values := by
  have isTarget : (call.fused exec).1.branchId = call.target exec values := by
    rw [call.fused_eq inBranch evaluates]
  constructor
  · intro same
    refine ⟨(call.branch_iff inBranch staged evaluates).mp same.branch, ?_⟩
    intro branch member chosen slot inside
    exact (call.param_iff inBranch staged evaluates slot).mp
      (same.params branch member (chosen.trans isTarget.symm) slot inside)
  · intro agrees
    refine ⟨?_, (call.branch_iff inBranch staged evaluates).mpr agrees.compared, ?_, ?_⟩
    · rw [call.fused_eq inBranch evaluates, call.changeState_eq]
      exact ⟨rfl, rfl⟩
    · intro branch member chosen slot inside
      exact (call.param_iff inBranch staged evaluates slot).mpr
        (agrees.params branch member (chosen.trans isTarget) slot inside)
    · rw [call.fused_eq inBranch evaluates, call.changeState_eq]
      exact ⟨rfl, rfl⟩

end Ends

end SelfCall

/-- The fused form of a call does what the plain one does exactly if the call traps, or every
word that only one of them writes or compares is the one that the variable had. -/
theorem fused_self_iff (call : SelfCall rt ctx) {exec : ExecCtx W}
    (inBranch : exec.branchId = ctx.currentBranch) (alive : rt.isDying exec.world = false) :
    call.Refines exec ↔
      ∀ values, evalAll call.folded (exec.view rt) = some values → call.Agrees exec values := by
  rw [SelfCall.Refines]
  cases evaluates : evalAll call.folded (exec.view rt) with
  | none =>
      refine iff_of_true ⟨?_, fun history now run => ?_⟩ nofun
      · rw [call.fused_trap evaluates]
      · rw [call.evalAll_of_staged (call.staged_of_run run)] at evaluates
        cases evaluates
  | some values =>
      rcases call.exists_run alive evaluates (Nat.le_refl _) with ⟨history, now, run, -, staged⟩
      constructor
      · intro refines others isValues
        cases isValues
        exact (call.sameEntry_iff inBranch staged evaluates).mp (refines.2 history now run)
      · intro agrees
        refine ⟨fun _ => ⟨history, now, run⟩, fun past later ran => ?_⟩
        exact (call.sameEntry_iff inBranch (call.staged_of_run ran) evaluates).mpr (agrees values rfl)

/-- A call with an argument for every parameter that is counted, and at the position that is
compared, has no other words. -/
theorem agrees_of_counted (call : SelfCall rt ctx)
    (counted : argCount call.candidates = call.args.length)
    (compares : findBestGuardPos call.candidates < call.args.length) {exec : ExecCtx W}
    {values : List Word} (evaluates : evalAll call.folded (exec.view rt) = some values) :
    call.Agrees exec values := by
  have lengths := call.length_values evaluates
  refine ⟨fun _ outside => by omega, fun branch _ _ slot _ => ⟨fun value atSlot beyond => ?_, by omega⟩⟩
  have inside := (List.getElem?_eq_some_iff.mp atSlot).1
  omega

/-- A program whose machine has one branch. -/
def oneBranch (patterns : List Pattern) (fits : patterns.length < 2 ^ 63) : CompilerCtx :=
  { CompilerCtx.bare with
    parseInt := fun text => if text = "5" then some 5 else none
    hasher := fun types => UInt64.ofNat types.length
    machines := fun _ => some ⟨[⟨patterns, fits⟩], by simp⟩ }

/-- `self(b a)` in the branch `a i64 b i64`. -/
def swapCall : SelfCall .idle
    (oneBranch [⟨"a", .plain "i64", .var⟩, ⟨"b", .plain "i64", .var⟩] (by decide)) where
  id := 0
  scope := ⟨⟨[("b", 1), ("a", 0)]⟩, [("b", "i64"), ("a", "i64")], 0⟩
  args := [.var "b" (.plain "i64"), .var "a" (.plain "i64")]
  pure := rfl
  scalar := by decide
  folded := [fun view => some (view.vars 1), fun view => some (view.vars 0)]
  isFolded := rfl
  select := fun _ _ => 0
  isSelect := rfl

theorem swap_refines : swapCall.Refines ⟨Actor.zeroed, fun _ => 0, 0, ()⟩ :=
  (fused_self_iff swapCall rfl rfl).mpr fun _ evaluates =>
    agrees_of_counted swapCall (by decide) (by decide) evaluates

/-- `self(:a 5)` in the branch `_ n i64`. -/
def skipCall : SelfCall .idle
    (oneBranch [⟨"_", .unknown, .wildcard⟩, ⟨"n", .plain "i64", .var⟩] (by decide)) where
  id := 0
  scope := ⟨⟨[("n", 1), ("__pat_0", 0)]⟩, [("n", "i64")], 0⟩
  args := [.atom "a", .num "5" (.plain "i64")]
  pure := rfl
  scalar := by decide
  folded := [fun _ => some 1, fun _ => some 5]
  isFolded := rfl
  select := fun _ _ => 0
  isSelect := rfl

/-- The fused form sets `n` to 5, and the plain one leaves it. -/
theorem skipped_parameter_differs : ∃ exec : ExecCtx Unit, exec.branchId = 0 ∧
    ¬ skipCall.Refines exec := by
  let exec : ExecCtx Unit := ⟨Actor.zeroed, fun _ => 0, 0, ()⟩
  refine ⟨exec, rfl, fun refines => ?_⟩
  rcases skipCall.exists_run rfl rfl (Nat.le_refl _) with ⟨history, now, run, -, staged⟩
  have agrees := (skipCall.sameEntry_iff rfl staged rfl).mp (refines.2 history now run)
  have keeps := (agrees.params _ List.mem_cons_self rfl 1 (by decide)).1 5 rfl (by decide)
  exact absurd keeps (by decide)

end LakeNative.Control

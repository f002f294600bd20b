import LakeNative.Compiler.Entries
import LakeNative.Compiler.FrameSize
import LakeNative.Control.FusedSelf

/-! # Staged words

The arguments of a call are staged one behind the other from the base that the call has. What
the arguments themselves call stages behind all words of the call, so that each word keeps the
value of its argument until the call is made.
-/

namespace LakeNative.Control

open LakeNative.Runtime LakeNative.Compiler LakeNative.NumberedCode LakeNative.Transitions

variable {W : Type} {rt : RtFuncs W} {ctx : CompilerCtx}

/-! ## What blocks do to staged words -/

/-- The block leaves all staged words. -/
def KeepsWords (block : Block W) : Prop := ∀ exec, (block exec).1.jumpArgs = exec.jumpArgs

/-- No block of the code writes a word below the base. -/
def KeepsBelow (base : Nat) (code : Code W) : Prop :=
  ∀ entry ∈ code, ∀ exec, ∀ slot < base, (entry.2 exec).1.jumpArgs slot = exec.jumpArgs slot

namespace KeepsBelow

variable {base : Nat} {before behind : Code W}

theorem single {id : Nat} {block : Block W} (keeps : KeepsWords block) :
    KeepsBelow base [(id, block)] := by
  intro entry member exec slot _
  rw [List.mem_singleton.mp member, keeps]

theorem append (keeps : KeepsBelow base before) (alsoKeeps : KeepsBelow base behind) :
    KeepsBelow base (before ++ behind) := by
  intro entry member
  rcases List.mem_append.mp member with isBefore | isBehind
  · exact keeps entry isBefore
  · exact alsoKeeps entry isBehind

theorem mono {high : Nat} (keeps : KeepsBelow high before) (below : base ≤ high) :
    KeepsBelow base before :=
  fun entry member exec slot isBelow => keeps entry member exec slot (Nat.lt_of_lt_of_le isBelow below)

theorem stage {id slot : Nat} (above : base ≤ slot) :
    KeepsBelow base [(id, (stageBlock id slot : Block W))] := by
  intro entry member exec other below
  rcases List.mem_singleton.mp member with rfl
  exact Function.update_of_ne (by omega) _ _

theorem redirects (exits : List Nat) (next : Nat) :
    KeepsBelow base (exits.map fun exit => (exit, (redirectBlock next : Block W))) := by
  intro entry member exec slot _
  rcases List.mem_map.mp member with ⟨exit, -, rfl⟩
  rfl

end KeepsBelow

theorem orTrap_jumpArgs {exec : ExecCtx W} {result : Option (ExecCtx W × Exit)}
    (keeps : ∀ after, result = some after → after.1.jumpArgs = exec.jumpArgs) :
    (orTrap exec result).1.jumpArgs = exec.jumpArgs := by
  cases result with
  | none => rfl
  | some after => exact keeps after rfl

/-- A statement that shares its block leaves them. -/
def KeepsOp (op : FastOp W) : Prop :=
  ∀ exec after, op exec = some after → after.jumpArgs = exec.jumpArgs

theorem keepsOp_some : KeepsOp (some : FastOp W) := by
  intro exec after isAfter
  cases isAfter
  rfl

theorem KeepsOp.bind {op step : FastOp W} (keeps : KeepsOp op) (alsoKeeps : KeepsOp step) :
    KeepsOp fun exec => (op exec).bind step := by
  intro exec after isAfter
  rcases Option.bind_eq_some_iff.mp isAfter with ⟨middle, isMiddle, isAfter⟩
  exact (alsoKeeps middle after isAfter).trans (keeps exec middle isMiddle)

theorem keepsOp_compileFast {scope added : Scope} {stmt : Expr} {step : FastOp W}
    (isFast : compileFast rt ctx scope stmt = some (step, added)) :
    KeepsOp step ∧ added.jumpArgsBase = scope.jumpArgsBase := by
  by_cases bound : ∃ ident ty default, stmt = .letVar ident ty (some default)
  · rcases bound with ⟨ident, ty, default, rfl⟩
    rw [compileFast] at isFast
    rcases bind_some isFast with ⟨value, -, result⟩
    cases result
    refine ⟨?_, rfl⟩
    intro exec after isAfter
    rcases Option.map_eq_some_iff.mp isAfter with ⟨word, -, rfl⟩
    rfl
  · rw [compileFast] at isFast
    · rcases bind_some isFast with ⟨value, -, result⟩
      cases result
      refine ⟨?_, rfl⟩
      intro exec after isAfter
      rcases Option.map_eq_some_iff.mp isAfter with ⟨word, -, rfl⟩
      rfl
    · exact fun ident ty default same => bound ⟨ident, ty, default, same⟩

theorem keepsBelow_fastCode {base : Nat} {op : FastOp W} (keeps : KeepsOp op) (run : List Nat)
    (next : Nat) : KeepsBelow base (fastCode op run next) := by
  intro entry member exec slot _
  rcases List.mem_map.mp member with ⟨id, -, rfl⟩
  refine congrFun (orTrap_jumpArgs ?_) slot
  intro after isAfter
  rcases Option.map_eq_some_iff.mp isAfter with ⟨middle, isMiddle, rfl⟩
  exact keeps exec middle isMiddle

theorem keepsWords_withResult (exec : ExecCtx W) (result : Option Word × W) :
    (withResult exec result).jumpArgs = exec.jumpArgs := by
  rcases result with ⟨value, world⟩
  cases value <;> rfl

theorem storeElems_jumpArgs {payload : Word} {elems : List (Folded ⊕ String)} :
    ∀ {exec after : ExecCtx W} , storeElems rt payload elems exec = some after →
      after.jumpArgs = exec.jumpArgs := by
  induction elems generalizing payload with
  | nil =>
      intro exec after stored
      cases stored
      rfl
  | cons elem elems induction =>
      intro exec after stored
      cases elem with
      | inl value =>
          rcases bind_some stored with ⟨word, -, result⟩
          have later := induction result
          exact later
      | inr text =>
          have later := induction stored
          exact later

/-- What a statement of one block does: it leaves the staged words and the base. -/
structure Stages (base : Nat) (scope : Scope) (emitted : Emitted W) : Prop where
  keeps : KeepsBelow base emitted.code
  restores : emitted.scope.jumpArgsBase = scope.jumpArgsBase

theorem stages_pure {base id : Nat} {scope : Scope} {stmt : Expr} {emitted : Emitted W}
    (compiled : compilePure rt ctx id scope stmt = some emitted) : Stages base scope emitted := by
  rcases bind_some compiled with ⟨⟨op, added⟩, isFast, result⟩
  cases result
  rcases keepsOp_compileFast isFast with ⟨keeps, restores⟩
  exact ⟨keepsBelow_fastCode keeps _ _, restores⟩

theorem stages_tuple {base id : Nat} {scope : Scope} {elems : List Expr} {emitted : Emitted W}
    (compiled : compileTuple rt ctx id scope elems = some emitted) : Stages base scope emitted := by
  rcases bind_some compiled with ⟨folded, -, result⟩
  cases result
  refine ⟨.single fun exec => orTrap_jumpArgs ?_, rfl⟩
  intro after isAfter
  rcases bind_some isAfter with ⟨filled, isFilled, result⟩
  cases result
  have filled := storeElems_jumpArgs isFilled
  exact filled

theorem stages_fusedRt {base id : Nat} {scope : Scope} {callee : String} {args : List Expr}
    {emitted : Emitted W} (compiled : compileFusedRtCall rt ctx id scope callee args = some emitted) :
    Stages base scope emitted := by
  rcases bind_some compiled with ⟨folded, -, result⟩
  cases result
  refine ⟨.single fun exec => orTrap_jumpArgs ?_, rfl⟩
  intro after isAfter
  rcases bind_some isAfter with ⟨values, -, result⟩
  cases result
  exact keepsWords_withResult _ _

theorem stages_fusedSelf {base id : Nat} {scope : Scope} {args : List Expr} {emitted : Emitted W}
    (compiled : compileFusedSelfCall rt ctx id scope args = some emitted) :
    Stages base scope emitted := by
  rcases bind_some compiled with ⟨folded, -, result⟩
  rcases bind_some result with ⟨select, -, result⟩
  cases result
  refine ⟨.single fun exec => orTrap_jumpArgs ?_, rfl⟩
  intro after isAfter
  rcases bind_some isAfter with ⟨values, -, result⟩
  cases result
  rfl

theorem keepsWords_rtCall (id : Nat) (callee : String) (base count : Nat) :
    KeepsWords (rtCallBlock rt id callee base count) :=
  fun exec => keepsWords_withResult exec _

theorem stages_call {base id : Nat} {scope : Scope} {callee : String} {ty : Ty} {args : List Expr}
    {emitted : Emitted W} (compiled : compileCall rt ctx id scope callee ty args = some emitted) :
    Stages base scope emitted := by
  rw [compileCall] at compiled
  split at compiled
  · cases compiled
    exact ⟨.single (keepsWords_rtCall _ _ _ _), rfl⟩
  · dsimp only at compiled
    split at compiled
    · cases compiled
      exact ⟨.single fun _ => rfl, rfl⟩
    · rcases bind_some compiled with ⟨select, -, result⟩
      split at result
      · cases result
        exact ⟨.single fun _ => rfl, rfl⟩
      · cases result
        exact ⟨.single fun _ => rfl, rfl⟩

theorem keepsWords_wait (wait : WaitExpr) (dispatch : Word → Option Nat) (filter : List Folded)
    (starts : List Nat) (id : Nat) : KeepsWords (waitBlock rt wait dispatch filter starts id) := by
  intro exec
  rw [waitBlock]
  split
  · rfl
  · dsimp only
    cases chosenHandler rt wait dispatch filter exec <;> rfl

/-! ## All statements -/

/-- The first word that a task may write. -/
def firstWord : Compiler.Task W → Nat
  | .args base _ index _ _ _ => base + index
  | task => task.scope.jumpArgsBase

/-- The arguments that are left have words of the call, and an open run of statements leaves the
staged words. -/
def Staging : Compiler.Task W → Prop
  | .args base count index _ scope args =>
      scope.jumpArgsBase = base ∧ index + args.length ≤ count
  | .body _ op _ _ _ => KeepsOp op
  | _ => True

/-- What follows in the scope that is left has the same base. -/
theorem Stages.inherit {base : Nat} {scope : Scope} {first rest : Emitted W}
    (stages : Stages base scope first)
    (behind : Stages first.scope.jumpArgsBase first.scope rest) :
    Stages scope.jumpArgsBase scope rest := by
  rcases behind with ⟨keeps, restores⟩
  rw [stages.restores] at keeps restores
  exact ⟨keeps, restores⟩

theorem stages_rule {premises : List (Compiler.Task W × Emitted W)} {task : Compiler.Task W}
    {emitted : Emitted W} (isRule : Rule rt ctx premises task emitted) (staging : Staging task)
    (inner : ∀ premise ∈ premises, Staging premise.1 →
      Stages (firstWord premise.1) premise.1.scope premise.2) :
    Stages (firstWord task) task.scope emitted := by
  cases isRule with
  | fast isFast => exact stages_pure isFast
  | tuple isTuple => exact stages_tuple isTuple
  | fusedSelf isFused => exact stages_fusedSelf isFused
  | fusedRt isFused => exact stages_fusedRt isFused
  | letOpen | string => exact ⟨.single fun _ => rfl, rfl⟩
  | argsNil | seqNil | armsNil | handlersNil | bodyNil => exact ⟨nofun, rfl⟩
  | letValue _ =>
      rcases inner _ List.mem_cons_self trivial with ⟨keeps, restores⟩
      exact ⟨keeps.append (.single fun _ => rfl), restores⟩
  | letTerminal _ | seqLast _ => exact inner _ List.mem_cons_self trivial
  | call called =>
      rcases inner _ List.mem_cons_self ⟨rfl, by omega⟩ with ⟨keeps, restores⟩
      rcases stages_call called with ⟨alsoKeeps, alsoRestores⟩
      exact ⟨keeps.append alsoKeeps, alsoRestores.trans restores⟩
  | @index id scope _ _ buf atBuf offset atOffset _ _ =>
      rcases inner _ List.mem_cons_self trivial with ⟨keeps, -⟩
      rcases inner _ (List.mem_cons_of_mem _ List.mem_cons_self) trivial with ⟨alsoKeeps, -⟩
      have below : scope.jumpArgsBase ≤ scope.jumpArgsBase + 2 := Nat.le_add_right _ _
      refine ⟨?_, rfl⟩
      exact ((((keeps.mono below).append (.stage (Nat.le_refl _))).append
        (alsoKeeps.mono below)).append (.stage (Nat.le_succ _))).append
          (.single (keepsWords_rtCall _ _ _ _))
  | kTable _ _ =>
      rcases inner _ List.mem_cons_self trivial with ⟨keeps, restores⟩
      exact ⟨keeps.append (.single fun _ => rfl), restores⟩
  | «when» _ _ =>
      have disc := inner _ List.mem_cons_self trivial
      have arms := disc.inherit (inner _ (List.mem_cons_of_mem _ List.mem_cons_self) trivial)
      refine ⟨?_, arms.restores⟩
      exact ((disc.keeps.append (.single fun _ => rfl)).append arms.keeps).append (.redirects _ _)
  | wait _ _ _ _ =>
      have bodies := inner _ List.mem_cons_self trivial
      refine ⟨?_, bodies.restores⟩
      exact KeepsBelow.append (.single (keepsWords_wait _ _ _ _ _)) bodies.keeps
  | @argsCons base count index id scope _ args value _ rest _ =>
      rcases staging with ⟨isBase, within⟩
      rw [List.length_cons] at within
      rcases inner _ List.mem_cons_self trivial with ⟨keeps, restores⟩
      have stagesRest := inner _ (List.mem_cons_of_mem _ List.mem_cons_self) ⟨rfl, by omega⟩
      have below : base + index ≤ base + count := by omega
      refine ⟨?_, stagesRest.restores.trans isBase.symm⟩
      exact ((keeps.mono below).append (.stage (Nat.le_refl _))).append
        (stagesRest.keeps.mono (Nat.le_succ _))
  | seqCons _ | armsSelf _ | armsOn _ =>
      have first := inner _ List.mem_cons_self trivial
      have rest := first.inherit (inner _ (List.mem_cons_of_mem _ List.mem_cons_self) trivial)
      exact ⟨first.keeps.append rest.keeps, rest.restores⟩
  | handlersCons =>
      have first := inner _ List.mem_cons_self keepsOp_some
      have rest := first.inherit (inner _ (List.mem_cons_of_mem _ List.mem_cons_self) trivial)
      exact ⟨first.keeps.append rest.keeps, rest.restores⟩
  | @bodyJoin _ _ _ _ _ _ _ added _ isFast _ =>
      rcases keepsOp_compileFast isFast with ⟨keeps, restores⟩
      have rest := inner _ List.mem_cons_self (staging.bind keeps)
      change Stages added.jumpArgsBase added _ at rest
      rw [restores] at rest
      exact ⟨rest.keeps, rest.restores.trans restores⟩
  | @bodyFlush _ _ _ _ _ _ _ added _ isFast =>
      rcases keepsOp_compileFast isFast with ⟨keeps, restores⟩
      have rest := inner _ List.mem_cons_self keepsOp_some
      change Stages added.jumpArgsBase added _ at rest
      rw [restores] at rest
      exact ⟨(keepsBelow_fastCode (staging.bind keeps) _ _).append rest.keeps,
        rest.restores.trans restores⟩
  | bodyStmt _ =>
      have first := inner _ List.mem_cons_self trivial
      have rest := first.inherit
        (inner _ (List.mem_cons_of_mem _ List.mem_cons_self) keepsOp_some)
      exact ⟨first.keeps.append rest.keeps, rest.restores⟩
  | bodyLast _ =>
      have last := inner _ List.mem_cons_self trivial
      exact ⟨last.keeps, last.restores⟩

theorem stages {task : Compiler.Task W} {emitted : Emitted W} (derived : Compiles rt ctx task emitted)
    (staging : Staging task) : Stages (firstWord task) task.scope emitted := by
  induction derived with
  | rule isRule _ _ induction => exact stages_rule isRule staging induction

/-! ## Runs -/

/-- Words below the base keep their values, whatever others do between the blocks. -/
theorem kept_run {base : Nat} {code : Code W} (keeps : KeepsBelow base code) {start final : Point W}
    {history : List (Stage (Point W) Exit)} (run : Run (BlockStep rt code) start history final)
    {slot : Nat} (below : slot < base) :
    Throughout (fun point => point.ctx.jumpArgs slot = start.ctx.jumpArgs slot) history final := by
  refine run.invariant rfl ?_
  rintro current exit next same ⟨block, member, runs⟩
  cases runs with
  | @block id next exec ran resumed exit runs alive resumes others =>
      have kept : (block exec).1.jumpArgs slot = exec.jumpArgs slot :=
        keeps _ member exec slot below
      rw [runs] at kept
      rw [others.jumpArgs, kept]
      exact same

/-- The argument has been evaluated from its first block on, its calls staging from `inner` on,
what it left in `TEMP_VAL` has been staged to the slot, and the slot has kept it. -/
inductive StagedValue (rt : RtFuncs W) (ctx : CompilerCtx) (inner slot : Nat) (arg : Expr)
    (history : List (Stage (Point W) Exit)) (now : ExecCtx W) : Prop where
  | staged {id next : Nat} {scope : Scope} {value : Emitted W} {before after : ExecCtx W}
      {exit : Exit} {later within earlier : List (Stage (Point W) Exit)}
      (base : scope.jumpArgsBase = inner)
      (compiled : compileExpr rt ctx id scope arg = some value)
      (continues : value.outcome = .continued next)
      (evaluated : Run (BlockStep rt value.code) ⟨id, before⟩ within ⟨next, after⟩)
      (split : history = later ++ ⟨⟨next, after⟩, exit⟩ :: (within ++ earlier))
      (kept : ∀ stage ∈ later, stage.state.ctx.jumpArgs slot = after.actor.tempVal)
      (holds : now.jumpArgs slot = after.actor.tempVal)

/-- What came before does not matter. -/
theorem StagedValue.precede {inner slot : Nat} {arg : Expr} {history : List (Stage (Point W) Exit)}
    {now : ExecCtx W} (value : StagedValue rt ctx inner slot arg history now)
    (earliest : List (Stage (Point W) Exit)) :
    StagedValue rt ctx inner slot arg (history ++ earliest) now := by
  obtain @⟨id, next, scope, value, before, after, exit, later, within, earlier, base, compiled,
    continues, evaluated, split, kept, holds⟩ := value
  have longer : history ++ earliest =
      later ++ ⟨⟨next, after⟩, exit⟩ :: (within ++ (earlier ++ earliest)) := by
    rw [split, List.append_assoc, List.cons_append, List.append_assoc]
  exact .staged base compiled continues evaluated longer kept holds

/-- The block that stages a value is one step. -/
theorem run_stage {id slot : Nat} {before : ExecCtx W} {final : Point W}
    {history : List (Stage (Point W) Exit)}
    (run : Run (BlockStep rt [(id, stageBlock id slot)]) ⟨id, before⟩ history final)
    (atEnd : final.blockId = id + 1) :
    ∃ exit, history = [⟨⟨id, before⟩, exit⟩] ∧
      final.ctx.jumpArgs = Function.update before.jumpArgs slot before.actor.tempVal := by
  have steps : ∀ current exit next, BlockStep rt [(id, stageBlock id slot)] current exit next →
      current.blockId = id ∧ next.blockId = id + 1 ∧ next.ctx.jumpArgs =
        Function.update current.ctx.jumpArgs slot current.ctx.actor.tempVal := by
    rintro current exit next ⟨block, member, runs⟩
    rcases Prod.mk.inj (List.mem_singleton.mp member) with ⟨isId, rfl⟩
    cases runs with
    | block ran alive resumes others =>
        cases ran
        exact ⟨isId, (Option.some.inj resumes).symm, others.jumpArgs⟩
  cases run with
  | refl => exact absurd atEnd (Nat.ne_of_lt (Nat.lt_succ_self id))
  | next earlier taken =>
      rcases steps _ _ _ taken with ⟨atStart, -, written⟩
      cases earlier with
      | refl => exact ⟨_, rfl, written⟩
      | next _ before =>
          rcases steps _ _ _ before with ⟨-, atNext, -⟩
          omega

/-- The first argument of some is evaluated, then staged, then come the others. -/
theorem run_args {slot id next : Nat} {value rest : Emitted W} {inner : Scope} {arg : Expr}
    (isValue : compileExpr rt ctx id inner arg = some value)
    (continues : value.outcome = .continued next) (laid : Laid (next + 1) rest)
    {exec now : ExecCtx W} {history : List (Stage (Point W) Exit)}
    (run : Run (BlockStep rt (value.code ++ [(next, stageBlock next slot)] ++ rest.code))
      ⟨id, exec⟩ history ⟨rest.nextId, now⟩) :
    ∃ later within after exit staged, history = later ++ ⟨⟨next, after⟩, exit⟩ :: within ∧
      Run (BlockStep rt value.code) ⟨id, exec⟩ within ⟨next, after⟩ ∧
      Run (BlockStep rt rest.code) ⟨next + 1, staged⟩ later ⟨rest.nextId, now⟩ ∧
      staged.jumpArgs = Function.update after.jumpArgs slot after.actor.tempVal := by
  have valueFragment : Fragment Leads id next value.code :=
    ((compiles_expr arg isValue).laid (Nat.le_refl _)).upTo continues
  have stageFragment : Fragment Leads next (next + 1) [(next, (stageBlock next slot : Block W))] :=
    fragment_goesTo (Nat.le_refl _) (goesTo_stageBlock next slot)
  have ordered := laid.fragment.ordered
  -- The parts lie one behind the other.
  have valueEmbeds : Embeds (value.code ++ [(next, stageBlock next slot)] ++ rest.code) id next
      value.code := by
    rw [List.append_assoc]
    refine Embeds.of_append (List.forall_mem_nil _) fun entry member => .inr ?_
    rcases List.mem_append.mp member with isStage | isRest
    · exact (stageFragment.inside entry isStage).1
    · exact Nat.le_of_lt (laid.fragment.inside entry isRest).1
  have stageEmbeds : Embeds (value.code ++ [(next, stageBlock next slot)] ++ rest.code) next
      (next + 1) [(next, stageBlock next slot)] :=
    Embeds.of_append (fun entry member => .inl (valueFragment.inside entry member).2)
      fun entry member => .inr (laid.fragment.inside entry member).1
  have restEmbeds : Embeds (value.code ++ [(next, stageBlock next slot)] ++ rest.code) (next + 1)
      rest.nextId rest.code := by
    have last := @Embeds.of_append _ (next + 1) rest.nextId
      (value.code ++ [(next, stageBlock next slot)]) [] rest.code ?_ (List.forall_mem_nil _)
    · rwa [List.append_nil] at last
    · intro entry member
      rcases List.mem_append.mp member with isValue | isStage
      · exact .inl (Nat.lt_succ_of_lt (valueFragment.inside entry isValue).2)
      · exact .inl (stageFragment.inside entry isStage).2
  obtain ⟨fromStage, within, ⟨number, after⟩, split, evaluated, atNext, run⟩ :=
    valueFragment.run_through valueEmbeds leads_of_blockRuns (Nat.le_refl _) valueFragment.ordered run
      (Nat.le_of_succ_le ordered)
  rcases atNext with rfl : number = next
  obtain ⟨fromRest, staging, ⟨atRest, staged⟩, stageSplit, stages, isNext, run⟩ :=
    stageFragment.run_through stageEmbeds leads_of_blockRuns (Nat.le_refl _) (Nat.le_succ _) run ordered
  rcases isNext with rfl : atRest = number + 1
  rcases run_stage stages rfl with ⟨exit, rfl, words⟩
  obtain ⟨behind, later, last, restSplit, restRuns, atEnd, run⟩ :=
    laid.fragment.run_through restEmbeds leads_of_blockRuns (Nat.le_refl _) ordered run (Nat.le_refl _)
  have whole : Fragment Leads id rest.nextId
      (value.code ++ [(number, stageBlock number slot)] ++ rest.code) :=
    (valueFragment.append stageFragment).append laid.fragment
  rcases whole.run_nil run atEnd with ⟨rfl, rfl⟩
  refine ⟨later, within, after, exit, staged, ?_, evaluated, restRuns, words⟩
  rw [split, stageSplit, restSplit, List.nil_append, List.append_assoc]
  rfl

/-- Each argument's word has its value where all are staged. -/
theorem staged_args {args : List Expr} {base count index id : Nat} {scope : Scope}
    {staged : Emitted W} (compiled : compileArgs rt ctx base count index id scope args = some staged)
    (within : index + args.length ≤ count) {exec now : ExecCtx W}
    {history : List (Stage (Point W) Exit)}
    (run : Run (BlockStep rt staged.code) ⟨id, exec⟩ history ⟨staged.nextId, now⟩)
    {position : Nat} {arg : Expr} (atPosition : args[position]? = some arg) :
    StagedValue rt ctx (base + count) (base + (index + position)) arg history now := by
  induction args generalizing index id scope staged exec history position with
  | nil => cases atPosition
  | cons first args induction =>
      rw [compileArgs] at compiled
      rcases bind_some compiled with ⟨value, isValue, result⟩
      split at result
      · rename_i next continues
        rcases bind_some result with ⟨rest, isRest, result⟩
        cases result
        rw [List.length_cons] at within
        have laid : Laid (next + 1) rest := (compiles_args args isRest).laid (Nat.le_refl _)
        obtain ⟨later, evaluating, after, exit, behind, rfl, evaluated, restRuns, words⟩ :=
          run_args isValue continues laid run
        cases position with
        | zero =>
            rcases Option.some.inj atPosition with rfl
            have keeps := (stages (compiles_args args isRest) ⟨rfl, by omega⟩).keeps
            have kept := kept_run keeps restRuns (Nat.lt_succ_self (base + index))
            have stored : behind.jumpArgs (base + index) = after.actor.tempVal := by
              rw [words, Function.update_self]
            rw [Nat.add_zero]
            refine .staged rfl isValue continues evaluated (by rw [List.append_nil]) ?_ ?_
            · exact fun stage member => (kept.1 stage member).trans stored
            · exact kept.2.trans stored
        | succ position =>
            have value := induction isRest (by omega) restRuns atPosition
            have slot : index + 1 + position = index + (position + 1) := by omega
            rw [slot] at value
            exact value.precede _
      · cases result

/-! ## Calls -/

/-- The arguments of a call that stages them; `buf[i]` is a call of `rt_load_u8`. -/
def stagedCallArgs (ctx : CompilerCtx) : Expr → Option (List Expr)
  | .jump (.var callee ty) args =>
      if isPure (.jump (.var callee ty) args) ∨ (callee = "self" ∧ allPure args) ∨
          (!isParkAware callee ∧ ctx.declaredRt callee ∧ allPure args) then
        none
      else
        some args
  | .index receiver index =>
      if isPure (.index receiver index) then none else some [receiver, index]
  | _ => none

/-- The blocks that stage the arguments and, behind them, the call's own block. -/
structure CallCode (rt : RtFuncs W) (ctx : CompilerCtx) (id : Nat) (scope : Scope)
    (args : List Expr) (staged emitted : Emitted W) : Prop where
  isStaged : compileArgs rt ctx scope.jumpArgsBase args.length 0 id scope args = some staged
  nextId : emitted.nextId = staged.nextId + 1
  code : ∃ block, emitted.code = staged.code ++ [(staged.nextId, block)] ∧
    ∀ next, Leads block next → next = staged.nextId + 1
  noStarts : emitted.starts = []

theorem callCode {id : Nat} {scope : Scope} {stmt : Expr} {args : List Expr} {emitted : Emitted W}
    (isCall : stagedCallArgs ctx stmt = some args)
    (compiled : compileExpr rt ctx id scope stmt = some emitted) :
    ∃ staged, CallCode rt ctx id scope args staged emitted := by
  rw [stagedCallArgs.eq_def] at isCall
  split at isCall
  · rename_i callee ty callArgs
    split at isCall
    · cases isCall
    · rename_i slow
      rcases Option.some.inj isCall with rfl
      rcases not_or.mp slow |>.imp_right not_or.mp with ⟨impure, notSelf, notFused⟩
      rw [compileExpr, if_neg impure, if_neg notSelf, if_neg notFused] at compiled
      rcases bind_some compiled with ⟨staged, isStaged, result⟩
      rcases bind_some result with ⟨call, called, result⟩
      cases result
      have one := oneBlock_call called
      rcases one.code with ⟨block, isCode, leads⟩
      refine ⟨staged, isStaged, one.nextId, ⟨block, ?_, leads⟩, one.noStarts⟩
      rw [isCode]
  · rename_i receiver index
    split at isCall
    · cases isCall
    · rename_i impure
      rcases Option.some.inj isCall with rfl
      rcases compile_index (Bool.eq_false_of_not_eq_true impure) compiled with
        ⟨buf, atBuf, offset, atOffset, isBuf, bufContinues, isOffset, offsetContinues, rfl⟩
      let base := scope.jumpArgsBase
      let staged : Emitted W := {
        outcome := .continued (atOffset + 1)
        code := buf.code ++ [(atBuf, stageBlock atBuf base)] ++
          (offset.code ++ [(atOffset, stageBlock atOffset (base + 1))])
        scope := { offset.scope with jumpArgsBase := base } }
      have isIndex : compileArgs rt ctx base 2 1 (atBuf + 1)
          { buf.scope with jumpArgsBase := base } [index] = some {
            outcome := .continued (atOffset + 1)
            code := offset.code ++ [(atOffset, stageBlock atOffset (base + 1))]
            scope := { offset.scope with jumpArgsBase := base } } := by
        rw [compileArgs]
        simp only [base, isOffset, Option.bind_eq_bind, Option.bind_some, offsetContinues,
          compileArgs, List.append_nil]
      have isStaged : compileArgs rt ctx base 2 0 id scope [receiver, index] = some staged := by
        rw [compileArgs]
        simp only [base, isBuf, Option.bind_eq_bind, Option.bind_some, bufContinues]
        simp only [base] at isIndex
        rw [isIndex]
        rfl
      refine ⟨staged, isStaged, rfl, ⟨rtCallBlock rt (atOffset + 1) "rt_load_u8" base 2, ?_, ?_⟩,
        rfl⟩
      · simp [staged, base, Emitted.nextId, StmtOutcome.nextAvailable]
      · exact fun next leads => eq_of_leads (goesTo_rtCallBlock _ _ _ _) leads
  · cases isCall

/-- Control comes to a call's own block, and to the blocks in front of it, from the first block
of the call. -/
theorem run_of_call {outer : Compiler.Task W × Emitted W} {id : Nat} {scope : Scope} {stmt : Expr}
    {args : List Expr} {staged emitted : Emitted W}
    (inside : Inside rt ctx (.expr id scope stmt, emitted) outer) (placed : outer.1.Placed)
    (call : CallCode rt ctx id scope args staged emitted) {start : ExecCtx W} {final : Point W}
    {history : List (Stage (Point W) Exit)}
    (run : Run (BlockStep rt outer.2.code) ⟨outer.1.first, start⟩ history final)
    (low : id ≤ final.blockId) (high : final.blockId ≤ staged.nextId) :
    ∃ within earlier entered, history = within ++ earlier ∧
      Run (BlockStep rt staged.code) ⟨id, entered⟩ within final := by
  have nested := inside.nested placed
  have laid : Laid id staged := (compiles_args args call.isStaged).laid (Nat.le_refl _)
  rcases call.code with ⟨own, isCode, goes⟩
  induction run with
  | refl =>
      have isFirst : outer.1.first = id := Nat.le_antisymm nested.low low
      rw [isFirst]
      exact ⟨[], [], start, rfl, .refl⟩
  | @next history current exit final _ taken induction =>
      rcases taken with ⟨block, member, runs⟩
      have leads := leads_of_blockRuns block current exit final runs
      by_cases inStaged : (current.blockId, block) ∈ staged.code
      · have range := laid.fragment.inside _ inStaged
        rcases induction range.1 (Nat.le_of_lt range.2) with ⟨within, earlier, entered, rfl, run⟩
        exact ⟨_, earlier, entered, rfl, run.next ⟨block, inStaged, runs⟩⟩
      · by_cases inCall : (current.blockId, block) ∈ emitted.code
        · -- The call's own block leads behind the call.
          rw [isCode, List.mem_append] at inCall
          rcases inCall.resolve_left inStaged with isOwn
          rcases Prod.mk.inj (List.mem_singleton.mp isOwn) with ⟨-, rfl⟩
          have behind := goes _ leads
          omega
        · obtain isFirst | behind | isStart :=
            (inside.entered placed).leads _ member inCall _ leads
          · rcases final with ⟨number, entered⟩
            rcases Nat.le_antisymm isFirst low with rfl : number = id
            exact ⟨[], _, entered, rfl, .refl⟩
          · have above : emitted.nextId ≤ final.blockId := behind
            rw [call.nextId] at above
            omega
          · change final.blockId ∈ emitted.starts at isStart
            rw [call.noStarts] at isStart
            cases isStart

/-- Where control comes to a call's own block, the words from the base on hold the values of the
arguments, and what comes behind the call has the base that it had. -/
theorem staged_arguments {outer : Compiler.Task W × Emitted W} {id : Nat} {scope : Scope}
    {stmt : Expr} {args : List Expr} {emitted : Emitted W}
    (inside : Inside rt ctx (.expr id scope stmt, emitted) outer) (placed : outer.1.Placed)
    (isCall : stagedCallArgs ctx stmt = some args) :
    emitted.scope.jumpArgsBase = scope.jumpArgsBase ∧ ∃ callId, emitted.nextId = callId + 1 ∧
      ∀ start history now,
        Run (BlockStep rt outer.2.code) ⟨outer.1.first, start⟩ history ⟨callId, now⟩ →
        ∀ position arg, args[position]? = some arg →
          StagedValue rt ctx (scope.jumpArgsBase + args.length) (scope.jumpArgsBase + position) arg
            history now := by
  have derived := inside.compiles
  rcases callCode isCall derived.compile with ⟨staged, call⟩
  have laid : Laid id staged := (compiles_args args call.isStaged).laid (Nat.le_refl _)
  refine ⟨(stages derived trivial).restores, staged.nextId, call.nextId, ?_⟩
  intro start history now run position arg atPosition
  obtain ⟨within, earlier, entered, rfl, inStaged⟩ :=
    run_of_call inside placed call run laid.fragment.ordered (Nat.le_refl _)
  have value := staged_args call.isStaged (by omega) inStaged atPosition
  rw [Nat.zero_add] at value
  exact value.precede earlier

/-- A program that declares all runtime functions it calls. -/
def declaring : CompilerCtx := { CompilerCtx.bare with declaredRt := fun _ => true }

def wrap (args : List Expr) : Expr := .jump (.var "wrap" .unknown) args

/-- `wrap(wrap(wrap(:a)) wrap(wrap(:b)))` -/
def nestedCall : Expr := wrap [wrap [wrap [.atom "a"]], wrap [wrap [.atom "b"]]]

def bareScope : Scope := ⟨⟨[]⟩, [], 0⟩

theorem staged_arguments_nested : ∃ emitted : Emitted Unit,
    compileExpr RtFuncs.idle declaring 0 bareScope nestedCall = some emitted ∧
    emitted.nextId = 9 ∧ emitted.scope.jumpArgsBase = 0 ∧
    ∃ callId, emitted.nextId = callId + 1 ∧
      ∀ start history now,
        Run (BlockStep RtFuncs.idle emitted.code) ⟨0, start⟩ history ⟨callId, now⟩ →
        ∀ position arg, [wrap [wrap [.atom "a"]], wrap [wrap [.atom "b"]]][position]? = some arg →
          StagedValue RtFuncs.idle declaring 2 (0 + position) arg history now := by
  have numbers : (compileExpr RtFuncs.idle declaring 0 bareScope nestedCall).map Emitted.nextId =
      some 9 := by
    decide +kernel
  rcases Option.map_eq_some_iff.mp numbers with ⟨emitted, compiled, isNext⟩
  have stagedThere := staged_arguments (.here (compiles_expr nestedCall compiled)) (Nat.le_refl 0) rfl
  exact ⟨emitted, compiled, isNext, stagedThere⟩

end LakeNative.Control

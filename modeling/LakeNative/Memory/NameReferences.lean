import LakeNative.Memory.LexicalScoping

/-! # References of names

The references in a task are lexical exactly if at each of them the compiler's table has the slot
of the innermost enclosing binding.
-/

namespace LakeNative.Memory

open LakeNative.Runtime LakeNative.Compiler

variable {W : Type} {rt : RtFuncs W} {ctx : CompilerCtx}

/-! ## Lexical references agree -/

variable (ctx) in
/-- All references of a task are lexical. -/
def lexicalTask (env : Env) : Compiler.Task W → Bool
  | .expr _ scope stmt => lexicalExpr ctx scope env stmt
  | .args base count _ _ scope exprs => lexicalArgs ctx base count scope env exprs
  | .seq _ scope stmts | .body _ _ _ scope stmts => lexicalSeq ctx scope env stmts
  | .arms _ scope branches => lexicalArms ctx scope env branches
  | .handlers _ scope bodies => lexicalHandlers ctx scope env bodies

theorem agree_of_sees {env : Env} {state : BranchState} {names : List String} {name : String}
    {used bound : Option Nat} (sees : env.sees state names = true) (member : name ∈ names)
    (uses : state.get name = used) (encloses : env.get name = bound) : used = bound := by
  rw [← uses, ← encloses]
  exact eq_of_beq (List.all_eq_true.mp sees name member)

/-- Behind a statement that goes on the body goes on. -/
theorem lexicalSeq_cons {id next : Nat} {scope : Scope} {env : Env} {stmt : Expr} {body : List Expr}
    {first : Emitted W} (lexical : lexicalSeq ctx scope env (stmt :: body) = true)
    (compiled : compileExpr rt ctx id scope stmt = some first)
    (continues : first.outcome = .continued next) :
    lexicalSeq ctx first.scope (envExpr ctx scope env stmt) body = true := by
  rcases ends_of_continued compiled continues with ⟨goesOn, firstScope⟩
  rw [lexicalSeq, Bool.and_eq_true, goesOn, Bool.false_or, firstScope] at lexical
  exact lexical.2

theorem lexicalSeq_fast {scope added : Scope} {env : Env} {stmt : Expr} {body : List Expr}
    {step : FastOp W} (lexical : lexicalSeq ctx scope env (stmt :: body) = true)
    (accepts : acceptsEntry stmt = true)
    (isFast : compileFast rt ctx scope stmt = some (step, added)) :
    lexicalSeq ctx added (envExpr ctx scope env stmt) body = true := by
  rw [lexicalSeq, Bool.and_eq_true, frameExpr_fast accepts isFast] at lexical
  exact lexical.2

theorem lexicalSeq_head {scope : Scope} {env : Env} {stmt : Expr} {body : List Expr}
    (lexical : lexicalSeq ctx scope env (stmt :: body) = true) :
    lexicalExpr ctx scope env stmt = true := by
  rw [lexicalSeq, Bool.and_eq_true] at lexical
  exact lexical.1

theorem lexicalArms_cons {id : Nat} {scope : Scope} {env : Env} {key : Expr} {body : List Expr}
    {branches : List (Expr × List Expr)} {arm : Emitted W}
    (lexical : lexicalArms ctx scope env ((key, body) :: branches) = true)
    (compiled : compileSeq rt ctx id scope body = some arm) :
    lexicalArms ctx arm.scope env branches = true := by
  have armScope : arm.scope = (frameSeq ctx scope body).scope :=
    (framed_seq body _ _ _ compiled).scope
  rw [lexicalArms, Bool.and_eq_true, ← armScope] at lexical
  exact lexical.2

theorem lexicalExpr_args {scope : Scope} {env : Env} {callee : String} {ty : Ty} {args : List Expr}
    (lexical : lexicalExpr ctx scope env (.jump (.var callee ty) args) = true)
    (notPure : isPure (.jump (.var callee ty) args) = false) :
    lexicalArgs ctx scope.jumpArgsBase args.length scope env args = true := by
  rw [lexicalExpr, if_neg (by simp [notPure]), Bool.and_eq_true] at lexical
  exact lexical.1

/-- At every reference the compiler's table has the innermost enclosing binding. -/
theorem refers_agree {task : Compiler.Task W} {env : Env} {number : Nat} {name : String}
    {used bound : Option Nat} (refers : Refers rt ctx task env number name used bound) :
    lexicalTask ctx env task = true → used = bound := by
  induction refers with
  | fast isPureStmt member uses encloses =>
      intro lexical
      rw [lexicalTask, lexicalExpr_pure _ isPureStmt] at lexical
      exact agree_of_sees lexical member uses encloses
  | letDefault _ induction =>
      intro lexical
      rw [lexicalTask, lexicalExpr] at lexical
      exact induction lexical
  | tuple isElem member uses encloses =>
      intro lexical
      rw [lexicalTask, lexicalExpr] at lexical
      exact agree_of_sees (List.all_eq_true.mp lexical _ isElem) member uses encloses
  | fusedArg notPure fused isArg member uses encloses =>
      intro lexical
      rw [isFused, Bool.and_eq_true] at fused
      exact agree_of_sees (sees_args fused.1 (lexicalExpr_args lexical notPure) _ isArg) member uses
        encloses
  | stagedArg notPure _ _ induction => exact fun lexical => induction (lexicalExpr_args lexical notPure)
  | @pid id scope callee ty args staged env used bound notPure notFused isStaged sends uses encloses =>
      intro lexical
      have frameScope : staged.scope =
          (frameArgs ctx scope.jumpArgsBase args.length scope args).scope :=
        (framed_args args _ _ _ _ _ _ isStaged).scope
      have notSelf : ¬ (callee = "self" ∧ allPure args = true) := by
        rintro ⟨isSelf, pureArgs⟩
        rw [isFused, isSelf, pureArgs] at notFused
        cases notFused
      rw [lexicalTask, lexicalExpr, if_neg (by simp [notPure])] at lexical
      dsimp only at lexical
      rw [← frameScope, sends, Bool.not_true, Bool.or_false, Bool.and_eq_true, Bool.or_eq_true,
        Bool.and_eq_true, decide_eq_true_eq] at lexical
      exact agree_of_sees (lexical.2.resolve_left notSelf) List.mem_cons_self uses encloses
  | indexReceiver notPure _ induction =>
      intro lexical
      rw [lexicalTask, lexicalExpr, if_neg (by simp [notPure])] at lexical
      dsimp only at lexical
      rw [Bool.and_eq_true] at lexical
      exact induction lexical.1
  | indexOffset notPure compiled continues _ induction =>
      intro lexical
      have bufScope := (ends_of_continued compiled continues).2
      rw [lexicalTask, lexicalExpr, if_neg (by simp [notPure])] at lexical
      dsimp only at lexical
      rw [Bool.and_eq_true, bufScope] at lexical
      exact induction lexical.2
  | whenCond _ induction =>
      intro lexical
      rw [lexicalTask, lexicalExpr, Bool.and_eq_true] at lexical
      exact induction lexical.1
  | whenArms compiled continues _ induction =>
      intro lexical
      have discScope := (ends_of_continued compiled continues).2
      rw [lexicalTask, lexicalExpr, Bool.and_eq_true, discScope] at lexical
      exact induction lexical.2
  | @waitFilter id scope handlers filter bodies pid env name used bound compiled isFilter member uses
      encloses =>
      intro lexical
      have bodiesScope : bodies.scope =
          (frameHandlers ctx (registerHandlers scope (collected handlers)) handlers).scope :=
        (framed_handlers handlers _ _ _ compiled).scope
      rw [lexicalTask, lexicalExpr, Bool.and_eq_true, ← bodiesScope] at lexical
      exact agree_of_sees (List.all_eq_true.mp lexical.2 pid isFilter) member uses encloses
  | waitBodies _ induction =>
      intro lexical
      rw [lexicalTask, lexicalExpr, Bool.and_eq_true] at lexical
      exact induction lexical.1
  | argsHead _ induction =>
      intro lexical
      rw [lexicalTask, lexicalArgs, Bool.and_eq_true] at lexical
      exact induction lexical.1
  | argsTail compiled continues _ induction =>
      intro lexical
      have valueScope := (ends_of_continued compiled continues).2
      rw [lexicalTask, lexicalArgs, Bool.and_eq_true] at lexical
      rw [valueScope] at lexical
      exact induction lexical.2
  | seqHead _ induction => exact fun lexical => induction (lexicalSeq_head lexical)
  | seqTail compiled continues _ induction =>
      exact fun lexical => induction (lexicalSeq_cons lexical compiled continues)
  | armsHead _ induction =>
      intro lexical
      rw [lexicalTask, lexicalArms, Bool.and_eq_true] at lexical
      exact induction lexical.1
  | armsSelf compiled _ _ induction =>
      intro lexical
      rw [lexicalTask] at lexical
      exact induction (lexicalArms_cons lexical compiled)
  | armsOn compiled _ _ induction =>
      intro lexical
      rw [lexicalTask] at lexical
      exact induction (lexicalArms_cons lexical compiled)
  | handlersHead _ induction =>
      intro lexical
      rw [lexicalTask, lexicalHandlers, Bool.and_eq_true] at lexical
      exact induction lexical.1
  | @handlersTail id scope patterns body handlers first env number name used bound compiled _
      induction =>
      intro lexical
      have firstScope : first.scope = (frameSeq ctx scope body).scope :=
        (framed_body body _ _ _ _ _ compiled).scope
      rw [lexicalTask, lexicalHandlers, Bool.and_eq_true, ← firstScope] at lexical
      exact induction lexical.2
  | bodyFast accepts member uses encloses _ _ =>
      exact fun lexical =>
        agree_of_sees (sees_entry accepts (lexicalSeq_head lexical)) member uses encloses
  | bodyJoin accepts isFast _ _ induction =>
      exact fun lexical => induction (lexicalSeq_fast lexical accepts isFast)
  | bodyFlush accepts isFast _ _ induction =>
      exact fun lexical => induction (lexicalSeq_fast lexical accepts isFast)
  | bodyHead _ _ induction => exact fun lexical => induction (lexicalSeq_head lexical)
  | bodyTail _ compiled continues _ induction =>
      exact fun lexical => induction (lexicalSeq_cons lexical compiled continues)

/-! ## References that agree are lexical -/

variable (rt ctx) in
/-- At all references of a task the table has the innermost enclosing binding. -/
def Agree (task : Compiler.Task W) (env : Env) : Prop :=
  ∀ number name used bound, Refers rt ctx task env number name used bound → used = bound

theorem sees_of_agree {env : Env} {state : BranchState} {refs : List String}
    (agree : ∀ name ∈ refs, state.get name = env.get name) : env.sees state refs = true := by
  rw [Env.sees, List.all_eq_true]
  intro name member
  rw [agree name member]
  exact beq_self_eq_true _

theorem lexical_pure {id : Nat} {scope : Scope} {env : Env} {stmt : Expr}
    (isPureStmt : isPure stmt = true) (agree : Agree rt ctx (.expr id scope stmt) env) :
    lexicalExpr ctx scope env stmt = true := by
  rw [lexicalExpr_pure stmt isPureStmt]
  exact sees_of_agree fun name member => agree id name _ _ (.fast isPureStmt member rfl rfl)

/-- Pure arguments are all compiled in one scope. -/
theorem lexicalArgs_of_sees {args : List Expr} {env : Env} {base count : Nat}
    (pureArgs : allPure args = true) :
    ∀ {scope : Scope}, (∀ arg ∈ args, env.sees scope.toBranchState (foldReads arg) = true) →
      lexicalArgs ctx base count scope env args = true := by
  induction args with
  | nil =>
      intro scope _
      rw [lexicalArgs]
  | cons arg args induction =>
      intro scope sees
      rw [allPure, Bool.and_eq_true] at pureArgs
      rw [lexicalArgs, Bool.and_eq_true, lexicalExpr_pure arg pureArgs.1,
        envExpr_pure arg pureArgs.1, frameExpr_pure arg pureArgs.1]
      exact ⟨sees arg List.mem_cons_self,
        induction pureArgs.2 fun other member => sees other (List.mem_cons_of_mem _ member)⟩

theorem foldReads_constant {literals : Literals} :
    (stmt : Expr) → ∀ {value : Word}, constFoldI64 literals stmt = some value → foldReads stmt = []
  | .num text ty, _, _ | .bool truth, _, _ => rfl
  | .neg inner, value, constant => by
      rw [constFoldI64] at constant
      rcases Option.map_eq_some_iff.mp constant with ⟨operand, isOperand, -⟩
      rw [foldReads]
      exact foldReads_constant inner isOperand
  | .binary op left right, value, constant => by
      rw [constFoldI64] at constant
      rcases bind_some constant with ⟨first, isFirst, later⟩
      rcases bind_some later with ⟨second, isSecond, -⟩
      rw [foldReads, foldReads_constant left isFirst, foldReads_constant right isSecond]
      rfl
  | .string .., _, constant | .unit, _, constant | .atom .., _, constant | .var .., _, constant
  | .jump .., _, constant | .tuple .., _, constant | .tupleIndex .., _, constant
  | .index .., _, constant | .letVar .., _, constant | .when .., _, constant
  | .wait .., _, constant | .other .., _, constant => by simp [constFoldI64] at constant

theorem lexical_constant {literals : Literals} {scope : Scope} {env : Env} {stmt : Expr}
    {value : Word} (constant : constFoldI64 literals stmt = some value) :
    lexicalExpr ctx scope env stmt = true := by
  have reads := foldReads_constant stmt constant
  cases stmt with
  | num text ty => rfl
  | bool truth => rfl
  | neg inner =>
      rw [lexicalExpr, reads]
      · rfl
      all_goals simp
  | binary op left right =>
      rw [lexicalExpr, reads]
      · rfl
      all_goals simp
  | _ => simp [constFoldI64] at constant

/-- Constants refer to nothing. -/
theorem lexicalArms_constant {literals : Literals} {branches : List (Expr × List Expr)}
    (constants : ∀ branch ∈ branches, ∃ stmt value, branch.2 = [stmt] ∧
      constFoldI64 literals stmt = some value) (scope : Scope) (env : Env) :
    lexicalArms ctx scope env branches = true := by
  induction branches generalizing scope with
  | nil => rw [lexicalArms]
  | cons branch branches induction =>
      rw [List.forall_mem_cons] at constants
      rcases branch with ⟨key, body⟩
      rcases constants with ⟨⟨stmt, value, rfl, constant⟩, others⟩
      rw [lexicalArms, lexicalSeq, lexicalSeq, lexical_constant constant, Bool.or_true,
        induction others]
      rfl

variable (rt ctx) in
def AgreeExpr (stmt : Expr) : Prop :=
  ∀ id scope env emitted, compileExpr rt ctx id scope stmt = some emitted →
    Agree rt ctx (.expr id scope stmt) env → lexicalExpr ctx scope env stmt = true

variable (rt ctx) in
def AgreeArgs (args : List Expr) : Prop :=
  ∀ base count index id scope env emitted,
    compileArgs rt ctx base count index id scope args = some emitted →
    Agree rt ctx (.args base count index id scope args) env →
    lexicalArgs ctx base count scope env args = true

variable (rt ctx) in
def AgreeSeq (body : List Expr) : Prop :=
  ∀ id scope env emitted, compileSeq rt ctx id scope body = some emitted →
    Agree rt ctx (.seq id scope body) env → lexicalSeq ctx scope env body = true

variable (rt ctx) in
def AgreeArms (branches : List (Expr × List Expr)) : Prop :=
  ∀ id scope env emitted, compileArms rt ctx id scope branches = some emitted →
    Agree rt ctx (.arms id scope branches) env → lexicalArms ctx scope env branches = true

variable (rt ctx) in
def AgreeHandlers (handlers : List (List Pattern × List Expr)) : Prop :=
  ∀ id scope env emitted, compileHandlers rt ctx id scope handlers = some emitted →
    Agree rt ctx (.handlers id scope handlers) env → lexicalHandlers ctx scope env handlers = true

variable (rt ctx) in
def AgreeBody (body : List Expr) : Prop :=
  ∀ run op id scope env emitted, compileBody rt ctx run op id scope body = some emitted →
    run.head?.getD id ≤ id → Agree rt ctx (.body run op id scope body) env → lexicalSeq ctx scope env body = true

theorem lexical_entry {scope : Scope} {env : Env} {stmt : Expr} (accepts : acceptsEntry stmt = true)
    (agree : ∀ name ∈ entryReads stmt, scope.get name = env.get name) :
    lexicalExpr ctx scope env stmt = true := by
  by_cases bound : ∃ ident ty default, stmt = .letVar ident ty (some default)
  · rcases bound with ⟨ident, ty, default, rfl⟩
    rw [acceptsEntry] at accepts
    rw [lexicalExpr, lexicalExpr_pure default accepts]
    exact sees_of_agree agree
  · have other : ∀ ident ty default, stmt ≠ .letVar ident ty (some default) :=
      fun ident ty default same => bound ⟨ident, ty, default, same⟩
    rw [acceptsEntry] at accepts
    · rw [entryReads] at agree
      · rw [lexicalExpr_pure stmt accepts]
        exact sees_of_agree agree
      · exact other
    · exact other

theorem agree_of_pure {stmt : Expr} (unfolds : ∀ id scope, compileExpr rt ctx id scope stmt =
      if isPure stmt then compilePure rt ctx id scope stmt else none) : AgreeExpr rt ctx stmt := by
  intro id scope env emitted compiled agree
  rw [unfolds] at compiled
  split at compiled
  · rename_i isPureStmt
    exact lexical_pure isPureStmt agree
  · cases compiled

theorem agree_letVar {ident : String} {ty : Ty} {default : Expr} (inner : AgreeExpr rt ctx default) :
    AgreeExpr rt ctx (.letVar ident ty (some default)) := by
  intro id scope env emitted compiled agree
  have within : Agree rt ctx (.expr id scope default) env :=
    fun number name used bound refers => agree number name used bound (.letDefault refers)
  rw [lexicalExpr]
  rw [compileExpr] at compiled
  split at compiled
  · rename_i isPureDefault
    exact lexical_pure isPureDefault within
  · rcases bind_some compiled with ⟨value, isValue, -⟩
    exact inner id scope env value isValue within

theorem agree_jump {ident : Expr} {args : List Expr} (inner : AgreeArgs rt ctx args) :
    AgreeExpr rt ctx (.jump ident args) := by
  intro id scope env emitted compiled agree
  by_cases named : ∃ callee ty, ident = .var callee ty
  · rcases named with ⟨callee, ty, rfl⟩
    rw [compileExpr] at compiled
    split at compiled
    · rename_i isPureStmt
      exact lexical_pure isPureStmt agree
    · rename_i notPure
      rw [lexicalExpr, if_neg notPure]
      dsimp only
      have notPure := Bool.eq_false_of_not_eq_true notPure
      -- The arguments of a call that stages nothing have the call's own block.
      have inBlock (fused : isFused ctx callee args = true) :
          lexicalArgs ctx scope.jumpArgsBase args.length scope env args = true := by
        have pureArgs := ((Bool.and_eq_true _ _).mp fused).1
        apply lexicalArgs_of_sees pureArgs
        intro arg isArg
        exact sees_of_agree fun name member =>
          agree id name _ _ (.fusedArg notPure fused isArg member rfl rfl)
      split at compiled
      · rename_i fused
        have isSelf : (decide (callee = "self") && allPure args) = true := by simpa using fused
        rw [inBlock (by simp [isFused, fused]), isSelf]
        rfl
      · rename_i notFused
        split at compiled
        · rename_i fusedRt
          have noSend : isSendTo ctx (frameArgs ctx scope.jumpArgsBase args.length scope args).scope
              callee ty = false := by
            rw [isSendTo, fusedRt.2.1]
            rfl
          rw [inBlock (by simp [isFused, fusedRt]), noSend, Bool.not_false, Bool.or_true]
          rfl
        · rename_i notFusedRt
          rcases bind_some compiled with ⟨staged, isStaged, -⟩
          have notFusedCall : isFused ctx callee args = false := by
            by_contra fused
            rw [Bool.not_eq_false, isFused, Bool.and_eq_true, Bool.or_eq_true, decide_eq_true_iff,
              Bool.and_eq_true] at fused
            rcases fused with ⟨pureArgs, isSelf | ⟨notPark, declared⟩⟩
            · exact notFused ⟨isSelf, pureArgs⟩
            · exact notFusedRt ⟨by simpa using notPark, declared, pureArgs⟩
          have frameScope : staged.scope =
              (frameArgs ctx scope.jumpArgsBase args.length scope args).scope :=
            (framed_args args _ _ _ _ _ _ isStaged).scope
          have lexicalAll := inner _ _ _ id scope env staged isStaged fun number name used bound
            refers => agree number name used bound (.stagedArg notPure notFusedCall refers)
          rw [lexicalAll, Bool.true_and, ← frameScope]
          cases sends : isSendTo ctx staged.scope callee ty with
          | false => simp
          | true =>
              have sees : (envArgs ctx scope.jumpArgsBase args.length scope env args).sees
                  staged.scope.toBranchState [callee] = true := sees_of_agree
                fun name member => by
                  rw [List.mem_singleton.mp member]
                  exact agree _ callee _ _ (.pid notPure notFusedCall isStaged sends rfl rfl)
              rw [sees, Bool.or_true]
  · rw [compileExpr] at compiled
    · split at compiled
      · rename_i isPureStmt
        exact lexical_pure isPureStmt agree
      · cases compiled
    · exact fun callee ty same => named ⟨callee, ty, same⟩

theorem agree_index {receiver index : Expr} (inner : AgreeExpr rt ctx receiver)
    (other : AgreeExpr rt ctx index) : AgreeExpr rt ctx (.index receiver index) := by
  intro id scope env emitted compiled agree
  cases isPureStmt : isPure (.index receiver index) with
  | true => exact lexical_pure isPureStmt agree
  | false =>
      rw [lexicalExpr, isPureStmt, if_neg Bool.false_ne_true]
      rcases compile_index isPureStmt compiled with
        ⟨buf, atBuf, offset, atOffset, isBuf, continues, isOffset, -, rfl⟩
      have bufScope := (ends_of_continued isBuf continues).2
      have lexical := inner id _ env buf isBuf fun number name used bound refers =>
        agree number name used bound (.indexReceiver isPureStmt refers)
      have alsoLexical := other (atBuf + 1) _ _ offset isOffset fun number name used bound refers =>
        agree number name used bound (.indexOffset isPureStmt isBuf continues refers)
      rw [Bool.and_eq_true, bufScope]
      exact ⟨lexical, alsoLexical⟩

theorem agree_when {cond : Expr} {branches : List (Expr × List Expr)}
    (inner : AgreeExpr rt ctx cond) (arms : AgreeArms rt ctx branches) :
    AgreeExpr rt ctx (.when cond branches) := by
  intro id scope env emitted compiled agree
  rw [lexicalExpr, Bool.and_eq_true]
  rcases compile_when compiled with ⟨disc, done, -, isDisc, continues, isEmitted⟩
  have lexical := inner id scope env disc isDisc fun number name used bound refers =>
    agree number name used bound (.whenCond refers)
  have discScope := (ends_of_continued isDisc continues).2
  rw [discScope]
  rcases isEmitted with ⟨values, table, rfl⟩ | ⟨-, emittedArms, select, isArms, selected, rfl⟩
  · exact ⟨lexical, lexicalArms_constant (constant_arms table) _ _⟩
  · exact ⟨lexical, arms (done + 1) _ _ emittedArms isArms fun number name used bound refers =>
      agree number name used bound (.whenArms isDisc continues refers)⟩

theorem agree_wait {handlers : List (List Pattern × List Expr)} {filter : List Expr}
    (inner : AgreeHandlers rt ctx handlers) : AgreeExpr rt ctx (.wait handlers filter) := by
  intro id scope env emitted compiled agree
  rw [lexicalExpr, Bool.and_eq_true, List.all_eq_true]
  rcases compile_wait compiled with ⟨bodies, folded, dispatch, -, isBodies, -, -, -, rfl⟩
  have bodiesScope : bodies.scope =
      (frameHandlers ctx (registerHandlers scope (collected handlers)) handlers).scope :=
    (framed_handlers handlers _ _ _ isBodies).scope
  constructor
  · exact inner (id + 1) _ _ bodies isBodies fun number name used bound refers =>
      agree number name used bound (.waitBodies refers)
  · intro pid isPid
    rw [← bodiesScope]
    exact sees_of_agree fun name member =>
      agree id name _ _ (.waitFilter isBodies isPid member rfl rfl)

theorem agree_args_cons {arg : Expr} {args : List Expr} (inner : AgreeExpr rt ctx arg)
    (rest : AgreeArgs rt ctx args) : AgreeArgs rt ctx (arg :: args) := by
  intro base count index id scope env emitted compiled agree
  rw [compileArgs] at compiled
  rw [lexicalArgs]
  rcases bind_some compiled with ⟨value, isValue, result⟩
  split at result
  · rename_i next continues
    rcases bind_some result with ⟨later, isLater, -⟩
    have valueScope := (ends_of_continued isValue continues).2
    rw [Bool.and_eq_true, valueScope]
    exact ⟨inner _ _ env value isValue fun number name used bound refers =>
        agree number name used bound (.argsHead refers),
      rest _ _ _ _ _ _ later isLater fun number name used bound refers =>
        agree number name used bound (.argsTail isValue continues refers)⟩
  · cases result

theorem agree_seq_cons {stmt : Expr} {body : List Expr} (inner : AgreeExpr rt ctx stmt)
    (rest : AgreeSeq rt ctx body) : AgreeSeq rt ctx (stmt :: body) := by
  intro id scope env emitted compiled agree
  rw [compileSeq] at compiled
  rw [lexicalSeq]
  rcases bind_some compiled with ⟨first, isFirst, result⟩
  have ends := (framed_expr stmt id scope first isFirst).2
  have lexical := inner id scope env first isFirst fun number name used bound refers =>
    agree number name used bound (.seqHead refers)
  rw [lexical, Bool.true_and, Bool.or_eq_true]
  split at result
  · rename_i next continues
    rcases bind_some result with ⟨later, isLater, -⟩
    right
    rw [(ends_of_continued isFirst continues).2]
    exact rest _ _ _ later isLater fun number name used bound refers =>
      agree number name used bound (.seqTail isFirst continues refers)
  · rename_i other
    left
    rw [← ends]
    cases isOutcome : first.outcome with
    | continued next => exact absurd isOutcome (other next)
    | stateChange next => rfl
    | wait next => rfl

theorem agree_arms_cons {key : Expr} {body : List Expr} {branches : List (Expr × List Expr)}
    (inner : AgreeSeq rt ctx body) (rest : AgreeArms rt ctx branches) :
    AgreeArms rt ctx ((key, body) :: branches) := by
  intro id scope env emitted compiled agree
  rw [compileArms] at compiled
  rw [lexicalArms, Bool.and_eq_true]
  rcases bind_some compiled with ⟨arm, isArm, result⟩
  have armScope : arm.scope = (frameSeq ctx scope body).scope :=
    (framed_seq body _ _ _ isArm).scope
  refine ⟨inner id scope env arm isArm fun number name used bound refers =>
    agree number name used bound (.armsHead refers), ?_⟩
  rw [← armScope]
  split at result
  · rename_i next leaves
    rcases bind_some result with ⟨later, isLater, -⟩
    exact rest _ _ env later isLater fun number name used bound refers =>
      agree number name used bound (.armsSelf isArm leaves refers)
  all_goals
    rename_i next goesOn
    rcases bind_some result with ⟨later, isLater, -⟩
    exact rest _ _ env later isLater fun number name used bound refers =>
      agree number name used bound (.armsOn isArm (by simp [goesOn]) refers)

theorem agree_handlers_cons {patterns : List Pattern} {body : List Expr}
    {handlers : List (List Pattern × List Expr)} (inner : AgreeBody rt ctx body)
    (rest : AgreeHandlers rt ctx handlers) : AgreeHandlers rt ctx ((patterns, body) :: handlers) := by
  intro id scope env emitted compiled agree
  rw [compileHandlers] at compiled
  rw [lexicalHandlers, Bool.and_eq_true]
  rcases bind_some compiled with ⟨first, isFirst, result⟩
  rcases bind_some result with ⟨later, isLater, -⟩
  have firstScope : first.scope = (frameSeq ctx scope body).scope :=
    (framed_body body _ _ _ _ _ isFirst).scope
  rw [← firstScope]
  exact ⟨inner [] some id scope _ first isFirst (Nat.le_refl _) fun number name used bound refers =>
      agree number name used bound (.handlersHead refers),
    rest first.nextId _ env later isLater fun number name used bound refers =>
      agree number name used bound (.handlersTail isFirst refers)⟩

theorem agree_body_cons {stmt : Expr} {body : List Expr} (inner : AgreeExpr rt ctx stmt)
    (rest : AgreeBody rt ctx body) : AgreeBody rt ctx (stmt :: body) := by
  intro run op id scope env emitted compiled low agree
  rw [compileBody] at compiled
  rw [lexicalSeq]
  split at compiled
  · rename_i accepts
    rcases bind_some compiled with ⟨⟨step, added⟩, isFast, result⟩
    dsimp only at result
    have lexical : lexicalExpr ctx scope env stmt = true := lexical_entry accepts fun name member =>
      agree id name _ _ (.bodyFast accepts member rfl rfl low (lt_fastEnd accepts))
    rw [lexical, frameExpr_fast accepts isFast, Bool.true_and, Bool.or_eq_true]
    right
    split at result
    · rename_i nextFast
      refine rest _ _ _ _ _ emitted result ?_ fun number name used bound refers =>
        agree number name used bound (.bodyJoin accepts isFast nextFast refers)
      rw [head_concat]
      exact Nat.le_succ_of_le low
    · rename_i lastFast
      rcases bind_some result with ⟨later, isLater, -⟩
      exact rest _ _ _ _ _ later isLater (Nat.le_refl _) fun number name used bound refers =>
        agree number name used bound
          (.bodyFlush accepts isFast (Bool.eq_false_of_not_eq_true lastFast) refers)
  · rename_i notFast
    have notFast := Bool.eq_false_of_not_eq_true notFast
    rcases bind_some compiled with ⟨first, isFirst, result⟩
    have ends := (framed_expr stmt id scope first isFirst).2
    have lexical := inner id scope env first isFirst fun number name used bound refers =>
      agree number name used bound (.bodyHead notFast refers)
    rw [lexical, Bool.true_and, Bool.or_eq_true]
    split at result
    · rename_i next continues
      rcases bind_some result with ⟨later, isLater, -⟩
      right
      rw [(ends_of_continued isFirst continues).2]
      exact rest _ _ _ _ _ later isLater (Nat.le_refl _) fun number name used bound refers =>
        agree number name used bound (.bodyTail notFast isFirst continues refers)
    all_goals
      rename_i next leaves
      left
      rw [← ends, leaves]
      rfl

mutual
theorem agree_expr : (stmt : Expr) → AgreeExpr rt ctx stmt
  | .letVar ident ty (some default) => agree_letVar (agree_expr default)
  | .letVar ident ty none => fun _ _ _ _ _ _ => by rw [lexicalExpr]
  | .string text ty => fun _ _ _ _ _ _ => by rw [lexicalExpr] <;> simp [foldReads, Env.sees]
  | .jump ident args => agree_jump (agree_args args)
  | .when cond branches => agree_when (agree_expr cond) (agree_arms branches)
  | .wait handlers filter => agree_wait (agree_handlers handlers)
  | .tuple elems => by
      intro id scope env emitted compiled agree
      rw [lexicalExpr, List.all_eq_true]
      intro elem isElem
      exact sees_of_agree fun name member => agree id name _ _ (.tuple isElem member rfl rfl)
  | .index receiver index => agree_index (agree_expr receiver) (agree_expr index)
  | .num text ty => agree_of_pure fun _ _ => by rw [compileExpr] <;> simp
  | .bool value => agree_of_pure fun _ _ => by rw [compileExpr] <;> simp
  | .unit => agree_of_pure fun _ _ => by rw [compileExpr] <;> simp
  | .atom name => agree_of_pure fun _ _ => by rw [compileExpr] <;> simp
  | .var name ty => agree_of_pure fun _ _ => by rw [compileExpr] <;> simp
  | .tupleIndex receiver index => agree_of_pure fun _ _ => by rw [compileExpr] <;> simp
  | .neg inner => agree_of_pure fun _ _ => by rw [compileExpr] <;> simp
  | .binary op left right => agree_of_pure fun _ _ => by rw [compileExpr] <;> simp
  | .other parts => agree_of_pure fun _ _ => by rw [compileExpr] <;> simp

theorem agree_args : (args : List Expr) → AgreeArgs rt ctx args
  | [] => fun _ _ _ _ _ _ _ _ _ => by rw [lexicalArgs]
  | arg :: args => agree_args_cons (agree_expr arg) (agree_args args)

theorem agree_seq : (body : List Expr) → AgreeSeq rt ctx body
  | [] => fun _ _ _ _ _ _ => by rw [lexicalSeq]
  | stmt :: body => agree_seq_cons (agree_expr stmt) (agree_seq body)

theorem agree_arms : (branches : List (Expr × List Expr)) → AgreeArms rt ctx branches
  | [] => fun _ _ _ _ _ _ => by rw [lexicalArms]
  | (_, body) :: branches => agree_arms_cons (agree_seq body) (agree_arms branches)

theorem agree_handlers : (handlers : List (List Pattern × List Expr)) →
    AgreeHandlers rt ctx handlers
  | [] => fun _ _ _ _ _ _ => by rw [lexicalHandlers]
  | (_, body) :: handlers => agree_handlers_cons (agree_body body) (agree_handlers handlers)

theorem agree_body : (body : List Expr) → AgreeBody rt ctx body
  | [] => fun _ _ _ _ _ _ _ _ _ => by rw [lexicalSeq]
  | stmt :: body => agree_body_cons (agree_expr stmt) (agree_body body)
end

end LakeNative.Memory

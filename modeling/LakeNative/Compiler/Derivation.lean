import LakeNative.Compiler.Pipeline

/-! # Derivations of the pipeline

The functions of the pipeline call each other. A derivation is the tree of these calls
where all succeed, so that what holds of everything emitted is proved by one induction
and a statement inside a branch can be spoken of.
-/

namespace LakeNative.Compiler

open LakeNative.Runtime

/-- A call of one of the functions of the pipeline. -/
inductive Task (W : Type) where
  | expr (id : Nat) (scope : Scope) (expr : Expr)
  | args (base count index id : Nat) (scope : Scope) (args : List Expr)
  | seq (id : Nat) (scope : Scope) (body : List Expr)
  | arms (id : Nat) (scope : Scope) (branches : List (Expr × List Expr))
  | handlers (id : Nat) (scope : Scope) (handlers : List (List Pattern × List Expr))
  | body (run : List Nat) (op : FastOp W) (id : Nat) (scope : Scope) (body : List Expr)

section Derivation

variable {W : Type} (rt : RtFuncs W) (ctx : CompilerCtx)

def Task.compile : Task W → Option (Emitted W)
  | .expr id scope stmt => compileExpr rt ctx id scope stmt
  | .args base count index id scope exprs => compileArgs rt ctx base count index id scope exprs
  | .seq id scope stmts => compileSeq rt ctx id scope stmts
  | .arms id scope branches => compileArms rt ctx id scope branches
  | .handlers id scope bodies => compileHandlers rt ctx id scope bodies
  | .body run op id scope stmts => compileBody rt ctx run op id scope stmts

/-- The handlers as the metadata loop of a `wait` sees them. -/
def collected (handlers : List (List Pattern × List Expr)) : List Handler :=
  handlers.map fun handler => ⟨handler.1, []⟩

/-- A `wait` at a place with the given variables. -/
def waitAt (scope : Scope) (handlers : List (List Pattern × List Expr)) : WaitExpr :=
  ⟨scope.toBranchState, collected handlers, []⟩

/-- The cases of the pipeline: what is emitted for a task where the calls it makes emit
what the premises say. -/
inductive Rule : List (Task W × Emitted W) → Task W → Emitted W → Prop where
  | fast {id scope expr emitted} (isFast : compilePure rt ctx id scope expr = some emitted) :
      Rule [] (.expr id scope expr) emitted
  | letOpen {id scope ident ty} :
      Rule [] (.expr id scope (.letVar ident ty none)) {
        outcome := .continued (id + 1)
        code := [(id, saveBlock id scope.len)]
        scope := scope.insertWithLakeType ident ty }
  | letValue {id scope ident ty default value next} (continues : value.outcome = .continued next) :
      Rule [(.expr id scope default, value)] (.expr id scope (.letVar ident ty (some default))) {
        outcome := .continued (next + 1)
        code := value.code ++ [(next, saveBlock next value.scope.len)]
        scope := value.scope.insertWithLakeType ident ty }
  | letTerminal {id scope ident ty default value} (terminal : value.outcome.isTerminal = true) :
      Rule [(.expr id scope default, value)] (.expr id scope (.letVar ident ty (some default)))
        value
  | string {id scope text ty} :
      Rule [] (.expr id scope (.string text ty)) (compileString rt id scope text)
  | tuple {id scope elems emitted} (compiled : compileTuple rt ctx id scope elems = some emitted) :
      Rule [] (.expr id scope (.tuple elems)) emitted
  | fusedSelf {id scope ty args emitted}
      (compiled : compileFusedSelfCall rt ctx id scope args = some emitted) :
      Rule [] (.expr id scope (.jump (.var "self" ty) args)) emitted
  | fusedRt {id scope callee ty args emitted}
      (compiled : compileFusedRtCall rt ctx id scope callee args = some emitted) :
      Rule [] (.expr id scope (.jump (.var callee ty) args)) emitted
  | call {id scope callee ty args staged emitted}
      (called : compileCall rt ctx staged.nextId staged.scope callee ty args = some emitted) :
      Rule [(.args scope.jumpArgsBase args.length 0 id scope args, staged)]
        (.expr id scope (.jump (.var callee ty) args))
        { emitted with code := staged.code ++ emitted.code }
  | index {id scope receiver index buf atBuf offset atOffset}
      (bufContinues : buf.outcome = .continued atBuf)
      (offsetContinues : offset.outcome = .continued atOffset) :
      Rule [(.expr id { scope with jumpArgsBase := scope.jumpArgsBase + 2 } receiver, buf),
          (.expr (atBuf + 1) { buf.scope with jumpArgsBase := scope.jumpArgsBase + 2 } index,
            offset)]
        (.expr id scope (.index receiver index)) {
          outcome := .continued (atOffset + 2)
          code := buf.code ++ [(atBuf, stageBlock atBuf scope.jumpArgsBase)] ++ offset.code ++
            [(atOffset, stageBlock atOffset (scope.jumpArgsBase + 1))] ++
            [(atOffset + 1, rtCallBlock rt (atOffset + 1) "rt_load_u8" scope.jumpArgsBase 2)]
          scope := { offset.scope with jumpArgsBase := scope.jumpArgsBase } }
  | kTable {id scope cond branches disc done values} (continues : disc.outcome = .continued done)
      (table : tryBuildKTable ctx.toLiterals branches = some values) :
      Rule [(.expr id scope cond, disc)] (.expr id scope (.when cond branches)) {
        outcome := .continued (done + 1)
        code := disc.code ++ [(done, kTableBlock values (done + 1))]
        scope := disc.scope }
  | when {id scope cond branches disc done arms select}
      (continues : disc.outcome = .continued done)
      (selected : selectArm ctx.toLiterals ctx.switch (branches.map Prod.fst) = some select) :
      Rule [(.expr id scope cond, disc), (.arms (done + 1) disc.scope branches, arms)]
        (.expr id scope (.when cond branches)) {
          outcome := .continued arms.nextId
          code := disc.code ++ [(done, whenBlock rt select arms.starts arms.nextId)] ++
            arms.code ++ arms.redirects.map fun exit => (exit, redirectBlock arms.nextId)
          scope := arms.scope }
  | wait {id scope handlers filter bodies folded dispatch} (nonempty : handlers ≠ [])
      (filters : filter.mapM (fold ctx.toLiterals bodies.scope.toBranchState) = some folded)
      (dispatches : emitDispatch ctx.switch (waitAt scope handlers) = some dispatch)
      (discriminates : filter ≠ [] → (waitAt scope handlers).dequeueArgCount ≠ 0) :
      Rule [(.handlers (id + 1) (registerHandlers scope (collected handlers)) handlers, bodies)]
        (.expr id scope (.wait handlers filter)) {
          outcome := .wait bodies.nextId
          code := [(id, waitBlock rt (waitAt scope handlers) dispatch folded bodies.starts id)] ++
            bodies.code
          scope := bodies.scope }
  | argsNil {base count index id scope} :
      Rule [] (.args base count index id scope [])
        { outcome := .continued id, code := [], scope := scope }
  | argsCons {base count index id scope arg args value next rest}
      (continues : value.outcome = .continued next) :
      Rule [(.expr id { scope with jumpArgsBase := base + count } arg, value),
          (.args base count (index + 1) (next + 1) { value.scope with jumpArgsBase := base } args,
            rest)]
        (.args base count index id scope (arg :: args)) { rest with
          code := value.code ++ [(next, stageBlock next (base + index))] ++ rest.code }
  | seqNil {id scope} :
      Rule [] (.seq id scope []) { outcome := .continued id, code := [], scope := scope }
  | seqCons {id scope stmt body first next rest} (continues : first.outcome = .continued next) :
      Rule [(.expr id scope stmt, first), (.seq next first.scope body, rest)]
        (.seq id scope (stmt :: body)) { rest with code := first.code ++ rest.code }
  | seqLast {id scope stmt body first} (terminal : first.outcome.isTerminal = true) :
      Rule [(.expr id scope stmt, first)] (.seq id scope (stmt :: body)) first
  | armsNil {id scope} :
      Rule [] (.arms id scope []) { outcome := .continued id, code := [], scope := scope }
  | armsSelf {id scope key body branches arm next rest}
      (leaves : arm.outcome = .stateChange next) :
      Rule [(.seq id scope body, arm),
          (.arms (if branches.isEmpty then next else next + 1) arm.scope branches, rest)]
        (.arms id scope ((key, body) :: branches))
        { rest with code := arm.code ++ rest.code, starts := id :: rest.starts }
  | armsOn {id scope key body branches arm next rest}
      (goesOn : arm.outcome = .continued next ∨ arm.outcome = .wait next) :
      Rule [(.seq id scope body, arm), (.arms (next + 1) arm.scope branches, rest)]
        (.arms id scope ((key, body) :: branches)) { rest with
          code := arm.code ++ rest.code
          starts := id :: rest.starts
          redirects := next :: rest.redirects }
  | handlersNil {id scope} :
      Rule [] (.handlers id scope []) { outcome := .continued id, code := [], scope := scope }
  | handlersCons {id scope patterns body handlers first rest} :
      Rule [(.body [] some id scope body, first), (.handlers first.nextId first.scope handlers, rest)]
        (.handlers id scope ((patterns, body) :: handlers))
        { rest with code := first.code ++ rest.code, starts := id :: rest.starts }
  | bodyNil {run op id scope} :
      Rule [] (.body run op id scope []) { outcome := .continued id, code := [], scope := scope }
  | bodyJoin {run op id scope stmt body step added rest}
      (isFast : compileFast rt ctx scope stmt = some (step, added))
      (nextFast : body.head?.elim false acceptsEntry = true) :
      Rule [(.body (run ++ [id]) (fun exec => (op exec).bind step) (id + 1) added body, rest)]
        (.body run op id scope (stmt :: body)) rest
  | bodyFlush {run op id scope stmt body step added rest}
      (isFast : compileFast rt ctx scope stmt = some (step, added)) :
      Rule [(.body [] some (id + 1) added body, rest)] (.body run op id scope (stmt :: body))
        { rest with
          code := fastCode (fun exec => (op exec).bind step) (run ++ [id]) (id + 1) ++ rest.code }
  | bodyStmt {run op id scope stmt body first next rest}
      (continues : first.outcome = .continued next) :
      Rule [(.expr id scope stmt, first), (.body [] some next first.scope body, rest)]
        (.body run op id scope (stmt :: body)) { rest with code := first.code ++ rest.code }
  | bodyLast {run op id scope stmt body first next}
      (terminal : first.outcome = .stateChange next ∨ first.outcome = .wait next) :
      Rule [(.expr id scope stmt, first)] (.body run op id scope (stmt :: body))
        { first with outcome := .continued next }

/-- A derivation: a call that succeeds by a case of the pipeline, with derived premises. -/
inductive Compiles : Task W → Emitted W → Prop where
  | rule {premises task emitted} (isRule : Rule rt ctx premises task emitted)
      (compiled : task.compile rt ctx = some emitted)
      (derived : ∀ premise ∈ premises, Compiles premise.1 premise.2) : Compiles task emitted

end Derivation

variable {W : Type} {rt : RtFuncs W} {ctx : CompilerCtx}

namespace Compiles

variable {task : Task W} {emitted : Emitted W}

theorem compile (derived : Compiles rt ctx task emitted) : task.compile rt ctx = some emitted := by
  cases derived with
  | rule _ compiled _ => exact compiled

theorem leaf (compiled : task.compile rt ctx = some emitted) (isRule : Rule rt ctx [] task emitted) :
    Compiles rt ctx task emitted :=
  .rule isRule compiled nofun

theorem one {inner : Task W} {part : Emitted W} (compiled : task.compile rt ctx = some emitted)
    (isRule : Rule rt ctx [(inner, part)] task emitted) (derived : Compiles rt ctx inner part) :
    Compiles rt ctx task emitted := by
  refine .rule isRule compiled fun premise member => ?_
  rw [List.mem_singleton.mp member]
  exact derived

theorem two {first second : Task W × Emitted W} (compiled : task.compile rt ctx = some emitted)
    (isRule : Rule rt ctx [first, second] task emitted)
    (derived : Compiles rt ctx first.1 first.2) (alsoDerived : Compiles rt ctx second.1 second.2) :
    Compiles rt ctx task emitted := by
  refine .rule isRule compiled fun premise member => ?_
  rcases List.mem_pair.mp member with rfl | rfl
  · exact derived
  · exact alsoDerived

end Compiles

theorem bind_some {α β : Type} {value : Option α} {next : α → Option β} {result : β}
    (bound : (value >>= next) = some result) :
    ∃ middle, value = some middle ∧ next middle = some result :=
  Option.bind_eq_some_iff.mp bound

theorem isTerminal_of_ne {outcome : StmtOutcome} (other : ∀ next, outcome ≠ .continued next) :
    outcome.isTerminal = true := by
  cases outcome with
  | continued next => exact absurd rfl (other next)
  | stateChange next => rfl
  | wait next => rfl

/-- What a `when` is compiled to: its constant table or its arms. -/
theorem compile_when {id : Nat} {scope : Scope} {cond : Expr} {branches : List (Expr × List Expr)}
    {emitted : Emitted W} (compiled : compileExpr rt ctx id scope (.when cond branches) = some emitted) :
    ∃ disc done, ¬ 1 < (wildcardArms (branches.map Prod.fst)).length ∧
      compileExpr rt ctx id scope cond = some disc ∧ disc.outcome = .continued done ∧
      ((∃ values, tryBuildKTable ctx.toLiterals branches = some values ∧ emitted = {
          outcome := .continued (done + 1)
          code := disc.code ++ [(done, kTableBlock values (done + 1))]
          scope := disc.scope }) ∨
        tryBuildKTable ctx.toLiterals branches = none ∧ ∃ arms select,
          compileArms rt ctx (done + 1) disc.scope branches = some arms ∧
          selectArm ctx.toLiterals ctx.switch (branches.map Prod.fst) = some select ∧ emitted = {
            outcome := .continued arms.nextId
            code := disc.code ++ [(done, whenBlock rt select arms.starts arms.nextId)] ++
              arms.code ++ arms.redirects.map fun exit => (exit, redirectBlock arms.nextId)
            scope := arms.scope }) := by
  rw [compileExpr] at compiled
  split at compiled
  · cases compiled
  · rename_i defaults
    rcases bind_some compiled with ⟨disc, isDisc, result⟩
    split at result
    · rename_i done continues
      refine ⟨disc, done, defaults, isDisc, continues, ?_⟩
      split at result
      · rename_i values table
        exact .inl ⟨values, table, (Option.some.inj result).symm⟩
      · rename_i noTable
        rcases bind_some result with ⟨arms, isArms, result⟩
        rcases bind_some result with ⟨select, selected, result⟩
        exact .inr ⟨noTable, arms, select, isArms, selected, (Option.some.inj result).symm⟩
    · cases result

/-- What a `wait` is compiled to. -/
theorem compile_wait {id : Nat} {scope : Scope} {handlers : List (List Pattern × List Expr)}
    {filter : List Expr} {emitted : Emitted W}
    (compiled : compileExpr rt ctx id scope (.wait handlers filter) = some emitted) :
    ∃ bodies folded dispatch, handlers ≠ [] ∧
      compileHandlers rt ctx (id + 1) (registerHandlers scope (collected handlers)) handlers =
        some bodies ∧
      filter.mapM (fold ctx.toLiterals bodies.scope.toBranchState) = some folded ∧
      emitDispatch ctx.switch (waitAt scope handlers) = some dispatch ∧
      (filter ≠ [] → (waitAt scope handlers).dequeueArgCount ≠ 0) ∧ emitted = {
        outcome := .wait bodies.nextId
        code := [(id, waitBlock rt (waitAt scope handlers) dispatch folded bodies.starts id)] ++
          bodies.code
        scope := bodies.scope } := by
  rw [compileExpr] at compiled
  split at compiled
  · cases compiled
  · rename_i nonempty
    rcases bind_some compiled with ⟨bodies, isBodies, result⟩
    rcases bind_some result with ⟨folded, filters, result⟩
    rcases bind_some result with ⟨dispatch, dispatches, result⟩
    split at result
    · cases result
    · rename_i discriminates
      refine ⟨bodies, folded, dispatch, by simpa using nonempty, isBodies, filters, dispatches, ?_,
        (Option.some.inj result).symm⟩
      intro filtered noArgs
      exact discriminates ⟨by simpa using filtered, noArgs⟩

/-- What `receiver[index]` is compiled to where it is not folded. -/
theorem compile_index {id : Nat} {scope : Scope} {receiver index : Expr} {emitted : Emitted W}
    (impure : isPure (.index receiver index) = false)
    (compiled : compileExpr rt ctx id scope (.index receiver index) = some emitted) :
    ∃ buf atBuf offset atOffset,
      compileExpr rt ctx id { scope with jumpArgsBase := scope.jumpArgsBase + 2 } receiver = some buf ∧
      buf.outcome = .continued atBuf ∧
      compileExpr rt ctx (atBuf + 1) { buf.scope with jumpArgsBase := scope.jumpArgsBase + 2 } index =
        some offset ∧
      offset.outcome = .continued atOffset ∧ emitted = {
        outcome := .continued (atOffset + 2)
        code := buf.code ++ [(atBuf, stageBlock atBuf scope.jumpArgsBase)] ++ offset.code ++
          [(atOffset, stageBlock atOffset (scope.jumpArgsBase + 1))] ++
          [(atOffset + 1, rtCallBlock rt (atOffset + 1) "rt_load_u8" scope.jumpArgsBase 2)]
        scope := { offset.scope with jumpArgsBase := scope.jumpArgsBase } } := by
  rw [compileExpr, impure, if_neg Bool.false_ne_true] at compiled
  rcases bind_some compiled with ⟨buf, isBuf, result⟩
  split at result
  · rename_i atBuf bufContinues
    rcases bind_some result with ⟨offset, isOffset, result⟩
    split at result
    · rename_i atOffset offsetContinues
      exact ⟨buf, atBuf, offset, atOffset, isBuf, bufContinues, isOffset, offsetContinues,
        (Option.some.inj result).symm⟩
    · cases result
  · cases result

theorem compiles_pure {id : Nat} {scope : Scope} {stmt : Expr} {emitted : Emitted W}
    (unfolds : compileExpr rt ctx id scope stmt =
      if isPure stmt then compilePure rt ctx id scope stmt else none)
    (compiled : compileExpr rt ctx id scope stmt = some emitted) :
    Compiles rt ctx (.expr id scope stmt) emitted := by
  have whole := compiled
  rw [unfolds] at compiled
  split at compiled
  · exact .leaf whole (.fast compiled)
  · cases compiled

mutual
theorem compiles_expr : (stmt : Expr) → ∀ {id scope emitted},
    compileExpr rt ctx id scope stmt = some emitted → Compiles rt ctx (.expr id scope stmt) emitted
  | .letVar ident ty (some default) => by
      intro whole
      have compiled := whole
      rw [compileExpr] at compiled
      split at compiled
      · exact .leaf whole (.fast compiled)
      · rcases bind_some compiled with ⟨value, isValue, result⟩
        have inner := compiles_expr default isValue
        split at result
        · rename_i next continues
          cases result
          exact .one whole (.letValue continues) inner
        · rename_i other
          cases result
          exact .one whole (.letTerminal (isTerminal_of_ne other)) inner
  | .letVar ident ty none => by
      intro whole
      have compiled := whole
      rw [compileExpr] at compiled
      cases compiled
      exact .leaf whole .letOpen
  | .string text ty => by
      intro whole
      have compiled := whole
      rw [compileExpr] at compiled
      cases compiled
      exact .leaf whole .string
  | .jump ident args => by
      intro whole
      have compiled := whole
      by_cases named : ∃ callee ty, ident = .var callee ty
      · rcases named with ⟨callee, ty, rfl⟩
        rw [compileExpr] at compiled
        split at compiled
        · exact .leaf whole (.fast compiled)
        · split at compiled
          · rename_i fused
            rw [fused.1] at whole ⊢
            exact .leaf whole (.fusedSelf compiled)
          · split at compiled
            · exact .leaf whole (.fusedRt compiled)
            · rcases bind_some compiled with ⟨staged, isStaged, result⟩
              rcases bind_some result with ⟨call, isCall, result⟩
              cases result
              exact .one whole (.call isCall) (compiles_args args isStaged)
      · rw [compileExpr] at compiled
        · split at compiled
          · exact .leaf whole (.fast compiled)
          · cases compiled
        · exact fun callee ty same => named ⟨callee, ty, same⟩
  | .when cond branches => by
      intro whole
      rcases compile_when whole with ⟨disc, done, -, isDisc, continues,
        ⟨values, table, rfl⟩ | ⟨-, arms, select, isArms, selected, rfl⟩⟩
      · exact .one whole (.kTable continues table) (compiles_expr cond isDisc)
      · exact .two whole (.when continues selected) (compiles_expr cond isDisc)
          (compiles_arms branches isArms)
  | .wait handlers filter => by
      intro whole
      rcases compile_wait whole with
        ⟨bodies, folded, dispatch, nonempty, isBodies, filters, dispatches, discriminates, rfl⟩
      exact .one whole (.wait nonempty filters dispatches discriminates)
        (compiles_handlers handlers isBodies)
  | .tuple elems => by
      intro whole
      have compiled := whole
      rw [compileExpr] at compiled
      exact .leaf whole (.tuple compiled)
  | .index receiver index => by
      intro whole
      cases accepts : isPure (.index receiver index) with
      | true =>
          have compiled := whole
          rw [compileExpr, if_pos accepts] at compiled
          exact .leaf whole (.fast compiled)
      | false =>
          rcases compile_index accepts whole with
            ⟨buf, atBuf, offset, atOffset, isBuf, bufContinues, isOffset, offsetContinues, rfl⟩
          exact .two whole (.index bufContinues offsetContinues) (compiles_expr receiver isBuf)
            (compiles_expr index isOffset)
  | .num text ty => compiles_pure (by rw [compileExpr] <;> simp)
  | .bool value => compiles_pure (by rw [compileExpr] <;> simp)
  | .unit => compiles_pure (by rw [compileExpr] <;> simp)
  | .atom name => compiles_pure (by rw [compileExpr] <;> simp)
  | .var name ty => compiles_pure (by rw [compileExpr] <;> simp)
  | .tupleIndex receiver index => compiles_pure (by rw [compileExpr] <;> simp)
  | .neg inner => compiles_pure (by rw [compileExpr] <;> simp)
  | .binary op left right => compiles_pure (by rw [compileExpr] <;> simp)
  | .other parts => compiles_pure (by rw [compileExpr] <;> simp)

theorem compiles_args : (args : List Expr) → ∀ {base count index id scope emitted},
    compileArgs rt ctx base count index id scope args = some emitted →
    Compiles rt ctx (.args base count index id scope args) emitted
  | [] => by
      intro whole
      have compiled := whole
      rw [compileArgs] at compiled
      cases compiled
      exact .leaf whole .argsNil
  | arg :: args => by
      intro whole
      have compiled := whole
      rw [compileArgs] at compiled
      rcases bind_some compiled with ⟨value, isValue, result⟩
      split at result
      · rename_i next continues
        rcases bind_some result with ⟨rest, isRest, result⟩
        cases result
        exact .two whole (.argsCons continues) (compiles_expr arg isValue) (compiles_args args isRest)
      · cases result

theorem compiles_seq : (body : List Expr) → ∀ {id scope emitted},
    compileSeq rt ctx id scope body = some emitted → Compiles rt ctx (.seq id scope body) emitted
  | [] => by
      intro whole
      have compiled := whole
      rw [compileSeq] at compiled
      cases compiled
      exact .leaf whole .seqNil
  | stmt :: body => by
      intro whole
      have compiled := whole
      rw [compileSeq] at compiled
      rcases bind_some compiled with ⟨first, isFirst, result⟩
      have inner := compiles_expr stmt isFirst
      split at result
      · rename_i next continues
        rcases bind_some result with ⟨rest, isRest, result⟩
        cases result
        exact .two whole (.seqCons continues) inner (compiles_seq body isRest)
      · rename_i other
        cases result
        exact .one whole (.seqLast (isTerminal_of_ne other)) inner

theorem compiles_arms : (branches : List (Expr × List Expr)) → ∀ {id scope emitted},
    compileArms rt ctx id scope branches = some emitted →
    Compiles rt ctx (.arms id scope branches) emitted
  | [] => by
      intro whole
      have compiled := whole
      rw [compileArms] at compiled
      cases compiled
      exact .leaf whole .armsNil
  | (key, body) :: branches => by
      intro whole
      have compiled := whole
      rw [compileArms] at compiled
      rcases bind_some compiled with ⟨arm, isArm, result⟩
      have inner := compiles_seq body isArm
      split at result
      · rename_i next leaves
        rcases bind_some result with ⟨rest, isRest, result⟩
        cases result
        exact .two whole (.armsSelf leaves) inner (compiles_arms branches isRest)
      · rename_i next goesOn
        rcases bind_some result with ⟨rest, isRest, result⟩
        cases result
        exact .two whole (.armsOn (.inl goesOn)) inner (compiles_arms branches isRest)
      · rename_i next goesOn
        rcases bind_some result with ⟨rest, isRest, result⟩
        cases result
        exact .two whole (.armsOn (.inr goesOn)) inner (compiles_arms branches isRest)

theorem compiles_handlers : (handlers : List (List Pattern × List Expr)) → ∀ {id scope emitted},
    compileHandlers rt ctx id scope handlers = some emitted →
    Compiles rt ctx (.handlers id scope handlers) emitted
  | [] => by
      intro whole
      have compiled := whole
      rw [compileHandlers] at compiled
      cases compiled
      exact .leaf whole .handlersNil
  | (patterns, body) :: handlers => by
      intro whole
      have compiled := whole
      rw [compileHandlers] at compiled
      rcases bind_some compiled with ⟨first, isFirst, result⟩
      rcases bind_some result with ⟨rest, isRest, result⟩
      cases result
      exact .two whole .handlersCons (compiles_body body isFirst) (compiles_handlers handlers isRest)

theorem compiles_body : (body : List Expr) → ∀ {run op id scope emitted},
    compileBody rt ctx run op id scope body = some emitted →
    Compiles rt ctx (.body run op id scope body) emitted
  | [] => by
      intro whole
      have compiled := whole
      rw [compileBody] at compiled
      cases compiled
      exact .leaf whole .bodyNil
  | stmt :: body => by
      intro whole
      have compiled := whole
      rw [compileBody] at compiled
      split at compiled
      · rcases bind_some compiled with ⟨⟨step, added⟩, isFast, result⟩
        dsimp only at result
        split at result
        · rename_i nextFast
          exact .one whole (.bodyJoin isFast nextFast) (compiles_body body result)
        · rcases bind_some result with ⟨rest, isRest, result⟩
          cases result
          exact .one whole (.bodyFlush isFast) (compiles_body body isRest)
      · rcases bind_some compiled with ⟨first, isFirst, result⟩
        have inner := compiles_expr stmt isFirst
        split at result
        · rename_i next continues
          rcases bind_some result with ⟨rest, isRest, result⟩
          cases result
          exact .two whole (.bodyStmt continues) inner (compiles_body body isRest)
        · rename_i next leaves
          cases result
          exact .one whole (.bodyLast (.inl leaves)) inner
        · rename_i next leaves
          cases result
          exact .one whole (.bodyLast (.inr leaves)) inner
end

/-- What the pipeline emits has a derivation. -/
theorem Task.compiles : (task : Task W) → ∀ {emitted},
    task.compile rt ctx = some emitted → Compiles rt ctx task emitted
  | .expr _ _ stmt => compiles_expr stmt
  | .args _ _ _ _ _ exprs => compiles_args exprs
  | .seq _ _ stmts => compiles_seq stmts
  | .arms _ _ branches => compiles_arms branches
  | .handlers _ _ bodies => compiles_handlers bodies
  | .body _ _ _ _ stmts => compiles_body stmts

end LakeNative.Compiler

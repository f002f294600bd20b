import LakeNative.Compiler.Scoping

/-! # One block for each statement

The lowering without merged blocks and without coalesced bindings, which the pipeline is compared
with. It gives out the same numbers. Every `let` of a value goes through `TEMP_VAL`, as the generic
path does, and so `TEMP_VAL` always holds the last value. Where pure bindings are coalesced it is
stale behind them, until another value is put there.
-/

namespace LakeNative.Compiler

open LakeNative.Runtime

section PlainLowering

variable {W : Type} (rt : RtFuncs W) (ctx : CompilerCtx)

/-! ## The lowering -/

/-- The block of the value and the save block behind it in one. -/
def plainLet (id : Nat) (scope : Scope) (ident : String) (ty : Ty) (default : Expr) :
    Option (Emitted W) := do
  let value ← foldWithSelf ctx.toLiterals true scope.toBranchState default
  some {
    outcome := .continued (id + 1)
    code := [(id, fun exec => orTrap exec ((value (exec.view rt)).map fun value =>
      saveBlock id scope.len (exec.setTemp value)))]
    scope := scope.insertWithLakeType ident ty }

mutual
def plainExpr (id : Nat) (scope : Scope) : Expr → Option (Emitted W)
  | .letVar ident ty (some default) =>
      if isPure default then
        plainLet rt ctx id scope ident ty default
      else do
        let value ← plainExpr id scope default
        match value.outcome with
        | .continued next => some {
            outcome := .continued (next + 1)
            code := value.code ++ [(next, saveBlock next value.scope.len)]
            scope := value.scope.insertWithLakeType ident ty }
        | _ => some value
  | .letVar ident ty none => some {
      outcome := .continued (id + 1)
      code := [(id, saveBlock id scope.len)]
      scope := scope.insertWithLakeType ident ty }
  | .string text _ => some (compileString rt id scope text)
  | .jump ident args =>
      if isPure (.jump ident args) then
        compilePure rt ctx id scope (.jump ident args)
      else
        match ident with
        | .var callee ty =>
            if callee = "self" ∧ allPure args then
              compileFusedSelfCall rt ctx id scope args
            else if !isParkAware callee ∧ ctx.declaredRt callee ∧ allPure args then
              compileFusedRtCall rt ctx id scope callee args
            else do
              let staged ← plainArgs scope.jumpArgsBase args.length 0 id scope args
              let call ← compileCall rt ctx staged.nextId staged.scope callee ty args
              some { call with code := staged.code ++ call.code }
        | _ => none
  | .when cond branches =>
      let keys := branches.map Prod.fst
      if 1 < (wildcardArms keys).length then
        none
      else do
        let disc ← plainExpr id scope cond
        match disc.outcome with
        | .continued done =>
            match tryBuildKTable ctx.toLiterals branches with
            | some values => some {
                outcome := .continued (done + 1)
                code := disc.code ++ [(done, kTableBlock values (done + 1))]
                scope := disc.scope }
            | none => do
                let arms ← plainArms (done + 1) disc.scope branches
                let select ← selectArm ctx.toLiterals ctx.switch keys
                some {
                  outcome := .continued arms.nextId
                  code := disc.code ++ [(done, whenBlock rt select arms.starts arms.nextId)] ++
                    arms.code ++ arms.redirects.map fun exit => (exit, redirectBlock arms.nextId)
                  scope := arms.scope }
        | _ => none
  | .wait handlers filter =>
      if handlers.isEmpty then
        none
      else do
        let wait := waitAt scope handlers
        let bodies ← plainHandlers (id + 1) (registerHandlers scope (collected handlers)) handlers
        let folded ← filter.mapM (fold ctx.toLiterals bodies.scope.toBranchState)
        let dispatch ← emitDispatch ctx.switch wait
        if !filter.isEmpty ∧ wait.dequeueArgCount = 0 then
          none
        else
          some {
            outcome := .wait bodies.nextId
            code := [(id, waitBlock rt wait dispatch folded bodies.starts id)] ++ bodies.code
            scope := bodies.scope }
  | .tuple elems => compileTuple rt ctx id scope elems
  | .index receiver index =>
      if isPure (.index receiver index) then
        compilePure rt ctx id scope (.index receiver index)
      else do
        let base := scope.jumpArgsBase
        let buf ← plainExpr id { scope with jumpArgsBase := base + 2 } receiver
        match buf.outcome with
        | .continued atBuf => do
            let offset ← plainExpr (atBuf + 1) { buf.scope with jumpArgsBase := base + 2 } index
            match offset.outcome with
            | .continued atOffset => some {
                outcome := .continued (atOffset + 2)
                code := buf.code ++ [(atBuf, stageBlock atBuf base)] ++ offset.code ++
                  [(atOffset, stageBlock atOffset (base + 1))] ++
                  [(atOffset + 1, rtCallBlock rt (atOffset + 1) "rt_load_u8" base 2)]
                scope := { offset.scope with jumpArgsBase := base } }
            | _ => none
        | _ => none
  | expr => if isPure expr then compilePure rt ctx id scope expr else none

def plainArgs (base count index id : Nat) (scope : Scope) : List Expr → Option (Emitted W)
  | [] => some { outcome := .continued id, code := [], scope := scope }
  | arg :: args => do
      let value ← plainExpr id { scope with jumpArgsBase := base + count } arg
      match value.outcome with
      | .continued next => do
          let rest ← plainArgs base count (index + 1) (next + 1)
            { value.scope with jumpArgsBase := base } args
          some { rest with
            code := value.code ++ [(next, stageBlock next (base + index))] ++ rest.code }
      | _ => none

def plainSeq (id : Nat) (scope : Scope) : List Expr → Option (Emitted W)
  | [] => some { outcome := .continued id, code := [], scope := scope }
  | expr :: rest => do
      let first ← plainExpr id scope expr
      match first.outcome with
      | .continued next => do
          let rest ← plainSeq next first.scope rest
          some { rest with code := first.code ++ rest.code }
      | _ => some first

def plainArms (id : Nat) (scope : Scope) : List (Expr × List Expr) → Option (Emitted W)
  | [] => some { outcome := .continued id, code := [], scope := scope }
  | (_, body) :: branches => do
      let arm ← plainSeq id scope body
      match arm.outcome with
      | .stateChange next => do
          let rest ← plainArms (if branches.isEmpty then next else next + 1) arm.scope branches
          some { rest with code := arm.code ++ rest.code, starts := id :: rest.starts }
      | .continued next | .wait next => do
          let rest ← plainArms (next + 1) arm.scope branches
          some { rest with
            code := arm.code ++ rest.code
            starts := id :: rest.starts
            redirects := next :: rest.redirects }

def plainHandlers (id : Nat) (scope : Scope) :
    List (List Pattern × List Expr) → Option (Emitted W)
  | [] => some { outcome := .continued id, code := [], scope := scope }
  | (_, body) :: handlers => do
      let first ← plainSeq id scope body
      let rest ← plainHandlers first.nextId first.scope handlers
      some { rest with code := first.code ++ rest.code, starts := id :: rest.starts }
end

section Sequences

variable {rt ctx} {id : Nat} {scope : Scope} {stmt : Expr} {body : List Expr} {own : Emitted W}

theorem plainSeq_continued {next : Nat} {later : Emitted W} (isOwn : plainExpr rt ctx id scope stmt = some own)
    (continues : own.outcome = .continued next) (isLater : plainSeq rt ctx next own.scope body = some later) :
    plainSeq rt ctx id scope (stmt :: body) = some { later with code := own.code ++ later.code } := by
  rw [plainSeq, isOwn, Option.bind_eq_bind, Option.bind_some, continues]
  dsimp only
  rw [isLater]
  rfl

theorem plainSeq_terminal (isOwn : plainExpr rt ctx id scope stmt = some own)
    (terminal : own.outcome.isTerminal = true) : plainSeq rt ctx id scope (stmt :: body) = some own := by
  rw [plainSeq, isOwn, Option.bind_eq_bind, Option.bind_some]
  split
  · rename_i next continues
    rw [continues] at terminal
    cases terminal
  · rfl

end Sequences

end PlainLowering

/-! ## What is in `TEMP_VAL` -/

section TempValue

variable (ctx : CompilerCtx)
  -- The runtime functions that return a value.
  (returns : String → Bool)

mutual
/-- Whether coalesced code has the last value in `TEMP_VAL` behind a statement, given whether it
has it in front. There is no answer if the statement reads `TEMP_VAL` where it is stale. -/
def tempExpr (scope : Scope) (known : Bool) : Expr → Option Bool
  | .letVar _ _ (some default) =>
      if isPure default then
        some false
      else do
        let value ← tempExpr scope known default
        if (frameExpr ctx scope default).ends || value then some value else none
  | .letVar _ _ none => if known then some true else none
  | .jump (.var callee ty) args =>
      if isPure (.jump (.var callee ty) args) || (callee = "self" && allPure args) then
        some true
      else if isFused ctx callee args then
        some (known || returns callee)
      else do
        let staged ← tempArgs scope.jumpArgsBase args.length scope known args
        let behind := (frameArgs ctx scope.jumpArgsBase args.length scope args).scope
        some (staged ||
          if ctx.declaredRt callee then returns callee || isParkAware callee
          else !isSendTo ctx behind callee ty)
  | .when cond branches => do
      let disc ← tempExpr scope known cond
      if disc then
        match tryBuildKTable ctx.toLiterals branches with
        | some _ => some true
        | none => tempArms (frameExpr ctx scope cond).scope branches
      else
        none
  | .wait handlers _ =>
      tempHandlers (registerHandlers scope (collected handlers)) known true handlers
  | .index receiver index =>
      if isPure (.index receiver index) then
        some true
      else do
        let base := scope.jumpArgsBase
        let buf := frameExpr ctx { scope with jumpArgsBase := base + 2 } receiver
        let atBuf ← tempExpr { scope with jumpArgsBase := base + 2 } known receiver
        let atOffset ← tempExpr { buf.scope with jumpArgsBase := base + 2 } true index
        if atBuf && atOffset then some true else none
  | _ => some true

/-- Staging an argument reads `TEMP_VAL`. -/
def tempArgs (base count : Nat) (scope : Scope) (known : Bool) : List Expr → Option Bool
  | [] => some known
  | arg :: args => do
      let value ← tempExpr { scope with jumpArgsBase := base + count } known arg
      let behind := (frameExpr ctx { scope with jumpArgsBase := base + count } arg).scope
      if value then tempArgs base count { behind with jumpArgsBase := base } true args else none

def tempSeq (scope : Scope) (known : Bool) : List Expr → Option Bool
  | [] => some known
  | stmt :: body => do
      let first ← tempExpr scope known stmt
      let frame := frameExpr ctx scope stmt
      if frame.ends then some first else tempSeq frame.scope first body

/-- The arms come behind the choice, which has read `TEMP_VAL`. -/
def tempArms (scope : Scope) : List (Expr × List Expr) → Option Bool
  | [] => some true
  | (_, body) :: branches => do
      let arm ← tempSeq scope true body
      let rest ← tempArms (frameSeq ctx scope body).scope branches
      some (arm && rest)

/-- A handler's body comes behind the check of the `wait` or behind the body in front of it. -/
def tempHandlers (scope : Scope) (entry behind : Bool) :
    List (List Pattern × List Expr) → Option Bool
  | [] => some behind
  | (_, body) :: handlers => do
      let first ← tempSeq scope (entry && behind) body
      tempHandlers (frameSeq ctx scope body).scope entry first handlers
end

variable {ctx returns}

/-- Behind a statement that ends the body nothing is read any more. -/
theorem tempSeq_cons {scope : Scope} {known behind : Bool} {stmt : Expr} {body : List Expr}
    (temp : tempSeq ctx returns scope known (stmt :: body) = some behind) :
    ∃ atFirst, tempExpr ctx returns scope known stmt = some atFirst ∧
      ((frameExpr ctx scope stmt).ends = true → atFirst = behind) ∧
      ((frameExpr ctx scope stmt).ends = false →
        tempSeq ctx returns (frameExpr ctx scope stmt).scope atFirst body = some behind) := by
  rw [tempSeq] at temp
  rcases bind_some temp with ⟨atFirst, isTemp, result⟩
  dsimp only at result
  refine ⟨atFirst, isTemp, fun ends => ?_, fun goesOn => ?_⟩
  · rw [ends, if_pos rfl] at result
    exact Option.some.inj result
  · rwa [goesOn, if_neg Bool.false_ne_true] at result

end TempValue

end LakeNative.Compiler

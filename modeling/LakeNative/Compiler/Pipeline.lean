import LakeNative.Compiler.ArgSlots
import LakeNative.Compiler.Blocks
import LakeNative.Compiler.WaitExpr
import LakeNative.Compiler.WhenExpr

/-! # Compiling statements

`compile_expr` and what it calls: every statement takes the block numbers from the one
it is given and says with which number the next statement goes on.
-/

namespace LakeNative.Compiler

open LakeNative.Runtime

/-! ## What the compiler keeps -/

structure CompilerCtx extends Literals where
  switch : Switch
  machines : String → Option Machine
  isRetMachine : String → Bool
  declaredRt : String → Bool
  currentMachine : String
  currentBranch : Nat

/-- A program that calls no machines and no runtime functions. -/
def CompilerCtx.bare : CompilerCtx where
  parseInt _ := none
  hasher _ := 0
  switch := .linear
  machines _ := none
  isRetMachine _ := false
  declaredRt _ := false
  currentMachine := "main"
  currentBranch := 0

def CompilerCtx.branchesForHash (ctx : CompilerCtx) (machine : String) (hash : UInt64) :
    List BranchInfo :=
  match ctx.machines machine with
  | some source => (indexMachine ctx.hasher source).branchesForHash hash
  | none => []

/-- A `BranchState` with the types of its variables and the first slot of `JUMP_ARGS`
that no call around has staged to. -/
structure Scope extends BranchState where
  lakeTypes : List (String × String)
  jumpArgsBase : Nat

namespace Scope

def lakeTypeOf (scope : Scope) (name : String) : Option String := scope.lakeTypes.lookup name

def insertWithLakeType (scope : Scope) (name : String) (ty : Ty) : Scope :=
  { scope with
    toBranchState := scope.insert name
    lakeTypes := (name, ty.toString) :: scope.lakeTypes }

end Scope

inductive StmtOutcome where
  | continued (id : Nat)
  | stateChange (nextAvailable : Nat)
  | wait (nextAvailable : Nat)

namespace StmtOutcome

def isTerminal : StmtOutcome → Bool
  | continued _ => false
  | _ => true

def nextAvailable : StmtOutcome → Nat
  | continued id | stateChange id | wait id => id

end StmtOutcome

/-- What statements are compiled to. The arms or handlers of a choice have the numbers
where their bodies start and, if they are arms, those that are to lead behind the choice. -/
structure Emitted (W : Type) where
  outcome : StmtOutcome
  code : Code W
  scope : Scope
  starts : List Nat := []
  redirects : List Nat := []

/-- The first number that is left for what follows. -/
def Emitted.nextId {W : Type} (emitted : Emitted W) : Nat := emitted.outcome.nextAvailable

section Pipeline

variable {W : Type} (rt : RtFuncs W) (ctx : CompilerCtx)

/-! ## Statements that are one block -/

/-- What a statement does that shares its block with its neighbours. -/
abbrev FastOp (W : Type) := ExecCtx W → Option (ExecCtx W)

/-- A pure expression, or a `let` of one. -/
def acceptsEntry : Expr → Bool
  | .letVar _ _ (some default) => isPure default
  | expr => isPure expr

def compileFast (scope : Scope) : Expr → Option (FastOp W × Scope)
  | .letVar ident ty (some default) => do
      let value ← foldWithSelf ctx.toLiterals true scope.toBranchState default
      some (fun exec => (value (exec.view rt)).map fun value => exec.setVar scope.len value,
        scope.insertWithLakeType ident ty)
  | expr => do
      let value ← foldWithSelf ctx.toLiterals true scope.toBranchState expr
      some (fun exec => (value (exec.view rt)).map fun value => exec.setTemp value, scope)

/-- The block of a run of such statements. Each of their numbers leads to its start. -/
def fastCode (op : FastOp W) (ids : List Nat) (next : Nat) : Code W :=
  ids.map fun id => (id, fun exec => orTrap exec ((op exec).map fun exec => (exec, .goto next)))

/-- Such a statement in a block of its own. -/
def compilePure (id : Nat) (scope : Scope) (expr : Expr) : Option (Emitted W) := do
  let (op, scope) ← compileFast rt ctx scope expr
  some ⟨.continued (id + 1), fastCode op [id] (id + 1), scope, [], []⟩

/-- Bind a variable to what is in `TEMP_VAL`. -/
def saveBlock (id slot : Nat) : Block W := fun exec =>
  (exec.setVar slot exec.actor.tempVal, .goto (id + 1))

def compileString (id : Nat) (scope : Scope) (text : String) : Emitted W where
  outcome := .continued (id + 1)
  code := [(id, fun exec =>
    let (fatPtr, world) := rt.string text exec.world
    ({ exec with world := world }.setTemp fatPtr, .goto (id + 1)))]
  scope := scope

/-- Store the elements of a tuple one behind the other. A string literal is an element as
well. -/
def storeElems (payload : Word) (elems : List (Folded ⊕ String)) (exec : ExecCtx W) :
    Option (ExecCtx W) :=
  match elems with
  | [] => some exec
  | .inl value :: elems => do
      let value ← value (exec.view rt)
      storeElems (payload + 8) elems { exec with world := rt.store payload value exec.world }
  | .inr text :: elems =>
      let (fatPtr, world) := rt.string text exec.world
      storeElems (payload + 8) elems { exec with world := rt.store payload fatPtr world }

def tupleElem (scope : Scope) : Expr → Option (Folded ⊕ String)
  | .string text _ => some (.inr text)
  | elem =>
      if isPure elem then
        (foldWithSelf ctx.toLiterals true scope.toBranchState elem).map .inl
      else
        none

def compileTuple (id : Nat) (scope : Scope) (elems : List Expr) : Option (Emitted W) := do
  let folded ← elems.mapM (tupleElem ctx scope)
  some {
    outcome := .continued (id + 1)
    code := [(id, fun exec => orTrap exec (do
      let (fatPtr, world) := rt.arenaAlloc (8 * BitVec.ofNat 64 elems.length) exec.world
      let filled ← storeElems rt (rt.load world 64 fatPtr) folded { exec with world := world }
      some (filled.setTemp fatPtr, .goto (id + 1))))]
    scope := scope }

/-! ## Calls -/

/-- The calls that park the actor. -/
def isParkAware (name : String) : Bool :=
  name ∈ ["rt_io_park_current", "rt_accept_async", "rt_send_async", "rt_recv_async",
    "rt_pidfd_poll_async"]

/-- Store what a runtime function returned, if it returns anything. -/
def withResult (exec : ExecCtx W) (result : Option Word × W) : ExecCtx W :=
  match result with
  | (some value, world) => { exec with world := world }.setTemp value
  | (none, world) => { exec with world := world }

def compileFusedRtCall (id : Nat) (scope : Scope) (callee : String) (args : List Expr) :
    Option (Emitted W) := do
  let folded ← args.mapM (fold ctx.toLiterals scope.toBranchState)
  some {
    outcome := .continued (id + 1)
    code := [(id, fun exec => orTrap exec (do
      let values ← evalAll folded (exec.view rt)
      some (withResult exec (rt.call callee values exec.world), .goto (id + 1))))]
    scope := scope }

/-- The call of a runtime function whose arguments are staged. -/
def rtCallBlock (id : Nat) (callee : String) (base count : Nat) : Block W := fun exec =>
  (withResult exec (rt.call callee (exec.staged base count) exec.world),
    if isParkAware callee then .park (id + 1) else .goto (id + 1))

def sendBlock (id slot base count : Nat) : Block W := fun exec =>
  let pid := exec.actor.vars slot
  let args := exec.staged base count
  ({ exec with
      actor := if rt.isOwn pid exec.world then exec.actor.enqueue args else exec.actor
      world := rt.send pid args exec.world },
    .goto (id + 1))

def spawnBlock (id : Nat) (machine : String) (candidates : List BranchInfo)
    (select : Memory → (Nat → Word) → Nat) (argTypes : List String) (base : Nat) : Block W :=
  fun exec =>
    let args := (exec.staged base (argCount candidates)).zipIdx.map fun arg =>
      (arg.1, !ctx.isRetMachine machine && isPointerLikeType (argTypes[arg.2]?.getD ""))
    let branchId := select (rt.bytes exec.world) fun pos => exec.jumpArgs (base + pos)
    let (pid, world) := rt.spawn ⟨machine, branchId, args⟩ exec.world
    ({ exec with world := world }.setTemp pid, .goto (id + 1))

/-- What a `self(...)` does with its argument words: those that point into the arena are
saved over its reset, if the machine's actors own their arena. -/
def passSelf (machine : String) (argTypes : List String) (values : List Word) (world : W) :
    List Word × W :=
  let pointers := values.zipIdx.filter fun value =>
    !ctx.isRetMachine machine && isPointerLikeType (argTypes[value.2]?.getD "")
  if pointers.isEmpty then
    (values, rt.resetArena world)
  else
    let (copies, world) := rt.recopy (pointers.map Prod.fst) world
    (values.zipIdx.map fun value =>
      (((pointers.map Prod.snd).zip copies).lookup value.2).getD value.1, world)

/-- `self(...)` whose arguments are staged. -/
def changeStateBlock (candidates : List BranchInfo) (select : Memory → (Nat → Word) → Nat)
    (argTypes : List String) (base : Nat) : Block W := fun exec =>
  let (values, world) := passSelf rt ctx ctx.currentMachine argTypes
    (exec.staged base (argCount candidates)) exec.world
  ({ exec.setVars values with
      world := world
      branchId := select (rt.bytes world) fun pos => exec.jumpArgs (base + pos) },
    .enter)

/-- `self(...)` of pure arguments. The branch is not stored where it stays the same. -/
def fusedSelfBlock (candidates : List BranchInfo) (select : Memory → (Nat → Word) → Nat)
    (argTypes : List String) (folded : List Folded) : Block W := fun exec =>
  orTrap exec (do
    let values ← evalAll folded (exec.view rt)
    let (values, world) := passSelf rt ctx ctx.currentMachine argTypes values exec.world
    let written := { exec.setVars values with world := world }
    let sameBranch := candidates.length = 1 ∧
      candidates.head?.map BranchInfo.branchId = some ctx.currentBranch
    some ({ written with
        branchId :=
          if sameBranch then exec.branchId else select (rt.bytes world) written.actor.vars },
      .enter))

def compileFusedSelfCall (id : Nat) (scope : Scope) (args : List Expr) :
    Option (Emitted W) := do
  let candidates := ctx.branchesForHash ctx.currentMachine
    (hashCallArgs ctx.hasher args scope.lakeTypeOf)
  let folded ← args.mapM (fold ctx.toLiterals scope.toBranchState)
  let select ← selectBranch ctx.switch candidates
  some {
    outcome := .stateChange (id + 1)
    code := [(id, fusedSelfBlock rt ctx candidates select
      (exprTypeStrs args scope.lakeTypeOf) folded)]
    scope := scope }

/-- The call's own block, behind the staging of its arguments: a runtime function, a send
to the pid in a variable, `self` or a machine. -/
def compileCall (id : Nat) (scope : Scope) (callee : String) (ty : Ty) (args : List Expr) :
    Option (Emitted W) := do
  let base := scope.jumpArgsBase
  if ctx.declaredRt callee then
    some ⟨.continued (id + 1), [(id, rtCallBlock rt id callee base args.length)], scope, [], []⟩
  else
    let calleeType := if ty.toString = "?" then (scope.lakeTypeOf callee).getD "?" else ty.toString
    match if calleeType = "pid" then scope.get callee else none with
    | some slot =>
        some ⟨.continued (id + 1), [(id, sendBlock rt id slot base args.length)], scope, [], []⟩
    | none =>
        let hash := hashCallArgs ctx.hasher args scope.lakeTypeOf
        let argTypes := exprTypeStrs args scope.lakeTypeOf
        let machine := if callee = "self" then ctx.currentMachine else callee
        let candidates := ctx.branchesForHash machine hash
        let select ← selectBranch ctx.switch candidates
        if callee = "self" then
          some ⟨.stateChange (id + 1),
            [(id, changeStateBlock rt ctx candidates select argTypes base)], scope, [], []⟩
        else
          some ⟨.continued (id + 1),
            [(id, spawnBlock rt ctx id machine candidates select argTypes base)], scope, [], []⟩

/-- Move the value of an argument from `TEMP_VAL` to its place. -/
def stageBlock (id slot : Nat) : Block W := fun exec =>
  (exec.setJumpArg slot exec.actor.tempVal, .goto (id + 1))

/-! ## Choices -/

/-- The table of a `when` whose arms are all constants; other values change nothing. -/
def kTableBlock (values : List Word) (next : Nat) : Block W := fun exec =>
  (exec.setTemp (values[exec.actor.tempVal.toNat]?.getD exec.actor.tempVal), .goto next)

def whenBlock (select : Memory → Word → Option Nat) (starts : List Nat) (afterWhen : Nat) :
    Block W := fun exec =>
  (exec, .goto (((select (rt.bytes exec.world) exec.actor.tempVal).bind fun arm =>
    starts[arm]?).getD afterWhen))

def redirectBlock (afterWhen : Nat) : Block W := fun exec => (exec, .goto afterWhen)

/-- The handlers' names and types are in scope in all their bodies, those of the first
handler without a guard. -/
def registerHandlers (scope : Scope) (handlers : List Handler) : Scope :=
  let registered := (handlers.find? fun handler => handler.guard.isNone).elim [] fun handler =>
    (handler.patterns.filter fun pattern =>
      !pattern.isWildcard && !pattern.isLiteralGuard).map fun pattern =>
        (pattern.ident, pattern.ty.toString)
  { scope with
    toBranchState := (collectMeta scope.len [] scope.toBranchState handlers).2
    lakeTypes := registered.reverse ++ scope.lakeTypes }

/-- `dispatch_block`: the handler of a first word, if the compiler accepts the guards. -/
def emitDispatch (switch : Switch) (wait : WaitExpr) : Option (Word → Option Nat) :=
  if wait.hasGuards then
    let entries := wait.handlers.zipIdx.filterMap fun entry =>
      entry.1.guardI64.map fun guard => (asU128 guard, entry.2)
    (switch.emit entries).map fun table disc => (table disc).or wait.wildcard
  else
    some fun _ => some 0

/-- The first word is one of the pids of the filter. -/
def filterHits (view : View) (disc : Word) : List Folded → Option Bool
  | [] => some false
  | pid :: filter => do
      let value ← pid view
      if value = disc then some true else filterHits view disc filter

/-- Without a filter every message is accepted. -/
def filterAccepts (view : View) (disc : Word) (filter : List Folded) : Option Bool :=
  if filter.isEmpty then some true else filterHits view disc filter

/-- The handler that a message goes to, if the filter accepts it and a handler takes it. -/
def chosenHandler (wait : WaitExpr) (dispatch : Word → Option Nat) (filter : List Folded)
    (exec : ExecCtx W) : Option (Option Nat) :=
  let disc :=
    if (wait.hasGuards || !filter.isEmpty) && wait.dequeueArgCount ≠ 0 then
      exec.actor.messageWord 0
    else
      0
  let dequeued := { exec with
    actor := exec.actor.dequeue wait.dequeueVarBase wait.dequeueArgCount }
  (filterAccepts (dequeued.view rt) disc filter).map fun accepted =>
    if accepted then dispatch disc else none

/-- `wait_check_block` and the blocks behind it, entered through one number. -/
def waitBlock (wait : WaitExpr) (dispatch : Word → Option Nat) (filter : List Folded)
    (starts : List Nat) (id : Nat) : Block W := fun exec =>
  if exec.actor.mailboxHead = exec.actor.mailboxTail then
    (exec, .wait id)
  else
    let dequeued := { exec with
      actor := exec.actor.dequeue wait.dequeueVarBase wait.dequeueArgCount }
    orTrap dequeued ((chosenHandler rt wait dispatch filter exec).map fun handler =>
      (dequeued, .goto ((handler.bind fun handler => starts[handler]?).getD id)))

/-! ## The pipeline -/

mutual
def compileExpr (id : Nat) (scope : Scope) : Expr → Option (Emitted W)
  | .letVar ident ty (some default) =>
      if isPure default then
        compilePure rt ctx id scope (.letVar ident ty (some default))
      else do
        let value ← compileExpr id scope default
        match value.outcome with
        | .continued next => some {
            outcome := .continued (next + 1)
            code := value.code ++ [(next, saveBlock next value.scope.len)]
            scope := value.scope.insertWithLakeType ident ty }
        | _ => some value
  | .letVar ident ty none => some {
      outcome := .continued (id + 1)
      code := [(id, saveBlock id scope.len)]
      scope := scope.insertWithLakeType ident ty }
  | .string text _ => some (compileString rt id scope text)
  | .jump ident args =>
      if isPure (.jump ident args) then
        compilePure rt ctx id scope (.jump ident args)
      else
        match ident with
        | .var callee ty =>
            if callee = "self" ∧ allPure args then
              compileFusedSelfCall rt ctx id scope args
            else if !isParkAware callee ∧ ctx.declaredRt callee ∧ allPure args then
              compileFusedRtCall rt ctx id scope callee args
            else do
              let staged ← compileArgs scope.jumpArgsBase args.length 0 id scope args
              let call ← compileCall rt ctx staged.nextId staged.scope callee ty args
              some { call with code := staged.code ++ call.code }
        | _ => none
  | .when cond branches =>
      let keys := branches.map Prod.fst
      if 1 < (wildcardArms keys).length then
        none
      else do
        let disc ← compileExpr id scope cond
        match disc.outcome with
        | .continued done =>
            match tryBuildKTable ctx.toLiterals branches with
            | some values => some {
                outcome := .continued (done + 1)
                code := disc.code ++ [(done, kTableBlock values (done + 1))]
                scope := disc.scope }
            | none => do
                let arms ← compileArms (done + 1) disc.scope branches
                let select ← selectArm ctx.toLiterals ctx.switch keys
                some {
                  outcome := .continued arms.nextId
                  code := disc.code ++ [(done, whenBlock rt select arms.starts arms.nextId)] ++
                    arms.code ++ arms.redirects.map fun exit => (exit, redirectBlock arms.nextId)
                  scope := arms.scope }
        | _ => none
  | .wait handlers filter =>
      if handlers.isEmpty then
        none
      else do
        let collect := handlers.map fun handler => (⟨handler.1, []⟩ : Handler)
        let wait : WaitExpr := ⟨scope.toBranchState, collect, []⟩
        let bodies ← compileHandlers (id + 1) (registerHandlers scope collect) handlers
        let folded ← filter.mapM (fold ctx.toLiterals bodies.scope.toBranchState)
        let dispatch ← emitDispatch ctx.switch wait
        if !filter.isEmpty ∧ wait.dequeueArgCount = 0 then
          none
        else
          some {
            outcome := .wait bodies.nextId
            code := [(id, waitBlock rt wait dispatch folded bodies.starts id)] ++ bodies.code
            scope := bodies.scope }
  | .tuple elems => compileTuple rt ctx id scope elems
  | .index receiver index =>
      if isPure (.index receiver index) then
        compilePure rt ctx id scope (.index receiver index)
      else do
        -- The call `rt_load_u8(receiver index)`.
        let base := scope.jumpArgsBase
        let buf ← compileExpr id { scope with jumpArgsBase := base + 2 } receiver
        match buf.outcome with
        | .continued atBuf => do
            let offset ← compileExpr (atBuf + 1) { buf.scope with jumpArgsBase := base + 2 } index
            match offset.outcome with
            | .continued atOffset => some {
                outcome := .continued (atOffset + 2)
                code := buf.code ++ [(atBuf, stageBlock atBuf base)] ++ offset.code ++
                  [(atOffset, stageBlock atOffset (base + 1))] ++
                  [(atOffset + 1, rtCallBlock rt (atOffset + 1) "rt_load_u8" base 2)]
                scope := { offset.scope with jumpArgsBase := base } }
            | _ => none
        | _ => none
  | expr => if isPure expr then compilePure rt ctx id scope expr else none

/-- Evaluate and stage the arguments from the given index on; an argument's own calls
stage behind the whole range. -/
def compileArgs (base count index id : Nat) (scope : Scope) : List Expr → Option (Emitted W)
  | [] => some { outcome := .continued id, code := [], scope := scope }
  | arg :: args => do
      let value ← compileExpr id { scope with jumpArgsBase := base + count } arg
      match value.outcome with
      | .continued next => do
          let rest ← compileArgs base count (index + 1) (next + 1)
            { value.scope with jumpArgsBase := base } args
          some { rest with
            code := value.code ++ [(next, stageBlock next (base + index))] ++ rest.code }
      | _ => none

/-- The body of an arm. Nothing behind a terminal statement is compiled. -/
def compileSeq (id : Nat) (scope : Scope) : List Expr → Option (Emitted W)
  | [] => some { outcome := .continued id, code := [], scope := scope }
  | expr :: rest => do
      let first ← compileExpr id scope expr
      match first.outcome with
      | .continued next => do
          let rest ← compileSeq next first.scope rest
          some { rest with code := first.code ++ rest.code }
      | _ => some first

/-- The arms of a `when`. A body that does not end in `self(...)` has one more number,
which leads behind the `when`. -/
def compileArms (id : Nat) (scope : Scope) : List (Expr × List Expr) → Option (Emitted W)
  | [] => some { outcome := .continued id, code := [], scope := scope }
  | (_, body) :: branches => do
      let arm ← compileSeq id scope body
      match arm.outcome with
      | .stateChange next => do
          let rest ← compileArms (if branches.isEmpty then next else next + 1) arm.scope branches
          some { rest with code := arm.code ++ rest.code, starts := id :: rest.starts }
      | .continued next | .wait next => do
          let rest ← compileArms (next + 1) arm.scope branches
          some { rest with
            code := arm.code ++ rest.code
            starts := id :: rest.starts
            redirects := next :: rest.redirects }

/-- The bodies of handlers, one behind the other. -/
def compileHandlers (id : Nat) (scope : Scope) :
    List (List Pattern × List Expr) → Option (Emitted W)
  | [] => some { outcome := .continued id, code := [], scope := scope }
  | (_, body) :: handlers => do
      let first ← compileBody [] some id scope body
      let rest ← compileHandlers first.nextId first.scope handlers
      some { rest with code := first.code ++ rest.code, starts := id :: rest.starts }

/-- The body of a branch or handler. Statements in a row that may share a block do, from
the first of `run` on, whose joint effect is `op`. -/
def compileBody (run : List Nat) (op : FastOp W) (id : Nat) (scope : Scope) :
    List Expr → Option (Emitted W)
  | [] => some { outcome := .continued id, code := [], scope := scope }
  | expr :: rest =>
      if acceptsEntry expr then do
        let (step, scope) ← compileFast rt ctx scope expr
        let joined : FastOp W := fun exec => (op exec).bind step
        if rest.head?.elim false acceptsEntry then
          compileBody (run ++ [id]) joined (id + 1) scope rest
        else do
          let rest ← compileBody [] some (id + 1) scope rest
          some { rest with code := fastCode joined (run ++ [id]) (id + 1) ++ rest.code }
      else do
        let first ← compileExpr id scope expr
        match first.outcome with
        | .continued next => do
            let rest ← compileBody [] some next first.scope rest
            some { rest with code := first.code ++ rest.code }
        | .stateChange next | .wait next => some { first with outcome := .continued next }
end

end Pipeline

end LakeNative.Compiler

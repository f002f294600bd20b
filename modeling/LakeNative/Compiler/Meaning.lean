import LakeNative.Compiler.Scoping

/-! # The meaning of statements

What a body does, by the structure of its statements: without numbers, staged words and resumed
blocks. Between any two pieces of work the scheduler may let other actors run. The compiled code is
compared with this meaning.

Where the compiler misses the language, the meaning follows the compiler: the body of a handler
goes on with that of the next one, nothing behind a `wait` is part of a body, and a `let` of a pure
expression leaves `TEMP_VAL` alone.
-/

namespace LakeNative.Compiler

open LakeNative.Runtime

/-- What statements work on: an actor without its `BLOCK_ID` and the words that calls stage. -/
structure Proc (W : Type) where
  actor : Actor
  branchId : Nat
  world : W

variable {W : Type}

def ExecCtx.proc (exec : ExecCtx W) : Proc W := ⟨exec.actor, exec.branchId, exec.world⟩

namespace Proc

/-- The actor with nothing staged. -/
def unstaged (proc : Proc W) : ExecCtx W := ⟨proc.actor, fun _ => 0, proc.branchId, proc.world⟩

def view (rt : RtFuncs W) (proc : Proc W) : View := proc.unstaged.view rt

def setTemp (proc : Proc W) (value : Word) : Proc W :=
  { proc with actor := { proc.actor with tempVal := value } }

def setVar (proc : Proc W) (slot : Nat) (value : Word) : Proc W :=
  { proc with actor := { proc.actor with vars := Function.update proc.actor.vars slot value } }

/-- A runtime function has returned. -/
def returned (proc : Proc W) (result : Option Word × W) : Proc W := (withResult proc.unstaged result).proc

/-- A message is sent, maybe to the actor itself. -/
def send (rt : RtFuncs W) (proc : Proc W) (pid : Word) (args : List Word) : Proc W :=
  { proc with
    actor := if rt.isOwn pid proc.world then proc.actor.enqueue args else proc.actor
    world := rt.send pid args proc.world }

/-- The first words of the next message become variables. -/
def dequeued (proc : Proc W) (wait : WaitExpr) : Proc W :=
  { proc with actor := proc.actor.dequeue wait.dequeueVarBase wait.dequeueArgCount }

end Proc

/-- Other actors may have run while this one did not. `TEMP_VAL` is changed of a parked actor
only. -/
structure Resumes (parks : Bool) (before after : Proc W) : Prop where
  vars : after.actor.vars = before.actor.vars
  ownPid : after.actor.ownPid = before.actor.ownPid
  mailboxHead : after.actor.mailboxHead = before.actor.mailboxHead
  tempVal : parks = false → after.actor.tempVal = before.actor.tempVal
  branchId : after.branchId = before.branchId

/-- A piece of work is done, and the actor is not dying. -/
structure Yields (rt : RtFuncs W) (parks : Bool) (before after : Proc W) : Prop
    extends Resumes parks before after where
  alive : rt.isDying before.world = false

/-- What becomes of a statement: control is behind it, the actor is to enter a branch, or the
processor traps. -/
inductive Result (W : Type) where
  | on (proc : Proc W)
  | enters (proc : Proc W)
  | traps

def Result.leaves : Result W → Bool
  | on _ => false
  | _ => true

section Meaning

variable (rt : RtFuncs W) (ctx : CompilerCtx)

/-! ## Calls -/

def callCandidates (scope : Scope) (args : List Expr) (machine : String) : List BranchInfo :=
  ctx.branchesForHash machine (hashCallArgs ctx.hasher args scope.lakeTypeOf)

/-- `self(...)` with these argument words. -/
def Proc.change (scope : Scope) (args : List Expr) (select : Memory → (Nat → Word) → Nat)
    (words : Nat → Word) (proc : Proc W) : Proc W :=
  (changeStateBlock rt ctx (callCandidates ctx scope args ctx.currentMachine) select
    (exprTypeStrs args scope.lakeTypeOf) 0 { proc.unstaged with jumpArgs := words }).1.proc

/-- A machine is spawned with these argument words. -/
def Proc.spawn (scope : Scope) (args : List Expr) (machine : String)
    (select : Memory → (Nat → Word) → Nat) (words : Nat → Word) (proc : Proc W) : Proc W :=
  (spawnBlock rt ctx 0 machine (callCandidates ctx scope args machine) select
    (exprTypeStrs args scope.lakeTypeOf) 0 { proc.unstaged with jumpArgs := words }).1.proc

/-- A call whose arguments have these words: a runtime function, a send, `self` or a spawn. -/
inductive Called (scope : Scope) (callee : String) (ty : Ty) (args : List Expr)
    (words : Nat → Word) (before : Proc W) : Result W → Prop where
  | function {after} (declared : ctx.declaredRt callee = true)
      (yields : Yields rt (isParkAware callee) (before.returned
        (rt.call callee ((List.range args.length).map words) before.world)) after) :
      Called scope callee ty args words before (.on after)
  | send {slot after} (sends : isSendTo ctx scope callee ty = true)
      (isSlot : scope.get callee = some slot)
      (yields : Yields rt false (before.send rt (before.actor.vars slot)
        ((List.range args.length).map words)) after) :
      Called scope callee ty args words before (.on after)
  | self {select} (isSelf : isSelfCall ctx scope callee ty = true)
      (selects : selectBranch ctx.switch (callCandidates ctx scope args ctx.currentMachine) =
        some select) :
      Called scope callee ty args words before (.enters (before.change rt ctx scope args select words))
  | spawn {select after} (notFunction : ctx.declaredRt callee = false)
      (notSend : isSendTo ctx scope callee ty = false)
      (notSelf : isSelfCall ctx scope callee ty = false)
      (selects : selectBranch ctx.switch (callCandidates ctx scope args callee) = some select)
      (yields : Yields rt false (before.spawn rt ctx scope args callee select words) after) :
      Called scope callee ty args words before (.on after)

/-! ## Statements -/

/-- The handlers' names and types are in scope in their bodies. -/
def handlerScope (scope : Scope) (handlers : List (List Pattern × List Expr)) : Scope :=
  registerHandlers scope (collected handlers)

/-- What a `wait` takes the next message to be: for one of the handlers, or for none. -/
def chosenBy (scope : Scope) (handlers : List (List Pattern × List Expr)) (filter : List Expr)
    (proc : Proc W) : Option (Option Nat) := do
  let folded ← filter.mapM (fold ctx.toLiterals
    (frameHandlers ctx (handlerScope scope handlers) handlers).scope.toBranchState)
  let dispatch ← emitDispatch ctx.switch (waitAt scope handlers)
  chosenHandler rt (waitAt scope handlers) dispatch folded proc.unstaged

/-- The arm of a `when` that a value chooses. -/
def armOf (branches : List (Expr × List Expr)) (proc : Proc W) : Option Nat :=
  (selectArm ctx.toLiterals ctx.switch (branches.map Prod.fst)).bind fun select =>
    select (rt.bytes proc.world) proc.actor.tempVal

/-- The value of a pure expression, which may trap. -/
def valueOf (scope : Scope) (stmt : Expr) (proc : Proc W) : Option (Option Word) :=
  (foldWithSelf ctx.toLiterals true scope.toBranchState stmt).map fun value => value (proc.view rt)

/-- The values of pure arguments. -/
def valuesOf (scope : Scope) (args : List Expr) (proc : Proc W) : Option (Option (List Word)) :=
  (args.mapM (fold ctx.toLiterals scope.toBranchState)).map fun folded => evalAll folded (proc.view rt)

/-- A tuple is allocated and filled. -/
def tupleOf (scope : Scope) (elems : List Expr) (proc : Proc W) : Option (Option (Proc W)) :=
  (elems.mapM (tupleElem ctx scope)).map fun folded =>
    let (fatPtr, world) := rt.arenaAlloc (8 * BitVec.ofNat 64 elems.length) proc.world
    (storeElems rt (rt.load world 64 fatPtr) folded { proc.unstaged with world := world }).map
      fun filled => filled.proc.setTemp fatPtr

/-- `self(...)` with values evaluated at once. -/
def Proc.enter (scope : Scope) (args : List Expr) (folded : List Folded)
    (select : Memory → (Nat → Word) → Nat) (proc : Proc W) : ExecCtx W × Exit :=
  fusedSelfBlock rt ctx (callCandidates ctx scope args ctx.currentMachine) select
    (exprTypeStrs args scope.lakeTypeOf) folded proc.unstaged

mutual
/-- What a statement means in a scope. The value of an expression is in `TEMP_VAL` behind it. -/
inductive Means : Scope → Expr → Proc W → Result W → Prop where
  | value {scope stmt before word} (isValue : isPure stmt = true)
      (evaluates : valueOf rt ctx scope stmt before = some (some word)) :
      Means scope stmt before (.on (before.setTemp word))
  | valueTraps {scope stmt before} (isValue : isPure stmt = true)
      (traps : valueOf rt ctx scope stmt before = some none) : Means scope stmt before .traps
  | letValue {scope ident ty default before word} (isValue : isPure default = true)
      (evaluates : valueOf rt ctx scope default before = some (some word)) :
      Means scope (.letVar ident ty (some default)) before (.on (before.setVar scope.len word))
  | letTraps {scope ident ty default before} (isValue : isPure default = true)
      (traps : valueOf rt ctx scope default before = some none) :
      Means scope (.letVar ident ty (some default)) before .traps
  /-- Neighbours of such statements run with them, or the actor is interrupted in between. -/
  | pauses {scope stmt before middle after} (isFast : acceptsEntry stmt = true)
      (evaluates : Means scope stmt before (.on middle)) (yields : Yields rt false middle after) :
      Means scope stmt before (.on after)
  | letOpen {scope ident ty before after}
      (yields : Yields rt false (before.setVar scope.len before.actor.tempVal) after) :
      Means scope (.letVar ident ty none) before (.on after)
  | letBinds {scope ident ty default before middle after} (notValue : isPure default = false)
      (evaluates : Means scope default before (.on middle))
      (goesOn : (frameExpr ctx scope default).ends = false)
      (yields : Yields rt false
        (middle.setVar (frameExpr ctx scope default).scope.len middle.actor.tempVal) after) :
      Means scope (.letVar ident ty (some default)) before (.on after)
  | letEnds {scope ident ty default before result} (notValue : isPure default = false)
      (evaluates : Means scope default before result)
      (ends : result.leaves = true ∨ (frameExpr ctx scope default).ends = true) :
      Means scope (.letVar ident ty (some default)) before result
  | string {scope text ty before after}
      (yields : Yields rt false ({ before with world := (rt.string text before.world).2 }.setTemp
        (rt.string text before.world).1) after) :
      Means scope (.string text ty) before (.on after)
  | tuple {scope elems before filled after}
      (fills : tupleOf rt ctx scope elems before = some (some filled))
      (yields : Yields rt false filled after) : Means scope (.tuple elems) before (.on after)
  | tupleTraps {scope elems before} (traps : tupleOf rt ctx scope elems before = some none) :
      Means scope (.tuple elems) before .traps
  /-- All arguments of `self` are pure, and are evaluated at once. -/
  | enter {scope ty args folded select before after} (arePure : allPure args = true)
      (folds : args.mapM (fold ctx.toLiterals scope.toBranchState) = some folded)
      (selects : selectBranch ctx.switch (callCandidates ctx scope args ctx.currentMachine) =
        some select)
      (enters : before.enter rt ctx scope args folded select = (after, .enter)) :
      Means scope (.jump (.var "self" ty) args) before (.enters after.proc)
  | enterTraps {scope ty args before} (arePure : allPure args = true)
      (traps : valuesOf rt ctx scope args before = some none) :
      Means scope (.jump (.var "self" ty) args) before .traps
  /-- So are those of a runtime function that does not park the actor. -/
  | apply {scope callee ty args values before after} (fused : isFused ctx callee args = true)
      (notSelf : callee ≠ "self")
      (evaluates : valuesOf rt ctx scope args before = some (some values))
      (yields : Yields rt false (before.returned (rt.call callee values before.world)) after) :
      Means scope (.jump (.var callee ty) args) before (.on after)
  | applyTraps {scope callee ty args before} (fused : isFused ctx callee args = true)
      (notSelf : callee ≠ "self")
      (traps : valuesOf rt ctx scope args before = some none) :
      Means scope (.jump (.var callee ty) args) before .traps
  | call {scope callee ty args before middle values words result}
      (notValue : isPure (.jump (.var callee ty) args) = false)
      (notFused : isFused ctx callee args = false)
      (evaluates : MeansArgs scope args before values (.on middle))
      (areWords : ∀ index value, values[index]? = some value → words index = value)
      (called : Called rt ctx (frameArgs ctx scope.jumpArgsBase args.length scope args).scope callee
        ty args words middle result) :
      Means scope (.jump (.var callee ty) args) before result
  | callLeaves {scope callee ty args before values result}
      (notValue : isPure (.jump (.var callee ty) args) = false)
      (notFused : isFused ctx callee args = false)
      (evaluates : MeansArgs scope args before values result) (leaves : result.leaves = true) :
      Means scope (.jump (.var callee ty) args) before result
  | index {scope receiver index before buf offset middle after}
      (notValue : isPure (.index receiver index) = false)
      (evaluates : MeansArgs scope [receiver, index] before [buf, offset] (.on middle))
      (yields : Yields rt false
        (middle.returned (rt.call "rt_load_u8" [buf, offset] middle.world)) after) :
      Means scope (.index receiver index) before (.on after)
  | indexLeaves {scope receiver index before values result}
      (notValue : isPure (.index receiver index) = false)
      (evaluates : MeansArgs scope [receiver, index] before values result)
      (leaves : result.leaves = true) : Means scope (.index receiver index) before result
  /-- A `when` whose arms are constants. -/
  | table {scope cond branches words before middle after}
      (isTable : tryBuildKTable ctx.toLiterals branches = some words)
      (evaluates : Means scope cond before (.on middle))
      (yields : Yields rt false (middle.setTemp
        (words[middle.actor.tempVal.toNat]?.getD middle.actor.tempVal)) after) :
      Means scope (.when cond branches) before (.on after)
  | whenArm {scope cond branches before middle arm started done after}
      (noTable : tryBuildKTable ctx.toLiterals branches = none)
      (evaluates : Means scope cond before (.on middle))
      (chooses : armOf rt ctx branches middle = some arm)
      (yields : Yields rt false middle started)
      (runs : MeansArm (frameExpr ctx scope cond).scope branches arm started (.on done))
      (behind : Yields rt false done after) : Means scope (.when cond branches) before (.on after)
  | whenArmLeaves {scope cond branches before middle arm started result}
      (noTable : tryBuildKTable ctx.toLiterals branches = none)
      (evaluates : Means scope cond before (.on middle))
      (chooses : armOf rt ctx branches middle = some arm)
      (yields : Yields rt false middle started)
      (runs : MeansArm (frameExpr ctx scope cond).scope branches arm started result)
      (leaves : result.leaves = true) : Means scope (.when cond branches) before result
  | whenNoArm {scope cond branches before middle after}
      (noTable : tryBuildKTable ctx.toLiterals branches = none)
      (evaluates : Means scope cond before (.on middle))
      (chooses : (armOf rt ctx branches middle).bind (branches[·]?) = none)
      (yields : Yields rt false middle after) : Means scope (.when cond branches) before (.on after)
  | whenLeaves {scope cond branches before result} (evaluates : Means scope cond before result)
      (leaves : result.leaves = true) : Means scope (.when cond branches) before result
  | sleeps {scope handlers filter before woken result}
      (isEmpty : before.actor.mailboxHead = before.actor.mailboxTail)
      (yields : Yields rt false before woken)
      (waits : Means scope (.wait handlers filter) woken result) :
      Means scope (.wait handlers filter) before result
  | skips {scope handlers filter before chosen resumed result}
      (isMessage : before.actor.mailboxHead ≠ before.actor.mailboxTail)
      (chooses : chosenBy rt ctx scope handlers filter before = some chosen)
      (isNone : chosen.bind (handlers[·]?) = none)
      (yields : Yields rt false (before.dequeued (waitAt scope handlers)) resumed)
      (waits : Means scope (.wait handlers filter) resumed result) :
      Means scope (.wait handlers filter) before result
  | takes {scope handlers filter before handler started result}
      (isMessage : before.actor.mailboxHead ≠ before.actor.mailboxTail)
      (chooses : chosenBy rt ctx scope handlers filter before = some (some handler))
      (isHandler : handler < handlers.length)
      (yields : Yields rt false (before.dequeued (waitAt scope handlers)) started)
      (runs : MeansFrom (handlerScope scope handlers) handlers handler started result) :
      Means scope (.wait handlers filter) before result
  | waitTraps {scope handlers filter before}
      (isMessage : before.actor.mailboxHead ≠ before.actor.mailboxTail)
      (traps : chosenBy rt ctx scope handlers filter before = none) :
      Means scope (.wait handlers filter) before .traps

/-- What arguments mean: their words, one after the other. -/
inductive MeansArgs : Scope → List Expr → Proc W → List Word → Result W → Prop where
  | nil {scope before} : MeansArgs scope [] before [] (.on before)
  | cons {scope arg args before middle staged values result}
      (evaluates : Means scope arg before (.on middle))
      (yields : Yields rt false middle staged)
      (rest : MeansArgs (frameExpr ctx scope arg).scope args staged values result) :
      MeansArgs scope (arg :: args) before (middle.actor.tempVal :: values) result
  | leaves {scope arg args before result} (evaluates : Means scope arg before result)
      (leaves : result.leaves = true) : MeansArgs scope (arg :: args) before [] result

/-- What a body means. Nothing behind a `wait` or a `self(...)` is part of it. -/
inductive MeansSeq : Scope → List Expr → Proc W → Result W → Prop where
  | nil {scope before} : MeansSeq scope [] before (.on before)
  | cons {scope stmt body before middle result} (evaluates : Means scope stmt before (.on middle))
      (goesOn : (frameExpr ctx scope stmt).ends = false)
      (rest : MeansSeq (frameExpr ctx scope stmt).scope body middle result) :
      MeansSeq scope (stmt :: body) before result
  | ends {scope stmt body before result} (evaluates : Means scope stmt before result)
      (ends : result.leaves = true ∨ (frameExpr ctx scope stmt).ends = true) :
      MeansSeq scope (stmt :: body) before result

/-- What an arm means, in the scope that the arms before it have left. -/
inductive MeansArm : Scope → List (Expr × List Expr) → Nat → Proc W → Result W → Prop where
  | here {scope key body branches before result} (runs : MeansSeq scope body before result) :
      MeansArm scope ((key, body) :: branches) 0 before result
  | later {scope key body branches arm before result}
      (runs : MeansArm (frameSeq ctx scope body).scope branches arm before result) :
      MeansArm scope ((key, body) :: branches) (arm + 1) before result

/-- What the handlers from one on mean: a body that comes to its end goes on with the next. -/
inductive MeansFrom : Scope → List (List Pattern × List Expr) → Nat → Proc W → Result W → Prop where
  | nil {scope before} : MeansFrom scope [] 0 before (.on before)
  | goesOn {scope patterns body handlers before middle result}
      (runs : MeansSeq scope body before (.on middle))
      (rest : MeansFrom (frameSeq ctx scope body).scope handlers 0 middle result) :
      MeansFrom scope ((patterns, body) :: handlers) 0 before result
  | leaves {scope patterns body handlers before result} (runs : MeansSeq scope body before result)
      (leaves : result.leaves = true) :
      MeansFrom scope ((patterns, body) :: handlers) 0 before result
  | later {scope patterns body handlers handler before result}
      (runs : MeansFrom (frameSeq ctx scope body).scope handlers handler before result) :
      MeansFrom scope ((patterns, body) :: handlers) (handler + 1) before result
end

end Meaning

end LakeNative.Compiler

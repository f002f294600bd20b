import LakeNative.Compiler.Pipeline

/-! # Unrolled branches

A branch that is one `when` with a `self(...)` in one of its two arms may be compiled to a
loop of its own. Several iterations run in the loop's one block, the parameters in registers
that are written back when the block ends.
-/

namespace LakeNative.Compiler

open LakeNative.Runtime

/-! ## The shape of a loop -/

inductive ArmKey where
  | bool (value : Bool)
  | wildcard
  deriving DecidableEq

/-- A statement before the `self(...)`. -/
inductive PreStmt where
  | letVar (name : String) (default : Expr)
  | sideEffect (callee : String) (args : List Expr)

structure TailLoopInfo where
  cond : Expr
  preStmts : List PreStmt
  selfArgs : List Expr
  exitBody : List Expr
  continueWhenTruthy : Bool

def isUnrollSafeSideEffect (name : String) : Bool :=
  name ∈ ["rt_store", "rt_copy_bytes", "rt_load_u8", "rt_load_u16", "rt_load_u32", "rt_load_u64"]

def classifyPreStmt : Expr → Option PreStmt
  | .letVar name _ (some default) => if isPure default then some (.letVar name default) else none
  | .jump (.var callee _) args =>
      if isUnrollSafeSideEffect callee && allPure args then some (.sideEffect callee args) else none
  | _ => none

def armKeyKind : Expr → Option ArmKey
  | .bool value => some (.bool value)
  | .var "_" _ => some .wildcard
  | _ => none

/-- The body is a `when`, or the call of `__caller` that wraps it in a machine that returns. -/
def tailWhen : Expr → Option (Expr × List (Expr × List Expr))
  | .when cond branches => some (cond, branches)
  | .jump (.var "__caller" _) args =>
      match args.getLast? with
      | some (.when cond branches) => some (cond, branches)
      | _ => none
  | _ => none

/-- What an arm does before its `self(...)`, and the arguments of that. -/
def selfArm (machineIdent : String) (expectedArgCount : Nat) (armBody : List Expr) :
    Option (List PreStmt × List Expr) :=
  match armBody.getLast? with
  | some (.jump (.var name _) args) =>
      if (name = "self" ∨ name = machineIdent) ∧ args.length = expectedArgCount ∧ allPure args then
        (armBody.dropLast.mapM classifyPreStmt).map fun pre => (pre, args)
      else
        none
  | _ => none

/-- Whether the loop goes on when its condition is not zero. -/
def continueWhenTruthy : ArmKey → ArmKey → Option Bool
  | .bool key, .bool other => if key ≠ other then some key else none
  | .bool key, .wildcard => some key
  | .wildcard, .bool other => some !other
  | .wildcard, .wildcard => none

/-- The first arm that is a `self(...)` is the loop, the other one its exit. -/
def detectTailLoop (body : List Expr) (machineIdent : String) (expectedArgCount : Nat) :
    Option TailLoopInfo :=
  match body with
  | [stmt] => do
      let (cond, branches) ← tailWhen stmt
      match branches with
      | [(firstKey, firstBody), (secondKey, secondBody)] =>
          if isPure cond then do
            let first ← armKeyKind firstKey
            let second ← armKeyKind secondKey
            match selfArm machineIdent expectedArgCount firstBody with
            | some (pre, args) =>
                (continueWhenTruthy first second).map (⟨cond, pre, args, secondBody, ·⟩)
            | none => do
                let (pre, args) ← selfArm machineIdent expectedArgCount secondBody
                (continueWhenTruthy second first).map (⟨cond, pre, args, firstBody, ·⟩)
          else
            none
      | _ => none
  | _ => none

theorem selfArm_length {machineIdent : String} {expectedArgCount : Nat} {armBody : List Expr}
    {pre : List PreStmt} {args : List Expr}
    (isArm : selfArm machineIdent expectedArgCount armBody = some (pre, args)) :
    args.length = expectedArgCount := by
  unfold selfArm at isArm
  split at isArm
  · split at isArm
    · rename_i shape
      rcases Option.map_eq_some_iff.mp isArm with ⟨stmts, -, isPair⟩
      cases isPair
      exact shape.2.1
    · cases isArm
  · cases isArm

/-- A loop is a `when` of two arms, one of them the `self(...)` and the other the exit. -/
theorem detectTailLoop_cases {body : List Expr} {machineIdent : String} {expectedArgCount : Nat}
    {info : TailLoopInfo} (detected : detectTailLoop body machineIdent expectedArgCount = some info) :
    ∃ stmt loop exit branches, body = [stmt] ∧ tailWhen stmt = some (info.cond, branches) ∧
      isPure info.cond = true ∧ (branches = [loop, exit] ∨ branches = [exit, loop]) ∧
      selfArm machineIdent expectedArgCount loop.2 = some (info.preStmts, info.selfArgs) ∧
      exit.2 = info.exitBody := by
  unfold detectTailLoop at detected
  split at detected
  · rename_i stmt
    rcases Option.bind_eq_some_iff.mp detected with ⟨⟨cond, branches⟩, isWhen, detected⟩
    dsimp only at detected
    split at detected
    · rename_i firstKey firstBody secondKey secondBody
      split at detected
      · rename_i isPureCond
        rcases Option.bind_eq_some_iff.mp detected with ⟨first, -, detected⟩
        rcases Option.bind_eq_some_iff.mp detected with ⟨second, -, detected⟩
        split at detected
        · rename_i isArm
          rcases Option.map_eq_some_iff.mp detected with ⟨truthy, -, rfl⟩
          exact ⟨stmt, _, _, _, rfl, isWhen, isPureCond, .inl rfl, isArm, rfl⟩
        · rcases Option.bind_eq_some_iff.mp detected with ⟨⟨pre, args⟩, isArm, detected⟩
          rcases Option.map_eq_some_iff.mp detected with ⟨truthy, -, rfl⟩
          exact ⟨stmt, _, _, _, rfl, isWhen, isPureCond, .inr rfl, isArm, rfl⟩
      · cases detected
    · cases detected
  · cases detected

/-! ## The loop's block -/

/-- `remove`: the name has no slot any more. -/
def BranchState.remove (state : BranchState) (name : String) : BranchState where
  vars := state.vars.filter fun entry => entry.1 ≠ name

section Unrolled

variable {W : Type} (rt : RtFuncs W) (ctx : CompilerCtx)

/-- One of the iterations in the block. The variables of its context are the registers. -/
structure Iteration (W : Type) where
  cond : Folded
  pre : List (FastOp W)
  args : List Folded

/-- A `let` has a register of its own for the rest of the iteration. -/
def compilePreStmt (state : BranchState) : PreStmt → Option (FastOp W × BranchState)
  | .letVar name default => do
      let value ← fold ctx.toLiterals state default
      some (fun exec => (value (exec.view rt)).map fun value => exec.setVar state.len value,
        state.insert name)
  | .sideEffect callee args => do
      let folded ← args.mapM (fold ctx.toLiterals state)
      some (fun exec => (evalAll folded (exec.view rt)).map fun values =>
        { exec with world := (rt.call callee values exec.world).2 }, state)

def compilePreStmts (state : BranchState) :
    List PreStmt → Option (List (FastOp W) × BranchState)
  | [] => some ([], state)
  | stmt :: stmts => do
      let (op, state) ← compilePreStmt rt ctx state stmt
      let (ops, state) ← compilePreStmts state stmts
      some (op :: ops, state)

def PreStmt.local : PreStmt → Option String
  | letVar name _ => some name
  | sideEffect _ _ => none

/-- The variables of an iteration are dropped behind it. -/
def compileIteration (info : TailLoopInfo) (state : BranchState) :
    Option (Iteration W × BranchState) := do
  let cond ← fold ctx.toLiterals state info.cond
  let (pre, inner) ← compilePreStmts rt ctx state info.preStmts
  let args ← info.selfArgs.mapM (fold ctx.toLiterals inner)
  some (⟨cond, pre, args⟩, (info.preStmts.filterMap PreStmt.local).foldl BranchState.remove inner)

def compileIterations (info : TailLoopInfo) (state : BranchState) :
    Nat → Option (List (Iteration W) × BranchState)
  | 0 => some ([], state)
  | count + 1 => do
      let (iteration, state) ← compileIteration rt ctx info state
      let (iterations, state) ← compileIterations info state count
      some (iteration :: iterations, state)

/-- The statements before the `self(...)` and then its arguments, all of them evaluated before
any is written. -/
def Iteration.run (iteration : Iteration W) (exec : ExecCtx W) : Option (ExecCtx W) := do
  let exec ← iteration.pre.foldlM (fun exec op => op exec) exec
  let values ← evalAll iteration.args (exec.view rt)
  some (exec.setVars values)

/-- Run the iterations as long as the condition tells to, and count them. -/
def runChunk (truthy : Bool) (exec : ExecCtx W) : List (Iteration W) → Option (ExecCtx W × Nat)
  | [] => some (exec, 0)
  | iteration :: iterations => do
      let cond ← iteration.cond (exec.view rt)
      if (cond ≠ 0) = truthy then do
        let exec ← iteration.run rt exec
        let (exec, count) ← runChunk truthy exec iterations
        some (exec, count + 1)
      else
        some (exec, 0)

/-- The registers of the parameters go back to the variables. -/
def commit (paramCount : Nat) (exec final : ExecCtx W) : ExecCtx W :=
  { final with actor := { final.actor with
      vars := fun slot => if slot < paramCount then final.actor.vars slot else exec.actor.vars slot } }

/-- Block 0 of the branch. Behind a whole chunk it is entered again, and block 1 starts the
exit arm. -/
def chunkBlock (info : TailLoopInfo) (paramCount : Nat) (iterations : List (Iteration W)) :
    Block W := fun exec =>
  orTrap exec ((runChunk rt info.continueWhenTruthy exec iterations).map fun chunk =>
    (commit paramCount exec chunk.1, .goto (if chunk.2 = iterations.length then 0 else 1)))

/-! ## Branches -/

/-- One slot for each parameter; those without a name have a name that no source has. -/
def patternScope (scope : Scope) (pos : Nat) : List Pattern → Scope
  | [] => scope
  | pattern :: patterns =>
      patternScope
        (if pattern.isWildcard || pattern.isLiteralGuard then
          { scope with toBranchState := scope.insert s!"__pat_{pos}" }
        else
          scope.insertWithLakeType pattern.ident pattern.ty)
        (pos + 1) patterns

def branchScope (patterns : List Pattern) : Scope := patternScope ⟨⟨[]⟩, [], 0⟩ 0 patterns

/-- The loop that a branch is unrolled as, if it is. -/
def unrollInfo (unrollFactor : Nat) (patterns : List Pattern) (body : List Expr) :
    Option TailLoopInfo :=
  if 1 < unrollFactor ∧
      patterns.all (fun pattern => !(pattern.isWildcard || pattern.isLiteralGuard)) then
    detectTailLoop body ctx.currentMachine patterns.length
  else
    none

/-- The exit arm is compiled without the names that the iterations have dropped. -/
def exitScope (info : TailLoopInfo) (scope : Scope) (state : BranchState) : Scope :=
  { scope with
    toBranchState := state
    lakeTypes := scope.lakeTypes.filter fun entry =>
      entry.1 ∉ info.preStmts.filterMap PreStmt.local }

def compileUnrolledBranch (unrollFactor : Nat) (patterns : List Pattern) (info : TailLoopInfo) :
    Option (Emitted W) := do
  let scope := branchScope patterns
  let (iterations, state) ← compileIterations rt ctx info scope.toBranchState (max unrollFactor 2)
  let exit ← compileSeq rt ctx 1 (exitScope info scope state) info.exitBody
  some { exit with code := (0, chunkBlock rt info patterns.length iterations) :: exit.code }

/-- The blocks of one branch of the machine. -/
def compileBranch (unrollFactor : Nat) (patterns : List Pattern) (body : List Expr) :
    Option (Emitted W) :=
  match unrollInfo ctx unrollFactor patterns body with
  | some info => compileUnrolledBranch rt ctx unrollFactor patterns info
  | none => compileBody rt ctx [] some 0 (branchScope patterns) body

end Unrolled

end LakeNative.Compiler

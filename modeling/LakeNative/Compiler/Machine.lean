import LakeNative.Library.Transitions
import LakeNative.Compiler.Unroll

/-! # The machine function

A machine is compiled to one function. A call of it runs the blocks of the actor's branch one
after the other until it has to go back to the scheduler: its reductions or its time are used
up, or the actor is done, waits or is parked.
-/

namespace LakeNative.Compiler

open LakeNative.Runtime LakeNative.Transitions

/-! ## Compiled machines -/

structure UnrolledLoop (W : Type) where
  continueWhenTruthy : Bool
  paramCount : Nat
  iterations : List (Iteration W)

/-- The blocks of a branch. Block 0 of an unrolled branch is the loop. -/
structure BranchCode (W : Type) where
  code : Code W
  loop : Option (UnrolledLoop W)

section Machine

variable {W : Type} (rt : RtFuncs W) (ctx : CompilerCtx)

def compileBranchCode (unrollFactor : Nat) (patterns : List Pattern) (body : List Expr) :
    Option (BranchCode W) := do
  let emitted ← compileBranch rt ctx unrollFactor patterns body
  match unrollInfo ctx unrollFactor patterns body with
  | some info => do
      let (iterations, _) ← compileIterations rt ctx info (branchScope patterns).toBranchState
        (max unrollFactor 2)
      some ⟨emitted.code, some ⟨info.continueWhenTruthy, patterns.length, iterations⟩⟩
  | none => some ⟨emitted.code, none⟩

/-- The branches by their ids, the entries of the machine's switch on `BRANCH_ID`. -/
def compileMachine (unrollFactor : Nat) (branches : List (List Pattern × List Expr)) :
    Option (List (BranchCode W)) :=
  branches.zipIdx.mapM fun branch =>
    compileBranchCode rt { ctx with currentBranch := branch.2 } unrollFactor branch.1.1 branch.1.2

/-! ## Calls -/

/-- What a call returns to the scheduler. -/
inductive StopCode where
  | done
  | limit
  | wait
  | park
  deriving DecidableEq

/-- A call on its way, or stopped. `remaining` is the counter in the function, `executed` the
blocks and loop iterations that have run. -/
structure Call (W : Type) where
  exec : ExecCtx W
  blockId : Nat
  remaining : Int
  executed : Nat
  stopped : Option StopCode

namespace Call

variable {W : Type}

def start (quantum : Int) (exec : ExecCtx W) (blockId : Nat) : Call W :=
  ⟨exec, blockId, quantum, 0, none⟩

def stop (call : Call W) (code : StopCode) : Call W := { call with stopped := some code }

/-- One block or so many iterations have run. -/
def ran (call : Call W) (exec : ExecCtx W) (reductions : Nat) : Call W :=
  { call with exec := exec, executed := call.executed + reductions }

/-- `quantum_loop_block`, which the block jumps to with the number of the next one. -/
def quantumLoop (rt : RtFuncs W) (overBudget : Bool) (next : Nat) (call : Call W) : Call W :=
  let stored := { call with blockId := next }
  if rt.isDying call.exec.world then
    stored.stop .done
  else
    let counted := { stored with remaining := call.remaining - 1 }
    if counted.remaining = 0 ∨ overBudget then counted.stop .limit else counted

/-- The back edge of a `self(...)` that stays in its branch. -/
def backEdge (call : Call W) : Call W :=
  let counted := { call with blockId := 0, remaining := call.remaining - 1 }
  if counted.remaining = 0 then counted.stop .limit else counted

/-- The back edge of an unrolled loop, taken once for all its iterations. -/
def loopEdge (unrollFactor : Nat) (call : Call W) : Call W :=
  let counted := { call with blockId := 0, remaining := call.remaining - unrollFactor }
  if counted.remaining ≤ 0 then counted.stop .limit else counted

/-- The call is at the loop of its branch. -/
def AtLoop (machine : List (BranchCode W)) (call : Call W) (loop : UnrolledLoop W) : Prop :=
  ∃ branch, machine[call.exec.branchId]? = some branch ∧ branch.loop = some loop ∧ call.blockId = 0

/-- The call is at a block of its branch that is not its loop. -/
def AtBlock (machine : List (BranchCode W)) (call : Call W) (block : Block W) : Prop :=
  ∃ branch, machine[call.exec.branchId]? = some branch ∧ (call.blockId, block) ∈ branch.code ∧
    ¬ (branch.loop.isSome ∧ call.blockId = 0)

end Call

/-- One step of a call: a block, or the chunk of an unrolled loop. The time that is left is
looked at behind every block that goes through `quantum_loop_block`. -/
inductive CallStep (machine : List (BranchCode W)) : Call W → Bool → Call W → Prop where
  | noBranch {call overBudget} (running : call.stopped = none)
      (missing : machine[call.exec.branchId]? = none) :
      CallStep machine call overBudget (call.stop .done)
  | noBlock {call overBudget branch} (running : call.stopped = none)
      (isBranch : machine[call.exec.branchId]? = some branch)
      (missing : ∀ block, (call.blockId, block) ∉ branch.code) :
      CallStep machine call overBudget (call.stop .done)
  | goto {call overBudget block exec next} (running : call.stopped = none)
      (isBlock : call.AtBlock machine block) (runs : block call.exec = (exec, .goto next)) :
      CallStep machine call overBudget ((call.ran exec 1).quantumLoop rt overBudget next)
  | wait {call overBudget block exec next} (running : call.stopped = none)
      (isBlock : call.AtBlock machine block) (runs : block call.exec = (exec, .wait next)) :
      CallStep machine call overBudget ({ call.ran exec 1 with blockId := next }.stop .wait)
  | park {call overBudget block exec next} (running : call.stopped = none)
      (isBlock : call.AtBlock machine block) (runs : block call.exec = (exec, .park next)) :
      CallStep machine call overBudget ({ call.ran exec 1 with blockId := next }.stop .park)
  | enter {call overBudget block exec} (running : call.stopped = none)
      (isBlock : call.AtBlock machine block) (runs : block call.exec = (exec, .enter)) :
      CallStep machine call overBudget ((call.ran exec 1).quantumLoop rt overBudget 0)
  | enterSame {call overBudget block exec} (running : call.stopped = none)
      (isBlock : call.AtBlock machine block) (runs : block call.exec = (exec, .enter))
      (same : exec.branchId = call.exec.branchId) :
      CallStep machine call overBudget (call.ran exec 1).backEdge
  | chunk {call overBudget loop final} (running : call.stopped = none)
      (isLoop : call.AtLoop machine loop)
      (runs : runChunk rt loop.continueWhenTruthy call.exec loop.iterations =
        some (final, loop.iterations.length)) :
      CallStep machine call overBudget
        ((call.ran (commit loop.paramCount call.exec final) loop.iterations.length).loopEdge
          loop.iterations.length)
  | leave {call overBudget loop final count} (running : call.stopped = none)
      (isLoop : call.AtLoop machine loop)
      (runs : runChunk rt loop.continueWhenTruthy call.exec loop.iterations = some (final, count))
      (short : count < loop.iterations.length) :
      CallStep machine call overBudget
        ((call.ran (commit loop.paramCount call.exec final) (count + 1)).quantumLoop rt overBudget 1)

end Machine

end LakeNative.Compiler

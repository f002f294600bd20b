import Mathlib.Logic.Function.Basic
import LakeNative.Compiler.BranchState
import LakeNative.Compiler.Registry

/-! # Argument slots

How argument values travel from a call site to the variables of the branch that
takes them: staged in `JUMP_ARGS`, copied to `VARIABLES`, read by name.
-/

namespace LakeNative.Compiler

open LakeNative.Runtime

/-! ## Staging -/

/-- The evaluation of an expression and the value it leaves in `TEMP_VAL`: one that
calls nothing, one that evaluates its operands first, or a call, whose arguments are
staged. -/
inductive Evaluation where
  | pure (value : Word)
  | operands (parts : List Evaluation) (value : Word)
  | call (args : List Evaluation) (value : Word)

namespace Evaluation

def value : Evaluation → Word
  | pure value | operands _ value | call _ value => value

mutual
/-- What evaluating with the given `jump_args_base` writes to `JUMP_ARGS`. -/
def run (base : Nat) (jumpArgs : Nat → Word) : Evaluation → Nat → Word
  | pure _ => jumpArgs
  | operands parts _ => runAll base jumpArgs parts
  | call args _ => stage (base + args.length) base jumpArgs args

def runAll (base : Nat) (jumpArgs : Nat → Word) : List Evaluation → Nat → Word
  | [] => jumpArgs
  | part :: parts => runAll base (part.run base jumpArgs) parts

/-- Every argument is evaluated past the call's own range, then stored at `next`. -/
def stage (inner next : Nat) (jumpArgs : Nat → Word) : List Evaluation → Nat → Word
  | [] => jumpArgs
  | arg :: args =>
      stage inner (next + 1)
        (Function.update (arg.run inner jumpArgs) next arg.value) args
end

mutual
/-- Nothing below the base is written. -/
theorem run_below (base : Nat) (jumpArgs : Nat → Word) {slot : Nat} (below : slot < base) :
    (evaluation : Evaluation) → run base jumpArgs evaluation slot = jumpArgs slot
  | pure _ => by rw [run]
  | operands parts _ => by
      rw [run]
      exact runAll_below base jumpArgs below parts
  | call args _ => by
      rw [run]
      exact stage_below (base + args.length) base jumpArgs below (by omega) args

theorem runAll_below (base : Nat) (jumpArgs : Nat → Word) {slot : Nat} (below : slot < base) :
    (parts : List Evaluation) → runAll base jumpArgs parts slot = jumpArgs slot
  | [] => by rw [runAll]
  | part :: parts => by
      rw [runAll, runAll_below base _ below parts]
      exact run_below base jumpArgs below part

/-- Storing from `next` on leaves what was stored before. -/
theorem stage_below (inner next : Nat) (jumpArgs : Nat → Word) {slot : Nat}
    (below : slot < next) (outside : slot < inner) :
    (args : List Evaluation) → stage inner next jumpArgs args slot = jumpArgs slot
  | [] => by rw [stage]
  | arg :: args => by
      rw [stage, stage_below inner (next + 1) _ (by omega) outside args,
        Function.update_of_ne (by omega)]
      exact run_below inner jumpArgs outside arg
end

/-- Behind the staging every argument's value is in its place, whatever calls
the arguments contain. -/
theorem stage_at (inner next : Nat) (jumpArgs : Nat → Word) (args : List Evaluation)
    (apart : next + args.length ≤ inner) {index : Nat} {arg : Evaluation}
    (atIndex : args[index]? = some arg) :
    stage inner next jumpArgs args (next + index) = arg.value := by
  induction args generalizing next jumpArgs index with
  | nil => cases atIndex
  | cons first args induction =>
      rw [List.length_cons] at apart
      rw [stage]
      cases index with
      | zero =>
          cases atIndex
          rw [stage_below inner (next + 1) _ (by omega) (by omega)]
          exact Function.update_self _ _ _
      | succ index =>
          have later := induction (next + 1)
            (Function.update (first.run inner jumpArgs) next first.value) (by omega) atIndex
          rwa [Nat.add_assoc, Nat.add_comm 1] at later

end Evaluation

/-! ## Passing -/

/-- A value, or its copy if the type is that of a fat pointer. `copy` is the copy to
the callee's arena, or nothing where caller and callee share one. -/
def passArg (copy : Word → Word) (argTypes : List String) (index : Nat) (value : Word) : Word :=
  if isPointerLikeType (argTypes[index]?.getD "") then copy value else value

/-- The largest `param_count` of the candidates. -/
def argCount (candidates : List BranchInfo) : Nat :=
  (candidates.map BranchInfo.paramCount).foldr max 0

/-- `VARIABLES` behind a spawn or a `self(...)` whose arguments were staged. -/
def stagedVars (copy : Word → Word) (argTypes : List String) (candidates : List BranchInfo)
    (base : Nat) (jumpArgs vars : Nat → Word) (slot : Nat) : Word :=
  if slot < argCount candidates then
    passArg copy argTypes slot (jumpArgs (base + slot))
  else
    vars slot

/-- `VARIABLES` behind a `self(...)` of pure arguments, which are not staged. -/
def fusedVars (copy : Word → Word) (argTypes : List String) (values : List Word)
    (vars : Nat → Word) (slot : Nat) : Word :=
  match values[slot]? with
  | some value => passArg copy argTypes slot value
  | none => vars slot

theorem paramCount_le_argCount {candidates : List BranchInfo} {branch : BranchInfo}
    (member : branch ∈ candidates) : branch.paramCount ≤ argCount candidates := by
  induction candidates with
  | nil => exact absurd member List.not_mem_nil
  | cons first candidates induction =>
      rw [argCount, List.map_cons, List.foldr_cons]
      rcases List.mem_cons.mp member with rfl | later
      · exact Nat.le_max_left _ _
      · exact Nat.le_trans (induction later) (Nat.le_max_right _ _)

/-! ## Parameters -/

/-- The name under which a parameter takes its slot. -/
def slotKey (position : Nat) (pattern : Pattern) : String :=
  if pattern.isWildcard || pattern.isLiteralGuard then
    "__pat_" ++ toString position
  else
    pattern.ident

def slotKeys (patterns : List Pattern) : List String :=
  patterns.zipIdx.map fun item => slotKey item.2 item.1

/-- The variables in scope where the branch's body begins. -/
def branchState (patterns : List Pattern) : BranchState :=
  (⟨[]⟩ : BranchState).insertAll (slotKeys patterns)

theorem slotKeys_at {patterns : List Pattern} {position : Nat} {pattern : Pattern}
    (atPosition : patterns[position]? = some pattern) :
    (slotKeys patterns)[position]? = some (slotKey position pattern) := by
  rw [slotKeys, List.getElem?_map, List.getElem?_zipIdx, atPosition]
  simp

/-- A parameter has the slot of its own position. -/
theorem branchState_get {patterns : List Pattern} {position : Nat} {pattern : Pattern}
    (atPosition : patterns[position]? = some pattern)
    (isLast : slotKey position pattern ∉ (slotKeys patterns).drop (position + 1)) :
    (branchState patterns).get (slotKey position pattern) = some position := by
  rw [branchState, BranchState.get_insertAll_last _ (slotKeys_at atPosition) isLast]
  exact congrArg some (Nat.zero_add position)

end LakeNative.Compiler

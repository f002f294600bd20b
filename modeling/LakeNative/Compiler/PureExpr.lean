import LakeNative.Compiler.BranchState
import LakeNative.Compiler.CallHash

/-! # Pure expressions

The expressions that the compiler folds into the block where they stand: literals,
variables, operators and loads. Folding may stop the compiler; what is folded may trap.
-/

namespace LakeNative.Compiler

open LakeNative.Runtime

/-- What the frontend and the standard library say of literals. -/
structure Literals where
  parseInt : String → Option Word
  hasher : DefaultHasher

/-- The compile-time number of an atom, never zero. -/
def Literals.atomId (literals : Literals) (name : String) : Word :=
  (literals.hasher [name]).toBitVec ||| 1

/-- What folded code reads: the variables, the actor's pid, and loads of so many bits
from an address, which fault where no memory is mapped. -/
structure View where
  vars : Nat → Word
  ownPid : Word
  load : Nat → Word → Option Word

/-- The word at the start of a fat pointer's payload and an offset. -/
def View.loadAt (view : View) (bits : Nat) (fatPtr offset : Word) : Option Word := do
  let start ← view.load 64 fatPtr
  view.load bits (start + offset)

/-- A folded value; `none` is a trap or a fault of the processor, which ends the program. -/
abbrev Folded := View → Option Word

/-- Shifts take the lower six bits of their right operand; a division by zero or out
of range traps. -/
def BinaryOp.eval (op : BinaryOp) (left right : Word) : Option Word :=
  match op with
  | .add => some (left + right)
  | .sub => some (left - right)
  | .mul => some (left * right)
  | .div =>
      if right = 0 ∨ left = BitVec.intMin 64 ∧ right = -1 then none
      else some (left.sdiv right)
  | .le => some (if left.sle right then 1 else 0)
  | .ge => some (if right.sle left then 1 else 0)
  | .eq => some (if left = right then 1 else 0)
  | .lt => some (if left.slt right then 1 else 0)
  | .gt => some (if right.slt left then 1 else 0)
  | .bAnd => some (left &&& right)
  | .bOr => some (left ||| right)
  | .bXor => some (left ^^^ right)
  | .shl => some (left <<< (right.toNat % 64))
  | .shr => some (left >>> (right.toNat % 64))

/-- The loads that may be folded and their width in bits. -/
def rtLoadSize (name : String) : Option Nat :=
  match name with
  | "rt_load_u8" => some 8
  | "rt_load_u16" => some 16
  | "rt_load_u32" => some 32
  | "rt_load_u64" => some 64
  | _ => none

def isSchedulerSafeRtFn (name : String) : Bool := (rtLoadSize name).isSome

mutual
def isPure : Expr → Bool
  | .num _ _ | .bool _ | .var _ _ | .atom _ => true
  | .neg inner => isPure inner
  | .tupleIndex receiver _ => isPure receiver
  | .index receiver index => isPure receiver && isPure index
  | .binary _ left right => isPure left && isPure right
  | .jump (.var callee _) args => isSchedulerSafeRtFn callee && allPure args
  | _ => false

def allPure : List Expr → Bool
  | [] => true
  | arg :: args => isPure arg && allPure args
end

/-- `fold_with_self`, with or without a pid for `self`. A name without a slot and a
`self` without a pid stop the compiler. -/
def foldWithSelf (literals : Literals) (selfPid : Bool) (state : BranchState) :
    Expr → Option Folded
  | .num text _ => some fun _ => some ((literals.parseInt text).getD 0)
  | .bool value => some fun _ => some (if value then 1 else 0)
  | .atom name => some fun _ => some (literals.atomId name)
  | .var "self" _ => if selfPid then some fun view => some view.ownPid else none
  | .var name _ => (state.get name).map fun slot view => some (view.vars slot)
  | .tupleIndex receiver index => do
      let pointer ← foldWithSelf literals selfPid state receiver
      some fun view => do
        let pointer ← pointer view
        view.loadAt 64 pointer (8 * BitVec.ofNat 64 index)
  | .index receiver index => do
      let pointer ← foldWithSelf literals selfPid state receiver
      let offset ← foldWithSelf literals selfPid state index
      some fun view => do
        let pointer ← pointer view
        let offset ← offset view
        view.loadAt 8 pointer offset
  | .binary op left right => do
      let left ← foldWithSelf literals selfPid state left
      let right ← foldWithSelf literals selfPid state right
      some fun view => do
        let left ← left view
        let right ← right view
        op.eval left right
  | .neg inner => do
      let inner ← foldWithSelf literals selfPid state inner
      some fun view => (inner view).map Neg.neg
  | .jump (.var callee _) (pointer :: offset :: _) => do
      let bits ← rtLoadSize callee
      let pointer ← foldWithSelf literals selfPid state pointer
      let offset ← foldWithSelf literals selfPid state offset
      some fun view => do
        let pointer ← pointer view
        let offset ← offset view
        view.loadAt bits pointer offset
  | _ => none

def fold (literals : Literals) (state : BranchState) (expr : Expr) : Option Folded :=
  foldWithSelf literals false state expr

/-- The values of folded expressions, one after the other. -/
def evalAll (folded : List Folded) (view : View) : Option (List Word) :=
  folded.mapM fun value => value view

/-- All succeed, with these results. -/
theorem mapM_eq_some_iff {α β : Type} {f : α → Option β} {list : List α} {results : List β} :
    list.mapM f = some results ↔ list.map f = results.map some := by
  induction list generalizing results with
  | nil =>
      cases results with
      | nil => exact iff_of_true rfl rfl
      | cons result results => exact iff_of_false nofun nofun
  | cons value list induction =>
      rw [List.mapM_cons, List.map_cons]
      cases results with
      | nil =>
          refine iff_of_false (fun succeeds => ?_) nofun
          rcases Option.bind_eq_some_iff.mp succeeds with ⟨first, -, later⟩
          rcases Option.bind_eq_some_iff.mp later with ⟨rest, -, empty⟩
          cases empty
      | cons result results =>
          rw [List.map_cons, List.cons.injEq, ← induction]
          constructor
          · intro succeeds
            rcases Option.bind_eq_some_iff.mp succeeds with ⟨first, isFirst, later⟩
            rcases Option.bind_eq_some_iff.mp later with ⟨rest, isRest, same⟩
            cases same
            exact ⟨isFirst, isRest⟩
          · rintro ⟨isFirst, isRest⟩
            rw [isFirst, isRest]
            rfl

theorem result_of_mapM {α β : Type} {f : α → Option β} {list : List α} {results : List β}
    (succeeds : list.mapM f = some results) {value : α} (member : value ∈ list) :
    ∃ result, f value = some result := by
  have isResult : f value ∈ list.map f := List.mem_map_of_mem member
  rw [mapM_eq_some_iff.mp succeeds] at isResult
  rcases List.mem_map.mp isResult with ⟨result, -, same⟩
  exact ⟨result, same.symm⟩

theorem length_of_mapM {α β : Type} {f : α → Option β} {list : List α} {results : List β}
    (succeeds : list.mapM f = some results) : results.length = list.length := by
  have lengths := congrArg List.length (mapM_eq_some_iff.mp succeeds)
  rwa [List.length_map, List.length_map, eq_comm] at lengths

theorem getElem?_of_mapM {α β : Type} {f : α → Option β} {list : List α} {results : List β}
    (succeeds : list.mapM f = some results) {index : Nat} {value : α}
    (atIndex : list[index]? = some value) : f value = results[index]? := by
  have same := congrArg (·[index]?) (mapM_eq_some_iff.mp succeeds)
  rw [List.getElem?_map, List.getElem?_map, atIndex] at same
  cases isResult : results[index]? with
  | none =>
      rw [isResult] at same
      cases same
  | some result =>
      rw [isResult] at same
      exact Option.some.inj same

end LakeNative.Compiler

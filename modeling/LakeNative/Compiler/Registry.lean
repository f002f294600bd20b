import Mathlib.Data.List.Induction
import Mathlib.Data.List.Nodup
import Mathlib.Logic.Function.Basic
import LakeNative.Compiler.CallHash

/-! # The machine registry

The pre-pass indexes the branches of a machine by position and by the hash of their
parameter types. A call site asks for all branches that share the call's hash.
-/

namespace LakeNative.Compiler

open LakeNative.Runtime

/-! ## Branches -/

/-- A literal that a parameter has to equal. -/
inductive GuardValue where
  | int (value : Word)
  | str (text : String)
  deriving DecidableEq

structure BranchInfo where
  hash : UInt64
  paramCount : Nat
  branchId : Nat
  guards : List (Option GuardValue)

/-- No parameter has a guard. -/
def BranchInfo.isWildcardBranch (branch : BranchInfo) : Bool :=
  branch.guards.all Option.isNone

/-- The parameters of a branch; a `Vec` holds at most `isize::MAX` bytes. -/
structure Branch where
  patterns : List Pattern
  patternsFit : patterns.length < 2 ^ 63 := by decide

structure Machine where
  branches : List Branch
  branchesFit : branches.length < 2 ^ 63 := by decide

def Pattern.guard (pattern : Pattern) : Option GuardValue :=
  match pattern.guardI64 with
  | some value => some (.int value)
  | none => pattern.guardStr.map .str

/-! ## The index of one machine -/

structure MachineInfo where
  byId : Nat → Option BranchInfo
  byHash : UInt64 → List Nat

namespace MachineInfo

def empty : MachineInfo where
  byId := fun _ => none
  byHash := fun _ => []

def insertBranch (info : MachineInfo) (branch : BranchInfo) : MachineInfo where
  byId := Function.update info.byId branch.branchId (some branch)
  byHash := Function.update info.byHash branch.hash (info.byHash branch.hash ++ [branch.branchId])

def branchesForHash (info : MachineInfo) (hash : UInt64) : List BranchInfo :=
  (info.byHash hash).filterMap info.byId

end MachineInfo

def branchInfo (hasher : DefaultHasher) (branchId : Nat) (branch : Branch) : BranchInfo where
  hash := (hashPattern hasher branch.patterns).1
  paramCount := (hashPattern hasher branch.patterns).2
  branchId := branchId
  guards := branch.patterns.map Pattern.guard

/-- What `index_machine` inserts, in order: a branch is named by its position. -/
def branchInfos (hasher : DefaultHasher) (machine : Machine) : List BranchInfo :=
  machine.branches.zipIdx.map fun item => branchInfo hasher item.2 item.1

def indexMachine (hasher : DefaultHasher) (machine : Machine) : MachineInfo :=
  (branchInfos hasher machine).foldl MachineInfo.insertBranch .empty

/-! ## Looking a hash up -/

namespace MachineInfo

variable {info : MachineInfo} {branch : BranchInfo}

theorem byHash_insertBranch (hash : UInt64) :
    (info.insertBranch branch).byHash hash =
      info.byHash hash ++ if branch.hash = hash then [branch.branchId] else [] := by
  by_cases same : branch.hash = hash
  · subst same
    rw [if_pos rfl]
    exact Function.update_self _ _ _
  · rw [if_neg same, List.append_nil]
    exact Function.update_of_ne (Ne.symm same) _ _

theorem mem_byHash_insertBranch {id : Nat} {hash : UInt64}
    (member : id ∈ (info.insertBranch branch).byHash hash) :
    id = branch.branchId ∨ id ∈ info.byHash hash := by
  rw [byHash_insertBranch, List.mem_append] at member
  rcases member with earlier | isLast
  · exact .inr earlier
  · split at isLast
    · exact .inl (List.mem_singleton.mp isLast)
    · exact absurd isLast List.not_mem_nil

theorem branchesForHash_insertBranch (fresh : ∀ hash, branch.branchId ∉ info.byHash hash)
    (hash : UInt64) :
    (info.insertBranch branch).branchesForHash hash =
      info.branchesForHash hash ++ if branch.hash = hash then [branch] else [] := by
  have kept : (info.byHash hash).filterMap (info.insertBranch branch).byId =
      (info.byHash hash).filterMap info.byId := by
    apply List.filterMap_congr
    intro id member
    refine Function.update_of_ne ?_ _ _
    rintro rfl
    exact fresh hash member
  have added : (info.insertBranch branch).byId branch.branchId = some branch :=
    Function.update_self _ _ _
  rw [branchesForHash, byHash_insertBranch, List.filterMap_append, kept]
  split
  · rw [List.filterMap_cons, added]
    rfl
  · rfl

theorem mem_byHash_foldl {branches : List BranchInfo} {id : Nat} {hash : UInt64}
    (member : id ∈ (branches.foldl insertBranch empty).byHash hash) :
    id ∈ branches.map BranchInfo.branchId := by
  induction branches using List.reverseRecOn with
  | nil => exact absurd member List.not_mem_nil
  | append_singleton branches branch induction =>
      rw [List.foldl_concat] at member
      rw [List.map_append, List.mem_append]
      rcases mem_byHash_insertBranch member with isLast | earlier
      · exact .inr (List.mem_singleton.mpr isLast)
      · exact .inl (induction earlier)

theorem branchesForHash_foldl {branches : List BranchInfo}
    (distinct : (branches.map BranchInfo.branchId).Nodup) (hash : UInt64) :
    (branches.foldl insertBranch empty).branchesForHash hash =
      branches.filter fun branch => branch.hash = hash := by
  induction branches using List.reverseRecOn with
  | nil => rfl
  | append_singleton branches branch induction =>
      rw [List.map_append, List.map_singleton, List.nodup_append] at distinct
      rcases distinct with ⟨before, -, apart⟩
      have fresh : ∀ hash, branch.branchId ∉ (branches.foldl insertBranch empty).byHash hash :=
        fun _ member => apart _ (mem_byHash_foldl member) _ List.mem_cons_self rfl
      rw [List.foldl_concat, branchesForHash_insertBranch fresh, induction before,
        List.filter_append, List.filter_singleton]
      simp

theorem byId_foldl {branches : List BranchInfo}
    (distinct : (branches.map BranchInfo.branchId).Nodup) {branch : BranchInfo}
    (member : branch ∈ branches) :
    (branches.foldl insertBranch empty).byId branch.branchId = some branch := by
  induction branches using List.reverseRecOn with
  | nil => exact absurd member List.not_mem_nil
  | append_singleton branches last induction =>
      rw [List.map_append, List.map_singleton, List.nodup_append] at distinct
      rcases distinct with ⟨before, -, apart⟩
      rw [List.foldl_concat]
      rcases List.mem_append.mp member with earlier | isLast
      · have different := apart _ (List.mem_map_of_mem earlier) _ List.mem_cons_self
        exact (Function.update_of_ne different _ _).trans (induction before earlier)
      · rw [List.mem_singleton.mp isLast]
        exact Function.update_self _ _ _

end MachineInfo

theorem map_branchId_branchInfos (hasher : DefaultHasher) (machine : Machine) :
    (branchInfos hasher machine).map BranchInfo.branchId = List.range machine.branches.length := by
  rw [branchInfos, List.map_map]
  exact List.zipIdx_map_snd 0 machine.branches |>.trans List.range_eq_range'.symm

/-- The candidates of a call: the branches with its hash, in the order of the source. -/
theorem branchesForHash_indexMachine (hasher : DefaultHasher) (machine : Machine) (hash : UInt64) :
    (indexMachine hasher machine).branchesForHash hash =
      (branchInfos hasher machine).filter fun branch => branch.hash = hash := by
  apply MachineInfo.branchesForHash_foldl
  rw [map_branchId_branchInfos]
  exact List.nodup_range

/-- The id of a candidate names it. -/
theorem byId_branchesForHash {hasher : DefaultHasher} {machine : Machine} {hash : UInt64}
    {branch : BranchInfo} (member : branch ∈ (indexMachine hasher machine).branchesForHash hash) :
    (indexMachine hasher machine).byId branch.branchId = some branch := by
  rw [branchesForHash_indexMachine] at member
  apply MachineInfo.byId_foldl _ (List.mem_of_mem_filter member)
  rw [map_branchId_branchInfos]
  exact List.nodup_range

theorem mem_branchesForHash {hasher : DefaultHasher} {machine : Machine} {hash : UInt64}
    {branch : BranchInfo} :
    branch ∈ (indexMachine hasher machine).branchesForHash hash ↔
      ∃ id source, machine.branches[id]? = some source ∧ branch = branchInfo hasher id source ∧
        hasher (paramTypes source.patterns) = hash := by
  rw [branchesForHash_indexMachine, List.mem_filter, branchInfos, List.mem_map]
  constructor
  · rintro ⟨⟨⟨source, id⟩, member, rfl⟩, sameHash⟩
    exact ⟨id, source, List.mem_zipIdx_iff_getElem?.mp member, rfl, of_decide_eq_true sameHash⟩
  · rintro ⟨id, source, atId, rfl, sameHash⟩
    exact ⟨⟨⟨source, id⟩, List.mem_zipIdx_iff_getElem?.mpr atId, rfl⟩, decide_eq_true sameHash⟩

theorem length_branchesForHash_lt (hasher : DefaultHasher) (machine : Machine) (hash : UInt64) :
    ((indexMachine hasher machine).branchesForHash hash).length < 2 ^ 63 := by
  rw [branchesForHash_indexMachine]
  apply Nat.lt_of_le_of_lt (List.length_filter_le _ _)
  rw [branchInfos, List.length_map, List.length_zipIdx]
  exact machine.branchesFit

theorem length_guards_lt {hasher : DefaultHasher} {machine : Machine} {hash : UInt64}
    {branch : BranchInfo} (member : branch ∈ (indexMachine hasher machine).branchesForHash hash) :
    branch.guards.length < 2 ^ 63 := by
  rcases mem_branchesForHash.mp member with ⟨id, source, -, rfl, -⟩
  rw [branchInfo, List.length_map]
  exact source.patternsFit

end LakeNative.Compiler

import LakeNative.Compiler.ArgSlots
import LakeNative.Dispatch.GuardReading

/-! # Type dispatch

Which branches a call can run, by the static types of its arguments, and where the
branch that runs finds them. The key of a call leaves some arguments out, and the key of a branch
its `_`, so that the two can drift apart.
-/

namespace LakeNative.Dispatch

open LakeNative.Runtime LakeNative.Compiler

/-! ## Candidates -/

section Calls

variable {hasher : DefaultHasher} {machine : Machine} {tupleText : List String → String}
  {varTypes : String → Option String} {args : List Expr} {types : List String}

variable (hasher machine) in
/-- The branches that a call has the hash of. -/
def candidatesOf (varTypes : String → Option String) (args : List Expr) : List BranchInfo :=
  (indexMachine hasher machine).branchesForHash (hashCallArgs hasher args varTypes)

/-- No branch of the machine has the hash of these types by a collision. -/
def Separates (hasher : DefaultHasher) (machine : Machine) (types : List String) : Prop :=
  ∀ source ∈ machine.branches,
    hasher (paramTypes source.patterns) = hasher types → paramTypes source.patterns = types

/-- A branch is a candidate if its parameters count as what the arguments write. -/
theorem mem_candidatesOf (typed : List.Forall₂ (HasType tupleText varTypes) args types)
    (separates : Separates hasher machine (writtenTypes args types)) {branch : BranchInfo} :
    branch ∈ candidatesOf hasher machine varTypes args ↔
      ∃ id source, machine.branches[id]? = some source ∧ branch = branchInfo hasher id source ∧
        paramTypes source.patterns = writtenTypes args types := by
  rw [candidatesOf, mem_branchesForHash, hashCallArgs_of_types typed]
  constructor
  · rintro ⟨id, source, atId, rfl, sameHash⟩
    exact ⟨id, source, atId, rfl, separates source (List.mem_of_getElem? atId) sameHash⟩
  · rintro ⟨id, source, atId, rfl, sameTypes⟩
    exact ⟨id, source, atId, rfl, by rw [sameTypes]⟩

theorem branchInfo_mem_candidatesOf (typed : List.Forall₂ (HasType tupleText varTypes) args types)
    (separates : Separates hasher machine (writtenTypes args types)) {id : Nat} {source : Branch}
    (atId : machine.branches[id]? = some source) :
    branchInfo hasher id source ∈ candidatesOf hasher machine varTypes args ↔
      paramTypes source.patterns = writtenTypes args types := by
  rw [mem_candidatesOf typed separates]
  constructor
  · rintro ⟨otherId, other, atOther, same, sameTypes⟩
    have sameId : id = otherId := congrArg BranchInfo.branchId same
    rw [← sameId, atId] at atOther
    cases atOther
    exact sameTypes
  · exact fun sameTypes => ⟨id, source, atId, rfl, sameTypes⟩

/-- What runs is a candidate. -/
theorem selected_candidate (typed : List.Forall₂ (HasType tupleText varTypes) args types)
    (separates : Separates hasher machine (writtenTypes args types))
    {switch : Switch} {select : Memory → (Nat → Word) → Nat}
    (selected : selectBranch switch (candidatesOf hasher machine varTypes args) = some select)
    (memory : Memory) (values : Nat → Word) :
    ∃ source, machine.branches[select memory values]? = some source ∧
      branchInfo hasher (select memory values) source ∈
        candidatesOf hasher machine varTypes args := by
  rcases selectBranch_mem selected memory values with ⟨branch, member, isId⟩
  rcases (mem_candidatesOf typed separates).mp member with ⟨id, source, atId, rfl, -⟩
  exact ⟨source, isId ▸ atId, isId ▸ member⟩

/-! ## Slots -/

/-- What a parameter reads: its slot is its position, where both ways of passing
arguments put the argument of that position. -/
structure ReadsArgument (source : Branch) (candidates : List BranchInfo) (argTypes : List String)
    (position : Nat) (pattern : Pattern) (arg : Evaluation) (args : List Evaluation) : Prop where
  slot : (branchState source.patterns).get (slotKey position pattern) = some position
  staged : ∀ (copy : Word → Word) (base : Nat) (jumpArgs vars : Nat → Word),
    stagedVars copy argTypes candidates base
      (Evaluation.stage (base + args.length) base jumpArgs args) vars position =
      passArg copy argTypes position arg.value
  fused : ∀ (copy : Word → Word) (vars : Nat → Word),
    fusedVars copy argTypes (args.map Evaluation.value) vars position =
      passArg copy argTypes position arg.value

/-- A parameter that the body can name: not `_`, not a literal, and with no later one of the same
name. -/
structure Named (source : Branch) (position : Nat) (pattern : Pattern) : Prop where
  atPosition : source.patterns[position]? = some pattern
  notWildcard : pattern.isWildcard = false
  notLiteral : pattern.isLiteralGuard = false
  isLast : slotKey position pattern ∉ (slotKeys source.patterns).drop (position + 1)

/-- Both ways of passing arguments fill the parameters that are counted. -/
theorem reads_argument {candidates : List BranchInfo} {branch : BranchInfo} {source : Branch}
    {argTypes : List String} {position : Nat} {pattern : Pattern} {evaluations : List Evaluation}
    {arg : Evaluation} (member : branch ∈ candidates) (inside : position < branch.paramCount)
    (named : Named source position pattern) (isArg : evaluations[position]? = some arg) :
    ReadsArgument source candidates argTypes position pattern arg evaluations where
  slot := branchState_get named.atPosition named.isLast
  staged := by
    intro copy base jumpArgs vars
    have copied : position < argCount candidates :=
      Nat.lt_of_lt_of_le inside (paramCount_le_argCount member)
    rw [stagedVars, if_pos copied,
      Evaluation.stage_at (base + evaluations.length) base jumpArgs evaluations (Nat.le_refl _) isArg]
  fused := by
    intro copy vars
    rw [fusedVars, List.getElem?_map, isArg]
    rfl

/-- What is not staged is whatever was there. -/
theorem ReadsArgument.inside {candidates : List BranchInfo} {source : Branch} {argTypes : List String}
    {position : Nat} {pattern : Pattern} {arg : Evaluation} {evaluations : List Evaluation}
    (reads : ReadsArgument source candidates argTypes position pattern arg evaluations) :
    position < argCount candidates := by
  by_contra outside
  have keeps : ∀ word : Word, word = passArg id argTypes position arg.value := by
    intro word
    rw [← reads.staged id 0 (fun _ => 0) fun _ => word, stagedVars, if_neg outside]
  exact absurd ((keeps 0).trans (keeps 1).symm) (by decide)

theorem argCount_le {candidates : List BranchInfo} {count : Nat}
    (bounded : ∀ branch ∈ candidates, branch.paramCount ≤ count) : argCount candidates ≤ count := by
  induction candidates with
  | nil => exact Nat.zero_le _
  | cons first candidates induction =>
      rw [argCount, List.map_cons, List.foldr_cons]
      exact Nat.max_le.mpr ⟨bounded first List.mem_cons_self,
        induction fun branch member => bounded branch (List.mem_cons_of_mem _ member)⟩

/-! ## Dispatch by position -/

/-- The parameters have the static types, position by position; `_` takes any. -/
def Branch.TakesTypes (source : Branch) (types : List String) : Prop :=
  List.Forall₂ (fun pattern ty => pattern.isWildcard = true ∨ pattern.ty.toString = ty)
    source.patterns types

instance (source : Branch) (types : List String) : Decidable (Branch.TakesTypes source types) :=
  inferInstanceAs (Decidable (List.Forall₂ _ _ _))

/-- A call can run exactly the branches that take its types, and their parameters read the
arguments of their positions. -/
def DispatchesByType (hasher : DefaultHasher) (machine : Machine) (varTypes : String → Option String)
    (args : List Expr) (types : List String) : Prop :=
  ∀ id source, machine.branches[id]? = some source →
    (branchInfo hasher id source ∈ candidatesOf hasher machine varTypes args ↔
      Branch.TakesTypes source types) ∧
    (branchInfo hasher id source ∈ candidatesOf hasher machine varTypes args →
      ∀ position pattern, Named source position pattern →
      ∀ evaluations : List Evaluation, evaluations.length = args.length →
      ∃ arg, evaluations[position]? = some arg ∧
        ReadsArgument source (candidatesOf hasher machine varTypes args)
          (exprTypeStrs args varTypes) position pattern arg evaluations)

/-- What is left out of a branch that takes the types leaves the same types as what is left out of
the call, and the parameters that have names come before as many as are counted. -/
structure KeyedWell (source : Branch) (args : List Expr) (types : List String) : Prop where
  sameTypes : paramTypes source.patterns = writtenTypes args types
  counted : ∀ position pattern, Named source position pattern →
    position < (paramTypes source.patterns).length

end Calls

/-- A hasher that writes every name and an end mark. -/
def nameHasher : DefaultHasher := fun types =>
  fxhash (types.flatMap fun ty => ty.toList.map (fun char => char.toNat.toUInt8) ++ [0xff])

def numberAndBuffer : Branch where
  patterns := [⟨"a", .plain "i64", .var⟩, ⟨"b", .plain "buf", .var⟩]

def userAndNumber : Branch where
  patterns := [⟨"u", .plain "User", .var⟩, ⟨"n", .plain "i64", .var⟩]

def handler : Machine where
  branches := [numberAndBuffer, userAndNumber]

/-- `f is { a atom -> … }`. -/
def takesAtom : Machine where
  branches := [⟨[⟨"a", .plain "atom", .var⟩], by decide⟩]

end LakeNative.Dispatch

import LakeNative.Memory.CountedFrames

/-! # The size of an actor's variables

A spawn allocates as many slots as the largest count that the registry has for a branch of
the machine: of the pre-pass, or of the pipeline for the branches that are compiled when the
spawn is. A branch stays inside if all branches of the machine are counted.
-/

namespace LakeNative.Memory

open LakeNative.Runtime LakeNative.Compiler

variable {W : Type} {rt : RtFuncs W} {ctx : CompilerCtx}

/-! ## The size that is allocated -/

/-- A machine as it is parsed: its branches, parameters and body. -/
abbrev ParsedMachine := List (List Pattern × List Expr)

section Sizes

variable (rt : RtFuncs W) (ctx : CompilerCtx) (factor : Nat)

def compileParsed (id : Nat) (branch : List Pattern × List Expr) : Option (Emitted W) :=
  compileBranch rt { ctx with currentBranch := id } factor branch.1 branch.2

/-- The registry's count of a branch while a machine's first branches are compiled:
`update_branch_var_count` takes the place of the pre-pass. -/
def varCount (done : Nat) (branch : (List Pattern × List Expr) × Nat) : Nat :=
  if branch.2 < done then
    ((compileParsed rt ctx factor branch.2 branch.1).map fun emitted => emitted.scope.len).getD 0
  else
    countBranchVars branch.1.1 branch.1.2

/-- `max_branch_var_count`, as a spawn and `init_main_process` use it. -/
def maxBranchVarCount (done : Nat) (machine : ParsedMachine) : Nat :=
  max 1 ((machine.zipIdx.map (varCount rt ctx factor done)).foldr max 0)

end Sizes

/-- The registry has the machine whose branches are being compiled. -/
def Indexed (ctx : CompilerCtx) (machine : ParsedMachine) : Prop :=
  ∃ indexed, ctx.machines ctx.currentMachine = some indexed ∧
    indexed.branches.map Branch.patterns = machine.map Prod.fst

/-- The most parameters that a branch has. -/
def maxParams (machine : ParsedMachine) : Nat :=
  max 1 ((machine.map fun branch => branch.1.length).foldr max 0)

theorem params_le_maxParams {machine : ParsedMachine} {branch : List Pattern × List Expr}
    (member : branch ∈ machine) : branch.1.length ≤ maxParams machine := by
  have counted : branch.1.length ≤ (machine.map fun branch => branch.1.length).foldr max 0 :=
    List.le_max_of_le' 0 (List.mem_map_of_mem member) (Nat.le_refl _)
  exact counted.trans (Nat.le_max_right _ _)

/-- The arguments that a `self(...)` writes are parameters. -/
theorem argCount_le_maxParams {machine : ParsedMachine} (indexed : Indexed ctx machine)
    (hash : UInt64) :
    argCount (ctx.branchesForHash ctx.currentMachine hash) ≤ maxParams machine := by
  rcases indexed with ⟨registered, isRegistered, samePatterns⟩
  rw [CompilerCtx.branchesForHash, isRegistered]
  apply List.max_le_of_forall_le
  intro count isCount
  rcases List.mem_map.mp isCount with ⟨candidate, isCandidate, rfl⟩
  rcases mem_branchesForHash.mp isCandidate with ⟨id, source, atId, rfl, -⟩
  have isPatterns : source.patterns ∈ machine.map Prod.fst := by
    rw [← samePatterns]
    exact List.mem_map_of_mem (List.mem_of_getElem? atId)
  rcases List.mem_map.mp isPatterns with ⟨branch, member, same⟩
  have fits := params_le_maxParams member
  change (hashPattern ctx.hasher source.patterns).2 ≤ _
  rw [hashPattern, ← same]
  rw [paramTypes, List.length_map]
  exact (List.length_filter_le _ _).trans fits

/-! ## The scope of a branch -/

theorem len_patternScope (patterns : List Pattern) (scope : Scope) (pos : Nat) :
    (patternScope scope pos patterns).len = scope.len + patterns.length := by
  induction patterns generalizing scope pos with
  | nil => rfl
  | cons pattern patterns induction =>
      rw [patternScope, induction, List.length_cons]
      split
      · change (scope.insert _).len + _ = _
        rw [BranchState.len_insert]
        omega
      · change (scope.insert _).len + _ = _
        rw [BranchState.len_insert]
        omega

theorem len_branchScope (patterns : List Pattern) : (branchScope patterns).len = patterns.length := by
  rw [branchScope, len_patternScope]
  exact Nat.zero_add _

theorem foldl_remove (names : List String) (state : BranchState) :
    names.foldl BranchState.remove state = state.without names := by
  induction names generalizing state with
  | nil => simp [BranchState.without]
  | cons name names induction =>
      rw [List.foldl_cons, induction]
      simp only [BranchState.without, BranchState.remove, List.filter_filter]
      congr 2
      funext entry
      by_cases isName : entry.1 = name <;> simp [isName]

theorem without_without (state : BranchState) (names : List String) :
    (state.without names).without names = state.without names := by
  simp only [BranchState.without, List.filter_filter]
  congr 2
  funext entry
  exact Bool.and_self _

theorem without_insert {state : BranchState} {name : String} {names : List String}
    (dropped : name ∈ names) : (state.insert name).without names = state.without names := by
  simp [BranchState.without, BranchState.insert, dropped]

theorem without_compilePreStmts {names : List String} :
    ∀ {stmts : List PreStmt} {state inner : BranchState} {ops : List (FastOp W)},
      (∀ name ∈ stmts.filterMap PreStmt.local, name ∈ names) →
      compilePreStmts rt ctx state stmts = some (ops, inner) →
      inner.without names = state.without names
  | [], _, _, _, _, compiled => by
      cases compiled
      rfl
  | stmt :: stmts, state, inner, ops, dropped, compiled => by
      rcases bind_some compiled with ⟨⟨op, next⟩, isFirst, later⟩
      rcases bind_some later with ⟨⟨others, final⟩, isRest, result⟩
      cases result
      cases stmt with
      | letVar name default =>
          rw [List.filterMap_cons, PreStmt.local, List.forall_mem_cons] at dropped
          rcases bind_some isFirst with ⟨value, -, result⟩
          cases result
          exact (without_compilePreStmts dropped.2 isRest).trans (without_insert dropped.1)
      | sideEffect callee args =>
          rw [List.filterMap_cons, PreStmt.local] at dropped
          rcases bind_some isFirst with ⟨folded, -, result⟩
          cases result
          exact without_compilePreStmts dropped isRest

/-- Behind one iteration or more, the names that the loop binds have no slots. -/
theorem state_compileIterations {info : TailLoopInfo} :
    ∀ {count : Nat} {state final : BranchState} {iterations : List (Iteration W)},
      compileIterations rt ctx info state (count + 1) = some (iterations, final) →
      final = state.without (info.preStmts.filterMap PreStmt.local)
  | count, state, final, iterations, compiled => by
      rcases bind_some compiled with ⟨⟨iteration, next⟩, isFirst, later⟩
      rcases bind_some later with ⟨⟨others, last⟩, isRest, result⟩
      cases result
      rcases bind_some isFirst with ⟨cond, -, later⟩
      rcases bind_some later with ⟨⟨pre, inner⟩, isPre, later⟩
      rcases bind_some later with ⟨args, -, result⟩
      cases result
      have first : (info.preStmts.filterMap PreStmt.local).foldl BranchState.remove inner =
          state.without (info.preStmts.filterMap PreStmt.local) :=
        (foldl_remove _ _).trans (without_compilePreStmts (fun _ member => member) isPre)
      rw [first] at isRest
      cases count with
      | zero =>
          cases isRest
          rfl
      | succ count => exact (state_compileIterations isRest).trans (without_without _ _)

theorem len_without_le (state : BranchState) (names : List String) :
    (state.without names).len ≤ state.len := by
  rcases state with ⟨vars⟩
  simp only [BranchState.without, BranchState.len]
  induction vars with
  | nil => exact Nat.le_refl _
  | cons entry vars induction =>
      rw [List.filter_cons, List.foldr_cons]
      split
      · rw [List.foldr_cons]
        omega
      · omega

/-! ## Branches -/

/-- The slots that a branch stores to are below a size that holds the arguments of every
`self(...)` exactly if the branch's frame is. -/
theorem branchStores_iff {size factor : Nat} {patterns : List Pattern} {body : List Expr}
    {emitted : Emitted W}
    (params : ∀ hash, argCount (ctx.branchesForHash ctx.currentMachine hash) ≤ size)
    (fits : patterns.length ≤ size)
    (compiled : compileBranch rt ctx factor patterns body = some emitted) :
    (∀ slot, BranchStores rt ctx factor patterns body slot → slot < size) ↔
      branchPeak ctx factor patterns body ≤ size := by
  have length := len_branchScope patterns
  rw [compileBranch] at compiled
  cases isInfo : unrollInfo ctx factor patterns body with
  | none =>
      rw [isInfo] at compiled
      have framed := framed_body body [] some 0 (branchScope patterns) emitted compiled
      simp only [BranchStores, branchPeak, isInfo]
      constructor
      · intro inside
        by_contra beyond
        have reached := framed.stores size (length.trans_le fits) (Nat.lt_of_not_le beyond)
        exact absurd (inside size reached) (Nat.lt_irrefl _)
      · intro peak slot stores
        have below : slot < max (frameSeq ctx (branchScope patterns) body).peak size :=
          stores_lt params stores
        omega
  | some info =>
      rw [isInfo] at compiled
      rcases bind_some compiled with ⟨⟨iterations, state⟩, isIterations, later⟩
      rcases bind_some later with ⟨exit, isExit, -⟩
      have atLeast : max factor 2 = (max factor 2 - 1) + 1 := by omega
      have left : state =
          (branchScope patterns).without (info.preStmts.filterMap PreStmt.local) := by
        rw [atLeast] at isIterations
        exact state_compileIterations isIterations
      have framed := framed_seq info.exitBody 1 _ exit isExit
      simp only [BranchStores, branchPeak, isInfo]
      constructor
      · intro inside
        refine Nat.max_le.mpr ⟨fits, ?_⟩
        by_contra beyond
        have start : (exitScope info (branchScope patterns) state).len ≤ size := by
          have shorter := len_without_le (branchScope patterns).toBranchState
            (info.preStmts.filterMap PreStmt.local)
          change state.len ≤ size
          rw [left]
          omega
        rw [← left] at beyond
        have reached := framed.stores size start (Nat.lt_of_not_le beyond)
        exact absurd (inside size (.inr ⟨iterations, state, isIterations, reached⟩))
          (Nat.lt_irrefl _)
      · rintro peak slot (isParam | ⟨others, final, isFinal, stores⟩)
        · omega
        · rw [isIterations] at isFinal
          cases isFinal
          have below := stores_lt params stores
          rw [Task.frame] at below
          rw [← left] at peak
          omega

/-! ## Counted branches -/

theorem countExprSlots_le {stmt : Expr} {exprs : List Expr} (member : stmt ∈ exprs) :
    countExprSlots stmt ≤ countSlots exprs := by
  induction exprs with
  | nil => cases member
  | cons first exprs induction =>
      rw [countSlots]
      cases member with
      | head => exact Nat.le_add_right _ _
      | tail _ later => exact (induction later).trans (Nat.le_add_left _ _)

theorem countArmSlots_le {cond : Expr} {branches : List (Expr × List Expr)} {stmt : Expr}
    (isWhen : tailWhen stmt = some (cond, branches)) :
    countArmSlots branches ≤ countExprSlots stmt := by
  unfold tailWhen at isWhen
  split at isWhen
  · cases isWhen
    rw [countExprSlots]
    exact Nat.le_add_left _ _
  · rename_i ty args
    split at isWhen
    · rename_i lastCond lastBranches isLast
      cases isWhen
      have last : countExprSlots (.when cond branches) ≤ countSlots args :=
        countExprSlots_le (List.mem_of_getLast? isLast)
      rw [countExprSlots] at last
      rw [countExprSlots]
      omega
    · cases isWhen
  · cases isWhen

/-- The arms of a loop are among the bodies that the pre-pass counts. -/
theorem exitBody_counted {body : List Expr} {machineIdent : String} {expectedArgCount : Nat}
    {info : TailLoopInfo} (detected : detectTailLoop body machineIdent expectedArgCount = some info) :
    countSlots info.exitBody ≤ countSlots body := by
  rcases detectTailLoop_cases detected with
    ⟨stmt, loop, exit, branches, rfl, isWhen, -, isArm, -, isExit⟩
  have arms := countArmSlots_le isWhen
  rw [← isExit]
  have inArms : countSlots exit.2 ≤ countArmSlots branches := by
    rcases isArm with rfl | rfl
    · rw [countArmSlots, countArmSlots, countArmSlots]
      omega
    · rw [countArmSlots]
      omega
  rw [countSlots, countSlots]
  omega

theorem patternScope_append (patterns : List Pattern) (last : Pattern) (scope : Scope) (pos : Nat) :
    patternScope scope pos (patterns ++ [last]) =
      patternScope (patternScope scope pos patterns) (pos + patterns.length) [last] := by
  induction patterns generalizing scope pos with
  | nil => rfl
  | cons pattern patterns induction =>
      have same : pos + 1 + patterns.length = pos + (patterns.length + 1) := by omega
      rw [List.cons_append, patternScope, induction, List.length_cons, same]
      rfl

theorem get_without {state : BranchState} {names : List String} {name : String}
    (kept : name ∉ names) : (state.without names).get name = state.get name := by
  rcases state with ⟨vars⟩
  simp only [BranchState.without, BranchState.get]
  induction vars with
  | nil => rfl
  | cons entry vars induction =>
      rw [List.filter_cons]
      rcases entry with ⟨other, slot⟩
      by_cases isName : name = other
      · subst isName
        simp [kept]
      · split
        · rw [List.lookup_cons, List.lookup_cons, beq_false_of_ne isName]
          exact induction
        · rw [List.lookup_cons, beq_false_of_ne isName]
          exact induction

/-- The slot of the last parameter stays taken if no `let` of the loop has its name. -/
theorem params_le_left {patterns : List Pattern} {names : List String}
    (named : patterns.all fun pattern => !(pattern.isWildcard || pattern.isLiteralGuard))
    (kept : ∀ pattern ∈ patterns.getLast?, pattern.ident ∉ names) :
    patterns.length ≤ ((branchScope patterns).without names).len := by
  rcases List.eq_nil_or_concat patterns with rfl | ⟨others, last, rfl⟩
  · exact Nat.zero_le _
  · have isNamed : (last.isWildcard || last.isLiteralGuard) = false := by
      rw [List.concat_eq_append, List.all_append, List.all_cons, Bool.and_eq_true,
        Bool.and_eq_true, Bool.not_eq_true'] at named
      exact named.2.1
    have atSlot : (branchScope (others.concat last)).get last.ident = some others.length := by
      rw [List.concat_eq_append, branchScope, patternScope_append, patternScope, isNamed]
      apply (BranchState.get_insert _ _).trans
      exact congrArg some (len_branchScope others)
    rw [← get_without (kept last (by simp))] at atSlot
    have taken := BranchState.slot_lt_len atSlot
    rw [List.length_concat]
    exact taken

/-- What the pipeline counts for a branch holds its parameters and all its stores, and is no
more than what the pre-pass counts. -/
theorem counted_branch {params factor : Nat} {patterns : List Pattern} {body : List Expr}
    {emitted : Emitted W} (counted : CountedBranch ctx factor params patterns body)
    (compiled : compileBranch rt ctx factor patterns body = some emitted) :
    patterns.length ≤ emitted.scope.len ∧
      emitted.scope.len ≤ countBranchVars patterns body ∧
      branchPeak ctx factor patterns body ≤ max emitted.scope.len params := by
  have length := len_branchScope patterns
  rw [CountedBranch] at counted
  rw [compileBranch] at compiled
  rw [branchPeak, countBranchVars]
  cases isInfo : unrollInfo ctx factor patterns body with
  | none =>
      rw [isInfo] at compiled counted
      dsimp only at compiled counted ⊢
      have within : Within _ _ (namesSeq body) (frameSeq ctx (branchScope patterns) body) :=
        within_seq body counted (branchScope patterns)
      have same := (framed_body body [] some 0 (branchScope patterns) emitted compiled).scope
      rw [Task.frame] at same
      have names := namesSeq_le_count body counted
      have grows := within.grows
      have bound := within.counted
      rw [same]
      exact ⟨by omega, by omega, within.peak⟩
  | some info =>
      rw [isInfo] at compiled counted
      dsimp only at compiled counted ⊢
      rcases bind_some compiled with ⟨⟨iterations, state⟩, isIterations, later⟩
      rcases bind_some later with ⟨exit, isExit, result⟩
      cases result
      rw [unrollInfo] at isInfo
      split at isInfo
      · rename_i shape
        have left : state =
            (branchScope patterns).without (info.preStmts.filterMap PreStmt.local) := by
          rw [show max factor 2 = (max factor 2 - 1) + 1 by omega] at isIterations
          exact state_compileIterations isIterations
        have atLeast := params_le_left shape.2 counted.1
        have atMost := len_without_le (branchScope patterns).toBranchState
          (info.preStmts.filterMap PreStmt.local)
        have within : Within _ _ (namesSeq info.exitBody) (frameSeq ctx _ info.exitBody) :=
          within_seq info.exitBody counted.2 (exitScope info (branchScope patterns) state)
        have same := (framed_seq info.exitBody 1 _ exit isExit).scope
        rw [Task.frame] at same
        have names := namesSeq_le_count info.exitBody counted.2
        have arms := exitBody_counted isInfo
        have grows := within.grows
        have bound := within.counted
        have peak := within.peak
        have start : (exitScope info (branchScope patterns) state).len = state.len := rfl
        rw [← left] at atLeast atMost ⊢
        dsimp only
        rw [same]
        refine ⟨by omega, by omega, by omega⟩
      · cases isInfo

/-- The parameters, and what the pipeline counts, are at most the registry's count. -/
theorem counted_varCount {params factor id : Nat} (done : Nat) {branch : List Pattern × List Expr}
    {emitted : Emitted W} (counted : CountedBranch { ctx with currentBranch := id } factor params
      branch.1 branch.2)
    (compiled : compileParsed rt ctx factor id branch = some emitted) :
    emitted.scope.len ≤ varCount rt ctx factor done (branch, id) := by
  have facts := counted_branch counted compiled
  rw [varCount]
  split
  · dsimp only
    rw [compiled]
    exact Nat.le_refl _
  · exact facts.2.1

theorem varCount_le {factor done id : Nat} {machine : ParsedMachine}
    {branch : List Pattern × List Expr} (atId : machine[id]? = some branch) :
    varCount rt ctx factor done (branch, id) ≤ maxBranchVarCount rt ctx factor done machine := by
  have member : (branch, id) ∈ machine.zipIdx := List.mem_zipIdx_iff_getElem?.mpr atId
  have counted : varCount rt ctx factor done (branch, id) ≤
      (machine.zipIdx.map (varCount rt ctx factor done)).foldr max 0 :=
    List.le_max_of_le' 0 (List.mem_map_of_mem member) (Nat.le_refl _)
  exact counted.trans (Nat.le_max_right _ _)

/-- A machine whose `wait`s are all counted. -/
def CountedMachine (ctx : CompilerCtx) (factor : Nat) (machine : ParsedMachine) : Prop :=
  ∀ id branch, machine[id]? = some branch → CountedBranch { ctx with currentBranch := id } factor
    (maxParams machine) branch.1 branch.2

theorem maxParams_le {factor : Nat} (done : Nat) {machine : ParsedMachine}
    (counted : CountedMachine ctx factor machine)
    (compiles : ∀ id branch, machine[id]? = some branch →
      (compileParsed rt ctx factor id branch).isSome) :
    maxParams machine ≤ maxBranchVarCount rt ctx factor done machine := by
  refine Nat.max_le.mpr ⟨Nat.le_max_left _ _, List.max_le_of_forall_le _ _ fun count isCount => ?_⟩
  rcases List.mem_map.mp isCount with ⟨branch, member, rfl⟩
  rcases List.getElem?_of_mem member with ⟨id, atId⟩
  rcases Option.isSome_iff_exists.mp (compiles id branch atId) with ⟨emitted, compiled⟩
  have params := (counted_branch (counted id branch atId) compiled).1
  exact params.trans ((counted_varCount done (counted id branch atId) compiled).trans (varCount_le atId))

/-- In a machine whose `wait`s are counted, every slot that the code of a branch stores to is
below the size that spawns allocate, however many of the branches are compiled by then. -/
theorem branch_in_frame {machine : ParsedMachine} {factor done id : Nat}
    {branch : List Pattern × List Expr} (indexed : Indexed ctx machine)
    (counted : CountedMachine ctx factor machine)
    (compiles : ∀ id branch, machine[id]? = some branch →
      (compileParsed rt ctx factor id branch).isSome)
    (atId : machine[id]? = some branch) :
    ∀ slot, BranchStores rt { ctx with currentBranch := id } factor branch.1 branch.2 slot →
      slot < maxBranchVarCount rt ctx factor done machine := by
  have params := maxParams_le done counted compiles
  rcases Option.isSome_iff_exists.mp (compiles id branch atId) with ⟨emitted, compiled⟩
  have isCounted := counted id branch atId
  have facts := counted_branch isCounted compiled
  have recorded := (counted_varCount done isCounted compiled).trans (varCount_le atId)
  apply (branchStores_iff _ (facts.1.trans recorded) compiled).mpr
  · exact facts.2.2.trans (Nat.max_le.mpr ⟨recorded, params⟩)
  · intro hash
    have alsoIndexed : Indexed { ctx with currentBranch := id } machine := indexed
    exact (argCount_le_maxParams alsoIndexed hash).trans params

/-! ## Machines -/

def i64Pattern (name : String) (kind : PatternKind) : Pattern := ⟨name, .plain "i64", kind⟩

/-- The compiler's context in a machine with one parameter that has no name. -/
def oneParameter : CompilerCtx :=
  { CompilerCtx.bare with
    machines := fun _ => some ⟨[⟨[i64Pattern "n" .wildcard], by decide⟩], by simp⟩ }

def letNumber (name : String) : Expr := .letVar name (.plain "i64") (some (.num "1" (.plain "i64")))

/-- A `let` for each of two arms of a message. -/
def twoHandlers : List Pattern × List Expr :=
  ([i64Pattern "n" .wildcard],
    [.wait [([i64Pattern "n" (.numGuard 1)], [letNumber "a", letNumber "b"]),
      ([i64Pattern "n" (.numGuard 2)], [letNumber "c", letNumber "d"])] []])

/-- A handler that takes two words, beside one that names only one. -/
def longMessage : List Pattern × List Expr :=
  ([i64Pattern "n" .wildcard],
    [.wait [([i64Pattern "a" .var], [.bool true]),
      ([i64Pattern "n" (.numGuard 7), i64Pattern "b" .var, i64Pattern "c" .var], [.bool true])] []])

/-- The pre-pass takes the larger of the handlers, the lowering both: the store is two slots
behind the actor's variables. What the pipeline counts misses the words that only a later
handler takes. -/
theorem counts_overrun :
    (Indexed oneParameter [twoHandlers] ∧
      (compileParsed RtFuncs.idle oneParameter 1 0 twoHandlers).isSome ∧
      maxBranchVarCount RtFuncs.idle oneParameter 1 0 [twoHandlers] = 3 ∧
      BranchStores RtFuncs.idle oneParameter 1 twoHandlers.1 twoHandlers.2 4) ∧
    Indexed oneParameter [longMessage] ∧
      (compileParsed RtFuncs.idle oneParameter 1 0 longMessage).isSome ∧
      maxBranchVarCount RtFuncs.idle oneParameter 1 1 [longMessage] = 2 ∧
      BranchStores RtFuncs.idle oneParameter 1 longMessage.1 longMessage.2 2 := by
  have accepted : (compileBranch RtFuncs.idle oneParameter 1 twoHandlers.1 twoHandlers.2).isSome :=
    by decide +kernel
  have alsoAccepted :
      (compileBranch RtFuncs.idle oneParameter 1 longMessage.1 longMessage.2).isSome := by
    decide +kernel
  refine ⟨⟨⟨_, rfl, rfl⟩, accepted, by decide, ?_⟩, ⟨_, rfl, rfl⟩, alsoAccepted,
    by decide +kernel, ?_⟩
  · rcases Option.isSome_iff_exists.mp accepted with ⟨emitted, compiled⟩
    have framed := framed_body twoHandlers.2 [] some 0 (branchScope twoHandlers.1) emitted compiled
    exact framed.stores 4 (by decide +kernel) (by decide +kernel)
  · rcases Option.isSome_iff_exists.mp alsoAccepted with ⟨emitted, compiled⟩
    have framed := framed_body longMessage.2 [] some 0 (branchScope longMessage.1) emitted compiled
    exact framed.stores 2 (by decide +kernel) (by decide +kernel)

/-- Messages of two words with a `let` for them, beside a guard. -/
def pairMessage : List Pattern × List Expr :=
  ([i64Pattern "n" .wildcard],
    [.wait [([i64Pattern "n" (.numGuard 7)], [.bool true]),
      ([i64Pattern "a" .var, i64Pattern "b" .var], [letNumber "c"])] []])

theorem pairMessage_in_frame : maxBranchVarCount RtFuncs.idle oneParameter 1 1 [pairMessage] = 4 ∧
    ∀ slot, BranchStores RtFuncs.idle oneParameter 1 pairMessage.1 pairMessage.2 slot →
      slot < maxBranchVarCount RtFuncs.idle oneParameter 1 1 [pairMessage] := by
  have accepted : (compileParsed RtFuncs.idle oneParameter 1 0 pairMessage).isSome := by
    decide +kernel
  have counted : CountedMachine oneParameter 1 [pairMessage] := by
    intro id branch atId
    cases id with
    | zero =>
        cases atId
        change CountedSeq _ pairMessage.2
        simp [pairMessage, letNumber, i64Pattern, CountedSeq, CountedExpr, CountedHandlers,
          WaitCounted, registeredNames, patSlots, namesHandlers, namesSeq, namesExpr, endsSequence,
          Handler.guard, Pattern.guardI64, Pattern.isWildcard, Pattern.isLiteralGuard,
          Pattern.guardStr]
    | succ id => cases atId
  have indexed : Indexed oneParameter [pairMessage] := ⟨_, rfl, rfl⟩
  have atZero : [pairMessage][0]? = some pairMessage := rfl
  refine ⟨by decide +kernel, branch_in_frame indexed counted ?_ atZero⟩
  intro id branch atId
  cases id with
  | zero =>
      cases atId
      exact accepted
  | succ id => cases atId

end LakeNative.Memory

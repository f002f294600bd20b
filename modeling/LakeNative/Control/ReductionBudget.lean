import LakeNative.Compiler.Machine

/-! # The reduction budget

A call of a machine function spends one reduction for each block. An unrolled loop spends them
for all its iterations at once, so that the budget holds where it starts with enough left and
is not left in the middle.
-/

namespace LakeNative.Control

open LakeNative.Runtime LakeNative.Compiler LakeNative.Transitions

variable {W : Type} {rt : RtFuncs W} {ctx : CompilerCtx}

/-- No more reductions than the quantum have been executed, and the counter is not negative. -/
def WithinQuantum (quantum : Int) (call : Call W) : Prop :=
  call.executed ≤ quantum ∧ 0 ≤ call.remaining

variable (rt) in
/-- Where an unrolled loop is next, its condition fails at once, or it holds for all iterations
and there is a reduction left for each of them. -/
def LoopAffordable (machine : List (BranchCode W)) (unrollFactor : Nat) (call : Call W)
    (_ : Bool) : Prop :=
  ∀ loop final count, call.AtLoop machine loop →
    runChunk rt loop.continueWhenTruthy call.exec loop.iterations = some (final, count) →
    count = 0 ∨ count = max unrollFactor 2 ∧ (max unrollFactor 2 : Nat) ≤ call.remaining

/-- Every reduction was paid for. Of a running call, some are left. -/
structure Balanced (quantum : Int) (call : Call W) : Prop where
  within : WithinQuantum quantum call
  paid : call.stopped = none → call.executed + call.remaining = quantum ∧ 1 ≤ call.remaining

theorem balanced_start {quantum : Int} (positive : 1 ≤ quantum) (exec : ExecCtx W) (blockId : Nat) :
    Balanced quantum (Call.start quantum exec blockId) where
  within := by
    constructor <;> dsimp only [Call.start] <;> omega
  paid _ := ⟨Int.zero_add quantum, positive⟩

theorem balanced_stop {quantum : Int} {call : Call W} {code : StopCode}
    (within : WithinQuantum quantum call) : Balanced quantum (call.stop code) where
  within := within
  paid := nofun

/-- A call that has paid for all but its last reduction pays for that one. -/
theorem balanced_quantumLoop {quantum : Int} {call : Call W} (overBudget : Bool) (next : Nat)
    (due : call.executed + call.remaining = quantum + 1) (left : 1 ≤ call.remaining) :
    Balanced quantum (call.quantumLoop rt overBudget next) := by
  have within : WithinQuantum quantum { call with blockId := next, remaining := call.remaining - 1 } := by
    constructor <;> dsimp only <;> omega
  rw [Call.quantumLoop]
  dsimp only
  split
  · apply balanced_stop
    constructor <;> dsimp only <;> omega
  · split
    · exact balanced_stop within
    · rename_i goesOn
      refine ⟨within, fun _ => ?_⟩
      rw [not_or] at goesOn
      dsimp only
      omega

theorem balanced_backEdge {quantum : Int} {call : Call W}
    (due : call.executed + call.remaining = quantum + 1) (left : 1 ≤ call.remaining) :
    Balanced quantum call.backEdge := by
  have within : WithinQuantum quantum { call with blockId := 0, remaining := call.remaining - 1 } := by
    constructor <;> dsimp only <;> omega
  rw [Call.backEdge]
  dsimp only
  split
  · exact balanced_stop within
  · refine ⟨within, fun _ => ?_⟩
    dsimp only
    omega

theorem balanced_loopEdge {quantum : Int} {call : Call W} {unrollFactor : Nat}
    (due : call.executed + call.remaining = quantum + unrollFactor)
    (left : (unrollFactor : Int) ≤ call.remaining) : Balanced quantum (call.loopEdge unrollFactor) := by
  have within : WithinQuantum quantum
      { call with blockId := 0, remaining := call.remaining - unrollFactor } := by
    constructor <;> dsimp only <;> omega
  rw [Call.loopEdge]
  dsimp only
  split
  · exact balanced_stop within
  · refine ⟨within, fun _ => ?_⟩
    dsimp only
    omega

/-- The chunk of a compiled loop has as many iterations as the branch is unrolled. -/
theorem length_compileIterations {info : TailLoopInfo} {count : Nat} {state final : BranchState}
    {iterations : List (Iteration W)}
    (compiled : compileIterations rt ctx info state count = some (iterations, final)) :
    iterations.length = count := by
  induction count generalizing state iterations with
  | zero =>
      cases compiled
      rfl
  | succ count induction =>
      rcases Option.bind_eq_some_iff.mp compiled with ⟨⟨iteration, next⟩, -, later⟩
      rcases Option.bind_eq_some_iff.mp later with ⟨⟨others, last⟩, isRest, result⟩
      cases result
      rw [List.length_cons, induction isRest]

theorem length_loop {factor : Nat} {branches : List (List Pattern × List Expr)}
    {machine : List (BranchCode W)} (compiled : compileMachine rt ctx factor branches = some machine)
    {call : Call W} {loop : UnrolledLoop W} (isLoop : call.AtLoop machine loop) :
    loop.iterations.length = max factor 2 := by
  rcases isLoop with ⟨branch, isBranch, hasLoop, -⟩
  rw [compileMachine] at compiled
  have mapped := mapM_eq_some_iff.mp compiled
  have member : some branch ∈ machine.map some :=
    List.mem_map_of_mem (List.mem_of_getElem? isBranch)
  rw [← mapped] at member
  rcases List.mem_map.mp member with ⟨source, -, isCompiled⟩
  rcases Option.bind_eq_some_iff.mp isCompiled with ⟨emitted, -, later⟩
  split at later
  · rcases Option.bind_eq_some_iff.mp later with ⟨⟨iterations, state⟩, isIterations, result⟩
    cases result
    cases hasLoop
    exact length_compileIterations isIterations
  · cases later
    cases hasLoop

/-- One step pays for what it executes. -/
theorem balanced_step {factor : Nat} {branches : List (List Pattern × List Expr)}
    {machine : List (BranchCode W)} (compiled : compileMachine rt ctx factor branches = some machine)
    {quantum : Int} {call next : Call W} {overBudget : Bool} (balanced : Balanced quantum call)
    (affordable : LoopAffordable rt machine factor call overBudget)
    (taken : CallStep rt machine call overBudget next) : Balanced quantum next := by
  have within := balanced.within
  have running : call.stopped = none := by
    cases taken <;> assumption
  rcases balanced.paid running with ⟨paid, left⟩
  rcases within with ⟨executed, remaining⟩
  have oneMore : ((call.executed + 1 : Nat) : Int) + call.remaining = quantum + 1 := by omega
  cases taken with
  | noBranch _ missing => exact balanced_stop balanced.within
  | noBlock _ isBranch missing => exact balanced_stop balanced.within
  | goto _ isBlock runs => exact balanced_quantumLoop overBudget _ oneMore left
  | wait _ isBlock runs =>
      apply balanced_stop
      constructor <;> dsimp only [Call.ran] <;> omega
  | park _ isBlock runs =>
      apply balanced_stop
      constructor <;> dsimp only [Call.ran] <;> omega
  | enter _ isBlock runs => exact balanced_quantumLoop overBudget 0 oneMore left
  | enterSame _ isBlock runs same => exact balanced_backEdge oneMore left
  | @chunk loop final _ isLoop runs =>
      have length := length_loop compiled isLoop
      rcases affordable loop final _ isLoop runs with none | ⟨-, enough⟩
      · omega
      · refine balanced_loopEdge ?_ (by rwa [length])
        dsimp only [Call.ran]
        omega
  | @leave loop final count _ isLoop runs short =>
      have length := length_loop compiled isLoop
      rcases affordable loop final count isLoop runs with none | ⟨all, -⟩
      · subst none
        exact balanced_quantumLoop overBudget 1 oneMore left
      · omega

/-- A call executes no more reductions than its quantum, and its counter is never negative, as
long as its unrolled loops are affordable where they start. -/
theorem quantum_kept {factor : Nat} {branches : List (List Pattern × List Expr)}
    {machine : List (BranchCode W)} (compiled : compileMachine rt ctx factor branches = some machine)
    {quantum : Int} (positive : 1 ≤ quantum) {exec : ExecCtx W} {blockId : Nat}
    {history : List (Stage (Call W) Bool)} {final : Call W}
    (run : Run (CallStep rt machine) (.start quantum exec blockId) history final)
    (meets : Meets (LoopAffordable rt machine factor) history) :
    Throughout (WithinQuantum quantum) history final := by
  have balanced := run.invariant_of_meets meets (balanced_start positive exec blockId)
    fun _ _ _ before affordable taken => balanced_step compiled before affordable taken
  exact ⟨fun stage member => (balanced.1 stage member).within, balanced.2.within⟩

/-! ## One chunk -/

/-- `self(n)` for ever. -/
def spinning : List Pattern × List Expr :=
  ([⟨"n", .plain "i64", .var⟩],
    [.when (.bool true) [(.bool true, [.jump (.var "self" .unknown) [.var "n" (.plain "i64")]]),
      (.bool false, [])]])

def atStart : ExecCtx Unit := ⟨Actor.zeroed, fun _ => 0, 0, ()⟩

/-- A quantum of two pays for a chunk of two iterations. -/
theorem chunk_affordable :
    ∃ machine, compileMachine RtFuncs.idle .bare 2 [spinning] = some machine ∧
      ∃ history final, history.length = 1 ∧
        Run (CallStep RtFuncs.idle machine) (.start 2 atStart 0) history final ∧
        Throughout (WithinQuantum 2) history final := by
  refine ⟨_, rfl, [⟨.start 2 atStart 0, false⟩], _, rfl,
    .next .refl (.chunk rfl ⟨_, rfl, rfl, rfl⟩ rfl), ?_⟩
  refine @quantum_kept _ RtFuncs.idle .bare 2 [spinning] _ rfl 2 (by decide) atStart 0 _ _
    (.next .refl (.chunk rfl ⟨_, rfl, rfl, rfl⟩ rfl)) ?_
  rw [meets_cons]
  refine ⟨?_, meets_nil _⟩
  rintro loop final count ⟨branch, isBranch, hasLoop, -⟩ runs
  cases isBranch
  cases hasLoop
  cases runs
  exact .inr ⟨rfl, Int.le_refl 2⟩

/-- A quantum of one, and a chunk of two iterations. -/
theorem chunk_overdraws :
    ∃ machine, compileMachine RtFuncs.idle .bare 2 [spinning] = some machine ∧
      ∃ next, CallStep RtFuncs.idle machine (.start 1 atStart 0) false next ∧
        next.executed = 2 ∧ next.remaining = -1 ∧ ¬ WithinQuantum 1 next := by
  refine ⟨_, rfl, _, .chunk rfl ⟨_, rfl, rfl, rfl⟩ rfl, rfl, rfl, ?_⟩
  rintro ⟨executed, -⟩
  exact absurd executed (by decide)

end LakeNative.Control

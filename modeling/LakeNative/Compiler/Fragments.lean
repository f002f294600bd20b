import LakeNative.Compiler.Derivation
import LakeNative.Compiler.Unroll
import LakeNative.Library.NumberedCode

/-! # Where compiled blocks lead

Whatever a statement is compiled to lies between the number it is given and the first
one that it leaves, and goes on within that range or behind it.
-/

namespace LakeNative.Compiler

open LakeNative.Runtime LakeNative.NumberedCode

variable {W : Type} {rt : RtFuncs W} {ctx : CompilerCtx}

/-! ## Single blocks -/

/-- A block can go on with the block of a number. -/
def Leads (block : Block W) (next : Nat) : Prop :=
  ∃ exec, (block exec).2.resume = some next

theorem leads_of_blockRuns (block : Block W) (before : Point W) (exit : Exit) (after : Point W)
    (runs : BlockRuns rt block before exit after) : Leads block after.blockId := by
  cases runs with
  | @block id next exec ran resumed exit runs alive resumes others =>
      refine ⟨exec, ?_⟩
      rw [runs]
      exact resumes

/-- A block that goes on with one number only. -/
def GoesTo (block : Block W) (next : Nat) : Prop :=
  ∀ exec id, (block exec).2.resume = some id → id = next

theorem orTrap_resume {exec : ExecCtx W} {result : Option (ExecCtx W × Exit)} {next : Nat}
    (resumes : (orTrap exec result).2.resume = some next) :
    ∃ after, result = some after ∧ after.2.resume = some next := by
  cases result with
  | none => cases resumes
  | some after => exact ⟨after, rfl, resumes⟩

theorem goesTo_const {change : ExecCtx W → ExecCtx W} {next : Nat} :
    GoesTo (fun exec => (change exec, .goto next)) next :=
  fun _ _ resumes => (Option.some.inj resumes).symm

theorem goesTo_orTrap {change : ExecCtx W → Option (ExecCtx W)} {next : Nat} :
    GoesTo (fun exec => orTrap exec ((change exec).map fun after => (after, .goto next))) next := by
  intro exec id resumes
  rcases orTrap_resume resumes with ⟨after, isAfter, resumes⟩
  rcases Option.map_eq_some_iff.mp isAfter with ⟨changed, -, rfl⟩
  exact (Option.some.inj resumes).symm

theorem goesTo_stageBlock (id slot : Nat) : GoesTo (stageBlock id slot : Block W) (id + 1) :=
  goesTo_const

theorem goesTo_rtCallBlock (id : Nat) (callee : String) (base count : Nat) :
    GoesTo (rtCallBlock rt id callee base count) (id + 1) := by
  intro exec next resumes
  rw [rtCallBlock] at resumes
  split at resumes
  · exact (Option.some.inj resumes).symm
  · exact (Option.some.inj resumes).symm

theorem not_leads_fusedSelf {candidates : List BranchInfo}
    {select : Memory → (Nat → Word) → Nat} {argTypes : List String} {folded : List Folded}
    {next : Nat} : ¬ Leads (fusedSelfBlock rt ctx candidates select argTypes folded) next := by
  rintro ⟨exec, resumes⟩
  rcases orTrap_resume resumes with ⟨after, isAfter, resumes⟩
  rcases bind_some isAfter with ⟨values, -, result⟩
  cases result
  cases resumes

theorem leads_whenBlock {select : Memory → Word → Option Nat} {starts : List Nat}
    {afterWhen next : Nat} (leads : Leads (whenBlock rt select starts afterWhen) next) :
    next = afterWhen ∨ next ∈ starts := by
  rcases leads with ⟨exec, resumes⟩
  have isNext := Option.some.inj resumes
  cases chosen : (select (rt.bytes exec.world) exec.actor.tempVal).bind fun arm => starts[arm]? with
  | none =>
      rw [chosen] at isNext
      exact .inl isNext.symm
  | some start =>
      rw [chosen] at isNext
      rcases Option.bind_eq_some_iff.mp chosen with ⟨arm, -, atArm⟩
      exact .inr (isNext ▸ List.mem_of_getElem? atArm)

theorem leads_chunkBlock {info : TailLoopInfo} {paramCount : Nat} {iterations : List (Iteration W)}
    {next : Nat} (leads : Leads (chunkBlock rt info paramCount iterations) next) :
    next = 0 ∨ next = 1 := by
  rcases leads with ⟨exec, resumes⟩
  rcases orTrap_resume resumes with ⟨after, isAfter, resumes⟩
  rcases Option.map_eq_some_iff.mp isAfter with ⟨chunk, -, rfl⟩
  have isNext := Option.some.inj resumes
  split at isNext
  · exact .inl isNext.symm
  · exact .inr isNext.symm

theorem leads_waitBlock {wait : WaitExpr} {dispatch : Word → Option Nat} {filter : List Folded}
    {starts : List Nat} {id next : Nat}
    (leads : Leads (waitBlock rt wait dispatch filter starts id) next) :
    next = id ∨ next ∈ starts := by
  rcases leads with ⟨exec, resumes⟩
  rw [waitBlock] at resumes
  split at resumes
  · exact .inl (Option.some.inj resumes).symm
  · rcases orTrap_resume resumes with ⟨after, isAfter, resumes⟩
    rcases Option.map_eq_some_iff.mp isAfter with ⟨handler, -, rfl⟩
    have isNext := Option.some.inj resumes
    cases chosen : handler.bind fun handler => starts[handler]? with
    | none =>
        rw [chosen] at isNext
        exact .inl isNext.symm
    | some start =>
        rw [chosen] at isNext
        rcases Option.bind_eq_some_iff.mp chosen with ⟨handler, -, atHandler⟩
        exact .inr (isNext ▸ List.mem_of_getElem? atHandler)

/-! ## Statements of one block -/

/-- What one statement is compiled to where it is one block. -/
structure OneBlock (id : Nat) (emitted : Emitted W) : Prop where
  nextId : emitted.nextId = id + 1
  code : ∃ block, emitted.code = [(id, block)] ∧ ∀ next, Leads block next → next = id + 1
  noStarts : emitted.starts = []
  noRedirects : emitted.redirects = []

theorem oneBlock_of_goesTo {id : Nat} {emitted : Emitted W} {block : Block W}
    (nextId : emitted.nextId = id + 1) (code : emitted.code = [(id, block)])
    (noStarts : emitted.starts = []) (noRedirects : emitted.redirects = [])
    (goes : GoesTo block (id + 1)) : OneBlock id emitted where
  nextId := nextId
  code := ⟨block, code, fun next ⟨exec, resumes⟩ => goes exec next resumes⟩
  noStarts := noStarts
  noRedirects := noRedirects

theorem oneBlock_pure {id : Nat} {scope : Scope} {stmt : Expr} {emitted : Emitted W}
    (compiled : compilePure rt ctx id scope stmt = some emitted) : OneBlock id emitted := by
  rcases bind_some compiled with ⟨⟨op, added⟩, -, result⟩
  cases result
  exact oneBlock_of_goesTo rfl rfl rfl rfl goesTo_orTrap

theorem oneBlock_tuple {id : Nat} {scope : Scope} {elems : List Expr} {emitted : Emitted W}
    (compiled : compileTuple rt ctx id scope elems = some emitted) : OneBlock id emitted := by
  rcases bind_some compiled with ⟨folded, -, result⟩
  cases result
  apply oneBlock_of_goesTo rfl rfl rfl rfl
  intro exec next resumes
  rcases orTrap_resume resumes with ⟨after, isAfter, resumes⟩
  rcases bind_some isAfter with ⟨filled, -, result⟩
  cases result
  exact (Option.some.inj resumes).symm

theorem oneBlock_fusedRt {id : Nat} {scope : Scope} {callee : String} {args : List Expr}
    {emitted : Emitted W}
    (compiled : compileFusedRtCall rt ctx id scope callee args = some emitted) :
    OneBlock id emitted := by
  rcases bind_some compiled with ⟨folded, -, result⟩
  cases result
  apply oneBlock_of_goesTo rfl rfl rfl rfl
  intro exec next resumes
  rcases orTrap_resume resumes with ⟨after, isAfter, resumes⟩
  rcases bind_some isAfter with ⟨values, -, result⟩
  cases result
  exact (Option.some.inj resumes).symm

theorem oneBlock_fusedSelf {id : Nat} {scope : Scope} {args : List Expr} {emitted : Emitted W}
    (compiled : compileFusedSelfCall rt ctx id scope args = some emitted) :
    OneBlock id emitted := by
  rcases bind_some compiled with ⟨folded, -, result⟩
  rcases bind_some result with ⟨select, -, result⟩
  cases result
  exact ⟨rfl, ⟨_, rfl, fun _ leads => absurd leads not_leads_fusedSelf⟩, rfl, rfl⟩

theorem oneBlock_call {id : Nat} {scope : Scope} {callee : String} {ty : Ty} {args : List Expr}
    {emitted : Emitted W} (compiled : compileCall rt ctx id scope callee ty args = some emitted) :
    OneBlock id emitted := by
  rw [compileCall] at compiled
  split at compiled
  · cases compiled
    exact oneBlock_of_goesTo rfl rfl rfl rfl (goesTo_rtCallBlock _ _ _ _)
  · dsimp only at compiled
    split at compiled
    · cases compiled
      exact oneBlock_of_goesTo rfl rfl rfl rfl goesTo_const
    · rcases bind_some compiled with ⟨select, -, result⟩
      split at result
      · cases result
        refine ⟨rfl, ⟨_, rfl, ?_⟩, rfl, rfl⟩
        rintro next ⟨exec, resumes⟩
        cases resumes
      · cases result
        exact oneBlock_of_goesTo rfl rfl rfl rfl goesTo_const

theorem oneBlock_string (id : Nat) (scope : Scope) (text : String) :
    OneBlock id (compileString rt id scope text) :=
  oneBlock_of_goesTo rfl rfl rfl rfl goesTo_const

/-! ## All statements -/

/-- A task takes no number below `first`, its open run of statements included. -/
def Task.From (first : Nat) : Task W → Prop
  | .expr id _ _ | .args _ _ _ id _ _ | .seq id _ _ | .arms id _ _ | .handlers id _ _ => first ≤ id
  | .body run _ id _ _ => first ≤ id ∧ ∀ earlier ∈ run, first ≤ earlier ∧ earlier < id

/-- What is emitted is a fragment up to the first number that is left. -/
structure Laid (first : Nat) (emitted : Emitted W) : Prop where
  fragment : Fragment Leads first emitted.nextId emitted.code
  starts : ∀ start ∈ emitted.starts, first ≤ start ∧ start ≤ emitted.nextId
  redirects : ∀ exit ∈ emitted.redirects, first ≤ exit ∧ exit < emitted.nextId

theorem nextId_of_outcome {emitted : Emitted W} {outcome : StmtOutcome}
    (isOutcome : emitted.outcome = outcome) : emitted.nextId = outcome.nextAvailable := by
  rw [Emitted.nextId, isOutcome]

namespace Laid

variable {first : Nat}

/-- Where no bodies start, the fragment says all. -/
theorem of_fragment {emitted : Emitted W} (fragment : Fragment Leads first emitted.nextId emitted.code)
    (noStarts : emitted.starts = []) (noRedirects : emitted.redirects = []) :
    Laid first emitted where
  fragment := fragment
  starts := by
    rw [noStarts]
    nofun
  redirects := by
    rw [noRedirects]
    nofun

theorem of_oneBlock {id : Nat} {emitted : Emitted W} (isOne : OneBlock id emitted)
    (low : first ≤ id) : Laid first emitted := by
  rcases isOne with ⟨nextId, ⟨block, isCode, leads⟩, noStarts, noRedirects⟩
  refine .of_fragment ?_ noStarts noRedirects
  rw [isCode, nextId]
  refine .single low (Nat.lt_succ_self id) fun next isNext => ?_
  rw [leads next isNext]
  omega

/-- The fragment up to the number that the outcome names. -/
theorem upTo {emitted : Emitted W} (laid : Laid first emitted) {outcome : StmtOutcome}
    (isOutcome : emitted.outcome = outcome) :
    Fragment Leads first outcome.nextAvailable emitted.code := by
  rw [← nextId_of_outcome isOutcome]
  exact laid.fragment

theorem upToEither {emitted : Emitted W} (laid : Laid first emitted) {outcome other : StmtOutcome}
    (isEither : emitted.outcome = outcome ∨ emitted.outcome = other)
    (same : outcome.nextAvailable = other.nextAvailable := by rfl) :
    Fragment Leads first outcome.nextAvailable emitted.code := by
  rcases isEither with isOutcome | isOther
  · exact laid.upTo isOutcome
  · rw [same]
    exact laid.upTo isOther

/-- Only the number in the outcome matters. -/
theorem renamed {emitted : Emitted W} (laid : Laid first emitted) {outcome : StmtOutcome}
    (same : emitted.nextId = outcome.nextAvailable) : Laid first { emitted with outcome := outcome } := by
  rcases laid with ⟨fragment, starts, redirects⟩
  rw [same] at fragment starts redirects
  exact ⟨fragment, starts, redirects⟩

end Laid

/-- A block that goes on with the next number. -/
theorem fragment_goesTo {first id : Nat} {block : Block W} (low : first ≤ id)
    (goes : GoesTo block (id + 1)) : Fragment Leads first (id + 1) [(id, block)] := by
  refine .single low (Nat.lt_succ_self id) fun next ⟨exec, resumes⟩ => ?_
  rw [goes exec next resumes]
  omega

theorem fragment_fastCode {first id : Nat} {op : FastOp W} {run : List Nat} (low : first ≤ id)
    (range : ∀ earlier ∈ run, first ≤ earlier ∧ earlier < id) :
    Fragment Leads first (id + 1) (fastCode op (run ++ [id]) (id + 1)) where
  ordered := by omega
  inside entry member := by
    rcases List.mem_map.mp member with ⟨number, inRun, rfl⟩
    rcases List.mem_append.mp inRun with isEarlier | isLast
    · have bounds := range number isEarlier
      dsimp only
      omega
    · rw [List.mem_singleton.mp isLast]
      dsimp only
      omega
  stays entry member next leads := by
    rcases List.mem_map.mp member with ⟨number, -, rfl⟩
    rcases leads with ⟨exec, resumes⟩
    rw [goesTo_orTrap exec next resumes]
    omega

/-- A fragment and a block behind it. -/
theorem fragment_concat {first next : Nat} {before : Code W} {block : Block W}
    (left : Fragment Leads first next before) (goes : GoesTo block (next + 1)) :
    Fragment Leads first (next + 1) (before ++ [(next, block)]) :=
  left.append (fragment_goesTo (Nat.le_refl next) goes)

/-- A fragment in front of what is laid. -/
theorem Laid.after {first next : Nat} {before : Code W} {rest : Emitted W}
    (left : Fragment Leads first next before) (laid : Laid next rest) :
    Laid first { rest with code := before ++ rest.code } where
  fragment := left.append laid.fragment
  starts start member := by
    have range := laid.starts start member
    exact ⟨Nat.le_trans left.ordered range.1, range.2⟩
  redirects exit member := by
    have range := laid.redirects exit member
    exact ⟨Nat.le_trans left.ordered range.1, range.2⟩

/-- A body that starts a choice's further bodies. -/
theorem Laid.withStart {first : Nat} {emitted : Emitted W} (laid : Laid first emitted) {start : Nat}
    (low : first ≤ start) (high : start ≤ emitted.nextId) :
    Laid first { emitted with starts := start :: emitted.starts } where
  fragment := laid.fragment
  starts other member := by
    rcases List.mem_cons.mp member with rfl | later
    · exact ⟨low, high⟩
    · exact laid.starts other later
  redirects := laid.redirects

theorem Laid.withRedirect {first : Nat} {emitted : Emitted W} (laid : Laid first emitted)
    {exit : Nat} (low : first ≤ exit) (high : exit < emitted.nextId) :
    Laid first { emitted with redirects := exit :: emitted.redirects } where
  fragment := laid.fragment
  starts := laid.starts
  redirects other member := by
    rcases List.mem_cons.mp member with rfl | later
    · exact ⟨low, high⟩
    · exact laid.redirects other later

theorem fragment_redirects {first stop : Nat} {redirects : List Nat} (ordered : first ≤ stop)
    (range : ∀ exit ∈ redirects, first ≤ exit ∧ exit < stop) :
    Fragment Leads first stop
      (redirects.map fun exit => (exit, (redirectBlock stop : Block W))) where
  ordered := ordered
  inside entry member := by
    rcases List.mem_map.mp member with ⟨exit, inRedirects, rfl⟩
    exact range exit inRedirects
  stays entry member next leads := by
    rcases List.mem_map.mp member with ⟨exit, -, rfl⟩
    rcases leads with ⟨exec, resumes⟩
    cases resumes
    exact ⟨ordered, Nat.le_refl _⟩

/-- A choice, its arms and the blocks that lead behind it. -/
theorem fragment_when (rt : RtFuncs W) {done : Nat} {arms : Emitted W}
    (select : Memory → Word → Option Nat) (bodies : Laid (done + 1) arms) :
    Fragment Leads done arms.nextId ([(done, whenBlock rt select arms.starts arms.nextId)] ++ arms.code ++
      arms.redirects.map fun exit => (exit, redirectBlock arms.nextId)) := by
  have behind := bodies.fragment.ordered
  have check : Fragment Leads done arms.nextId
      [(done, whenBlock rt select arms.starts arms.nextId)] := by
    refine .single (Nat.le_refl _) (by omega) fun next leads => ?_
    rcases leads_whenBlock leads with rfl | isStart
    · omega
    · have range := bodies.starts next isStart
      omega
  have redirects := fragment_redirects (W := W) behind bodies.redirects
  have all := check.union (bodies.fragment.widen (Nat.le_succ done) (Nat.le_refl _))
  exact all.union (redirects.widen (Nat.le_succ done) (Nat.le_refl _))

/-- What a task emits is laid from wherever the task takes its numbers. -/
def LaysOut (task : Task W) (emitted : Emitted W) : Prop :=
  ∀ first, task.From first → Laid first emitted

theorem Rule.laysOut {premises : List (Task W × Emitted W)} {task : Task W} {emitted : Emitted W}
    (isRule : Rule rt ctx premises task emitted)
    (laid : ∀ premise ∈ premises, LaysOut premise.1 premise.2) : LaysOut task emitted := by
  intro first low
  cases isRule with
  | fast isFast => exact .of_oneBlock (oneBlock_pure isFast) low
  | letOpen => exact .of_fragment (fragment_goesTo low goesTo_const) rfl rfl
  | letValue continues =>
      have value := (laid _ List.mem_cons_self first low).upTo continues
      exact .of_fragment (fragment_concat value goesTo_const) rfl rfl
  | letTerminal _ => exact laid _ List.mem_cons_self first low
  | string => exact .of_oneBlock (oneBlock_string _ _ _) low
  | tuple compiled => exact .of_oneBlock (oneBlock_tuple compiled) low
  | fusedSelf compiled => exact .of_oneBlock (oneBlock_fusedSelf compiled) low
  | fusedRt compiled => exact .of_oneBlock (oneBlock_fusedRt compiled) low
  | call called =>
      have args := (laid _ List.mem_cons_self first low).fragment
      have call := Laid.of_oneBlock (oneBlock_call called) (Nat.le_refl _)
      exact .of_fragment (args.append call.fragment) (oneBlock_call called).noStarts
        (oneBlock_call called).noRedirects
  | @index _ scope _ _ _ atBuf _ atOffset bufContinues offsetContinues =>
      have buf := (laid _ List.mem_cons_self first low).upTo bufContinues
      have stagedBuf := fragment_concat buf (goesTo_stageBlock atBuf scope.jumpArgsBase)
      have offset := (laid _ (List.mem_cons_of_mem _ List.mem_cons_self) (atBuf + 1)
        (Nat.le_refl _)).upTo offsetContinues
      have staged := fragment_concat (stagedBuf.append offset)
        (goesTo_stageBlock atOffset (scope.jumpArgsBase + 1))
      exact .of_fragment (fragment_concat staged (goesTo_rtCallBlock _ _ _ _)) rfl rfl
  | kTable continues _ =>
      have disc := (laid _ List.mem_cons_self first low).upTo continues
      exact .of_fragment (fragment_concat disc goesTo_const) rfl rfl
  | @«when» _ _ _ _ _ done arms select continues _ =>
      have disc := (laid _ List.mem_cons_self first low).upTo continues
      have bodies : Laid (done + 1) arms :=
        laid _ (List.mem_cons_of_mem _ List.mem_cons_self) (done + 1) (Nat.le_refl _)
      have all := disc.append (fragment_when rt select bodies)
      rw [← List.append_assoc, ← List.append_assoc] at all
      exact .of_fragment all rfl rfl
  | @wait id scope handlers _ bodies folded dispatch _ _ _ _ =>
      have inner : Laid (id + 1) bodies := laid _ List.mem_cons_self (id + 1) (Nat.le_refl _)
      have behind := inner.fragment.ordered
      have check : Fragment Leads id bodies.nextId
          [(id, waitBlock rt (waitAt scope handlers) dispatch folded bodies.starts id)] := by
        refine .single (Nat.le_refl _) (by omega) fun next leads => ?_
        rcases leads_waitBlock leads with rfl | isStart
        · omega
        · have range := inner.starts next isStart
          omega
      have all := check.union (inner.fragment.widen (Nat.le_succ id) (Nat.le_refl _))
      exact .of_fragment (all.widen low (Nat.le_refl _)) rfl rfl
  | argsNil => exact .of_fragment (.nil low) rfl rfl
  | argsCons continues =>
      have value := (laid _ List.mem_cons_self first low).upTo continues
      exact .after (fragment_concat value goesTo_const)
        (laid _ (List.mem_cons_of_mem _ List.mem_cons_self) _ (Nat.le_refl _))
  | seqNil => exact .of_fragment (.nil low) rfl rfl
  | seqCons continues =>
      exact .after ((laid _ List.mem_cons_self first low).upTo continues)
        (laid _ (List.mem_cons_of_mem _ List.mem_cons_self) _ (Nat.le_refl _))
  | seqLast _ => exact laid _ List.mem_cons_self first low
  | armsNil => exact .of_fragment (.nil low) rfl rfl
  | @armsSelf id _ _ _ branches arm next rest leaves =>
      have body := (laid _ List.mem_cons_self first low).upTo leaves
      have behind : Laid next rest := laid _ (List.mem_cons_of_mem _ List.mem_cons_self) next (by
        change next ≤ if branches.isEmpty then next else next + 1
        split <;> omega)
      have forward := ((laid _ List.mem_cons_self id (Nat.le_refl _)).upTo leaves).ordered
      exact (Laid.after body behind).withStart low (Nat.le_trans forward behind.fragment.ordered)
  | @armsOn id _ _ _ _ arm next rest goesOn =>
      have body := (laid _ List.mem_cons_self first low).upToEither goesOn
      have forward : id ≤ next :=
        ((laid _ List.mem_cons_self id (Nat.le_refl _)).upToEither goesOn).ordered
      have others := laid _ (List.mem_cons_of_mem _ List.mem_cons_self)
      have behind := (others (next + 1) (Nat.le_refl _)).fragment.ordered
      exact ((Laid.after body (others next (Nat.le_succ _))).withStart low
        (Nat.le_trans forward (Nat.le_of_lt behind))).withRedirect body.ordered behind
  | handlersNil => exact .of_fragment (.nil low) rfl rfl
  | handlersCons =>
      have body := laid _ List.mem_cons_self first ⟨low, nofun⟩
      have rest := laid _ (List.mem_cons_of_mem _ List.mem_cons_self) _ (Nat.le_refl _)
      have forward := (laid _ List.mem_cons_self _ ⟨Nat.le_refl _, nofun⟩).fragment.ordered
      exact (Laid.after body.fragment rest).withStart low
        (Nat.le_trans forward rest.fragment.ordered)
  | bodyNil => exact .of_fragment (.nil low.1) rfl rfl
  | bodyJoin _ _ =>
      refine laid _ List.mem_cons_self first ⟨Nat.le_succ_of_le low.1, fun earlier member => ?_⟩
      rcases List.mem_append.mp member with isEarlier | isLast
      · have range := low.2 earlier isEarlier
        omega
      · rw [List.mem_singleton.mp isLast]
        exact ⟨low.1, Nat.lt_succ_self _⟩
  | bodyFlush _ =>
      exact .after (fragment_fastCode low.1 low.2)
        (laid _ List.mem_cons_self _ ⟨Nat.le_refl _, nofun⟩)
  | bodyStmt continues =>
      exact .after ((laid _ List.mem_cons_self first low.1).upTo continues)
        (laid _ (List.mem_cons_of_mem _ List.mem_cons_self) _ ⟨Nat.le_refl _, nofun⟩)
  | bodyLast terminal =>
      have stmt := laid _ List.mem_cons_self first low.1
      rcases terminal with leaves | waits
      · have same := nextId_of_outcome leaves
        exact stmt.renamed same
      · have same := nextId_of_outcome waits
        exact stmt.renamed same

theorem Compiles.laysOut {task : Task W} {emitted : Emitted W}
    (compiled : Compiles rt ctx task emitted) : LaysOut task emitted := by
  induction compiled with
  | rule isRule _ _ induction => exact isRule.laysOut induction

end LakeNative.Compiler

import LakeNative.Compiler.Machine
import LakeNative.Control.Preservation

/-! # An actor's way through its machine

An actor goes from branch to branch. However often the scheduler takes the processor from it in
between, and whatever others do then, it enters the branches that the bodies of its source lead to.
-/

namespace LakeNative.Control

open LakeNative.Runtime LakeNative.Compiler LakeNative.NumberedCode LakeNative.Transitions
open LakeNative.Memory

variable {W : Type} {rt : RtFuncs W} {ctx : CompilerCtx}

/-! ## Blocks that stay in their branch -/

/-- Only a `self(...)` writes `BRANCH_ID`. -/
def StaysInBranch (code : Code W) : Prop :=
  ∀ entry ∈ code, ∀ exec id, (entry.2 exec).2.resume = some id →
    (entry.2 exec).1.branchId = exec.branchId

namespace StaysInBranch

variable {before behind : Code W}

theorem single {id : Nat} {block : Block W}
    (stays : ∀ exec next, (block exec).2.resume = some next →
      (block exec).1.branchId = exec.branchId) : StaysInBranch [(id, block)] := by
  intro entry member
  rw [List.mem_singleton.mp member]
  exact stays

theorem append (stays : StaysInBranch before) (alsoStays : StaysInBranch behind) :
    StaysInBranch (before ++ behind) := by
  intro entry member
  rcases List.mem_append.mp member with isBefore | isBehind
  · exact stays entry isBefore
  · exact alsoStays entry isBehind

end StaysInBranch

/-- So do the statements that share a block. -/
def StaysOp (op : FastOp W) : Prop :=
  ∀ exec after, op exec = some after → after.branchId = exec.branchId

theorem staysOp_some : StaysOp (some : FastOp W) := by
  intro exec after isAfter
  cases isAfter
  rfl

theorem StaysOp.bind {op step : FastOp W} (stays : StaysOp op) (alsoStays : StaysOp step) :
    StaysOp fun exec => (op exec).bind step := by
  intro exec after isAfter
  rcases Option.bind_eq_some_iff.mp isAfter with ⟨middle, isMiddle, isAfter⟩
  exact (alsoStays middle after isAfter).trans (stays exec middle isMiddle)

theorem staysOp_compileFast {scope added : Scope} {stmt : Expr} {step : FastOp W}
    (isFast : compileFast rt ctx scope stmt = some (step, added)) : StaysOp step := by
  by_cases bound : ∃ ident ty default, stmt = .letVar ident ty (some default)
  · rcases bound with ⟨ident, ty, default, rfl⟩
    rw [compileFast] at isFast
    rcases bind_some isFast with ⟨value, -, result⟩
    cases result
    intro exec after isAfter
    rcases Option.map_eq_some_iff.mp isAfter with ⟨word, -, rfl⟩
    rfl
  · rw [compileFast] at isFast
    · rcases bind_some isFast with ⟨value, -, result⟩
      cases result
      intro exec after isAfter
      rcases Option.map_eq_some_iff.mp isAfter with ⟨word, -, rfl⟩
      rfl
    · exact fun ident ty default same => bound ⟨ident, ty, default, same⟩

/-- A block that traps where it has no result. -/
theorem stays_orTrap {id : Nat} {change : ExecCtx W → Option (ExecCtx W × Exit)}
    (stays : ∀ exec after, change exec = some after → after.1.branchId = exec.branchId) :
    StaysInBranch [(id, fun exec => orTrap exec (change exec))] := by
  apply StaysInBranch.single
  intro exec next resumes
  rcases orTrap_resume resumes with ⟨after, isAfter, -⟩
  rw [isAfter]
  exact stays exec after isAfter

theorem stays_fastCode {op : FastOp W} (stays : StaysOp op) (run : List Nat) (next : Nat) :
    StaysInBranch (fastCode op run next) := by
  intro entry member exec id resumes
  rcases List.mem_map.mp member with ⟨number, -, rfl⟩
  rcases orTrap_resume resumes with ⟨after, isAfter, -⟩
  dsimp only
  rw [isAfter]
  rcases Option.map_eq_some_iff.mp isAfter with ⟨middle, isMiddle, rfl⟩
  exact stays exec middle isMiddle

theorem branchId_withResult (exec : ExecCtx W) (result : Option Word × W) :
    (withResult exec result).branchId = exec.branchId := by
  rcases result with ⟨value, world⟩
  cases value <;> rfl

theorem branchId_storeElems {payload : Word} {elems : List (Folded ⊕ String)} {exec after : ExecCtx W}
    (stored : storeElems rt payload elems exec = some after) : after.branchId = exec.branchId := by
  induction elems generalizing payload exec with
  | nil =>
      cases stored
      rfl
  | cons elem elems induction =>
      cases elem with
      | inl value =>
          rcases bind_some stored with ⟨word, -, result⟩
          have later := induction result
          exact later
      | inr text =>
          have later := induction stored
          exact later

theorem stays_call {id : Nat} {scope : Scope} {callee : String} {ty : Ty} {args : List Expr}
    {emitted : Emitted W} (compiled : compileCall rt ctx id scope callee ty args = some emitted) :
    StaysInBranch emitted.code := by
  rw [compileCall] at compiled
  split at compiled
  · cases compiled
    exact .single fun exec _ _ => branchId_withResult exec _
  · dsimp only at compiled
    split at compiled
    · cases compiled
      exact .single fun _ _ _ => rfl
    · rcases bind_some compiled with ⟨select, -, result⟩
      split at result
      · cases result
        apply StaysInBranch.single
        intro exec next resumes
        cases resumes
      · cases result
        exact .single fun _ _ _ => rfl

theorem stays_wait {wait : WaitExpr} {dispatch : Word → Option Nat} {filter : List Folded}
    {starts : List Nat} {id : Nat} :
    StaysInBranch [(id, waitBlock rt wait dispatch filter starts id)] := by
  apply StaysInBranch.single
  intro exec next _
  rw [waitBlock]
  split
  · rfl
  · dsimp only
    cases chosenHandler rt wait dispatch filter exec <;> rfl

/-- The open run of a task stays in its branch. -/
def StaysRun : Compiler.Task W → Prop
  | .body _ op _ _ _ => StaysOp op
  | _ => True

theorem stays_rule {premises : List (Compiler.Task W × Emitted W)} {task : Compiler.Task W}
    {emitted : Emitted W} (isRule : Rule rt ctx premises task emitted) (staysRun : StaysRun task)
    (inner : ∀ premise ∈ premises, StaysRun premise.1 → StaysInBranch premise.2.code) :
    StaysInBranch emitted.code := by
  have second : ∀ {first last}, premises = [first, last] → last ∈ premises := by
    rintro first last rfl
    exact List.mem_cons_of_mem _ List.mem_cons_self
  cases isRule with
  | fast isFast =>
      rcases bind_some isFast with ⟨⟨op, added⟩, isOp, result⟩
      cases result
      exact stays_fastCode (staysOp_compileFast isOp) _ _
  | tuple compiled =>
      rcases bind_some compiled with ⟨folded, -, result⟩
      cases result
      apply stays_orTrap
      intro exec after isAfter
      rcases bind_some isAfter with ⟨filled, isFilled, result⟩
      cases result
      have kept := branchId_storeElems isFilled
      exact kept
  | fusedSelf compiled =>
      rcases bind_some compiled with ⟨folded, -, result⟩
      rcases bind_some result with ⟨select, -, result⟩
      cases result
      apply StaysInBranch.single
      intro exec next resumes
      exact absurd ⟨exec, resumes⟩ not_leads_fusedSelf
  | fusedRt compiled =>
      rcases bind_some compiled with ⟨folded, -, result⟩
      cases result
      apply stays_orTrap
      intro exec after isAfter
      rcases bind_some isAfter with ⟨values, -, result⟩
      cases result
      exact branchId_withResult exec _
  | letOpen | string => exact .single fun _ _ _ => rfl
  | argsNil | seqNil | armsNil | handlersNil | bodyNil => nofun
  | letValue _ | kTable _ _ =>
      exact (inner _ List.mem_cons_self trivial).append (.single fun _ _ _ => rfl)
  | letTerminal _ | seqLast _ | bodyLast _ => exact inner _ List.mem_cons_self trivial
  | call called => exact (inner _ List.mem_cons_self trivial).append (stays_call called)
  | index _ _ =>
      have buf := inner _ List.mem_cons_self trivial
      have offset := inner _ (second rfl) trivial
      exact (((buf.append (.single fun _ _ _ => rfl)).append offset).append
        (.single fun _ _ _ => rfl)).append (.single fun exec _ _ => branchId_withResult exec _)
  | «when» _ _ =>
      have disc := inner _ List.mem_cons_self trivial
      have arms := inner _ (second rfl) trivial
      refine ((disc.append (.single fun _ _ _ => rfl)).append arms).append ?_
      intro entry member exec id _
      rcases List.mem_map.mp member with ⟨exit, -, rfl⟩
      rfl
  | wait _ _ _ _ =>
      exact StaysInBranch.append stays_wait (inner _ List.mem_cons_self trivial)
  | argsCons _ =>
      have value := inner _ List.mem_cons_self trivial
      exact (value.append (.single fun _ _ _ => rfl)).append (inner _ (second rfl) trivial)
  | seqCons _ | armsSelf _ | armsOn _ =>
      exact (inner _ List.mem_cons_self trivial).append (inner _ (second rfl) trivial)
  | handlersCons =>
      exact (inner _ List.mem_cons_self staysOp_some).append (inner _ (second rfl) trivial)
  | bodyJoin isFast _ =>
      exact inner _ List.mem_cons_self (staysRun.bind (staysOp_compileFast isFast))
  | bodyFlush isFast =>
      exact (stays_fastCode (staysRun.bind (staysOp_compileFast isFast)) _ _).append
        (inner _ List.mem_cons_self staysOp_some)
  | bodyStmt _ =>
      exact (inner _ List.mem_cons_self trivial).append (inner _ (second rfl) staysOp_some)

theorem staysInBranch {task : Compiler.Task W} {emitted : Emitted W}
    (derived : Compiles rt ctx task emitted) (staysRun : StaysRun task) :
    StaysInBranch emitted.code := by
  induction derived with
  | rule isRule _ _ induction => exact stays_rule isRule staysRun induction

/-! ## Steps of an actor -/

variable (rt) in
/-- A block of the actor's branch runs, and others may run behind it. A `self(...)` goes to block 0
of the branch that it has chosen. -/
inductive MachineStep (machine : List (BranchCode W)) : Point W → Exit → Point W → Prop where
  | block {branch before exit after} (isBranch : machine[before.ctx.branchId]? = some branch)
      (step : BlockStep rt branch.code before exit after) : MachineStep machine before exit after
  | enter {branch before block left resumed} (isBranch : machine[before.ctx.branchId]? = some branch)
      (member : (before.blockId, block) ∈ branch.code) (runs : block before.ctx = (left, .enter))
      (others : OthersRan .enter left resumed) : MachineStep machine before .enter ⟨0, resumed⟩

/-- What others may have changed when the scheduler calls an actor again. -/
def pauseExit (code : StopCode) (blockId : Nat) : Exit :=
  if code = .park then .park blockId else .goto blockId

inductive ActorEvent where
  | step (overBudget : Bool)
  | again (quantum : Int)

variable (rt) in
/-- The call of the machine goes on, or the scheduler calls an actor again that is neither done nor
dying. -/
inductive ActorStep (machine : List (BranchCode W)) : Call W → ActorEvent → Call W → Prop where
  | step {call overBudget next} (step : CallStep rt machine call overBudget next) :
      ActorStep machine call (.step overBudget) next
  | again {call code quantum exec} (stopped : call.stopped = some code) (notDone : code ≠ .done)
      (alive : rt.isDying call.exec.world = false)
      (others : OthersRan (pauseExit code call.blockId) call.exec exec) :
      ActorStep machine call (.again quantum) (.start quantum exec call.blockId)

/-- How far the blocks have come where the call of the machine is. -/
inductive Reaches (rt : RtFuncs W) (machine : List (BranchCode W)) (start : Point W) (call : Call W) :
    Prop where
  | running {history} (isRunning : call.stopped = none)
      (run : Run (MachineStep rt machine) start history ⟨call.blockId, call.exec⟩)
  | paused {history point code} (isStopped : call.stopped = some code)
      (run : Run (MachineStep rt machine) start history point)
      (resumes : rt.isDying call.exec.world = false →
        ∀ exec, OthersRan (pauseExit code call.blockId) call.exec exec →
          ∃ exit, MachineStep rt machine point exit ⟨call.blockId, exec⟩)
  | done (isDone : call.stopped = some .done)

theorem othersRan_tempVal {exit other : Exit} {before after : ExecCtx W}
    (ran : OthersRan exit before after) (same : exit.isPark = other.isPark) :
    OthersRan other before after :=
  ⟨ran.vars, ran.ownPid, ran.mailboxHead, fun notPark => ran.tempVal (same.trans notPark), ran.jumpArgs,
    ran.branchId⟩

/-- The way to a block whose number is passed to the loop of the call. -/
theorem reaches_quantumLoop {machine : List (BranchCode W)} {start point : Point W}
    {history : List (Stage (Point W) Exit)} {call : Call W} (overBudget : Bool) {next : Nat}
    (run : Run (MachineStep rt machine) start history point) (running : call.stopped = none)
    (resumes : rt.isDying call.exec.world = false →
      ∀ exec, OthersRan (.goto next) call.exec exec →
        ∃ exit, MachineStep rt machine point exit ⟨next, exec⟩) :
    Reaches rt machine start (call.quantumLoop rt overBudget next) := by
  rw [Call.quantumLoop]
  dsimp only
  split
  · exact .done rfl
  · rename_i alive
    rw [Bool.not_eq_true] at alive
    split
    · apply Reaches.paused rfl run
      exact fun _ exec others => resumes alive exec others
    · rcases resumes alive call.exec (.refl _ _) with ⟨exit, taken⟩
      exact .running running (run.next taken)

theorem reaches_backEdge {machine : List (BranchCode W)} {start point : Point W}
    {history : List (Stage (Point W) Exit)} {call : Call W}
    (run : Run (MachineStep rt machine) start history point) (running : call.stopped = none)
    (resumes : ∀ exec, OthersRan (.goto 0) call.exec exec →
      ∃ exit, MachineStep rt machine point exit ⟨0, exec⟩) :
    Reaches rt machine start call.backEdge := by
  rw [Call.backEdge]
  dsimp only
  split
  · apply Reaches.paused rfl run
    exact fun _ exec others => resumes exec others
  · rcases resumes call.exec (.refl _ _) with ⟨exit, taken⟩
    exact .running running (run.next taken)

theorem reaches_step {machine : List (BranchCode W)} {start : Point W} {call next : Call W}
    {event : ActorEvent} (noLoops : ∀ branch ∈ machine, branch.loop = none)
    (reaches : Reaches rt machine start call) (taken : ActorStep rt machine call event next) :
    Reaches rt machine start next := by
  cases taken with
  | step taken =>
      have running : call.stopped = none := by cases taken <;> assumption
      have isRun : ∃ history, Run (MachineStep rt machine) start history ⟨call.blockId, call.exec⟩ := by
        cases reaches with
        | running _ run => exact ⟨_, run⟩
        | paused isStopped _ _ => cases running.symm.trans isStopped
        | done isDone => cases running.symm.trans isDone
      rcases isRun with ⟨history, run⟩
      have ranRunning : ∀ exec, (call.ran exec 1).stopped = none := fun _ => running
      -- A block that others may run behind.
      have block : ∀ {block exit next ran resumed}, call.AtBlock machine block →
          block call.exec = (ran, exit) → exit.resume = some next → rt.isDying ran.world = false →
          OthersRan exit ran resumed →
          ∃ exit, MachineStep rt machine ⟨call.blockId, call.exec⟩ exit ⟨next, resumed⟩ := by
        rintro block exit next ran resumed ⟨branch, isBranch, member, -⟩ runs resumes alive others
        exact ⟨exit, .block isBranch ⟨block, member, .block runs alive resumes others⟩⟩
      have enter : ∀ {block left resumed}, call.AtBlock machine block →
          block call.exec = (left, .enter) → OthersRan .enter left resumed →
          ∃ exit, MachineStep rt machine ⟨call.blockId, call.exec⟩ exit ⟨0, resumed⟩ := by
        rintro block left resumed ⟨branch, isBranch, member, -⟩ runs others
        exact ⟨.enter, .enter isBranch member runs others⟩
      have noLoop : ∀ {loop}, ¬ call.AtLoop machine loop := by
        rintro loop ⟨branch, isBranch, isLoop, -⟩
        rw [noLoops branch (List.mem_of_getElem? isBranch)] at isLoop
        cases isLoop
      cases taken with
      | noBranch _ _ | noBlock _ _ _ => exact .done rfl
      | goto _ isBlock runs =>
          apply reaches_quantumLoop _ run (ranRunning _)
          exact fun alive exec others => block isBlock runs rfl alive others
      | wait _ isBlock runs =>
          apply Reaches.paused rfl run
          exact fun alive exec others => block isBlock runs rfl alive (othersRan_tempVal others rfl)
      | park _ isBlock runs =>
          apply Reaches.paused rfl run
          exact fun alive exec others => block isBlock runs rfl alive (othersRan_tempVal others rfl)
      | enter _ isBlock runs =>
          apply reaches_quantumLoop _ run (ranRunning _)
          exact fun _ exec others => enter isBlock runs (othersRan_tempVal others rfl)
      | enterSame _ isBlock runs _ =>
          apply reaches_backEdge run (ranRunning _)
          exact fun exec others => enter isBlock runs (othersRan_tempVal others rfl)
      | chunk _ isLoop _ | leave _ isLoop _ _ => exact absurd isLoop noLoop
  | again stopped notDone alive others =>
      cases reaches with
      | running isRunning _ =>
          rw [stopped] at isRunning
          cases isRunning
      | paused isStopped run resumes =>
          cases stopped.symm.trans isStopped
          rcases resumes alive _ others with ⟨exit, taken⟩
          exact .running rfl (run.next taken)
      | done isDone =>
          cases stopped.symm.trans isDone
          exact absurd rfl notDone

theorem reaches_run {machine : List (BranchCode W)} {quantum : Int} {exec : ExecCtx W} {blockId : Nat}
    {history : List (Stage (Call W) ActorEvent)} {call : Call W}
    (noLoops : ∀ branch ∈ machine, branch.loop = none)
    (run : Run (ActorStep rt machine) (.start quantum exec blockId) history call) :
    Reaches rt machine ⟨blockId, exec⟩ call :=
  (run.invariant (.running rfl .refl) fun _ _ _ reaches => reaches_step noLoops reaches).2

/-! ## From branch to branch -/

variable (rt ctx) in
/-- What the body of the branch that an actor is in means. -/
def BodyMeans (branches : List (List Pattern × List Expr)) (entry : Proc W) (result : Result W) : Prop :=
  ∃ patterns body, branches[entry.branchId]? = some (patterns, body) ∧
    MeansSeq rt { ctx with currentBranch := entry.branchId } (branchScope patterns) body entry result

variable (rt ctx) in
/-- From its entry into a branch an actor comes to another entry by what the bodies mean. -/
inductive Lives (branches : List (List Pattern × List Expr)) (start : Proc W) : Proc W → Prop where
  | refl : Lives branches start start
  | enters {entry left next} (lives : Lives branches start entry)
      (means : BodyMeans rt ctx branches entry (.enters left)) (resumes : Resumes false left next) :
      Lives branches start next

/-- The code of a branch. -/
def codeOf (machine : List (BranchCode W)) (branchId : Nat) : Code W :=
  (machine[branchId]?.map BranchCode.code).getD []

/-- A compiled branch that is not unrolled. -/
theorem branch_compiled {factor : Nat} {branches : List (List Pattern × List Expr)}
    {machine : List (BranchCode W)} (compiled : compileMachine rt ctx factor branches = some machine)
    (plain : ∀ branch ∈ branches, unrollInfo ctx factor branch.1 branch.2 = none)
    {branchId : Nat} {branch : BranchCode W} (isBranch : machine[branchId]? = some branch) :
    branch.loop = none ∧ ∃ patterns body emitted, branches[branchId]? = some (patterns, body) ∧
      compileBody rt { ctx with currentBranch := branchId } [] some 0 (branchScope patterns) body =
        some emitted ∧ branch.code = emitted.code := by
  rw [compileMachine] at compiled
  have inside : branchId < branches.zipIdx.length := by
    rw [← length_of_mapM compiled]
    exact (List.getElem?_eq_some_iff.mp isBranch).1
  rw [List.length_zipIdx] at inside
  have atSource : branches[branchId]? = some branches[branchId] := List.getElem?_eq_getElem inside
  have atIndex : branches.zipIdx[branchId]? = some (branches[branchId], branchId) := by
    rw [List.getElem?_zipIdx, atSource]
    simp
  have isCompiled := (getElem?_of_mapM compiled atIndex).trans isBranch
  generalize branches[branchId] = source at atSource isCompiled
  have noInfo := plain source (List.mem_of_getElem? atSource)
  rcases source with ⟨patterns, body⟩
  rcases Option.bind_eq_some_iff.mp isCompiled with ⟨emitted, isEmitted, result⟩
  rw [show unrollInfo { ctx with currentBranch := branchId } factor patterns body = none from noInfo]
    at result
  rw [compileBranch, show unrollInfo { ctx with currentBranch := branchId } factor patterns body = none
    from noInfo] at isEmitted
  cases result
  exact ⟨rfl, patterns, body, emitted, atSource, isEmitted, rfl⟩

/-- In a branch to which the bodies have led, so many of its blocks have run from its start. -/
structure InBranch (rt : RtFuncs W) (ctx : CompilerCtx) (branches : List (List Pattern × List Expr))
    (machine : List (BranchCode W)) (start : Proc W) (point : Point W) (entry : ExecCtx W) : Prop where
  lives : Lives rt ctx branches start entry.proc
  branchId : point.ctx.branchId = entry.branchId
  run : ∃ history, Run (BlockStep rt (codeOf machine entry.branchId)) ⟨0, entry⟩ history point

section Compiled

variable {factor : Nat} {branches : List (List Pattern × List Expr)} {machine : List (BranchCode W)}

/-- Where the code of a branch ends, there its body's meaning leads, and only the number behind
all its blocks has none. -/
theorem branch_means (compiled : compileMachine rt ctx factor branches = some machine)
    (plain : ∀ branch ∈ branches, unrollInfo ctx factor branch.1 branch.2 = none)
    {entry : ExecCtx W} {branch : BranchCode W} (isBranch : machine[entry.branchId]? = some branch) :
    ∃ stop, (∀ ending, CodeEnds rt branch.code stop ⟨0, entry⟩ ending →
        BodyMeans rt ctx branches entry.proc (resultOf ending)) ∧
      ∀ history point, Run (BlockStep rt branch.code) ⟨0, entry⟩ history point →
        (∀ block, (point.blockId, block) ∉ branch.code) → point.blockId = stop := by
  rcases branch_compiled compiled plain isBranch with ⟨-, patterns, body, emitted, atSource, isBody, same⟩
  have derived := compiles_body body isBody
  have noRedirects := derived.noRedirects nofun
  rw [same]
  refine ⟨emitted.nextId, fun ending ends => ?_, fun history point run noBlock => ?_⟩
  · have means : MeansSeq rt { ctx with currentBranch := entry.branchId }
        (rebase (branchScope patterns).jumpArgsBase (branchScope patterns)) body entry.proc
        (resultOf ending) := (preserves_body body).closed isBody ends
    exact ⟨patterns, body, atSource, means⟩
  · have unknown : point.blockId ∉ ids emitted.code := by
      intro registered
      rcases List.mem_map.mp registered with ⟨⟨number, block⟩, member, atPoint⟩
      change number = point.blockId at atPoint
      rw [atPoint] at member
      exact noBlock block member
    have known : Known emitted point.blockId := by
      cases run with
      | refl => exact first_known derived rfl
      | next _ taken =>
          rcases taken with ⟨block, member, runs⟩
          exact (threaded derived (placed_body _ _ _ _) List.nodup_nil).closed.stays _ member _
            (leads_of_blockRuns _ _ _ _ runs)
    exact known.elim (absurd · unknown) (eq_nextId_of_leftOpen noRedirects)

theorem inBranch_step (compiled : compileMachine rt ctx factor branches = some machine)
    (plain : ∀ branch ∈ branches, unrollInfo ctx factor branch.1 branch.2 = none) {start : Proc W}
    {before after : Point W} {exit : Exit} {entry : ExecCtx W}
    (inBranch : InBranch rt ctx branches machine start before entry)
    (taken : MachineStep rt machine before exit after) :
    ∃ entry, InBranch rt ctx branches machine start after entry := by
  rcases inBranch with ⟨lives, sameBranch, history, run⟩
  cases taken with
  | @block branch _ _ _ isBranch step =>
      rw [sameBranch] at isBranch
      have isCode : codeOf machine entry.branchId = branch.code := by
        rw [codeOf, isBranch]
        rfl
      rcases branch_compiled compiled plain isBranch with ⟨-, patterns, body, emitted, -, isBody, same⟩
      have stays : StaysInBranch branch.code := by
        rw [same]
        exact staysInBranch (compiles_body body isBody) staysOp_some
      refine ⟨entry, lives, ?_, _, run.next (isCode ▸ step)⟩
      rcases step with ⟨block, member, runs⟩
      cases runs with
      | @block _ _ exec ran resumed exit runs alive resumes others =>
          have kept := stays _ member exec
          dsimp only at kept
          rw [runs] at kept
          exact others.branchId.trans ((kept _ resumes).trans sameBranch)
  | @enter branch _ block left resumed isBranch member runs others =>
      rw [sameBranch] at isBranch
      have isCode : codeOf machine entry.branchId = branch.code := by
        rw [codeOf, isBranch]
        rfl
      rw [isCode] at run
      have halts : Halts block before (.enters left.proc) := .enters runs
      rcases branch_means compiled plain isBranch with ⟨stop, means, -⟩
      have body := means _ (.of_run run (.halts member halts))
      exact ⟨resumed, .enters lives body (resumes_of_others others), rfl, [], .refl⟩

theorem inBranch_run (compiled : compileMachine rt ctx factor branches = some machine)
    (plain : ∀ branch ∈ branches, unrollInfo ctx factor branch.1 branch.2 = none) {exec : ExecCtx W}
    {history : List (Stage (Point W) Exit)} {point : Point W}
    (run : Run (MachineStep rt machine) ⟨0, exec⟩ history point) :
    ∃ entry, InBranch rt ctx branches machine exec.proc point entry := by
  induction run with
  | refl => exact ⟨exec, .refl, rfl, [], .refl⟩
  | next _ taken induction =>
      rcases induction with ⟨entry, inBranch⟩
      exact inBranch_step compiled plain inBranch taken

/-- Whenever a call of the machine is at a block, the bodies have led the actor to the branch that
it is in, and what its block does next is what the branch's body means: to go on behind the last
one, to enter another branch, or to trap. The variables and the staged words have no bound here:
this is the machine as long as its frame and `JUMP_ARGS` have room for them. -/
theorem actor_follows (compiled : compileMachine rt ctx factor branches = some machine)
    (plain : ∀ branch ∈ branches, unrollInfo ctx factor branch.1 branch.2 = none)
    {quantum : Int} {exec : ExecCtx W} {history : List (Stage (Call W) ActorEvent)} {call : Call W}
    (run : Run (ActorStep rt machine) (.start quantum exec 0) history call)
    (running : call.stopped = none) :
    ∃ entry, Lives rt ctx branches exec.proc entry ∧ entry.branchId = call.exec.branchId ∧
      ∀ branch, machine[entry.branchId]? = some branch →
        ((∀ block, (call.blockId, block) ∉ branch.code) →
          BodyMeans rt ctx branches entry (.on call.exec.proc)) ∧
        ∀ block after, (call.blockId, block) ∈ branch.code →
          (block call.exec = (after, .enter) → BodyMeans rt ctx branches entry (.enters after.proc)) ∧
          (block call.exec = (after, .trap) → BodyMeans rt ctx branches entry .traps) := by
  have noLoops : ∀ branch ∈ machine, branch.loop = none := by
    intro branch member
    rcases List.getElem?_of_mem member with ⟨branchId, isBranch⟩
    exact (branch_compiled compiled plain isBranch).1
  have reached : ∃ history, Run (MachineStep rt machine) ⟨0, exec⟩ history ⟨call.blockId, call.exec⟩ := by
    cases reaches_run noLoops run with
    | running _ run => exact ⟨_, run⟩
    | paused isStopped _ _ => cases running.symm.trans isStopped
    | done isDone => cases running.symm.trans isDone
  rcases reached with ⟨history, reached⟩
  rcases inBranch_run compiled plain reached with ⟨entry, lives, sameBranch, within, inBranch⟩
  refine ⟨entry.proc, lives, sameBranch.symm, fun branch isBranch => ?_⟩
  have atEntry : machine[entry.branchId]? = some branch := isBranch
  have isCode : codeOf machine entry.branchId = branch.code := by
    rw [codeOf, atEntry]
    rfl
  rw [isCode] at inBranch
  rcases branch_means compiled plain atEntry with ⟨stop, means, atStop⟩
  refine ⟨fun noBlock => ?_, fun block after member => ⟨fun enters => ?_, fun traps => ?_⟩⟩
  · exact means _ (.of_run inBranch (.falls (atStop _ _ inBranch noBlock)))
  · have halts : Halts block ⟨call.blockId, call.exec⟩ (.enters after.proc) := .enters enters
    exact means _ (.of_run inBranch (.halts member halts))
  · have halts : Halts block ⟨call.blockId, call.exec⟩ .traps := .traps traps
    exact means _ (.of_run inBranch (.halts member halts))

end Compiled

/-! ## A call that enters another branch -/

def xParam : Pattern := ⟨"x", .plain "i64", .var⟩

/-- `self(x)`. -/
def selfOfX : Expr := .jump (.var "self" .unknown) [.var "x" .unknown]

/-- `let x i64 = 7`. -/
def sevenToX : Expr := .letVar "x" (.plain "i64") (some (.num "7" .unknown))

/-- The second branch takes the word that the first one passes. -/
def passes : List (List Pattern × List Expr) :=
  [([], [sevenToX, selfOfX]), ([xParam], [.var "x" .unknown])]

def passing : CompilerCtx :=
  { CompilerCtx.bare with
    parseInt := fun _ => some 7
    hasher := fun types => UInt64.ofNat types.length
    machines := fun _ => some ⟨[⟨[], by decide⟩, ⟨[xParam], by decide⟩], by decide⟩ }

/-- The second branch is the only one for a word. -/
def passCandidates : List BranchInfo := [branchInfo passing.hasher 1 ⟨[xParam], by decide⟩]

def passScope : Scope := (branchScope []).insertWithLakeType "x" (.plain "i64")

def bindOp (exec : ExecCtx Unit) : Option (ExecCtx Unit) :=
  (some exec).bind fun exec => (some (7 : Word)).map fun value => exec.setVar 0 value

def takeOp (exec : ExecCtx Unit) : Option (ExecCtx Unit) :=
  (some exec).bind fun exec => (some (exec.actor.vars 0)).map fun value => exec.setTemp value

def enterBlock : Block Unit :=
  fusedSelfBlock .idle { passing with currentBranch := 0 } passCandidates (fun _ _ => 1)
    (exprTypeStrs [.var "x" .unknown] passScope.lakeTypeOf) [fun view => some (view.vars 0)]

def passMachine : List (BranchCode Unit) :=
  [⟨fastCode bindOp [0] 1 ++ [(1, enterBlock)], none⟩, ⟨fastCode takeOp [0] 1, none⟩]

theorem selfOfX_compiled :
    compileExpr RtFuncs.idle { passing with currentBranch := 0 } 1 passScope selfOfX =
      some ⟨.stateChange 2, [(1, enterBlock)], passScope, [], []⟩ := by
  have hash : hashCallArgs passing.hasher [.var "x" .unknown] passScope.lakeTypeOf = 1 := rfl
  rw [selfOfX, compileExpr]
  change compileFusedSelfCall RtFuncs.idle _ 1 passScope [.var "x" .unknown] = _
  rw [compileFusedSelfCall]
  simp only [hash]
  rfl

theorem first_compiled :
    compileBody RtFuncs.idle { passing with currentBranch := 0 } [] some 0 (branchScope [])
        [sevenToX, selfOfX] =
      some ⟨.continued 2, fastCode bindOp [0] 1 ++ [(1, enterBlock)], passScope, [], []⟩ := by
  have isFast : acceptsEntry sevenToX = true := rfl
  have notFast : acceptsEntry selfOfX = false := rfl
  have binds : compileFast RtFuncs.idle { passing with currentBranch := 0 } (branchScope []) sevenToX =
      some (fun exec => (some (7 : Word)).map fun value => exec.setVar 0 value, passScope) := rfl
  rw [compileBody, if_pos isFast, binds]
  simp only [List.head?_cons, Option.elim_some, notFast, Option.bind_eq_bind, Option.bind_some,
    Bool.false_eq_true, if_false]
  rw [compileBody, notFast, selfOfX_compiled]
  rfl

theorem passes_compiled : compileMachine RtFuncs.idle passing 0 passes = some passMachine := by
  have plain : unrollInfo { passing with currentBranch := 0 } 0 [] [sevenToX, selfOfX] = none := rfl
  have first : compileBranchCode RtFuncs.idle { passing with currentBranch := 0 } 0 []
      [sevenToX, selfOfX] = some ⟨fastCode bindOp [0] 1 ++ [(1, enterBlock)], none⟩ := by
    simp only [compileBranchCode, compileBranch, plain, first_compiled]
    rfl
  have second : compileBranchCode RtFuncs.idle { passing with currentBranch := 1 } 0 [xParam]
      [.var "x" .unknown] = some ⟨fastCode takeOp [0] 1, none⟩ := rfl
  simp only [compileMachine, passes, List.zipIdx_cons, List.zipIdx_nil, List.mapM_cons,
    List.mapM_nil, Nat.zero_add, first, second]
  rfl

theorem passSelf_word (word : Word) (world : Unit) :
    passSelf .idle { passing with currentBranch := 0 } passing.currentMachine
      (exprTypeStrs [.var "x" .unknown] passScope.lakeTypeOf) [word] world = ([word], world) := by
  have types : exprTypeStrs [.var "x" .unknown] passScope.lakeTypeOf = ["i64"] := rfl
  have noPointer : isPointerLikeType "i64" = false := by decide +kernel
  rw [types, passSelf]
  simp [noPointer, RtFuncs.idle]

theorem enterBlock_eq (exec : ExecCtx Unit) :
    enterBlock exec = ({ exec.setVars [exec.actor.vars 0] with branchId := 1 }, .enter) := by
  have values : evalAll [fun view => some (view.vars 0)] (exec.view RtFuncs.idle) =
      some [exec.actor.vars 0] := rfl
  simp only [enterBlock, fusedSelfBlock, values, Option.bind_eq_bind, Option.bind_some,
    passSelf_word, passCandidates]
  simp [orTrap, branchInfo]

def passStart : ExecCtx Unit := ⟨Actor.zeroed, fun _ => 0, 0, ()⟩

/-- The first call has the reductions for one block. The second one enters the other branch. -/
theorem seven_follows : ∃ entry final : Proc Unit,
    Lives .idle passing passes passStart.proc entry ∧ entry.branchId = 1 ∧
      BodyMeans .idle passing passes entry (.on final) ∧ final.actor.tempVal = 7 := by
  have plain : ∀ branch ∈ passes, unrollInfo passing 0 branch.1 branch.2 = none := by
    intro branch member
    simp only [passes, List.mem_cons, List.not_mem_nil, or_false] at member
    rcases member with rfl | rfl <;> rfl
  let bound := passStart.setVar 0 7
  let entered : ExecCtx Unit := { bound.setVars [7] with branchId := 1 }
  let limited : Call Unit := .stop ⟨bound, 1, 0, 1, none⟩ .limit
  have first : ActorStep RtFuncs.idle passMachine (.start 1 passStart 0) (.step false) limited :=
    .step (.goto rfl ⟨_, rfl, List.mem_cons_self, by simp⟩ rfl)
  have again : ActorStep RtFuncs.idle passMachine limited (.again 5) (.start 5 bound 1) :=
    .again rfl (by decide) rfl (.refl _ _)
  have enters : ActorStep RtFuncs.idle passMachine (.start 5 bound 1) (.step false)
      ⟨entered, 0, 4, 1, none⟩ :=
    .step (.enter rfl ⟨_, rfl, List.mem_cons_of_mem _ List.mem_cons_self, by simp⟩
      (enterBlock_eq bound))
  have takes : ActorStep RtFuncs.idle passMachine ⟨entered, 0, 4, 1, none⟩ (.step false)
      ⟨entered.setTemp 7, 1, 3, 2, none⟩ :=
    .step (.goto rfl ⟨_, rfl, List.mem_cons_self, by simp⟩ rfl)
  have run := (((Run.refl.next first).next again).next enters).next takes
  rcases actor_follows passes_compiled plain run rfl with ⟨entry, lives, sameBranch, follows⟩
  rcases follows _ (by rw [sameBranch]; rfl) with ⟨goesOn, -⟩
  refine ⟨entry, _, lives, sameBranch, goesOn fun block member => ?_, rfl⟩
  have registered : (1 : Nat) ∈ ids (fastCode takeOp [0] 1) :=
    List.mem_map_of_mem (f := Prod.fst) member
  exact absurd registered (by decide)

end LakeNative.Control

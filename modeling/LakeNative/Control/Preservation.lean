import LakeNative.Compiler.Meaning
import LakeNative.Library.FragmentEnds
import LakeNative.Control.BlockIds
import LakeNative.Control.StagedWords
import LakeNative.Control.WaitChoice
import LakeNative.Memory.FrameBases
import LakeNative.Memory.VariableFrame

/-! # What compiled code does

The blocks that a statement is compiled to do what it means: wherever they come to an end, be
it behind the statement, in another branch or in a trap, its meaning leads there as well. What is
staged, resumed and numbered makes no difference.
-/

namespace LakeNative.Control

open LakeNative.Runtime LakeNative.Compiler LakeNative.NumberedCode LakeNative.Transitions
open LakeNative.Memory

variable {W : Type} {rt : RtFuncs W} {ctx : CompilerCtx}

/-! ## How code ends -/

/-- The block leaves the branch, to another one or in a trap. -/
inductive Halts (block : Block W) (point : Point W) : Result W → Prop where
  | enters {after} (leaves : block point.ctx = (after, .enter)) :
      Halts block point (.enters after.proc)
  | traps {after} (leaves : block point.ctx = (after, .trap)) : Halts block point .traps

variable (rt) in
/-- The code comes to this end: behind its last block, or where a block leaves the branch. -/
abbrev CodeEnds (code : Code W) (stop : Nat) (start : Point W)
    (ending : End (Point W) (Result W)) : Prop :=
  Ends Point.blockId (BlockRuns rt) Halts code stop start ending

/-- The end as a statement's meaning has it. -/
def resultOf : End (Point W) (Result W) → Result W
  | .falls final => .on final.ctx.proc
  | .halts result => result

theorem leaves_of_halts {block : Block W} {point : Point W} {result : Result W}
    (halts : Halts block point result) : result.leaves = true := by
  cases halts <;> rfl

theorem leaves_of_ends {code : Code W} {stop : Nat} {start : Point W} {ending : End (Point W) (Result W)}
    {result : Result W} (ends : CodeEnds rt code stop start ending)
    (halted : ending = .halts result) : result.leaves = true := by
  induction ends with
  | falls _ => cases halted
  | halts _ isHalt =>
      cases halted
      exact leaves_of_halts isHalt
  | step _ _ induction => exact induction halted

/-- Behind a block other actors may have run. -/
theorem resumes_of_others {exit : Exit} {before after : ExecCtx W} (others : OthersRan exit before after) :
    Resumes exit.isPark before.proc after.proc where
  vars := others.vars
  ownPid := others.ownPid
  mailboxHead := others.mailboxHead
  tempVal := others.tempVal
  branchId := others.branchId

/-- What becomes of one block. -/
inductive BlockEnds (rt : RtFuncs W) (block : Block W) (exec : ExecCtx W) (next : Nat) :
    End (Point W) (Result W) → Prop where
  | halts {result} (isHalt : ∀ id, Halts block ⟨id, exec⟩ result) :
      BlockEnds rt block exec next (.halts result)
  | falls {ran exit resumed} (runs : block exec = (ran, exit)) (resumes : exit.resume = some next)
      (yields : Yields rt exit.isPark ran.proc resumed.proc) (words : resumed.jumpArgs = ran.jumpArgs) :
      BlockEnds rt block exec next (.falls ⟨next, resumed⟩)

theorem halts_anywhere {block : Block W} {id : Nat} {exec : ExecCtx W} {result : Result W}
    (halts : Halts block ⟨id, exec⟩ result) (other : Nat) : Halts block ⟨other, exec⟩ result := by
  cases halts with
  | enters leaves => exact .enters leaves
  | traps leaves => exact .traps leaves

theorem yields_of_runs {block : Block W} {before after : Point W} {exit : Exit}
    (runs : BlockRuns rt block before exit after) : ∃ ran, block before.ctx = (ran, exit) ∧
      exit.resume = some after.blockId ∧ Yields rt exit.isPark ran.proc after.ctx.proc ∧
      after.ctx.jumpArgs = ran.jumpArgs := by
  cases runs with
  | block ran alive resumes others =>
      exact ⟨_, ran, resumes, ⟨resumes_of_others others, alive⟩, others.jumpArgs⟩

theorem blockEnds {id next : Nat} {block : Block W} {exec : ExecCtx W}
    {ending : End (Point W) (Result W)} (goes : ∀ other, Leads block other → other = next)
    (forward : id < next) (ends : CodeEnds rt [(id, block)] next ⟨id, exec⟩ ending) :
    BlockEnds rt block exec next ending := by
  have only : ∀ other, ((⟨id, exec⟩ : Point W).blockId, other) ∈ [(id, block)] → other = block := by
    intro other member
    exact (Prod.mk.inj (List.mem_singleton.mp member)).2
  rcases ends.head only (Nat.ne_of_lt forward) with ⟨result, rfl, halts⟩ | ⟨exit, after, runs, later⟩
  · exact .halts (halts_anywhere halts)
  · have atNext : after.blockId = next := goes _ (leads_of_blockRuns block _ exit _ runs)
    have fragment : Fragment Leads id next [(id, block)] := by
      apply Fragment.single (Nat.le_refl _) forward
      intro other leads
      rw [goes other leads]
      exact ⟨Nat.le_of_lt forward, Nat.le_refl _⟩
    rw [later.done fragment atNext]
    rcases yields_of_runs runs with ⟨ran, isRan, resumes, yields, words⟩
    rcases after with ⟨number, resumed⟩
    rw [show number = next from atNext] at resumes ⊢
    exact .falls isRan resumes yields words

/-- A block that only goes on. -/
theorem blockEnds_goto {id next : Nat} {change : ExecCtx W → ExecCtx W} {exec : ExecCtx W}
    {ending : End (Point W) (Result W)} (forward : id < next)
    (ends : CodeEnds rt [(id, fun exec => (change exec, .goto next))] next ⟨id, exec⟩ ending) :
    ∃ resumed, ending = .falls ⟨next, resumed⟩ ∧ Yields rt false (change exec).proc resumed.proc ∧
      resumed.jumpArgs = (change exec).jumpArgs := by
  have goes : ∀ other, Leads (fun exec : ExecCtx W => (change exec, Exit.goto next)) other →
      other = next := by
    rintro other ⟨exec, resumes⟩
    exact goesTo_const exec other resumes
  cases blockEnds goes forward ends with
  | halts isHalt => cases isHalt 0 <;> rename_i leaves <;> cases leaves
  | falls runs _ yields words =>
      cases runs
      exact ⟨_, rfl, yields, words⟩

/-! ## Statements of one block -/

variable (rt ctx) in
/-- Where the code of the statement ends, there its meaning leads. -/
def PreservesExpr (stmt : Expr) : Prop :=
  ∀ base id scope emitted exec ending, compileExpr rt ctx id scope stmt = some emitted →
    CodeEnds rt emitted.code emitted.nextId ⟨id, exec⟩ ending →
    Means rt ctx (rebase base scope) stmt exec.proc (resultOf ending)

/-- A statement that shares its block does what it means. -/
theorem means_fast {scope added : Scope} {stmt : Expr} {step : FastOp W} (base : Nat)
    (accepts : acceptsEntry stmt = true)
    (isFast : compileFast rt ctx scope stmt = some (step, added)) (exec : ExecCtx W) :
    (step exec = none → Means rt ctx (rebase base scope) stmt exec.proc .traps) ∧
      ∀ after, step exec = some after →
        Means rt ctx (rebase base scope) stmt exec.proc (.on after.proc) := by
  by_cases bound : ∃ ident ty default, stmt = .letVar ident ty (some default)
  · rcases bound with ⟨ident, ty, default, rfl⟩
    rw [compileFast] at isFast
    rcases bind_some isFast with ⟨value, isValue, result⟩
    cases result
    have evaluates : valueOf rt ctx (rebase base scope) default exec.proc =
        some (value (exec.view rt)) := congrArg (Option.map _) isValue
    constructor
    · intro isNone
      rw [Option.map_eq_none_iff.mp isNone] at evaluates
      exact .letTraps accepts evaluates
    · intro after isAfter
      rcases Option.map_eq_some_iff.mp isAfter with ⟨word, isWord, rfl⟩
      rw [isWord] at evaluates
      exact .letValue accepts evaluates
  · have other : ∀ ident ty default, stmt ≠ .letVar ident ty (some default) :=
      fun ident ty default same => bound ⟨ident, ty, default, same⟩
    rw [acceptsEntry] at accepts
    · rw [compileFast] at isFast
      · rcases bind_some isFast with ⟨value, isValue, result⟩
        cases result
        have evaluates : valueOf rt ctx (rebase base scope) stmt exec.proc =
            some (value (exec.view rt)) := congrArg (Option.map _) isValue
        constructor
        · intro isNone
          rw [Option.map_eq_none_iff.mp isNone] at evaluates
          exact .valueTraps accepts evaluates
        · intro after isAfter
          rcases Option.map_eq_some_iff.mp isAfter with ⟨word, isWord, rfl⟩
          rw [isWord] at evaluates
          exact .value accepts evaluates
      · exact other
    · exact other

/-- A block that traps where it has no result. -/
theorem blockEnds_orTrap {id next : Nat} {change : ExecCtx W → Option (ExecCtx W × Exit)}
    {exec : ExecCtx W} {ending : End (Point W) (Result W)}
    (goes : ∀ exec after, change exec = some after → after.2 = .enter ∨ after.2 = .goto next)
    (forward : id < next)
    (ends : CodeEnds rt [(id, fun exec => orTrap exec (change exec))] next ⟨id, exec⟩ ending) :
    (ending = .halts .traps ∧ change exec = none) ∨
      (∃ after, ending = .halts (.enters after.proc) ∧ change exec = some (after, .enter)) ∨
      ∃ after resumed, ending = .falls ⟨next, resumed⟩ ∧ change exec = some (after, .goto next) ∧
        Yields rt false after.proc resumed.proc := by
  have leads : ∀ other, Leads (fun exec : ExecCtx W => orTrap exec (change exec)) other →
      other = next := by
    rintro other ⟨exec, resumes⟩
    rcases orTrap_resume resumes with ⟨after, isAfter, resumes⟩
    rcases goes exec after isAfter with isEnter | isGoto
    · rw [isEnter] at resumes
      cases resumes
    · rw [isGoto] at resumes
      exact (Option.some.inj resumes).symm
  have ends := blockEnds leads forward ends
  cases changed : change exec with
  | none =>
      have trapped : orTrap exec (change exec) = (exec, .trap) := by rw [changed]; rfl
      cases ends with
      | halts isHalt =>
          cases isHalt 0 with
          | enters leaves => cases trapped.symm.trans leaves
          | traps _ => exact .inl ⟨rfl, rfl⟩
      | falls runs resumes _ _ =>
          cases trapped.symm.trans runs
          cases resumes
  | some after =>
      rcases after with ⟨after, exit⟩
      have ran : orTrap exec (change exec) = (after, exit) := by rw [changed]; rfl
      rcases goes exec _ changed with isEnter | isGoto
      · change exit = .enter at isEnter
        rw [isEnter] at ran
        cases ends with
        | halts isHalt =>
            cases isHalt 0 with
            | enters leaves =>
                cases ran.symm.trans leaves
                exact .inr (.inl ⟨_, rfl, by rw [isEnter]⟩)
            | traps leaves => cases ran.symm.trans leaves
        | falls runs resumes _ _ =>
            cases ran.symm.trans runs
            cases resumes
      · change exit = .goto next at isGoto
        rw [isGoto] at ran
        cases ends with
        | halts isHalt =>
            cases isHalt 0 with
            | enters leaves => cases ran.symm.trans leaves
            | traps leaves => cases ran.symm.trans leaves
        | falls runs _ yields _ =>
            cases ran.symm.trans runs
            exact .inr (.inr ⟨_, _, rfl, by rw [isGoto], yields⟩)

theorem preserves_pure {stmt : Expr} {base id : Nat} {scope : Scope} {emitted : Emitted W}
    {exec : ExecCtx W} {ending : End (Point W) (Result W)} (accepts : acceptsEntry stmt = true)
    (compiled : compilePure rt ctx id scope stmt = some emitted)
    (ends : CodeEnds rt emitted.code emitted.nextId ⟨id, exec⟩ ending) :
    Means rt ctx (rebase base scope) stmt exec.proc (resultOf ending) := by
  rcases bind_some compiled with ⟨⟨step, added⟩, isFast, result⟩
  cases result
  rcases means_fast base accepts isFast exec with ⟨traps, goesOn⟩
  have goes : ∀ exec after, (step exec).map (·, Exit.goto (id + 1)) = some after →
      after.2 = .enter ∨ after.2 = .goto (id + 1) := by
    intro exec after isAfter
    rcases Option.map_eq_some_iff.mp isAfter with ⟨middle, -, rfl⟩
    exact .inr rfl
  rcases blockEnds_orTrap goes (Nat.lt_succ_self id) ends with
    ⟨rfl, isNone⟩ | ⟨after, -, isAfter⟩ | ⟨after, resumed, rfl, isAfter, yields⟩
  · exact traps (Option.map_eq_none_iff.mp isNone)
  · rcases Option.map_eq_some_iff.mp isAfter with ⟨middle, -, same⟩
    cases same
  · rcases Option.map_eq_some_iff.mp isAfter with ⟨middle, isMiddle, same⟩
    cases same
    exact .pauses accepts (goesOn _ isMiddle) yields

theorem preserves_string (text : String) (ty : Ty) : PreservesExpr rt ctx (.string text ty) := by
  intro base id scope emitted exec ending compiled ends
  rw [compileExpr] at compiled
  cases compiled
  rcases blockEnds_goto (Nat.lt_succ_self id) ends with ⟨resumed, rfl, yields, -⟩
  exact .string yields

/-- What is staged does not matter to a tuple. -/
theorem storeElems_unstaged {payload : Word} {elems : List (Folded ⊕ String)} (exec : ExecCtx W) :
    (storeElems rt payload elems exec.proc.unstaged).map ExecCtx.proc =
      (storeElems rt payload elems exec).map ExecCtx.proc := by
  induction elems generalizing payload exec with
  | nil => rfl
  | cons elem elems induction =>
      cases elem with
      | inl value =>
          have sameView : exec.proc.unstaged.view rt = exec.view rt := rfl
          rw [storeElems, storeElems, sameView]
          cases value (exec.view rt) with
          | none => rfl
          | some word =>
              exact induction { exec with world := rt.store payload word exec.world }
      | inr text =>
          exact induction { exec with
            world := rt.store payload (rt.string text exec.world).1 (rt.string text exec.world).2 }

theorem preserves_tuple (elems : List Expr) : PreservesExpr rt ctx (.tuple elems) := by
  intro base id scope emitted exec ending compiled ends
  rw [compileExpr] at compiled
  rcases bind_some compiled with ⟨folded, isFolded, result⟩
  cases result
  let pair := rt.arenaAlloc (8 * BitVec.ofNat 64 elems.length) exec.world
  let filled := storeElems rt (rt.load pair.2 64 pair.1) folded { exec with world := pair.2 }
  have fills : tupleOf rt ctx (rebase base scope) elems exec.proc =
      some (filled.map fun filled => filled.proc.setTemp pair.1) := by
    have isElems : elems.mapM (tupleElem ctx (rebase base scope)) = some folded := isFolded
    have same := @storeElems_unstaged _ rt (rt.load pair.2 64 pair.1) folded { exec with world := pair.2 }
    have mapped := congrArg (Option.map (Proc.setTemp · pair.1)) same
    rw [Option.map_map, Option.map_map] at mapped
    rw [tupleOf, isElems]
    exact congrArg some mapped
  have goes : ∀ (exec : ExecCtx W) (after : ExecCtx W × Exit),
      ((storeElems rt
          (rt.load (rt.arenaAlloc (8 * BitVec.ofNat 64 elems.length) exec.world).2 64
            (rt.arenaAlloc (8 * BitVec.ofNat 64 elems.length) exec.world).1) folded
          { exec with world := (rt.arenaAlloc (8 * BitVec.ofNat 64 elems.length) exec.world).2 }).bind
        fun filled => some (filled.setTemp (rt.arenaAlloc (8 * BitVec.ofNat 64 elems.length) exec.world).1,
          Exit.goto (id + 1))) = some after →
      after.2 = .enter ∨ after.2 = .goto (id + 1) := by
    intro exec after isAfter
    rcases bind_some isAfter with ⟨middle, -, same⟩
    cases same
    exact .inr rfl
  rcases blockEnds_orTrap goes (Nat.lt_succ_self id) ends with
    ⟨rfl, isNone⟩ | ⟨after, -, isAfter⟩ | ⟨after, resumed, rfl, isAfter, yields⟩
  · have isEmpty : filled = none := by
      cases isFilled : filled with
      | none => rfl
      | some middle =>
          change (filled.bind fun filled => some (filled.setTemp pair.1, Exit.goto (id + 1))) = none
            at isNone
          rw [isFilled] at isNone
          cases isNone
    rw [isEmpty] at fills
    exact .tupleTraps fills
  · rcases bind_some isAfter with ⟨middle, -, same⟩
    cases same
  · rcases bind_some isAfter with ⟨middle, isMiddle, same⟩
    cases same
    have isFilled : filled = some middle := isMiddle
    rw [isFilled] at fills
    exact .tuple fills yields

/-! ## Bindings -/

/-- The scope and the end of a compiled statement are those of its frame. -/
theorem frame_compiled {id : Nat} {scope : Scope} {stmt : Expr} {emitted : Emitted W} (base : Nat)
    (compiled : compileExpr rt ctx id scope stmt = some emitted) :
    (frameExpr ctx (rebase base scope) stmt).scope = rebase base emitted.scope ∧
      (frameExpr ctx (rebase base scope) stmt).ends = emitted.outcome.isTerminal := by
  rcases framed_expr stmt id scope emitted compiled with ⟨framed, ends⟩
  rw [rebases_expr stmt base scope]
  exact ⟨congrArg (rebase base) framed.scope.symm, ends.symm⟩

theorem fragment_expr {id next : Nat} {scope : Scope} {stmt : Expr} {emitted : Emitted W}
    (compiled : compileExpr rt ctx id scope stmt = some emitted)
    (continues : emitted.outcome = .continued next) : Fragment Leads id next emitted.code :=
  ((compiles_expr stmt compiled).laid (Nat.le_refl _)).upTo continues

theorem preserves_letOpen (ident : String) (ty : Ty) : PreservesExpr rt ctx (.letVar ident ty none) := by
  intro base id scope emitted exec ending compiled ends
  rw [compileExpr] at compiled
  cases compiled
  rcases blockEnds_goto (Nat.lt_succ_self id) ends with ⟨resumed, rfl, yields, -⟩
  exact .letOpen yields

theorem preserves_letVar {ident : String} {ty : Ty} {default : Expr}
    (inner : PreservesExpr rt ctx default) :
    PreservesExpr rt ctx (.letVar ident ty (some default)) := by
  intro base id scope emitted exec ending compiled ends
  rw [compileExpr] at compiled
  split at compiled
  · rename_i isPureDefault
    exact preserves_pure isPureDefault compiled ends
  · rename_i notPure
    rw [Bool.not_eq_true] at notPure
    rcases bind_some compiled with ⟨value, isValue, result⟩
    rcases frame_compiled base isValue with ⟨frameScope, frameEnds⟩
    split at result
    · rename_i next continues
      cases result
      have part : value.nextId = next := nextId_of_outcome continues
      have fragment := fragment_expr isValue continues
      have save : Fragment Leads next (next + 1) [(next, (saveBlock next value.scope.len : Block W))] :=
        fragment_goesTo (Nat.le_refl _) goesTo_const
      rcases ends.append fragment save leads_of_blockRuns (Nat.le_refl _) fragment.ordered with
        ⟨result, rfl, halted⟩ | ⟨after, fell, atEnd, onward⟩
      · rw [← part] at halted
        exact .letEnds notPure (inner base id scope value exec _ isValue halted)
          (.inl (leaves_of_ends halted rfl))
      · rcases after with ⟨number, after⟩
        rw [show number = next from atEnd] at fell onward
        rw [← part] at fell
        have evaluates := inner base id scope value exec _ isValue fell
        rcases blockEnds_goto (Nat.lt_succ_self next) onward with ⟨resumed, rfl, yields, -⟩
        have goesOn : (frameExpr ctx (rebase base scope) default).ends = false := by
          rw [frameEnds, continues]
          rfl
        apply Means.letBinds notPure evaluates goesOn
        rw [frameScope]
        exact yields
    · rename_i other
      cases result
      apply Means.letEnds notPure (inner base id scope _ exec _ isValue ends)
      rw [frameEnds]
      exact .inr (isTerminal_of_ne other)

/-! ## Calls -/

/-- A `self(...)` of pure arguments reads nothing that is staged. -/
theorem fusedSelf_unstaged {candidates : List BranchInfo} {select : Memory → (Nat → Word) → Nat}
    {argTypes : List String} {folded : List Folded} {exec after : ExecCtx W} {values : List Word}
    (evaluates : evalAll folded (exec.view rt) = some values)
    (runs : fusedSelfBlock rt ctx candidates select argTypes folded exec = (after, .enter)) :
    fusedSelfBlock rt ctx candidates select argTypes folded exec.proc.unstaged =
      (after.proc.unstaged, .enter) := by
  have same : evalAll folded (exec.proc.unstaged.view rt) = some values := evaluates
  rw [fusedSelfBlock, evaluates] at runs
  rw [fusedSelfBlock, same]
  cases runs
  rfl

theorem preserves_fusedSelf {ty : Ty} {args : List Expr} {base id : Nat} {scope : Scope}
    {emitted : Emitted W} {exec : ExecCtx W} {ending : End (Point W) (Result W)}
    (arePure : allPure args = true)
    (compiled : compileFusedSelfCall rt ctx id scope args = some emitted)
    (ends : CodeEnds rt emitted.code emitted.nextId ⟨id, exec⟩ ending) :
    Means rt ctx (rebase base scope) (.jump (.var "self" ty) args) exec.proc (resultOf ending) := by
  rcases bind_some compiled with ⟨folded, folds, later⟩
  rcases bind_some later with ⟨select, selects, result⟩
  cases result
  have goes : ∀ other, Leads (fusedSelfBlock rt ctx (callCandidates ctx scope args ctx.currentMachine)
      select (exprTypeStrs args scope.lakeTypeOf) folded) other → other = id + 1 :=
    fun _ leads => absurd leads not_leads_fusedSelf
  have values : valuesOf rt ctx (rebase base scope) args exec.proc =
      some (evalAll folded (exec.view rt)) := congrArg (Option.map _) folds
  cases blockEnds goes (Nat.lt_succ_self id) ends with
  | halts isHalt =>
      cases evaluated : evalAll folded (exec.view rt) with
      | none =>
          cases isHalt 0 with
          | enters leaves =>
              dsimp only at leaves
              rw [fusedSelfBlock, evaluated] at leaves
              cases leaves
          | traps _ =>
              rw [evaluated] at values
              exact .enterTraps arePure values
      | some words =>
          cases isHalt 0 with
          | @enters after leaves =>
              have meaning : Means rt ctx (rebase base scope) (.jump (.var "self" ty) args) exec.proc
                  (.enters after.proc.unstaged.proc) :=
                .enter arePure folds selects (fusedSelf_unstaged evaluated leaves)
              exact meaning
          | traps leaves =>
              dsimp only at leaves
              rw [fusedSelfBlock, evaluated] at leaves
              cases leaves
  | falls runs resumes _ _ => exact absurd ⟨exec, by rw [runs]; exact resumes⟩ not_leads_fusedSelf

theorem proc_withResult (exec : ExecCtx W) (result : Option Word × W) :
    (withResult exec result).proc = exec.proc.returned result := by
  rcases result with ⟨value, world⟩
  cases value <;> rfl

theorem preserves_fusedRt {callee : String} {ty : Ty} {args : List Expr} {base id : Nat} {scope : Scope}
    {emitted : Emitted W} {exec : ExecCtx W} {ending : End (Point W) (Result W)}
    (fused : isFused ctx callee args = true) (notSelf : callee ≠ "self")
    (compiled : compileFusedRtCall rt ctx id scope callee args = some emitted)
    (ends : CodeEnds rt emitted.code emitted.nextId ⟨id, exec⟩ ending) :
    Means rt ctx (rebase base scope) (.jump (.var callee ty) args) exec.proc (resultOf ending) := by
  rcases bind_some compiled with ⟨folded, folds, result⟩
  cases result
  have values : valuesOf rt ctx (rebase base scope) args exec.proc =
      some (evalAll folded (exec.view rt)) := congrArg (Option.map _) folds
  have goes : ∀ (exec : ExecCtx W) (after : ExecCtx W × Exit),
      ((evalAll folded (exec.view rt)).bind fun values =>
        some (withResult exec (rt.call callee values exec.world), Exit.goto (id + 1))) = some after →
      after.2 = .enter ∨ after.2 = .goto (id + 1) := by
    intro exec after isAfter
    rcases bind_some isAfter with ⟨words, -, same⟩
    cases same
    exact .inr rfl
  rcases blockEnds_orTrap goes (Nat.lt_succ_self id) ends with
    ⟨rfl, isNone⟩ | ⟨after, -, isAfter⟩ | ⟨after, resumed, rfl, isAfter, yields⟩
  · cases evaluated : evalAll folded (exec.view rt) with
    | none =>
        rw [evaluated] at values
        exact .applyTraps fused notSelf values
    | some words =>
        rw [evaluated] at isNone
        cases isNone
  · rcases bind_some isAfter with ⟨words, -, same⟩
    cases same
  · rcases bind_some isAfter with ⟨words, evaluated, same⟩
    cases same
    rw [evaluated] at values
    rw [proc_withResult] at yields
    exact .apply fused notSelf values yields

/-- The words that a call has staged. -/
def wordsFrom (base : Nat) (exec : ExecCtx W) (index : Nat) : Word := exec.jumpArgs (base + index)

theorem spawn_staged (id : Nat) {base : Nat} {machine : String} {candidates : List BranchInfo}
    {select : Memory → (Nat → Word) → Nat} {argTypes : List String} (exec : ExecCtx W) :
    (spawnBlock rt ctx id machine candidates select argTypes base exec).1.proc =
      (spawnBlock rt ctx 0 machine candidates select argTypes 0
        { exec.proc.unstaged with jumpArgs := wordsFrom base exec }).1.proc := by
  simp only [spawnBlock, ExecCtx.staged, wordsFrom, Nat.zero_add]
  rfl

theorem changeState_staged {base : Nat} {candidates : List BranchInfo}
    {select : Memory → (Nat → Word) → Nat} {argTypes : List String} (exec : ExecCtx W) :
    (changeStateBlock rt ctx candidates select argTypes base exec).1.proc =
      (changeStateBlock rt ctx candidates select argTypes 0
        { exec.proc.unstaged with jumpArgs := wordsFrom base exec }).1.proc := by
  simp only [changeStateBlock, ExecCtx.staged, wordsFrom, Nat.zero_add]
  rfl

/-- A call that is no runtime function's is a send if its callee is a pid with a slot, else `self`
or a spawn. -/
theorem isSendTo_iff {scope : Scope} {callee : String} {ty : Ty}
    (notFunction : ctx.declaredRt callee = false) : isSendTo ctx scope callee ty =
      (if (if ty.toString = "?" then (scope.lakeTypeOf callee).getD "?" else ty.toString) = "pid" then
        scope.get callee else none).isSome := by
  rw [isSendTo, notFunction]
  generalize (if ty.toString = "?" then (scope.lakeTypeOf callee).getD "?" else ty.toString) = calleeType
  by_cases isPid : calleeType = "pid" <;> simp [isPid]

theorem isSelfCall_eq {scope : Scope} {callee : String} {ty : Ty}
    (notFunction : ctx.declaredRt callee = false) (notSend : isSendTo ctx scope callee ty = false) :
    isSelfCall ctx scope callee ty = decide (callee = "self") := by
  rw [isSendTo, notFunction] at notSend
  rw [isSelfCall, notFunction]
  generalize (if ty.toString = "?" then (scope.lakeTypeOf callee).getD "?" else ty.toString) =
    calleeType at notSend ⊢
  rw [Bool.not_false, Bool.true_and] at notSend
  rw [notSend, Bool.not_false, Bool.and_true, Bool.and_true]

/-- A runtime function returns. -/
theorem ends_rtCall {id base count : Nat} {callee : String} {exec : ExecCtx W}
    {ending : End (Point W) (Result W)}
    (ends : CodeEnds rt [(id, rtCallBlock rt id callee base count)] (id + 1) ⟨id, exec⟩ ending) :
    ∃ resumed, ending = .falls ⟨id + 1, resumed⟩ ∧ Yields rt (isParkAware callee)
      (exec.proc.returned (rt.call callee (exec.staged base count) exec.world)) resumed.proc := by
  have goes : ∀ other, Leads (rtCallBlock rt id callee base count) other → other = id + 1 := by
    rintro other ⟨exec, resumes⟩
    exact goesTo_rtCallBlock id callee _ _ exec other resumes
  have exits : (rtCallBlock rt id callee base count exec).2.resume = some (id + 1) ∧
      (rtCallBlock rt id callee base count exec).2.isPark = isParkAware callee := by
    rw [rtCallBlock]
    cases isParkAware callee with
    | true => exact ⟨rfl, rfl⟩
    | false => exact ⟨rfl, rfl⟩
  cases blockEnds goes (Nat.lt_succ_self id) ends with
  | halts isHalt =>
      cases isHalt 0 with
      | enters leaves =>
          rw [show rtCallBlock rt id callee base count exec = _ from leaves] at exits
          cases exits.1
      | traps leaves =>
          rw [show rtCallBlock rt id callee base count exec = _ from leaves] at exits
          cases exits.1
  | falls runs _ yields _ =>
      cases runs
      rw [proc_withResult] at yields
      rw [← exits.2]
      exact ⟨_, rfl, yields⟩

section Called

variable {id base : Nat} {scope : Scope} {callee : String} {ty : Ty} {args : List Expr}
  {exec : ExecCtx W} {ending : End (Point W) (Result W)} {select : Memory → (Nat → Word) → Nat}

theorem calls_function (declared : ctx.declaredRt callee = true)
    (ends : CodeEnds rt [(id, rtCallBlock rt id callee scope.jumpArgsBase args.length)] (id + 1)
      ⟨id, exec⟩ ending) :
    Called rt ctx (rebase base scope) callee ty args (wordsFrom scope.jumpArgsBase exec) exec.proc
      (resultOf ending) := by
  rcases ends_rtCall ends with ⟨resumed, rfl, yields⟩
  have called : Called rt ctx (rebase base scope) callee ty args (wordsFrom scope.jumpArgsBase exec)
      exec.proc (.on resumed.proc) := .function declared yields
  exact called

theorem calls_send {slot : Nat} (sends : isSendTo ctx scope callee ty = true)
    (isSlot : scope.get callee = some slot)
    (ends : CodeEnds rt [(id, sendBlock rt id slot scope.jumpArgsBase args.length)] (id + 1)
      ⟨id, exec⟩ ending) :
    Called rt ctx (rebase base scope) callee ty args (wordsFrom scope.jumpArgsBase exec) exec.proc
      (resultOf ending) := by
  rcases blockEnds_goto (Nat.lt_succ_self id) ends with ⟨resumed, rfl, yields, -⟩
  have called : Called rt ctx (rebase base scope) callee ty args (wordsFrom scope.jumpArgsBase exec)
      exec.proc (.on resumed.proc) := .send sends isSlot yields
  exact called

theorem calls_self (isSelf : isSelfCall ctx scope callee ty = true)
    (selects : selectBranch ctx.switch (callCandidates ctx scope args ctx.currentMachine) = some select)
    (ends : CodeEnds rt [(id, changeStateBlock rt ctx (callCandidates ctx scope args ctx.currentMachine)
      select (exprTypeStrs args scope.lakeTypeOf) scope.jumpArgsBase)] (id + 1) ⟨id, exec⟩ ending) :
    Called rt ctx (rebase base scope) callee ty args (wordsFrom scope.jumpArgsBase exec) exec.proc
      (resultOf ending) := by
  have called : Called rt ctx (rebase base scope) callee ty args (wordsFrom scope.jumpArgsBase exec)
      exec.proc (.enters (exec.proc.change rt ctx (rebase base scope) args select
        (wordsFrom scope.jumpArgsBase exec))) := .self isSelf selects
  have leads : ∀ other, Leads (changeStateBlock rt ctx (callCandidates ctx scope args
      ctx.currentMachine) select (exprTypeStrs args scope.lakeTypeOf) scope.jumpArgsBase) other →
      other = id + 1 := by
    rintro other ⟨exec, resumes⟩
    cases resumes
  cases blockEnds leads (Nat.lt_succ_self id) ends with
  | halts isHalt =>
      cases isHalt 0 with
      | @enters after leaves =>
          have isChange : exec.proc.change rt ctx (rebase base scope) args select
              (wordsFrom scope.jumpArgsBase exec) = after.proc :=
            (changeState_staged exec).symm.trans (congrArg (·.1.proc) leaves)
          rw [isChange] at called
          exact called
      | traps leaves => cases leaves
  | falls runs resumes _ _ =>
      cases runs
      cases resumes

theorem calls_spawn (notFunction : ctx.declaredRt callee = false)
    (notSend : isSendTo ctx scope callee ty = false) (notSelf : isSelfCall ctx scope callee ty = false)
    (selects : selectBranch ctx.switch (callCandidates ctx scope args callee) = some select)
    (ends : CodeEnds rt [(id, spawnBlock rt ctx id callee (callCandidates ctx scope args callee)
      select (exprTypeStrs args scope.lakeTypeOf) scope.jumpArgsBase)] (id + 1) ⟨id, exec⟩ ending) :
    Called rt ctx (rebase base scope) callee ty args (wordsFrom scope.jumpArgsBase exec) exec.proc
      (resultOf ending) := by
  rcases blockEnds_goto (Nat.lt_succ_self id) ends with ⟨resumed, rfl, yields, -⟩
  have spawned : Yields rt false (exec.proc.spawn rt ctx (rebase base scope) args callee select
      (wordsFrom scope.jumpArgsBase exec)) resumed.proc :=
    (congrArg (Yields rt false · resumed.proc) (spawn_staged id exec)).mp yields
  have called : Called rt ctx (rebase base scope) callee ty args (wordsFrom scope.jumpArgsBase exec)
      exec.proc (.on resumed.proc) := .spawn notFunction notSend notSelf selects spawned
  exact called

/-- The block of a call does with the staged words what the call means. -/
theorem called_of_ends {emitted : Emitted W}
    (compiled : compileCall rt ctx id scope callee ty args = some emitted)
    (ends : CodeEnds rt emitted.code emitted.nextId ⟨id, exec⟩ ending) :
    Called rt ctx (rebase base scope) callee ty args (wordsFrom scope.jumpArgsBase exec) exec.proc
      (resultOf ending) := by
  rw [compileCall] at compiled
  split at compiled
  · rename_i declared
    cases compiled
    exact calls_function declared ends
  · rename_i notFunction
    rw [Bool.not_eq_true] at notFunction
    dsimp only at compiled
    have isSend : isSendTo ctx scope callee ty = _ := isSendTo_iff notFunction
    split at compiled
    · rename_i slot isSlot
      cases compiled
      rw [isSlot] at isSend
      have hasSlot : scope.get callee = some slot := by
        by_cases isPid : (if ty.toString = "?" then (scope.lakeTypeOf callee).getD "?" else
            ty.toString) = "pid"
        · rwa [if_pos isPid] at isSlot
        · rw [if_neg isPid] at isSlot
          cases isSlot
      exact calls_send isSend hasSlot ends
    · rename_i noSlot
      rw [noSlot] at isSend
      have isSelf := isSelfCall_eq notFunction isSend
      rcases bind_some compiled with ⟨select, selects, result⟩
      split at result
      · rename_i named
        cases result
        rw [decide_eq_true named] at isSelf
        rw [if_pos named] at selects
        exact calls_self isSelf selects ends
      · rename_i notSelf
        cases result
        rw [if_neg notSelf] at selects
        rw [decide_eq_false notSelf] at isSelf
        exact calls_spawn notFunction isSend isSelf selects ends

end Called

/-! ## Arguments -/

/-- Code that keeps a staged word has kept it behind its end. -/
theorem kept_ends {base stop : Nat} {code : Code W} (keeps : KeepsBelow base code) {start final : Point W}
    {ending : End (Point W) (Result W)} (ends : CodeEnds rt code stop start ending)
    (fell : ending = .falls final) {slot : Nat} (below : slot < base) :
    final.ctx.jumpArgs slot = start.ctx.jumpArgs slot := by
  induction ends with
  | falls _ =>
      cases fell
      rfl
  | halts _ _ => cases fell
  | @step current _ _ _ taken _ induction =>
      rcases taken with ⟨block, member, runs⟩
      rcases yields_of_runs runs with ⟨ran, isRan, -, -, words⟩
      have kept := keeps _ member current.ctx slot below
      dsimp only at kept
      rw [isRan] at kept
      rw [induction fell, words]
      exact kept

/-- A value and the block that stages it. -/
theorem ends_stage {id next slot : Nat} {code : Code W} {exec : ExecCtx W}
    {ending : End (Point W) (Result W)} (fragment : Fragment Leads id next code)
    (ends : CodeEnds rt (code ++ [(next, stageBlock next slot)]) (next + 1) ⟨id, exec⟩ ending) :
    (∃ result, ending = .halts result ∧ CodeEnds rt code next ⟨id, exec⟩ (.halts result)) ∨
      ∃ middle staged, ending = .falls ⟨next + 1, staged⟩ ∧
        CodeEnds rt code next ⟨id, exec⟩ (.falls ⟨next, middle⟩) ∧
        Yields rt false middle.proc staged.proc ∧
        staged.jumpArgs = Function.update middle.jumpArgs slot middle.actor.tempVal := by
  have stage : Fragment Leads next (next + 1) [(next, (stageBlock next slot : Block W))] :=
    fragment_goesTo (Nat.le_refl _) (goesTo_stageBlock next slot)
  rcases ends.append fragment stage leads_of_blockRuns (Nat.le_refl _) fragment.ordered with
    halted | ⟨after, fell, atEnd, onward⟩
  · exact .inl halted
  · rcases after with ⟨number, middle⟩
    rw [show number = next from atEnd] at fell onward
    rcases blockEnds_goto (Nat.lt_succ_self next) onward with ⟨staged, rfl, yields, words⟩
    exact .inr ⟨middle, staged, rfl, fell, yields, words⟩

variable (rt ctx) in
/-- Where the code of the arguments ends, there they lead, and behind them their words are staged. -/
def PreservesArgs (args : List Expr) : Prop :=
  ∀ origin base count index id scope emitted exec ending, index + args.length ≤ count →
    compileArgs rt ctx base count index id (rebase base scope) args = some emitted →
    CodeEnds rt emitted.code emitted.nextId ⟨id, exec⟩ ending →
    ∃ values, MeansArgs rt ctx (rebase origin scope) args exec.proc values (resultOf ending) ∧
      ∀ final, ending = .falls final → ∀ position value, values[position]? = some value →
        final.ctx.jumpArgs (base + index + position) = value

theorem preserves_args_cons {arg : Expr} {args : List Expr} (inner : PreservesExpr rt ctx arg)
    (later : PreservesArgs rt ctx args) : PreservesArgs rt ctx (arg :: args) := by
  intro origin base count index id scope emitted exec ending within compiled ends
  rw [List.length_cons] at within
  rw [compileArgs] at compiled
  rcases bind_some compiled with ⟨value, isValue, result⟩
  split at result
  · rename_i next continues
    rcases bind_some result with ⟨rest, isRest, result⟩
    cases result
    have part : value.nextId = next := nextId_of_outcome continues
    have isValue : compileExpr rt ctx id (rebase (base + count) scope) arg = some value := isValue
    have means : ∀ ending, CodeEnds rt value.code value.nextId ⟨id, exec⟩ ending →
        Means rt ctx (rebase origin scope) arg exec.proc (resultOf ending) :=
      fun ending => inner origin id (rebase (base + count) scope) value exec ending isValue
    have fragment := fragment_expr isValue continues
    have staging := fragment_concat fragment (goesTo_stageBlock next (base + index))
    have restCompiles := compiles_args args isRest
    have restFragment : Fragment Leads (next + 1) rest.nextId rest.code :=
      (restCompiles.laid (Nat.le_refl _)).fragment
    rcases ends.append staging restFragment leads_of_blockRuns (Nat.le_refl _) staging.ordered with
      ⟨result, rfl, halted⟩ | ⟨after, fell, atEnd, onward⟩
    · rcases ends_stage fragment halted with ⟨other, same, inValue⟩ | ⟨middle, staged, same, -⟩
      · cases same
        rw [← part] at inValue
        refine ⟨[], .leaves (means _ inValue) (leaves_of_ends inValue rfl), ?_⟩
        intro final fell
        cases fell
      · cases same
    · rcases ends_stage fragment fell with ⟨result, same, -⟩ | ⟨middle, staged, same, inValue, yields, words⟩
      · cases same
      · cases same
        rw [← part] at inValue
        have frameScope : (frameExpr ctx (rebase origin scope) arg).scope = rebase origin value.scope :=
          (frame_compiled origin isValue).1
        rcases later origin base count (index + 1) (next + 1) value.scope rest staged ending (by omega)
          isRest onward with ⟨values, others, holds⟩
        refine ⟨middle.actor.tempVal :: values, .cons (means _ inValue) yields ?_, ?_⟩
        · rw [frameScope]
          exact others
        · intro final isFinal position word atPosition
          cases position with
          | zero =>
              cases atPosition
              have keeps : KeepsBelow (base + (index + 1)) rest.code :=
                (stages restCompiles ⟨rfl, by omega⟩).keeps
              rw [kept_ends keeps onward isFinal (by omega)]
              change staged.jumpArgs (base + index) = _
              rw [words, Function.update_self]
          | succ position =>
              have held := holds final isFinal position word atPosition
              rw [show base + index + (position + 1) = base + (index + 1) + position by omega]
              exact held
  · cases result

theorem frame_args_compiled {base count index id : Nat} {scope : Scope} {args : List Expr}
    {emitted : Emitted W} (origin width : Nat)
    (compiled : compileArgs rt ctx base count index id (rebase base scope) args = some emitted) :
    (frameArgs ctx origin width (rebase origin scope) args).scope = rebase origin emitted.scope := by
  have framed := framed_args args base count index id (rebase base scope) emitted compiled
  rw [rebases_args args origin base width count scope]
  exact congrArg (rebase origin) framed.scope.symm

theorem preserves_staged {callee : String} {ty : Ty} {args : List Expr} {origin id : Nat}
    {scope : Scope} {staged call : Emitted W} {exec : ExecCtx W} {ending : End (Point W) (Result W)}
    (inner : PreservesArgs rt ctx args) (notValue : isPure (.jump (.var callee ty) args) = false)
    (notFused : isFused ctx callee args = false)
    (isStaged : compileArgs rt ctx scope.jumpArgsBase args.length 0 id scope args = some staged)
    (isCall : compileCall rt ctx staged.nextId staged.scope callee ty args = some call)
    (ends : CodeEnds rt (staged.code ++ call.code) call.nextId ⟨id, exec⟩ ending) :
    Means rt ctx (rebase origin scope) (.jump (.var callee ty) args) exec.proc (resultOf ending) := by
  have compiles := compiles_args args isStaged
  have fragment : Fragment Leads id staged.nextId staged.code :=
    (compiles.laid (Nat.le_refl _)).fragment
  have alsoFragment : Fragment Leads staged.nextId call.nextId call.code :=
    (Laid.of_oneBlock (oneBlock_call isCall) (Nat.le_refl _)).fragment
  have means : ∀ ending, CodeEnds rt staged.code staged.nextId ⟨id, exec⟩ ending →
      ∃ values, MeansArgs rt ctx (rebase origin scope) args exec.proc values (resultOf ending) ∧
        ∀ final, ending = .falls final → ∀ position value, values[position]? = some value →
          final.ctx.jumpArgs (scope.jumpArgsBase + 0 + position) = value :=
    fun ending => inner origin scope.jumpArgsBase args.length 0 id scope staged exec ending (by omega)
      isStaged
  rcases ends.append fragment alsoFragment leads_of_blockRuns (Nat.le_refl _) fragment.ordered with
    ⟨result, rfl, halted⟩ | ⟨after, fell, atEnd, onward⟩
  · rcases means _ halted with ⟨values, evaluates, -⟩
    exact .callLeaves notValue notFused evaluates (leaves_of_ends halted rfl)
  · rcases means _ fell with ⟨values, evaluates, holds⟩
    rcases after with ⟨number, after⟩
    rw [show number = staged.nextId from atEnd] at onward
    have restored : staged.scope.jumpArgsBase = scope.jumpArgsBase :=
      (stages compiles ⟨rfl, by omega⟩).restores
    have called : Called rt ctx (rebase origin staged.scope) callee ty args _ _ _ :=
      called_of_ends isCall onward
    rw [restored, ← frame_args_compiled origin args.length isStaged] at called
    refine .call notValue notFused evaluates ?_ called
    intro position value atPosition
    exact holds _ rfl position value atPosition

theorem preserves_jump {ident : Expr} {args : List Expr} (inner : PreservesArgs rt ctx args) :
    PreservesExpr rt ctx (.jump ident args) := by
  intro origin id scope emitted exec ending compiled ends
  by_cases isValue : isPure (.jump ident args) = true
  · rw [compileExpr_pure isValue] at compiled
    exact preserves_pure isValue compiled ends
  · by_cases named : ∃ callee ty, ident = .var callee ty
    · rcases named with ⟨callee, ty, rfl⟩
      rw [compileExpr, if_neg isValue] at compiled
      rw [Bool.not_eq_true] at isValue
      split at compiled
      · rename_i fused
        rcases fused with ⟨rfl, arePure⟩
        exact preserves_fusedSelf arePure compiled ends
      · rename_i notSelf
        split at compiled
        · rename_i fused
          rcases fused with ⟨notPark, declared, arePure⟩
          have isFunction : isFused ctx callee args = true := by
            simp [isFused, arePure, declared, notPark]
          exact preserves_fusedRt isFunction (fun same => notSelf ⟨same, arePure⟩) compiled ends
        · rename_i notFunction
          rcases bind_some compiled with ⟨staged, isStaged, result⟩
          rcases bind_some result with ⟨call, isCall, result⟩
          cases result
          have notFused : isFused ctx callee args = false := by
            rw [isFused]
            cases arePure : allPure args with
            | false => rfl
            | true => simp_all
          exact preserves_staged inner isValue notFused isStaged isCall ends
    · rw [compileExpr, if_neg isValue] at compiled
      · cases compiled
      · exact fun callee ty same => named ⟨callee, ty, same⟩

theorem preserves_args_nil : PreservesArgs rt ctx [] := by
  intro origin base count index id scope emitted exec ending _ compiled ends
  rw [compileArgs] at compiled
  cases compiled
  have nothing : Fragment Leads id id ([] : Code W) := .nil (Nat.le_refl id)
  rw [ends.done nothing rfl]
  refine ⟨[], .nil, ?_⟩
  intro final _ position value atPosition
  cases atPosition

/-- All arguments have a word. -/
theorem length_of_meansArgs {scope : Scope} {args : List Expr} {before after : Proc W}
    {values : List Word} {result : Result W} (means : MeansArgs rt ctx scope args before values result)
    (goesOn : result = .on after) : values.length = args.length := by
  induction args generalizing scope before values with
  | nil =>
      cases means
      rfl
  | cons arg args induction =>
      cases means with
      | cons _ _ rest => exact congrArg (· + 1) (induction rest)
      | leaves _ leaves =>
          rw [goesOn] at leaves
          cases leaves

theorem preserves_index {receiver index : Expr} (inner : PreservesExpr rt ctx receiver)
    (other : PreservesExpr rt ctx index) : PreservesExpr rt ctx (.index receiver index) := by
  intro origin id scope emitted exec ending compiled ends
  cases isValue : isPure (.index receiver index) with
  | true =>
      rw [compileExpr, if_pos isValue] at compiled
      exact preserves_pure isValue compiled ends
  | false =>
      rcases compile_index isValue compiled with
        ⟨buf, atBuf, offset, atOffset, isBuf, bufContinues, isOffset, offsetContinues, rfl⟩
      -- The receiver and the index are the arguments of a call.
      have isStaged : compileArgs rt ctx scope.jumpArgsBase 2 0 id scope [receiver, index] = some {
          outcome := .continued (atOffset + 1)
          code := buf.code ++ [(atBuf, stageBlock atBuf scope.jumpArgsBase)] ++ offset.code ++
            [(atOffset, stageBlock atOffset (scope.jumpArgsBase + 1))]
          scope := { offset.scope with jumpArgsBase := scope.jumpArgsBase } } := by
        simp only [compileArgs, isBuf, isOffset, bufContinues, offsetContinues,
          Option.bind_eq_bind, Option.bind_some, List.append_nil, List.append_assoc]
        rfl
      have fragment := ((compiles_args _ isStaged).laid (Nat.le_refl _)).fragment
      have load : Fragment Leads (atOffset + 1) (atOffset + 2)
          [(atOffset + 1, rtCallBlock rt (atOffset + 1) "rt_load_u8" scope.jumpArgsBase 2)] :=
        fragment_goesTo (Nat.le_refl _) (goesTo_rtCallBlock _ _ _ _)
      have pair : PreservesArgs rt ctx [receiver, index] :=
        preserves_args_cons inner (preserves_args_cons other preserves_args_nil)
      rcases ends.append fragment load leads_of_blockRuns (Nat.le_refl _) fragment.ordered with
        ⟨result, rfl, halted⟩ | ⟨after, fell, atEnd, onward⟩
      · rcases pair origin _ 2 0 id scope _ exec _ (by simp) isStaged halted with ⟨values, evaluates, -⟩
        exact .indexLeaves isValue evaluates (leaves_of_ends halted rfl)
      · rcases pair origin _ 2 0 id scope _ exec _ (by simp) isStaged fell with
          ⟨values, evaluates, holds⟩
        rcases List.length_eq_two.mp (length_of_meansArgs evaluates rfl) with ⟨pointer, position, rfl⟩
        rcases after with ⟨number, after⟩
        rw [show number = atOffset + 1 from atEnd] at onward
        rcases ends_rtCall onward with ⟨resumed, rfl, yields⟩
        have words : after.staged scope.jumpArgsBase 2 = [pointer, position] := by
          have first := holds _ rfl 0 pointer rfl
          have second := holds _ rfl 1 position rfl
          exact congrArg₂ (fun left right => [left, right]) first second
        rw [words] at yields
        exact .index isValue evaluates yields

/-! ## Bodies -/

variable (rt ctx) in
def PreservesSeq (body : List Expr) : Prop :=
  ∀ base id scope emitted exec ending, compileSeq rt ctx id scope body = some emitted →
    CodeEnds rt emitted.code emitted.nextId ⟨id, exec⟩ ending →
    MeansSeq rt ctx (rebase base scope) body exec.proc (resultOf ending)

theorem ends_nil {id : Nat} {exec : ExecCtx W} {ending : End (Point W) (Result W)}
    (ends : CodeEnds rt [] id ⟨id, exec⟩ ending) : ending = .falls ⟨id, exec⟩ := by
  have nothing : Fragment Leads id id ([] : Code W) := .nil (Nat.le_refl id)
  exact ends.done nothing rfl

/-- A statement with others behind it. -/
theorem means_first {stmt : Expr} {body : List Expr} {base id next : Nat} {scope : Scope}
    {first rest : Emitted W} {exec : ExecCtx W} {ending : End (Point W) (Result W)}
    (inner : PreservesExpr rt ctx stmt) (isFirst : compileExpr rt ctx id scope stmt = some first)
    (continues : first.outcome = .continued next)
    (behind : Fragment Leads next rest.nextId rest.code)
    (later : ∀ after, CodeEnds rt rest.code rest.nextId ⟨next, after⟩ ending →
      MeansSeq rt ctx (rebase base first.scope) body after.proc (resultOf ending))
    (ends : CodeEnds rt (first.code ++ rest.code) rest.nextId ⟨id, exec⟩ ending) :
    MeansSeq rt ctx (rebase base scope) (stmt :: body) exec.proc (resultOf ending) := by
  rcases frame_compiled base isFirst with ⟨frameScope, frameEnds⟩
  have part : first.nextId = next := nextId_of_outcome continues
  have fragment := fragment_expr isFirst continues
  rcases ends.append fragment behind leads_of_blockRuns (Nat.le_refl _) fragment.ordered with
    ⟨result, rfl, halted⟩ | ⟨after, fell, atEnd, onward⟩
  · rw [← part] at halted
    exact .ends (inner base id scope first exec _ isFirst halted) (.inl (leaves_of_ends halted rfl))
  · rcases after with ⟨number, after⟩
    rw [show number = next from atEnd] at fell onward
    rw [← part] at fell
    have goesOn : (frameExpr ctx (rebase base scope) stmt).ends = false := by
      rw [frameEnds, continues]
      rfl
    refine .cons (inner base id scope first exec _ isFirst fell) goesOn ?_
    rw [frameScope]
    exact later after onward

/-- A statement behind which nothing is compiled. -/
theorem means_last {stmt : Expr} {body : List Expr} {base id : Nat} {scope : Scope} {first : Emitted W}
    {exec : ExecCtx W} {ending : End (Point W) (Result W)} (inner : PreservesExpr rt ctx stmt)
    (isFirst : compileExpr rt ctx id scope stmt = some first)
    (terminal : first.outcome.isTerminal = true)
    (ends : CodeEnds rt first.code first.nextId ⟨id, exec⟩ ending) :
    MeansSeq rt ctx (rebase base scope) (stmt :: body) exec.proc (resultOf ending) := by
  rcases frame_compiled base isFirst with ⟨-, frameEnds⟩
  exact .ends (inner base id scope first exec _ isFirst ends) (.inr (frameEnds.trans terminal))

theorem preserves_seq_cons {stmt : Expr} {body : List Expr} (inner : PreservesExpr rt ctx stmt)
    (later : PreservesSeq rt ctx body) : PreservesSeq rt ctx (stmt :: body) := by
  intro base id scope emitted exec ending compiled ends
  rw [compileSeq] at compiled
  rcases bind_some compiled with ⟨first, isFirst, result⟩
  split at result
  · rename_i next continues
    rcases bind_some result with ⟨rest, isRest, result⟩
    cases result
    have behind : Fragment Leads next rest.nextId rest.code :=
      ((compiles_seq body isRest).laid (Nat.le_refl _)).fragment
    exact means_first inner isFirst continues behind
      (fun after => later base next first.scope rest after ending isRest) ends
  · rename_i other
    cases result
    exact means_last inner isFirst (isTerminal_of_ne other) ends

variable (rt ctx) in
/-- The open run of a body is entered at its start, with what its statements have done together. -/
def PreservesBody (body : List Expr) : Prop :=
  ∀ base run op id scope emitted exec ending, (run = [] → op = some) →
    (run ≠ [] → body.head?.elim false acceptsEntry = true) →
    (Task.body run op id scope body).Placed →
    compileBody rt ctx run op id scope body = some emitted →
    CodeEnds rt emitted.code emitted.nextId ⟨run.head?.getD id, exec⟩ ending →
    (op exec = none ∧ resultOf ending = .traps) ∨ ∃ after, op exec = some after ∧
      MeansSeq rt ctx (rebase base scope) body after.proc (resultOf ending)

/-- A body without an open run. -/
theorem PreservesBody.closed {body : List Expr} (preserves : PreservesBody rt ctx body) {base id : Nat}
    {scope : Scope} {emitted : Emitted W} {exec : ExecCtx W} {ending : End (Point W) (Result W)}
    (compiled : compileBody rt ctx [] some id scope body = some emitted)
    (ends : CodeEnds rt emitted.code emitted.nextId ⟨id, exec⟩ ending) :
    MeansSeq rt ctx (rebase base scope) body exec.proc (resultOf ending) := by
  rcases preserves base [] some id scope emitted exec ending (fun _ => rfl)
    (fun notNil => absurd rfl notNil) (placed_body _ _ _ _) compiled ends with
    ⟨isNone, -⟩ | ⟨same, isSame, means⟩
  · cases isNone
  · cases isSame
    exact means

/-- Behind a statement that shares its block its neighbours are in its scope. -/
theorem frame_fast {scope added : Scope} {stmt : Expr} {step : FastOp W} (base : Nat)
    (accepts : acceptsEntry stmt = true)
    (isFast : compileFast rt ctx scope stmt = some (step, added)) :
    frameExpr ctx (rebase base scope) stmt = .start (rebase base added) := by
  rw [rebases_expr, frameExpr_fast accepts isFast]
  rfl

/-- What comes of the first statement of a run, and then of the others. -/
theorem means_joined {scope added : Scope} {stmt : Expr} {body : List Expr} {op step : FastOp W}
    {base : Nat} {exec : ExecCtx W} {result : Result W} (accepts : acceptsEntry stmt = true)
    (isFast : compileFast rt ctx scope stmt = some (step, added))
    (later : ((op exec).bind step = none ∧ result = .traps) ∨
      ∃ after, (op exec).bind step = some after ∧ ∀ before,
        Means rt ctx (rebase base scope) stmt before (.on after.proc) →
          ∃ middle, Means rt ctx (rebase base scope) stmt before (.on middle) ∧
            MeansSeq rt ctx (rebase base added) body middle result) :
    (op exec = none ∧ result = .traps) ∨ ∃ after, op exec = some after ∧
      MeansSeq rt ctx (rebase base scope) (stmt :: body) after.proc result := by
  have frame := frame_fast base accepts isFast
  cases isBefore : op exec with
  | none =>
      rw [isBefore] at later
      rcases later with ⟨-, traps⟩ | ⟨after, isAfter, -⟩
      · exact .inl ⟨rfl, traps⟩
      · cases isAfter
  | some before =>
      rcases means_fast base accepts isFast before with ⟨traps, goesOn⟩
      rw [isBefore] at later
      rcases later with ⟨isNone, rfl⟩ | ⟨after, isAfter, means⟩
      · exact .inr ⟨before, rfl, .ends (traps isNone) (.inl rfl)⟩
      · rcases means before.proc (goesOn after isAfter) with ⟨middle, evaluates, rest⟩
        refine .inr ⟨before, rfl, .cons evaluates ?_ ?_⟩
        · rw [frame]
          rfl
        · rw [frame]
          exact rest

theorem placed_concat {run : List Nat} {op : FastOp W} (step : FastOp W) {id : Nat} {scope : Scope}
    (added : Scope) {stmts : List Expr} (body : List Expr)
    (placed : (Task.body run op id scope stmts).Placed) :
    (Task.body (run ++ [id]) step (id + 1) added body).Placed := by
  rw [Task.Placed, first_concat run op step id scope added stmts body]
  refine ⟨Nat.le_succ_of_le placed.1, fun earlier member => ?_⟩
  rcases List.mem_append.mp member with isEarlier | isLast
  · have range := placed.2 earlier isEarlier
    omega
  · rw [List.mem_singleton.mp isLast]
    exact ⟨placed.1, Nat.lt_succ_self _⟩

/-- The block of a run traps, or it does what the statements do and goes on behind them. -/
theorem ends_fast {run : List Nat} {op joined : FastOp W} {id : Nat} {scope : Scope} {stmts : List Expr}
    {rest : Emitted W} {exec : ExecCtx W} {ending : End (Point W) (Result W)}
    (placed : (Task.body run op id scope stmts).Placed)
    (behind : Fragment Leads (id + 1) rest.nextId rest.code)
    (ends : CodeEnds rt (fastCode joined (run ++ [id]) (id + 1) ++ rest.code) rest.nextId
      ⟨run.head?.getD id, exec⟩ ending) :
    (joined exec = none ∧ ending = .halts .traps) ∨ ∃ after resumed, joined exec = some after ∧
      Yields rt false after.proc resumed.proc ∧
      CodeEnds rt rest.code rest.nextId ⟨id + 1, resumed⟩ ending := by
  have fragment : Fragment Leads (run.head?.getD id) (id + 1)
      (fastCode joined (run ++ [id]) (id + 1)) := fragment_fastCode placed.1 placed.2
  have low : run.head?.getD id ≤ id := placed.1
  have only : ∀ other, (run.head?.getD id, other) ∈ fastCode joined (run ++ [id]) (id + 1) ++ rest.code →
      other = fun exec => orTrap exec ((joined exec).map fun exec => (exec, .goto (id + 1))) := by
    intro other member
    rcases List.mem_append.mp member with isFast | isRest
    · rcases List.mem_map.mp isFast with ⟨number, -, same⟩
      exact (Prod.mk.inj same).2.symm
    · have above : id + 1 ≤ run.head?.getD id := (behind.inside _ isRest).1
      omega
  have inside : run.head?.getD id ≠ rest.nextId := by
    have ordered := behind.ordered
    omega
  rcases ends.head only inside with ⟨result, rfl, halts⟩ | ⟨exit, after, runs, later⟩
  · cases isAfter : joined exec with
    | none =>
        cases halts with
        | enters leaves =>
            dsimp only at leaves
            rw [isAfter] at leaves
            cases leaves
        | traps _ => exact .inl ⟨rfl, rfl⟩
    | some after =>
        cases halts <;> rename_i leaves <;> dsimp only at leaves <;> rw [isAfter] at leaves <;>
          cases leaves
  · rcases yields_of_runs runs with ⟨ran, isRan, isResume, yields, -⟩
    rcases after with ⟨number, resumed⟩
    dsimp only at isRan
    cases isAfter : joined exec with
    | none =>
        rw [isAfter] at isRan
        cases isRan
        cases isResume
    | some after =>
        rw [isAfter] at isRan
        cases isRan
        cases isResume
        exact .inr ⟨_, resumed, rfl, yields, later.suffix (fun entry isFast =>
          (fragment.inside entry isFast).2) behind leads_of_blockRuns (Nat.le_refl _)⟩

theorem preserves_body_fast {stmt : Expr} {body : List Expr} (accepts : acceptsEntry stmt = true)
    (later : PreservesBody rt ctx body) : PreservesBody rt ctx (stmt :: body) := by
  intro base run op id scope emitted exec ending _ _ placed compiled ends
  rw [compileBody, if_pos accepts] at compiled
  rcases bind_some compiled with ⟨⟨step, added⟩, isFast, result⟩
  dsimp only at result
  apply means_joined accepts isFast
  split at result
  · rename_i alsoFast
    have head : (run ++ [id]).head?.getD (id + 1) = run.head?.getD id :=
      first_concat run op op id scope added (stmt :: body) body
    rw [← head] at ends
    rcases later base (run ++ [id]) (fun exec => (op exec).bind step) (id + 1) added emitted exec
      ending (by simp) (fun _ => alsoFast) (placed_concat _ added body placed) result ends with
      traps | ⟨after, isAfter, means⟩
    · exact .inl traps
    · exact .inr ⟨after, isAfter, fun before evaluates => ⟨after.proc, evaluates, means⟩⟩
  · rcases bind_some result with ⟨rest, isRest, result⟩
    cases result
    have behind : Fragment Leads (id + 1) rest.nextId rest.code :=
      ((compiles_body body isRest).laid (placed_body _ _ _ _)).fragment
    rcases ends_fast placed behind ends with ⟨isNone, rfl⟩ | ⟨after, resumed, isAfter, yields, onward⟩
    · exact .inl ⟨isNone, rfl⟩
    · exact .inr ⟨after, isAfter, fun before evaluates =>
        ⟨resumed.proc, .pauses accepts evaluates yields, later.closed isRest onward⟩⟩

theorem preserves_body_slow {stmt : Expr} {body : List Expr} (notFast : acceptsEntry stmt = false)
    (inner : PreservesExpr rt ctx stmt) (later : PreservesBody rt ctx body) :
    PreservesBody rt ctx (stmt :: body) := by
  intro base run op id scope emitted exec ending isStart nextFast _ compiled ends
  -- An open run goes on with a statement that shares its block.
  have noRun : run = [] := by
    by_contra notNil
    have accepts : acceptsEntry stmt = true := nextFast notNil
    rw [notFast] at accepts
    cases accepts
  rw [isStart noRun]
  rw [noRun] at ends
  refine .inr ⟨exec, rfl, ?_⟩
  rw [compileBody, if_neg (Bool.eq_false_iff.mp notFast)] at compiled
  rcases bind_some compiled with ⟨first, isFirst, result⟩
  split at result
  · rename_i next continues
    rcases bind_some result with ⟨rest, isRest, result⟩
    cases result
    have behind : Fragment Leads next rest.nextId rest.code :=
      ((compiles_body body isRest).laid (placed_body _ _ _ _)).fragment
    apply means_first inner isFirst continues behind _ ends
    intro after onward
    exact later.closed isRest onward
  all_goals
    rename_i next leaves
    cases result
    have part : first.nextId = next := nextId_of_outcome leaves
    have inFirst : CodeEnds rt first.code first.nextId ⟨id, exec⟩ ending := by
      rw [part]
      exact ends
    exact means_last inner isFirst (by rw [leaves]; rfl) inFirst

theorem preserves_seq_nil : PreservesSeq rt ctx [] := by
  intro base id scope emitted exec ending compiled ends
  rw [compileSeq] at compiled
  cases compiled
  rw [ends_nil ends]
  exact .nil

theorem preserves_body_nil : PreservesBody rt ctx [] := by
  intro base run op id scope emitted exec ending isStart nextFast _ compiled ends
  have noRun : run = [] := by
    by_contra notNil
    cases nextFast notNil
  rw [compileBody] at compiled
  cases compiled
  rw [noRun] at ends
  rw [isStart noRun, ends_nil ends]
  exact .inr ⟨exec, rfl, .nil⟩

/-! ## Arms -/

theorem frame_seq_compiled {id : Nat} {scope : Scope} {body : List Expr} {emitted : Emitted W}
    (base : Nat) (compiled : compileSeq rt ctx id scope body = some emitted) :
    (frameSeq ctx (rebase base scope) body).scope = rebase base emitted.scope := by
  rw [rebases_seq body base scope]
  exact congrArg (rebase base) (framed_seq body id scope emitted compiled).scope.symm

theorem length_armStarts {id : Nat} {scope : Scope} {branches : List (Expr × List Expr)}
    {arms : Emitted W} (compiled : Compiles rt ctx (.arms id scope branches) arms) :
    arms.starts.length = branches.length := by
  induction branches generalizing id scope arms with
  | nil =>
      cases compiled with
      | rule isRule _ _ =>
          cases isRule with
          | armsNil => rfl
  | cons branch branches induction =>
      cases compiled with
      | rule isRule _ derived =>
          cases isRule with
          | armsSelf _ | armsOn _ =>
              have isRest := derived _ (List.mem_cons_of_mem _ List.mem_cons_self)
              exact congrArg (· + 1) (induction isRest)

/-- The body of an arm, which leaves its branch or leads behind the `when`. -/
structure ArmAt (rt : RtFuncs W) (ctx : CompilerCtx) (id : Nat) (scope : Scope)
    (branches : List (Expr × List Expr)) (arms : Emitted W) (arm start : Nat) where
  body : List Expr
  scopeAt : Scope
  part : Emitted W
  isBody : body ∈ branches.map Prod.snd
  inside : Inside rt ctx (.seq start scopeAt body, part) (.arms id scope branches, arms)
  leads : (∃ next, part.outcome = .stateChange next) ∨ part.nextId ∈ arms.redirects
  means : ∀ base before result, MeansSeq rt ctx (rebase base scopeAt) body before result →
    MeansArm rt ctx (rebase base scope) branches arm before result

/-- An arm behind the first one. -/
def ArmAt.later {id later : Nat} {scope : Scope} {key : Expr} {body : List Expr}
    {branches : List (Expr × List Expr)} {first rest arms : Emitted W} {arm start : Nat}
    (isFirst : compileSeq rt ctx id scope body = some first)
    (inside : Inside rt ctx (.arms later first.scope branches, rest)
      (.arms id scope ((key, body) :: branches), arms))
    (redirects : rest.redirects ⊆ arms.redirects)
    (armAt : ArmAt rt ctx later first.scope branches rest arm start) :
    ArmAt rt ctx id scope ((key, body) :: branches) arms (arm + 1) start where
  body := armAt.body
  scopeAt := armAt.scopeAt
  part := armAt.part
  isBody := List.mem_cons_of_mem _ armAt.isBody
  inside := inside.trans armAt.inside
  leads := armAt.leads.imp_right fun isExit => redirects isExit
  means base before result runs := by
    apply MeansArm.later
    rw [frame_seq_compiled base isFirst]
    exact armAt.means base before result runs

theorem exists_armAt {id : Nat} {scope : Scope} {branches : List (Expr × List Expr)} {arms : Emitted W}
    (compiled : Compiles rt ctx (.arms id scope branches) arms) {arm start : Nat}
    (atArm : arms.starts[arm]? = some start) :
    Nonempty (ArmAt rt ctx id scope branches arms arm start) := by
  induction branches generalizing id scope arms arm with
  | nil =>
      cases compiled with
      | rule isRule _ _ =>
          cases isRule with
          | armsNil => cases atArm
  | cons branch branches induction =>
      rcases branch with ⟨key, body⟩
      cases compiled with
      | rule isRule compiled derived =>
          cases isRule with
          | @armsSelf _ _ _ _ _ first next rest leaves =>
              have isFirst := derived _ List.mem_cons_self
              have isRest := derived _ (List.mem_cons_of_mem _ List.mem_cons_self)
              cases arm with
              | zero =>
                  cases atArm
                  exact ⟨body, scope, first, List.mem_cons_self,
                    .deeper (.armsSelf leaves) compiled derived List.mem_cons_self (.here isFirst),
                    .inl ⟨next, leaves⟩, fun _ _ _ => .here⟩
              | succ arm =>
                  rcases induction isRest atArm with ⟨armAt⟩
                  exact ⟨armAt.later isFirst.compile (.deeper (.armsSelf leaves) compiled derived
                    (List.mem_cons_of_mem _ List.mem_cons_self) (.here isRest))
                    (List.Subset.refl _)⟩
          | @armsOn _ _ _ _ _ first next rest goesOn =>
              have isFirst := derived _ List.mem_cons_self
              have isRest := derived _ (List.mem_cons_of_mem _ List.mem_cons_self)
              cases arm with
              | zero =>
                  cases atArm
                  have atNext : first.nextId = next := goesOn.elim nextId_of_outcome nextId_of_outcome
                  exact ⟨body, scope, first, List.mem_cons_self,
                    .deeper (.armsOn goesOn) compiled derived List.mem_cons_self (.here isFirst),
                    .inr (atNext ▸ List.mem_cons_self), fun _ _ _ => .here⟩
              | succ arm =>
                  rcases induction isRest atArm with ⟨armAt⟩
                  exact ⟨armAt.later isFirst.compile (.deeper (.armsOn goesOn) compiled derived
                    (List.mem_cons_of_mem _ List.mem_cons_self) (.here isRest))
                    (List.subset_cons_self _ _)⟩

/-- A body that leaves its branch does not come to its end. -/
theorem not_falls {start next : Nat} {scope : Scope} {body : List Expr} {part : Emitted W}
    (compiled : Compiles rt ctx (.seq start scope body) part) (leaves : part.outcome = .stateChange next)
    {exec : ExecCtx W} {final : Point W}
    (ends : CodeEnds rt part.code part.nextId ⟨start, exec⟩ (.falls final)) : False := by
  have closed := (threaded compiled (Nat.le_refl _) trivial).closed
  have noExit : ∀ next, ¬ LeftOpen part next := by
    rintro next (isRedirect | ⟨-, other⟩)
    · rw [compiled.noRedirects nofun] at isRedirect
      cases isRedirect
    · exact other _ leaves
  have atStart : start ∈ ids part.code := by
    rcases first_known compiled trivial with registered | leftOpen
    · exact registered
    · exact absurd leftOpen (noExit _)
  -- Every block leads to another one.
  have stays : ∀ {point ending}, CodeEnds rt part.code part.nextId point ending →
      point.blockId ∈ ids part.code → ∀ final, ending ≠ .falls final := by
    intro point ending ends
    induction ends with
    | falls atStop =>
        intro registered
        rcases List.mem_map.mp registered with ⟨entry, member, same⟩
        have below := ((compiled.laid (Nat.le_refl _)).fragment.inside entry member).2
        rw [same, atStop] at below
        exact absurd below (Nat.lt_irrefl _)
    | halts _ _ =>
        intro _ final fell
        cases fell
    | step taken _ induction =>
        intro _
        rcases taken with ⟨block, member, runs⟩
        rcases closed.stays _ member _ (leads_of_blockRuns _ _ _ _ runs) with inside | leftOpen
        · exact induction inside
        · exact absurd leftOpen (noExit _)
  exact stays ends atStart final rfl

/-- A block in the middle of other code that only goes on. -/
theorem ends_goto {whole : Code W} {number stop : Nat} {change : ExecCtx W → ExecCtx W}
    {target : ExecCtx W → Nat} {exec : ExecCtx W} {ending : End (Point W) (Result W)}
    (distinct : (ids whole).Nodup)
    (member : (number, fun exec => (change exec, .goto (target exec))) ∈ whole)
    (before : number ≠ stop) (ends : CodeEnds rt whole stop ⟨number, exec⟩ ending) :
    ∃ resumed, Yields rt false (change exec).proc resumed.proc ∧
      CodeEnds rt whole stop ⟨target exec, resumed⟩ ending := by
  have only : ∀ other, (number, other) ∈ whole →
      other = fun exec => (change exec, .goto (target exec)) := by
    intro other isOther
    exact (Prod.mk.inj (List.inj_on_of_nodup_map distinct isOther member rfl)).2
  rcases ends.head only before with ⟨result, -, halts⟩ | ⟨exit, after, runs, later⟩
  · cases halts <;> rename_i leaves <;> cases leaves
  · rcases yields_of_runs runs with ⟨ran, isRan, resumes, yields, -⟩
    rcases after with ⟨atNext, resumed⟩
    cases isRan
    cases resumes
    exact ⟨resumed, yields, later⟩

section When

variable {cond : Expr} {branches : List (Expr × List Expr)} {origin id done : Nat} {scope : Scope}
  {disc arms : Emitted W} {select : Memory → Word → Option Nat}

/-- What a `when` with arms is compiled to. -/
def whenEmitted (rt : RtFuncs W) (done : Nat) (disc arms : Emitted W)
    (select : Memory → Word → Option Nat) : Emitted W where
  outcome := .continued arms.nextId
  code := disc.code ++ [(done, whenBlock rt select arms.starts arms.nextId)] ++
    arms.code ++ arms.redirects.map fun exit => (exit, redirectBlock arms.nextId)
  scope := arms.scope

/-- The arm that has been entered does what it means, and then leads behind the `when`. -/
theorem means_arm {arm start : Nat} {started : ExecCtx W} {ending : End (Point W) (Result W)}
    (bodies : ∀ body ∈ branches.map Prod.snd, PreservesSeq rt ctx body)
    (derived : Compiles rt ctx (.expr id scope (.when cond branches)) (whenEmitted rt done disc arms select))
    (armAt : ArmAt rt ctx (done + 1) disc.scope branches arms arm start)
    (inside : Inside rt ctx (.arms (done + 1) disc.scope branches, arms)
      (.expr id scope (.when cond branches), whenEmitted rt done disc arms select))
    (ends : CodeEnds rt (whenEmitted rt done disc arms select).code arms.nextId ⟨start, started⟩ ending) :
    (MeansArm rt ctx (rebase origin disc.scope) branches arm started.proc (resultOf ending) ∧
        (resultOf ending).leaves = true) ∨
      ∃ last final, MeansArm rt ctx (rebase origin disc.scope) branches arm started.proc (.on last) ∧
        Yields rt false last final.proc ∧ ending = .falls ⟨arms.nextId, final⟩ := by
  have isPart := armAt.inside.compiles
  have nested := (inside.trans armAt.inside).nested (Nat.le_refl _)
  have fragment : Fragment Leads start armAt.part.nextId armAt.part.code :=
    (isPart.laid (Nat.le_refl _)).fragment
  have means : ∀ ending, CodeEnds rt armAt.part.code armAt.part.nextId ⟨start, started⟩ ending →
      MeansArm rt ctx (rebase origin disc.scope) branches arm started.proc (resultOf ending) :=
    fun ending inPart => armAt.means origin _ _ (bodies _ armAt.isBody origin start armAt.scopeAt
      armAt.part started ending isPart.compile inPart)
  rcases ends.through fragment (nested.embeds (isPart.noRedirects nofun)) leads_of_blockRuns
    (Nat.le_refl _) fragment.ordered nested.high with
    ⟨result, rfl, halted⟩ | ⟨after, fell, atEnd, onward⟩
  · exact .inl ⟨means _ halted, leaves_of_ends halted rfl⟩
  · rcases armAt.leads with ⟨next, leaves⟩ | isExit
    · exact absurd fell (not_falls isPart leaves)
    · rcases after with ⟨number, after⟩
      rw [show number = armAt.part.nextId from atEnd] at onward
      have member : (armAt.part.nextId, redirectBlock arms.nextId) ∈
          (whenEmitted rt done disc arms select).code :=
        List.mem_append_right _ (List.mem_map_of_mem isExit)
      have whole := (derived.laid (Nat.le_refl _)).fragment
      have distinct := (threaded derived (Nat.le_refl _) trivial).closed.distinct
      have below : armAt.part.nextId ≠ arms.nextId := Nat.ne_of_lt (whole.inside _ member).2
      rcases ends_goto distinct member below onward with ⟨final, yields, behind⟩
      exact .inr ⟨_, final, means _ fell, yields, behind.done whole rfl⟩

/-- The check block goes to the arm that the value chooses, or behind the `when`. -/
theorem means_check {middle : ExecCtx W} {before : Proc W} {ending : End (Point W) (Result W)}
    (bodies : ∀ body ∈ branches.map Prod.snd, PreservesSeq rt ctx body)
    (noTable : tryBuildKTable ctx.toLiterals branches = none)
    (selected : selectArm ctx.toLiterals ctx.switch (branches.map Prod.fst) = some select)
    (derived : Compiles rt ctx (.expr id scope (.when cond branches)) (whenEmitted rt done disc arms select))
    (inside : Inside rt ctx (.arms (done + 1) disc.scope branches, arms)
      (.expr id scope (.when cond branches), whenEmitted rt done disc arms select))
    (evaluates : Means rt ctx (rebase origin scope) cond before (.on middle.proc))
    (frameScope : (frameExpr ctx (rebase origin scope) cond).scope = rebase origin disc.scope)
    (ends : CodeEnds rt (whenEmitted rt done disc arms select).code arms.nextId ⟨done, middle⟩ ending) :
    Means rt ctx (rebase origin scope) (.when cond branches) before (resultOf ending) := by
  have isArms := inside.compiles
  have whole := (derived.laid (Nat.le_refl _)).fragment
  have distinct := (threaded derived (Nat.le_refl _) trivial).closed.distinct
  have member : (done, whenBlock rt select arms.starts arms.nextId) ∈
      (whenEmitted rt done disc arms select).code :=
    List.mem_append_left _ (List.mem_append_left _ (List.mem_append_right _ List.mem_cons_self))
  have below : done ≠ arms.nextId := Nat.ne_of_lt (whole.inside _ member).2
  rcases ends_goto distinct member below ends with ⟨started, yields, onward⟩
  have chooses : armOf rt ctx branches middle.proc =
      select (rt.bytes middle.world) middle.actor.tempVal := by
    rw [armOf, selected]
    rfl
  cases isStart : (select (rt.bytes middle.world) middle.actor.tempVal).bind fun arm => arms.starts[arm]? with
  | none =>
      rw [isStart] at onward
      rw [onward.done whole rfl]
      refine .whenNoArm noTable evaluates ?_ yields
      rw [chooses]
      cases isArm : select (rt.bytes middle.world) middle.actor.tempVal with
      | none => rfl
      | some arm =>
          rw [isArm] at isStart
          have beyond := List.getElem?_eq_none_iff.mp isStart
          rw [length_armStarts isArms] at beyond
          exact List.getElem?_eq_none_iff.mpr beyond
  | some start =>
      rw [isStart] at onward
      rcases Option.bind_eq_some_iff.mp isStart with ⟨arm, isArm, atArm⟩
      rw [isArm] at chooses
      rcases exists_armAt isArms atArm with ⟨armAt⟩
      have means : (MeansArm rt ctx (rebase origin disc.scope) branches arm _ _ ∧ _) ∨ _ :=
        means_arm bodies derived armAt inside onward
      rcases means with
        ⟨runs, leaves⟩ | ⟨last, final, runs, behind, rfl⟩
      · refine .whenArmLeaves noTable evaluates chooses yields ?_ leaves
        rw [frameScope]
        exact runs
      · refine .whenArm noTable evaluates chooses yields ?_ behind
        rw [frameScope]
        exact runs

end When

theorem preserves_when {cond : Expr} {branches : List (Expr × List Expr)}
    (inner : PreservesExpr rt ctx cond)
    (bodies : ∀ body ∈ branches.map Prod.snd, PreservesSeq rt ctx body) :
    PreservesExpr rt ctx (.when cond branches) := by
  intro origin id scope emitted exec ending compiled ends
  rcases compile_when compiled with ⟨disc, done, -, isDisc, continues, isEmitted⟩
  have part : disc.nextId = done := nextId_of_outcome continues
  have fragment := fragment_expr isDisc continues
  have frameScope := (frame_compiled origin isDisc).1
  rcases isEmitted with ⟨words, table, rfl⟩ | ⟨noTable, arms, select, isArms, selected, rfl⟩
  · have lookup : Fragment Leads done (done + 1) [(done, (kTableBlock words (done + 1) : Block W))] :=
      fragment_goesTo (Nat.le_refl _) goesTo_const
    rcases ends.append fragment lookup leads_of_blockRuns (Nat.le_refl _) fragment.ordered with
      ⟨result, rfl, halted⟩ | ⟨after, fell, atEnd, onward⟩
    · rw [← part] at halted
      exact .whenLeaves (inner origin id scope disc exec _ isDisc halted) (leaves_of_ends halted rfl)
    · rcases after with ⟨number, after⟩
      rw [show number = done from atEnd] at fell onward
      rw [← part] at fell
      rcases blockEnds_goto (Nat.lt_succ_self done) onward with ⟨resumed, rfl, yields, -⟩
      exact .table table (inner origin id scope disc exec _ isDisc fell) yields
  · have derived := compiles_expr (.when cond branches) compiled
    have premises : ∀ premise ∈ [(Task.expr id scope cond, disc),
        (Task.arms (done + 1) disc.scope branches, arms)], Compiles rt ctx premise.1 premise.2 := by
      intro premise member
      rcases List.mem_pair.mp member with rfl | rfl
      · exact compiles_expr cond isDisc
      · exact compiles_arms branches isArms
    have isRule : Rule rt ctx _ (.expr id scope (.when cond branches))
        (whenEmitted rt done disc arms select) := .when continues selected
    have nested := isRule.nested premises (Nat.le_refl _) _ List.mem_cons_self
    have embeds := nested.embeds
      ((compiles_expr cond isDisc).noRedirects fun _ _ _ isArms => by cases isArms)
    have inside : Inside rt ctx (.arms (done + 1) disc.scope branches, arms)
        (.expr id scope (.when cond branches), whenEmitted rt done disc arms select) :=
      .deeper isRule compiled premises (List.mem_cons_of_mem _ List.mem_cons_self)
        (.here (compiles_arms branches isArms))
    have ordered := nested.high
    rw [part] at embeds ordered
    rcases ends.through fragment embeds leads_of_blockRuns (Nat.le_refl _) fragment.ordered
      ordered with ⟨result, rfl, halted⟩ | ⟨after, fell, atEnd, onward⟩
    · rw [← part] at halted
      exact .whenLeaves (inner origin id scope disc exec _ isDisc halted) (leaves_of_ends halted rfl)
    · rcases after with ⟨number, after⟩
      rw [show number = done from atEnd] at fell onward
      rw [← part] at fell
      exact means_check bodies noTable selected derived inside
        (inner origin id scope disc exec _ isDisc fell) frameScope onward

/-! ## Handlers -/

theorem frame_body_compiled {run : List Nat} {op : FastOp W} {id : Nat} {scope : Scope}
    {body : List Expr} {emitted : Emitted W} (base : Nat)
    (compiled : compileBody rt ctx run op id scope body = some emitted) :
    (frameSeq ctx (rebase base scope) body).scope = rebase base emitted.scope := by
  rw [rebases_seq body base scope]
  exact congrArg (rebase base) (framed_body body run op id scope emitted compiled).scope.symm

/-- The handler that is entered does what it means, and goes on with those behind it. -/
theorem means_from {handlers : List (List Pattern × List Expr)} {base id handler : Nat} {scope : Scope}
    {emitted : Emitted W} {exec : ExecCtx W} {ending : End (Point W) (Result W)}
    (bodies : ∀ body ∈ handlers.map Prod.snd, PreservesBody rt ctx body)
    (compiled : compileHandlers rt ctx id scope handlers = some emitted)
    (isHandler : handler ≤ handlers.length)
    (ends : CodeEnds rt emitted.code emitted.nextId ⟨bodyStart emitted handler, exec⟩ ending) :
    MeansFrom rt ctx (rebase base scope) handlers handler exec.proc (resultOf ending) := by
  induction handlers generalizing id scope emitted handler exec with
  | nil =>
      rw [compileHandlers] at compiled
      cases compiled
      rw [Nat.le_zero.mp isHandler] at ends ⊢
      rw [ends_nil ends]
      exact .nil
  | cons entry handlers induction =>
      rcases entry with ⟨patterns, body⟩
      rw [compileHandlers] at compiled
      rcases bind_some compiled with ⟨first, isFirst, result⟩
      rcases bind_some result with ⟨rest, isRest, result⟩
      cases result
      have isBody := bodies body List.mem_cons_self
      have others : ∀ body ∈ handlers.map Prod.snd, PreservesBody rt ctx body :=
        fun body member => bodies body (List.mem_cons_of_mem _ member)
      have frameScope := frame_body_compiled base isFirst
      have fragment : Fragment Leads id first.nextId first.code :=
        ((compiles_body body isFirst).laid (placed_body _ _ _ _)).fragment
      have restCompiles := compiles_handlers handlers isRest
      have laid : Laid first.nextId rest := restCompiles.laid (Nat.le_refl _)
      cases handler with
      | zero =>
          rcases ends.append fragment laid.fragment leads_of_blockRuns (Nat.le_refl _) fragment.ordered
            with ⟨result, rfl, halted⟩ | ⟨after, fell, atEnd, onward⟩
          · exact .leaves (isBody.closed isFirst halted) (leaves_of_ends halted rfl)
          · rcases after with ⟨number, after⟩
            rw [show number = bodyStart rest 0 from atEnd.trans (bodyStart_zero restCompiles).symm]
              at onward
            have runs : MeansSeq rt ctx (rebase base scope) body exec.proc (.on after.proc) :=
              isBody.closed isFirst fell
            apply MeansFrom.goesOn runs
            rw [frameScope]
            exact induction others isRest (Nat.zero_le _) onward
      | succ handler =>
          have late : first.nextId ≤ bodyStart rest handler := by
            rw [bodyStart]
            cases isStart : rest.starts[handler]? with
            | none => exact laid.fragment.ordered
            | some start => exact (laid.starts start (List.mem_of_getElem? isStart)).1
          have onward := ends.suffix (fun entry member => (fragment.inside entry member).2)
            laid.fragment leads_of_blockRuns late
          apply MeansFrom.later
          rw [frameScope]
          exact induction others isRest (Nat.le_of_succ_le_succ isHandler) onward

/-! ## Waiting -/

theorem chosenBy_eq {id base : Nat} {scope : Scope} {handlers : List (List Pattern × List Expr)}
    {filter : List Expr} {bodies : Emitted W} {folded : List Folded}
    {dispatch : Word → Option Nat} {exec : ExecCtx W}
    (isBodies : compileHandlers rt ctx id (registerHandlers scope (collected handlers)) handlers =
      some bodies)
    (filters : filter.mapM (fold ctx.toLiterals bodies.scope.toBranchState) = some folded)
    (dispatches : emitDispatch ctx.switch (waitAt scope handlers) = some dispatch) :
    chosenBy rt ctx (rebase base scope) handlers filter exec.proc =
      chosenHandler rt (waitAt scope handlers) dispatch folded exec := by
  have frame := @rebases_handlers ctx handlers base (registerHandlers scope (collected handlers))
  have isScope := (framed_handlers handlers _ _ _ isBodies).scope
  have sameScope : (frameHandlers ctx (handlerScope (rebase base scope) handlers) handlers).scope =
      rebase base bodies.scope :=
    (congrArg Frame.scope frame).trans (congrArg (rebase base) isScope.symm)
  rw [chosenBy, sameScope]
  change (filter.mapM (fold ctx.toLiterals bodies.scope.toBranchState)).bind (fun folded =>
    (emitDispatch ctx.switch (waitAt scope handlers)).bind fun dispatch =>
      chosenHandler rt (waitAt scope handlers) dispatch folded exec.proc.unstaged) = _
  rw [filters, dispatches]
  rfl

/-- What the check block of a `wait` does with a message, or with an empty mailbox. -/
theorem waitBlock_cases (wait : WaitExpr) (dispatch : Word → Option Nat) (filter : List Folded)
    (starts : List Nat) (id : Nat) (exec : ExecCtx W) :
    (exec.actor.mailboxHead = exec.actor.mailboxTail ∧
        waitBlock rt wait dispatch filter starts id exec = (exec, .wait id)) ∨
      exec.actor.mailboxHead ≠ exec.actor.mailboxTail ∧
        ((chosenHandler rt wait dispatch filter exec = none ∧
            (waitBlock rt wait dispatch filter starts id exec).2 = .trap) ∨
          ∃ chosen after, chosenHandler rt wait dispatch filter exec = some chosen ∧
            after.proc = exec.proc.dequeued wait ∧
            waitBlock rt wait dispatch filter starts id exec =
              (after, .goto ((chosen.bind fun handler => starts[handler]?).getD id))) := by
  rw [waitBlock]
  by_cases isEmpty : exec.actor.mailboxHead = exec.actor.mailboxTail
  · exact .inl ⟨isEmpty, if_pos isEmpty⟩
  · rw [if_neg isEmpty]
    refine .inr ⟨isEmpty, ?_⟩
    cases chosenHandler rt wait dispatch filter exec with
    | none => exact .inl ⟨rfl, rfl⟩
    | some chosen => exact .inr ⟨chosen, _, rfl, rfl, rfl⟩

theorem means_wait {handlers : List (List Pattern × List Expr)} {filter : List Expr} {base id : Nat}
    {scope : Scope} {emitted : Emitted W} {folded : List Folded} {dispatch : Word → Option Nat}
    {point : Point W} {ending : End (Point W) (Result W)}
    (bodies : ∀ body ∈ handlers.map Prod.snd, PreservesBody rt ctx body)
    (isBodies : compileHandlers rt ctx (id + 1) (registerHandlers scope (collected handlers)) handlers =
      some emitted)
    (filters : filter.mapM (fold ctx.toLiterals emitted.scope.toBranchState) = some folded)
    (dispatches : emitDispatch ctx.switch (waitAt scope handlers) = some dispatch)
    (atWait : point.blockId = id)
    (ends : CodeEnds rt ([(id, waitBlock rt (waitAt scope handlers) dispatch folded emitted.starts id)] ++
      emitted.code) emitted.nextId point ending) :
    Means rt ctx (rebase base scope) (.wait handlers filter) point.ctx.proc (resultOf ending) := by
  have isCompiled := compiles_handlers handlers isBodies
  have laid : Laid (id + 1) emitted := isCompiled.laid (Nat.le_refl _)
  have ordered := laid.fragment.ordered
  have only : ∀ other, (id, other) ∈
      [(id, waitBlock rt (waitAt scope handlers) dispatch folded emitted.starts id)] ++ emitted.code →
      other = waitBlock rt (waitAt scope handlers) dispatch folded emitted.starts id := by
    intro other member
    rcases List.mem_append.mp member with isWait | isBody
    · exact (Prod.mk.inj (List.mem_singleton.mp isWait)).2
    · have above := (laid.fragment.inside _ isBody).1
      dsimp only at above
      omega
  induction ends with
  | falls atStop => omega
  | @halts current block result member isHalt =>
      rw [atWait] at member
      rw [only block member] at isHalt
      have chosen : chosenBy rt ctx (rebase base scope) handlers filter current.ctx.proc = _ :=
        chosenBy_eq isBodies filters dispatches
      rcases waitBlock_cases (waitAt scope handlers) dispatch folded emitted.starts id current.ctx with
        ⟨-, isBlock⟩ | ⟨isMessage, ⟨isNone, traps⟩ | ⟨handler, after, -, -, isBlock⟩⟩
      · cases isHalt with
        | enters leaves => cases isBlock.symm.trans leaves
        | traps leaves => cases isBlock.symm.trans leaves
      · rw [isNone] at chosen
        cases isHalt with
        | enters leaves =>
            rw [leaves] at traps
            cases traps
        | traps _ => exact .waitTraps isMessage chosen
      · cases isHalt with
        | enters leaves => cases isBlock.symm.trans leaves
        | traps leaves => cases isBlock.symm.trans leaves
  | @step current exit next ending taken later induction =>
      rcases taken with ⟨block, member, runs⟩
      rw [atWait] at member
      rw [only block member] at runs
      rcases yields_of_runs runs with ⟨ran, isRan, resumes, yields, -⟩
      have chosen : chosenBy rt ctx (rebase base scope) handlers filter current.ctx.proc = _ :=
        chosenBy_eq isBodies filters dispatches
      rcases waitBlock_cases (waitAt scope handlers) dispatch folded emitted.starts id current.ctx with
        ⟨isEmpty, isBlock⟩ | ⟨isMessage, ⟨-, traps⟩ | ⟨handler, after, isChosen, dequeued, isBlock⟩⟩
      · cases isBlock.symm.trans isRan
        cases resumes
        exact .sleeps isEmpty yields (induction rfl)
      · rw [isRan] at traps
        change exit = .trap at traps
        rw [traps] at resumes
        cases resumes
      · cases isBlock.symm.trans isRan
        rw [isChosen] at chosen
        change Yields rt false ran.proc next.ctx.proc at yields
        rw [dequeued] at yields
        have atNext := Option.some.inj resumes
        cases isStart : handler.bind fun handler => emitted.starts[handler]? with
        | none =>
            rw [isStart] at atNext
            refine .skips isMessage chosen ?_ yields (induction atNext.symm)
            cases handler with
            | none => rfl
            | some index =>
                have beyond := List.getElem?_eq_none_iff.mp isStart
                rw [length_starts isCompiled] at beyond
                exact List.getElem?_eq_none_iff.mpr beyond
        | some start =>
            rw [isStart] at atNext
            rcases Option.bind_eq_some_iff.mp isStart with ⟨index, rfl, atHandler⟩
            have isHandler : index < handlers.length := by
              rw [← length_starts isCompiled]
              exact (List.getElem?_eq_some_iff.mp atHandler).1
            have atBody : bodyStart emitted index = start := by
              rw [bodyStart, atHandler]
              rfl
            rcases next with ⟨number, started⟩
            change start = number at atNext
            rw [← atNext, ← atBody] at later
            have late : id + 1 ≤ bodyStart emitted index := by
              rw [atBody]
              exact (laid.starts start (List.mem_of_getElem? atHandler)).1
            have inFront : ∀ entry ∈ [(id, waitBlock rt (waitAt scope handlers) dispatch folded
                emitted.starts id)], entry.1 < id + 1 := by
              intro entry member
              rw [List.mem_singleton.mp member]
              exact Nat.lt_succ_self id
            have onward := later.suffix inFront laid.fragment leads_of_blockRuns late
            exact .takes isMessage chosen isHandler yields
              (means_from bodies isBodies (Nat.le_of_lt isHandler) onward)

theorem preserves_wait {handlers : List (List Pattern × List Expr)} {filter : List Expr}
    (bodies : ∀ body ∈ handlers.map Prod.snd, PreservesBody rt ctx body) :
    PreservesExpr rt ctx (.wait handlers filter) := by
  intro base id scope emitted exec ending compiled ends
  rcases compile_wait compiled with
    ⟨inner, folded, dispatch, -, isBodies, filters, dispatches, -, rfl⟩
  exact means_wait bodies isBodies filters dispatches rfl ends

/-! ## All statements -/

theorem preserves_of_pure {stmt : Expr} (accepts : acceptsEntry stmt = isPure stmt)
    (unfolds : ∀ id scope, compileExpr rt ctx id scope stmt =
      if isPure stmt then compilePure rt ctx id scope stmt else none) : PreservesExpr rt ctx stmt := by
  intro base id scope emitted exec ending compiled ends
  rw [unfolds] at compiled
  split at compiled
  · rename_i isValue
    exact preserves_pure (accepts.trans isValue) compiled ends
  · cases compiled

mutual
theorem preserves_expr : (stmt : Expr) → PreservesExpr rt ctx stmt
  | .letVar _ _ (some default) => preserves_letVar (preserves_expr default)
  | .letVar ident ty none => preserves_letOpen ident ty
  | .string text ty => preserves_string text ty
  | .jump _ args => preserves_jump (preserves_args args)
  | .when cond branches => preserves_when (preserves_expr cond) (preserves_arms branches)
  | .wait handlers _ => preserves_wait (preserves_handlers handlers)
  | .tuple elems => preserves_tuple elems
  | .index receiver index => preserves_index (preserves_expr receiver) (preserves_expr index)
  | .num text ty => preserves_of_pure rfl fun _ _ => by rw [compileExpr] <;> simp
  | .bool value => preserves_of_pure rfl fun _ _ => by rw [compileExpr] <;> simp
  | .unit => preserves_of_pure rfl fun _ _ => by rw [compileExpr] <;> simp
  | .atom name => preserves_of_pure rfl fun _ _ => by rw [compileExpr] <;> simp
  | .var name ty => preserves_of_pure rfl fun _ _ => by rw [compileExpr] <;> simp
  | .tupleIndex receiver index => preserves_of_pure rfl fun _ _ => by rw [compileExpr] <;> simp
  | .neg inner => preserves_of_pure rfl fun _ _ => by rw [compileExpr] <;> simp
  | .binary op left right => preserves_of_pure rfl fun _ _ => by rw [compileExpr] <;> simp
  | .other parts => preserves_of_pure rfl fun _ _ => by rw [compileExpr] <;> simp

theorem preserves_args : (args : List Expr) → PreservesArgs rt ctx args
  | [] => preserves_args_nil
  | arg :: args => preserves_args_cons (preserves_expr arg) (preserves_args args)

theorem preserves_seq : (body : List Expr) → PreservesSeq rt ctx body
  | [] => preserves_seq_nil
  | stmt :: body => preserves_seq_cons (preserves_expr stmt) (preserves_seq body)

theorem preserves_arms : (branches : List (Expr × List Expr)) →
    ∀ body ∈ branches.map Prod.snd, PreservesSeq rt ctx body
  | [] => List.forall_mem_nil _
  | (_, body) :: branches => List.forall_mem_cons.mpr ⟨preserves_seq body, preserves_arms branches⟩

theorem preserves_handlers : (handlers : List (List Pattern × List Expr)) →
    ∀ body ∈ handlers.map Prod.snd, PreservesBody rt ctx body
  | [] => List.forall_mem_nil _
  | (_, body) :: handlers =>
      List.forall_mem_cons.mpr ⟨preserves_body body, preserves_handlers handlers⟩

theorem preserves_body : (body : List Expr) → PreservesBody rt ctx body
  | [] => preserves_body_nil
  | stmt :: body => by
      cases accepts : acceptsEntry stmt with
      | true => exact preserves_body_fast accepts (preserves_body body)
      | false => exact preserves_body_slow accepts (preserves_expr stmt) (preserves_body body)
end

end LakeNative.Control

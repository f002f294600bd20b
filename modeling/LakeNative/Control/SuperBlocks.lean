import LakeNative.Compiler.PlainLowering
import LakeNative.Control.BlockIds
import LakeNative.Control.FusedSelf
import LakeNative.Control.PairedCode
import LakeNative.Control.SideBySide
import LakeNative.Memory.VariableFrame

/-! # Super-blocks

Statements that share a block, and bindings that leave `TEMP_VAL` alone, do what they do in blocks
of their own that keep the last value there, provided that nothing reads `TEMP_VAL` where it is
stale.
-/

namespace LakeNative.Control

open LakeNative.Runtime LakeNative.Compiler LakeNative.NumberedCode LakeNative.Transitions
open LakeNative.Memory

variable {W : Type} {rt : RtFuncs W} {ctx : CompilerCtx} {returns : String → Bool}

/-! ## Blocks -/

/-- A block that leaves `TEMP_VAL` as it is. -/
theorem carries_over {block : Block W} (known : Bool)
    (passes : ∀ exec word, block (exec.setTemp word) = ((block exec).1.setTemp word, (block exec).2))
    (keeps : ∀ exec, (block exec).1.actor.tempVal = exec.actor.tempVal) :
    Carries known known block block := by
  intro exec word isKnown
  refine ⟨word, passes exec word, fun known _ _ => ?_⟩
  rw [isKnown known, keeps]

theorem Carries.weaken {before behind less : Bool} {merged plain : Block W}
    (carries : Carries before behind merged plain) (isLess : less = true → behind = true) :
    Carries before less merged plain := by
  intro exec word isKnown
  rcases carries exec word isKnown with ⟨left, isPlain, same⟩
  exact ⟨left, isPlain, fun isBehind => same (isLess isBehind)⟩

/-- A block that does not depend on `TEMP_VAL` and puts a value there. -/
theorem carries_set {block : Block W} (before behind : Bool)
    (same : ∀ exec word, block (exec.setTemp word) = block exec) : Carries before behind block block := by
  intro exec word _
  exact ⟨(block exec).1.actor.tempVal, same exec word, fun _ _ _ => rfl⟩

/-- Blocks that trap where they have no result. -/
theorem carries_orTrap {before behind : Bool} {change other : ExecCtx W → Option (ExecCtx W × Exit)}
    (carries : ∀ exec word, (before = true → word = exec.actor.tempVal) →
      (change exec = none ∧ other (exec.setTemp word) = none) ∨
      ∃ after exit left, change exec = some (after, exit) ∧
        other (exec.setTemp word) = some (after.setTemp left, exit) ∧
        (behind = true → exit.resume.isSome = true → left = after.actor.tempVal)) :
    Carries before behind (fun exec => orTrap exec (change exec))
      fun exec => orTrap exec (other exec) := by
  intro exec word isKnown
  dsimp only
  rcases carries exec word isKnown with ⟨isNone, alsoNone⟩ | ⟨after, exit, left, isSome, alsoSome, same⟩
  · rw [isNone, alsoNone]
    exact ⟨word, rfl, fun _ resumes => by cases resumes⟩
  · rw [isSome, alsoSome]
    exact ⟨left, rfl, fun isBehind resumes _ => same isBehind resumes⟩

theorem carries_redirect (known : Bool) (stop : Nat) :
    Carries known known (redirectBlock stop : Block W) (redirectBlock stop) :=
  carries_over known (fun _ _ => rfl) fun _ => rfl

theorem carries_spawn (known : Bool) (id : Nat) (machine : String) (candidates : List BranchInfo)
    (select : Memory → (Nat → Word) → Nat) (argTypes : List String) (base : Nat) :
    Carries known true (spawnBlock rt ctx id machine candidates select argTypes base)
      (spawnBlock rt ctx id machine candidates select argTypes base) :=
  carries_set known true fun _ _ => rfl

theorem carries_send (known : Bool) (id slot base count : Nat) :
    Carries known known (sendBlock rt id slot base count) (sendBlock rt id slot base count) := by
  apply carries_over
  · intro exec word
    rw [sendBlock, sendBlock]
    have same : rt.isOwn ((exec.setTemp word).actor.vars slot) (exec.setTemp word).world =
        rt.isOwn (exec.actor.vars slot) exec.world := rfl
    dsimp only
    rw [same]
    cases rt.isOwn (exec.actor.vars slot) exec.world <;> rfl
  · intro exec
    rw [sendBlock]
    dsimp only
    split <;> rfl

/-- The result of a runtime function is in `TEMP_VAL`, if it returns anything. -/
theorem withResult_setTemp (exec : ExecCtx W) (word : Word) (result : Option Word × W) :
    ∃ left, withResult (exec.setTemp word) result = (withResult exec result).setTemp left ∧
      (result.1.isSome = true ∨ word = exec.actor.tempVal →
        left = (withResult exec result).actor.tempVal) := by
  rcases result with ⟨value, world⟩
  cases value with
  | none =>
      refine ⟨word, rfl, ?_⟩
      rintro (returned | same)
      · cases returned
      · exact same
  | some value => exact ⟨value, rfl, fun _ => rfl⟩

variable (rt returns) in
/-- These runtime functions return a value. -/
def Returning : Prop :=
  ∀ callee, returns callee = true → ∀ args world, (rt.call callee args world).1.isSome = true

theorem carries_rtCall (returning : Returning rt returns) (known : Bool) (id : Nat) (callee : String)
    (base count : Nat) :
    Carries known (known || (returns callee || isParkAware callee)) (rtCallBlock rt id callee base count)
      (rtCallBlock rt id callee base count) := by
  intro exec word isKnown
  rcases withResult_setTemp exec word (rt.call callee (exec.staged base count) exec.world) with
    ⟨left, isLeft, same⟩
  refine ⟨left, congrArg (·, _) isLeft, fun isBehind _ notPark => same ?_⟩
  have noPark : isParkAware callee = false := by
    cases parks : isParkAware callee with
    | false => rfl
    | true =>
        rw [rtCallBlock, parks] at notPark
        cases notPark
  rw [noPark, Bool.or_false] at isBehind
  rcases Bool.or_eq_true_iff.mp isBehind with isBefore | isReturned
  · exact .inr (isKnown isBefore)
  · exact .inl (returning callee isReturned _ _)

theorem carries_changeState (known : Bool) (candidates : List BranchInfo)
    (select : Memory → (Nat → Word) → Nat) (argTypes : List String) (base : Nat) :
    Carries known true (changeStateBlock rt ctx candidates select argTypes base)
      (changeStateBlock rt ctx candidates select argTypes base) := by
  intro exec word _
  exact ⟨word, rfl, fun _ resumes => by cases resumes⟩

theorem carries_wait (known : Bool) (wait : WaitExpr) (dispatch : Word → Option Nat)
    (filter : List Folded) (starts : List Nat) (id : Nat) :
    Carries known known (waitBlock rt wait dispatch filter starts id)
      (waitBlock rt wait dispatch filter starts id) := by
  have chosen : ∀ (exec : ExecCtx W) word, chosenHandler rt wait dispatch filter (exec.setTemp word) =
      chosenHandler rt wait dispatch filter exec := fun _ _ => rfl
  apply carries_over
  · intro exec word
    rw [waitBlock, waitBlock, chosen]
    by_cases isEmpty : exec.actor.mailboxHead = exec.actor.mailboxTail
    · rw [if_pos isEmpty]
      exact if_pos isEmpty
    · rw [if_neg isEmpty]
      refine (if_neg isEmpty).trans ?_
      cases chosenHandler rt wait dispatch filter exec <;> rfl
  · intro exec
    rw [waitBlock]
    split
    · rfl
    · cases chosenHandler rt wait dispatch filter exec <;> rfl

theorem storeElems_setTemp (payload : Word) (elems : List (Folded ⊕ String)) (exec : ExecCtx W)
    (word : Word) : storeElems rt payload elems (exec.setTemp word) =
      (storeElems rt payload elems exec).map fun after => after.setTemp word := by
  induction elems generalizing payload exec with
  | nil => rfl
  | cons elem elems induction =>
      cases elem with
      | inl value =>
          rw [storeElems, storeElems]
          have same : value ((exec.setTemp word).view rt) = value (exec.view rt) := rfl
          rw [same]
          cases value (exec.view rt) with
          | none => rfl
          | some stored => exact induction (payload + 8) { exec with world := rt.store payload stored exec.world }
      | inr text =>
          rw [storeElems, storeElems]
          exact induction (payload + 8) { exec with world := rt.store payload (rt.string text exec.world).1 (rt.string text exec.world).2 }

/-! ## Statements of one block -/

/-- The one block of a statement. -/
theorem Paired.of_oneBlock {id : Nat} {emitted : Emitted W} {block : Block W} {before behind : Bool}
    (isOne : OneBlock id emitted) (isCode : emitted.code = [(id, block)])
    (carries : Carries before behind block block) :
    Paired rt id emitted.nextId before behind emitted.code emitted.code := by
  rcases isOne.code with ⟨own, isOwn, goes⟩
  rw [isCode] at isOwn
  rcases (Prod.mk.inj (List.singleton_inj.mp isOwn)).2 with rfl
  rw [isOne.nextId, isCode]
  exact .single carries goes

theorem paired_string (known : Bool) (id : Nat) (scope : Scope) (text : String) :
    Paired rt id (compileString rt id scope text).nextId known true (compileString rt id scope text).code
      (compileString rt id scope text).code :=
  .of_oneBlock (oneBlock_string id scope text) rfl (carries_set known true fun _ _ => rfl)

/-- The elements of a tuple are stored, and the tuple is in `TEMP_VAL`. -/
theorem paired_tuple {id : Nat} {scope : Scope} {elems : List Expr} {emitted : Emitted W} (known : Bool)
    (compiled : compileTuple rt ctx id scope elems = some emitted) :
    Paired rt id emitted.nextId known true emitted.code emitted.code := by
  have isOne := oneBlock_tuple compiled
  rcases bind_some compiled with ⟨folded, -, result⟩
  cases result
  apply Paired.of_oneBlock isOne rfl
  apply carries_orTrap
  intro exec word _
  let allocated : ExecCtx W :=
    { exec with world := (rt.arenaAlloc (8 * BitVec.ofNat 64 elems.length) exec.world).2 }
  let fatPtr := (rt.arenaAlloc (8 * BitVec.ofNat 64 elems.length) exec.world).1
  have moved : storeElems rt (rt.load allocated.world 64 fatPtr) folded (allocated.setTemp word) = _ :=
    storeElems_setTemp _ folded allocated word
  cases filled : storeElems rt (rt.load allocated.world 64 fatPtr) folded allocated with
  | none =>
      rw [filled, Option.map_none] at moved
      exact .inl ⟨congrArg (Option.bind · _) filled, congrArg (Option.bind · _) moved⟩
  | some after =>
      rw [filled, Option.map_some] at moved
      exact .inr ⟨after.setTemp fatPtr, .goto (id + 1), fatPtr, congrArg (Option.bind · _) filled,
        congrArg (Option.bind · _) moved, fun _ _ => rfl⟩

theorem paired_fusedRt (returning : Returning rt returns) {id : Nat} {scope : Scope} {callee : String}
    {args : List Expr} {emitted : Emitted W} (known : Bool)
    (compiled : compileFusedRtCall rt ctx id scope callee args = some emitted) :
    Paired rt id emitted.nextId known (known || returns callee) emitted.code emitted.code := by
  have isOne := oneBlock_fusedRt compiled
  rcases bind_some compiled with ⟨folded, -, result⟩
  cases result
  apply Paired.of_oneBlock isOne rfl
  apply carries_orTrap
  intro exec word isKnown
  have same : (exec.setTemp word).view rt = exec.view rt := rfl
  rw [same]
  cases values : evalAll folded (exec.view rt) with
  | none => exact .inl ⟨rfl, rfl⟩
  | some words =>
      rcases withResult_setTemp exec word (rt.call callee words exec.world) with ⟨left, isLeft, isSame⟩
      refine .inr ⟨withResult exec (rt.call callee words exec.world), .goto (id + 1), left, rfl, ?_, ?_⟩
      · exact congrArg (fun after => some (after, Exit.goto (id + 1))) isLeft
      · intro isBehind _
        rcases Bool.or_eq_true_iff.mp isBehind with isBefore | isReturned
        · exact isSame (.inr (isKnown isBefore))
        · exact isSame (.inl (returning callee isReturned _ _))

theorem paired_fusedSelf {id : Nat} {scope : Scope} {args : List Expr} {emitted : Emitted W}
    (known : Bool) (compiled : compileFusedSelfCall rt ctx id scope args = some emitted) :
    Paired rt id emitted.nextId known true emitted.code emitted.code := by
  have isOne := oneBlock_fusedSelf compiled
  rcases bind_some compiled with ⟨folded, -, result⟩
  rcases bind_some result with ⟨select, -, result⟩
  cases result
  apply Paired.of_oneBlock isOne rfl
  apply carries_orTrap
  intro exec word _
  have same : (exec.setTemp word).view rt = exec.view rt := rfl
  rw [same]
  cases values : evalAll folded (exec.view rt) with
  | none => exact .inl ⟨rfl, rfl⟩
  | some words => exact .inr ⟨_, _, word, rfl, rfl, fun _ resumes => by cases resumes⟩

/-- The block of a call behind the staging of its arguments. -/
theorem paired_call (returning : Returning rt returns) {id : Nat} {scope : Scope} {callee : String}
    {ty : Ty} {args : List Expr} {emitted : Emitted W} (known : Bool)
    (compiled : compileCall rt ctx id scope callee ty args = some emitted) :
    Paired rt id emitted.nextId known
      (known || if ctx.declaredRt callee then returns callee || isParkAware callee
        else !isSendTo ctx scope callee ty) emitted.code emitted.code := by
  have isOne := oneBlock_call compiled
  rw [compileCall] at compiled
  rw [isSendTo]
  generalize (if ty.toString = "?" then (scope.lakeTypeOf callee).getD "?" else ty.toString) =
    calleeType at compiled ⊢
  dsimp only at compiled ⊢
  split at compiled
  · rename_i declared
    cases compiled
    rw [if_pos declared]
    exact .of_oneBlock isOne rfl (carries_rtCall returning known id callee _ _)
  · rename_i undeclared
    rw [if_neg undeclared]
    by_cases isPid : calleeType = "pid"
    · rw [if_pos isPid] at compiled
      cases isSlot : scope.get callee with
      | some slot =>
          rw [isSlot] at compiled
          cases compiled
          have sends : (!ctx.declaredRt callee && decide (calleeType = "pid") && (some slot).isSome) = true := by
            simp [undeclared, isPid]
          rw [sends, Bool.not_true, Bool.or_false]
          exact .of_oneBlock isOne rfl (carries_send known id slot _ _)
      | none =>
          rw [isSlot] at compiled
          rcases bind_some compiled with ⟨select, -, result⟩
          split at result
          · cases result
            exact .of_oneBlock isOne rfl ((carries_changeState known _ select _ _).weaken fun _ => rfl)
          · cases result
            exact .of_oneBlock isOne rfl ((carries_spawn known id _ _ select _ _).weaken fun _ => rfl)
    · rw [if_neg isPid] at compiled
      rcases bind_some compiled with ⟨select, -, result⟩
      split at result
      · cases result
        exact .of_oneBlock isOne rfl ((carries_changeState known _ select _ _).weaken fun _ => rfl)
      · cases result
        rw [decide_eq_false isPid, Bool.and_false, Bool.false_and, Bool.not_false]
        exact .of_oneBlock isOne rfl ((carries_spawn known id _ _ select _ _).weaken fun _ => rfl)

/-! ## Statements that share a block -/

/-- A pure expression puts its value into `TEMP_VAL`. -/
theorem tempExpr_pure {stmt : Expr} (isPureStmt : isPure stmt = true) (scope : Scope) (known : Bool) :
    tempExpr ctx returns scope known stmt = some true := by
  cases stmt with
  | jump ident args =>
      cases ident with
      | var callee ty => rw [tempExpr, isPureStmt, Bool.true_or, if_pos rfl]
      | _ => simp [isPure] at isPureStmt
  | index receiver index => rw [tempExpr, if_pos isPureStmt]
  | letVar ident ty default => simp [isPure] at isPureStmt
  | «when» cond branches => simp [isPure] at isPureStmt
  | wait handlers filter => simp [isPure] at isPureStmt
  | _ => rfl

/-- What a statement that may share its block is in both lowerings. -/
structure Fast (rt : RtFuncs W) (ctx : CompilerCtx) (returns : String → Bool) (scope added : Scope)
    (stmt : Expr) (stored : Stored) : Prop where
  slot : stored.slot = scope.len
  next : added.len = stored.next
  temp : ∀ known, tempExpr ctx returns scope known stmt = some (!stored.binds)
  merged : ∀ id, compileExpr rt ctx id scope stmt =
    some ⟨.continued (id + 1), fastCode (stored.run rt) [id] (id + 1), added, [], []⟩
  plain : ∀ id, plainExpr rt ctx id scope stmt =
    some ⟨.continued (id + 1), plains rt id [stored], added, [], []⟩

theorem fold_reads {scope : Scope} {expr : Expr} {value : Folded}
    (folds : foldWithSelf ctx.toLiterals true scope.toBranchState expr = some value) :
    ∀ other, scope.len ≤ other → ∀ view word, value (setView view other word) = value view := by
  intro other isFree
  apply fold_unread expr folds
  intro name _ found
  have below := BranchState.slot_lt_len found
  omega

theorem plainExpr_pure {stmt : Expr} (isPureStmt : isPure stmt = true) (id : Nat) (scope : Scope) :
    plainExpr rt ctx id scope stmt = compilePure rt ctx id scope stmt := by
  cases stmt with
  | jump ident args =>
      rw [plainExpr.eq_def]
      dsimp only
      rw [if_pos isPureStmt]
  | index receiver index => rw [plainExpr, if_pos isPureStmt]
  | letVar ident ty default => simp [isPure] at isPureStmt
  | «when» cond branches => simp [isPure] at isPureStmt
  | wait handlers filter => simp [isPure] at isPureStmt
  | string text ty => simp [isPure] at isPureStmt
  | tuple elems => simp [isPure] at isPureStmt
  | _ => rw [plainExpr, if_pos isPureStmt] <;> simp

theorem fast_of_compileFast (returns : String → Bool) {scope added : Scope} {stmt : Expr} {step : FastOp W}
    (accepts : acceptsEntry stmt = true)
    (isFast : compileFast rt ctx scope stmt = some (step, added)) :
    ∃ stored : Stored, step = stored.run rt ∧ Fast rt ctx returns scope added stmt stored := by
  have compiled : ∀ id, compilePure rt ctx id scope stmt =
      some ⟨.continued (id + 1), fastCode step [id] (id + 1), added, [], []⟩ := by
    intro id
    rw [compilePure, isFast]
    rfl
  by_cases isLet : ∃ ident ty default, stmt = .letVar ident ty (some default)
  · rcases isLet with ⟨ident, ty, default, rfl⟩
    rw [acceptsEntry] at accepts
    rw [compileFast] at isFast
    rcases bind_some isFast with ⟨value, folds, result⟩
    cases result
    refine ⟨⟨true, scope.len, value, fold_reads folds⟩, rfl, rfl, BranchState.len_insert _ _, ?_, ?_, ?_⟩
    · intro known
      rw [tempExpr, if_pos accepts]
      rfl
    · intro id
      rw [compileExpr, if_pos accepts, compiled]
      rfl
    · intro id
      let stored : Stored := ⟨true, scope.len, value, fold_reads folds⟩
      have block : (fun exec : ExecCtx W => orTrap exec ((value (exec.view rt)).map fun value =>
          saveBlock id scope.len (exec.setTemp value))) = fastBlock (stored.plain rt) (id + 1) := by
        funext exec
        rw [fastBlock, Stored.plain, Option.map_map]
        rfl
      rw [plainExpr, if_pos accepts, plainLet, folds, Option.bind_eq_bind, Option.bind_some, block]
      rfl
  · have other : ∀ ident ty default, stmt ≠ .letVar ident ty (some default) :=
      fun ident ty default same => isLet ⟨ident, ty, default, same⟩
    rw [acceptsEntry] at accepts
    · rw [compileFast] at isFast
      · rcases bind_some isFast with ⟨value, folds, result⟩
        cases result
        refine ⟨⟨false, scope.len, value, fold_reads folds⟩, rfl, rfl, rfl, ?_, ?_, ?_⟩
        · exact fun known => tempExpr_pure accepts scope known
        · intro id
          rw [compileExpr_pure accepts, compiled]
          rfl
        · intro id
          rw [plainExpr_pure accepts, compiled]
          rfl
      · exact other
    · exact other

/-- Such a statement by itself. -/
theorem paired_stored (stored : Stored) (id : Nat) (known : Bool) :
    Paired rt id (id + 1) known (!stored.binds) (fastCode (stored.run rt) [id] (id + 1))
      (plains rt id [stored]) := by
  have alone : runAll rt [stored] = (stored.run rt : FastOp W) := by
    funext exec
    exact (runAll_cons stored [] exec).trans (Option.bind_fun_some _)
  have row := @Bodies.row W rt id [stored] [] stored rfl (List.pairwise_singleton _ _) known
  rwa [alone] at row

/-! ## All statements -/

variable (rt ctx returns) in
/-- Where no statement reads a stale `TEMP_VAL`, both lowerings give code that is paired. -/
def PairsExpr (stmt : Expr) : Prop :=
  ∀ id scope known behind emitted, compileExpr rt ctx id scope stmt = some emitted →
    tempExpr ctx returns scope known stmt = some behind →
    ∃ plain, plainExpr rt ctx id scope stmt = some plain ∧ plain.outcome = emitted.outcome ∧
      plain.scope = emitted.scope ∧
      Paired rt id emitted.nextId known behind emitted.code plain.code

variable (rt ctx returns) in
def PairsArgs (args : List Expr) : Prop :=
  ∀ base count index id scope known behind emitted,
    compileArgs rt ctx base count index id scope args = some emitted →
    tempArgs ctx returns base count scope known args = some behind →
    ∃ plain, plainArgs rt ctx base count index id scope args = some plain ∧
      plain.nextId = emitted.nextId ∧ plain.scope = emitted.scope ∧
      Paired rt id emitted.nextId known behind emitted.code plain.code

variable (rt ctx returns) in
def PairsSeq (body : List Expr) : Prop :=
  ∀ id scope known behind emitted, compileSeq rt ctx id scope body = some emitted →
    tempSeq ctx returns scope known body = some behind →
    ∃ plain, plainSeq rt ctx id scope body = some plain ∧ plain.outcome = emitted.outcome ∧
      plain.scope = emitted.scope ∧
      Paired rt id emitted.nextId known behind emitted.code plain.code

variable (rt ctx returns) in
def PairsArms (branches : List (Expr × List Expr)) : Prop :=
  ∀ id scope behind emitted, compileArms rt ctx id scope branches = some emitted →
    tempArms ctx returns scope branches = some behind →
    ∃ plain, plainArms rt ctx id scope branches = some plain ∧ plain.nextId = emitted.nextId ∧
      plain.scope = emitted.scope ∧ plain.starts = emitted.starts ∧
      plain.redirects = emitted.redirects ∧
      Bodies rt id emitted.nextId true true behind emitted.starts emitted.redirects emitted.code
        plain.code

variable (rt ctx returns) in
def PairsHandlers (handlers : List (List Pattern × List Expr)) : Prop :=
  ∀ id scope entry flow behind emitted, compileHandlers rt ctx id scope handlers = some emitted →
    tempHandlers ctx returns scope entry flow handlers = some behind →
    ∃ plain, plainHandlers rt ctx id scope handlers = some plain ∧ plain.nextId = emitted.nextId ∧
      plain.scope = emitted.scope ∧ plain.starts = emitted.starts ∧
      Bodies rt id emitted.nextId flow entry behind emitted.starts [] emitted.code plain.code

variable (rt ctx returns) in
/-- A body is merged behind a row of statements that share a block with its first ones. -/
def PairsBody (body : List Expr) : Prop :=
  ∀ first stmts id scope known behind front emitted, id = first + stmts.length →
    (stmts ≠ [] → body.head?.elim false acceptsEntry = true) → (stmts = [] → front = known) →
    stmts.Pairwise (fun earlier later => earlier.next ≤ later.slot) →
    (∀ stmt ∈ stmts, stmt.next ≤ scope.len) →
    compileBody rt ctx (List.range' first stmts.length) (runAll rt stmts) id scope body = some emitted →
    tempSeq ctx returns scope known body = some behind →
    ∃ plain, plainSeq rt ctx id scope body = some plain ∧ plain.nextId = emitted.nextId ∧
      plain.scope = emitted.scope ∧
      Paired rt first emitted.nextId front behind emitted.code (plains rt first stmts ++ plain.code)

/-- A pure statement. -/
theorem pairs_pure {stmt : Expr} (isPureStmt : isPure stmt = true) : PairsExpr rt ctx returns stmt := by
  intro id scope known behind emitted compiled temp
  have accepts : acceptsEntry stmt = true := by
    cases stmt with
    | letVar ident ty default => simp [isPure] at isPureStmt
    | _ => exact isPureStmt
  rw [compileExpr_pure isPureStmt] at compiled
  rcases bind_some compiled with ⟨⟨step, added⟩, isFast, result⟩
  cases result
  rcases fast_of_compileFast returns accepts isFast with ⟨stored, rfl, fast⟩
  rw [fast.temp] at temp
  cases temp
  exact ⟨_, fast.plain id, rfl, rfl, paired_stored stored id known⟩

theorem pairs_of_pure {stmt : Expr}
    (unfolds : ∀ id scope, compileExpr rt ctx id scope stmt =
      if isPure stmt then compilePure rt ctx id scope stmt else none) :
    PairsExpr rt ctx returns stmt := by
  intro id scope known behind emitted compiled temp
  by_cases isPureStmt : isPure stmt = true
  · exact pairs_pure isPureStmt id scope known behind emitted compiled temp
  · rw [unfolds, if_neg isPureStmt] at compiled
    cases compiled

theorem goes_saveBlock (id slot : Nat) : GoesTo (saveBlock id slot : Block W) (id + 1) := goesTo_const

theorem leads_of_goesTo {block : Block W} {next : Nat} (goes : GoesTo block next) :
    ∀ number, Leads block number → number = next :=
  fun number leads => leads.elim fun exec resumes => goes exec number resumes

/-- Code and a block behind it that reads `TEMP_VAL`. -/
theorem Bodies.concat {first next : Nat} {front : Bool} {merged plain : Code W} {block : Block W}
    (behind : Bool) (paired : Paired rt first next front true merged plain)
    (fragment : Fragment Leads first next merged) (goes : GoesTo block (next + 1)) :
    Paired rt first (next + 1) front behind (merged ++ [(next, block)]) (plain ++ [(next, block)]) :=
  paired.followed (.single (carries_known block behind) (leads_of_goesTo goes)) fragment
    (fragment_goesTo (Nat.le_refl _) goes)

theorem pairs_letVar {ident : String} {ty : Ty} {default : Expr} (inner : PairsExpr rt ctx returns default) :
    PairsExpr rt ctx returns (.letVar ident ty (some default)) := by
  intro id scope known behind emitted compiled temp
  by_cases accepts : isPure default = true
  · rw [compileExpr, if_pos accepts] at compiled
    rcases bind_some compiled with ⟨⟨step, added⟩, isFast, result⟩
    cases result
    have isEntry : acceptsEntry (.letVar ident ty (some default)) = true := accepts
    rcases fast_of_compileFast returns isEntry isFast with ⟨stored, rfl, fast⟩
    rw [fast.temp] at temp
    cases temp
    exact ⟨_, fast.plain id, rfl, rfl, paired_stored stored id known⟩
  · rw [compileExpr, if_neg accepts] at compiled
    rw [tempExpr, if_neg accepts] at temp
    rcases bind_some compiled with ⟨value, isValue, result⟩
    rcases bind_some temp with ⟨atValue, isTemp, isBehind⟩
    rcases inner id scope known atValue value isValue isTemp with ⟨own, isOwn, outcome, sameScope, paired⟩
    have ends := (framed_expr default id scope value isValue).2
    split at result
    · rename_i next continues
      cases result
      rw [continues] at ends
      rw [← ends, StmtOutcome.isTerminal, Bool.false_or] at isBehind
      split at isBehind
      · rename_i isKnown
        cases isBehind
        rw [plainExpr, if_neg accepts, isOwn, Option.bind_eq_bind, Option.bind_some, outcome, continues,
          sameScope]
        refine ⟨_, rfl, rfl, rfl, ?_⟩
        have upTo := paired
        rw [nextId_of_outcome continues] at upTo
        have laid : Laid id value := (compiles_expr default isValue).laid (Nat.le_refl _)
        rw [isKnown] at upTo ⊢
        exact upTo.concat true (laid.upTo continues) (goes_saveBlock next value.scope.len)
      · cases isBehind
    · rename_i other
      cases result
      have terminal := isTerminal_of_ne other
      rw [← ends, terminal, Bool.true_or, if_pos rfl] at isBehind
      cases isBehind
      refine ⟨own, ?_, outcome, sameScope, paired⟩
      rw [plainExpr, if_neg accepts, isOwn, Option.bind_eq_bind, Option.bind_some, outcome]
      split
      · rename_i next continues
        exact absurd continues (other next)
      · rfl

theorem pairs_letOpen (ident : String) (ty : Ty) : PairsExpr rt ctx returns (.letVar ident ty none) := by
  intro id scope known behind emitted compiled temp
  rw [compileExpr] at compiled
  cases compiled
  rw [tempExpr] at temp
  split at temp
  · rename_i isKnown
    cases temp
    rw [isKnown]
    exact ⟨_, by rw [plainExpr], rfl, rfl,
      .single (carries_known _ true) (leads_of_goesTo (goes_saveBlock id scope.len))⟩
  · cases temp

theorem pairs_jump {ident : Expr} {args : List Expr} (returning : Returning rt returns)
    (inner : PairsArgs rt ctx returns args) : PairsExpr rt ctx returns (.jump ident args) := by
  intro id scope known behind emitted compiled temp
  by_cases isPureStmt : isPure (.jump ident args) = true
  · exact pairs_pure isPureStmt id scope known behind emitted compiled temp
  · cases ident with
    | var callee ty =>
        rw [compileExpr, if_neg isPureStmt] at compiled
        rw [plainExpr, if_neg isPureStmt]
        rw [tempExpr, Bool.eq_false_of_not_eq_true isPureStmt, Bool.false_or] at temp
        by_cases isSelf : callee = "self" ∧ allPure args = true
        · rw [if_pos isSelf] at compiled ⊢
          rw [if_pos (by simp [isSelf])] at temp
          cases temp
          exact ⟨emitted, compiled, rfl, rfl, paired_fusedSelf known compiled⟩
        · rw [if_neg isSelf] at compiled ⊢
          rw [if_neg (by simpa using isSelf)] at temp
          by_cases isRt : (!isParkAware callee) = true ∧ ctx.declaredRt callee = true ∧ allPure args = true
          · rw [if_pos isRt] at compiled ⊢
            rw [if_pos (by simp [isFused, isRt])] at temp
            cases temp
            exact ⟨emitted, compiled, rfl, rfl, paired_fusedRt returning known compiled⟩
          · rw [if_neg isRt] at compiled ⊢
            have notFused : ¬ isFused ctx callee args = true := by
              intro fused
              rw [isFused, Bool.and_eq_true, Bool.or_eq_true, Bool.and_eq_true, decide_eq_true_eq] at fused
              rcases fused.2 with self | declared
              · exact isSelf ⟨self, fused.1⟩
              · exact isRt ⟨declared.1, declared.2, fused.1⟩
            rw [if_neg notFused] at temp
            rcases bind_some compiled with ⟨staged, isStaged, result⟩
            rcases bind_some result with ⟨call, isCall, result⟩
            cases result
            rcases bind_some temp with ⟨atStaged, isTemp, result⟩
            cases result
            rcases inner _ _ _ _ _ _ _ _ isStaged isTemp with ⟨own, isOwn, nextId, sameScope, paired⟩
            have scopeBehind : staged.scope = (frameArgs ctx scope.jumpArgsBase args.length scope args).scope :=
              (framed_args args _ _ _ _ _ _ isStaged).scope
            rw [← scopeBehind]
            have laid : Laid id staged := (compiles_args args isStaged).laid (Nat.le_refl _)
            have isOne := oneBlock_call isCall
            refine ⟨{ call with code := own.code ++ call.code }, ?_, rfl, rfl, ?_⟩
            · rw [isOwn, Option.bind_eq_bind, Option.bind_some, nextId, sameScope, isCall]
              rfl
            · exact paired.followed (paired_call returning atStaged isCall) laid.fragment
                (Laid.of_oneBlock isOne (Nat.le_refl _)).fragment
    | _ =>
        rw [compileExpr, if_neg isPureStmt] at compiled
        · cases compiled
        · simp

theorem pairs_index {receiver index : Expr} (inner : PairsExpr rt ctx returns receiver)
    (other : PairsExpr rt ctx returns index) : PairsExpr rt ctx returns (.index receiver index) := by
  intro id scope known behind emitted compiled temp
  cases isPureStmt : isPure (.index receiver index) with
  | true => exact pairs_pure isPureStmt id scope known behind emitted compiled temp
  | false =>
      rcases compile_index isPureStmt compiled with
        ⟨buf, atBuf, offset, atOffset, isBuf, bufContinues, isOffset, offsetContinues, rfl⟩
      rw [tempExpr, isPureStmt, if_neg Bool.false_ne_true] at temp
      rcases bind_some temp with ⟨knownBuf, isTempBuf, resultTemp⟩
      rcases bind_some resultTemp with ⟨knownOffset, isTempOffset, resultTemp⟩
      have scopeBehind : buf.scope = (frameExpr ctx
          { scope with jumpArgsBase := scope.jumpArgsBase + 2 } receiver).scope :=
        (framed_expr receiver _ _ _ isBuf).1.scope
      rw [← scopeBehind] at isTempOffset
      split at resultTemp
      · rename_i bothKnown
        cases resultTemp
        rw [Bool.and_eq_true] at bothKnown
        rcases bothKnown with ⟨rfl, rfl⟩
        rcases inner _ _ _ _ _ isBuf isTempBuf with ⟨ownBuf, isOwnBuf, bufOutcome, bufScope, bufPaired⟩
        rcases other _ _ _ _ _ isOffset isTempOffset with
          ⟨ownOffset, isOwnOffset, offsetOutcome, offsetScope, offsetPaired⟩
        have bufLaid : Laid id buf := (compiles_expr receiver isBuf).laid (Nat.le_refl _)
        have offsetLaid : Laid (atBuf + 1) offset := (compiles_expr index isOffset).laid (Nat.le_refl _)
        refine ⟨{
          outcome := .continued (atOffset + 2)
          code := ownBuf.code ++ [(atBuf, stageBlock atBuf scope.jumpArgsBase)] ++ ownOffset.code ++
            [(atOffset, stageBlock atOffset (scope.jumpArgsBase + 1))] ++
            [(atOffset + 1, rtCallBlock rt (atOffset + 1) "rt_load_u8" scope.jumpArgsBase 2)]
          scope := { offset.scope with jumpArgsBase := scope.jumpArgsBase } }, ?_, rfl, rfl, ?_⟩
        · rw [plainExpr, isPureStmt, if_neg Bool.false_ne_true]
          dsimp only
          rw [isOwnBuf, Option.bind_eq_bind, Option.bind_some, bufOutcome, bufScope, bufContinues]
          dsimp only
          rw [isOwnOffset, Option.bind_some, offsetOutcome, offsetScope, offsetContinues]
        · rw [nextId_of_outcome bufContinues] at bufPaired
          rw [nextId_of_outcome offsetContinues] at offsetPaired
          have bufFragment := bufLaid.upTo bufContinues
          have offsetFragment := offsetLaid.upTo offsetContinues
          have staged := bufPaired.concat true bufFragment (goesTo_stageBlock atBuf scope.jumpArgsBase)
          have stagedFragment := fragment_concat bufFragment
            (goesTo_stageBlock atBuf scope.jumpArgsBase)
          have both := staged.followed offsetPaired stagedFragment offsetFragment
          have bothFragment := stagedFragment.append offsetFragment
          have ready := both.concat true bothFragment
            (goesTo_stageBlock atOffset (scope.jumpArgsBase + 1))
          exact ready.concat true (fragment_concat bothFragment
            (goesTo_stageBlock atOffset (scope.jumpArgsBase + 1)))
            (goesTo_rtCallBlock (atOffset + 1) "rt_load_u8" scope.jumpArgsBase 2)
      · cases resultTemp

theorem pairs_args_cons {arg : Expr} {args : List Expr} (inner : PairsExpr rt ctx returns arg)
    (others : PairsArgs rt ctx returns args) : PairsArgs rt ctx returns (arg :: args) := by
  intro base count index id scope known behind emitted compiled temp
  rw [compileArgs] at compiled
  rw [tempArgs] at temp
  rcases bind_some compiled with ⟨value, isValue, result⟩
  rcases bind_some temp with ⟨atValue, isTemp, resultTemp⟩
  rcases inner _ _ _ _ _ isValue isTemp with ⟨own, isOwn, outcome, sameScope, paired⟩
  split at result
  · rename_i next continues
    rcases bind_some result with ⟨rest, isRest, result⟩
    cases result
    have scopeBehind := (framed_expr arg _ _ _ isValue).1.scope
    change value.scope = (frameExpr ctx { scope with jumpArgsBase := base + count } arg).scope at scopeBehind
    dsimp only at resultTemp
    rw [← scopeBehind] at resultTemp
    split at resultTemp
    · rename_i isKnown
      rcases others _ _ _ _ _ _ _ _ isRest resultTemp with ⟨later, isLater, nextId, lastScope, pairedRest⟩
      refine ⟨{ later with code := own.code ++ [(next, stageBlock next (base + index))] ++ later.code }, ?_,
        nextId, lastScope, ?_⟩
      · rw [plainArgs, isOwn, Option.bind_eq_bind, Option.bind_some, outcome, sameScope]
        simp only [continues]
        rw [isLater]
        rfl
      · have upTo := paired
        rw [nextId_of_outcome continues, isKnown] at upTo
        have fragment := ((compiles_expr arg isValue).laid (Nat.le_refl _)).upTo continues
        have goes : GoesTo (stageBlock next (base + index) : Block W) (next + 1) :=
          goesTo_stageBlock next (base + index)
        have laid : Laid (next + 1) rest := (compiles_args args isRest).laid (Nat.le_refl _)
        exact (upTo.concat true fragment goes).followed pairedRest (fragment_concat fragment goes)
          laid.fragment
    · cases resultTemp
  · cases result

theorem pairs_seq_cons {stmt : Expr} {body : List Expr} (inner : PairsExpr rt ctx returns stmt)
    (others : PairsSeq rt ctx returns body) : PairsSeq rt ctx returns (stmt :: body) := by
  intro id scope known behind emitted compiled temp
  rw [compileSeq] at compiled
  rcases bind_some compiled with ⟨first, isFirst, result⟩
  rcases tempSeq_cons temp with ⟨atFirst, isTemp, stops, goesOn⟩
  rcases inner _ _ _ _ _ isFirst isTemp with ⟨own, isOwn, outcome, sameScope, paired⟩
  rcases framed_expr stmt id scope first isFirst with ⟨framed, ends⟩
  have laid : Laid id first := (compiles_expr stmt isFirst).laid (Nat.le_refl _)
  split at result
  · rename_i next continues
    rcases bind_some result with ⟨rest, isRest, result⟩
    cases result
    rw [continues] at ends
    have scopeBehind : first.scope = (frameExpr ctx scope stmt).scope := framed.scope
    have resultTemp := goesOn ends.symm
    rw [← scopeBehind] at resultTemp
    rcases others _ _ _ _ _ isRest resultTemp with ⟨later, isLater, lastOutcome, lastScope, pairedRest⟩
    rw [← sameScope] at isLater
    refine ⟨_, plainSeq_continued isOwn (outcome.trans continues) isLater, lastOutcome, lastScope, ?_⟩
    rw [nextId_of_outcome continues] at paired
    have restLaid : Laid next rest := (compiles_seq body isRest).laid (Nat.le_refl _)
    exact paired.followed pairedRest (laid.upTo continues) restLaid.fragment
  · rename_i other
    cases result
    have terminal := isTerminal_of_ne other
    rcases stops (ends.symm.trans terminal) with rfl
    exact ⟨own, plainSeq_terminal isOwn (by rw [outcome]; exact terminal), outcome, sameScope, paired⟩

theorem pairs_arms_cons {key : Expr} {body : List Expr} {branches : List (Expr × List Expr)}
    (inner : PairsSeq rt ctx returns body) (others : PairsArms rt ctx returns branches) :
    PairsArms rt ctx returns ((key, body) :: branches) := by
  intro id scope behind emitted compiled temp
  rw [compileArms] at compiled
  rw [tempArms] at temp
  rcases bind_some compiled with ⟨arm, isArm, result⟩
  rcases bind_some temp with ⟨atArm, isTemp, resultTemp⟩
  rcases bind_some resultTemp with ⟨atRest, isTempRest, resultTemp⟩
  cases resultTemp
  rcases inner _ _ _ _ _ isArm isTemp with ⟨own, isOwn, outcome, sameScope, paired⟩
  have scopeBehind : arm.scope = (frameSeq ctx scope body).scope := (framed_seq body id scope arm isArm).scope
  rw [← scopeBehind] at isTempRest
  have armLaid : Laid id arm := (compiles_seq body isArm).laid (Nat.le_refl _)
  -- The number behind the body leads behind the choice, unless the branch is left for good.
  have goesOn : ∀ {next rest}, arm.nextId = next →
      compileArms rt ctx (next + 1) arm.scope branches = some rest →
      ∃ later, plainArms rt ctx (next + 1) own.scope branches = some later ∧
        later.nextId = rest.nextId ∧ later.scope = rest.scope ∧ later.starts = rest.starts ∧
        later.redirects = rest.redirects ∧ ∀ exits : List Nat, (∀ exit ∈ exits, exit = next) →
          Bodies rt id rest.nextId true true (atArm && atRest) (id :: rest.starts)
            (exits ++ rest.redirects) (arm.code ++ rest.code) (own.code ++ later.code) := by
    intro next rest isNext isRest
    rcases others _ _ _ _ isRest isTempRest with
      ⟨later, isLater, nextId, lastScope, starts, redirects, bodies⟩
    have restLaid : Laid (next + 1) rest := (compiles_arms branches isRest).laid (Nat.le_refl _)
    rw [sameScope]
    refine ⟨later, isLater, nextId, lastScope, starts, redirects, fun exits atExits => ?_⟩
    rw [isNext] at paired
    have armFragment := armLaid.fragment
    rw [isNext] at armFragment
    exact paired.arm bodies (Nat.lt_succ_self next) armFragment restLaid.fragment
      (fun start member => (restLaid.starts start member).1)
      (fun exit member => (restLaid.redirects exit member).1) exits atExits
  split at result
  · rename_i next leaves
    rcases bind_some result with ⟨rest, isRest, result⟩
    cases result
    rw [plainArms, isOwn, Option.bind_eq_bind, Option.bind_some, outcome, leaves]
    dsimp only
    cases branches with
    | nil =>
        cases isTempRest
        rw [compileArms] at isRest
        cases isRest
        refine ⟨⟨.continued next, own.code ++ [], own.scope, [id], []⟩, ?_, rfl, sameScope, rfl, rfl, ?_⟩
        · rw [plainArms]
          rfl
        · have isNext : arm.nextId = next := nextId_of_outcome leaves
          have fragment := armLaid.fragment
          rw [isNext] at paired fragment
          rw [Bool.and_true]
          have nothing : Paired rt next next atArm atArm [] [] := Bodies.nil next atArm true
          exact Bodies.handler paired nothing fragment (.nil (Nat.le_refl next)) (List.forall_mem_nil _)
    | cons branch branches =>
        have isNext : arm.nextId = next := nextId_of_outcome leaves
        rcases goesOn isNext isRest with
          ⟨later, isLater, nextId, lastScope, starts, redirects, bodies⟩
        refine ⟨{ later with code := own.code ++ later.code, starts := id :: later.starts }, ?_, nextId,
          lastScope, congrArg (id :: ·) starts, redirects, bodies [] (List.forall_mem_nil _)⟩
        rw [if_neg (by simp), isLater]
        rfl
  · rename_i next continues
    rcases bind_some result with ⟨rest, isRest, result⟩
    cases result
    rw [plainArms, isOwn, Option.bind_eq_bind, Option.bind_some, outcome, continues]
    dsimp only
    have isNext : arm.nextId = next := nextId_of_outcome continues
    rcases goesOn isNext isRest with ⟨later, isLater, nextId, lastScope, starts, redirects, bodies⟩
    refine ⟨{ later with code := own.code ++ later.code, starts := id :: later.starts,
                         redirects := next :: later.redirects }, ?_, nextId, lastScope,
      congrArg (id :: ·) starts, congrArg (next :: ·) redirects, bodies [next] (by simp)⟩
    rw [isLater]
    rfl
  · rename_i next waits
    rcases bind_some result with ⟨rest, isRest, result⟩
    cases result
    rw [plainArms, isOwn, Option.bind_eq_bind, Option.bind_some, outcome, waits]
    dsimp only
    have isNext : arm.nextId = next := nextId_of_outcome waits
    rcases goesOn isNext isRest with ⟨later, isLater, nextId, lastScope, starts, redirects, bodies⟩
    refine ⟨{ later with code := own.code ++ later.code, starts := id :: later.starts,
                         redirects := next :: later.redirects }, ?_, nextId, lastScope,
      congrArg (id :: ·) starts, congrArg (next :: ·) redirects, bodies [next] (by simp)⟩
    rw [isLater]
    rfl

theorem pairs_handlers_cons {patterns : List Pattern} {body : List Expr}
    {handlers : List (List Pattern × List Expr)} (inner : PairsBody rt ctx returns body)
    (others : PairsHandlers rt ctx returns handlers) :
    PairsHandlers rt ctx returns ((patterns, body) :: handlers) := by
  intro id scope entry flow behind emitted compiled temp
  rw [compileHandlers] at compiled
  rw [tempHandlers] at temp
  rcases bind_some compiled with ⟨first, isFirst, result⟩
  rcases bind_some result with ⟨rest, isRest, result⟩
  cases result
  rcases bind_some temp with ⟨atFirst, isTemp, isTempRest⟩
  rcases inner id [] id scope _ _ _ _ rfl (fun started => absurd rfl started) (fun _ => rfl)
    List.Pairwise.nil (List.forall_mem_nil _) isFirst isTemp with ⟨own, isOwn, nextId, sameScope, paired⟩
  have scopeBehind : first.scope = (frameSeq ctx scope body).scope :=
    (framed_body body _ _ id scope first isFirst).scope
  rw [← scopeBehind] at isTempRest
  rcases others _ _ _ _ _ _ isRest isTempRest with ⟨later, isLater, lastId, lastScope, starts, bodies⟩
  have firstLaid : Laid id first := (compiles_body body isFirst).laid (placed_body _ _ _ _)
  have restLaid : Laid first.nextId rest := (compiles_handlers handlers isRest).laid (Nat.le_refl _)
  refine ⟨{ later with code := own.code ++ later.code, starts := id :: later.starts }, ?_, lastId, lastScope,
    congrArg (id :: ·) starts, ?_⟩
  · rw [plainHandlers, isOwn, Option.bind_eq_bind, Option.bind_some, nextId, sameScope, isLater]
    rfl
  · exact paired.handler bodies firstLaid.fragment restLaid.fragment
      fun start member => (restLaid.starts start member).1

theorem pairs_when {cond : Expr} {branches : List (Expr × List Expr)}
    (inner : PairsExpr rt ctx returns cond) (others : PairsArms rt ctx returns branches) :
    PairsExpr rt ctx returns (.when cond branches) := by
  intro id scope known behind emitted compiled temp
  rw [tempExpr] at temp
  rcases compile_when compiled with ⟨disc, done, noDefaults, isDisc, continues, isEmitted⟩
  rcases bind_some temp with ⟨atDisc, isTemp, resultTemp⟩
  rcases inner _ _ _ _ _ isDisc isTemp with ⟨own, isOwn, outcome, sameScope, paired⟩
  split at resultTemp
  · rename_i isKnown
    have upTo := paired
    rw [nextId_of_outcome continues, isKnown] at upTo
    have fragment := ((compiles_expr cond isDisc).laid (Nat.le_refl _)).upTo continues
    rcases isEmitted with ⟨values, table, rfl⟩ | ⟨noTable, arms, select, isArms, selected, rfl⟩
    · rw [table] at resultTemp
      cases resultTemp
      refine ⟨⟨.continued (done + 1), own.code ++ [(done, kTableBlock values (done + 1))], disc.scope, [], []⟩,
        ?_, rfl, rfl, ?_⟩
      · rw [plainExpr, if_neg noDefaults, isOwn, Option.bind_eq_bind, Option.bind_some, outcome, sameScope,
          continues]
        dsimp only
        rw [table]
      · have goes : GoesTo (kTableBlock values (done + 1) : Block W) (done + 1) := goesTo_const
        exact upTo.concat true fragment goes
    · rw [noTable] at resultTemp
      have scopeBehind : disc.scope = (frameExpr ctx scope cond).scope :=
        (framed_expr cond _ _ _ isDisc).1.scope
      change tempArms ctx returns (frameExpr ctx scope cond).scope branches = some behind at resultTemp
      rw [← scopeBehind] at resultTemp
      rcases others _ _ _ _ isArms resultTemp with
        ⟨later, isLater, nextId, lastScope, starts, redirects, bodies⟩
      have laid : Laid (done + 1) arms := (compiles_arms branches isArms).laid (Nat.le_refl _)
      have leads : ∀ next, Leads (whenBlock rt select arms.starts arms.nextId) next →
          next = arms.nextId ∨ next ∈ arms.starts := fun next => leads_whenBlock
      have choice := bodies.choice laid.fragment laid.redirects leads
        (fun start member => (laid.starts start member).1)
        (fun known => carries_redirect known arms.nextId) (leads_of_goesTo goesTo_const)
      have whole := upTo.followed choice fragment (fragment_when rt select laid)
      rw [← List.append_assoc, ← List.append_assoc, ← List.append_assoc, ← List.append_assoc] at whole
      refine ⟨⟨.continued arms.nextId, _, later.scope, [], []⟩, ?_, rfl, lastScope, whole⟩
      rw [plainExpr, if_neg noDefaults, isOwn, Option.bind_eq_bind, Option.bind_some, outcome, sameScope,
        continues]
      dsimp only
      rw [noTable]
      dsimp only
      rw [isLater, Option.bind_some, selected, nextId, starts, redirects]
      rfl
  · cases resultTemp

theorem pairs_wait {handlers : List (List Pattern × List Expr)} {filter : List Expr}
    (inner : PairsHandlers rt ctx returns handlers) : PairsExpr rt ctx returns (.wait handlers filter) := by
  intro id scope known behind emitted compiled temp
  rw [tempExpr] at temp
  rcases compile_wait compiled with
    ⟨bodies, folded, dispatch, nonempty, isBodies, filters, dispatches, discriminates, rfl⟩
  rcases inner _ _ _ _ _ _ isBodies temp with ⟨own, isOwn, nextId, sameScope, starts, paired⟩
  have laid : Laid (id + 1) bodies := (compiles_handlers handlers isBodies).laid (Nat.le_refl _)
  have leads : ∀ next, Leads (waitBlock rt (waitAt scope handlers) dispatch folded bodies.starts id) next →
      next = id ∨ next ∈ bodies.starts := fun next => leads_waitBlock
  refine ⟨⟨.wait bodies.nextId,
      [(id, waitBlock rt (waitAt scope handlers) dispatch folded bodies.starts id)] ++ own.code,
      bodies.scope, [], []⟩, ?_, rfl, rfl,
    paired.wait laid.fragment leads (fun start member => (laid.starts start member).1)
      (carries_wait known (waitAt scope handlers) dispatch folded bodies.starts id)⟩
  have isOpen : ¬ handlers.isEmpty = true := by simpa using nonempty
  have accepted : ¬ ((!filter.isEmpty) = true ∧ (waitAt scope handlers).dequeueArgCount = 0) :=
    fun both => discriminates (by simpa using both.1) both.2
  rw [plainExpr, if_neg isOpen]
  change plainHandlers rt ctx (id + 1) (registerHandlers scope (collected handlers)) handlers = _ at isOwn
  change emitDispatch ctx.switch (waitAt scope handlers) = _ at dispatches
  dsimp only
  rw [isOwn, Option.bind_eq_bind, Option.bind_some, sameScope, filters, Option.bind_eq_bind,
    Option.bind_some, dispatches, Option.bind_eq_bind, Option.bind_some, if_neg accepted, starts, nextId]

/-- A statement that joins the open row. -/
theorem sorted_concat {stmts : List Stored} {stored : Stored} {size : Nat}
    (sorted : stmts.Pairwise fun earlier later => earlier.next ≤ later.slot)
    (below : ∀ stmt ∈ stmts, stmt.next ≤ size) (slot : stored.slot = size) :
    (stmts ++ [stored]).Pairwise fun earlier later => earlier.next ≤ later.slot := by
  apply List.pairwise_append.mpr ⟨sorted, List.pairwise_singleton _ _, ?_⟩
  intro earlier member later isLast
  rw [List.mem_singleton.mp isLast, slot]
  exact below earlier member

/-- The block of a row, and the blocks of its statements. -/
theorem paired_row {first id : Nat} {stmts : List Stored} {stored : Stored} (isId : id = first + stmts.length)
    (sorted : (stmts ++ [stored]).Pairwise fun earlier later => earlier.next ≤ later.slot) (front : Bool) :
    Paired rt first (id + 1) front (!stored.binds)
        (fastCode (runAll rt (stmts ++ [stored])) (List.range' first (stmts ++ [stored]).length) (id + 1))
        (plains rt first (stmts ++ [stored])) ∧
      Fragment Leads first (id + 1)
        (fastCode (runAll rt (stmts ++ [stored])) (List.range' first (stmts ++ [stored]).length) (id + 1)) := by
  have stop : id + 1 = first + (stmts ++ [stored]).length := by
    rw [List.length_append, List.length_singleton, isId]
    rfl
  have range : List.range' first (stmts ++ [stored]).length = List.range' first stmts.length ++ [id] := by
    rw [List.length_append, List.length_singleton, List.range'_1_concat, isId]
  constructor
  · rw [stop]
    exact Bodies.row rfl sorted front
  · rw [range]
    apply fragment_fastCode (by omega)
    intro number member
    have bounds := List.mem_range'_1.mp member
    omega

theorem pairs_body_cons {stmt : Expr} {body : List Expr} (inner : PairsExpr rt ctx returns stmt)
    (others : PairsBody rt ctx returns body) : PairsBody rt ctx returns (stmt :: body) := by
  intro first stmts id scope known behind front emitted isId started fresh sorted below compiled temp
  rw [compileBody] at compiled
  rcases tempSeq_cons temp with ⟨atFirst, isTemp, stops, goesOn⟩
  split at compiled
  · rename_i accepts
    rcases bind_some compiled with ⟨⟨step, added⟩, isFast, result⟩
    rcases fast_of_compileFast returns accepts isFast with ⟨stored, rfl, fast⟩
    rw [fast.temp] at isTemp
    cases isTemp
    rw [frameExpr_fast accepts isFast] at goesOn
    have resultTemp : tempSeq ctx returns added (!stored.binds) body = some behind := goesOn rfl
    have plainFirst : plainExpr rt ctx id scope stmt = _ := fast.plain id
    have joined : (fun exec : ExecCtx W => (runAll rt stmts exec).bind (stored.run rt)) =
        runAll rt (stmts ++ [stored]) := by
      funext exec
      exact (runAll_concat stmts stored exec).symm
    have range : List.range' first stmts.length ++ [id] = List.range' first (stmts ++ [stored]).length := by
      rw [List.length_append, List.length_singleton, List.range'_1_concat, isId]
    have together := sorted_concat sorted below fast.slot
    dsimp only at result
    rw [joined, range] at result
    split at result
    · rename_i nextFast
      have stays : ∀ stmt ∈ stmts ++ [stored], stmt.next ≤ added.len := by
        intro other member
        rcases List.mem_append.mp member with isEarlier | isLast
        · have bound := below other isEarlier
          have grows := stored.slot_le_next
          rw [fast.slot] at grows
          rw [fast.next]
          exact Nat.le_trans bound grows
        · rw [List.mem_singleton.mp isLast, fast.next]
      have length : id + 1 = first + (stmts ++ [stored]).length := by
        rw [List.length_append, List.length_singleton, isId]
        rfl
      rcases others first (stmts ++ [stored]) (id + 1) added _ behind front emitted length (fun _ => nextFast)
        (fun isNil => absurd isNil (by simp)) together stays result resultTemp with
        ⟨later, isLater, nextId, lastScope, paired⟩
      refine ⟨_, plainSeq_continued plainFirst rfl isLater, nextId, lastScope, ?_⟩
      rw [plains_append, ← isId, List.append_assoc] at paired
      exact paired
    · rcases bind_some result with ⟨rest, isRest, result⟩
      cases result
      rcases others (id + 1) [] (id + 1) added _ behind _ rest rfl (fun isNew => absurd rfl isNew) (fun _ => rfl)
        List.Pairwise.nil (List.forall_mem_nil _) isRest resultTemp with ⟨later, isLater, nextId, lastScope, paired⟩
      refine ⟨_, plainSeq_continued plainFirst rfl isLater, nextId, lastScope, ?_⟩
      rcases @paired_row W rt first id stmts stored isId together front with ⟨row, fragment⟩
      have restLaid : Laid (id + 1) rest := (compiles_body body isRest).laid (placed_body _ _ _ _)
      rw [plains_append, ← isId] at row
      have whole := row.followed paired fragment restLaid.fragment
      rw [List.append_assoc] at whole
      exact whole
  · rename_i refuses
    have isNew : stmts = [] := by
      by_contra isOpen
      exact refuses (started isOpen)
    rcases isNew with rfl
    rcases fresh rfl with rfl
    have isFirst : id = first := isId
    rcases isFirst with rfl
    rcases bind_some compiled with ⟨head, isHead, result⟩
    rcases inner _ _ _ _ _ isHead isTemp with ⟨own, isOwn, outcome, sameScope, paired⟩
    rcases framed_expr stmt _ scope head isHead with ⟨framed, ends⟩
    have laid : Laid id head := (compiles_expr stmt isHead).laid (Nat.le_refl _)
    have last : ∀ {next}, head.outcome.isTerminal = true → head.nextId = next → ∃ plain,
        plainSeq rt ctx id scope (stmt :: body) = some plain ∧ plain.nextId = next ∧
          plain.scope = head.scope ∧
          Paired rt id next front behind head.code (plains rt id [] ++ plain.code) := by
      intro next terminal isNext
      rcases stops (ends.symm.trans terminal) with rfl
      rcases isNext with rfl
      have sameId : own.nextId = head.nextId := congrArg StmtOutcome.nextAvailable outcome
      exact ⟨own, plainSeq_terminal isOwn (by rw [outcome]; exact terminal), sameId, sameScope, paired⟩
    split at result
    · rename_i next continues
      rcases bind_some result with ⟨rest, isRest, result⟩
      cases result
      rw [continues] at ends
      have scopeBehind : head.scope = (frameExpr ctx scope stmt).scope := framed.scope
      have resultTemp := goesOn ends.symm
      rw [← scopeBehind] at resultTemp
      rcases others next [] next head.scope _ behind _ rest rfl (fun isNew => absurd rfl isNew) (fun _ => rfl)
        List.Pairwise.nil (List.forall_mem_nil _) isRest resultTemp with ⟨later, isLater, nextId, lastScope, pairedRest⟩
      rw [← sameScope] at isLater
      refine ⟨_, plainSeq_continued isOwn (outcome.trans continues) isLater, nextId, lastScope, ?_⟩
      rw [nextId_of_outcome continues] at paired
      have restLaid : Laid next rest := (compiles_body body isRest).laid (placed_body _ _ _ _)
      exact paired.followed pairedRest (laid.upTo continues) restLaid.fragment
    · rename_i next leaves
      cases result
      have isNext : head.nextId = next := nextId_of_outcome leaves
      exact last (by rw [leaves]; rfl) isNext
    · rename_i next waits
      cases result
      have isNext : head.nextId = next := nextId_of_outcome waits
      exact last (by rw [waits]; rfl) isNext

mutual
theorem pairs_expr (returning : Returning rt returns) : (stmt : Expr) → PairsExpr rt ctx returns stmt
  | .letVar ident ty (some default) => pairs_letVar (pairs_expr returning default)
  | .letVar ident ty none => pairs_letOpen ident ty
  | .string text ty => by
      intro id scope known behind emitted compiled temp
      rw [compileExpr] at compiled
      cases compiled
      cases temp
      exact ⟨_, by rw [plainExpr], rfl, rfl, paired_string known id scope text⟩
  | .jump ident args => pairs_jump returning (pairs_args returning args)
  | .when cond branches => pairs_when (pairs_expr returning cond) (pairs_arms returning branches)
  | .wait handlers filter => pairs_wait (pairs_handlers returning handlers)
  | .tuple elems => by
      intro id scope known behind emitted compiled temp
      rw [compileExpr] at compiled
      cases temp
      exact ⟨emitted, by rw [plainExpr, compiled], rfl, rfl, paired_tuple known compiled⟩
  | .index receiver index => pairs_index (pairs_expr returning receiver) (pairs_expr returning index)
  | .num text ty => pairs_of_pure fun _ _ => by rw [compileExpr] <;> simp
  | .bool value => pairs_of_pure fun _ _ => by rw [compileExpr] <;> simp
  | .unit => pairs_of_pure fun _ _ => by rw [compileExpr] <;> simp
  | .atom name => pairs_of_pure fun _ _ => by rw [compileExpr] <;> simp
  | .var name ty => pairs_of_pure fun _ _ => by rw [compileExpr] <;> simp
  | .tupleIndex receiver index => pairs_of_pure fun _ _ => by rw [compileExpr] <;> simp
  | .neg inner => pairs_of_pure fun _ _ => by rw [compileExpr] <;> simp
  | .binary op left right => pairs_of_pure fun _ _ => by rw [compileExpr] <;> simp
  | .other parts => pairs_of_pure fun _ _ => by rw [compileExpr] <;> simp

theorem pairs_args (returning : Returning rt returns) : (args : List Expr) → PairsArgs rt ctx returns args
  | [] => by
      intro base count index id scope known behind emitted compiled temp
      rw [compileArgs] at compiled
      cases compiled
      cases temp
      exact ⟨_, by rw [plainArgs], rfl, rfl, .nil id known true⟩
  | arg :: args => pairs_args_cons (pairs_expr returning arg) (pairs_args returning args)

theorem pairs_seq (returning : Returning rt returns) : (body : List Expr) → PairsSeq rt ctx returns body
  | [] => by
      intro id scope known behind emitted compiled temp
      rw [compileSeq] at compiled
      cases compiled
      cases temp
      exact ⟨_, by rw [plainSeq], rfl, rfl, .nil id _ true⟩
  | stmt :: body => pairs_seq_cons (pairs_expr returning stmt) (pairs_seq returning body)

theorem pairs_arms (returning : Returning rt returns) :
    (branches : List (Expr × List Expr)) → PairsArms rt ctx returns branches
  | [] => by
      intro id scope behind emitted compiled temp
      rw [compileArms] at compiled
      cases compiled
      cases temp
      exact ⟨_, by rw [plainArms], rfl, rfl, rfl, rfl, .nil id true true⟩
  | (_, body) :: branches => pairs_arms_cons (pairs_seq returning body) (pairs_arms returning branches)

theorem pairs_handlers (returning : Returning rt returns) :
    (handlers : List (List Pattern × List Expr)) → PairsHandlers rt ctx returns handlers
  | [] => by
      intro id scope entry flow behind emitted compiled temp
      rw [compileHandlers] at compiled
      cases compiled
      cases temp
      exact ⟨_, by rw [plainHandlers], rfl, rfl, rfl, .nil id flow entry⟩
  | (_, body) :: handlers =>
      pairs_handlers_cons (pairs_body returning body) (pairs_handlers returning handlers)

theorem pairs_body (returning : Returning rt returns) : (body : List Expr) → PairsBody rt ctx returns body
  | [] => by
      intro first stmts id scope known behind front emitted isId started fresh sorted below compiled temp
      have isNew : stmts = [] := by
        by_contra isOpen
        cases started isOpen
      rcases isNew with rfl
      rcases fresh rfl with rfl
      have isFirst : id = first := isId
      rcases isFirst with rfl
      rw [compileBody] at compiled
      cases compiled
      cases temp
      exact ⟨_, by rw [plainSeq], rfl, rfl, .nil id _ true⟩
  | stmt :: body => pairs_body_cons (pairs_expr returning stmt) (pairs_body returning body)
end

/-! ## Whole bodies -/

/-- A statement's own block puts the value over what is in `TEMP_VAL`, or traps. -/
theorem blind_plain (stored : Stored) (next : Nat) : Blind (fastBlock (stored.plain rt) next : Block W) := by
  intro exec word
  have same : stored.plain rt (exec.setTemp word) = stored.plain rt exec := rfl
  dsimp only [fastBlock]
  rw [same]
  cases stored.plain rt exec with
  | none => exact ⟨word, rfl⟩
  | some after => exact ⟨after.actor.tempVal, rfl⟩

theorem blind_of_mem_plains {stmts : List Stored} {id number : Nat} {block : Block W}
    (member : (number, block) ∈ plains rt id stmts) : Blind block := by
  induction stmts generalizing id with
  | nil => cases member
  | cons stored stmts induction =>
      rcases List.mem_cons.mp member with isFirst | isLater
      · rw [(Prod.mk.inj isFirst).2]
        exact blind_plain stored (id + 1)
      · exact induction isLater

theorem ids_mergedCode (rt : RtFuncs W) (pieces : List (Piece W)) :
    ids (mergedCode rt pieces) = pieces.flatMap Piece.numbers := by
  rw [ids, mergedCode, List.map_flatMap]
  congr 1
  funext piece
  exact piece.numbers_merged rt

theorem ids_plainCode (pieces : List (Piece W)) :
    ids (plainCode rt pieces) = pieces.flatMap Piece.numbers := by
  rw [ids, plainCode, List.map_flatMap]
  congr 1
  funext piece
  exact piece.numbers_plain rt

/-- The same state at the same number, but for `TEMP_VAL` where the block of the number does not
read it. Behind the code it may be read if it is known there. -/
structure SameButTemp (stop : Nat) (known : Bool) (code : Code W) (merged plain : Point W) : Prop where
  number : plain.blockId = merged.blockId
  ctx : plain.ctx = merged.ctx.setTemp plain.ctx.actor.tempVal
  temp : plain.ctx.actor.tempVal = merged.ctx.actor.tempVal ∨
    (∀ block, (merged.blockId, block) ∈ code → Blind block) ∧ (merged.blockId = stop → known = false)

/-- The merged body does what the lowering with one block for each statement does, with the same
numbers. Wherever that lowering has come to, be it inside a shared block, the merged body can be
entered, and all that is seen from there on is the same. Merged statements do not lose the
processor to each other, so the runs to compare with are those in which others change nothing
there that can be loaded. -/
def MergingPreserves (rt : RtFuncs W) (ctx : CompilerCtx) (id : Nat) (scope : Scope) (body : List Expr)
    (merged : Emitted W) (known : Bool) : Prop :=
  ∃ single, plainSeq rt ctx id scope body = some single ∧ single.nextId = merged.nextId ∧
    single.scope = merged.scope ∧ ids single.code = ids merged.code ∧
    ∃ shared : Nat → Prop,
      (∀ number, shared number → ∃ front block, front + 1 = number ∧
        (front, block) ∈ merged.code ∧ (number, block) ∈ merged.code) ∧
      ∀ exec history reached,
        Run (CodeStep Point.blockId (CalmRuns rt shared) single.code) ⟨id, exec⟩ history reached →
        (∀ outcome, (bodySight rt shared).Comes (BlockRuns rt) merged.code reached outcome →
          ∃ seen, Sees (SameButTemp merged.nextId known single.code) outcome seen ∧
            (bodySight rt shared).Comes (CalmRuns rt shared) single.code reached seen) ∧
        ∀ seen, (bodySight rt shared).Comes (CalmRuns rt shared) single.code reached seen →
          ∃ outcome, Sees (SameButTemp merged.nextId known single.code) outcome seen ∧
            (bodySight rt shared).Comes (BlockRuns rt) merged.code reached outcome

/-- What is not known at a number, no block there reads. -/
theorem sameButTemp_of_level {marks : Marks} {pieces : List (Piece W)} {stop : Nat} {known : Bool}
    (marked : ∀ piece ∈ pieces, piece.Marked marks) (atStop : AtLeast (marks stop) known)
    {merged plain : Point W} (level : Level marks merged plain) :
    SameButTemp stop known (plainCode rt pieces) merged plain := by
  rcases level.fits with ⟨here, isHere, fits⟩
  refine ⟨level.number, fits.1, ?_⟩
  cases here with
  | true => exact .inl (fits.2 rfl)
  | false =>
      refine .inr ⟨fun block member => ?_, fun isStop => ?_⟩
      · rcases mem_plainCode.mp member with ⟨piece, isPiece, inPiece⟩
        cases piece with
        | block id own other =>
            rcases marked _ isPiece with ⟨before, behind, isMarked, carries, -⟩
            rcases Prod.mk.inj (List.mem_singleton.mp inPiece) with ⟨isId, rfl⟩
            rw [← isId, isHere] at isMarked
            cases isMarked
            exact carries.blind
        | row first stmts => exact blind_of_mem_plains inPiece
      · rcases atStop with ⟨also, isAlso, isKnown⟩
        rw [← isStop, isHere] at isAlso
        cases isAlso
        exact Bool.eq_false_of_not_eq_true fun yes => Bool.false_ne_true (isKnown yes)

/-- A body in which no statement reads `TEMP_VAL` where a coalesced binding has left it stale. -/
theorem merging_preserves {id : Nat} {scope : Scope} {body : List Expr} {merged : Emitted W}
    {known : Bool} (returning : Returning rt returns)
    (compiled : compileBody rt ctx [] some id scope body = some merged)
    (reads : tempSeq ctx returns scope true body = some known) :
    MergingPreserves rt ctx id scope body merged known := by
  rcases pairs_body returning body id [] id scope true known true merged rfl (fun isOpen => absurd rfl isOpen)
    (fun _ => rfl) List.Pairwise.nil (List.forall_mem_nil _) compiled reads with
    ⟨single, isSingle, nextId, sameScope, pieces, marks, isMerged, isPlain, marked, atFirst, atStop, -, -⟩
  have isPlain : single.code = plainCode rt pieces := isPlain
  have derived := compiles_body body compiled
  have distinct := (threaded derived (placed_body _ _ _ _) List.nodup_nil).closed.distinct
  have side : SideBySide rt marks pieces := by
    refine ⟨marked, ?_⟩
    rw [← ids_mergedCode rt, ← isMerged]
    exact distinct
  rcases atFirst with ⟨here, isHere, -⟩
  refine ⟨single, isSingle, nextId, sameScope, ?_, Shared pieces, ?_, ?_⟩
  · rw [isPlain, isMerged, ids_plainCode, ids_mergedCode]
  · intro number shared
    rw [isMerged]
    exact shared_same shared
  · intro exec history reached run
    rw [isPlain] at run ⊢
    rw [isMerged]
    have related : ∀ left right, Level marks left right →
        SameButTemp merged.nextId known (plainCode rt pieces) left right := fun left right =>
      sameButTemp_of_level marked atStop
    rcases both_come side isHere run with ⟨forth, back⟩
    constructor
    · intro outcome comes
      rcases forth outcome comes with ⟨seen, sees, alsoComes⟩
      exact ⟨seen, sees.mono related, alsoComes⟩
    · intro seen comes
      rcases back seen comes with ⟨outcome, sees, alsoComes⟩
      exact ⟨outcome, sees.mono related, alsoComes⟩

/-- A binding that is coalesced, and one of what is in `TEMP_VAL`. -/
def staleBody : List Expr := [.letVar "x" .unknown (some (.bool true)), .letVar "y" .unknown none]

def staleLet : Stored := ⟨true, 0, fun _ => some 1, fun _ _ _ _ => rfl⟩

/-- If the first binding goes through `TEMP_VAL`, the second variable is bound to 1. -/
theorem stale_bound {shared : Nat → Prop} {exec : ExecCtx Unit} {history : List (Stage (Point Unit) Exit)}
    {reached : Point Unit}
    (run : Run (CodeStep Point.blockId (CalmRuns RtFuncs.idle shared)
      [(0, fastBlock (staleLet.plain RtFuncs.idle) 1), (1, saveBlock 1 1)]) ⟨0, exec⟩ history reached) :
    reached.blockId = 0 ∨ reached.blockId = 1 ∧ reached.ctx.actor.tempVal = 1 ∨
      reached.blockId = 2 ∧ reached.ctx.actor.vars 1 = 1 := by
  have step : ∀ point exit next, (point.blockId = 0 ∨ point.blockId = 1 ∧ point.ctx.actor.tempVal = 1 ∨
      point.blockId = 2 ∧ point.ctx.actor.vars 1 = 1) →
      CodeStep Point.blockId (CalmRuns RtFuncs.idle shared)
        [(0, fastBlock (staleLet.plain RtFuncs.idle) 1), (1, saveBlock 1 1)] point exit next →
      next.blockId = 0 ∨ next.blockId = 1 ∧ next.ctx.actor.tempVal = 1 ∨
        next.blockId = 2 ∧ next.ctx.actor.vars 1 = 1 := by
    rintro point exit next holds ⟨block, member, runs, -⟩
    rcases List.mem_pair.mp member with isFirst | isSecond
    · rw [(Prod.mk.inj isFirst).2] at runs
      rcases blockRuns_fast.mp runs with ⟨after, isRun, -, -, isNext, others⟩
      cases isRun
      exact .inr (.inl ⟨isNext, others.tempVal rfl⟩)
    · rcases Prod.mk.inj isSecond with ⟨isId, isBlock⟩
      rw [isBlock] at runs
      have isOne : point.ctx.actor.tempVal = 1 := by
        rw [isId] at holds
        simpa using holds
      cases runs with
      | block isRun alive resumes others =>
          cases isRun
          cases resumes
          refine .inr (.inr ⟨rfl, ?_⟩)
          rw [others.vars]
          exact isOne
  exact (run.invariant (.inl rfl) step).2

/-- With 7 in `TEMP_VAL` in front, the merged body binds the second variable to 7. -/
theorem stale_temp : ∃ merged : Emitted Unit,
    compileBody RtFuncs.idle CompilerCtx.bare [] some 0 (branchScope []) staleBody = some merged ∧
    ∀ known, ¬ MergingPreserves RtFuncs.idle CompilerCtx.bare 0 (branchScope []) staleBody merged known := by
  have compiled : (compileBody RtFuncs.idle CompilerCtx.bare [] some 0 (branchScope []) staleBody).map
      Emitted.code = some [(0, fastBlock (staleLet.run RtFuncs.idle) 1), (1, saveBlock 1 1)] := rfl
  have lowered : (plainSeq RtFuncs.idle CompilerCtx.bare 0 (branchScope []) staleBody).map Emitted.code =
      some [(0, fastBlock (staleLet.plain RtFuncs.idle) 1), (1, saveBlock 1 1)] := rfl
  rcases Option.map_eq_some_iff.mp compiled with ⟨merged, isMerged, isCode⟩
  refine ⟨merged, isMerged, ?_⟩
  rintro known ⟨single, isSingle, -, -, -, shared, share, agrees⟩
  rw [isSingle] at lowered
  rw [isCode] at share agrees
  rw [Option.some.inj lowered] at agrees
  let start : ExecCtx Unit := ⟨{ Actor.zeroed with tempVal := 7 }, fun _ => 0, 0, ()⟩
  let bound := start.setVar 0 1
  let final : Point Unit := ⟨2, bound.setVar 1 7⟩
  have watched : ¬ shared 2 := by
    intro isShared
    rcases share 2 isShared with ⟨front, block, -, -, member⟩
    simp at member
  have comes : (bodySight RtFuncs.idle shared).Comes (BlockRuns RtFuncs.idle)
      [(0, fastBlock (staleLet.run RtFuncs.idle) 1), (1, saveBlock 1 1)] ⟨0, start⟩ (.inl final) := by
    have second : BlockRuns RtFuncs.idle (saveBlock 1 1) ⟨1, bound⟩ (.goto 2) final :=
      .block rfl rfl rfl (.refl _ _)
    have first : BlockRuns RtFuncs.idle (fastBlock (staleLet.run RtFuncs.idle) 1) ⟨0, start⟩ (.goto 1)
        ⟨1, bound⟩ := .block rfl rfl rfl (.refl _ _)
    exact ((Sight.Shows.comes (.here watched)).step ⟨_, List.mem_cons_of_mem _ List.mem_cons_self, second⟩).step
      ⟨_, List.mem_cons_self, first⟩
  rcases (agrees start [] ⟨0, start⟩ .refl).1 _ comes with ⟨seen, sees, history, reached, run, shows⟩
  cases sees with
  | here same =>
      cases shows with
      | here _ =>
          have vars : reached.ctx.actor.vars 1 = 7 := by
            rw [same.ctx]
            rfl
          rcases stale_bound run with atStart | ⟨atSave, -⟩ | ⟨-, isOne⟩
          · exact absurd (same.number.symm.trans atStart) (by decide)
          · exact absurd (same.number.symm.trans atSave) (by decide)
          · exact absurd (vars.symm.trans isOne) (by decide)

/-- Two bindings, a string, a choice with a binding in its arm, and a value. -/
def mixedBody : List Expr :=
  [.letVar "a" .unknown (some (.bool true)), .letVar "b" .unknown (some (.var "a" .unknown)),
    .string "text" .unknown,
    .when (.var "b" .unknown) [(.bool true,
      [.letVar "c" .unknown (some (.var "a" .unknown)), .string "yes" .unknown])],
    .var "b" .unknown]

theorem merging_preserves_mixed : ∃ merged : Emitted Unit,
    compileBody RtFuncs.idle CompilerCtx.bare [] some 0 (branchScope []) mixedBody = some merged ∧
    ids merged.code = [0, 1, 2, 3, 4, 5, 6, 7, 8] ∧
    MergingPreserves RtFuncs.idle CompilerCtx.bare 0 (branchScope []) mixedBody merged true := by
  have returning : Returning RtFuncs.idle fun _ => false := fun _ returns => by cases returns
  have numbers : (compileBody RtFuncs.idle CompilerCtx.bare [] some 0 (branchScope []) mixedBody).map
      (fun emitted => ids emitted.code) = some [0, 1, 2, 3, 4, 5, 6, 7, 8] := by
    decide +kernel
  rcases Option.map_eq_some_iff.mp numbers with ⟨merged, compiled, isNumbers⟩
  exact ⟨merged, compiled, isNumbers, merging_preserves returning compiled (by decide +kernel)⟩

end LakeNative.Control

import Mathlib.Data.List.MinMax
import Mathlib.Order.Nat
import LakeNative.Compiler.FrameSize
import LakeNative.Compiler.WaitDispatch

/-! # Slots of the variables array

What the pipeline stores to is what the frames say, and it stays below the size that spawns
allocate exactly where the frames do.
-/

namespace LakeNative.Memory

open LakeNative.Runtime LakeNative.Compiler

variable {W : Type} {rt : RtFuncs W} {ctx : CompilerCtx}

/-! ## Pure expressions -/

mutual
theorem frameExpr_pure : (stmt : Expr) → isPure stmt = true → ∀ scope,
    frameExpr ctx scope stmt = .start scope
  | .num text ty, _, _ | .bool value, _, _ | .var name ty, _, _ | .atom name, _, _
  | .neg inner, _, _ | .tupleIndex receiver position, _, _ | .binary op left right, _, _ => rfl
  | .index receiver index, isPureStmt, scope => by
      rw [isPure, Bool.and_eq_true] at isPureStmt
      rw [frameExpr]
      simp only [frameExpr_pure receiver isPureStmt.1, frameExpr_pure index isPureStmt.2,
        Frame.start, Nat.max_self]
  | .jump ident args, isPureStmt, scope => by
      cases ident with
      | var callee ty =>
          rw [isPure, Bool.and_eq_true] at isPureStmt
          have notSelf : callee ≠ "self" := by
            rintro rfl
            exact absurd isPureStmt.1 (by decide)
          rw [frameExpr, if_neg fun fused => notSelf fused.1,
            frameArgs_pure args isPureStmt.2 args.length scope]
          have noCall : isSelfCall ctx scope callee ty = false := by
            simp [isSelfCall, notSelf]
          simp only [Frame.start, noCall]
      | _ => exact absurd isPureStmt (by simp [isPure])
  | .string text ty, isPureStmt, _ => by simp [isPure] at isPureStmt
  | .unit, isPureStmt, _ => by simp [isPure] at isPureStmt
  | .tuple fields, isPureStmt, _ => by simp [isPure] at isPureStmt
  | .letVar ident ty default, isPureStmt, _ => by simp [isPure] at isPureStmt
  | .when cond branches, isPureStmt, _ => by simp [isPure] at isPureStmt
  | .wait handlers filter, isPureStmt, _ => by simp [isPure] at isPureStmt
  | .other parts, isPureStmt, _ => by simp [isPure] at isPureStmt

theorem frameArgs_pure : (args : List Expr) → allPure args = true → ∀ count scope,
    frameArgs ctx scope.jumpArgsBase count scope args = .start scope
  | [], _, _, _ => rfl
  | arg :: args, pureArgs, count, scope => by
      rw [allPure, Bool.and_eq_true] at pureArgs
      rw [frameArgs, frameExpr_pure arg pureArgs.1]
      have rest := frameArgs_pure args pureArgs.2 count scope
      dsimp only [Frame.start] at rest ⊢
      rw [rest]
      exact congrArg (Frame.mk scope · false) (Nat.max_self _)
end

/-- A statement that shares its block. -/
theorem frameExpr_fast {scope added : Scope} {stmt : Expr} {step : FastOp W}
    (accepts : acceptsEntry stmt = true)
    (isFast : compileFast rt ctx scope stmt = some (step, added)) :
    frameExpr ctx scope stmt = .start added := by
  by_cases bound : ∃ ident ty default, stmt = .letVar ident ty (some default)
  · rcases bound with ⟨ident, ty, default, rfl⟩
    rw [acceptsEntry] at accepts
    rw [compileFast] at isFast
    rcases bind_some isFast with ⟨value, -, result⟩
    cases result
    rw [frameExpr, frameExpr_pure default accepts]
    have length : (scope.insertWithLakeType ident ty).len = scope.len + 1 :=
      BranchState.len_insert _ _
    simp only [Frame.start, Frame.bind, length, Bool.false_eq_true, if_false,
      Nat.max_eq_right (Nat.le_succ scope.len)]
  · have other : ∀ ident ty default, stmt ≠ .letVar ident ty (some default) :=
      fun ident ty default same => bound ⟨ident, ty, default, same⟩
    rw [acceptsEntry] at accepts
    · rw [compileFast] at isFast
      · rcases bind_some isFast with ⟨value, -, result⟩
        cases result
        exact frameExpr_pure stmt accepts scope
      · exact other
    · exact other

/-! ## Choices -/

theorem constant_frame {literals : Literals} {stmt : Expr} {value : Word}
    (constant : constFoldI64 literals stmt = some value) (scope : Scope) :
    frameExpr ctx scope stmt = .start scope := by
  cases stmt with
  | num text ty => rfl
  | bool value => rfl
  | neg inner => rfl
  | binary op left right => rfl
  | _ => cases constant

theorem constant_entry {literals : Literals} {count : Nat} {branch : Expr × List Expr}
    {entry : Nat × Word} (isEntry : kTableEntry literals count branch = some entry) :
    ∃ stmt value, branch.2 = [stmt] ∧ constFoldI64 literals stmt = some value := by
  rw [kTableEntry.eq_def] at isEntry
  split at isEntry
  · rename_i text ty stmt
    rcases bind_some isEntry with ⟨number, -, inRange⟩
    split at inRange
    · rcases Option.map_eq_some_iff.mp inRange with ⟨value, constant, -⟩
      exact ⟨stmt, value, rfl, constant⟩
    · cases inRange
  · cases isEntry

/-- The arms of a table are constants. -/
theorem constant_arms {literals : Literals} {branches : List (Expr × List Expr)}
    {values : List Word} (table : tryBuildKTable literals branches = some values) :
    ∀ branch ∈ branches, ∃ stmt value, branch.2 = [stmt] ∧
      constFoldI64 literals stmt = some value := by
  intro branch member
  rw [tryBuildKTable] at table
  split at table
  · cases table
  · rcases bind_some table with ⟨entries, isEntries, -⟩
    have isEntry : kTableEntry literals branches.length branch ∈ entries.map some := by
      rw [← mapM_eq_some_iff.mp isEntries]
      exact List.mem_map_of_mem member
    rcases List.mem_map.mp isEntry with ⟨entry, -, same⟩
    exact constant_entry same.symm

/-- They take no slots. -/
theorem frameArms_constant {literals : Literals} {branches : List (Expr × List Expr)}
    (constants : ∀ branch ∈ branches, ∃ stmt value, branch.2 = [stmt] ∧
      constFoldI64 literals stmt = some value) (scope : Scope) :
    frameArms ctx scope branches = .start scope := by
  induction branches with
  | nil => rfl
  | cons branch branches induction =>
      rw [List.forall_mem_cons] at constants
      rcases branch with ⟨key, body⟩
      rcases constants with ⟨⟨stmt, value, rfl, constant⟩, others⟩
      rw [frameArms, frameSeq, constant_frame constant]
      simp only [Frame.start, Bool.false_eq_true, if_false, frameSeq, Nat.max_self]
      rw [induction others]
      simp only [Frame.start, Nat.max_self]

theorem frameArms_table {literals : Literals} {branches : List (Expr × List Expr)}
    {values : List Word} (table : tryBuildKTable literals branches = some values) (scope : Scope) :
    frameArms ctx scope branches = .start scope :=
  frameArms_constant (constant_arms table) scope

theorem collectMeta_registered {start : Nat} {handlers : List HandlerMeta} {state : BranchState}
    {collect : List Handler}
    (registered : (handlers.any fun earlier => earlier.guardI64.isNone) = true) :
    (collectMeta start handlers state collect).2 = state := by
  induction collect generalizing handlers with
  | nil => rfl
  | cons handler collect induction =>
      rw [collectMeta, if_pos registered]
      apply induction
      rw [List.any_append, registered, Bool.true_or]

/-- The names of the first handler without a guard. -/
def registeredBinders (collect : List Handler) : List String :=
  (collect.find? fun handler => handler.guard.isNone).elim [] Handler.binders

theorem collectMeta_state {start : Nat} {handlers : List HandlerMeta} {state : BranchState}
    {collect : List Handler}
    (unregistered : (handlers.any fun earlier => earlier.guardI64.isNone) = false) :
    (collectMeta start handlers state collect).2 = state.insertAll (registeredBinders collect) := by
  induction collect generalizing handlers with
  | nil => rfl
  | cons handler collect induction =>
      rw [collectMeta, if_neg (by rw [unregistered]; exact Bool.false_ne_true), registeredBinders,
        List.find?_cons]
      split
      · rename_i unguarded
        rw [collectMeta_registered, unguarded]
        · rfl
        · rw [List.any_append, List.any_cons, unguarded, Bool.true_or, Bool.or_true]
      · rename_i guarded
        rw [Bool.not_eq_true] at guarded
        rw [guarded]
        apply induction
        rw [List.any_append, List.any_cons, guarded, unregistered]
        rfl

/-- The names of the first handler without a guard have slots. -/
theorem registered_len (scope : Scope) (handlers : List (List Pattern × List Expr)) :
    (registerHandlers scope (collected handlers)).len = scope.len + registeredNames handlers := by
  change (collectMeta scope.len [] scope.toBranchState (collected handlers)).2.len = _
  rw [collectMeta_state rfl, BranchState.len_insertAll, registeredBinders, collected, registeredNames]
  cases (handlers.map fun handler => (⟨handler.1, []⟩ : Handler)).find? fun handler =>
      handler.guard.isNone with
  | none => rfl
  | some handler => exact congrArg (scope.len + ·) (List.length_map _)

theorem dequeueArgCount_eq (scope : Scope) (handlers : List (List Pattern × List Expr)) :
    (waitAt scope handlers).dequeueArgCount =
      (handlers.map fun handler => patSlots handler.1).foldr max 0 := by
  rw [WaitExpr.dequeueArgCount, WaitExpr.handlers_eq, waitAt, collected]
  simp only [List.map_map]
  congr 2
  funext handler
  exact List.length_map _

theorem registeredNames_le {handlers : List (List Pattern × List Expr)} {bound : Nat}
    (taken : ∀ handler ∈ handlers, patSlots handler.1 ≤ bound) :
    registeredNames handlers ≤ bound := by
  rw [registeredNames]
  cases found : (handlers.map fun handler => (⟨handler.1, []⟩ : Handler)).find? fun handler =>
    handler.guard.isNone with
  | none => exact Nat.zero_le _
  | some handler =>
      rcases List.mem_map.mp (List.mem_of_find?_eq_some found) with ⟨source, member, rfl⟩
      exact taken source member

/-- The names of the handlers have slots that the dequeue stores to. -/
theorem len_registerHandlers (scope : Scope) (handlers : List (List Pattern × List Expr)) :
    (registerHandlers scope (collected handlers)).len ≤
      scope.len + (waitAt scope handlers).dequeueArgCount := by
  rw [registered_len, dequeueArgCount_eq]
  apply Nat.add_le_add_left
  apply registeredNames_le
  intro handler member
  exact List.le_max_of_le' 0 (List.mem_map_of_mem member) (Nat.le_refl _)

/-! ## What is stored to -/

variable (rt ctx) in
/-- The scope that is left is the frame's, and all slots that the frame takes are stored to. -/
structure Framed (task : Compiler.Task W) (emitted : Emitted W) : Prop where
  scope : emitted.scope = (task.frame ctx).scope
  covers : emitted.scope.len ≤ (task.frame ctx).peak
  stores : ∀ slot, task.scope.len ≤ slot → slot < (task.frame ctx).peak → Stores rt ctx task slot

namespace Framed

theorem ofStart {task : Compiler.Task W} {emitted : Emitted W} (isStart : task.frame ctx = .start emitted.scope)
    (same : task.scope.len = emitted.scope.len) : Framed rt ctx task emitted where
  scope := by
    rw [isStart]
    rfl
  covers := by
    rw [isStart]
    exact Nat.le_refl _
  stores := by
    intro slot above below
    rw [isStart] at below
    change slot < emitted.scope.len at below
    omega

end Framed

theorem framed_pure {id : Nat} {scope : Scope} {stmt : Expr} {emitted : Emitted W}
    (isPureStmt : isPure stmt = true)
    (compiled : compilePure rt ctx id scope stmt = some emitted) :
    Framed rt ctx (.expr id scope stmt) emitted ∧
      emitted.outcome.isTerminal = (frameExpr ctx scope stmt).ends := by
  have other : ∀ ident ty default, stmt ≠ .letVar ident ty (some default) := by
    rintro ident ty default rfl
    simp [isPure] at isPureStmt
  rcases bind_some compiled with ⟨⟨step, added⟩, isFast, result⟩
  cases result
  rw [compileFast] at isFast
  · rcases bind_some isFast with ⟨value, -, result⟩
    cases result
    refine ⟨.ofStart (frameExpr_pure stmt isPureStmt scope) rfl, ?_⟩
    rw [frameExpr_pure stmt isPureStmt]
    rfl
  · exact other

theorem framed_of_pure {id : Nat} {scope : Scope} {stmt : Expr} {emitted : Emitted W}
    (unfolds : compileExpr rt ctx id scope stmt =
      if isPure stmt then compilePure rt ctx id scope stmt else none)
    (compiled : compileExpr rt ctx id scope stmt = some emitted) :
    Framed rt ctx (.expr id scope stmt) emitted ∧
      emitted.outcome.isTerminal = (frameExpr ctx scope stmt).ends := by
  rw [unfolds] at compiled
  split at compiled
  · rename_i isPureStmt
    exact framed_pure isPureStmt compiled
  · cases compiled

variable (rt ctx) in
/-- A statement that is compiled is framed, and its frame ends where it is terminal. -/
def FramedExpr (stmt : Expr) : Prop :=
  ∀ id scope emitted, compileExpr rt ctx id scope stmt = some emitted →
    Framed rt ctx (.expr id scope stmt) emitted ∧
      emitted.outcome.isTerminal = (frameExpr ctx scope stmt).ends

theorem framed_letVar {ident : String} {ty : Ty} {default : Expr}
    (inner : FramedExpr rt ctx default) : FramedExpr rt ctx (.letVar ident ty (some default)) := by
  intro id scope emitted compiled
  rw [compileExpr] at compiled
  split at compiled
  · rename_i isPureDefault
    rcases bind_some compiled with ⟨⟨step, added⟩, isFast, result⟩
    cases result
    have frame : frameExpr ctx scope (.letVar ident ty (some default)) = .start added :=
      frameExpr_fast isPureDefault isFast
    rw [compileFast] at isFast
    rcases bind_some isFast with ⟨value, -, result⟩
    cases result
    have length : (scope.insertWithLakeType ident ty).len = scope.len + 1 :=
      BranchState.len_insert _ _
    refine ⟨⟨congrArg Frame.scope frame.symm, ?_, fun slot above below => ?_⟩,
      congrArg Frame.ends frame.symm⟩
    · exact Nat.le_of_eq (congrArg Frame.peak frame).symm
    · rw [Task.frame, frame] at below
      change slot < (scope.insertWithLakeType ident ty).len at below
      change scope.len ≤ slot at above
      have isLast : slot = scope.len := by omega
      rw [isLast]
      exact .letFast isPureDefault
  · rcases bind_some compiled with ⟨value, isValue, result⟩
    rcases inner id scope value isValue with ⟨framed, ends⟩
    have frameScope : value.scope = (frameExpr ctx scope default).scope := framed.scope
    have covers : value.scope.len ≤ (frameExpr ctx scope default).peak := framed.covers
    split at result
    · rename_i next continues
      cases result
      rw [continues] at ends
      have frame : frameExpr ctx scope (.letVar ident ty (some default)) =
          (frameExpr ctx scope default).bind ident ty := by
        rw [frameExpr, ← ends]
        rfl
      refine ⟨⟨?_, ?_, fun slot above below => ?_⟩, (congrArg Frame.ends frame).symm⟩
      · rw [Task.frame, frame, Frame.bind, ← frameScope]
      · change (value.scope.insert ident).len ≤ (frameExpr ctx scope _).peak
        rw [frame, BranchState.len_insert, frameScope]
        exact Nat.le_max_right _ _
      · rw [Task.frame, frame, Frame.bind, ← frameScope] at below
        change slot < max (frameExpr ctx scope default).peak (value.scope.len + 1) at below
        rcases Nat.lt_or_ge slot (frameExpr ctx scope default).peak with inside | outside
        · exact .letDefault (framed.stores slot above inside)
        · have isLast : slot = value.scope.len := by omega
          rw [isLast]
          exact .letValue isValue continues
    · rename_i other
      cases result
      have terminal := isTerminal_of_ne other
      rw [terminal] at ends
      have frame : frameExpr ctx scope (.letVar ident ty (some default)) =
          frameExpr ctx scope default := by
        rw [frameExpr, ← ends]
        rfl
      refine ⟨⟨?_, ?_, fun slot above below => ?_⟩, ?_⟩
      · rw [Task.frame, frame]
        exact frameScope
      · rw [Task.frame, frame]
        exact covers
      · rw [Task.frame, frame] at below
        exact .letDefault (framed.stores slot above below)
      · rw [terminal, frame, ends]

variable (rt ctx) in
def FramedArgs (args : List Expr) : Prop :=
  ∀ base count index id scope emitted,
    compileArgs rt ctx base count index id scope args = some emitted →
    Framed rt ctx (.args base count index id scope args) emitted

variable (rt ctx) in
def FramedSeq (body : List Expr) : Prop :=
  ∀ id scope emitted, compileSeq rt ctx id scope body = some emitted →
    Framed rt ctx (.seq id scope body) emitted

variable (rt ctx) in
def FramedBody (body : List Expr) : Prop :=
  ∀ run op id scope emitted, compileBody rt ctx run op id scope body = some emitted →
    Framed rt ctx (.body run op id scope body) emitted

variable (rt ctx) in
def FramedArms (branches : List (Expr × List Expr)) : Prop :=
  ∀ id scope emitted, compileArms rt ctx id scope branches = some emitted →
    Framed rt ctx (.arms id scope branches) emitted

variable (rt ctx) in
def FramedHandlers (handlers : List (List Pattern × List Expr)) : Prop :=
  ∀ id scope emitted, compileHandlers rt ctx id scope handlers = some emitted →
    Framed rt ctx (.handlers id scope handlers) emitted

theorem isTerminal_compileCall {id : Nat} {scope : Scope} {callee : String} {ty : Ty}
    {args : List Expr} {emitted : Emitted W}
    (called : compileCall rt ctx id scope callee ty args = some emitted) :
    emitted.scope = scope ∧ emitted.outcome.isTerminal = isSelfCall ctx scope callee ty := by
  rw [compileCall] at called
  rw [isSelfCall]
  generalize (if ty.toString = "?" then (scope.lakeTypeOf callee).getD "?" else ty.toString) =
    calleeType at called ⊢
  dsimp only at called ⊢
  split at called
  · rename_i declared
    cases called
    rw [declared, Bool.not_true, Bool.and_false, Bool.false_and]
    exact ⟨rfl, rfl⟩
  · rename_i notDeclared
    rw [Bool.not_eq_true] at notDeclared
    rw [notDeclared]
    by_cases isPid : calleeType = "pid"
    · rw [if_pos isPid] at called
      cases slotOf : scope.get callee with
      | some slot =>
          rw [slotOf] at called
          cases called
          simp [isPid]
          rfl
      | none =>
          rw [slotOf] at called
          rcases bind_some called with ⟨select, -, result⟩
          split at result <;> cases result <;> simp [*] <;> rfl
    · rw [if_neg isPid] at called
      rcases bind_some called with ⟨select, -, result⟩
      split at result <;> cases result <;> simp [*] <;> rfl

theorem framed_jump {ident : Expr} {args : List Expr} (inner : FramedArgs rt ctx args) :
    FramedExpr rt ctx (.jump ident args) := by
  intro id scope emitted compiled
  by_cases named : ∃ callee ty, ident = .var callee ty
  · rcases named with ⟨callee, ty, rfl⟩
    rw [compileExpr] at compiled
    split at compiled
    · rename_i isPureStmt
      exact framed_pure isPureStmt compiled
    · split at compiled
      · rename_i fused
        rcases bind_some compiled with ⟨folded, -, later⟩
        rcases bind_some later with ⟨select, -, result⟩
        cases result
        have frame : frameExpr ctx scope (.jump (.var callee ty) args) =
            ⟨scope, max scope.len args.length, true⟩ := by
          rw [frameExpr, if_pos fused]
        refine ⟨⟨?_, ?_, fun slot above below => ?_⟩, ?_⟩
        · rw [Task.frame, frame]
        · rw [Task.frame, frame]
          exact Nat.le_max_left _ _
        · rw [Task.frame, frame] at below
          change scope.len ≤ slot at above
          change slot < max scope.len args.length at below
          rw [fused.1]
          exact .fusedSelf fused.2 (by omega)
        · rw [frame]
          rfl
      · rename_i notFused
        split at compiled
        · rename_i fusedRt
          rcases bind_some compiled with ⟨folded, -, result⟩
          cases result
          have notSelf : isSelfCall ctx scope callee ty = false := by
            simp [isSelfCall, fusedRt.2.1]
          have frame : frameExpr ctx scope (.jump (.var callee ty) args) = .start scope := by
            rw [frameExpr, if_neg notFused, frameArgs_pure args fusedRt.2.2]
            simp only [Frame.start, notSelf]
          refine ⟨.ofStart frame rfl, ?_⟩
          rw [frame]
          rfl
        · rcases bind_some compiled with ⟨staged, isStaged, result⟩
          rcases bind_some result with ⟨call, isCall, result⟩
          cases result
          have framed := inner _ _ _ _ _ _ isStaged
          have frameScope : staged.scope =
              (frameArgs ctx scope.jumpArgsBase args.length scope args).scope := framed.scope
          rcases isTerminal_compileCall isCall with ⟨sameScope, terminal⟩
          have frame : frameExpr ctx scope (.jump (.var callee ty) args) =
              { frameArgs ctx scope.jumpArgsBase args.length scope args with
                ends := isSelfCall ctx staged.scope callee ty } := by
            rw [frameExpr, if_neg notFused, frameScope]
          refine ⟨⟨?_, ?_, fun slot above below => ?_⟩, ?_⟩
          · rw [Task.frame, frame]
            exact sameScope.trans frameScope
          · rw [Task.frame, frame]
            change call.scope.len ≤ _
            rw [sameScope]
            exact framed.covers
          · rw [Task.frame, frame] at below
            exact .callArgs notFused (framed.stores slot above below)
          · rw [frame]
            exact terminal
  · rw [compileExpr] at compiled
    · split at compiled
      · rename_i isPureStmt
        exact framed_pure isPureStmt compiled
      · cases compiled
    · exact fun callee ty same => named ⟨callee, ty, same⟩

/-- Two parts, the second from where the first ends: together they take what either does. -/
theorem framed_pair {task first second : Compiler.Task W} {emitted part other : Emitted W}
    (framed : Framed rt ctx first part) (alsoFramed : Framed rt ctx second other)
    (inFirst : ∀ {slot}, Stores rt ctx first slot → Stores rt ctx task slot)
    (inSecond : ∀ {slot}, Stores rt ctx second slot → Stores rt ctx task slot)
    (startsSame : first.scope.len = task.scope.len)
    (follows : second.scope.len = part.scope.len)
    (leaves : emitted.scope = (task.frame ctx).scope)
    (sameLength : emitted.scope.len = other.scope.len)
    (peak : (task.frame ctx).peak = max (first.frame ctx).peak (second.frame ctx).peak) :
    Framed rt ctx task emitted where
  scope := leaves
  covers := by
    rw [peak, sameLength]
    exact alsoFramed.covers.trans (Nat.le_max_right _ _)
  stores := by
    intro slot above below
    rw [peak] at below
    rcases Nat.lt_or_ge slot (first.frame ctx).peak with inside | outside
    · exact inFirst (framed.stores slot (by omega) inside)
    · have covers := framed.covers
      exact inSecond (alsoFramed.stores slot (by omega) (by omega))

theorem framed_index {receiver index : Expr} (inner : FramedExpr rt ctx receiver)
    (other : FramedExpr rt ctx index) : FramedExpr rt ctx (.index receiver index) := by
  intro id scope emitted compiled
  cases accepts : isPure (.index receiver index) with
  | true =>
      rw [compileExpr, if_pos accepts] at compiled
      exact framed_pure accepts compiled
  | false =>
      rcases compile_index accepts compiled with
        ⟨buf, atBuf, offset, atOffset, isBuf, bufContinues, isOffset, offsetContinues, rfl⟩
      have framed := (inner _ _ _ isBuf).1
      have alsoFramed := (other _ _ _ isOffset).1
      have bufScope : buf.scope = (frameExpr ctx _ receiver).scope := framed.scope
      have offsetScope : offset.scope = (frameExpr ctx _ index).scope := alsoFramed.scope
      refine ⟨framed_pair framed alsoFramed .indexReceiver (.indexOffset isBuf bufContinues)
        rfl rfl ?_ rfl ?_, ?_⟩
      · rw [Task.frame, frameExpr]
        dsimp only
        rw [← bufScope, ← offsetScope]
      · simp only [Task.frame]
        rw [frameExpr]
        dsimp only
        rw [← bufScope]
      · rw [frameExpr]
        rfl

theorem framed_when {cond : Expr} {branches : List (Expr × List Expr)}
    (inner : FramedExpr rt ctx cond) (arms : FramedArms rt ctx branches) :
    FramedExpr rt ctx (.when cond branches) := by
  intro id scope emitted compiled
  rcases compile_when compiled with ⟨disc, done, -, isDisc, continues, isEmitted⟩
  have framed := (inner _ _ _ isDisc).1
  have discScope : disc.scope = (frameExpr ctx scope cond).scope := framed.scope
  rcases isEmitted with ⟨values, table, rfl⟩ | ⟨-, emittedArms, select, isArms, selected, rfl⟩
  · have frame : frameExpr ctx scope (.when cond branches) =
        ⟨disc.scope, max (frameExpr ctx scope cond).peak disc.scope.len, false⟩ := by
      rw [frameExpr, frameArms_table table, ← discScope]
      rfl
    have covers : disc.scope.len ≤ (frameExpr ctx scope cond).peak := framed.covers
    rw [Nat.max_eq_left covers] at frame
    refine ⟨⟨?_, ?_, fun slot above below => ?_⟩, ?_⟩
    · rw [Task.frame, frame]
    · rw [Task.frame, frame]
      exact covers
    · rw [Task.frame, frame] at below
      exact .whenCond (framed.stores slot above below)
    · rw [frame]
      rfl
  · have alsoFramed := arms _ _ _ isArms
    have armsScope : emittedArms.scope = (frameArms ctx disc.scope branches).scope :=
      alsoFramed.scope
    refine ⟨framed_pair framed alsoFramed .whenCond (.whenArms isDisc continues) rfl rfl ?_ rfl
      ?_, ?_⟩
    · rw [Task.frame, frameExpr]
      dsimp only
      rw [← discScope, ← armsScope]
    · simp only [Task.frame]
      rw [frameExpr]
      dsimp only
      rw [← discScope]
    · rw [frameExpr]
      rfl

theorem framed_wait {handlers : List (List Pattern × List Expr)} {filter : List Expr}
    (inner : FramedHandlers rt ctx handlers) : FramedExpr rt ctx (.wait handlers filter) := by
  intro id scope emitted compiled
  rcases compile_wait compiled with
    ⟨bodies, folded, dispatch, -, isBodies, filters, dispatches, -, rfl⟩
  have framed := inner _ _ _ isBodies
  have peak : ((Task.expr (W := W) id scope (.wait handlers filter)).frame ctx).peak =
      max (scope.len + (waitAt scope handlers).dequeueArgCount)
        ((Task.handlers (W := W) (id + 1) (registerHandlers scope (collected handlers))
          handlers).frame ctx).peak := by
    simp only [Task.frame]
    rw [frameExpr]
  refine ⟨⟨?_, ?_, fun slot above below => ?_⟩, ?_⟩
  · rw [Task.frame, frameExpr]
    exact framed.scope
  · rw [peak]
    exact framed.covers.trans (Nat.le_max_right _ _)
  · rw [peak] at below
    change scope.len ≤ slot at above
    have registered := len_registerHandlers scope handlers
    rcases Nat.lt_or_ge slot (scope.len + (waitAt scope handlers).dequeueArgCount) with
      inside | outside
    · have isSlot : slot = (waitAt scope handlers).dequeueVarBase + (slot - scope.len) := by
        have base : (waitAt scope handlers).dequeueVarBase = scope.len :=
          WaitExpr.dequeueVarBase_eq _
        omega
      rw [isSlot]
      exact .dequeue (by omega)
    · have inBodies := Nat.lt_of_not_le fun beyond =>
      absurd below (Nat.not_lt_of_le (Nat.max_le.mpr ⟨outside, beyond⟩))
      exact .waitBodies (framed.stores slot (registered.trans outside) inBodies)
  · rw [frameExpr]
    rfl

theorem framed_args_cons {arg : Expr} {args : List Expr} (inner : FramedExpr rt ctx arg)
    (rest : FramedArgs rt ctx args) : FramedArgs rt ctx (arg :: args) := by
  intro base count index id scope emitted compiled
  rw [compileArgs] at compiled
  rcases bind_some compiled with ⟨value, isValue, result⟩
  split at result
  · rename_i next continues
    rcases bind_some result with ⟨later, isLater, result⟩
    cases result
    have framed := (inner _ _ _ isValue).1
    have alsoFramed := rest _ _ _ _ _ _ isLater
    have valueScope : value.scope = (frameExpr ctx _ arg).scope := framed.scope
    refine framed_pair framed alsoFramed .argsHead (.argsTail isValue continues) rfl rfl ?_ rfl ?_
    · rw [Task.frame, frameArgs]
      dsimp only
      rw [← valueScope]
      exact alsoFramed.scope
    · simp only [Task.frame]
      rw [frameArgs]
      dsimp only
      rw [← valueScope]
  · cases result

/-- A sequence of two statements or more that is one for the frames. -/
theorem framed_first {scope : Scope} {stmt : Expr} {first : Emitted W} {id : Nat} (body : List Expr)
    (framed : Framed rt ctx (.expr id scope stmt) first) (goesOn : (frameExpr ctx scope stmt).ends = false) :
    frameSeq ctx scope (stmt :: body) =
      ⟨(frameSeq ctx first.scope body).scope,
        max (frameExpr ctx scope stmt).peak (frameSeq ctx first.scope body).peak,
        (frameSeq ctx first.scope body).ends⟩ := by
  have same : first.scope = (frameExpr ctx scope stmt).scope := framed.scope
  rw [frameSeq, goesOn, same]
  rfl

theorem framed_seq_cons {stmt : Expr} {body : List Expr} (inner : FramedExpr rt ctx stmt)
    (rest : FramedSeq rt ctx body) : FramedSeq rt ctx (stmt :: body) := by
  intro id scope emitted compiled
  rw [compileSeq] at compiled
  rcases bind_some compiled with ⟨first, isFirst, result⟩
  rcases inner _ _ _ isFirst with ⟨framed, ends⟩
  split at result
  · rename_i next continues
    rcases bind_some result with ⟨later, isLater, result⟩
    cases result
    rw [continues] at ends
    have alsoFramed := rest _ _ _ isLater
    have frame := framed_first body framed ends.symm
    refine framed_pair framed alsoFramed .seqHead (.seqTail isFirst continues) rfl rfl ?_ rfl ?_
    · rw [Task.frame, frame]
      exact alsoFramed.scope
    · simp only [Task.frame]
      rw [frame]
  · rename_i other
    cases result
    have terminal := isTerminal_of_ne other
    have frame : frameSeq ctx scope (stmt :: body) = frameExpr ctx scope stmt := by
      rw [frameSeq, ← ends, terminal]
      rfl
    refine ⟨?_, ?_, fun slot above below => ?_⟩
    · rw [Task.frame, frame]
      exact framed.scope
    · rw [Task.frame, frame]
      exact framed.covers
    · rw [Task.frame, frame] at below
      exact .seqHead (framed.stores slot above below)

theorem framed_arms_cons {key : Expr} {body : List Expr} {branches : List (Expr × List Expr)}
    (inner : FramedSeq rt ctx body) (rest : FramedArms rt ctx branches) :
    FramedArms rt ctx ((key, body) :: branches) := by
  intro id scope emitted compiled
  rw [compileArms] at compiled
  rcases bind_some compiled with ⟨arm, isArm, result⟩
  have framed := inner _ _ _ isArm
  have armScope : arm.scope = (frameSeq ctx scope body).scope := framed.scope
  have frame : frameArms ctx scope ((key, body) :: branches) =
      ⟨(frameArms ctx arm.scope branches).scope,
        max (frameSeq ctx scope body).peak (frameArms ctx arm.scope branches).peak, false⟩ := by
    rw [frameArms, armScope]
  split at result
  · rename_i next leaves
    rcases bind_some result with ⟨later, isLater, result⟩
    cases result
    have alsoFramed := rest _ _ _ isLater
    refine framed_pair framed alsoFramed .armsHead (.armsTail isArm) rfl rfl ?_ rfl ?_
    · rw [Task.frame, frame]
      exact alsoFramed.scope
    · simp only [Task.frame]
      rw [frame]
  all_goals
    rename_i next goesOn
    rcases bind_some result with ⟨later, isLater, result⟩
    cases result
    have alsoFramed := rest _ _ _ isLater
    refine framed_pair framed alsoFramed .armsHead (.armsTail isArm) rfl rfl ?_ rfl ?_
    · rw [Task.frame, frame]
      exact alsoFramed.scope
    · simp only [Task.frame]
      rw [frame]

theorem framed_handlers_cons {patterns : List Pattern} {body : List Expr}
    {handlers : List (List Pattern × List Expr)} (inner : FramedBody rt ctx body)
    (rest : FramedHandlers rt ctx handlers) :
    FramedHandlers rt ctx ((patterns, body) :: handlers) := by
  intro id scope emitted compiled
  rw [compileHandlers] at compiled
  rcases bind_some compiled with ⟨first, isFirst, result⟩
  rcases bind_some result with ⟨later, isLater, result⟩
  cases result
  have framed := inner _ _ _ _ _ isFirst
  have firstScope : first.scope = (frameSeq ctx scope body).scope := framed.scope
  have alsoFramed := rest _ _ _ isLater
  have frame : frameHandlers ctx scope ((patterns, body) :: handlers) =
      ⟨(frameHandlers ctx first.scope handlers).scope,
        max (frameSeq ctx scope body).peak (frameHandlers ctx first.scope handlers).peak, false⟩ := by
    rw [frameHandlers, firstScope]
  refine framed_pair framed alsoFramed .handlersHead (.handlersTail isFirst) rfl rfl ?_ rfl ?_
  · rw [Task.frame, frame]
    exact alsoFramed.scope
  · simp only [Task.frame]
    rw [frame]

theorem frameSeq_fast {scope added : Scope} {stmt : Expr} {step : FastOp W} (body : List Expr)
    (accepts : acceptsEntry stmt = true)
    (isFast : compileFast rt ctx scope stmt = some (step, added)) :
    frameSeq ctx scope (stmt :: body) =
      ⟨(frameSeq ctx added body).scope, max added.len (frameSeq ctx added body).peak,
        (frameSeq ctx added body).ends⟩ := by
  rw [frameSeq, frameExpr_fast accepts isFast]
  rfl

/-- A statement that shares its block stores to the next slot if it is a `let`. -/
theorem framed_body_fast {run : List Nat} {op : FastOp W} {id : Nat} {scope added : Scope}
    {stmt : Expr} {body : List Expr} {step joined : FastOp W} {others : List Nat}
    {emitted rest : Emitted W} (accepts : acceptsEntry stmt = true)
    (isFast : compileFast rt ctx scope stmt = some (step, added))
    (framed : Framed rt ctx (.body others joined (id + 1) added body) rest)
    (sameScope : emitted.scope = rest.scope) :
    Framed rt ctx (.body run op id scope (stmt :: body)) emitted := by
  have frame := frameSeq_fast body accepts isFast
  refine ⟨?_, ?_, fun slot above below => ?_⟩
  · rw [Task.frame, frame, sameScope]
    exact framed.scope
  · rw [Task.frame, frame, sameScope]
    exact framed.covers.trans (Nat.le_max_right _ _)
  · rw [Task.frame, frame] at below
    change scope.len ≤ slot at above
    rcases Nat.lt_or_ge slot added.len with inside | outside
    · -- Only a `let` makes the scope longer.
      by_cases bound : ∃ ident ty default, stmt = .letVar ident ty (some default)
      · rcases bound with ⟨ident, ty, default, rfl⟩
        rw [acceptsEntry] at accepts
        rw [compileFast] at isFast
        rcases bind_some isFast with ⟨value, -, result⟩
        cases result
        have length : (scope.insertWithLakeType ident ty).len = scope.len + 1 :=
          BranchState.len_insert _ _
        have isLast : slot = scope.len := by omega
        rw [isLast]
        exact .bodyLet accepts
      · have other : ∀ ident ty default, stmt ≠ .letVar ident ty (some default) :=
          fun ident ty default same => bound ⟨ident, ty, default, same⟩
        rw [compileFast] at isFast
        · rcases bind_some isFast with ⟨value, -, result⟩
          cases result
          exact absurd inside (Nat.not_lt_of_le above)
        · exact other
    · have later := Nat.lt_of_not_le fun beyond =>
          absurd below (Nat.not_lt_of_le (Nat.max_le.mpr ⟨outside, beyond⟩))
      exact .bodyFast accepts isFast (framed.stores slot outside later)

theorem framed_body_cons {stmt : Expr} {body : List Expr} (inner : FramedExpr rt ctx stmt)
    (rest : FramedBody rt ctx body) : FramedBody rt ctx (stmt :: body) := by
  intro run op id scope emitted compiled
  rw [compileBody] at compiled
  split at compiled
  · rename_i accepts
    rcases bind_some compiled with ⟨⟨step, added⟩, isFast, result⟩
    dsimp only at result
    split at result
    · rename_i nextFast
      exact framed_body_fast accepts isFast (rest _ _ _ _ _ result) rfl
    · rcases bind_some result with ⟨later, isLater, result⟩
      cases result
      exact framed_body_fast accepts isFast (rest _ _ _ _ _ isLater) rfl
  · rcases bind_some compiled with ⟨first, isFirst, result⟩
    rcases inner _ _ _ isFirst with ⟨framed, ends⟩
    split at result
    · rename_i next continues
      rcases bind_some result with ⟨later, isLater, result⟩
      cases result
      rw [continues] at ends
      have alsoFramed := rest _ _ _ _ _ isLater
      have frame := framed_first body framed ends.symm
      refine framed_pair framed alsoFramed .bodyHead (.bodyTail isFirst continues) rfl rfl ?_ rfl ?_
      · rw [Task.frame, frame]
        exact alsoFramed.scope
      · simp only [Task.frame]
        rw [frame]
    all_goals
      rename_i next leaves
      cases result
      have frame : frameSeq ctx scope (stmt :: body) = frameExpr ctx scope stmt := by
        rw [frameSeq, ← ends, leaves]
        rfl
      refine ⟨?_, ?_, fun slot above below => ?_⟩
      · rw [Task.frame, frame]
        exact framed.scope
      · rw [Task.frame, frame]
        exact framed.covers
      · rw [Task.frame, frame] at below
        exact .bodyHead (framed.stores slot above below)

mutual
theorem framed_expr : (stmt : Expr) → FramedExpr rt ctx stmt
  | .letVar ident ty (some default) => framed_letVar (framed_expr default)
  | .letVar ident ty none => by
      intro id scope emitted compiled
      rw [compileExpr] at compiled
      cases compiled
      have length : (scope.insertWithLakeType ident ty).len = scope.len + 1 :=
        BranchState.len_insert _ _
      refine ⟨⟨rfl, ?_, fun slot above below => ?_⟩, rfl⟩
      · exact (Nat.le_of_eq length).trans (Nat.le_max_right _ _)
      · change scope.len ≤ slot at above
        change slot < max scope.len (scope.len + 1) at below
        have isLast : slot = scope.len := by omega
        rw [isLast]
        exact .letOpen
  | .string text ty => by
      intro id scope emitted compiled
      rw [compileExpr] at compiled
      cases compiled
      exact ⟨.ofStart rfl rfl, rfl⟩
  | .jump ident args => framed_jump (framed_args args)
  | .when cond branches => framed_when (framed_expr cond) (framed_arms branches)
  | .wait handlers filter => framed_wait (framed_handlers handlers)
  | .tuple elems => by
      intro id scope emitted compiled
      rw [compileExpr] at compiled
      rcases bind_some compiled with ⟨folded, -, result⟩
      cases result
      exact ⟨.ofStart rfl rfl, rfl⟩
  | .index receiver index => framed_index (framed_expr receiver) (framed_expr index)
  | .num text ty => fun _ _ _ => framed_of_pure (by rw [compileExpr] <;> simp)
  | .bool value => fun _ _ _ => framed_of_pure (by rw [compileExpr] <;> simp)
  | .unit => fun _ _ _ => framed_of_pure (by rw [compileExpr] <;> simp)
  | .atom name => fun _ _ _ => framed_of_pure (by rw [compileExpr] <;> simp)
  | .var name ty => fun _ _ _ => framed_of_pure (by rw [compileExpr] <;> simp)
  | .tupleIndex receiver index => fun _ _ _ => framed_of_pure (by rw [compileExpr] <;> simp)
  | .neg inner => fun _ _ _ => framed_of_pure (by rw [compileExpr] <;> simp)
  | .binary op left right => fun _ _ _ => framed_of_pure (by rw [compileExpr] <;> simp)
  | .other parts => fun _ _ _ => framed_of_pure (by rw [compileExpr] <;> simp)

theorem framed_args : (args : List Expr) → FramedArgs rt ctx args
  | [] => by
      intro base count index id scope emitted compiled
      rw [compileArgs] at compiled
      cases compiled
      exact .ofStart rfl rfl
  | arg :: args => framed_args_cons (framed_expr arg) (framed_args args)

theorem framed_seq : (body : List Expr) → FramedSeq rt ctx body
  | [] => by
      intro id scope emitted compiled
      rw [compileSeq] at compiled
      cases compiled
      exact .ofStart rfl rfl
  | stmt :: body => framed_seq_cons (framed_expr stmt) (framed_seq body)

theorem framed_arms : (branches : List (Expr × List Expr)) → FramedArms rt ctx branches
  | [] => by
      intro id scope emitted compiled
      rw [compileArms] at compiled
      cases compiled
      exact .ofStart rfl rfl
  | (_, body) :: branches => framed_arms_cons (framed_seq body) (framed_arms branches)

theorem framed_handlers : (handlers : List (List Pattern × List Expr)) →
    FramedHandlers rt ctx handlers
  | [] => by
      intro id scope emitted compiled
      rw [compileHandlers] at compiled
      cases compiled
      exact .ofStart rfl rfl
  | (_, body) :: handlers => framed_handlers_cons (framed_body body) (framed_handlers handlers)

theorem framed_body : (body : List Expr) → FramedBody rt ctx body
  | [] => by
      intro run op id scope emitted compiled
      rw [compileBody] at compiled
      cases compiled
      exact .ofStart rfl rfl
  | stmt :: body => framed_body_cons (framed_expr stmt) (framed_body body)
end

/-! ## How far stores reach -/

theorem ends_of_continued {id next : Nat} {scope : Scope} {stmt : Expr} {emitted : Emitted W}
    (compiled : compileExpr rt ctx id scope stmt = some emitted)
    (continues : emitted.outcome = .continued next) :
    (frameExpr ctx scope stmt).ends = false ∧
      (frameExpr ctx scope stmt).scope = emitted.scope := by
  rcases framed_expr stmt id scope emitted compiled with ⟨framed, ends⟩
  rw [continues] at ends
  exact ⟨ends.symm, framed.scope.symm⟩

/-- No store is behind the frame, but that of the arguments of a `self(...)`. -/
theorem stores_lt {size : Nat}
    (params : ∀ hash, argCount (ctx.branchesForHash ctx.currentMachine hash) ≤ size)
    {task : Compiler.Task W} {slot : Nat} (stores : Stores rt ctx task slot) :
    slot < max (task.frame ctx).peak size := by
  induction stores with
  | @letOpen id scope ident ty =>
      have frame : (frameExpr ctx scope (.letVar ident ty none)).peak =
          max scope.len (scope.len + 1) := rfl
      rw [Task.frame, frame]
      omega
  | @letFast id scope ident ty default isFast =>
      rw [Task.frame, frameExpr, frameExpr_pure default isFast]
      change scope.len < max (max scope.len (scope.len + 1)) size
      omega
  | @letValue id scope ident ty default value next compiled continues =>
      rcases ends_of_continued compiled continues with ⟨goesOn, same⟩
      rw [Task.frame, frameExpr, goesOn]
      change value.scope.len < max (max (frameExpr ctx scope default).peak
        ((frameExpr ctx scope default).scope.len + 1)) size
      rw [same]
      omega
  | @letDefault id scope ident ty default slot stores induction =>
      change slot < max (frameExpr ctx scope default).peak size at induction
      rw [Task.frame, frameExpr]
      split
      · exact induction
      · change slot < max (max (frameExpr ctx scope default).peak _) size
        omega
  | @fusedSelf id scope ty args index fused below =>
      rw [Task.frame, frameExpr, if_pos ⟨rfl, fused⟩]
      change index < max (max scope.len args.length) size
      omega
  | changeState isStaged isSelf below =>
      exact Nat.lt_of_lt_of_le below ((params _).trans (Nat.le_max_right _ _))
  | callArgs notFused stores induction =>
      rw [Task.frame, frameExpr, if_neg notFused]
      exact induction
  | @indexReceiver id scope receiver index slot stores induction =>
      change slot < max (frameExpr ctx _ receiver).peak size at induction
      rw [Task.frame, frameExpr]
      dsimp only
      omega
  | @indexOffset id scope receiver index buf atBuf slot compiled continues stores induction =>
      rcases ends_of_continued compiled continues with ⟨-, same⟩
      dsimp only [Task.frame] at induction
      rw [Task.frame, frameExpr]
      dsimp only
      rw [same]
      omega
  | @whenCond id scope cond branches slot stores induction =>
      change slot < max (frameExpr ctx scope cond).peak size at induction
      rw [Task.frame, frameExpr]
      dsimp only
      omega
  | @whenArms id scope cond branches disc done slot compiled continues stores induction =>
      rcases ends_of_continued compiled continues with ⟨-, same⟩
      change slot < max (frameArms ctx disc.scope branches).peak size at induction
      rw [Task.frame, frameExpr]
      dsimp only
      rw [same]
      omega
  | @dequeue id scope handlers filter index below =>
      have base : (waitAt scope handlers).dequeueVarBase = scope.len :=
        WaitExpr.dequeueVarBase_eq _
      rw [Task.frame, frameExpr, base]
      dsimp only
      omega
  | @waitBodies id scope handlers filter slot stores induction =>
      change slot < max (frameHandlers ctx _ handlers).peak size at induction
      rw [Task.frame, frameExpr]
      dsimp only
      omega
  | @argsHead base count index id scope arg args slot stores induction =>
      change slot < max (frameExpr ctx _ arg).peak size at induction
      rw [Task.frame, frameArgs]
      dsimp only
      omega
  | @argsTail base count index id scope arg args value next slot compiled continues stores induction =>
      rcases ends_of_continued compiled continues with ⟨-, same⟩
      dsimp only [Task.frame] at induction
      rw [Task.frame, frameArgs]
      dsimp only
      rw [same]
      omega
  | @seqHead id scope stmt body slot stores induction =>
      change slot < max (frameExpr ctx scope stmt).peak size at induction
      rw [Task.frame, frameSeq]
      dsimp only
      split
      · exact induction
      · dsimp only
        omega
  | @seqTail id scope stmt body first next slot compiled continues stores induction =>
      rcases ends_of_continued compiled continues with ⟨goesOn, same⟩
      change slot < max (frameSeq ctx first.scope body).peak size at induction
      rw [Task.frame, frameSeq, goesOn]
      dsimp only
      rw [same, if_neg Bool.false_ne_true]
      dsimp only
      omega
  | @armsHead id scope key body branches slot stores induction =>
      change slot < max (frameSeq ctx scope body).peak size at induction
      rw [Task.frame, frameArms]
      dsimp only
      omega
  | @armsTail id scope key body branches arm later slot compiled stores induction =>
      have same : arm.scope = (frameSeq ctx scope body).scope :=
        (framed_seq body id scope arm compiled).scope
      change slot < max (frameArms ctx arm.scope branches).peak size at induction
      rw [Task.frame, frameArms]
      dsimp only
      rw [← same]
      omega
  | @handlersHead id scope patterns body handlers slot stores induction =>
      change slot < max (frameSeq ctx scope body).peak size at induction
      rw [Task.frame, frameHandlers]
      dsimp only
      omega
  | @handlersTail id scope patterns body handlers first slot compiled stores induction =>
      have same : first.scope = (frameSeq ctx scope body).scope :=
        (framed_body body [] some id scope first compiled).scope
      change slot < max (frameHandlers ctx first.scope handlers).peak size at induction
      rw [Task.frame, frameHandlers]
      dsimp only
      rw [← same]
      omega
  | @bodyLet run op id scope ident ty default body isFast =>
      rw [Task.frame, frameSeq, frameExpr, frameExpr_pure default isFast]
      change scope.len < max (max (max scope.len (scope.len + 1)) _) size
      omega
  | @bodyFast run op id scope stmt body step added others joined slot accepts isFast stores induction =>
      change slot < max (frameSeq ctx added body).peak size at induction
      rw [Task.frame, frameSeq_fast body accepts isFast]
      dsimp only
      omega
  | @bodyHead run op id scope stmt body slot stores induction =>
      change slot < max (frameExpr ctx scope stmt).peak size at induction
      rw [Task.frame, frameSeq]
      dsimp only
      split
      · exact induction
      · dsimp only
        omega
  | @bodyTail run op id scope stmt body first next slot compiled continues stores induction =>
      rcases ends_of_continued compiled continues with ⟨goesOn, same⟩
      change slot < max (frameSeq ctx first.scope body).peak size at induction
      rw [Task.frame, frameSeq, goesOn]
      dsimp only
      rw [same, if_neg Bool.false_ne_true]
      dsimp only
      omega

end LakeNative.Memory

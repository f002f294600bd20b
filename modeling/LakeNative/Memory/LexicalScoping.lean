import LakeNative.Memory.FrameSizing
import LakeNative.Memory.VariableReads

/-! # Lexical scoping

In a branch whose references are lexical the compiled code reads a slot only for a name whose
innermost enclosing binding has it, and behind a block that has written it.
-/

namespace LakeNative.Memory

open LakeNative.Runtime LakeNative.Compiler LakeNative.KnownFacts LakeNative.NumberedCode
open LakeNative.Transitions

variable {W : Type} {rt : RtFuncs W} {ctx : CompilerCtx}

/-! ## Pure expressions -/

theorem lexicalExpr_pure : (stmt : Expr) → isPure stmt = true → ∀ scope env,
    lexicalExpr ctx scope env stmt = env.sees scope.toBranchState (foldReads stmt)
  | .num .., _, _, _ | .bool .., _, _, _ | .var .., _, _, _ | .atom .., _, _, _ | .neg .., _, _, _
  | .tupleIndex .., _, _, _ | .binary .., _, _, _ => by rw [lexicalExpr] <;> simp
  | .index receiver index, isPureStmt, scope, env => by
      rw [lexicalExpr, if_pos isPureStmt]
  | .jump ident args, isPureStmt, scope, env => by
      cases ident with
      | var callee ty => rw [lexicalExpr, if_pos isPureStmt]
      | _ => exact absurd isPureStmt (by simp [isPure])
  | .string .., isPureStmt, _, _ | .unit, isPureStmt, _, _ | .tuple .., isPureStmt, _, _
  | .letVar .., isPureStmt, _, _ | .when .., isPureStmt, _, _ | .wait .., isPureStmt, _, _
  | .other .., isPureStmt, _, _ => by simp [isPure] at isPureStmt

mutual
theorem envExpr_pure : (stmt : Expr) → isPure stmt = true → ∀ scope env,
    envExpr ctx scope env stmt = env
  | .num .., _, _, _ | .bool .., _, _, _ | .var .., _, _, _ | .atom .., _, _, _ | .neg .., _, _, _
  | .tupleIndex .., _, _, _ | .binary .., _, _, _ => by rw [envExpr] <;> simp
  | .index receiver index, isPureStmt, scope, env => by
      rw [isPure, Bool.and_eq_true] at isPureStmt
      rw [envExpr]
      dsimp only
      rw [envExpr_pure receiver isPureStmt.1, envExpr_pure index isPureStmt.2]
  | .jump ident args, isPureStmt, scope, env => by
      cases ident with
      | var callee ty =>
          rw [isPure, Bool.and_eq_true] at isPureStmt
          rw [envExpr]
          split
          · rfl
          · exact envArgs_pure args isPureStmt.2 _ _ scope env
      | _ => exact absurd isPureStmt (by simp [isPure])
  | .string .., isPureStmt, _, _ | .unit, isPureStmt, _, _ | .tuple .., isPureStmt, _, _
  | .letVar .., isPureStmt, _, _ | .when .., isPureStmt, _, _ | .wait .., isPureStmt, _, _
  | .other .., isPureStmt, _, _ => by simp [isPure] at isPureStmt

theorem envArgs_pure : (args : List Expr) → allPure args = true → ∀ base count scope env,
    envArgs ctx base count scope env args = env
  | [], _, _, _, _, _ => by rw [envArgs]
  | arg :: args, pureArgs, base, count, scope, env => by
      rw [allPure, Bool.and_eq_true] at pureArgs
      rw [envArgs, envExpr_pure arg pureArgs.1]
      exact envArgs_pure args pureArgs.2 _ _ _ _
end

/-! ## What is proved of statements -/

variable (rt ctx) in
/-- What a task refers to may be read there. -/
def Allowed (may : Nat → Set Nat) (task : Compiler.Task W) (env : Env) : Prop :=
  ∀ number name slot, Refers rt ctx task env number name (some slot) (some slot) → slot ∈ may number

/-- The code of a statement goes from what is known to more. -/
def Extends (may : Nat → Set Nat) (known : Set Nat) (first : Nat) (emitted : Emitted W) (behind : Set Nat) :
    Prop :=
  known ⊆ behind ∧
    (readAnalysis may).Passage first emitted.nextId emitted.code known behind [] []

variable (rt ctx) in
def ScopedExpr (stmt : Expr) : Prop :=
  ∀ id scope env may known emitted, compileExpr rt ctx id scope stmt = some emitted →
    lexicalExpr ctx scope env stmt = true → Covers known env →
    Allowed rt ctx may (.expr id scope stmt) env →
    ∃ behind, Extends may known id emitted behind ∧
      ∀ next, emitted.outcome = .continued next → Covers behind (envExpr ctx scope env stmt)

variable (rt ctx) in
def ScopedArgs (args : List Expr) : Prop :=
  ∀ base count index id scope env may known emitted,
    compileArgs rt ctx base count index id scope args = some emitted →
    lexicalArgs ctx base count scope env args = true → Covers known env →
    Allowed rt ctx may (.args base count index id scope args) env →
    ∃ behind, Extends may known id emitted behind ∧
      Covers behind (envArgs ctx base count scope env args)

variable (rt ctx) in
def ScopedSeq (body : List Expr) : Prop :=
  ∀ id scope env may known emitted, compileSeq rt ctx id scope body = some emitted →
    lexicalSeq ctx scope env body = true → Covers known env →
    Allowed rt ctx may (.seq id scope body) env →
    (readAnalysis may).Passage id emitted.nextId emitted.code known known [] []

variable (rt ctx) in
def ScopedArms (branches : List (Expr × List Expr)) : Prop :=
  ∀ id scope env may known emitted, compileArms rt ctx id scope branches = some emitted →
    lexicalArms ctx scope env branches = true → Covers known env →
    Allowed rt ctx may (.arms id scope branches) env →
    (readAnalysis may).Passage id emitted.nextId emitted.code known known emitted.starts
      emitted.redirects

variable (rt ctx) in
/-- The words of every handler are known. -/
def ScopedHandlers (handlers : List (List Pattern × List Expr)) : Prop :=
  ∀ id scope env may known emitted, compileHandlers rt ctx id scope handlers = some emitted →
    lexicalHandlers ctx scope env handlers = true → Covers known env →
    (∀ handler ∈ handlers, ∀ index < (Handler.binders ⟨handler.1, []⟩).length,
      env.base + index ∈ known) →
    Allowed rt ctx may (.handlers id scope handlers) env →
    (readAnalysis may).Passage id emitted.nextId emitted.code known known emitted.starts []

/-- The statements of a run so far: their numbers, what they may read and what is known behind
them. -/
structure OpenRun (may : Nat → Set Nat) (known between : Set Nat) (run : List Nat) (op : FastOp W)
    (id : Nat) (body : List Expr) : Prop where
  low : run.head?.getD id ≤ id
  range : ∀ number ∈ run, run.head?.getD id ≤ number ∧ number < id
  more : known ⊆ between
  reads : FastReads { slot | ∀ number, run.head?.getD id ≤ number → number < fastEnd id body →
    slot ∈ may number } known between op
  goesOn : run ≠ [] → body.head?.elim false acceptsEntry = true
  closed : run = [] → between ⊆ known

variable (rt ctx) in
def ScopedBody (body : List Expr) : Prop :=
  ∀ run op id scope env may known between emitted,
    compileBody rt ctx run op id scope body = some emitted →
    lexicalSeq ctx scope env body = true → Covers between env →
    OpenRun may known between run op id body →
    Allowed rt ctx may (.body run op id scope body) env →
    (readAnalysis may).Passage (run.head?.getD id) emitted.nextId emitted.code known known [] []

/-- A body that no statements stand before. -/
theorem OpenRun.fresh (may : Nat → Set Nat) (known : Set Nat) (id : Nat) (body : List Expr) :
    OpenRun may known known [] (some : FastOp W) id body where
  low := Nat.le_refl _
  range := nofun
  more := subset_rfl
  reads := .id _ _
  goesOn := fun nonempty => absurd rfl nonempty
  closed := fun _ => subset_rfl

/-! ## Statements of one block -/

theorem sees_entry {scope : Scope} {env : Env} {stmt : Expr} (accepts : acceptsEntry stmt = true)
    (lexical : lexicalExpr ctx scope env stmt = true) :
    env.sees scope.toBranchState (entryReads stmt) = true := by
  by_cases bound : ∃ ident ty default, stmt = .letVar ident ty (some default)
  · rcases bound with ⟨ident, ty, default, rfl⟩
    rw [acceptsEntry] at accepts
    rw [lexicalExpr, lexicalExpr_pure default accepts] at lexical
    exact lexical
  · have other : ∀ ident ty default, stmt ≠ .letVar ident ty (some default) :=
      fun ident ty default same => bound ⟨ident, ty, default, same⟩
    rw [acceptsEntry] at accepts
    · rw [lexicalExpr_pure stmt accepts] at lexical
      rw [entryReads]
      · exact lexical
      · exact other
    · exact other

/-- What a statement that shares its block reads and leaves. -/
theorem fastReads_compileFast {scope added : Scope} {env : Env} {stmt : Expr} {step : FastOp W}
    {known may : Set Nat} (accepts : acceptsEntry stmt = true)
    (isFast : compileFast rt ctx scope stmt = some (step, added))
    (lexical : lexicalExpr ctx scope env stmt = true) (covers : Covers known env)
    (refers : ∀ name ∈ entryReads stmt, ∀ slot, scope.get name = some slot →
      env.get name = some slot → slot ∈ may) :
    ∃ behind, known ⊆ behind ∧ FastReads may known behind step ∧
      Covers behind (envExpr ctx scope env stmt) := by
  have sees := sees_entry accepts lexical
  by_cases bound : ∃ ident ty default, stmt = .letVar ident ty (some default)
  · rcases bound with ⟨ident, ty, default, rfl⟩
    rw [acceptsEntry] at accepts
    rw [compileFast] at isFast
    rcases bind_some isFast with ⟨value, folds, result⟩
    cases result
    have reads : ValueReads known may value := valueReads_fold folds sees covers refers
    refine ⟨insert scope.len known, Set.subset_insert _ _, .store reads scope.len, ?_⟩
    rw [envExpr, envExpr_pure default accepts, frameExpr_pure default accepts]
    change Covers _ (env.bind ident scope.len)
    exact (covers.mono (Set.subset_insert _ _)).bind (Set.mem_insert _ _) ident
  · have other : ∀ ident ty default, stmt ≠ .letVar ident ty (some default) :=
      fun ident ty default same => bound ⟨ident, ty, default, same⟩
    rw [acceptsEntry] at accepts
    · rw [compileFast] at isFast
      · rcases bind_some isFast with ⟨value, folds, result⟩
        cases result
        rw [entryReads] at sees refers
        · refine ⟨known, subset_rfl, .temp (valueReads_fold folds sees covers refers), ?_⟩
          rw [envExpr_pure stmt accepts]
          exact covers
        · exact other
        · exact other
      · exact other
    · exact other

theorem refers_entry {id : Nat} {scope : Scope} {env : Env} {stmt : Expr} {name : String}
    {used bound : Option Nat} (accepts : acceptsEntry stmt = true) (member : name ∈ entryReads stmt)
    (uses : scope.get name = used) (encloses : env.get name = bound) :
    Refers rt ctx (.expr id scope stmt) env id name used bound := by
  by_cases isLet : ∃ ident ty default, stmt = .letVar ident ty (some default)
  · rcases isLet with ⟨ident, ty, default, rfl⟩
    rw [acceptsEntry] at accepts
    exact .letDefault (.fast accepts member uses encloses)
  · have other : ∀ ident ty default, stmt ≠ .letVar ident ty (some default) :=
      fun ident ty default same => isLet ⟨ident, ty, default, same⟩
    rw [acceptsEntry] at accepts
    · rw [entryReads] at member
      · exact .fast accepts member uses encloses
      · exact other
    · exact other

/-- A statement of pure code in a block of its own. -/
theorem scoped_entry {id : Nat} {scope : Scope} {env : Env} {stmt : Expr} {may : Nat → Set Nat}
    {known : Set Nat} {emitted : Emitted W} (accepts : acceptsEntry stmt = true)
    (compiled : compilePure rt ctx id scope stmt = some emitted)
    (lexical : lexicalExpr ctx scope env stmt = true) (covers : Covers known env)
    (allowed : Allowed rt ctx may (.expr id scope stmt) env) :
    ∃ behind, Extends may known id emitted behind ∧ Covers behind (envExpr ctx scope env stmt) := by
  rcases bind_some compiled with ⟨⟨step, added⟩, isFast, result⟩
  cases result
  rcases fastReads_compileFast accepts isFast lexical covers
    (fun name member slot uses encloses =>
      allowed id name slot (refers_entry accepts member uses encloses))
    with ⟨behind, more, reads, covered⟩
  refine ⟨behind, ⟨more, ?_⟩, covered⟩
  apply passage_fastCode [] reads (Nat.le_refl id) nofun
  intro number low high
  rw [Nat.le_antisymm high low]

theorem scoped_of_pure {stmt : Expr} (accepts : acceptsEntry stmt = isPure stmt)
    (unfolds : ∀ id scope, compileExpr rt ctx id scope stmt =
      if isPure stmt then compilePure rt ctx id scope stmt else none) : ScopedExpr rt ctx stmt := by
  intro id scope env may known emitted compiled lexical covers allowed
  rw [unfolds] at compiled
  split at compiled
  · rename_i isPureStmt
    rcases scoped_entry (accepts.trans isPureStmt) compiled lexical covers allowed with
      ⟨behind, passes, covered⟩
    exact ⟨behind, passes, fun _ _ => covered⟩
  · cases compiled

theorem scoped_letVar {ident : String} {ty : Ty} {default : Expr}
    (inner : ScopedExpr rt ctx default) : ScopedExpr rt ctx (.letVar ident ty (some default)) := by
  intro id scope env may known emitted compiled lexical covers allowed
  rw [compileExpr] at compiled
  split at compiled
  · rename_i isPureDefault
    have accepts : acceptsEntry (.letVar ident ty (some default)) = true := isPureDefault
    rcases scoped_entry accepts compiled lexical covers allowed with
      ⟨behind, passes, covered⟩
    exact ⟨behind, passes, fun _ _ => covered⟩
  · rcases bind_some compiled with ⟨value, isValue, result⟩
    rw [lexicalExpr] at lexical
    rcases inner id scope env may known value isValue lexical covers
      (fun number name slot refers => allowed number name slot (.letDefault refers)) with
      ⟨behind, ⟨more, passes⟩, covered⟩
    split at result
    · rename_i next continues
      cases result
      rcases ends_of_continued isValue continues with ⟨goesOn, frameScope⟩
      rw [nextId_of_outcome continues] at passes
      refine ⟨insert value.scope.len behind, ⟨more.trans (Set.subset_insert _ _),
        passes.append (passage_save value.scope.len)⟩, fun _ _ => ?_⟩
      rw [envExpr, goesOn, frameScope, if_neg Bool.false_ne_true]
      exact ((covered next continues).mono (Set.subset_insert _ _)).bind (Set.mem_insert _ _) ident
    · rename_i other
      cases result
      exact ⟨behind, ⟨more, passes⟩, fun next continues => absurd continues (other next)⟩

theorem scoped_letOpen {ident : String} {ty : Ty} : ScopedExpr rt ctx (.letVar ident ty none) := by
  intro id scope env may known emitted compiled lexical covers allowed
  rw [compileExpr] at compiled
  cases compiled
  refine ⟨insert scope.len known, ⟨Set.subset_insert _ _, passage_save scope.len⟩, fun _ _ => ?_⟩
  rw [envExpr]
  exact (covers.mono (Set.subset_insert _ _)).bind (Set.mem_insert _ _) ident

theorem scoped_string {text : String} {ty : Ty} : ScopedExpr rt ctx (.string text ty) := by
  intro id scope env may known emitted compiled lexical covers allowed
  rw [compileExpr] at compiled
  cases compiled
  refine ⟨known, ⟨subset_rfl, passage_passes passes_string goesTo_const⟩, fun _ _ => ?_⟩
  rw [envExpr] <;> first | exact covers | simp

theorem exists_of_mapM {α β : Type} {f : α → Option β} {list : List α} {results : List β}
    (succeeds : list.mapM f = some results) {result : β} (member : result ∈ results) :
    ∃ value ∈ list, f value = some result := by
  have isResult : some result ∈ results.map some := List.mem_map_of_mem member
  rw [← mapM_eq_some_iff.mp succeeds] at isResult
  exact List.mem_map.mp isResult

theorem scoped_tuple {elems : List Expr} : ScopedExpr rt ctx (.tuple elems) := by
  intro id scope env may known emitted compiled lexical covers allowed
  rw [compileExpr] at compiled
  rcases bind_some compiled with ⟨folded, folds, result⟩
  cases result
  rw [lexicalExpr] at lexical
  refine ⟨known, ⟨subset_rfl, passage_tuple ?_⟩, fun _ _ => ?_⟩
  · intro value member
    rcases exists_of_mapM folds member with ⟨elem, isElem, isValue⟩
    rw [tupleElem.eq_def] at isValue
    split at isValue
    · cases isValue
    · split at isValue
      · rcases Option.map_eq_some_iff.mp isValue with ⟨other, folds, same⟩
        cases same
        exact valueReads_fold folds (List.all_eq_true.mp lexical elem isElem) covers
          fun name inElem slot uses encloses =>
            allowed id name slot (.tuple isElem inElem uses encloses)
      · cases isValue
  · rw [envExpr] <;> first | exact covers | simp

/-! ## Calls -/

/-- Pure arguments are compiled in one scope. -/
theorem sees_args {args : List Expr} {env : Env} {base count : Nat} (pureArgs : allPure args = true) :
    ∀ {scope : Scope}, lexicalArgs ctx base count scope env args = true →
    ∀ arg ∈ args, env.sees scope.toBranchState (foldReads arg) = true := by
  induction args with
  | nil => exact fun _ _ member => absurd member List.not_mem_nil
  | cons arg args induction =>
      intro scope lexical other member
      rw [allPure, Bool.and_eq_true] at pureArgs
      rw [lexicalArgs, Bool.and_eq_true, lexicalExpr_pure arg pureArgs.1,
        envExpr_pure arg pureArgs.1, frameExpr_pure arg pureArgs.1] at lexical
      rcases List.mem_cons.mp member with rfl | later
      · exact lexical.1
      · exact induction pureArgs.2 lexical.2 other later

theorem valueReads_args {scope : Scope} {env : Env} {args : List Expr} {values : List Folded}
    {known may : Set Nat} (folds : args.mapM (fold ctx.toLiterals scope.toBranchState) = some values)
    (sees : ∀ arg ∈ args, env.sees scope.toBranchState (foldReads arg) = true)
    (covers : Covers known env)
    (refers : ∀ arg ∈ args, ∀ name ∈ foldReads arg, ∀ slot, scope.get name = some slot →
      env.get name = some slot → slot ∈ may) :
    ∀ value ∈ values, ValueReads known may value := by
  intro value member
  rcases exists_of_mapM folds member with ⟨arg, isArg, isValue⟩
  exact valueReads_fold isValue (sees arg isArg) covers (refers arg isArg)

/-- The call's own block. -/
theorem scoped_call {id : Nat} {scope : Scope} {callee : String} {ty : Ty} {args : List Expr}
    {emitted : Emitted W} {may : Nat → Set Nat} {known : Set Nat}
    (compiled : compileCall rt ctx id scope callee ty args = some emitted)
    (sends : isSendTo ctx scope callee ty = true → ∀ slot, scope.get callee = some slot →
      slot ∈ known ∧ slot ∈ may id) :
    (readAnalysis may).Passage id emitted.nextId emitted.code known known [] [] := by
  rw [compileCall] at compiled
  rw [isSendTo] at sends
  generalize (if ty.toString = "?" then (scope.lakeTypeOf callee).getD "?" else ty.toString) =
    calleeType at compiled sends
  dsimp only at compiled sends
  split at compiled
  · cases compiled
    exact passage_rtCall _ _ _ _
  · rename_i notDeclared
    split at compiled
    · rename_i slot found
      cases compiled
      split at found
      · rename_i isPid
        have isSend := sends (by simp [notDeclared, isPid, found]) slot found
        exact passage_send isSend.1 isSend.2
      · cases found
    · rcases bind_some compiled with ⟨select, -, result⟩
      split at result
      · cases result
        exact passage_changeState
      · cases result
        exact passage_passes passes_spawn goesTo_const

theorem scoped_jump {ident : Expr} {args : List Expr} (inner : ScopedArgs rt ctx args) :
    ScopedExpr rt ctx (.jump ident args) := by
  intro id scope env may known emitted compiled lexical covers allowed
  by_cases named : ∃ callee ty, ident = .var callee ty
  · rcases named with ⟨callee, ty, rfl⟩
    rw [compileExpr] at compiled
    split at compiled
    · rename_i isPureStmt
      have accepts : acceptsEntry (.jump (.var callee ty) args) = true := isPureStmt
      rcases scoped_entry accepts compiled lexical covers allowed with ⟨behind, passes, covered⟩
      exact ⟨behind, passes, fun _ _ => covered⟩
    · rename_i notPure
      rw [lexicalExpr, if_neg notPure, Bool.and_eq_true] at lexical
      rcases lexical with ⟨lexicalAll, call⟩
      have notPure := Bool.eq_false_of_not_eq_true notPure
      split at compiled
      · rename_i fused
        rcases bind_some compiled with ⟨folded, folds, later⟩
        rcases bind_some later with ⟨select, -, result⟩
        cases result
        have reads := valueReads_args folds (sees_args fused.2 lexicalAll) covers
          fun arg isArg name member slot uses encloses => allowed id name slot
            (.fusedArg notPure (by simp [isFused, fused]) isArg member uses encloses)
        exact ⟨known, ⟨subset_rfl, passage_fusedSelf reads⟩, fun _ => nofun⟩
      · rename_i notFused
        have noSelf : (callee = "self" && allPure args) = false := by simpa using notFused
        split at compiled
        · rename_i fusedRt
          rcases bind_some compiled with ⟨folded, folds, result⟩
          cases result
          have reads := valueReads_args folds (sees_args fusedRt.2.2 lexicalAll) covers
            fun arg isArg name member slot uses encloses => allowed id name slot
              (.fusedArg notPure (by simp [isFused, fusedRt]) isArg member uses encloses)
          refine ⟨known, ⟨subset_rfl, passage_fusedRt reads⟩, fun _ _ => ?_⟩
          rw [envExpr, if_neg notFused, envArgs_pure args fusedRt.2.2]
          exact covers
        · rename_i notFusedRt
          rcases bind_some compiled with ⟨staged, isStaged, result⟩
          rcases bind_some result with ⟨own, isCall, result⟩
          cases result
          have notFusedCall : isFused ctx callee args = false := by
            by_contra fused
            rw [Bool.not_eq_false, isFused, Bool.and_eq_true, Bool.or_eq_true, decide_eq_true_iff,
              Bool.and_eq_true] at fused
            rcases fused with ⟨pureArgs, isSelf | ⟨notPark, declared⟩⟩
            · exact notFused ⟨isSelf, pureArgs⟩
            · exact notFusedRt ⟨notPark, declared, pureArgs⟩
          rcases inner _ _ _ id scope env may known staged isStaged lexicalAll covers
            (fun number name slot refers => allowed number name slot (.stagedArg notPure notFusedCall refers)) with
            ⟨behind, ⟨more, passes⟩, covered⟩
          have frameScope : staged.scope =
              (frameArgs ctx scope.jumpArgsBase args.length scope args).scope :=
            (framed_args args _ _ _ _ _ _ isStaged).scope
          refine ⟨behind, ⟨more, passes.append (scoped_call isCall ?_)⟩, fun _ _ => ?_⟩
          · intro isSend slot found
            rw [← frameScope, noSelf, isSend, Bool.not_true, Bool.or_false, Bool.false_or] at call
            have same : staged.scope.get callee = _ :=
              eq_of_beq (List.all_eq_true.mp call callee List.mem_cons_self)
            have encloses := same ▸ found
            exact ⟨covered callee slot encloses, allowed _ callee slot
              (.pid notPure notFusedCall isStaged isSend found encloses)⟩
          · rw [envExpr, if_neg notFused]
            exact covered
  · rw [compileExpr] at compiled
    · split at compiled
      · rename_i isPureStmt
        cases ident with
        | var callee ty => exact absurd ⟨callee, ty, rfl⟩ named
        | _ => simp [isPure] at isPureStmt
      · cases compiled
    · exact fun callee ty same => named ⟨callee, ty, same⟩

/-! ## Statements with parts -/

theorem scoped_index {receiver index : Expr} (inner : ScopedExpr rt ctx receiver)
    (other : ScopedExpr rt ctx index) : ScopedExpr rt ctx (.index receiver index) := by
  intro id scope env may known emitted compiled lexical covers allowed
  cases isPureStmt : isPure (.index receiver index) with
  | true =>
      rw [compileExpr, if_pos isPureStmt] at compiled
      have accepts : acceptsEntry (.index receiver index) = true := isPureStmt
      rcases scoped_entry accepts compiled lexical covers allowed with ⟨behind, passes, covered⟩
      exact ⟨behind, passes, fun _ _ => covered⟩
  | false =>
      rw [lexicalExpr, isPureStmt, if_neg Bool.false_ne_true] at lexical
      dsimp only at lexical
      rw [Bool.and_eq_true] at lexical
      rcases compile_index isPureStmt compiled with
        ⟨buf, atBuf, offset, atOffset, isBuf, bufContinues, isOffset, offsetContinues, rfl⟩
      have bufScope := (ends_of_continued isBuf bufContinues).2
      rcases inner id _ env may known buf isBuf lexical.1 covers
        (fun number name slot refers => allowed number name slot (.indexReceiver isPureStmt refers)) with
        ⟨atReceiver, ⟨more, passes⟩, covered⟩
      rw [nextId_of_outcome bufContinues] at passes
      rw [bufScope] at lexical
      rcases other (atBuf + 1) _ _ may atReceiver offset isOffset lexical.2
        (covered atBuf bufContinues) (fun number name slot refers =>
          allowed number name slot (.indexOffset isPureStmt isBuf bufContinues refers)) with
        ⟨behind, ⟨alsoMore, alsoPasses⟩, alsoCovered⟩
      rw [nextId_of_outcome offsetContinues] at alsoPasses
      refine ⟨behind, ⟨more.trans alsoMore, ?_⟩, fun _ _ => ?_⟩
      · have stagedBuf := passes.append (passage_stage atBuf scope.jumpArgsBase)
        have stagedOffset := (stagedBuf.append alsoPasses).append
          (passage_stage atOffset (scope.jumpArgsBase + 1))
        exact stagedOffset.append (passage_rtCall (atOffset + 1) "rt_load_u8" scope.jumpArgsBase 2)
      · rw [envExpr]
        dsimp only
        rw [bufScope]
        exact alsoCovered atOffset offsetContinues

theorem scoped_when {cond : Expr} {branches : List (Expr × List Expr)}
    (inner : ScopedExpr rt ctx cond) (arms : ScopedArms rt ctx branches) :
    ScopedExpr rt ctx (.when cond branches) := by
  intro id scope env may known emitted compiled lexical covers allowed
  rw [lexicalExpr, Bool.and_eq_true] at lexical
  rcases compile_when compiled with ⟨disc, done, -, isDisc, continues, isEmitted⟩
  rcases inner id scope env may known disc isDisc lexical.1 covers
    (fun number name slot refers => allowed number name slot (.whenCond refers)) with
    ⟨behind, ⟨more, passes⟩, covered⟩
  have discScope := (ends_of_continued isDisc continues).2
  rw [nextId_of_outcome continues] at passes
  rcases isEmitted with ⟨values, table, rfl⟩ | ⟨-, emittedArms, select, isArms, selected, rfl⟩
  · refine ⟨behind, ⟨more, passes.append (passage_passes (passes_kTable _ _) goesTo_const)⟩,
      fun _ _ => ?_⟩
    rw [envExpr]
    exact covered done continues
  · rw [discScope] at lexical
    have bodies := arms (done + 1) _ _ may behind emittedArms isArms lexical.2
      (covered done continues) fun number name slot refers =>
        allowed number name slot (.whenArms isDisc continues refers)
    refine ⟨behind, ⟨more, ?_⟩, fun _ _ => ?_⟩
    · simp only [List.append_assoc]
      apply passes.append
      rw [← List.append_assoc]
      apply bodies.choice _ subset_rfl
      · exact fun exec slot => .inr ((passes_when _ _ _).unread exec slot)
      · intro exec next goes
        rcases leads_whenBlock ⟨exec, goes⟩ with isAfter | isStart
        · exact .inr (.inl isAfter)
        · exact .inr (.inr ⟨isStart, Set.subset_union_left⟩)
      · exact fun _ _ exec slot => .inr ((passes_redirect _).unread exec slot)
      · exact fun _ next goes => (Option.some.inj goes).symm
    · rw [envExpr]
      exact covered done continues

/-- The slots that a `wait` stores the words of a message to. -/
def wordSlots (scope : Scope) (handlers : List (List Pattern × List Expr)) : Set Nat :=
  { slot | scope.len ≤ slot ∧ slot < scope.len + (waitAt scope handlers).dequeueArgCount }

theorem binders_le_dequeueArgCount (scope : Scope) {handlers : List (List Pattern × List Expr)}
    {handler : List Pattern × List Expr} (member : handler ∈ handlers) :
    (Handler.binders ⟨handler.1, []⟩).length ≤ (waitAt scope handlers).dequeueArgCount := by
  rw [WaitExpr.dequeueArgCount, WaitExpr.handlers_eq, List.map_map]
  have isBinders : (Handler.binders ⟨handler.1, []⟩).length ∈
      (handlers.map fun handler => (⟨handler.1, []⟩ : Handler)).map fun handler => handler.binders.length := by
    rw [List.mem_map]
    exact ⟨⟨handler.1, []⟩, List.mem_map_of_mem member, rfl⟩
  exact List.le_max_of_le' 0 isBinders (Nat.le_refl _)

theorem scoped_wait {handlers : List (List Pattern × List Expr)} {filter : List Expr}
    (inner : ScopedHandlers rt ctx handlers) : ScopedExpr rt ctx (.wait handlers filter) := by
  intro id scope env may known emitted compiled lexical covers allowed
  rw [lexicalExpr, Bool.and_eq_true] at lexical
  rcases compile_wait compiled with
    ⟨bodies, folded, dispatch, -, isBodies, filters, dispatches, -, rfl⟩
  have base : (waitAt scope handlers).dequeueVarBase = scope.len := WaitExpr.dequeueVarBase_eq _
  have bodiesScope : bodies.scope =
      (frameHandlers ctx (registerHandlers scope (collected handlers)) handlers).scope :=
    (framed_handlers handlers _ _ _ isBodies).scope
  have passes := inner (id + 1) _ { env with base := scope.len } may
    (known ∪ wordSlots scope handlers) bodies isBodies lexical.1
    (covers.mono Set.subset_union_left)
    (fun handler member index below => .inr ⟨Nat.le_add_right _ _,
      Nat.add_lt_add_left (below.trans_le (binders_le_dequeueArgCount scope member)) _⟩)
    fun number name slot refers => allowed number name slot (.waitBodies refers)
  have reads : ∀ value ∈ folded, ValueReads known (may id) value := by
    intro value member
    rcases exists_of_mapM filters member with ⟨pid, isPid, isValue⟩
    have sees := List.all_eq_true.mp lexical.2 pid isPid
    rw [← bodiesScope] at sees
    exact valueReads_fold isValue sees covers fun name inPid slot uses encloses =>
      allowed id name slot (.waitFilter isBodies isPid inPid uses encloses)
  let block := waitBlock rt (waitAt scope handlers) dispatch folded bodies.starts id
  have gained : ∀ exec next, (block exec).2.resume = some next → next = id ∨
      next = bodies.nextId ∨ next ∈ bodies.starts ∧
        known ∪ wordSlots scope handlers ⊆ known ∪ { slot | Overwrites block exec slot } := by
    intro exec next goes
    rcases gains_wait goes with isHere | ⟨isStart, gains⟩
    · exact .inl isHere
    · refine .inr (.inr ⟨isStart, Set.union_subset Set.subset_union_left ?_⟩)
      intro slot ⟨low, high⟩
      rw [← base] at low high
      exact .inr (gains slot low high)
  have check := passes.choice (redirectBlock bodies.nextId) Set.subset_union_left
    (unread_wait reads) gained
    (fun _ _ exec slot => .inr ((passes_redirect _).unread exec slot))
    fun _ next goes => (Option.some.inj goes).symm
  rw [List.map_nil, List.append_nil] at check
  exact ⟨known, ⟨subset_rfl, check⟩, fun _ => nofun⟩

theorem scoped_args_cons {arg : Expr} {args : List Expr} (inner : ScopedExpr rt ctx arg)
    (rest : ScopedArgs rt ctx args) : ScopedArgs rt ctx (arg :: args) := by
  intro base count index id scope env may known emitted compiled lexical covers allowed
  rw [compileArgs] at compiled
  rw [lexicalArgs] at lexical
  dsimp only at lexical
  rw [Bool.and_eq_true] at lexical
  rcases bind_some compiled with ⟨value, isValue, result⟩
  split at result
  · rename_i next continues
    rcases bind_some result with ⟨later, isLater, result⟩
    cases result
    have valueScope := (ends_of_continued isValue continues).2
    rcases inner id _ env may known value isValue lexical.1 covers
      (fun number name slot refers => allowed number name slot (.argsHead refers)) with
      ⟨between, ⟨more, passes⟩, covered⟩
    rw [nextId_of_outcome continues] at passes
    rw [valueScope] at lexical
    rcases rest base count (index + 1) (next + 1) _ _ may between later isLater lexical.2
      (covered next continues)
      (fun number name slot refers => allowed number name slot (.argsTail isValue continues refers))
      with ⟨behind, ⟨alsoMore, alsoPasses⟩, alsoCovered⟩
    refine ⟨behind, ⟨more.trans alsoMore,
      (passes.append (passage_stage next (base + index))).append alsoPasses⟩, ?_⟩
    rw [envArgs]
    dsimp only
    rw [valueScope]
    exact alsoCovered
  · cases result

theorem scoped_seq_cons {stmt : Expr} {body : List Expr} (inner : ScopedExpr rt ctx stmt)
    (rest : ScopedSeq rt ctx body) : ScopedSeq rt ctx (stmt :: body) := by
  intro id scope env may known emitted compiled lexical covers allowed
  rw [compileSeq] at compiled
  rw [lexicalSeq, Bool.and_eq_true] at lexical
  rcases bind_some compiled with ⟨first, isFirst, result⟩
  rcases inner id scope env may known first isFirst lexical.1 covers
    (fun number name slot refers => allowed number name slot (.seqHead refers)) with
    ⟨between, ⟨more, passes⟩, covered⟩
  split at result
  · rename_i next continues
    rcases bind_some result with ⟨later, isLater, result⟩
    cases result
    rcases ends_of_continued isFirst continues with ⟨goesOn, firstScope⟩
    rw [nextId_of_outcome continues] at passes
    rw [goesOn, Bool.false_or, firstScope] at lexical
    have alsoPasses := rest next _ _ may between later isLater lexical.2 (covered next continues)
      fun number name slot refers => allowed number name slot (.seqTail isFirst continues refers)
    exact (passes.append alsoPasses).weaken subset_rfl more
  · rename_i other
    cases result
    exact passes.weaken subset_rfl more

theorem scoped_arms_cons {key : Expr} {body : List Expr} {branches : List (Expr × List Expr)}
    (inner : ScopedSeq rt ctx body) (rest : ScopedArms rt ctx branches) :
    ScopedArms rt ctx ((key, body) :: branches) := by
  intro id scope env may known emitted compiled lexical covers allowed
  rw [compileArms] at compiled
  rw [lexicalArms, Bool.and_eq_true] at lexical
  rcases bind_some compiled with ⟨arm, isArm, result⟩
  have armScope : arm.scope = (frameSeq ctx scope body).scope :=
    (framed_seq body _ _ _ isArm).scope
  rw [← armScope] at lexical
  have passes := inner id scope env may known arm isArm lexical.1 covers
    fun number name slot refers => allowed number name slot (.armsHead refers)
  split at result
  · rename_i next leaves
    rcases bind_some result with ⟨later, isLater, result⟩
    cases result
    have alsoPasses := rest _ _ env may known later isLater lexical.2 covers
      fun number name slot refers => allowed number name slot (.armsSelf isArm leaves refers)
    rw [nextId_of_outcome leaves] at passes
    apply passes.beside alsoPasses _ []
    · simp
    · change next ≤ if branches.isEmpty then next else next + 1
      split
      · exact Nat.le_refl next
      · exact Nat.le_succ next
  all_goals
    rename_i next goesOn
    rcases bind_some result with ⟨later, isLater, result⟩
    cases result
    have alsoPasses := rest _ _ env may known later isLater lexical.2 covers
      fun number name slot refers => allowed number name slot
        (.armsOn isArm (by simp [goesOn]) refers)
    rw [nextId_of_outcome goesOn] at passes
    apply passes.beside alsoPasses (Nat.le_succ _) [next]
    intro exit member
    rw [List.mem_singleton.mp member]
    exact ⟨rfl, Nat.lt_succ_self _⟩

theorem covers_handler {known : Set Nat} {env : Env} {patterns : List Pattern}
    (covers : Covers known env)
    (words : ∀ index < (Handler.binders ⟨patterns, []⟩).length, env.base + index ∈ known) :
    Covers known (env.bindHandler patterns) := by
  intro name slot found
  rw [Env.get, Env.bindHandler, List.lookup_append] at found
  cases bound : (((Handler.binders ⟨patterns, []⟩).zipIdx env.base).reverse).lookup name with
  | none =>
      rw [bound] at found
      exact covers name slot found
  | some own =>
      rw [bound] at found
      cases found
      rcases List.lookup_eq_some_iff.mp bound with ⟨front, back, isList, -⟩
      have member : (name, slot) ∈ ((Handler.binders ⟨patterns, []⟩).zipIdx env.base).reverse := by
        rw [isList]
        exact List.mem_append_right _ List.mem_cons_self
      have range := List.mem_zipIdx (List.mem_reverse.mp member)
      have isWord := words (slot - env.base) (by omega)
      rwa [Nat.add_sub_cancel' range.1] at isWord

theorem scoped_handlers_cons {patterns : List Pattern} {body : List Expr}
    {handlers : List (List Pattern × List Expr)} (inner : ScopedBody rt ctx body)
    (rest : ScopedHandlers rt ctx handlers) :
    ScopedHandlers rt ctx ((patterns, body) :: handlers) := by
  intro id scope env may known emitted compiled lexical covers words allowed
  rw [compileHandlers] at compiled
  rw [lexicalHandlers, Bool.and_eq_true] at lexical
  rcases bind_some compiled with ⟨first, isFirst, result⟩
  rcases bind_some result with ⟨later, isLater, result⟩
  cases result
  have firstScope : first.scope = (frameSeq ctx scope body).scope :=
    (framed_body body _ _ _ _ _ isFirst).scope
  rw [← firstScope] at lexical
  have passes := inner [] some id scope _ may known known first isFirst lexical.1
    (covers_handler covers (words (patterns, body) List.mem_cons_self)) (.fresh may known id body)
    fun number name slot refers => allowed number name slot (.handlersHead refers)
  have alsoPasses := rest first.nextId _ env may known later isLater lexical.2 covers
    (fun handler member => words handler (List.mem_cons_of_mem _ member))
    fun number name slot refers => allowed number name slot (.handlersTail isFirst refers)
  apply passes.beside alsoPasses (Nat.le_refl _) []
  nofun

/-! ## Bodies -/

theorem fastEnd_cons {id : Nat} {stmt : Expr} {body : List Expr} (accepts : acceptsEntry stmt = true) :
    fastEnd id (stmt :: body) = fastEnd (id + 1) body := by
  rw [fastEnd, fastEnd, List.takeWhile_cons, if_pos accepts, List.length_cons]
  omega

theorem lt_fastEnd {id : Nat} {stmt : Expr} {body : List Expr} (accepts : acceptsEntry stmt = true) :
    id < fastEnd id (stmt :: body) := by
  rw [fastEnd_cons accepts, fastEnd]
  omega

theorem head_concat (run : List Nat) (id next : Nat) :
    (run ++ [id]).head?.getD next = run.head?.getD id := by
  cases run with
  | nil => rfl
  | cons first run => rfl

/-- A run with one more statement. -/
theorem OpenRun.concat {may : Nat → Set Nat} {known between behind : Set Nat} {run : List Nat}
    {op step : FastOp W} {id : Nat} {stmt : Expr} {body : List Expr}
    (isOpen : OpenRun may known between run op id (stmt :: body)) (accepts : acceptsEntry stmt = true)
    (more : between ⊆ behind)
    (reads : FastReads { slot | ∀ number, run.head?.getD id ≤ number →
      number < fastEnd id (stmt :: body) → slot ∈ may number } between behind step)
    (goesOn : body.head?.elim false acceptsEntry = true) :
    OpenRun may known behind (run ++ [id]) (fun exec => (op exec).bind step) (id + 1) body where
  low := by
    rw [head_concat]
    exact Nat.le_succ_of_le isOpen.low
  range := by
    intro number member
    rw [head_concat]
    rcases List.mem_append.mp member with isEarlier | isLast
    · exact ⟨(isOpen.range number isEarlier).1, Nat.lt_succ_of_lt (isOpen.range number isEarlier).2⟩
    · rw [List.mem_singleton.mp isLast]
      exact ⟨isOpen.low, Nat.lt_succ_self id⟩
  more := isOpen.more.trans more
  reads := by
    rw [head_concat, ← fastEnd_cons accepts]
    exact isOpen.reads.bind reads
  goesOn := fun _ => goesOn
  closed := fun empty => absurd empty (by simp)

theorem scoped_body_cons {stmt : Expr} {body : List Expr} (inner : ScopedExpr rt ctx stmt)
    (rest : ScopedBody rt ctx body) : ScopedBody rt ctx (stmt :: body) := by
  intro run op id scope env may known between emitted compiled lexical covers isOpen allowed
  rw [compileBody] at compiled
  rw [lexicalSeq, Bool.and_eq_true] at lexical
  split at compiled
  · rename_i accepts
    rcases bind_some compiled with ⟨⟨step, added⟩, isFast, result⟩
    dsimp only at result
    rw [frameExpr_fast accepts isFast] at lexical
    rcases fastReads_compileFast accepts isFast lexical.1 covers
      (fun name member slot uses encloses number low high =>
        allowed number name slot (.bodyFast accepts member uses encloses low high)) with
      ⟨behind, more, reads, covered⟩
    split at result
    · rename_i nextFast
      have passes := rest _ _ (id + 1) added _ may known behind emitted result lexical.2 covered
        (isOpen.concat accepts more reads nextFast)
        fun number name slot refers =>
          allowed number name slot (.bodyJoin accepts isFast nextFast refers)
      rw [head_concat] at passes
      exact passes
    · rename_i lastFast
      rcases bind_some result with ⟨later, isLater, result⟩
      cases result
      have alsoPasses := rest [] some (id + 1) added _ may behind behind later isLater lexical.2
        covered (.fresh may behind (id + 1) body)
        fun number name slot refers => allowed number name slot
          (.bodyFlush accepts isFast (Bool.eq_false_of_not_eq_true lastFast) refers)
      have passes := passage_fastCode run (isOpen.reads.bind reads) isOpen.low isOpen.range
        fun number low high slot mayRead =>
          mayRead number low (Nat.lt_of_le_of_lt high (lt_fastEnd accepts))
      exact (passes.append alsoPasses).weaken subset_rfl (isOpen.more.trans more)
  · rename_i notFast
    have fresh : run = [] := by
      by_contra nonempty
      exact notFast (isOpen.goesOn nonempty)
    subst fresh
    have notFast := Bool.eq_false_of_not_eq_true notFast
    have covers := covers.mono (isOpen.closed rfl)
    rcases bind_some compiled with ⟨first, isFirst, result⟩
    rcases inner id scope env may known first isFirst lexical.1 covers
      (fun number name slot refers => allowed number name slot
        (.bodyHead notFast refers)) with
      ⟨behind, ⟨more, passes⟩, covered⟩
    split at result
    · rename_i next continues
      rcases bind_some result with ⟨later, isLater, result⟩
      cases result
      rcases ends_of_continued isFirst continues with ⟨goesOn, firstScope⟩
      rw [nextId_of_outcome continues] at passes
      rw [goesOn, Bool.false_or, firstScope] at lexical
      have alsoPasses := rest [] some next _ _ may behind behind later isLater lexical.2
        (covered next continues) (.fresh may behind next body)
        fun number name slot refers => allowed number name slot (.bodyTail notFast isFirst continues refers)
      exact (passes.append alsoPasses).weaken subset_rfl more
    all_goals
      rename_i next leaves
      cases result
      rw [nextId_of_outcome leaves] at passes
      exact passes.weaken subset_rfl more

mutual
theorem scoped_expr : (stmt : Expr) → ScopedExpr rt ctx stmt
  | .letVar ident ty (some default) => scoped_letVar (scoped_expr default)
  | .letVar ident ty none => scoped_letOpen
  | .string text ty => scoped_string
  | .jump ident args => scoped_jump (scoped_args args)
  | .when cond branches => scoped_when (scoped_expr cond) (scoped_arms branches)
  | .wait handlers filter => scoped_wait (scoped_handlers handlers)
  | .tuple elems => scoped_tuple
  | .index receiver index => scoped_index (scoped_expr receiver) (scoped_expr index)
  | .num text ty => scoped_of_pure rfl fun _ _ => by rw [compileExpr] <;> simp
  | .bool value => scoped_of_pure rfl fun _ _ => by rw [compileExpr] <;> simp
  | .unit => scoped_of_pure rfl fun _ _ => by rw [compileExpr] <;> simp
  | .atom name => scoped_of_pure rfl fun _ _ => by rw [compileExpr] <;> simp
  | .var name ty => scoped_of_pure rfl fun _ _ => by rw [compileExpr] <;> simp
  | .tupleIndex receiver index => scoped_of_pure rfl fun _ _ => by rw [compileExpr] <;> simp
  | .neg inner => scoped_of_pure rfl fun _ _ => by rw [compileExpr] <;> simp
  | .binary op left right => scoped_of_pure rfl fun _ _ => by rw [compileExpr] <;> simp
  | .other parts => scoped_of_pure rfl fun _ _ => by rw [compileExpr] <;> simp

theorem scoped_args : (args : List Expr) → ScopedArgs rt ctx args
  | [] => by
      intro base count index id scope env may known emitted compiled lexical covers allowed
      rw [compileArgs] at compiled
      cases compiled
      exact ⟨known, ⟨subset_rfl, .nil known id⟩, by rw [envArgs]; exact covers⟩
  | arg :: args => scoped_args_cons (scoped_expr arg) (scoped_args args)

theorem scoped_seq : (body : List Expr) → ScopedSeq rt ctx body
  | [] => by
      intro id scope env may known emitted compiled lexical covers allowed
      rw [compileSeq] at compiled
      cases compiled
      exact .nil known id
  | stmt :: body => scoped_seq_cons (scoped_expr stmt) (scoped_seq body)

theorem scoped_arms : (branches : List (Expr × List Expr)) → ScopedArms rt ctx branches
  | [] => by
      intro id scope env may known emitted compiled lexical covers allowed
      rw [compileArms] at compiled
      cases compiled
      exact .nil known id
  | (_, body) :: branches => scoped_arms_cons (scoped_seq body) (scoped_arms branches)

theorem scoped_handlers : (handlers : List (List Pattern × List Expr)) → ScopedHandlers rt ctx handlers
  | [] => by
      intro id scope env may known emitted compiled lexical covers words allowed
      rw [compileHandlers] at compiled
      cases compiled
      exact .nil known id
  | (_, body) :: handlers => scoped_handlers_cons (scoped_body body) (scoped_handlers handlers)

theorem scoped_body : (body : List Expr) → ScopedBody rt ctx body
  | [] => by
      intro run op id scope env may known between emitted compiled lexical covers isOpen allowed
      rw [compileBody] at compiled
      cases compiled
      have fresh : run = [] := by
        by_contra nonempty
        exact absurd (isOpen.goesOn nonempty) (by simp)
      rw [fresh]
      exact .nil known id
  | stmt :: body => scoped_body_cons (scoped_expr stmt) (scoped_body body)
end

end LakeNative.Memory

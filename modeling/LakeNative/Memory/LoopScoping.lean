import LakeNative.Memory.FrameSizing
import LakeNative.Memory.NamedScopes
import LakeNative.Memory.NameReferences

/-! # References in an unrolled loop

The iterations of a loop share a block. Their references are to parameters and to the `let`s of
the same iteration, and what the block reads of the variables array are parameters that are
referred to.
-/

namespace LakeNative.Memory

open LakeNative.Runtime LakeNative.Compiler LakeNative.KnownFacts

variable {W : Type} {rt : RtFuncs W} {ctx : CompilerCtx}

/-! ## References -/

/-- What a statement before the `self(...)` reads. -/
def preReads : PreStmt → List String
  | .letVar _ default => foldReads default
  | .sideEffect _ args => args.flatMap foldReads

def bindLet (state : BranchState) (env : Env) : PreStmt → BranchState × Env
  | .letVar name _ => (state.insert name, env.bind name state.len)
  | .sideEffect _ _ => (state, env)

def bindLets (state : BranchState) (env : Env) : List PreStmt → BranchState × Env
  | [] => (state, env)
  | stmt :: stmts => bindLets (bindLet state env stmt).1 (bindLet state env stmt).2 stmts

/-- A reference in the statements before the `self(...)`. -/
inductive PreRefers : BranchState → Env → List PreStmt → String → Option Nat → Option Nat → Prop where
  | here {state env stmt stmts name used bound} (member : name ∈ preReads stmt)
      (uses : state.get name = used) (encloses : env.get name = bound) :
      PreRefers state env (stmt :: stmts) name used bound
  | later {state env stmt stmts name used bound}
      (refers : PreRefers (bindLet state env stmt).1 (bindLet state env stmt).2 stmts name used bound) :
      PreRefers state env (stmt :: stmts) name used bound

/-- A reference in one of the iterations that are left. -/
inductive LoopRefers (info : TailLoopInfo) (env : Env) :
    Nat → BranchState → String → Option Nat → Option Nat → Prop where
  | cond {count state name used bound} (member : name ∈ foldReads info.cond)
      (uses : state.get name = used) (encloses : env.get name = bound) :
      LoopRefers info env (count + 1) state name used bound
  | pre {count state name used bound} (refers : PreRefers state env info.preStmts name used bound) :
      LoopRefers info env (count + 1) state name used bound
  | arg {count state arg name used bound} (isArg : arg ∈ info.selfArgs)
      (member : name ∈ foldReads arg)
      (uses : (bindLets state env info.preStmts).1.get name = used)
      (encloses : (bindLets state env info.preStmts).2.get name = bound) :
      LoopRefers info env (count + 1) state name used bound
  | later {count state name used bound}
      (refers : LoopRefers info env count (state.without (info.preStmts.filterMap PreStmt.local))
        name used bound) :
      LoopRefers info env (count + 1) state name used bound

/-! ## Folded names have slots -/

theorem isSome_of_fold {literals : Literals} {selfPid : Bool} {state : BranchState} :
    (expr : Expr) → ∀ {value}, foldWithSelf literals selfPid state expr = some value →
      ∀ name ∈ foldReads expr, (state.get name).isSome = true
  | .num text ty, _, _, name, member => absurd member List.not_mem_nil
  | .bool truth, _, _, name, member => absurd member List.not_mem_nil
  | .atom atom, _, _, name, member => absurd member List.not_mem_nil
  | .var source ty, value, folds, name, member => by
      rw [foldReads] at member
      split at member
      · cases member
      · rename_i notSelf
        rw [foldWithSelf] at folds
        · rcases Option.map_eq_some_iff.mp folds with ⟨slot, found, -⟩
          rw [List.mem_singleton.mp member, found]
          rfl
        · exact notSelf
  | .tupleIndex receiver index, value, folds, name, member => by
      rw [foldWithSelf] at folds
      rcases Option.bind_eq_some_iff.mp folds with ⟨pointer, isPointer, -⟩
      exact isSome_of_fold receiver isPointer name member
  | .index receiver index, value, folds, name, member => by
      rw [foldWithSelf] at folds
      rcases Option.bind_eq_some_iff.mp folds with ⟨pointer, isPointer, later⟩
      rcases Option.bind_eq_some_iff.mp later with ⟨offset, isOffset, -⟩
      rcases List.mem_append.mp member with inReceiver | inIndex
      · exact isSome_of_fold receiver isPointer name inReceiver
      · exact isSome_of_fold index isOffset name inIndex
  | .binary op left right, value, folds, name, member => by
      rw [foldWithSelf] at folds
      rcases Option.bind_eq_some_iff.mp folds with ⟨first, isFirst, later⟩
      rcases Option.bind_eq_some_iff.mp later with ⟨second, isSecond, -⟩
      rcases List.mem_append.mp member with inLeft | inRight
      · exact isSome_of_fold left isFirst name inLeft
      · exact isSome_of_fold right isSecond name inRight
  | .neg inner, value, folds, name, member => by
      rw [foldWithSelf] at folds
      rcases Option.bind_eq_some_iff.mp folds with ⟨operand, isOperand, -⟩
      exact isSome_of_fold inner isOperand name member
  | .jump (.var callee ty) (receiver :: index :: rest), value, folds, name, member => by
      rw [foldWithSelf] at folds
      rcases Option.bind_eq_some_iff.mp folds with ⟨bits, -, folds⟩
      rcases Option.bind_eq_some_iff.mp folds with ⟨pointer, isPointer, later⟩
      rcases Option.bind_eq_some_iff.mp later with ⟨offset, isOffset, -⟩
      rcases List.mem_append.mp member with inReceiver | inIndex
      · exact isSome_of_fold receiver isPointer name inReceiver
      · exact isSome_of_fold index isOffset name inIndex
  | .string .., _, folds, _, _ | .unit, _, folds, _, _ | .tuple .., _, folds, _, _
  | .letVar .., _, folds, _, _ | .when .., _, folds, _, _ | .wait .., _, folds, _, _
  | .other .., _, folds, _, _ | .jump (.var ..) [], _, folds, _, _
  | .jump (.var ..) [_], _, folds, _, _ | .jump (.num ..) _, _, folds, _, _
  | .jump (.bool ..) _, _, folds, _, _ | .jump (.string ..) _, _, folds, _, _
  | .jump .unit _, _, folds, _, _ | .jump (.atom ..) _, _, folds, _, _
  | .jump (.tuple ..) _, _, folds, _, _ | .jump (.tupleIndex ..) _, _, folds, _, _
  | .jump (.index ..) _, _, folds, _, _ | .jump (.binary ..) _, _, folds, _, _
  | .jump (.neg ..) _, _, folds, _, _ | .jump (.jump ..) _, _, folds, _, _
  | .jump (.letVar ..) _, _, folds, _, _ | .jump (.when ..) _, _, folds, _, _
  | .jump (.wait ..) _, _, folds, _, _ | .jump (.other ..) _, _, folds, _, _ => by
      simp [foldWithSelf] at folds

theorem isSome_of_folds {state : BranchState} {args : List Expr} {values : List Folded}
    (folds : args.mapM (fold ctx.toLiterals state) = some values) {arg : Expr} (isArg : arg ∈ args)
    {name : String} (member : name ∈ foldReads arg) : (state.get name).isSome = true := by
  have isValue : fold ctx.toLiterals state arg ∈ values.map some := by
    rw [← mapM_eq_some_iff.mp folds]
    exact List.mem_map_of_mem isArg
  rcases List.mem_map.mp isValue with ⟨value, -, same⟩
  exact isSome_of_fold arg same.symm name member

/-! ## The innermost binding -/

/-- The slots of a table are those of the bindings that enclose the place. -/
def Enclosed (state : BranchState) (env : Env) : Prop :=
  ∀ name slot, state.get name = some slot → env.get name = some slot

theorem get_without_self {state : BranchState} {names : List String} {name : String}
    (dropped : name ∈ names) : (state.without names).get name = none := by
  rw [BranchState.get, List.lookup_eq_none_iff]
  intro entry member
  have kept := of_decide_eq_true (List.mem_filter.mp member).2
  rw [bne_iff_ne]
  rintro rfl
  exact kept dropped

namespace Enclosed

variable {state : BranchState} {env : Env}

theorem without (enclosed : Enclosed state env) (names : List String) :
    Enclosed (state.without names) env := by
  intro name slot found
  by_cases dropped : name ∈ names
  · rw [get_without_self dropped] at found
    cases found
  · rw [get_without dropped] at found
    exact enclosed name slot found

theorem bindLet (enclosed : Enclosed state env) (stmt : PreStmt) :
    Enclosed (bindLet state env stmt).1 (bindLet state env stmt).2 := by
  cases stmt with
  | letVar ident default =>
      intro name slot found
      change ((ident, state.len) :: state.vars).lookup name = some slot at found
      change ((ident, state.len) :: env.vars).lookup name = some slot
      rw [List.lookup_cons] at found ⊢
      cases isName : name == ident with
      | true =>
          rw [isName] at found
          exact found
      | false =>
          rw [isName] at found
          exact enclosed name slot found
  | sideEffect callee args => exact enclosed

theorem bindLets (enclosed : Enclosed state env) (stmts : List PreStmt) :
    Enclosed (bindLets state env stmts).1 (bindLets state env stmts).2 := by
  induction stmts generalizing state env with
  | nil => exact enclosed
  | cons stmt stmts induction => exact induction (enclosed.bindLet stmt)

/-- A reference to a name that has a slot. -/
theorem agree (enclosed : Enclosed state env) {name : String} {used bound : Option Nat}
    (isSome : (state.get name).isSome = true) (uses : state.get name = used)
    (encloses : env.get name = bound) : used = bound := by
  rcases Option.isSome_iff_exists.mp isSome with ⟨slot, found⟩
  rw [← uses, ← encloses, found, enclosed name slot found]

end Enclosed

theorem preStmt_cases {state next : BranchState} {stmt : PreStmt} {op : FastOp W}
    (compiled : compilePreStmt rt ctx state stmt = some (op, next)) (env : Env) :
    next = (bindLet state env stmt).1 ∧ ∀ name ∈ preReads stmt, (state.get name).isSome = true := by
  cases stmt with
  | letVar ident default =>
      rcases bind_some compiled with ⟨value, folds, result⟩
      cases result
      exact ⟨rfl, isSome_of_fold default folds⟩
  | sideEffect callee args =>
      rcases bind_some compiled with ⟨values, folds, result⟩
      cases result
      refine ⟨rfl, fun name member => ?_⟩
      rcases List.mem_flatMap.mp member with ⟨arg, isArg, inArg⟩
      exact isSome_of_folds folds isArg inArg

theorem preStmts_state (env : Env) : ∀ {stmts : List PreStmt} {state inner : BranchState}
    {ops : List (FastOp W)}, compilePreStmts rt ctx state stmts = some (ops, inner) →
      inner = (bindLets state env stmts).1
  | [], state, inner, ops, compiled => by
      cases compiled
      rfl
  | stmt :: stmts, state, inner, ops, compiled => by
      rcases bind_some compiled with ⟨⟨op, next⟩, isFirst, later⟩
      rcases bind_some later with ⟨⟨others, last⟩, isRest, result⟩
      cases result
      have isNext := (preStmt_cases isFirst env).1
      have isLast := preStmts_state (bindLet state env stmt).2 isRest
      rw [isNext] at isLast
      exact isLast

theorem pre_agree {state : BranchState} {env : Env} {stmts : List PreStmt} {name : String}
    {used bound : Option Nat} (refers : PreRefers state env stmts name used bound) :
    ∀ {ops : List (FastOp W)} {inner : BranchState},
      compilePreStmts rt ctx state stmts = some (ops, inner) → Enclosed state env → used = bound := by
  induction refers with
  | here member uses encloses =>
      intro ops inner compiled enclosed
      rcases bind_some compiled with ⟨⟨op, next⟩, isFirst, -⟩
      exact enclosed.agree ((preStmt_cases isFirst ⟨[], 0⟩).2 _ member) uses encloses
  | @later state env stmt stmts name used bound refers induction =>
      intro ops inner compiled enclosed
      rcases bind_some compiled with ⟨⟨op, next⟩, isFirst, later⟩
      rcases bind_some later with ⟨⟨others, last⟩, isRest, -⟩
      rw [(preStmt_cases isFirst env).1] at isRest
      exact induction isRest (enclosed.bindLet stmt)

/-- The parts of an iteration that is compiled. -/
theorem iteration_cases {info : TailLoopInfo} {state next : BranchState} {iteration : Iteration W}
    (compiled : compileIteration rt ctx info state = some (iteration, next)) :
    next = state.without (info.preStmts.filterMap PreStmt.local) ∧
      fold ctx.toLiterals state info.cond = some iteration.cond ∧
      ∃ inner, compilePreStmts rt ctx state info.preStmts = some (iteration.pre, inner) ∧
        info.selfArgs.mapM (fold ctx.toLiterals inner) = some iteration.args := by
  rcases bind_some compiled with ⟨cond, isCond, later⟩
  rcases bind_some later with ⟨⟨pre, inner⟩, isPre, later⟩
  rcases bind_some later with ⟨args, isArgs, result⟩
  cases result
  exact ⟨(foldl_remove _ _).trans (without_compilePreStmts (fun _ member => member) isPre),
    isCond, inner, isPre, isArgs⟩

/-- In a loop that is compiled all references are to the innermost bindings. -/
theorem loop_agree {info : TailLoopInfo} {env : Env} {count : Nat} {state : BranchState}
    {name : String} {used bound : Option Nat}
    (refers : LoopRefers info env count state name used bound) :
    ∀ {iterations : List (Iteration W)} {final : BranchState},
      compileIterations rt ctx info state count = some (iterations, final) →
      Enclosed state env → used = bound := by
  induction refers with
  | cond member uses encloses =>
      intro iterations final compiled enclosed
      rcases bind_some compiled with ⟨⟨iteration, next⟩, isFirst, -⟩
      rcases iteration_cases isFirst with ⟨-, isCond, -⟩
      exact enclosed.agree (isSome_of_fold _ isCond _ member) uses encloses
  | pre refers =>
      intro iterations final compiled enclosed
      rcases bind_some compiled with ⟨⟨iteration, next⟩, isFirst, -⟩
      rcases iteration_cases isFirst with ⟨-, -, inner, isPre, -⟩
      exact pre_agree refers isPre enclosed
  | arg isArg member uses encloses =>
      intro iterations final compiled enclosed
      rcases bind_some compiled with ⟨⟨iteration, next⟩, isFirst, -⟩
      rcases iteration_cases isFirst with ⟨-, -, inner, isPre, isArgs⟩
      rw [preStmts_state env isPre] at isArgs
      exact (enclosed.bindLets info.preStmts).agree (isSome_of_folds isArgs isArg member) uses encloses
  | later refers induction =>
      intro iterations final compiled enclosed
      rcases bind_some compiled with ⟨⟨iteration, next⟩, isFirst, later⟩
      rcases bind_some later with ⟨⟨others, last⟩, isRest, -⟩
      rw [(iteration_cases isFirst).1] at isRest
      exact induction isRest (enclosed.without _)

/-! ## What the loop's block reads -/

section Reads

variable (slot params : Nat)

/-- Two contexts that differ at most in the slot, which then is a parameter's or has no name. -/
def AlikeBut (state : BranchState) (exec other : ExecCtx W) : Prop :=
  other = exec ∨ ∃ word, other = exec.setVar slot word ∧
    (slot < params ∨ ∀ name, state.get name ≠ some slot)

end Reads

variable {slot params : Nat} {state : BranchState} {exec other : ExecCtx W}

/-- What is folded in both is the same if no reference is to the slot as a parameter's. -/
theorem AlikeBut.value (alike : AlikeBut slot params state exec other) {expr : Expr} {value : Folded}
    (folds : fold ctx.toLiterals state expr = some value)
    (quiet : slot < params → ∀ name ∈ foldReads expr, state.get name ≠ some slot) :
    value (other.view rt) = value (exec.view rt) := by
  rcases alike with rfl | ⟨word, rfl, apart⟩
  · rfl
  · change value (setView (exec.view rt) slot word) = _
    apply fold_unread expr folds
    intro name member
    rcases apart with isParam | unnamed
    · exact quiet isParam name member
    · exact unnamed name

theorem AlikeBut.values (alike : AlikeBut slot params state exec other) {args : List Expr}
    {values : List Folded} (folds : args.mapM (fold ctx.toLiterals state) = some values)
    (quiet : slot < params → ∀ arg ∈ args, ∀ name ∈ foldReads arg, state.get name ≠ some slot) :
    evalAll values (other.view rt) = evalAll values (exec.view rt) := by
  rcases alike with rfl | ⟨word, rfl, apart⟩
  · rfl
  · change evalAll values (setView (exec.view rt) slot word) = _
    apply evalAll_unread
    intro value member
    rcases exists_of_mapM folds member with ⟨arg, isArg, isValue⟩
    apply fold_unread arg isValue
    intro name inArg
    rcases apart with isParam | unnamed
    · exact quiet isParam arg isArg name inArg
    · exact unnamed name

theorem get_insert_of_ne {name ident : String} (different : name ≠ ident) :
    (state.insert ident).get name = state.get name := by
  rw [BranchState.get, BranchState.insert, List.lookup_cons, beq_false_of_ne different]
  rfl

/-- The same word is stored for a `let`. -/
theorem AlikeBut.store (alike : AlikeBut slot params state exec other) (ident : String) (word : Word) :
    AlikeBut slot params (state.insert ident) (exec.setVar state.len word)
      (other.setVar state.len word) := by
  rcases alike with rfl | ⟨content, rfl, apart⟩
  · exact .inl rfl
  · rcases eq_or_ne slot state.len with rfl | different
    · rw [setVar_setVar]
      exact .inl rfl
    · refine .inr ⟨content, setVar_comm exec different content word, ?_⟩
      apply apart.imp_right
      intro unnamed name
      rcases eq_or_ne name ident with rfl | isOther
      · rw [BranchState.get_insert]
        exact fun same => different (Option.some.inj same).symm
      · rw [get_insert_of_ne isOther]
        exact unnamed name

theorem alike_pre {stmt : PreStmt} {op : FastOp W} {next : BranchState}
    (compiled : compilePreStmt rt ctx state stmt = some (op, next))
    (alike : AlikeBut slot params state exec other)
    (quiet : slot < params → ∀ name ∈ preReads stmt, state.get name ≠ some slot) :
    Option.Rel (AlikeBut slot params next) (op exec) (op other) := by
  cases stmt with
  | letVar ident default =>
      rcases bind_some compiled with ⟨value, folds, result⟩
      cases result
      dsimp only
      rw [alike.value folds quiet]
      cases value (exec.view rt) with
      | none => exact .none
      | some word => exact .some (alike.store ident word)
  | sideEffect callee args =>
      rcases bind_some compiled with ⟨values, folds, result⟩
      cases result
      dsimp only
      rw [alike.values folds fun isParam arg isArg name member =>
        quiet isParam name (List.mem_flatMap.mpr ⟨arg, isArg, member⟩)]
      cases evalAll values (exec.view rt) with
      | none => exact .none
      | some words =>
          apply Option.Rel.some
          rcases alike with rfl | ⟨word, rfl, apart⟩
          · exact .inl rfl
          · exact .inr ⟨word, rfl, apart⟩

theorem alike_pres : ∀ {stmts : List PreStmt} {state inner : BranchState} {env : Env}
    {ops : List (FastOp W)} {exec other : ExecCtx W},
    compilePreStmts rt ctx state stmts = some (ops, inner) →
    AlikeBut slot params state exec other →
    (slot < params → ∀ name bound, ¬ PreRefers state env stmts name (some slot) bound) →
    Option.Rel (AlikeBut slot params inner) (ops.foldlM (fun exec op => op exec) exec)
      (ops.foldlM (fun exec op => op exec) other)
  | [], state, inner, env, ops, exec, other, compiled, alike, _ => by
      cases compiled
      exact .some alike
  | stmt :: stmts, state, inner, env, ops, exec, other, compiled, alike, quiet => by
      rcases bind_some compiled with ⟨⟨op, next⟩, isFirst, later⟩
      rcases bind_some later with ⟨⟨others, last⟩, isRest, result⟩
      cases result
      have first := alike_pre isFirst alike fun isParam name member same =>
        quiet isParam name _ (.here member same rfl)
      have isNext := (preStmt_cases isFirst env).1
      rw [List.foldlM_cons, List.foldlM_cons]
      generalize op exec = result at first ⊢
      generalize op other = alsoResult at first ⊢
      cases first with
      | none => exact .none
      | some alike =>
          rw [isNext] at isRest alike
          exact alike_pres isRest alike fun isParam name bound refers =>
            quiet isParam name bound (.later refers)

theorem setVars_of_lt (exec : ExecCtx W) (word : Word) {values : List Word}
    (inside : slot < values.length) : (exec.setVar slot word).setVars values = exec.setVars values := by
  simp only [ExecCtx.setVars, ExecCtx.setVar]
  congr 2
  funext index
  rcases eq_or_ne index slot with rfl | different
  · rw [List.getElem?_eq_getElem inside]
    rfl
  · rw [Function.update_of_ne different]

theorem setVars_of_le (exec : ExecCtx W) (word : Word) {values : List Word}
    (outside : values.length ≤ slot) :
    (exec.setVar slot word).setVars values = (exec.setVars values).setVar slot word := by
  simp only [ExecCtx.setVars, ExecCtx.setVar]
  congr 2
  funext index
  rcases eq_or_ne index slot with rfl | different
  · rw [List.getElem?_eq_none outside, Function.update_self, Function.update_self]
    rfl
  · rw [Function.update_of_ne different, Function.update_of_ne different]

/-- Two contexts that differ at most in the slot. -/
def SameBut (slot : Nat) (exec other : ExecCtx W) : Prop :=
  other = exec ∨ ∃ word, other = exec.setVar slot word

theorem SameBut.alike (same : SameBut slot exec other) (short : state.len ≤ params) :
    AlikeBut slot params state exec other := by
  rcases same with rfl | ⟨word, rfl⟩
  · exact .inl rfl
  · refine .inr ⟨word, rfl, ?_⟩
    rcases Nat.lt_or_ge slot params with isParam | beyond
    · exact .inl isParam
    · right
      intro name found
      have inside := BranchState.slot_lt_len found
      omega

/-- An iteration writes all parameters and drops its own variables. -/
theorem sameBut_iteration {info : TailLoopInfo} {env : Env} {next : BranchState}
    {iteration : Iteration W} {count : Nat}
    (compiled : compileIteration rt ctx info state = some (iteration, next))
    (arity : info.selfArgs.length = params) (same : SameBut slot exec other)
    (short : state.len ≤ params)
    (quiet : slot < params → ∀ name bound, ¬ LoopRefers info env (count + 1) state name (some slot) bound) :
    Option.Rel (SameBut slot) (iteration.run rt exec) (iteration.run rt other) := by
  rcases iteration_cases compiled with ⟨-, -, inner, isPre, isArgs⟩
  have unread : slot < params → ∀ name bound, ¬ PreRefers state env info.preStmts name (some slot) bound :=
    fun isParam name bound refers => quiet isParam name bound (.pre refers)
  have pres := alike_pres isPre (same.alike short) unread
  rw [Iteration.run, Iteration.run]
  generalize iteration.pre.foldlM (fun exec op => op exec) exec = result at pres ⊢
  generalize iteration.pre.foldlM (fun exec op => op exec) other = alsoResult at pres ⊢
  cases pres with
  | none => exact .none
  | @some before alsoBefore alike =>
      have isInner := preStmts_state env isPre
      have values : evalAll iteration.args (alsoBefore.view rt) = evalAll iteration.args (before.view rt) :=
        alike.values isArgs fun isParam arg isArg name member found =>
          quiet isParam name _ (.arg isArg member (isInner ▸ found) rfl)
      change Option.Rel _ ((evalAll iteration.args (before.view rt)).bind _)
        ((evalAll iteration.args (alsoBefore.view rt)).bind _)
      rw [values]
      cases isWords : evalAll iteration.args (before.view rt) with
      | none => exact .none
      | some words =>
          have length : words.length = params :=
            (length_of_mapM isWords).trans ((length_of_mapM isArgs).trans arity)
          apply Option.Rel.some
          rcases alike with rfl | ⟨word, rfl, -⟩
          · exact .inl rfl
          · rcases Nat.lt_or_ge slot params with isParam | beyond
            · exact .inl (setVars_of_lt _ _ (length ▸ isParam))
            · exact .inr ⟨word, setVars_of_le _ _ (length ▸ beyond)⟩

/-- A chunk counts the same iterations, and leaves contexts that differ at most in the slot. -/
theorem sameBut_chunk {info : TailLoopInfo} {env : Env} (arity : info.selfArgs.length = params) :
    ∀ {count : Nat} {state final : BranchState} {iterations : List (Iteration W)}
      {exec other : ExecCtx W},
      compileIterations rt ctx info state count = some (iterations, final) →
      SameBut slot exec other → state.len ≤ params →
      (slot < params → ∀ name bound, ¬ LoopRefers info env count state name (some slot) bound) →
      Option.Rel (fun left right => SameBut slot left.1 right.1 ∧ right.2 = left.2)
        (runChunk rt info.continueWhenTruthy exec iterations)
        (runChunk rt info.continueWhenTruthy other iterations)
  | 0, state, final, iterations, exec, other, compiled, same, _, _ => by
      cases compiled
      exact .some ⟨same, rfl⟩
  | count + 1, state, final, iterations, exec, other, compiled, same, short, quiet => by
      rcases bind_some compiled with ⟨⟨iteration, next⟩, isFirst, later⟩
      rcases bind_some later with ⟨⟨others, last⟩, isRest, result⟩
      cases result
      rcases iteration_cases isFirst with ⟨isNext, isCond, -⟩
      have cond : iteration.cond (other.view rt) = iteration.cond (exec.view rt) :=
        (same.alike short).value isCond fun isParam name member found =>
          quiet isParam name _ (.cond member found rfl)
      have ran := sameBut_iteration isFirst arity same short quiet
      rw [runChunk, runChunk]
      change Option.Rel _ ((iteration.cond (exec.view rt)).bind _)
        ((iteration.cond (other.view rt)).bind _)
      rw [cond]
      cases iteration.cond (exec.view rt) with
      | none => exact .none
      | some word =>
          change Option.Rel _ (ite _ ((iteration.run rt exec).bind _) _)
            (ite _ ((iteration.run rt other).bind _) _)
          split
          · generalize iteration.run rt exec = result at ran ⊢
            generalize iteration.run rt other = alsoResult at ran ⊢
            cases ran with
            | none => exact .none
            | @some after alsoAfter same =>
                have shorter : next.len ≤ params := by
                  rw [isNext]
                  exact (len_without_le _ _).trans short
                have rest := sameBut_chunk arity isRest same shorter fun isParam name bound refers =>
                  quiet isParam name bound (.later (isNext ▸ refers))
                change Option.Rel _ ((runChunk rt info.continueWhenTruthy after others).bind _)
                  ((runChunk rt info.continueWhenTruthy alsoAfter others).bind _)
                generalize runChunk rt info.continueWhenTruthy after others = result at rest ⊢
                generalize runChunk rt info.continueWhenTruthy alsoAfter others = alsoResult at rest ⊢
                cases rest with
                | none => exact .none
                | some facts => exact .some ⟨facts.1, congrArg (· + 1) facts.2⟩
          · exact .some ⟨same, rfl⟩

/-- Of the two contexts a commit takes the parameters from the second one. -/
theorem commit_of_lt (exec final : ExecCtx W) (word : Word) (isParam : slot < params) :
    commit params (exec.setVar slot word) final = commit params exec final ∧
      commit params exec (final.setVar slot word) = (commit params exec final).setVar slot word := by
  constructor
  · simp only [commit, ExecCtx.setVar]
    congr 2
    funext index
    rcases eq_or_ne index slot with rfl | different
    · rw [if_pos isParam, if_pos isParam]
    · rw [Function.update_of_ne different]
  · simp only [commit, ExecCtx.setVar]
    congr 2
    funext index
    rcases eq_or_ne index slot with rfl | different
    · rw [if_pos isParam, Function.update_self, Function.update_self]
    · rw [Function.update_of_ne different, Function.update_of_ne different]

theorem commit_of_le (exec final : ExecCtx W) (word : Word) (beyond : params ≤ slot) :
    commit params (exec.setVar slot word) final = (commit params exec final).setVar slot word ∧
      commit params exec (final.setVar slot word) = commit params exec final := by
  have notParam : ¬ slot < params := Nat.not_lt_of_le beyond
  constructor
  · simp only [commit, ExecCtx.setVar]
    congr 2
    funext index
    rcases eq_or_ne index slot with rfl | different
    · rw [if_neg notParam, Function.update_self, Function.update_self]
    · rw [Function.update_of_ne different, Function.update_of_ne different]
  · simp only [commit, ExecCtx.setVar]
    congr 2
    funext index
    rcases eq_or_ne index slot with rfl | different
    · rw [if_neg notParam, if_neg notParam]
    · rw [Function.update_of_ne different]

theorem commit_sameBut (params : Nat) (exec : ExecCtx W) (word : Word) {final after : ExecCtx W}
    (same : SameBut slot final after) :
    ∃ left, commit params (exec.setVar slot word) after =
      (commit params exec final).setVar slot left := by
  rcases Nat.lt_or_ge slot params with isParam | beyond
  · rw [(commit_of_lt exec after word isParam).1]
    rcases same with rfl | ⟨content, rfl⟩
    · exact ⟨_, (setVar_self _ slot).symm⟩
    · exact ⟨content, (commit_of_lt exec final content isParam).2⟩
  · rw [(commit_of_le exec after word beyond).1]
    rcases same with rfl | ⟨content, rfl⟩
    · exact ⟨word, rfl⟩
    · exact ⟨word, by rw [(commit_of_le exec final content beyond).2]⟩

/-- The loop's block reads only parameters that are referred to in it. -/
theorem unread_chunk {info : TailLoopInfo} {env : Env} {count : Nat} {state final : BranchState}
    {iterations : List (Iteration W)} (arity : info.selfArgs.length = params)
    (compiled : compileIterations rt ctx info state count = some (iterations, final))
    (short : state.len ≤ params)
    (quiet : slot < params → ∀ name bound, ¬ LoopRefers info env count state name (some slot) bound)
    (exec : ExecCtx W) : Unread (chunkBlock rt info params iterations) exec slot := by
  apply unread_orTrap
  intro word
  have same : SameBut slot exec (exec.setVar slot word) := .inr ⟨word, rfl⟩
  have chunk := sameBut_chunk arity compiled same short quiet
  generalize runChunk rt info.continueWhenTruthy exec iterations = result at chunk ⊢
  generalize runChunk rt info.continueWhenTruthy (exec.setVar slot word) iterations = other at chunk ⊢
  cases chunk with
  | none => exact ⟨word, rfl⟩
  | @some left right facts =>
      rcases facts with ⟨same, sameCount⟩
      rcases commit_sameBut params exec word same with ⟨content, isLeft⟩
      refine ⟨content, ?_⟩
      rw [Option.map_some, Option.map_some, Option.map_some, isLeft, sameCount]

end LakeNative.Memory

import LakeNative.Compiler.DataSymbols
import LakeNative.Compiler.Nesting

/-! # The symbols of the tables

Within a branch no two tables have one symbol. Two branches may number their tables alike,
and then the second machine, or the one with both branches, is left out of the program.
-/

namespace LakeNative.Dispatch

open LakeNative.Runtime LakeNative.Compiler LakeNative.NumberedCode

variable {W : Type} {rt : RtFuncs W} {ctx : CompilerCtx}

/-! ## Within a branch -/

/-- The tables have different numbers in the range. -/
structure Numbered (first stop : Nat) (tables : List WhenTable) : Prop where
  ordered : first ≤ stop
  inside : ∀ table ∈ tables, first ≤ table.1 ∧ table.1 < stop
  distinct : (tables.map Prod.fst).Nodup

namespace Numbered

variable {first middle stop : Nat} {tables others : List WhenTable}

theorem none (ordered : first ≤ stop) : Numbered first stop [] where
  ordered := ordered
  inside := nofun
  distinct := List.nodup_nil

theorem single (kind : TableKind) (first : Nat) : Numbered first (first + 1) [(first, kind)] where
  ordered := Nat.le_succ first
  inside table member := by
    rw [List.mem_singleton.mp member]
    exact ⟨Nat.le_refl _, Nat.lt_succ_self _⟩
  distinct := List.nodup_singleton first

theorem widen (numbered : Numbered first stop tables) {low high : Nat} (lower : low ≤ first)
    (higher : stop ≤ high) : Numbered low high tables where
  ordered := Nat.le_trans lower (Nat.le_trans numbered.ordered higher)
  inside table member := by
    have range := numbered.inside table member
    omega
  distinct := numbered.distinct

theorem append (numbered : Numbered first middle tables) (behind : Numbered middle stop others) :
    Numbered first stop (tables ++ others) where
  ordered := Nat.le_trans numbered.ordered behind.ordered
  inside table member := by
    have low := numbered.ordered
    have high := behind.ordered
    rcases List.mem_append.mp member with isFirst | isSecond
    · have range := numbered.inside table isFirst
      omega
    · have range := behind.inside table isSecond
      omega
  distinct := by
    rw [List.map_append]
    apply numbered.distinct.append behind.distinct
    exact disjoint_numbers (fun table member => (numbered.inside table member).2)
      (fun table member => (behind.inside table member).1)

/-- The table of a `when` behind those of its arms. -/
theorem swap (numbered : Numbered first stop (tables ++ others)) :
    Numbered first stop (others ++ tables) where
  ordered := numbered.ordered
  inside table member := numbered.inside table (List.mem_append.mpr (List.mem_append.mp member).symm)
  distinct := by
    have distinct := numbered.distinct
    rw [List.map_append] at *
    exact List.nodup_append_comm.mp distinct

/-- What follows a statement comes behind its numbers, if it goes on. -/
theorem following {emitted : Emitted W} {rest : Nat → Scope → List WhenTable}
    (numbered : Numbered first emitted.nextId tables)
    (behind : ∀ next, emitted.outcome = .continued next →
      Numbered next stop (rest next emitted.scope))
    (ends : emitted.outcome.isTerminal = true → emitted.nextId ≤ stop) :
    Numbered first stop (tables ++ Compiler.following (some emitted) rest) := by
  rw [Compiler.following]
  split
  · rename_i next continues
    have behind := behind next continues
    rw [Emitted.nextId, continues] at numbered
    exact numbered.append behind
  · rename_i other
    rw [List.append_nil]
    exact numbered.widen (Nat.le_refl _) (ends (isTerminal_of_ne other))

end Numbered

theorem ordered_expr {stmt : Expr} {id : Nat} {scope : Scope} {emitted : Emitted W}
    (compiled : compileExpr rt ctx id scope stmt = some emitted) : id ≤ emitted.nextId :=
  ((compiles_expr stmt compiled).laid (Nat.le_refl _)).fragment.ordered

mutual
theorem exprTables_numbered : (stmt : Expr) → ∀ {id scope emitted},
    compileExpr rt ctx id scope stmt = some emitted →
    Numbered id emitted.nextId (exprTables rt ctx id scope stmt)
  | .letVar ident ty (some default) => by
      intro compiled
      have ordered := ordered_expr compiled
      rw [exprTables]
      split
      · exact .none ordered
      · rename_i impure
        rw [compileExpr, if_neg impure] at compiled
        rcases bind_some compiled with ⟨value, isValue, result⟩
        have inner := exprTables_numbered default isValue
        split at result
        · rename_i next continues
          cases result
          rw [Emitted.nextId, continues] at inner
          exact inner.widen (Nat.le_refl _) (Nat.le_succ next)
        · cases result
          exact inner
  | .jump ident args => by
      intro compiled
      have ordered := ordered_expr compiled
      by_cases named : ∃ callee ty, ident = .var callee ty
      · rcases named with ⟨callee, ty, rfl⟩
        rw [exprTables]
        split
        · exact .none ordered
        · rename_i impure
          split
          · exact .none ordered
          · rename_i notSelf
            split
            · exact .none ordered
            · rename_i notFused
              rw [compileExpr, if_neg impure, if_neg notSelf, if_neg notFused] at compiled
              rcases bind_some compiled with ⟨staged, isStaged, result⟩
              rcases bind_some result with ⟨call, isCall, result⟩
              cases result
              have inner := argsTables_numbered args isStaged
              have behind : staged.nextId ≤ call.nextId := by
                rw [(oneBlock_call isCall).nextId]
                exact Nat.le_succ _
              exact inner.widen (Nat.le_refl _) behind
      · rw [exprTables]
        · split <;> exact .none ordered
        · exact fun callee ty same => named ⟨callee, ty, same⟩
  | .when cond branches => by
      intro compiled
      rcases compile_when compiled with ⟨disc, done, -, isDisc, continues, isEmitted⟩
      have inner := exprTables_numbered cond isDisc
      rw [exprTables, isDisc]
      refine inner.following ?_ ?_
      · intro next isNext
        obtain rfl : done = next := by
          rw [continues] at isNext
          exact StmtOutcome.continued.inj isNext
        rcases isEmitted with ⟨values, table, rfl⟩ | ⟨noTable, arms, select, isArms, selected, rfl⟩
        · rw [table]
          exact .single .kTable done
        · rw [noTable]
          have arms := armsTables_numbered branches isArms
          dsimp only
          split
          · exact ((Numbered.single .mphf done).append arms).swap
          · rw [List.append_nil]
            exact arms.widen (Nat.le_succ done) (Nat.le_refl _)
      · rw [continues]
        nofun
  | .wait handlers filter => by
      intro compiled
      rcases compile_wait compiled with ⟨bodies, folded, dispatch, -, isBodies, -, -, -, rfl⟩
      rw [exprTables]
      exact (handlersTables_numbered handlers isBodies).widen (Nat.le_succ _) (Nat.le_refl _)
  | .index receiver index => by
      intro compiled
      have ordered := ordered_expr compiled
      rw [exprTables]
      split
      · exact .none ordered
      · rename_i impure
        rcases compile_index (Bool.eq_false_of_not_eq_true impure) compiled with
          ⟨buf, atBuf, offset, atOffset, isBuf, continues, isOffset, goesOn, rfl⟩
        have inner := exprTables_numbered receiver isBuf
        have second := exprTables_numbered index isOffset
        dsimp only
        rw [isBuf]
        refine inner.following ?_ ?_
        · intro next isNext
          obtain rfl : atBuf = next := by
            rw [continues] at isNext
            exact StmtOutcome.continued.inj isNext
          rw [Emitted.nextId, goesOn] at second
          exact second.widen (Nat.le_succ atBuf) (Nat.le_add_right _ 2)
        · rw [continues]
          nofun
  | .letVar ident ty none | .string text ty | .tuple elems | .num text ty | .bool value | .unit
  | .atom name | .var name ty | .tupleIndex receiver index | .neg inner
  | .binary op left right | .other parts => by
      intro compiled
      exact .none (ordered_expr compiled)

theorem argsTables_numbered : (args : List Expr) → ∀ {base count index id scope emitted},
    compileArgs rt ctx base count index id scope args = some emitted →
    Numbered id emitted.nextId (argsTables rt ctx base count index id scope args)
  | [] => by
      intro compiled
      rw [compileArgs] at compiled
      cases compiled
      exact .none (Nat.le_refl _)
  | arg :: args => by
      intro compiled
      rw [compileArgs] at compiled
      rcases bind_some compiled with ⟨value, isValue, result⟩
      have inner := exprTables_numbered arg isValue
      rw [argsTables, isValue]
      split at result
      · rename_i done continues
        rcases bind_some result with ⟨rest, isRest, result⟩
        cases result
        refine inner.following ?_ ?_
        · intro next isNext
          obtain rfl : done = next := by
            rw [continues] at isNext
            exact StmtOutcome.continued.inj isNext
          exact (argsTables_numbered args isRest).widen (Nat.le_succ done) (Nat.le_refl _)
        · rw [continues]
          nofun
      · cases result

theorem seqTables_numbered : (body : List Expr) → ∀ {id scope emitted},
    compileSeq rt ctx id scope body = some emitted →
    Numbered id emitted.nextId (seqTables rt ctx id scope body)
  | [] => by
      intro compiled
      rw [compileSeq] at compiled
      cases compiled
      exact .none (Nat.le_refl _)
  | stmt :: body => by
      intro compiled
      rw [compileSeq] at compiled
      rcases bind_some compiled with ⟨first, isFirst, result⟩
      have inner := exprTables_numbered stmt isFirst
      rw [seqTables, isFirst]
      split at result
      · rename_i done continues
        rcases bind_some result with ⟨rest, isRest, result⟩
        cases result
        refine inner.following ?_ ?_
        · intro next isNext
          obtain rfl : done = next := by
            rw [continues] at isNext
            exact StmtOutcome.continued.inj isNext
          have behind := seqTables_numbered body isRest
          exact behind
        · rw [continues]
          nofun
      · rename_i other
        cases result
        refine inner.following ?_ fun _ => Nat.le_refl _
        intro next isNext
        exact absurd isNext (other next)

theorem armsTables_numbered : (branches : List (Expr × List Expr)) → ∀ {id scope emitted},
    compileArms rt ctx id scope branches = some emitted →
    Numbered id emitted.nextId (armsTables rt ctx id scope branches)
  | [] => by
      intro compiled
      rw [compileArms] at compiled
      cases compiled
      exact .none (Nat.le_refl _)
  | (key, body) :: branches => by
      intro compiled
      rw [compileArms] at compiled
      rcases bind_some compiled with ⟨arm, isArm, result⟩
      have inner := seqTables_numbered body isArm
      rw [armsTables, isArm]
      dsimp only
      cases leaves : arm.outcome with
      | stateChange next =>
          simp only [leaves] at result
          rcases bind_some result with ⟨rest, isRest, result⟩
          cases result
          have behind := armsTables_numbered branches isRest
          rw [Emitted.nextId, leaves] at inner
          refine inner.append (behind.widen ?_ (Nat.le_refl _))
          split
          · exact Nat.le_refl _
          · exact Nat.le_succ next
      | continued next | wait next =>
          simp only [leaves] at result
          rcases bind_some result with ⟨rest, isRest, result⟩
          cases result
          have behind := armsTables_numbered branches isRest
          rw [Emitted.nextId, leaves] at inner
          exact inner.append (behind.widen (Nat.le_succ next) (Nat.le_refl _))

theorem handlersTables_numbered : (handlers : List (List Pattern × List Expr)) →
    ∀ {id scope emitted}, compileHandlers rt ctx id scope handlers = some emitted →
    Numbered id emitted.nextId (handlersTables rt ctx id scope handlers)
  | [] => by
      intro compiled
      rw [compileHandlers] at compiled
      cases compiled
      exact .none (Nat.le_refl _)
  | (patterns, body) :: handlers => by
      intro compiled
      rw [compileHandlers] at compiled
      rcases bind_some compiled with ⟨first, isFirst, result⟩
      rcases bind_some result with ⟨rest, isRest, result⟩
      cases result
      rw [handlersTables, isFirst]
      have behind := handlersTables_numbered handlers isRest
      exact (bodyTables_numbered body isFirst).append behind

theorem bodyTables_numbered : (body : List Expr) → ∀ {run op id scope emitted},
    compileBody rt ctx run op id scope body = some emitted →
    Numbered id emitted.nextId (bodyTables rt ctx id scope body)
  | [] => by
      intro compiled
      rw [compileBody] at compiled
      cases compiled
      exact .none (Nat.le_refl _)
  | stmt :: body => by
      intro compiled
      rw [compileBody] at compiled
      rw [bodyTables]
      split
      · rename_i accepts
        rw [if_pos accepts] at compiled
        rcases bind_some compiled with ⟨⟨step, added⟩, isFast, result⟩
        rw [isFast]
        dsimp only at result ⊢
        split at result
        · exact (bodyTables_numbered body result).widen (Nat.le_succ _) (Nat.le_refl _)
        · rcases bind_some result with ⟨rest, isRest, result⟩
          cases result
          exact (bodyTables_numbered body isRest).widen (Nat.le_succ _) (Nat.le_refl _)
      · rename_i notFast
        rw [if_neg notFast] at compiled
        rcases bind_some compiled with ⟨first, isFirst, result⟩
        have inner := exprTables_numbered stmt isFirst
        rw [isFirst]
        split at result
        · rename_i done continues
          rcases bind_some result with ⟨rest, isRest, result⟩
          cases result
          refine inner.following ?_ ?_
          · intro next isNext
            obtain rfl : done = next := by
              rw [continues] at isNext
              exact StmtOutcome.continued.inj isNext
            have behind := bodyTables_numbered body isRest
            exact behind
          · rw [continues]
            nofun
        all_goals
          rename_i done ends
          cases result
          refine inner.following ?_ ?_
          · intro next isNext
            rw [ends] at isNext
            cases isNext
          · intro _
            have same := nextId_of_outcome ends
            exact Nat.le_of_eq same
end

/-- No two tables of a branch have one number. -/
theorem branchTables_nodup {unrollFactor : Nat} {patterns : List Pattern} {body : List Expr}
    {emitted : Emitted W}
    (compiled : compileBranch rt ctx unrollFactor patterns body = some emitted) :
    (branchTables rt ctx unrollFactor patterns body).Nodup := by
  rw [compileBranch] at compiled
  rw [branchTables]
  cases isLoop : unrollInfo ctx unrollFactor patterns body with
  | some info =>
      simp only [isLoop, compileUnrolledBranch] at compiled
      rcases bind_some compiled with ⟨⟨iterations, state⟩, isIterations, result⟩
      rcases bind_some result with ⟨exit, isExit, result⟩
      simp only [isIterations]
      exact (seqTables_numbered info.exitBody isExit).distinct.of_map
  | none =>
      simp only [isLoop] at compiled
      exact (bodyTables_numbered body compiled).distinct.of_map

theorem machineTables_nodup {unrollFactor : Nat} {machine : SourceMachine}
    (compiled : (compileMachine rt (ctx.within machine) unrollFactor machine.branches).isSome = true) :
    ∀ tables ∈ machineTables rt ctx unrollFactor machine, tables.Nodup := by
  intro tables member
  rcases List.mem_map.mp member with ⟨branch, isBranch, rfl⟩
  rcases Option.isSome_iff_exists.mp compiled with ⟨codes, isCodes⟩
  rcases result_of_mapM isCodes isBranch with ⟨code, isCode⟩
  rcases bind_some isCode with ⟨emitted, isEmitted, -⟩
  exact branchTables_nodup isEmitted

/-! ## Symbols -/

theorem repr_inj {number other : Nat} (same : toString number = toString other) :
    number = other := by
  have digits := congrArg String.toList same
  rw [Nat.toString_eq_repr, Nat.toString_eq_repr, Nat.toList_repr, Nat.toList_repr] at digits
  rw [← @Nat.ofDigitChars_ten_toDigits number, digits, Nat.ofDigitChars_ten_toDigits]

theorem number_of_symbol {stem : String} {number other : Nat}
    (same : stem ++ toString number = stem ++ toString other) : number = other :=
  repr_inj ((String.append_right_inj stem).mp same)

/-- What the symbols of a table begin with. -/
def stems : TableKind → List String
  | .kTable => ["ktbl_"]
  | .mphf => ["mphf_disp_", "mphf_keys_"]

theorem stem_of_symbol {table : WhenTable} {symbol : String} (isSymbol : symbol ∈ tableSymbols table) :
    ∃ stem ∈ stems table.2, symbol = stem ++ toString table.1 := by
  rcases table with ⟨number, kind⟩
  cases kind with
  | kTable => exact ⟨_, List.mem_cons_self, List.mem_singleton.mp isSymbol⟩
  | mphf =>
      rcases List.mem_pair.mp isSymbol with isDisp | isKeys
      · exact ⟨_, List.mem_cons_self, isDisp⟩
      · exact ⟨_, List.mem_cons_of_mem _ List.mem_cons_self, isKeys⟩

/-- No stem begins with another one. -/
theorem stems_differ : ∀ stem ∈ stems .kTable ++ stems .mphf, ∀ other ∈ stems .kTable ++ stems .mphf,
    stem ≠ other → ∃ position < min stem.toList.length other.toList.length,
      stem.toList[position]? ≠ other.toList[position]? := by
  decide

theorem mem_stems {kind : TableKind} {stem : String} (isStem : stem ∈ stems kind) :
    stem ∈ stems .kTable ++ stems .mphf := by
  cases kind with
  | kTable => exact List.mem_append_left _ isStem
  | mphf => exact List.mem_append_right _ isStem

theorem stem_eq {kind otherKind : TableKind} {stem other : String} {number otherNumber : Nat}
    (isStem : stem ∈ stems kind) (isOther : other ∈ stems otherKind)
    (same : stem ++ toString number = other ++ toString otherNumber) : stem = other := by
  by_contra different
  obtain ⟨position, within, differ⟩ :=
    stems_differ stem (mem_stems isStem) other (mem_stems isOther) different
  have letters := congrArg (fun symbol => symbol.toList[position]?) same
  simp only [String.toList_append, List.getElem?_append_left (Nat.lt_min.mp within).1,
    List.getElem?_append_left (Nat.lt_min.mp within).2] at letters
  exact differ letters

theorem kind_of_stem {kind otherKind : TableKind} {stem : String} (isStem : stem ∈ stems kind)
    (alsoStem : stem ∈ stems otherKind) : kind = otherKind := by
  cases kind <;> cases otherKind <;> simp_all [stems]

/-- A symbol belongs to one table only. -/
theorem table_of_symbol {table other : WhenTable} {symbol : String}
    (ofTable : symbol ∈ tableSymbols table) (ofOther : symbol ∈ tableSymbols other) :
    table = other := by
  rcases stem_of_symbol ofTable with ⟨stem, isStem, isSymbol⟩
  rcases stem_of_symbol ofOther with ⟨otherStem, isOther, alsoSymbol⟩
  have same := isSymbol.symm.trans alsoSymbol
  rcases stem_eq isStem isOther same with rfl
  exact Prod.ext (number_of_symbol same) (kind_of_stem isStem isOther)

theorem tableSymbols_nodup (table : WhenTable) : (tableSymbols table).Nodup := by
  rcases table with ⟨number, kind⟩
  cases kind with
  | kTable => exact List.nodup_singleton _
  | mphf =>
      rw [tableSymbols, List.nodup_cons, List.mem_singleton]
      refine ⟨fun same => ?_, List.nodup_singleton _⟩
      exact absurd (@stem_eq .mphf .mphf _ _ number number (by decide) (by decide) same) (by decide)

theorem tableSymbols_ne_nil (table : WhenTable) : ∃ symbol, symbol ∈ tableSymbols table := by
  rcases table with ⟨number, kind⟩
  cases kind with
  | kTable => exact ⟨_, List.mem_cons_self⟩
  | mphf => exact ⟨_, List.mem_cons_self⟩

/-- The symbols are different exactly if the tables are. -/
theorem symbols_nodup_iff (tables : List WhenTable) :
    (tables.flatMap tableSymbols).Nodup ↔ tables.Nodup := by
  rw [List.nodup_flatMap]
  constructor
  · rintro ⟨-, apart⟩
    refine apart.imp fun {table other} disjoint same => ?_
    rcases tableSymbols_ne_nil table with ⟨symbol, isSymbol⟩
    exact disjoint isSymbol (same ▸ isSymbol)
  · intro distinct
    refine ⟨fun table _ => tableSymbols_nodup table, distinct.imp fun {table other} different => ?_⟩
    intro symbol ofTable ofOther
    exact different (table_of_symbol ofTable ofOther)

/-! ## The loop over the machines -/

variable {σ : Type} {objects : ObjectModule σ}

/-- The data are all defined if they have different names that the module does not have. -/
theorem defineAll_complete (names : List String) (module : σ) :
    ((objects.defineAll module names).2 = true ↔
      names.Nodup ∧ ∀ name ∈ names, ¬ objects.hasName module name) ∧
    ((objects.defineAll module names).2 = true → ∀ other,
      objects.hasName (objects.defineAll module names).1 other ↔
        other ∈ names ∨ objects.hasName module other) := by
  induction names generalizing module with
  | nil => simp [ObjectModule.defineAll]
  | cons name names induction =>
      rw [ObjectModule.defineAll]
      by_cases taken : objects.hasName module name
      · rw [objects.refused taken]
        refine ⟨iff_of_false Bool.false_ne_true ?_, nofun⟩
        rintro ⟨-, free⟩
        exact free name List.mem_cons_self taken
      · rcases objects.defined taken with ⟨result, isDefined, added⟩
        rw [isDefined]
        rcases induction result with ⟨complete, names⟩
        constructor
        · rw [complete, List.nodup_cons, List.forall_mem_cons]
          simp only [added, not_or]
          constructor
          · rintro ⟨distinct, free⟩
            exact ⟨⟨fun member => (free name member).1 rfl, distinct⟩, taken,
              fun other member => (free other member).2⟩
          · rintro ⟨⟨fresh, distinct⟩, -, free⟩
            refine ⟨distinct, fun other member => ⟨?_, free other member⟩⟩
            rintro rfl
            exact fresh member
        · intro defined other
          rw [names defined other, added, List.mem_cons]
          tauto

section Program

variable (rt : RtFuncs W) (ctx : CompilerCtx) (unrollFactor : Nat)

/-- The tables of every branch of the program. -/
def programTables (program : List SourceMachine) : List (List WhenTable) :=
  program.flatMap (machineTables rt ctx unrollFactor)

def programSymbols (program : List SourceMachine) : List String :=
  program.flatMap (machineSymbols rt ctx unrollFactor)

theorem programSymbols_eq (program : List SourceMachine) :
    programSymbols rt ctx unrollFactor program =
      (programTables rt ctx unrollFactor program).flatten.flatMap tableSymbols := by
  induction program with
  | nil => rfl
  | cons machine program induction =>
      rw [programSymbols, programTables, List.flatMap_cons, List.flatMap_cons, List.flatten_append,
        List.flatMap_append]
      exact congrArg (machineSymbols rt ctx unrollFactor machine ++ ·) induction

/-- If all machines compile, none is left out exactly if their symbols are different and new to
the module. -/
theorem leftOut_eq_nil_iff (module : σ) (program : List SourceMachine)
    (accepted : ∀ machine ∈ program,
      (compileMachine rt (ctx.within machine) unrollFactor machine.branches).isSome = true) :
    leftOut rt ctx unrollFactor objects module program = [] ↔
      (programSymbols rt ctx unrollFactor program).Nodup ∧
        ∀ symbol ∈ programSymbols rt ctx unrollFactor program, ¬ objects.hasName module symbol := by
  induction program generalizing module with
  | nil => exact iff_of_true rfl ⟨List.nodup_nil, nofun⟩
  | cons machine program induction =>
      have compiled := accepted machine List.mem_cons_self
      obtain ⟨complete, names⟩ :=
        @defineAll_complete _ objects (machineSymbols rt ctx unrollFactor machine) module
      have later := induction
        (objects.defineAll module (machineSymbols rt ctx unrollFactor machine)).1
        fun other member => accepted other (List.mem_cons_of_mem _ member)
      rw [leftOut, programSymbols, List.flatMap_cons, List.nodup_append, List.forall_mem_append]
      simp only [compiled, and_true]
      by_cases defined : (objects.defineAll module (machineSymbols rt ctx unrollFactor machine)).2 = true
      · rw [if_pos defined, later]
        rcases complete.mp defined with ⟨distinct, free⟩
        simp only [names defined, not_or]
        constructor
        · rintro ⟨alsoDistinct, fresh⟩
          refine ⟨⟨distinct, alsoDistinct, fun symbol isFirst other isLater same => ?_⟩, free,
            fun symbol member => (fresh symbol member).2⟩
          exact (fresh other isLater).1 (same ▸ isFirst)
        · rintro ⟨⟨-, alsoDistinct, apart⟩, -, alsoFree⟩
          exact ⟨alsoDistinct, fun symbol member =>
            ⟨fun isFirst => apart symbol isFirst symbol member rfl, alsoFree symbol member⟩⟩
      · rw [if_neg defined]
        refine iff_of_false nofun ?_
        rintro ⟨⟨distinct, -⟩, free, -⟩
        exact defined (complete.mpr ⟨distinct, free⟩)

/-- The symbols are unique and the program is complete exactly if no two branches have tables
of one kind with one number and no symbol of a table is in the module before. -/
theorem symbols_unique_iff (module : σ) (program : List SourceMachine)
    (accepted : ∀ machine ∈ program,
      (compileMachine rt (ctx.within machine) unrollFactor machine.branches).isSome = true) :
    (programSymbols rt ctx unrollFactor program).Nodup ∧
        leftOut rt ctx unrollFactor objects module program = [] ↔
      (programTables rt ctx unrollFactor program).Pairwise List.Disjoint ∧
        ∀ symbol ∈ programSymbols rt ctx unrollFactor program, ¬ objects.hasName module symbol := by
  have inBranches : ∀ tables ∈ programTables rt ctx unrollFactor program, tables.Nodup := by
    intro tables member
    rcases List.mem_flatMap.mp member with ⟨machine, isMachine, inMachine⟩
    exact machineTables_nodup (accepted machine isMachine) tables inMachine
  have unique : (programSymbols rt ctx unrollFactor program).Nodup ↔
      (programTables rt ctx unrollFactor program).Pairwise List.Disjoint := by
    rw [programSymbols_eq, symbols_nodup_iff, List.nodup_flatten]
    exact and_iff_right inBranches
  rw [leftOut_eq_nil_iff rt ctx unrollFactor module program accepted, ← unique]
  constructor
  · rintro ⟨distinct, -, free⟩
    exact ⟨distinct, free⟩
  · rintro ⟨distinct, free⟩
    exact ⟨distinct, distinct, free⟩

end Program

/-! ## Two machines -/

/-- A module as the list of its names. -/
def namedModule : ObjectModule (List String) where
  hasName module name := name ∈ module
  defineData module name := if name ∈ module then none else some (name :: module)
  refused taken := if_pos taken
  defined free := ⟨_, if_neg free, fun _ => List.mem_cons⟩

/-- A program whose number literals are those of the two tables. -/
def digits : CompilerCtx :=
  { CompilerCtx.bare with parseInt := fun text =>
      if text = "0" then some 0 else if text = "1" then some 1 else none }

/-- The machine `n i64 { when n { 0 -> 1, 1 -> 0 } }`. -/
def flip (ident : String) : SourceMachine where
  ident := ident
  branches := [([⟨"n", .plain "i64", .var⟩],
    [.when (.var "n" (.plain "i64")) [
      (.num "0" (.plain "i64"), [.num "1" (.plain "i64")]),
      (.num "1" (.plain "i64"), [.num "0" (.plain "i64")])]])]

theorem flip_compiles (ident : String) :
    (compileMachine RtFuncs.idle (digits.within (flip ident)) 1 (flip ident).branches).isSome = true := by
  rfl

theorem flip_symbols (ident : String) :
    machineSymbols RtFuncs.idle digits 1 (flip ident) = ["ktbl_1"] := by
  rfl

theorem flips_compile (machines : List String) : ∀ machine ∈ machines.map flip,
    (compileMachine RtFuncs.idle (digits.within machine) 1 machine.branches).isSome = true := by
  intro machine member
  rcases List.mem_map.mp member with ⟨ident, -, rfl⟩
  exact flip_compiles ident

/-- The second of two machines with a table at the same place is left out. -/
theorem second_flip_left_out :
    (∀ machine ∈ ["main", "other"].map flip,
      (compileMachine RtFuncs.idle (digits.within machine) 1 machine.branches).isSome = true) ∧
    ¬ (programSymbols RtFuncs.idle digits 1 (["main", "other"].map flip)).Nodup ∧
    leftOut RtFuncs.idle digits 1 namedModule ["main", "other"] (["main", "other"].map flip) =
      ["other"] := by
  refine ⟨flips_compile _, ?_, ?_⟩
  · have symbols : programSymbols RtFuncs.idle digits 1 (["main", "other"].map flip) =
        ["ktbl_1", "ktbl_1"] := rfl
    rw [symbols]
    decide
  · have compiled := flip_compiles "main"
    have alsoCompiled := flip_compiles "other"
    simp only [List.map_cons, List.map_nil, leftOut, flip_symbols, compiled, alsoCompiled]
    decide

theorem symbols_unique_iff_flip :
    (programSymbols RtFuncs.idle digits 1 (["main"].map flip)).Nodup ∧
        leftOut RtFuncs.idle digits 1 namedModule ["main"] (["main"].map flip) = [] ↔
      (programTables RtFuncs.idle digits 1 (["main"].map flip)).Pairwise List.Disjoint ∧
        ∀ symbol ∈ programSymbols RtFuncs.idle digits 1 (["main"].map flip),
          ¬ namedModule.hasName ["main"] symbol :=
  symbols_unique_iff RtFuncs.idle digits 1 ["main"] (["main"].map flip) (flips_compile ["main"])

end LakeNative.Dispatch

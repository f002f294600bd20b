import LakeNative.Library.KeyedChoice
import LakeNative.Compiler.Fragments
import LakeNative.Control.FusedSelf

/-! # A `when` of constants

A `when` whose arms are the constants for 0, 1 and so on is a table. It does what the
check block, the arms and the blocks behind them would do.
-/

namespace LakeNative.Control

open LakeNative.Runtime LakeNative.Compiler LakeNative.NumberedCode LakeNative.Transitions
  LakeNative.KeyedChoice

variable {W : Type} {rt : RtFuncs W} {ctx : CompilerCtx} {literals : Literals}

/-! ## The two evaluations of a constant -/

theorem isPure_of_constant {expr : Expr} {value : Word}
    (constant : constFoldI64 literals expr = some value) : isPure expr = true := by
  fun_induction constFoldI64 literals expr generalizing value with
  | case1 text ty => rfl
  | case2 value => rfl
  | case3 inner induction =>
      rcases Option.map_eq_some_iff.mp constant with ⟨folded, isFolded, -⟩
      exact induction isFolded
  | case4 op left right leftInduction rightInduction =>
      rcases bind_some constant with ⟨first, isFirst, rest⟩
      rcases bind_some rest with ⟨second, isSecond, -⟩
      rw [isPure, leftInduction isFirst, rightInduction isSecond]
      rfl
  | case5 _ => cases constant

/-- Where the compiler's arithmetic gives a value, the processor's gives the same or traps. -/
theorem eval_of_constant {op : BinaryOp} {left right value : Word}
    (constant : (match op with
      | .add => some (left + right)
      | .sub => some (left - right)
      | .mul => some (left * right)
      | .div => if right = 0 then none else some (left.sdiv right)
      | .bAnd => some (left &&& right)
      | .bOr => some (left ||| right)
      | .bXor => some (left ^^^ right)
      | .shl => if right.toNat < 64 then some (left <<< right.toNat) else none
      | .shr => if right.toNat < 64 then some (left >>> right.toNat) else none
      | _ => none) = some value) :
    op.eval left right = none ∨ op.eval left right = some value := by
  cases op with
  | div =>
      rw [BinaryOp.eval]
      dsimp only at constant
      split at constant
      · cases constant
      · split
        · exact .inl rfl
        · exact .inr constant
  | shl =>
      dsimp only at constant
      split at constant
      · rename_i small
        rw [BinaryOp.eval, Nat.mod_eq_of_lt small]
        exact .inr constant
      · cases constant
  | shr =>
      dsimp only at constant
      split at constant
      · rename_i small
        rw [BinaryOp.eval, Nat.mod_eq_of_lt small]
        exact .inr constant
      · cases constant
  | le | ge | eq | lt | gt => cases constant
  | _ => exact .inr constant

/-- What a constant folds to depends on nothing. -/
theorem folds_constant {expr : Expr} {value : Word}
    (constant : constFoldI64 literals expr = some value) (selfPid : Bool) (state : BranchState) :
    ∃ result, foldWithSelf literals selfPid state expr = some (fun _ => result) ∧
      (result = none ∨ result = some value) := by
  fun_induction constFoldI64 literals expr generalizing value with
  | case1 text ty =>
      refine ⟨some value, ?_, .inr rfl⟩
      rw [foldWithSelf, constant]
      rfl
  | case2 isTrue =>
      cases constant
      exact ⟨_, rfl, .inr rfl⟩
  | case3 inner induction =>
      rcases Option.map_eq_some_iff.mp constant with ⟨folded, isFolded, rfl⟩
      rcases induction isFolded with ⟨result, folds, isResult⟩
      refine ⟨result.map Neg.neg, ?_, ?_⟩
      · rw [foldWithSelf, folds]
        rfl
      · exact isResult.imp (congrArg (Option.map Neg.neg)) (congrArg (Option.map Neg.neg))
  | case4 op left right leftInduction rightInduction =>
      rcases bind_some constant with ⟨first, isFirst, rest⟩
      rcases bind_some rest with ⟨second, isSecond, both⟩
      rcases leftInduction isFirst with ⟨leftResult, leftFolds, isLeft⟩
      rcases rightInduction isSecond with ⟨rightResult, rightFolds, isRight⟩
      refine ⟨leftResult.bind fun left => rightResult.bind fun right => op.eval left right, ?_, ?_⟩
      · rw [foldWithSelf, leftFolds, rightFolds]
        rfl
      · rcases isLeft with rfl | rfl
        · exact .inl rfl
        · rcases isRight with rfl | rfl
          · exact .inl rfl
          · exact eval_of_constant both
  | case5 _ => cases constant

/-! ## The arms -/

/-- Arms of one constant each: a block with its constant and one that leads behind the `when`. -/
def constantArms (rt : RtFuncs W) (scope : Scope) : Nat → List (Option Word) → Emitted W
  | id, [] => { outcome := .continued id, code := [], scope := scope }
  | id, result :: results =>
      let rest := constantArms rt scope (id + 2) results
      { rest with
        code := (id, evalBlock rt (fun _ => result) id) :: rest.code
        starts := id :: rest.starts
        redirects := (id + 1) :: rest.redirects }

/-- The key of an entry is a number's and its constant that of the arm's only statement. -/
theorem kTableEntry_some {count : Nat} {branch : Expr × List Expr} {entry : Nat × Word}
    (isEntry : kTableEntry literals count branch = some entry) :
    ∃ text ty body key, branch = (.num text ty, [body]) ∧ literals.parseInt text = some key ∧
      key.toNat = entry.1 ∧ 0 ≤ key.toInt ∧ key.toInt < count ∧
      constFoldI64 literals body = some entry.2 := by
  rw [kTableEntry.eq_def] at isEntry
  split at isEntry
  · rename_i text ty body
    rcases bind_some isEntry with ⟨key, isKey, inRange⟩
    split at inRange
    · rename_i range
      rcases Option.map_eq_some_iff.mp inRange with ⟨value, constant, rfl⟩
      exact ⟨text, ty, body, key, rfl, isKey, rfl, range.1, range.2, constant⟩
    · cases inRange
  · cases isEntry

/-- What the constants of a table's arms come to when they are evaluated. -/
def Evaluates (entries : List (Nat × Word)) (results : List (Option Word)) : Prop :=
  List.Forall₂ (fun entry result => result = none ∨ result = some entry.2) entries results

theorem result_of_entry {entries : List (Nat × Word)} {results : List (Option Word)}
    (evaluates : Evaluates entries results) {index : Nat} {entry : Nat × Word}
    (atIndex : entries[index]? = some entry) :
    ∃ result, results[index]? = some result ∧ (result = none ∨ result = some entry.2) := by
  induction evaluates generalizing index with
  | nil => cases atIndex
  | @cons first result _ _ isResult _ induction =>
      cases index with
      | zero =>
          cases atIndex
          exact ⟨result, rfl, isResult⟩
      | succ index => exact induction atIndex

theorem compileArms_constants (rt : RtFuncs W) {count : Nat} {branches : List (Expr × List Expr)}
    {entries : List (Nat × Word)}
    (isTable : branches.mapM (kTableEntry ctx.toLiterals count) = some entries) (scope : Scope) :
    ∃ results, Evaluates entries results ∧
      ∀ id, compileArms rt ctx id scope branches = some (constantArms rt scope id results) := by
  induction branches generalizing entries with
  | nil =>
      cases isTable
      refine ⟨[], .nil, fun id => ?_⟩
      rw [compileArms]
      rfl
  | cons branch branches induction =>
      rw [List.mapM_cons] at isTable
      rcases bind_some isTable with ⟨entry, isEntry, rest⟩
      rcases bind_some rest with ⟨others, areOthers, same⟩
      cases same
      rcases kTableEntry_some isEntry with ⟨text, ty, body, key, rfl, -, -, -, -, constant⟩
      rcases induction areOthers with ⟨results, evaluates, compiled⟩
      rcases folds_constant constant false scope.toBranchState with ⟨result, folds, isResult⟩
      refine ⟨result :: results, .cons isResult evaluates, fun id => ?_⟩
      have pure := isPure_of_constant constant
      have seq : compileSeq rt ctx id scope [body] =
          some ⟨.continued (id + 1), [(id, evalBlock rt (fun _ => result) id)], scope, [], []⟩ := by
        rw [compileSeq, compileExpr_pure pure, compilePure_folded pure folds id]
        rw [Option.bind_eq_bind, Option.bind_some]
        dsimp only
        rw [compileSeq]
        rfl
      rw [compileArms, seq, Option.bind_eq_bind, Option.bind_some]
      dsimp only
      rw [compiled]
      rfl

theorem nextId_constantArms (scope : Scope) (results : List (Option Word)) (id : Nat) :
    (constantArms rt scope id results).nextId = id + 2 * results.length := by
  induction results generalizing id with
  | nil => rfl
  | cons result results induction =>
      apply (induction (id + 2)).trans
      rw [List.length_cons]
      omega

theorem starts_constantArms (scope : Scope) (results : List (Option Word)) (id index : Nat) :
    (constantArms rt scope id results).starts[index]? =
      if index < results.length then some (id + 2 * index) else none := by
  induction results generalizing id index with
  | nil => rfl
  | cons result results induction =>
      cases index with
      | zero => rfl
      | succ index =>
          apply (induction (id + 2) index).trans
          rw [List.length_cons]
          simp only [Nat.add_lt_add_iff_right]
          split
          · congr 1
            omega
          · rfl

theorem mem_code_constantArms {scope : Scope} {results : List (Option Word)} {id number : Nat}
    {block : Block W} : (number, block) ∈ (constantArms rt scope id results).code ↔
      ∃ index result, results[index]? = some result ∧ number = id + 2 * index ∧
        block = evalBlock rt (fun _ => result) number := by
  induction results generalizing id with
  | nil => exact iff_of_false List.not_mem_nil (by simp)
  | cons first results induction =>
      rw [constantArms, List.mem_cons, induction]
      constructor
      · rintro (same | ⟨index, result, isResult, rfl, isBlock⟩)
        · cases same
          exact ⟨0, first, rfl, rfl, rfl⟩
        · exact ⟨index + 1, result, isResult, by omega, isBlock⟩
      · rintro ⟨index, result, isResult, isNumber, isBlock⟩
        cases index with
        | zero =>
            cases isResult
            left
            rw [isBlock, isNumber]
            rfl
        | succ index => exact .inr ⟨index, result, isResult, by omega, isBlock⟩

theorem mem_redirects_constantArms {scope : Scope} {results : List (Option Word)} {id number : Nat} :
    number ∈ (constantArms rt scope id results).redirects ↔
      ∃ index < results.length, number = id + 2 * index + 1 := by
  induction results generalizing id with
  | nil => exact iff_of_false List.not_mem_nil (by simp)
  | cons first results induction =>
      rw [constantArms, List.mem_cons, induction]
      constructor
      · rintro (rfl | ⟨index, inside, rfl⟩)
        · exact ⟨0, by simp, rfl⟩
        · exact ⟨index + 1, by simpa using inside, by omega⟩
      · rintro ⟨index, inside, isNumber⟩
        cases index with
        | zero => exact .inl isNumber
        | succ index =>
            rw [List.length_cons] at inside
            exact .inr ⟨index, by omega, by omega⟩

/-! ## The choice -/

theorem entry_of_branch {count : Nat} {branches : List (Expr × List Expr)}
    {entries : List (Nat × Word)}
    (isTable : branches.mapM (kTableEntry literals count) = some entries) {index : Nat}
    {branch : Expr × List Expr} (atIndex : branches[index]? = some branch) :
    ∃ entry, entries[index]? = some entry ∧ kTableEntry literals count branch = some entry := by
  have same := getElem?_of_mapM isTable atIndex
  have inside : index < entries.length := by
    rw [length_of_mapM isTable]
    exact (List.getElem?_eq_some_iff.mp atIndex).1
  rw [List.getElem?_eq_getElem inside] at same
  exact ⟨_, List.getElem?_eq_getElem inside, same⟩

theorem branch_of_entry {count : Nat} {branches : List (Expr × List Expr)}
    {entries : List (Nat × Word)}
    (isTable : branches.mapM (kTableEntry literals count) = some entries) {index : Nat}
    {entry : Nat × Word} (atIndex : entries[index]? = some entry) :
    ∃ branch, branches[index]? = some branch ∧ kTableEntry literals count branch = some entry := by
  have inside : index < branches.length := by
    rw [← length_of_mapM isTable]
    exact (List.getElem?_eq_some_iff.mp atIndex).1
  have isBranch := List.getElem?_eq_getElem inside
  refine ⟨_, isBranch, ?_⟩
  rw [getElem?_of_mapM isTable isBranch, atIndex]

/-- All keys are numbers, and the switch has them with their arms. -/
theorem armEntries_constants {count : Nat} {branches : List (Expr × List Expr)}
    {entries : List (Nat × Word)}
    (isTable : branches.mapM (kTableEntry literals count) = some entries) :
    wildcardArms (branches.map Prod.fst) = [] ∧
      armEntries (literalValue literals) (branches.map Prod.fst) =
        some (entries.zipIdx.map fun entry => (entry.1.1, entry.2)) := by
  have notWild : ∀ entry ∈ (branches.map Prod.fst).zipIdx, isWildcardArm entry.1 = false := by
    intro ⟨key, index⟩ member
    have atIndex := List.mem_zipIdx_iff_getElem?.mp member
    rw [List.getElem?_map] at atIndex
    rcases Option.map_eq_some_iff.mp atIndex with ⟨branch, isBranch, rfl⟩
    rcases entry_of_branch isTable isBranch with ⟨entry, -, isEntry⟩
    rcases kTableEntry_some isEntry with ⟨text, ty, body, key, rfl, -⟩
    rfl
  constructor
  · rw [wildcardArms, List.map_eq_nil_iff, List.filter_eq_nil_iff]
    intro entry member
    rw [notWild entry member]
    exact Bool.false_ne_true
  · rw [armEntries, List.filter_eq_self.mpr fun entry member => by rw [notWild entry member]; rfl,
      mapM_eq_some_iff]
    apply List.ext_getElem?
    intro index
    simp only [List.getElem?_map, List.getElem?_zipIdx, Option.map_map]
    cases isBranch : branches[index]? with
    | none =>
        have outside : entries[index]? = none := by
          rw [List.getElem?_eq_none_iff, length_of_mapM isTable]
          exact List.getElem?_eq_none_iff.mp isBranch
        rw [outside]
        rfl
    | some branch =>
        rcases entry_of_branch isTable isBranch with ⟨entry, atIndex, isEntry⟩
        rcases kTableEntry_some isEntry with ⟨text, ty, body, key, rfl, isKey, sameKey, -⟩
        rw [atIndex]
        simp [literalValue, isKey, sameKey]

/-- The check goes to the arm with the discriminant's key. -/
theorem selectArm_constants (switch : Switch) {count : Nat} {branches : List (Expr × List Expr)}
    {entries : List (Nat × Word)}
    (isTable : branches.mapM (kTableEntry literals count) = some entries) (nonempty : branches ≠ [])
    (distinct : (entries.map Prod.fst).Nodup) :
    ∃ select, selectArm literals switch (branches.map Prod.fst) = some select ∧
      ∀ memory disc index, select memory disc = some index ↔
        (entries[index]?).map Prod.fst = some disc.toNat := by
  rcases armEntries_constants isTable with ⟨noWild, isEntries⟩
  let arms := entries.zipIdx.map fun entry => (entry.1.1, entry.2)
  have sameKeys : arms.map Prod.fst = entries.map Prod.fst := by
    rw [List.map_map]
    change entries.zipIdx.map (Prod.fst ∘ Prod.fst) = _
    rw [← List.map_map, List.zipIdx_map_fst]
  have once : (arms.map Prod.fst).Nodup := sameKeys ▸ distinct
  have narrow : ∀ entry ∈ arms, entry.1 < 2 ^ 64 := by
    intro entry member
    have isKey : entry.1 ∈ entries.map Prod.fst := sameKeys ▸ List.mem_map_of_mem member
    rcases List.mem_map.mp isKey with ⟨listed, isListed, same⟩
    rcases List.getElem?_of_mem isListed with ⟨index, atIndex⟩
    rcases branch_of_entry isTable atIndex with ⟨branch, -, isEntry⟩
    rcases kTableEntry_some isEntry with ⟨text, ty, body, key, -, -, sameKey, -⟩
    rw [← same, ← sameKey]
    exact key.isLt
  rcases switch.fits arms once narrow with ⟨table, emitted, compares⟩
  refine ⟨fun _ disc => (table disc).or none, ?_, fun memory disc index => ?_⟩
  · cases branches with
    | nil => exact absurd rfl nonempty
    | cons branch branches =>
        rcases entry_of_branch isTable (List.getElem?_cons_zero) with ⟨entry, -, isEntry⟩
        rcases kTableEntry_some isEntry with ⟨text, ty, body, key, rfl, -⟩
        have isFirst : (((Expr.num text ty, [body]) :: branches).map Prod.fst).find?
            (fun key => !isWildcardArm key) = some (.num text ty) := rfl
        rw [selectArm, isFirst, isEntries, noWild]
        change (switch.emit arms >>= fun table => _) = _
        rw [emitted]
        rfl
  · change (table disc).or none = some index ↔ _
    rw [Option.or_none, compares, lookup_eq_some_iff_mem once, List.mem_map]
    constructor
    · rintro ⟨⟨entry, number⟩, member, same⟩
      rcases Prod.mk.inj same with ⟨isKey, rfl⟩
      rw [List.mem_zipIdx_iff_getElem?.mp member, ← isKey]
      rfl
    · intro atIndex
      rcases Option.map_eq_some_iff.mp atIndex with ⟨entry, isEntry, same⟩
      exact ⟨(entry, index), List.mem_zipIdx_iff_getElem?.mpr isEntry, by rw [← same]⟩

/-- The table has the constant of the arm with the discriminant's key, and no others. -/
theorem table_constants {branches : List (Expr × List Expr)} {entries : List (Nat × Word)}
    {values : List Word} (isTable : branches.mapM (kTableEntry literals branches.length) = some entries)
    (distinct : (entries.map Prod.fst).Nodup)
    (isValues : (List.range branches.length).mapM (fun key => entries.lookup key) = some values)
    (disc : Nat) (value : Word) : values[disc]? = some value ↔ (disc, value) ∈ entries := by
  rw [← lookup_eq_some_iff_mem distinct]
  have sameLength : values.length = branches.length := by
    rw [length_of_mapM isValues, List.length_range]
  by_cases inside : disc < branches.length
  · have atDisc : (List.range branches.length)[disc]? = some disc := List.getElem?_range inside
    rw [← getElem?_of_mapM isValues atDisc]
  · have outside : values[disc]? = none := List.getElem?_eq_none (by omega)
    rw [outside]
    refine iff_of_false nofun fun found => ?_
    rw [lookup_eq_some_iff_mem distinct] at found
    rcases List.getElem?_of_mem found with ⟨index, atIndex⟩
    rcases branch_of_entry isTable atIndex with ⟨branch, -, isEntry⟩
    rcases kTableEntry_some isEntry with ⟨text, ty, body, key, -, -, sameKey, low, high, -⟩
    have number := BitVec.toInt_eq_toNat_cond key
    have bound := key.isLt
    dsimp only at sameKey
    split at number <;> omega

/-- A value that is no index of the table has no entry. -/
theorem no_constant_outside {branches : List (Expr × List Expr)} {entries : List (Nat × Word)}
    {values : List Word} (isTable : branches.mapM (kTableEntry literals branches.length) = some entries)
    (distinct : (entries.map Prod.fst).Nodup)
    (isValues : (List.range branches.length).mapM (fun key => entries.lookup key) = some values)
    {disc : Word} (outside : disc.toInt < 0 ∨ values.length ≤ disc.toInt) :
    values[disc.toNat]? = none := by
  rw [length_of_mapM isValues, List.length_range] at outside
  rw [Option.eq_none_iff_forall_ne_some]
  intro value found
  have member := (table_constants isTable distinct isValues _ _).mp found
  rcases List.getElem?_of_mem member with ⟨index, atIndex⟩
  rcases branch_of_entry isTable atIndex with ⟨branch, -, isEntry⟩
  rcases kTableEntry_some isEntry with ⟨text, ty, body, key, -, -, sameKey, low, high, -⟩
  have isDisc : key = disc := BitVec.eq_of_toNat_eq sameKey
  rw [← isDisc] at outside
  omega

/-- The check goes to an arm whose constant the table has, or to none where the table has none. -/
theorem arm_of_disc {branches : List (Expr × List Expr)} {entries : List (Nat × Word)}
    {values : List Word} {results : List (Option Word)} {select : Memory → Word → Option Nat}
    (isTable : branches.mapM (kTableEntry literals branches.length) = some entries)
    (distinct : (entries.map Prod.fst).Nodup)
    (isValues : (List.range branches.length).mapM (fun key => entries.lookup key) = some values)
    (evaluates : Evaluates entries results)
    (selects : ∀ memory disc index, select memory disc = some index ↔
      (entries[index]?).map Prod.fst = some disc.toNat) (disc : Word) :
    ∃ arm, (∀ memory, select memory disc = arm) ∧
      (arm = none → values[disc.toNat]? = none) ∧
      ∀ index, arm = some index → ∃ value result, values[disc.toNat]? = some value ∧
        results[index]? = some result ∧ (result = none ∨ result = some value) := by
  have isValue := table_constants isTable distinct isValues
  refine ⟨select (fun _ => []) disc, fun memory => ?_, fun unmatched => ?_, fun index chosen => ?_⟩
  · apply Option.ext
    intro index
    rw [selects, selects]
  · rw [Option.eq_none_iff_forall_ne_some]
    intro value found
    rcases List.getElem?_of_mem ((isValue _ _).mp found) with ⟨index, atIndex⟩
    have chosen : select (fun _ => []) disc = some index := by
      rw [selects, atIndex]
      rfl
    rw [unmatched] at chosen
    cases chosen
  · rcases Option.map_eq_some_iff.mp ((selects _ _ _).mp chosen) with ⟨entry, atIndex, isKey⟩
    rcases result_of_entry evaluates atIndex with ⟨result, atResult, isResult⟩
    refine ⟨entry.2, result, (isValue _ _).mpr ?_, atResult, isResult⟩
    rw [← isKey]
    exact List.mem_of_getElem? atIndex

/-! ## The two codes -/

/-- The check block of a `when`, its arms and what leads behind it. -/
def ordinaryCode (rt : RtFuncs W) (select : Memory → Word → Option Nat) (done : Nat)
    (arms : Emitted W) : Code W :=
  [(done, whenBlock rt select arms.starts arms.nextId)] ++ arms.code ++
    arms.redirects.map fun exit => (exit, redirectBlock arms.nextId)

theorem mem_ordinaryCode {select : Memory → Word → Option Nat} {done : Nat} {scope : Scope}
    {results : List (Option Word)} {number : Nat} {block : Block W} :
    (number, block) ∈ ordinaryCode rt select done (constantArms rt scope (done + 1) results) ↔
      (number = done ∧ block = whenBlock rt select (constantArms rt scope (done + 1) results).starts
          (done + 1 + 2 * results.length)) ∨
        (∃ index result, results[index]? = some result ∧ number = done + 1 + 2 * index ∧
          block = evalBlock rt (fun _ => result) number) ∨
        ∃ index < results.length, number = done + 1 + 2 * index + 1 ∧
          block = redirectBlock (done + 1 + 2 * results.length) := by
  rw [ordinaryCode, nextId_constantArms, List.mem_append, List.mem_append, or_assoc,
    List.mem_singleton, Prod.mk.injEq, mem_code_constantArms, List.mem_map]
  refine or_congr_right (or_congr_right ⟨?_, ?_⟩)
  · rintro ⟨exit, isRedirect, same⟩
    cases same
    rcases mem_redirects_constantArms.mp isRedirect with ⟨index, inside, isNumber⟩
    exact ⟨index, inside, isNumber, rfl⟩
  · rintro ⟨index, inside, isNumber, rfl⟩
    exact ⟨number, mem_redirects_constantArms.mpr ⟨index, inside, isNumber⟩, rfl⟩

/-- Where an actor is that has come to the check with a discriminant for an arm or for none. -/
inductive Dispatched (done : Nat) (results : List (Option Word)) (arm : Option Nat)
    (exec : ExecCtx W) (point : Point W) : Prop where
  | check (atCheck : point.blockId = done) (ran : OthersRan (.goto (done + 1)) exec point.ctx)
  | body {index : Nat} (chosen : arm = some index) (atBody : point.blockId = done + 1 + 2 * index)
      (ran : OthersRan (.goto (done + 1)) exec point.ctx)
  | exit {index : Nat} {value : Word} (chosen : arm = some index)
      (isValue : results[index]? = some (some value))
      (atExit : point.blockId = done + 1 + 2 * index + 1)
      (ran : OthersRan (.goto (done + 1)) (exec.setTemp value) point.ctx)
  | behind {index : Nat} {value : Word} (chosen : arm = some index)
      (isValue : results[index]? = some (some value))
      (atEnd : point.blockId = done + 1 + 2 * results.length)
      (ran : OthersRan (.goto (done + 1)) (exec.setTemp value) point.ctx)
  | noArm (unmatched : arm = none) (atEnd : point.blockId = done + 1 + 2 * results.length)
      (ran : OthersRan (.goto (done + 1)) exec point.ctx)

/-- Run a block of the check, of an arm or behind it. -/
theorem Dispatched.step {select : Memory → Word → Option Nat} {done : Nat} {scope : Scope}
    {results : List (Option Word)} {arm : Option Nat} {exec : ExecCtx W} {current next : Point W}
    {label : Exit} (selects : ∀ memory, select memory exec.actor.tempVal = arm)
    (inside : ∀ index, arm = some index → index < results.length)
    (dispatched : Dispatched done results arm exec current)
    (step : BlockStep rt (ordinaryCode rt select done (constantArms rt scope (done + 1) results))
      current label next) : Dispatched done results arm exec next := by
  rcases step with ⟨block, member, ran⟩
  cases ran with
  | @block number target ctx after resumed _ runs alive resumes others =>
  rcases mem_ordinaryCode.mp member with ⟨isNumber, rfl⟩ | ⟨index, result, isResult, isNumber, rfl⟩ |
    ⟨index, small, isNumber, rfl⟩
  · cases runs
    rcases Option.some.inj resumes with rfl
    cases dispatched with
    | check _ ran =>
        have kept := ran.trans others fun _ => rfl
        have same : ctx.actor.tempVal = exec.actor.tempVal := ran.tempVal rfl
        rw [same, selects]
        cases arm with
        | none => exact .noArm rfl rfl kept
        | some index =>
            refine .body rfl ?_ kept
            rw [Option.bind_some, starts_constantArms, if_pos (inside index rfl)]
            rfl
    | body chosen atBody _ | exit chosen _ atBody _ =>
        dsimp only at atBody isNumber
        omega
    | behind _ _ atEnd _ | noArm _ atEnd _ =>
        dsimp only at atEnd isNumber
        omega
  · have isLower : index < results.length := (List.getElem?_eq_some_iff.mp isResult).1
    dsimp only at isNumber
    cases dispatched with
    | check atCheck _ =>
        dsimp only at atCheck
        omega
    | @body other chosen atBody ran =>
        dsimp only at atBody
        rcases by omega with rfl : index = other
        cases result with
        | none =>
            cases runs
            cases resumes
        | some value =>
            cases runs
            rcases Option.some.inj resumes with rfl
            refine .exit chosen isResult (congrArg (· + 1) isNumber) ?_
            exact (ran.setTemp value).trans others fun _ => rfl
    | exit _ _ atExit _ =>
        dsimp only at atExit
        omega
    | behind _ _ atEnd _ | noArm _ atEnd _ =>
        dsimp only at atEnd
        omega
  · dsimp only at isNumber
    cases runs
    rcases Option.some.inj resumes with rfl
    cases dispatched with
    | check atCheck _ =>
        dsimp only at atCheck
        omega
    | body _ atBody _ =>
        dsimp only at atBody
        omega
    | exit chosen isValue _ ran => exact .behind chosen isValue rfl (ran.trans others fun _ => rfl)
    | behind _ _ atEnd _ | noArm _ atEnd _ =>
        dsimp only at atEnd
        omega

/-- Where the actor comes behind the `when`, it is the one that the table leaves. -/
theorem Dispatched.left {done : Nat} {results : List (Option Word)} {arm : Option Nat}
    {exec left : ExecCtx W} {point : Point W} (dispatched : Dispatched done results arm exec point)
    (atEnd : point.blockId = done + 1 + 2 * results.length)
    (inside : ∀ index, arm = some index → index < results.length)
    (some' : ∀ index value, arm = some index → results[index]? = some (some value) →
      left = exec.setTemp value)
    (none' : arm = none → left = exec) : OthersRan (.goto (done + 1)) left point.ctx := by
  cases dispatched with
  | check atCheck _ => omega
  | body chosen atBody _ | exit chosen _ atBody _ =>
      have small := inside _ chosen
      omega
  | behind chosen isValue _ ran =>
      rw [some' _ _ chosen isValue]
      exact ran
  | noArm unmatched _ ran =>
      rw [none' unmatched]
      exact ran

/-- The check, the arm and the block behind it run one after the other. -/
theorem ordinary_run {select : Memory → Word → Option Nat} {done : Nat} (scope : Scope)
    {results : List (Option Word)} {arm : Option Nat} {exec : ExecCtx W}
    (selects : ∀ memory, select memory exec.actor.tempVal = arm)
    (alive : rt.isDying exec.world = false) :
    (arm = none → ∃ history,
      Run (BlockStep rt (ordinaryCode rt select done (constantArms rt scope (done + 1) results)))
        ⟨done, exec⟩ history ⟨done + 1 + 2 * results.length, exec⟩) ∧
    ∀ index value, arm = some index → results[index]? = some (some value) → ∃ history,
      Run (BlockStep rt (ordinaryCode rt select done (constantArms rt scope (done + 1) results)))
        ⟨done, exec⟩ history ⟨done + 1 + 2 * results.length, exec.setTemp value⟩ := by
  let arms : Emitted W := constantArms rt scope (done + 1) results
  have step : ∀ {number next before after} {block : Block W},
      (number, block) ∈ ordinaryCode rt select done arms →
      block before = (after, .goto next) → rt.isDying after.world = false →
      BlockStep rt (ordinaryCode rt select done arms) ⟨number, before⟩ (.goto next) ⟨next, after⟩ :=
    fun member runs alive => ⟨_, member, .block runs alive rfl (.refl _ _)⟩
  have check : (done, whenBlock rt select arms.starts (done + 1 + 2 * results.length)) ∈
      ordinaryCode rt select done arms := mem_ordinaryCode.mpr (.inl ⟨rfl, rfl⟩)
  constructor
  · rintro rfl
    refine ⟨_, Run.refl.next (step check ?_ alive)⟩
    rw [whenBlock, selects]
    rfl
  · rintro index value rfl isValue
    have small : index < results.length := (List.getElem?_eq_some_iff.mp isValue).1
    have isStart : arms.starts[index]? = some (done + 1 + 2 * index) := by
      rw [starts_constantArms, if_pos small]
    have enters : BlockStep rt (ordinaryCode rt select done arms) ⟨done, exec⟩
        (.goto (done + 1 + 2 * index)) ⟨done + 1 + 2 * index, exec⟩ := by
      apply step check _ alive
      rw [whenBlock, selects, Option.bind_some, isStart]
      rfl
    have evaluates : BlockStep rt (ordinaryCode rt select done arms) ⟨done + 1 + 2 * index, exec⟩
        (.goto (done + 1 + 2 * index + 1)) ⟨done + 1 + 2 * index + 1, exec.setTemp value⟩ :=
      step (mem_ordinaryCode.mpr (.inr (.inl ⟨index, _, isValue, rfl, rfl⟩))) rfl alive
    have leaves := step (mem_ordinaryCode.mpr (.inr (.inr ⟨index, small, rfl, rfl⟩)))
      (Eq.refl (redirectBlock (done + 1 + 2 * results.length) (exec.setTemp value))) alive
    exact ⟨_, ((Run.refl.next enters).next evaluates).next leaves⟩

/-! ## Tables -/

/-- The block of the arm that the check goes to traps. -/
def ArmTraps (select : Memory → Word → Option Nat) (arms : Emitted W) (exec : ExecCtx W) : Prop :=
  ∃ memory index start block, select memory exec.actor.tempVal = some index ∧
    arms.starts[index]? = some start ∧ (start, block) ∈ arms.code ∧ (block exec).2 = .trap

/-- A table and the code that it stands for do the same. Its constants are what the arms'
expressions come to, other discriminants change nothing, and the actor is left behind the
`when` as the ordinary code leaves it. -/
theorem k_table_refines {branches : List (Expr × List Expr)} {values : List Word}
    (table : tryBuildKTable ctx.toLiterals branches = some values) :
    (∀ branch ∈ branches, ∃ body value, branch.2 = [body] ∧
      constFoldI64 ctx.toLiterals body = some value ∧
      ∀ selfPid state, ∃ folded, foldWithSelf ctx.toLiterals selfPid state body = some folded ∧
        ∀ view, folded view = none ∨ folded view = some value) ∧
    ∀ (scope : Scope) (done : Nat), ∃ arms select,
      compileArms rt ctx (done + 1) scope branches = some arms ∧
      selectArm ctx.toLiterals ctx.switch (branches.map Prod.fst) = some select ∧
      ∀ exec : ExecCtx W, ∃ left, kTableBlock values (done + 1) exec = (left, .goto (done + 1)) ∧
        (exec.actor.tempVal.toInt < 0 ∨ values.length ≤ exec.actor.tempVal.toInt → left = exec) ∧
        (∀ history final,
          Run (BlockStep rt (ordinaryCode rt select done arms)) ⟨done, exec⟩ history final →
          final.blockId = arms.nextId → OthersRan (.goto (done + 1)) left final.ctx) ∧
        (¬ ArmTraps select arms exec → rt.isDying exec.world = false → ∃ history,
          Run (BlockStep rt (ordinaryCode rt select done arms)) ⟨done, exec⟩ history
            ⟨arms.nextId, left⟩) := by
  rw [tryBuildKTable] at table
  split at table
  · cases table
  rename_i several
  rcases bind_some table with ⟨entries, isTable, table⟩
  split at table
  case isFalse => cases table
  rename_i distinct
  constructor
  · intro branch member
    rcases List.getElem?_of_mem member with ⟨index, atIndex⟩
    rcases entry_of_branch isTable atIndex with ⟨entry, -, isEntry⟩
    rcases kTableEntry_some isEntry with ⟨text, ty, body, key, rfl, -, -, -, -, constant⟩
    refine ⟨body, entry.2, rfl, constant, fun selfPid state => ?_⟩
    rcases folds_constant constant selfPid state with ⟨result, folds, isResult⟩
    exact ⟨_, folds, fun _ => isResult⟩
  · intro scope done
    have nonempty : branches ≠ [] := by
      rintro rfl
      exact several (by decide)
    rcases compileArms_constants rt isTable scope with ⟨results, evaluates, compiled⟩
    rcases selectArm_constants ctx.switch isTable nonempty distinct with ⟨select, selected, selects⟩
    refine ⟨_, select, compiled (done + 1), selected, fun exec => ⟨_, rfl, ?_⟩⟩
    rcases arm_of_disc isTable distinct table evaluates selects exec.actor.tempVal with
      ⟨arm, sameArm, ofNone, ofSome⟩
    have inside : ∀ index, arm = some index → index < results.length := by
      intro index chosen
      rcases ofSome index chosen with ⟨-, result, -, atResult, -⟩
      exact (List.getElem?_eq_some_iff.mp atResult).1
    have unchanged : values[exec.actor.tempVal.toNat]? = none →
        exec.setTemp (values[exec.actor.tempVal.toNat]?.getD exec.actor.tempVal) = exec := by
      intro noValue
      rw [noValue]
      rfl
    have changed : ∀ index value, arm = some index → results[index]? = some (some value) →
        exec.setTemp (values[exec.actor.tempVal.toNat]?.getD exec.actor.tempVal) =
          exec.setTemp value := by
      intro index value chosen atResult
      rcases ofSome index chosen with ⟨constant, result, found, same, isResult⟩
      rw [atResult] at same
      cases same
      rw [found, Option.some.inj (isResult.resolve_left nofun)]
      rfl
    rw [nextId_constantArms]
    refine ⟨fun outside => unchanged (no_constant_outside isTable distinct table outside), ?_, ?_⟩
    · intro history final run atEnd
      have initially : Dispatched done results arm exec ⟨done, exec⟩ := .check rfl (.refl _ _)
      have dispatched := (run.invariant initially fun _ _ _ reached step =>
        reached.step sameArm inside step).2
      exact dispatched.left atEnd inside changed fun unmatched => unchanged (ofNone unmatched)
    · intro noTrap alive
      rcases ordinary_run scope sameArm alive with ⟨behind, through⟩
      cases chosen : arm with
      | none =>
          rw [unchanged (ofNone chosen)]
          exact behind chosen
      | some index =>
          rcases ofSome index chosen with ⟨value, result, -, atResult, isResult⟩
          cases result with
          | none =>
              refine absurd ⟨fun _ => [], index, done + 1 + 2 * index, _, (sameArm _).trans chosen, ?_,
                mem_code_constantArms.mpr ⟨index, none, atResult, rfl, rfl⟩, rfl⟩ noTrap
              rw [starts_constantArms, if_pos (inside index chosen)]
          | some constant =>
              rw [changed index constant chosen atResult]
              exact through index constant chosen atResult

/-- A program with the literals `0` and `1`. -/
def zeroAndOne : CompilerCtx :=
  { CompilerCtx.bare with
    parseInt := fun text => if text = "0" then some 0 else if text = "1" then some 1 else none }

/-- `when` with the arms `1 -> -1` and `0 -> 1 << 1`. -/
def swappedArms : List (Expr × List Expr) :=
  [(.num "1" (.plain "i64"), [.neg (.num "1" (.plain "i64"))]),
    (.num "0" (.plain "i64"),
      [.binary .shl (.num "1" (.plain "i64")) (.num "1" (.plain "i64"))])]

theorem k_table_swapped : tryBuildKTable zeroAndOne.toLiterals swappedArms = some [2, -1] ∧
    ∃ (arms : Emitted Unit) (select : Memory → Word → Option Nat),
      compileArms RtFuncs.idle zeroAndOne 1 ⟨⟨[]⟩, [], 0⟩ swappedArms = some arms ∧
      arms.nextId = 5 ∧
      ∀ exec : ExecCtx Unit, exec.actor.tempVal = 1 → ∀ history final,
        Run (BlockStep RtFuncs.idle (ordinaryCode RtFuncs.idle select 0 arms)) ⟨0, exec⟩ history final →
        final.blockId = 5 → final.ctx.actor.tempVal = -1 := by
  have table : tryBuildKTable zeroAndOne.toLiterals swappedArms = some [2, -1] := by decide
  have refines := @k_table_refines Unit RtFuncs.idle zeroAndOne _ _ table
  rcases refines.2 ⟨⟨[]⟩, [], 0⟩ 0 with ⟨arms, select, compiled, -, same⟩
  have nextId : arms.nextId = 5 := by
    have isNext : (compileArms RtFuncs.idle zeroAndOne 1 ⟨⟨[]⟩, [], 0⟩ swappedArms).map
        Emitted.nextId = some 5 := by decide
    rw [compiled] at isNext
    exact Option.some.inj isNext
  refine ⟨table, arms, select, compiled, nextId, fun exec isOne history final run atEnd => ?_⟩
  rcases same exec with ⟨left, isLeft, -, ends, -⟩
  have temp := (ends history final run (atEnd.trans nextId.symm)).tempVal rfl
  rw [temp]
  rw [kTableBlock, isOne] at isLeft
  cases isLeft
  rfl

end LakeNative.Control

import LakeNative.Compiler.FoldPlaces

/-! # The operands of a fold

The places that fold expressions find out first which operands they need. Some look past an
`[ ]` or a call, and some do not look for `self` at all, so that the compiler can stop at an
expression that it has accepted as pure.
-/

namespace LakeNative.Control

open LakeNative.Runtime LakeNative.Compiler

/-! ## What a fold needs -/

/-- A name that `leaf` accepts stands where the fold comes to it. -/
def demands (leaf : String → Bool) : Expr → Bool
  | .var name _ => leaf name
  | .neg inner => demands leaf inner
  | .tupleIndex receiver _ => demands leaf receiver
  | .index receiver index => demands leaf receiver || demands leaf index
  | .binary _ left right => demands leaf left || demands leaf right
  | .jump _ (pointer :: offset :: _) => demands leaf pointer || demands leaf offset
  | _ => false

/-- All loads that the fold comes to have their two arguments. -/
def loadsComplete : Expr → Bool
  | .neg inner => loadsComplete inner
  | .tupleIndex receiver _ => loadsComplete receiver
  | .index receiver index => loadsComplete receiver && loadsComplete index
  | .binary _ left right => loadsComplete left && loadsComplete right
  | .jump _ (pointer :: offset :: _) => loadsComplete pointer && loadsComplete offset
  | .jump _ _ => false
  | _ => true

/-- All variables in the expression have slots. -/
def InScope (state : BranchState) (expr : Expr) : Prop :=
  ∀ name, name ≠ "self" → mentions true true (· == name) expr = true → (state.get name).isSome = true

/-- The parts of an expression are in scope where it is. -/
theorem InScope.part {state : BranchState} {expr part : Expr} (inScope : InScope state expr)
    (isPart : ∀ leaf, mentions true true leaf part = true → mentions true true leaf expr = true) :
    InScope state part := fun name notSelf mentioned =>
  inScope name notSelf (isPart _ mentioned)

/-- Where two parts are folded, the operands of both are needed. -/
theorem folds_both {varsStart selfPid firstFolds secondFolds firstComplete secondComplete firstVar
    secondVar firstSelf secondSelf : Bool}
    (first : firstFolds = true ↔ firstComplete = true ∧ (firstVar = true → varsStart = true) ∧
      (firstSelf = true → selfPid = true))
    (second : secondFolds = true ↔ secondComplete = true ∧ (secondVar = true → varsStart = true) ∧
      (secondSelf = true → selfPid = true)) :
    (firstFolds && secondFolds) = true ↔ (firstComplete && secondComplete) = true ∧
      ((firstVar || secondVar) = true → varsStart = true) ∧
      ((firstSelf || secondSelf) = true → selfPid = true) := by
  simp only [Bool.and_eq_true, Bool.or_eq_true, or_imp, first, second]
  constructor
  · rintro ⟨⟨complete, vars, self⟩, alsoComplete, alsoVars, alsoSelf⟩
    exact ⟨⟨complete, alsoComplete⟩, ⟨vars, alsoVars⟩, self, alsoSelf⟩
  · rintro ⟨⟨complete, alsoComplete⟩, ⟨vars, alsoVars⟩, self, alsoSelf⟩
    exact ⟨⟨complete, vars, self⟩, alsoComplete, alsoVars, alsoSelf⟩

/-- A fold of a pure expression comes to its end exactly if it has the operands it needs. -/
theorem folds_iff {varsStart selfPid : Bool} {state : BranchState} {expr : Expr}
    (accepted : isPure expr = true) (inScope : InScope state expr) :
    folds varsStart selfPid state expr = true ↔
      loadsComplete expr = true ∧ (demands isVariable expr = true → varsStart = true) ∧
        (demands isSelf expr = true → selfPid = true) := by
  fun_induction folds varsStart selfPid state expr with
  | case1 | case2 | case3 => simp [loadsComplete, demands]
  | case4 ty => simp [loadsComplete, demands, isVariable, isSelf]
  | case5 name ty notSelf =>
      have hasSlot := inScope name notSelf (by simp [mentions])
      simp [loadsComplete, demands, isVariable, isSelf, notSelf, hasSlot]
  | case6 receiver index induction =>
      rw [isPure] at accepted
      exact induction accepted (inScope.part fun leaf => by simp only [mentions, imp_self])
  | case7 receiver index first second =>
      rw [isPure, Bool.and_eq_true] at accepted
      refine folds_both (first accepted.1 (inScope.part fun leaf mentioned => ?_))
        (second accepted.2 (inScope.part fun leaf mentioned => ?_))
      · simp [mentions, mentioned]
      · simp [mentions, mentioned]
  | case8 op left right first second =>
      rw [isPure, Bool.and_eq_true] at accepted
      refine folds_both (first accepted.1 (inScope.part fun leaf mentioned => ?_))
        (second accepted.2 (inScope.part fun leaf mentioned => ?_))
      · simp [mentions, mentioned]
      · simp [mentions, mentioned]
  | case9 inner induction =>
      rw [isPure] at accepted
      exact induction accepted (inScope.part fun leaf => by simp only [mentions, imp_self])
  | case10 callee ty pointer offset others first second =>
      rw [isPure, Bool.and_eq_true, allPure, allPure, Bool.and_eq_true, Bool.and_eq_true] at accepted
      rw [isSchedulerSafeRtFn] at accepted
      rw [accepted.1, Bool.true_and]
      refine folds_both (first accepted.2.1 (inScope.part fun leaf mentioned => ?_))
        (second accepted.2.2.1 (inScope.part fun leaf mentioned => ?_))
      · simp [mentions, anyMentions, mentioned]
      · simp [mentions, anyMentions, mentioned]
  | case11 expr noNum noBool noAtom noVar noField noIndex noBinary noNeg noLoad =>
      -- What is left of the pure expressions is a load that lacks an argument.
      apply iff_of_false Bool.false_ne_true
      rintro ⟨complete, -⟩
      cases expr with
      | jump function args =>
          cases args with
          | nil => simp [loadsComplete] at complete
          | cons pointer rest =>
              cases rest with
              | nil => simp [loadsComplete] at complete
              | cons offset others =>
                  cases function with
                  | var callee ty => exact noLoad callee ty pointer offset others rfl
                  | _ => simp [isPure] at accepted
      | num => exact noNum _ _ rfl
      | bool => exact noBool _ rfl
      | atom => exact noAtom _ rfl
      | var => exact noVar _ _ rfl
      | tupleIndex => exact noField _ _ rfl
      | index => exact noIndex _ _ rfl
      | binary => exact noBinary _ _ _ rfl
      | neg => exact noNeg _ rfl
      | _ => simp [isPure] at accepted

/-- What the fold comes to stands in the expression. -/
theorem mentions_of_demands {leaf : String → Bool} {expr : Expr}
    (demanded : demands leaf expr = true) : mentions true true leaf expr = true := by
  fun_induction demands leaf expr with
  | case1 name ty => exact demanded
  | case2 inner induction => exact induction demanded
  | case3 receiver index induction => exact induction demanded
  | case4 receiver index first second | case5 op left right first second =>
      rw [Bool.or_eq_true] at demanded
      simp only [mentions, Bool.true_and, Bool.or_eq_true]
      exact demanded.imp first second
  | case6 function pointer offset others first second =>
      rw [Bool.or_eq_true] at demanded
      simp only [mentions, anyMentions, Bool.true_and, Bool.or_eq_true]
      exact demanded.elim (Or.inl ∘ first) (fun inOffset => .inr (.inl (second inOffset)))
  | case7 => cases demanded

/-! ## The places -/

/-- If a name that `leaf` accepts stands in the expression at all, then one stands outside every
`[ ]`, and outside every call unless told otherwise. -/
def StandsOutside (inCalls : Bool) (leaf : String → Bool) (expr : Expr) : Prop :=
  mentions true true leaf expr = true → mentions false inCalls leaf expr = true

/-- Where the names of an expression have to stand for the place to find them. -/
def Visible : FoldPlace → Expr → Prop
  | .statement _, expr => StandsOutside true isSelf expr
  | .pureLet _, expr => StandsOutside false isSelf expr
  | .tuple _, expr => StandsOutside false isVariable expr ∧ StandsOutside false isSelf expr
  | .fusedSelfCall _, expr | .fusedRtCall _, expr | .waitFilter _, expr | .unrolledLoop _, expr =>
      demands isSelf expr = false

/-- The place folds all its expressions, and its predicates are true of every expression in
which one of their names stands. -/
def PredicatesAgree (state : BranchState) (place : FoldPlace) : Prop :=
  ∀ expr ∈ place.folded, folds place.varsStart place.selfPid state expr = true ∧
    ∀ predicate ∈ place.predicates, mentions true true predicate.1 expr = true →
      predicate.2 expr = true

/-- Where a place asks predicates, they are true of what they should be exactly if the names are
visible. -/
theorem predicates_iff (place : FoldPlace) (expr : Expr) (asks : place.predicates ≠ []) :
    (∀ predicate ∈ place.predicates, mentions true true predicate.1 expr = true →
      predicate.2 expr = true) ↔ Visible place expr := by
  cases place with
  | statement | pureLet =>
      simp [FoldPlace.predicates, Visible, StandsOutside, hasVar, hasSelf, pureExprUsesVars,
        pureExprUsesSelf]
  | tuple =>
      simp [FoldPlace.predicates, Visible, StandsOutside, referencesVar, referencesSelf]
  | fusedSelfCall | fusedRtCall | waitFilter | unrolledLoop => exact absurd rfl asks

/-- A place that asks predicates supplies the variables if one is found in what it folds. -/
theorem varsStart_of_predicate {place : FoldPlace} {expr : Expr} (folded : expr ∈ place.folded)
    (found : ∀ predicate ∈ place.predicates, mentions true true predicate.1 expr = true →
      predicate.2 expr = true)
    (mentioned : mentions true true isVariable expr = true) : place.varsStart = true := by
  cases place with
  | statement | pureLet =>
      rcases List.mem_singleton.mp folded with rfl
      exact found _ (List.mem_cons_self ..) mentioned
  | tuple elems =>
      exact List.any_eq_true.mpr
        ⟨expr, (List.mem_filter.mp folded).1, found _ (List.mem_cons_self ..) mentioned⟩
  | fusedSelfCall | fusedRtCall | waitFilter | unrolledLoop => rfl

/-- It supplies the pid if `self` is found there. -/
theorem selfPid_of_predicate {place : FoldPlace} {expr : Expr} (folded : expr ∈ place.folded)
    (asks : place.predicates ≠ [])
    (found : ∀ predicate ∈ place.predicates, mentions true true predicate.1 expr = true →
      predicate.2 expr = true)
    (mentioned : mentions true true isSelf expr = true) : place.selfPid = true := by
  cases place with
  | statement | pureLet =>
      rcases List.mem_singleton.mp folded with rfl
      exact found _ (List.mem_cons_of_mem _ (List.mem_cons_self ..)) mentioned
  | tuple elems =>
      exact List.any_eq_true.mpr ⟨expr, (List.mem_filter.mp folded).1,
        found _ (List.mem_cons_of_mem _ (List.mem_cons_self ..)) mentioned⟩
  | fusedSelfCall | fusedRtCall | waitFilter | unrolledLoop => exact absurd rfl asks

/-- A place that asks no predicates supplies the variables and never the pid. -/
theorem operands_of_no_predicates {place : FoldPlace} (asksNone : place.predicates = []) :
    place.varsStart = true ∧ place.selfPid = false := by
  cases place with
  | statement | pureLet | tuple => cases asksNone
  | fusedSelfCall | fusedRtCall | waitFilter | unrolledLoop => exact ⟨rfl, rfl⟩

theorem visible_of_no_predicates {place : FoldPlace} (asksNone : place.predicates = [])
    (expr : Expr) : Visible place expr ↔ demands isSelf expr = false := by
  cases place with
  | statement | pureLet | tuple => cases asksNone
  | fusedSelfCall | fusedRtCall | waitFilter | unrolledLoop => exact .rfl

/-- A place's predicates agree at one of its expressions exactly if the expression's loads are
complete and its names visible. -/
theorem agree_iff {place : FoldPlace} {state : BranchState} {expr : Expr}
    (folded : expr ∈ place.folded) (accepted : isPure expr = true)
    (inScope : InScope state expr) :
    (folds place.varsStart place.selfPid state expr = true ∧ ∀ predicate ∈ place.predicates,
      mentions true true predicate.1 expr = true → predicate.2 expr = true) ↔
      loadsComplete expr = true ∧ Visible place expr := by
  rw [folds_iff accepted inScope]
  by_cases asksNone : place.predicates = []
  · rcases operands_of_no_predicates asksNone with ⟨vars, noPid⟩
    rw [visible_of_no_predicates asksNone, asksNone, vars, noPid]
    simp
  · rw [predicates_iff place expr asksNone]
    constructor
    · rintro ⟨⟨complete, -⟩, visible⟩
      exact ⟨complete, visible⟩
    · rintro ⟨complete, visible⟩
      have found := (predicates_iff place expr asksNone).mpr visible
      refine ⟨⟨complete, fun demanded => ?_, fun demanded => ?_⟩, visible⟩
      · exact varsStart_of_predicate folded found (mentions_of_demands demanded)
      · exact selfPid_of_predicate folded asksNone found (mentions_of_demands demanded)

/-- A place agrees with the fold on pure expressions in scope exactly if their loads are
complete and their names stand where the place looks. -/
theorem predicates_agree_iff (place : FoldPlace) (state : BranchState)
    (accepted : ∀ expr ∈ place.folded, isPure expr = true)
    (inScope : ∀ expr ∈ place.folded, InScope state expr) :
    PredicatesAgree state place ↔
      ∀ expr ∈ place.folded, loadsComplete expr = true ∧ Visible place expr := by
  apply forall₂_congr
  intro expr folded
  exact agree_iff folded (accepted expr folded) (inScope expr folded)

/-! ## A byte in a tuple -/

/-- `buf[i]` -/
def byteAt : Expr := .index (.var "buf" .unknown) (.var "i" .unknown)

def byteScope : BranchState := ⟨[("i", 1), ("buf", 0)]⟩

theorem byteAt_inScope : InScope byteScope byteAt := by
  intro name notSelf mentioned
  simp only [byteAt, mentions, Bool.true_and, Bool.or_eq_true, beq_iff_eq] at mentioned
  rcases mentioned with rfl | rfl
  · decide
  · decide

/-- The tuple of a byte is folded without a start of the variables. -/
theorem byte_tuple_stops : isPure byteAt = true ∧ InScope byteScope byteAt ∧
    folds (FoldPlace.tuple [byteAt]).varsStart (FoldPlace.tuple [byteAt]).selfPid byteScope
      byteAt = false ∧
    ¬ PredicatesAgree byteScope (.tuple [byteAt]) := by
  have stops : folds (FoldPlace.tuple [byteAt]).varsStart (FoldPlace.tuple [byteAt]).selfPid
      byteScope byteAt = false := by decide
  refine ⟨by decide, byteAt_inScope, stops, ?_⟩
  intro agree
  have folds := (agree byteAt (List.mem_singleton.mpr rfl)).1
  rw [stops] at folds
  cases folds

theorem predicates_agree_iff_byte : PredicatesAgree byteScope (.statement byteAt) ↔
    ∀ expr ∈ (FoldPlace.statement byteAt).folded,
      loadsComplete expr = true ∧ Visible (.statement byteAt) expr := by
  have only : ∀ expr ∈ (FoldPlace.statement byteAt).folded, expr = byteAt :=
    fun expr => List.mem_singleton.mp
  refine predicates_agree_iff (.statement byteAt) byteScope ?_ ?_
  · intro expr folded
    rw [only expr folded]
    decide
  · intro expr folded
    rw [only expr folded]
    exact byteAt_inScope

end LakeNative.Control

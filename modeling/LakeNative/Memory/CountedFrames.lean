import LakeNative.Memory.VariableFrame

/-! # Frames that are counted

Where every `wait` of a branch is counted, the pre-pass counts the branch's bindings, and
no store is behind the last of them.
-/

namespace LakeNative.Memory

open LakeNative.Runtime LakeNative.Compiler

variable {ctx : CompilerCtx} {params : Nat}

/-! ## The bindings and the count -/

mutual
theorem namesExpr_pure : (stmt : Expr) → isPure stmt = true → namesExpr stmt = 0
  | .index receiver index, isPureStmt => by
      rw [isPure, Bool.and_eq_true] at isPureStmt
      rw [namesExpr, namesExpr_pure receiver isPureStmt.1, namesExpr_pure index isPureStmt.2]
  | .jump ident args, isPureStmt => by
      cases ident with
      | var callee ty =>
          rw [isPure, Bool.and_eq_true] at isPureStmt
          rw [namesExpr]
          exact namesArgs_pure args isPureStmt.2
      | _ => rfl
  | .num text ty, _ | .bool value, _ | .var name ty, _ | .atom name, _ | .string text ty, _
  | .neg inner, _ | .tupleIndex receiver position, _ | .binary op left right, _ | .unit, _
  | .tuple elems, _ | .other parts, _ => rfl
  | .letVar ident ty default, isPureStmt => by simp [isPure] at isPureStmt
  | .when cond branches, isPureStmt => by simp [isPure] at isPureStmt
  | .wait handlers filter, isPureStmt => by simp [isPure] at isPureStmt

theorem namesArgs_pure : (args : List Expr) → allPure args = true → namesArgs args = 0
  | [], _ => rfl
  | arg :: args, arePure => by
      rw [allPure, Bool.and_eq_true] at arePure
      rw [namesArgs, namesExpr_pure arg arePure.1, namesArgs_pure args arePure.2]
end

theorem patSlots_le_countHandlerSlots {handlers : List (List Pattern × List Expr)}
    {handler : List Pattern × List Expr} (member : handler ∈ handlers) :
    patSlots handler.1 + countSlots handler.2 ≤ countHandlerSlots handlers := by
  induction handlers with
  | nil => cases member
  | cons first handlers induction =>
      rw [countHandlerSlots]
      cases member with
      | head => exact Nat.le_max_left _ _
      | tail _ later => exact (induction later).trans (Nat.le_max_right _ _)

mutual
theorem names_le_count : (stmt : Expr) → CountedExpr params stmt →
    namesExpr stmt ≤ countExprSlots stmt
  | .letVar ident ty (some default), counted => by
      rw [CountedExpr] at counted
      rw [namesExpr, countExprSlots]
      have inner := names_le_count default counted
      split <;> omega
  | .letVar ident ty none, _ => by simp [namesExpr, countExprSlots]
  | .when cond branches, counted => by
      rw [CountedExpr] at counted
      rw [namesExpr, countExprSlots]
      exact Nat.add_le_add (names_le_count cond counted.1) (namesArms_le_count branches counted.2)
  | .wait handlers filter, counted => by
      rw [CountedExpr] at counted
      rw [namesExpr, countExprSlots]
      rcases counted with ⟨⟨-, handler, member, largest⟩, bodies⟩
      have body := namesHandlers_le_count handlers bodies handler member
      have counts := patSlots_le_countHandlerSlots member
      omega
  | .jump ident args, counted => by
      cases ident with
      | var callee ty =>
          rw [namesExpr, countExprSlots]
          rw [CountedExpr] at counted
          split at counted
          · rename_i fused
            rw [namesArgs_pure args fused.2]
            exact Nat.zero_le _
          · exact (namesArgs_le_count args counted).trans (Nat.le_add_left _ _)
      | _ => exact Nat.zero_le _
  | .index receiver index, counted => by
      rw [CountedExpr] at counted
      rw [namesExpr, counted.1.1, counted.1.2]
      exact Nat.zero_le _
  | .num text ty, _ | .bool value, _ | .var name ty, _ | .atom name, _ | .string text ty, _
  | .neg inner, _ | .tupleIndex receiver position, _ | .binary op left right, _ | .unit, _
  | .tuple elems, _ | .other parts, _ => Nat.zero_le _

theorem namesArgs_le_count : (args : List Expr) → CountedArgs params args →
    namesArgs args ≤ countSlots args
  | [], _ => Nat.zero_le _
  | arg :: args, counted => by
      rw [CountedArgs] at counted
      exact Nat.add_le_add (names_le_count arg counted.1) (namesArgs_le_count args counted.2)

theorem namesSeq_le_count : (body : List Expr) → CountedSeq params body →
    namesSeq body ≤ countSlots body
  | [], _ => Nat.zero_le _
  | stmt :: body, counted => by
      rw [CountedSeq] at counted
      rw [namesSeq, countSlots]
      have first := names_le_count stmt counted.1
      cases ends : endsSequence stmt with
      | true => exact first.trans (Nat.le_add_right _ _)
      | false => exact Nat.add_le_add first (namesSeq_le_count body (counted.2 ends))

theorem namesArms_le_count : (branches : List (Expr × List Expr)) → CountedArms params branches →
    namesArms branches ≤ countArmSlots branches
  | [], _ => Nat.zero_le _
  | (_, body) :: branches, counted => by
      rw [CountedArms] at counted
      exact Nat.add_le_add (namesSeq_le_count body counted.1)
        (namesArms_le_count branches counted.2)

theorem namesHandlers_le_count : (handlers : List (List Pattern × List Expr)) →
    CountedHandlers params handlers →
    ∀ handler ∈ handlers, namesSeq handler.2 ≤ countSlots handler.2
  | [], _, _, member => absurd member List.not_mem_nil
  | (_, body) :: handlers, counted, handler, member => by
      rw [CountedHandlers] at counted
      cases member with
      | head => exact namesSeq_le_count body counted.1
      | tail _ later => exact namesHandlers_le_count handlers counted.2 handler later
end

/-! ## The bindings and the frame -/

/-- A frame in which no store is behind the last binding, but for the arguments that a
`self(...)` writes. -/
structure Within (params : Nat) (scope : Scope) (names : Nat) (frame : Frame) : Prop where
  grows : scope.len ≤ frame.scope.len
  counted : frame.scope.len ≤ scope.len + names
  peak : frame.peak ≤ max frame.scope.len params

namespace Within

variable {scope : Scope} {names others : Nat} {frame rest : Frame}

theorem start (scope : Scope) (names : Nat) : Within params scope names (.start scope) where
  grows := Nat.le_refl _
  counted := Nat.le_add_right _ _
  peak := Nat.le_max_left _ _

theorem mono (within : Within params scope names frame) (more : names ≤ others) :
    Within params scope others frame where
  grows := within.grows
  counted := within.counted.trans (Nat.add_le_add_left more _)
  peak := within.peak

/-- A task behind another one. -/
theorem andThen {ends : Bool} {start next : Scope} (within : Within params start names frame)
    (same : start.len = scope.len) (later : Within params next others rest)
    (behind : next.len = frame.scope.len) :
    Within params scope (names + others) ⟨rest.scope, max frame.peak rest.peak, ends⟩ := by
  have grows := later.grows
  have counted := later.counted
  have before := within.grows
  have bound := within.counted
  have first := within.peak
  have second := later.peak
  constructor
  · change scope.len ≤ rest.scope.len
    omega
  · change rest.scope.len ≤ _
    omega
  · change max frame.peak rest.peak ≤ max rest.scope.len params
    omega

/-- The value of a `let` and the name behind it. -/
theorem bind (within : Within params scope names frame) (ident : String) (ty : Ty) :
    Within params scope (names + 1) (frame.bind ident ty) := by
  have length : (frame.scope.insertWithLakeType ident ty).len = frame.scope.len + 1 :=
    BranchState.len_insert _ _
  have grows := within.grows
  have counted := within.counted
  have peak := within.peak
  constructor
  · change scope.len ≤ (frame.scope.insertWithLakeType ident ty).len
    omega
  · change (frame.scope.insertWithLakeType ident ty).len ≤ _
    omega
  · change max frame.peak (frame.scope.len + 1) ≤
      max (frame.scope.insertWithLakeType ident ty).len params
    omega

end Within

theorem dequeueArgCount_le (scope : Scope) {handlers : List (List Pattern × List Expr)}
    (taken : ∀ handler ∈ handlers, patSlots handler.1 ≤ registeredNames handlers) :
    (waitAt scope handlers).dequeueArgCount ≤ registeredNames handlers := by
  rw [dequeueArgCount_eq]
  apply List.max_le_of_forall_le
  intro count isCount
  rcases List.mem_map.mp isCount with ⟨handler, member, rfl⟩
  exact taken handler member

theorem ends_of_endsSequence : (stmt : Expr) → endsSequence stmt = true → ∀ scope : Scope,
    (frameExpr ctx scope stmt).ends = true
  | .letVar ident ty (some default), ends, scope => by
      rw [frameExpr, if_pos (ends_of_endsSequence default ends scope)]
      exact ends_of_endsSequence default ends scope
  | .jump ident args, ends, scope => by
      cases ident with
      | var callee ty =>
          rw [endsSequence, Bool.and_eq_true, decide_eq_true_eq] at ends
          rw [frameExpr, if_pos ends]
      | _ => exact absurd ends Bool.false_ne_true
  | .wait handlers filter, _, scope => by rw [frameExpr]
  | .letVar ident ty none, ends, _ | .num text ty, ends, _ | .bool value, ends, _
  | .var name ty, ends, _ | .atom name, ends, _ | .string text ty, ends, _ | .neg inner, ends, _
  | .tupleIndex receiver position, ends, _ | .binary op left right, ends, _ | .unit, ends, _
  | .tuple elems, ends, _ | .other parts, ends, _ | .when cond branches, ends, _
  | .index receiver index, ends, _ => absurd ends Bool.false_ne_true

mutual
theorem within_expr : (stmt : Expr) → CountedExpr params stmt → ∀ scope : Scope,
    Within params scope (namesExpr stmt) (frameExpr ctx scope stmt)
  | .letVar ident ty (some default), counted, scope => by
      rw [CountedExpr] at counted
      have within := within_expr default counted scope
      rw [namesExpr, frameExpr]
      cases ends : endsSequence default with
      | true =>
          rw [if_pos (ends_of_endsSequence default ends scope)]
          exact within
      | false =>
          rw [if_neg Bool.false_ne_true]
          split
          · exact within.mono (Nat.le_add_right _ _)
          · exact within.bind ident ty
  | .letVar ident ty none, _, scope => by
      rw [namesExpr, frameExpr]
      exact (Within.start scope 0).bind ident ty
  | .when cond branches, counted, scope => by
      rw [CountedExpr] at counted
      rw [namesExpr, frameExpr]
      exact (within_expr cond counted.1 scope).andThen rfl (within_arms branches counted.2 _) rfl
  | .wait handlers filter, counted, scope => by
      rw [CountedExpr] at counted
      have within := within_handlers handlers counted.2 (registerHandlers scope (collected handlers))
      have taken := dequeueArgCount_le scope counted.1.1
      have length := registered_len scope handlers
      have grows := within.grows
      have bound := within.counted
      have peak := within.peak
      rw [namesExpr, frameExpr]
      constructor
      · dsimp only
        omega
      · dsimp only
        omega
      · dsimp only
        omega
  | .jump ident args, counted, scope => by
      cases ident with
      | var callee ty =>
          rw [CountedExpr] at counted
          rw [namesExpr, frameExpr]
          split at counted
          · rename_i fused
            rw [if_pos fused]
            exact ⟨Nat.le_refl _, Nat.le_add_right _ _, Nat.max_le.mpr
              ⟨Nat.le_max_left _ _, counted.trans (Nat.le_max_right _ _)⟩⟩
          · rename_i fused
            rw [if_neg fused]
            have within := within_args args counted scope.jumpArgsBase args.length scope
            exact ⟨within.grows, within.counted, within.peak⟩
      | _ => exact .start scope _
  | .index receiver index, counted, scope => by
      rw [CountedExpr] at counted
      rw [namesExpr, frameExpr]
      have atReceiver := within_expr receiver counted.2.1
        { scope with jumpArgsBase := scope.jumpArgsBase + 2 }
      have atIndex := within_expr index counted.2.2 { (frameExpr ctx
        { scope with jumpArgsBase := scope.jumpArgsBase + 2 } receiver).scope with
          jumpArgsBase := scope.jumpArgsBase + 2 }
      have both : Within params scope _ ⟨_, _, false⟩ := atReceiver.andThen rfl atIndex rfl
      exact ⟨both.grows, both.counted, both.peak⟩
  | .num text ty, _, scope | .bool value, _, scope | .var name ty, _, scope
  | .atom name, _, scope | .string text ty, _, scope | .neg inner, _, scope
  | .tupleIndex receiver position, _, scope | .binary op left right, _, scope | .unit, _, scope
  | .tuple elems, _, scope | .other parts, _, scope => .start scope _

theorem within_args : (args : List Expr) → CountedArgs params args →
    ∀ (base count : Nat) (scope : Scope),
      Within params scope (namesArgs args) (frameArgs ctx base count scope args)
  | [], _, _, _, scope => .start scope _
  | arg :: args, counted, base, count, scope => by
      rw [CountedArgs] at counted
      rw [namesArgs, frameArgs]
      exact (within_expr arg counted.1 _).andThen rfl (within_args args counted.2 base count _) rfl

theorem within_seq : (body : List Expr) → CountedSeq params body → ∀ scope : Scope,
    Within params scope (namesSeq body) (frameSeq ctx scope body)
  | [], _, scope => .start scope _
  | stmt :: body, counted, scope => by
      rw [CountedSeq] at counted
      have first := within_expr stmt counted.1 scope
      rw [namesSeq, frameSeq]
      cases ends : endsSequence stmt with
      | true =>
          rw [if_pos (ends_of_endsSequence stmt ends scope)]
          exact first
      | false =>
          rw [if_neg Bool.false_ne_true]
          split
          · exact first.mono (Nat.le_add_right _ _)
          · exact first.andThen rfl (within_seq body (counted.2 ends) _) rfl

theorem within_arms : (branches : List (Expr × List Expr)) → CountedArms params branches →
    ∀ scope : Scope, Within params scope (namesArms branches) (frameArms ctx scope branches)
  | [], _, scope => .start scope _
  | (_, body) :: branches, counted, scope => by
      rw [CountedArms] at counted
      rw [namesArms, frameArms]
      exact (within_seq body counted.1 scope).andThen rfl (within_arms branches counted.2 _) rfl

theorem within_handlers : (handlers : List (List Pattern × List Expr)) →
    CountedHandlers params handlers → ∀ scope : Scope,
      Within params scope (namesHandlers handlers) (frameHandlers ctx scope handlers)
  | [], _, scope => .start scope _
  | (_, body) :: handlers, counted, scope => by
      rw [CountedHandlers] at counted
      rw [namesHandlers, frameHandlers]
      exact (within_seq body counted.1 scope).andThen rfl (within_handlers handlers counted.2 _) rfl
end

end LakeNative.Memory

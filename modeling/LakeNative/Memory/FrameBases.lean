import LakeNative.Compiler.FrameSize

/-! # Frames and staged words

The slots that a statement takes do not depend on where the calls around it stage their words.
-/

namespace LakeNative.Memory

open LakeNative.Runtime LakeNative.Compiler

variable {ctx : CompilerCtx}

/-- The scope of a call that stages from another base on. -/
def rebase (base : Nat) (scope : Scope) : Scope := { scope with jumpArgsBase := base }

def rebaseFrame (base : Nat) (frame : Frame) : Frame := { frame with scope := rebase base frame.scope }

variable (ctx) in
/-- The base is in the frame what it was in the scope, and nothing else depends on it. -/
def RebasesExpr (stmt : Expr) : Prop :=
  ∀ base scope, frameExpr ctx (rebase base scope) stmt = rebaseFrame base (frameExpr ctx scope stmt)

variable (ctx) in
def RebasesArgs (args : List Expr) : Prop :=
  ∀ base other count inner scope, frameArgs ctx base count (rebase base scope) args =
    rebaseFrame base (frameArgs ctx other inner (rebase other scope) args)

variable (ctx) in
def RebasesSeq (body : List Expr) : Prop :=
  ∀ base scope, frameSeq ctx (rebase base scope) body = rebaseFrame base (frameSeq ctx scope body)

variable (ctx) in
def RebasesArms (branches : List (Expr × List Expr)) : Prop :=
  ∀ base scope, frameArms ctx (rebase base scope) branches =
    rebaseFrame base (frameArms ctx scope branches)

variable (ctx) in
def RebasesHandlers (handlers : List (List Pattern × List Expr)) : Prop :=
  ∀ base scope, frameHandlers ctx (rebase base scope) handlers =
    rebaseFrame base (frameHandlers ctx scope handlers)

theorem rebases_letVar {ident : String} {ty : Ty} {default : Expr} (inner : RebasesExpr ctx default) :
    RebasesExpr ctx (.letVar ident ty (some default)) := by
  intro base scope
  rw [frameExpr, frameExpr, inner]
  rcases frameExpr ctx scope default with ⟨after, peak, ends⟩
  cases ends with
  | true => rfl
  | false => rfl

theorem rebases_jump {callee : String} {ty : Ty} {args : List Expr} (inner : RebasesArgs ctx args) :
    RebasesExpr ctx (.jump (.var callee ty) args) := by
  intro base scope
  rw [frameExpr, frameExpr]
  split
  · rfl
  · have same := inner base scope.jumpArgsBase args.length args.length scope
    change (let staged := frameArgs ctx base args.length (rebase base scope) args
      { staged with ends := isSelfCall ctx staged.scope callee ty }) = _
    rw [same]
    rfl

theorem rebases_when {cond : Expr} {branches : List (Expr × List Expr)} (inner : RebasesExpr ctx cond)
    (arms : RebasesArms ctx branches) : RebasesExpr ctx (.when cond branches) := by
  intro base scope
  rw [frameExpr, frameExpr, inner]
  dsimp only [rebaseFrame]
  rw [arms]
  rfl

theorem rebases_index {receiver index : Expr} (inner : RebasesExpr ctx receiver)
    (other : RebasesExpr ctx index) : RebasesExpr ctx (.index receiver index) := by
  intro base scope
  have buf := inner (base + 2) scope
  have plain := inner (scope.jumpArgsBase + 2) scope
  have offset := other (base + 2) (frameExpr ctx scope receiver).scope
  have plainOffset := other (scope.jumpArgsBase + 2) (frameExpr ctx scope receiver).scope
  dsimp only [rebase] at buf plain offset plainOffset
  rw [frameExpr, frameExpr]
  dsimp only [rebase]
  rw [buf, plain]
  dsimp only [rebaseFrame, rebase]
  rw [offset, plainOffset]
  rfl

theorem rebases_args_cons {arg : Expr} {args : List Expr} (inner : RebasesExpr ctx arg)
    (rest : RebasesArgs ctx args) : RebasesArgs ctx (arg :: args) := by
  intro base other count width scope
  have value := inner (base + count) scope
  have plain := inner (other + width) scope
  have later := rest base other count width (frameExpr ctx scope arg).scope
  dsimp only [rebase] at value plain later
  rw [frameArgs, frameArgs]
  dsimp only [rebase]
  rw [value, plain]
  dsimp only [rebaseFrame, rebase]
  rw [later]
  rfl

theorem rebases_seq_cons {stmt : Expr} {body : List Expr} (inner : RebasesExpr ctx stmt)
    (rest : RebasesSeq ctx body) : RebasesSeq ctx (stmt :: body) := by
  intro base scope
  rw [frameSeq, frameSeq, inner]
  rcases frameExpr ctx scope stmt with ⟨after, peak, ends⟩
  dsimp only [rebaseFrame]
  rw [rest]
  cases ends with
  | true => rfl
  | false => rfl

theorem rebases_arms_cons {key : Expr} {body : List Expr} {branches : List (Expr × List Expr)}
    (inner : RebasesSeq ctx body) (rest : RebasesArms ctx branches) :
    RebasesArms ctx ((key, body) :: branches) := by
  intro base scope
  rw [frameArms, frameArms, inner]
  dsimp only [rebaseFrame]
  rw [rest]
  rfl

theorem rebases_handlers_cons {patterns : List Pattern} {body : List Expr}
    {handlers : List (List Pattern × List Expr)} (inner : RebasesSeq ctx body)
    (rest : RebasesHandlers ctx handlers) : RebasesHandlers ctx ((patterns, body) :: handlers) := by
  intro base scope
  rw [frameHandlers, frameHandlers, inner]
  dsimp only [rebaseFrame]
  rw [rest]
  rfl

mutual
theorem rebases_expr : (stmt : Expr) → RebasesExpr ctx stmt
  | .letVar _ _ (some default) => rebases_letVar (rebases_expr default)
  | .jump (.var _ _) args => rebases_jump (rebases_args args)
  | .when cond branches => rebases_when (rebases_expr cond) (rebases_arms branches)
  | .wait handlers filter => by
      intro base scope
      have bodies := rebases_handlers handlers base (registerHandlers scope (collected handlers))
      rw [frameExpr, frameExpr]
      exact congrArg (fun bodies : Frame => Frame.mk bodies.scope
        (max (scope.len + (waitAt scope handlers).dequeueArgCount) bodies.peak) true) bodies
  | .index receiver index => rebases_index (rebases_expr receiver) (rebases_expr index)
  | .letVar _ _ none => fun _ _ => rfl
  | .num _ _ | .bool _ | .unit | .atom _ | .var _ _ | .string _ _ | .tuple _ | .tupleIndex _ _
  | .neg _ | .binary _ _ _ | .other _ => fun _ _ => rfl
  | .jump (.num _ _) _ | .jump (.bool _) _ | .jump .unit _ | .jump (.atom _) _
  | .jump (.string _ _) _ | .jump (.tuple _) _ | .jump (.tupleIndex _ _) _ | .jump (.neg _) _
  | .jump (.binary _ _ _) _ | .jump (.other _) _ | .jump (.jump _ _) _ | .jump (.when _ _) _
  | .jump (.wait _ _) _ | .jump (.index _ _) _ | .jump (.letVar _ _ _) _ => fun _ _ => rfl

theorem rebases_args : (args : List Expr) → RebasesArgs ctx args
  | [] => fun _ _ _ _ _ => rfl
  | arg :: args => rebases_args_cons (rebases_expr arg) (rebases_args args)

theorem rebases_seq : (body : List Expr) → RebasesSeq ctx body
  | [] => fun _ _ => rfl
  | stmt :: body => rebases_seq_cons (rebases_expr stmt) (rebases_seq body)

theorem rebases_arms : (branches : List (Expr × List Expr)) → RebasesArms ctx branches
  | [] => fun _ _ => rfl
  | (_, body) :: branches => rebases_arms_cons (rebases_seq body) (rebases_arms branches)

theorem rebases_handlers : (handlers : List (List Pattern × List Expr)) → RebasesHandlers ctx handlers
  | [] => fun _ _ => rfl
  | (_, body) :: handlers => rebases_handlers_cons (rebases_seq body) (rebases_handlers handlers)
end

end LakeNative.Memory

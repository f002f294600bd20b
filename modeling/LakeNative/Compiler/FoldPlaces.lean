import LakeNative.Compiler.PureExpr

/-! # Operands of folded expressions

`fold_with_self` takes the start of the variables and the pid of the actor as operands that
may be missing. The places that call it ask predicates of their own whether they are needed.
-/

namespace LakeNative.Compiler

/-! ## Names in an expression -/

mutual
/-- A name that `leaf` accepts stands in the expression, not looking into an `[ ]` or a call
unless told to. -/
def mentions (inIndex inCalls : Bool) (leaf : String → Bool) : Expr → Bool
  | .var name _ => leaf name
  | .neg inner => mentions inIndex inCalls leaf inner
  | .tupleIndex receiver _ => mentions inIndex inCalls leaf receiver
  | .index receiver index =>
      inIndex && (mentions inIndex inCalls leaf receiver || mentions inIndex inCalls leaf index)
  | .binary _ left right =>
      mentions inIndex inCalls leaf left || mentions inIndex inCalls leaf right
  | .jump _ args => inCalls && anyMentions inIndex inCalls leaf args
  | _ => false

def anyMentions (inIndex inCalls : Bool) (leaf : String → Bool) : List Expr → Bool
  | [] => false
  | arg :: args => mentions inIndex inCalls leaf arg || anyMentions inIndex inCalls leaf args
end

def isSelf (name : String) : Bool := name == "self"

/-- `self` is no variable. -/
def isVariable (name : String) : Bool := name != "self"

/-- Of `pure_expr`. -/
def hasSelf (expr : Expr) : Bool := mentions false true isSelf expr

def hasVar (expr : Expr) : Bool := mentions true true isVariable expr

/-- Of `let_expr`. -/
def pureExprUsesVars (expr : Expr) : Bool := mentions true true isVariable expr

def pureExprUsesSelf (expr : Expr) : Bool := mentions false false isSelf expr

/-- Of `tuple_expr`. -/
def referencesVar (expr : Expr) : Bool := mentions false false isVariable expr

def referencesSelf (expr : Expr) : Bool := mentions false false isSelf expr

/-! ## Folding with operands -/

/-- `fold_with_self` comes to its end, with or without the start of the variables and the pid.
That a load has no third argument is checked in debug builds only. -/
def folds (varsStart selfPid : Bool) (state : BranchState) : Expr → Bool
  | .num _ _ | .bool _ | .atom _ => true
  | .var name _ => if name = "self" then selfPid else (state.get name).isSome && varsStart
  | .tupleIndex receiver _ => folds varsStart selfPid state receiver
  | .index receiver index =>
      folds varsStart selfPid state receiver && folds varsStart selfPid state index
  | .binary _ left right =>
      folds varsStart selfPid state left && folds varsStart selfPid state right
  | .neg inner => folds varsStart selfPid state inner
  | .jump (.var callee _) (pointer :: offset :: _) =>
      (rtLoadSize callee).isSome && folds varsStart selfPid state pointer &&
        folds varsStart selfPid state offset
  | _ => false

/-- A place that folds expressions: a statement or `let` that is pure, a tuple, the arguments of
a `self(...)` or of a runtime function's call, the pids of a `wait` and an unrolled loop. -/
inductive FoldPlace where
  | statement (expr : Expr)
  | pureLet (default : Expr)
  | tuple (elems : List Expr)
  | fusedSelfCall (args : List Expr)
  | fusedRtCall (args : List Expr)
  | waitFilter (filter : List Expr)
  | unrolledLoop (exprs : List Expr)

def isString : Expr → Bool
  | .string _ _ => true
  | _ => false

namespace FoldPlace

/-- What is folded; the strings of a tuple are not. -/
def folded : FoldPlace → List Expr
  | statement expr | pureLet expr => [expr]
  | tuple elems => elems.filter fun elem => !isString elem
  | fusedSelfCall exprs | fusedRtCall exprs | waitFilter exprs | unrolledLoop exprs => exprs

def varsStart : FoldPlace → Bool
  | statement expr => hasVar expr
  | pureLet default => pureExprUsesVars default
  | tuple elems => elems.any referencesVar
  | fusedSelfCall _ | fusedRtCall _ | waitFilter _ | unrolledLoop _ => true

def selfPid : FoldPlace → Bool
  | statement expr => hasSelf expr
  | pureLet default => pureExprUsesSelf default
  | tuple elems => elems.any referencesSelf
  | fusedSelfCall _ | fusedRtCall _ | waitFilter _ | unrolledLoop _ => false

/-- The predicates that the place asks about an expression, each with the names it asks for. -/
def predicates : FoldPlace → List ((String → Bool) × (Expr → Bool))
  | statement _ => [(isVariable, hasVar), (isSelf, hasSelf)]
  | pureLet _ => [(isVariable, pureExprUsesVars), (isSelf, pureExprUsesSelf)]
  | tuple _ => [(isVariable, referencesVar), (isSelf, referencesSelf)]
  | fusedSelfCall _ | fusedRtCall _ | waitFilter _ | unrolledLoop _ => []

end FoldPlace

/-- With a start of the variables, folding comes to its end where it gives code. -/
theorem isSome_foldWithSelf (literals : Literals) (selfPid : Bool) (state : BranchState)
    (expr : Expr) : (foldWithSelf literals selfPid state expr).isSome =
      folds true selfPid state expr := by
  fun_induction foldWithSelf literals selfPid state expr with
  | case1 | case2 | case3 => rfl
  | case4 ty supplied =>
      rw [folds, if_pos rfl, supplied]
      rfl
  | case5 ty missing =>
      rw [folds, if_pos rfl, Bool.eq_false_iff.mpr missing]
      rfl
  | case6 name ty notSelf =>
      rw [folds, if_neg notSelf, Option.isSome_map, Bool.and_true]
  | case7 receiver index induction =>
      rw [folds, ← induction]
      cases foldWithSelf literals selfPid state receiver <;> rfl
  | case8 receiver index first second =>
      rw [folds, ← first, ← second]
      cases foldWithSelf literals selfPid state receiver <;>
        cases foldWithSelf literals selfPid state index <;> rfl
  | case9 op left right first second =>
      rw [folds, ← first, ← second]
      cases foldWithSelf literals selfPid state left <;>
        cases foldWithSelf literals selfPid state right <;> rfl
  | case10 inner induction =>
      rw [folds, ← induction]
      cases foldWithSelf literals selfPid state inner <;> rfl
  | case11 callee ty pointer offset others first second =>
      rw [folds, ← first, ← second]
      cases rtLoadSize callee <;> cases foldWithSelf literals selfPid state pointer <;>
        cases foldWithSelf literals selfPid state offset <;> rfl
  | case12 expr =>
      rw [folds]
      · rfl
      all_goals assumption

end LakeNative.Compiler

import LakeNative.Compiler.Derivation
import LakeNative.Compiler.Unroll

/-! # The size of the variables

The pre-pass counts how many slots of the variables array a branch may take before the
branch is compiled. What the pipeline hands out is another traversal: the frame of a
statement is how far its stores reach.
-/

namespace LakeNative.Compiler

open LakeNative.Runtime

/-! ## The estimate -/

/-- The parameters with a name. -/
def patSlots (patterns : List Pattern) : Nat :=
  (patterns.filter fun pattern => !pattern.isWildcard && !pattern.isLiteralGuard).length

mutual
def countExprSlots : Expr → Nat
  | .letVar _ _ (some default) => 1 + countExprSlots default
  | .letVar _ _ none => 1
  | .when cond branches => countExprSlots cond + countArmSlots branches
  | .wait handlers filter => countSlots filter + countHandlerSlots handlers
  | .jump ident args => countExprSlots ident + countSlots args
  | .binary op left right => if op.isBitwise then 0 else countExprSlots left + countExprSlots right
  | .neg inner => countExprSlots inner
  | .other parts => countSlots parts
  | _ => 0

/-- The sum over statements or arguments. -/
def countSlots : List Expr → Nat
  | [] => 0
  | expr :: rest => countExprSlots expr + countSlots rest

/-- The sum over the arms of a `when`. -/
def countArmSlots : List (Expr × List Expr) → Nat
  | [] => 0
  | (_, body) :: branches => countSlots body + countArmSlots branches

/-- The maximum over the handlers of a `wait`. -/
def countHandlerSlots : List (List Pattern × List Expr) → Nat
  | [] => 0
  | (patterns, body) :: handlers =>
      max (patSlots patterns + countSlots body) (countHandlerSlots handlers)
end

def countBranchVars (patterns : List Pattern) (body : List Expr) : Nat :=
  patterns.length + countSlots body

/-! ## Where the estimate holds -/

/-- The names that the handlers of a `wait` bind together: those of the first one that no
integer guards. -/
def registeredNames (handlers : List (List Pattern × List Expr)) : Nat :=
  ((handlers.map fun handler => (⟨handler.1, []⟩ : Handler)).find? fun handler =>
    handler.guard.isNone).elim 0 fun handler => patSlots handler.patterns

/-- A `wait` and a `self(...)` of pure arguments end their sequence. -/
def endsSequence : Expr → Bool
  | .letVar _ _ (some default) => endsSequence default
  | .jump (.var callee _) args => callee = "self" && allPure args
  | .wait _ _ => true
  | _ => false

mutual
/-- The bindings in a statement, those of a `wait` and of all bodies in it included. -/
def namesExpr : Expr → Nat
  | .letVar _ _ (some default) => namesExpr default + if endsSequence default then 0 else 1
  | .letVar _ _ none => 1
  | .when cond branches => namesExpr cond + namesArms branches
  | .wait handlers _ => registeredNames handlers + namesHandlers handlers
  | .jump (.var _ _) args => namesArgs args
  | .index receiver index => namesExpr receiver + namesExpr index
  | _ => 0

def namesArgs : List Expr → Nat
  | [] => 0
  | arg :: args => namesExpr arg + namesArgs args

/-- Nothing behind the end of a sequence is compiled. -/
def namesSeq : List Expr → Nat
  | [] => 0
  | stmt :: body => namesExpr stmt + if endsSequence stmt then 0 else namesSeq body

def namesArms : List (Expr × List Expr) → Nat
  | [] => 0
  | (_, body) :: branches => namesSeq body + namesArms branches

def namesHandlers : List (List Pattern × List Expr) → Nat
  | [] => 0
  | (_, body) :: handlers => namesSeq body + namesHandlers handlers
end

/-- A `wait` binds a name for every word that one of its handlers takes, and one handler by
itself binds as many names as the whole `wait`. -/
def WaitCounted (handlers : List (List Pattern × List Expr)) : Prop :=
  (∀ handler ∈ handlers, patSlots handler.1 ≤ registeredNames handlers) ∧
    ∃ handler ∈ handlers, registeredNames handlers + namesHandlers handlers ≤
      patSlots handler.1 + namesSeq handler.2

section Counted

-- As many arguments as some branch of the machine takes.
variable (params : Nat)

mutual
/-- Every `wait` is counted, no part of an index binds a name, and a `self(...)` of pure
arguments has no more of them than a branch takes. -/
def CountedExpr : Expr → Prop
  | .letVar _ _ (some default) => CountedExpr default
  | .when cond branches => CountedExpr cond ∧ CountedArms branches
  | .wait handlers _ => WaitCounted handlers ∧ CountedHandlers handlers
  | .jump (.var callee _) args =>
      if callee = "self" ∧ allPure args then args.length ≤ params else CountedArgs args
  | .index receiver index =>
      (namesExpr receiver = 0 ∧ namesExpr index = 0) ∧ CountedExpr receiver ∧ CountedExpr index
  | _ => True

def CountedArgs : List Expr → Prop
  | [] => True
  | arg :: args => CountedExpr arg ∧ CountedArgs args

def CountedSeq : List Expr → Prop
  | [] => True
  | stmt :: body => CountedExpr stmt ∧ (endsSequence stmt = false → CountedSeq body)

def CountedArms : List (Expr × List Expr) → Prop
  | [] => True
  | (_, body) :: branches => CountedSeq body ∧ CountedArms branches

def CountedHandlers : List (List Pattern × List Expr) → Prop
  | [] => True
  | (_, body) :: handlers => CountedSeq body ∧ CountedHandlers handlers
end

end Counted

/-! ## The stores -/

section Stores

variable {W : Type} (rt : RtFuncs W) (ctx : CompilerCtx)

/-- The call is one of `self`, and neither of a runtime function nor a send. -/
def isSelfCall (scope : Scope) (callee : String) (ty : Ty) : Bool :=
  let calleeType := if ty.toString = "?" then (scope.lakeTypeOf callee).getD "?" else ty.toString
  callee = "self" && !ctx.declaredRt callee &&
    !(calleeType = "pid" && (scope.get callee).isSome)

/-- The slots of the variables array to which the code that is emitted for a task stores. -/
inductive Stores : Task W → Nat → Prop where
  | letOpen {id scope ident ty} : Stores (.expr id scope (.letVar ident ty none)) scope.len
  | letFast {id scope ident ty default} (isFast : isPure default = true) :
      Stores (.expr id scope (.letVar ident ty (some default))) scope.len
  | letValue {id scope ident ty default value next}
      (compiled : compileExpr rt ctx id scope default = some value)
      (continues : value.outcome = .continued next) :
      Stores (.expr id scope (.letVar ident ty (some default))) value.scope.len
  | letDefault {id scope ident ty default slot} (stores : Stores (.expr id scope default) slot) :
      Stores (.expr id scope (.letVar ident ty (some default))) slot
  | fusedSelf {id scope ty args index} (fused : allPure args = true) (below : index < args.length) :
      Stores (.expr id scope (.jump (.var "self" ty) args)) index
  | changeState {id scope ty args staged index}
      (isStaged : compileArgs rt ctx scope.jumpArgsBase args.length 0 id scope args = some staged)
      (isSelf : isSelfCall ctx staged.scope "self" ty = true)
      (below : index < argCount (ctx.branchesForHash ctx.currentMachine
        (hashCallArgs ctx.hasher args staged.scope.lakeTypeOf))) :
      Stores (.expr id scope (.jump (.var "self" ty) args)) index
  | callArgs {id scope callee ty args slot} (notFused : ¬ (callee = "self" ∧ allPure args))
      (stores : Stores (.args scope.jumpArgsBase args.length 0 id scope args) slot) :
      Stores (.expr id scope (.jump (.var callee ty) args)) slot
  | indexReceiver {id scope receiver index slot}
      (stores : Stores (.expr id { scope with jumpArgsBase := scope.jumpArgsBase + 2 } receiver)
        slot) :
      Stores (.expr id scope (.index receiver index)) slot
  | indexOffset {id scope receiver index buf atBuf slot}
      (compiled : compileExpr rt ctx id { scope with jumpArgsBase := scope.jumpArgsBase + 2 }
        receiver = some buf)
      (continues : buf.outcome = .continued atBuf)
      (stores : Stores
        (.expr (atBuf + 1) { buf.scope with jumpArgsBase := scope.jumpArgsBase + 2 } index) slot) :
      Stores (.expr id scope (.index receiver index)) slot
  | whenCond {id scope cond branches slot} (stores : Stores (.expr id scope cond) slot) :
      Stores (.expr id scope (.when cond branches)) slot
  | whenArms {id scope cond branches disc done slot}
      (compiled : compileExpr rt ctx id scope cond = some disc)
      (continues : disc.outcome = .continued done)
      (stores : Stores (.arms (done + 1) disc.scope branches) slot) :
      Stores (.expr id scope (.when cond branches)) slot
  | dequeue {id scope handlers filter index}
      (below : index < (waitAt scope handlers).dequeueArgCount) :
      Stores (.expr id scope (.wait handlers filter))
        ((waitAt scope handlers).dequeueVarBase + index)
  | waitBodies {id scope handlers filter slot}
      (stores : Stores
        (.handlers (id + 1) (registerHandlers scope (collected handlers)) handlers) slot) :
      Stores (.expr id scope (.wait handlers filter)) slot
  | argsHead {base count index id scope arg args slot}
      (stores : Stores (.expr id { scope with jumpArgsBase := base + count } arg) slot) :
      Stores (.args base count index id scope (arg :: args)) slot
  | argsTail {base count index id scope arg args value next slot}
      (compiled : compileExpr rt ctx id { scope with jumpArgsBase := base + count } arg = some value)
      (continues : value.outcome = .continued next)
      (stores : Stores
        (.args base count (index + 1) (next + 1) { value.scope with jumpArgsBase := base } args)
        slot) :
      Stores (.args base count index id scope (arg :: args)) slot
  | seqHead {id scope stmt body slot} (stores : Stores (.expr id scope stmt) slot) :
      Stores (.seq id scope (stmt :: body)) slot
  | seqTail {id scope stmt body first next slot}
      (compiled : compileExpr rt ctx id scope stmt = some first)
      (continues : first.outcome = .continued next)
      (stores : Stores (.seq next first.scope body) slot) :
      Stores (.seq id scope (stmt :: body)) slot
  | armsHead {id scope key body branches slot} (stores : Stores (.seq id scope body) slot) :
      Stores (.arms id scope ((key, body) :: branches)) slot
  | armsTail {id scope key body branches arm later slot}
      (compiled : compileSeq rt ctx id scope body = some arm)
      (stores : Stores (.arms later arm.scope branches) slot) :
      Stores (.arms id scope ((key, body) :: branches)) slot
  | handlersHead {id scope patterns body handlers slot}
      (stores : Stores (.body [] some id scope body) slot) :
      Stores (.handlers id scope ((patterns, body) :: handlers)) slot
  | handlersTail {id scope patterns body handlers first slot}
      (compiled : compileBody rt ctx [] some id scope body = some first)
      (stores : Stores (.handlers first.nextId first.scope handlers) slot) :
      Stores (.handlers id scope ((patterns, body) :: handlers)) slot
  | bodyLet {run op id scope ident ty default body} (isFast : isPure default = true) :
      Stores (.body run op id scope (.letVar ident ty (some default) :: body)) scope.len
  | bodyFast {run op id scope stmt body step added others joined slot}
      (accepts : acceptsEntry stmt = true)
      (isFast : compileFast rt ctx scope stmt = some (step, added))
      (stores : Stores (.body others joined (id + 1) added body) slot) :
      Stores (.body run op id scope (stmt :: body)) slot
  | bodyHead {run op id scope stmt body slot} (stores : Stores (.expr id scope stmt) slot) :
      Stores (.body run op id scope (stmt :: body)) slot
  | bodyTail {run op id scope stmt body first next slot}
      (compiled : compileExpr rt ctx id scope stmt = some first)
      (continues : first.outcome = .continued next)
      (stores : Stores (.body [] some next first.scope body) slot) :
      Stores (.body run op id scope (stmt :: body)) slot

end Stores

/-! ## The frame -/

/-- What a statement leaves: the scope behind it, how far it reaches in the variables array,
and whether nothing behind it is compiled. -/
structure Frame where
  scope : Scope
  peak : Nat
  ends : Bool

def Frame.start (scope : Scope) : Frame := ⟨scope, scope.len, false⟩

/-- A `let` behind its value takes the next slot. -/
def Frame.bind (value : Frame) (ident : String) (ty : Ty) : Frame :=
  ⟨value.scope.insertWithLakeType ident ty, max value.peak (value.scope.len + 1), false⟩

section Frame

variable (ctx : CompilerCtx)

mutual
/-- The handlers of a `wait` bind from the first free slot on, and their bodies one behind the
other, as the arms of a `when` do. -/
def frameExpr (scope : Scope) : Expr → Frame
  | .letVar ident ty (some default) =>
      let value := frameExpr scope default
      if value.ends then value else value.bind ident ty
  | .letVar ident ty none => (Frame.start scope).bind ident ty
  | .jump (.var callee ty) args =>
      if callee = "self" ∧ allPure args then
        ⟨scope, max scope.len args.length, true⟩
      else
        let staged := frameArgs scope.jumpArgsBase args.length scope args
        { staged with ends := isSelfCall ctx staged.scope callee ty }
  | .when cond branches =>
      let disc := frameExpr scope cond
      let arms := frameArms disc.scope branches
      ⟨arms.scope, max disc.peak arms.peak, false⟩
  | .wait handlers _ =>
      let bodies := frameHandlers (registerHandlers scope (collected handlers)) handlers
      ⟨bodies.scope, max (scope.len + (waitAt scope handlers).dequeueArgCount) bodies.peak, true⟩
  | .index receiver index =>
      let base := scope.jumpArgsBase
      let buf := frameExpr { scope with jumpArgsBase := base + 2 } receiver
      let offset := frameExpr { buf.scope with jumpArgsBase := base + 2 } index
      ⟨{ offset.scope with jumpArgsBase := base }, max buf.peak offset.peak, false⟩
  | _ => .start scope

def frameArgs (base count : Nat) (scope : Scope) : List Expr → Frame
  | [] => .start scope
  | arg :: args =>
      let value := frameExpr { scope with jumpArgsBase := base + count } arg
      let rest := frameArgs base count { value.scope with jumpArgsBase := base } args
      ⟨rest.scope, max value.peak rest.peak, false⟩

def frameSeq (scope : Scope) : List Expr → Frame
  | [] => .start scope
  | expr :: body =>
      let first := frameExpr scope expr
      if first.ends then
        first
      else
        let rest := frameSeq first.scope body
        ⟨rest.scope, max first.peak rest.peak, rest.ends⟩

def frameArms (scope : Scope) : List (Expr × List Expr) → Frame
  | [] => .start scope
  | (_, body) :: branches =>
      let arm := frameSeq scope body
      let rest := frameArms arm.scope branches
      ⟨rest.scope, max arm.peak rest.peak, false⟩

def frameHandlers (scope : Scope) : List (List Pattern × List Expr) → Frame
  | [] => .start scope
  | (_, body) :: handlers =>
      let first := frameSeq scope body
      let rest := frameHandlers first.scope handlers
      ⟨rest.scope, max first.peak rest.peak, false⟩
end

variable {W : Type}

def Task.scope : Task W → Scope
  | .expr _ scope _ | .args _ _ _ _ scope _ | .seq _ scope _ | .arms _ scope _
  | .handlers _ scope _ | .body _ _ _ scope _ => scope

def Task.frame : Task W → Frame
  | .expr _ scope stmt => frameExpr ctx scope stmt
  | .args base count _ _ scope exprs => frameArgs ctx base count scope exprs
  | .seq _ scope stmts => frameSeq ctx scope stmts
  | .arms _ scope branches => frameArms ctx scope branches
  | .handlers _ scope bodies => frameHandlers ctx scope bodies
  | .body _ _ _ scope stmts => frameSeq ctx scope stmts

end Frame

/-! ## Branches -/

/-- What is left of the scope behind the iterations of an unrolled loop. -/
def BranchState.without (state : BranchState) (names : List String) : BranchState where
  vars := state.vars.filter fun entry => entry.1 ∉ names

section Branch

variable {W : Type} (rt : RtFuncs W) (ctx : CompilerCtx) (unrollFactor : Nat)

/-- The slots to which the code of a branch stores. The block of an unrolled loop writes the
parameters back. -/
def BranchStores (patterns : List Pattern) (body : List Expr) (slot : Nat) : Prop :=
  match unrollInfo ctx unrollFactor patterns body with
  | some info =>
      slot < patterns.length ∨
        ∃ iterations state, compileIterations rt ctx info (branchScope patterns).toBranchState
            (max unrollFactor 2) = some (iterations, state) ∧
          Stores rt ctx (.seq 1 (exitScope info (branchScope patterns) state) info.exitBody) slot
  | none => Stores rt ctx (.body [] some 0 (branchScope patterns) body) slot

/-- One past the last slot that a branch takes. -/
def branchPeak (patterns : List Pattern) (body : List Expr) : Nat :=
  match unrollInfo ctx unrollFactor patterns body with
  | some info =>
      let scope := branchScope patterns
      let left := scope.without (info.preStmts.filterMap PreStmt.local)
      max patterns.length (frameSeq ctx (exitScope info scope left) info.exitBody).peak
  | none => (frameSeq ctx (branchScope patterns) body).peak

/-- The exit arm of an unrolled loop is counted, and no `let` of an iteration takes the name of
the last parameter; or else the whole body is counted. -/
def CountedBranch (params : Nat) (patterns : List Pattern) (body : List Expr) : Prop :=
  match unrollInfo ctx unrollFactor patterns body with
  | some info =>
      (∀ pattern ∈ patterns.getLast?, pattern.ident ∉ info.preStmts.filterMap PreStmt.local) ∧
        CountedSeq params info.exitBody
  | none => CountedSeq params body

end Branch

end LakeNative.Compiler

import LakeNative.Compiler.FrameSize

/-! # Scopes of names

The compiler has one table of names, which the bodies of arms and handlers extend one behind
the other. In the source a binding ends with the body that it is in. Both traversals give a
binding the same slot, so that it can be compared which one a reference gets.
-/

namespace LakeNative.Compiler

open LakeNative.Runtime

/-- The variables that folding an expression reads. -/
def foldReads : Expr → List String
  | .var name _ => if name = "self" then [] else [name]
  | .tupleIndex receiver _ => foldReads receiver
  | .index receiver index => foldReads receiver ++ foldReads index
  | .binary _ left right => foldReads left ++ foldReads right
  | .neg inner => foldReads inner
  | .jump (.var _ _) (pointer :: offset :: _) => foldReads pointer ++ foldReads offset
  | _ => []

/-- The bindings that enclose a place, innermost first, and the slot of the first word that
the innermost `wait` around it takes. -/
structure Env where
  vars : List (String × Nat)
  base : Nat

namespace Env

def get (env : Env) (name : String) : Option Nat := env.vars.lookup name

def bind (env : Env) (name : String) (slot : Nat) : Env :=
  { env with vars := (name, slot) :: env.vars }

/-- The names of a handler have the slots of their words. -/
def bindHandler (env : Env) (patterns : List Pattern) : Env :=
  { env with vars :=
      ((Handler.binders ⟨patterns, []⟩).zipIdx env.base).reverse ++ env.vars }

/-- The table gives these names the slots of their innermost enclosing bindings. -/
def sees (env : Env) (state : BranchState) (names : List String) : Bool :=
  names.all fun name => state.get name == env.get name

end Env

section Scoping

variable (ctx : CompilerCtx)

/-! ## What encloses -/

mutual
/-- What a statement binds for those behind it. -/
def envExpr (scope : Scope) (env : Env) : Expr → Env
  | .letVar ident _ (some default) =>
      let value := frameExpr ctx scope default
      if value.ends then envExpr scope env default
      else (envExpr scope env default).bind ident value.scope.len
  | .letVar ident _ none => env.bind ident scope.len
  | .jump (.var callee _) args =>
      if callee = "self" ∧ allPure args then env
      else envArgs scope.jumpArgsBase args.length scope env args
  | .when cond _ => envExpr scope env cond
  | .index receiver index =>
      let base := scope.jumpArgsBase
      let buf := frameExpr ctx { scope with jumpArgsBase := base + 2 } receiver
      envExpr { buf.scope with jumpArgsBase := base + 2 }
        (envExpr { scope with jumpArgsBase := base + 2 } env receiver) index
  | _ => env

def envArgs (base count : Nat) (scope : Scope) (env : Env) : List Expr → Env
  | [] => env
  | arg :: args =>
      let value := frameExpr ctx { scope with jumpArgsBase := base + count } arg
      envArgs base count { value.scope with jumpArgsBase := base }
        (envExpr { scope with jumpArgsBase := base + count } env arg) args
end

/-- The arguments are evaluated in the call's own block. -/
def isFused (callee : String) (args : List Expr) : Bool :=
  allPure args && (callee = "self" || !isParkAware callee && ctx.declaredRt callee)

/-- The call is a send to the pid in a variable. -/
def isSendTo (scope : Scope) (callee : String) (ty : Ty) : Bool :=
  let calleeType := if ty.toString = "?" then (scope.lakeTypeOf callee).getD "?" else ty.toString
  !ctx.declaredRt callee && calleeType = "pid" && (scope.get callee).isSome

/-! ## Lexical bodies -/

mutual
/-- At every reference the table has the innermost enclosing binding. -/
def lexicalExpr (scope : Scope) (env : Env) : Expr → Bool
  | .letVar _ _ (some default) => lexicalExpr scope env default
  | .letVar _ _ none => true
  | .jump (.var callee ty) args =>
      if isPure (.jump (.var callee ty) args) then
        env.sees scope.toBranchState (foldReads (.jump (.var callee ty) args))
      else
        let staged := frameArgs ctx scope.jumpArgsBase args.length scope args
        lexicalArgs scope.jumpArgsBase args.length scope env args &&
          (callee = "self" && allPure args || !isSendTo ctx staged.scope callee ty ||
            (envArgs ctx scope.jumpArgsBase args.length scope env args).sees
              staged.scope.toBranchState [callee])
  | .when cond branches =>
      lexicalExpr scope env cond &&
        lexicalArms (frameExpr ctx scope cond).scope (envExpr ctx scope env cond) branches
  | .wait handlers filter =>
      let registered := registerHandlers scope (collected handlers)
      lexicalHandlers registered { env with base := scope.len } handlers &&
        filter.all fun expr =>
          env.sees (frameHandlers ctx registered handlers).scope.toBranchState (foldReads expr)
  | .tuple elems => elems.all fun elem => env.sees scope.toBranchState (foldReads elem)
  | .index receiver index =>
      if isPure (.index receiver index) then
        env.sees scope.toBranchState (foldReads (.index receiver index))
      else
        let base := scope.jumpArgsBase
        let buf := frameExpr ctx { scope with jumpArgsBase := base + 2 } receiver
        lexicalExpr { scope with jumpArgsBase := base + 2 } env receiver &&
          lexicalExpr { buf.scope with jumpArgsBase := base + 2 }
            (envExpr ctx { scope with jumpArgsBase := base + 2 } env receiver) index
  | expr => env.sees scope.toBranchState (foldReads expr)

def lexicalArgs (base count : Nat) (scope : Scope) (env : Env) : List Expr → Bool
  | [] => true
  | arg :: args =>
      let value := frameExpr ctx { scope with jumpArgsBase := base + count } arg
      lexicalExpr { scope with jumpArgsBase := base + count } env arg &&
        lexicalArgs base count { value.scope with jumpArgsBase := base }
          (envExpr ctx { scope with jumpArgsBase := base + count } env arg) args

/-- Nothing behind a terminal statement is compiled. -/
def lexicalSeq (scope : Scope) (env : Env) : List Expr → Bool
  | [] => true
  | stmt :: body =>
      let first := frameExpr ctx scope stmt
      lexicalExpr scope env stmt &&
        (first.ends || lexicalSeq first.scope (envExpr ctx scope env stmt) body)

def lexicalArms (scope : Scope) (env : Env) : List (Expr × List Expr) → Bool
  | [] => true
  | (_, body) :: branches =>
      lexicalSeq scope env body && lexicalArms (frameSeq ctx scope body).scope env branches

def lexicalHandlers (scope : Scope) (env : Env) : List (List Pattern × List Expr) → Bool
  | [] => true
  | (patterns, body) :: handlers =>
      lexicalSeq scope (env.bindHandler patterns) body &&
        lexicalHandlers (frameSeq ctx scope body).scope env handlers
end

end Scoping

/-! ## References -/

section References

variable {W : Type} (rt : RtFuncs W) (ctx : CompilerCtx)

/-- Statements in a row that share a block end before this number. -/
def fastEnd (id : Nat) (body : List Expr) : Nat := id + (body.takeWhile acceptsEntry).length

/-- What a statement that shares its block reads. -/
def entryReads : Expr → List String
  | .letVar _ _ (some default) => foldReads default
  | expr => foldReads expr

/-- In the block of a number there is a reference to a name, for which the compiler's table has
the first slot and the innermost enclosing binding the second one, if they have any. -/
inductive Refers : Task W → Env → Nat → String → Option Nat → Option Nat → Prop where
  | fast {id scope stmt env name used bound} (isPureStmt : isPure stmt = true)
      (member : name ∈ foldReads stmt) (uses : scope.get name = used)
      (encloses : env.get name = bound) : Refers (.expr id scope stmt) env id name used bound
  | letDefault {id scope ident ty default env number name used bound}
      (refers : Refers (.expr id scope default) env number name used bound) :
      Refers (.expr id scope (.letVar ident ty (some default))) env number name used bound
  | tuple {id scope elems elem env name used bound} (isElem : elem ∈ elems)
      (member : name ∈ foldReads elem) (uses : scope.get name = used)
      (encloses : env.get name = bound) :
      Refers (.expr id scope (.tuple elems)) env id name used bound
  | fusedArg {id scope callee ty args arg env name used bound}
      (notPure : isPure (.jump (.var callee ty) args) = false)
      (fused : isFused ctx callee args = true) (isArg : arg ∈ args) (member : name ∈ foldReads arg)
      (uses : scope.get name = used) (encloses : env.get name = bound) :
      Refers (.expr id scope (.jump (.var callee ty) args)) env id name used bound
  | stagedArg {id scope callee ty args env number name used bound}
      (notPure : isPure (.jump (.var callee ty) args) = false)
      (staged : isFused ctx callee args = false)
      (refers : Refers (.args scope.jumpArgsBase args.length 0 id scope args) env number name used
        bound) :
      Refers (.expr id scope (.jump (.var callee ty) args)) env number name used bound
  | pid {id scope callee ty args staged env used bound}
      (notPure : isPure (.jump (.var callee ty) args) = false)
      (notFused : isFused ctx callee args = false)
      (isStaged : compileArgs rt ctx scope.jumpArgsBase args.length 0 id scope args = some staged)
      (sends : isSendTo ctx staged.scope callee ty = true) (uses : staged.scope.get callee = used)
      (encloses : (envArgs ctx scope.jumpArgsBase args.length scope env args).get callee = bound) :
      Refers (.expr id scope (.jump (.var callee ty) args)) env staged.nextId callee used bound
  | indexReceiver {id scope receiver index env number name used bound}
      (notPure : isPure (.index receiver index) = false)
      (refers : Refers (.expr id { scope with jumpArgsBase := scope.jumpArgsBase + 2 } receiver)
        env number name used bound) :
      Refers (.expr id scope (.index receiver index)) env number name used bound
  | indexOffset {id scope receiver index buf atBuf env number name used bound}
      (notPure : isPure (.index receiver index) = false)
      (compiled : compileExpr rt ctx id { scope with jumpArgsBase := scope.jumpArgsBase + 2 }
        receiver = some buf)
      (continues : buf.outcome = .continued atBuf)
      (refers : Refers
        (.expr (atBuf + 1) { buf.scope with jumpArgsBase := scope.jumpArgsBase + 2 } index)
        (envExpr ctx { scope with jumpArgsBase := scope.jumpArgsBase + 2 } env receiver)
        number name used bound) :
      Refers (.expr id scope (.index receiver index)) env number name used bound
  | whenCond {id scope cond branches env number name used bound}
      (refers : Refers (.expr id scope cond) env number name used bound) :
      Refers (.expr id scope (.when cond branches)) env number name used bound
  | whenArms {id scope cond branches disc done env number name used bound}
      (compiled : compileExpr rt ctx id scope cond = some disc)
      (continues : disc.outcome = .continued done)
      (refers : Refers (.arms (done + 1) disc.scope branches) (envExpr ctx scope env cond)
        number name used bound) :
      Refers (.expr id scope (.when cond branches)) env number name used bound
  | waitFilter {id scope handlers filter bodies pid env name used bound}
      (compiled : compileHandlers rt ctx (id + 1) (registerHandlers scope (collected handlers))
        handlers = some bodies)
      (isFilter : pid ∈ filter) (member : name ∈ foldReads pid)
      (uses : bodies.scope.get name = used) (encloses : env.get name = bound) :
      Refers (.expr id scope (.wait handlers filter)) env id name used bound
  | waitBodies {id scope handlers filter env number name used bound}
      (refers : Refers (.handlers (id + 1) (registerHandlers scope (collected handlers)) handlers)
        { env with base := scope.len } number name used bound) :
      Refers (.expr id scope (.wait handlers filter)) env number name used bound
  | argsHead {base count index id scope arg args env number name used bound}
      (refers : Refers (.expr id { scope with jumpArgsBase := base + count } arg) env number name
        used bound) :
      Refers (.args base count index id scope (arg :: args)) env number name used bound
  | argsTail {base count index id scope arg args value next env number name used bound}
      (compiled : compileExpr rt ctx id { scope with jumpArgsBase := base + count } arg = some value)
      (continues : value.outcome = .continued next)
      (refers : Refers
        (.args base count (index + 1) (next + 1) { value.scope with jumpArgsBase := base } args)
        (envExpr ctx { scope with jumpArgsBase := base + count } env arg) number name used bound) :
      Refers (.args base count index id scope (arg :: args)) env number name used bound
  | seqHead {id scope stmt body env number name used bound}
      (refers : Refers (.expr id scope stmt) env number name used bound) :
      Refers (.seq id scope (stmt :: body)) env number name used bound
  | seqTail {id scope stmt body first next env number name used bound}
      (compiled : compileExpr rt ctx id scope stmt = some first)
      (continues : first.outcome = .continued next)
      (refers : Refers (.seq next first.scope body) (envExpr ctx scope env stmt) number name used
        bound) :
      Refers (.seq id scope (stmt :: body)) env number name used bound
  | armsHead {id scope key body branches env number name used bound}
      (refers : Refers (.seq id scope body) env number name used bound) :
      Refers (.arms id scope ((key, body) :: branches)) env number name used bound
  | armsSelf {id scope key body branches arm next env number name used bound}
      (compiled : compileSeq rt ctx id scope body = some arm)
      (leaves : arm.outcome = .stateChange next)
      (refers : Refers (.arms (if branches.isEmpty then next else next + 1) arm.scope branches) env
        number name used bound) :
      Refers (.arms id scope ((key, body) :: branches)) env number name used bound
  | armsOn {id scope key body branches arm next env number name used bound}
      (compiled : compileSeq rt ctx id scope body = some arm)
      (goesOn : arm.outcome = .continued next ∨ arm.outcome = .wait next)
      (refers : Refers (.arms (next + 1) arm.scope branches) env number name used bound) :
      Refers (.arms id scope ((key, body) :: branches)) env number name used bound
  | handlersHead {id scope patterns body handlers env number name used bound}
      (refers : Refers (.body [] some id scope body) (env.bindHandler patterns) number name used
        bound) :
      Refers (.handlers id scope ((patterns, body) :: handlers)) env number name used bound
  | handlersTail {id scope patterns body handlers first env number name used bound}
      (compiled : compileBody rt ctx [] some id scope body = some first)
      (refers : Refers (.handlers first.nextId first.scope handlers) env number name used bound) :
      Refers (.handlers id scope ((patterns, body) :: handlers)) env number name used bound
  | bodyFast {run op id scope stmt body env number name used bound}
      (accepts : acceptsEntry stmt = true) (member : name ∈ entryReads stmt)
      (uses : scope.get name = used) (encloses : env.get name = bound)
      (low : run.head?.getD id ≤ number) (high : number < fastEnd id (stmt :: body)) :
      Refers (.body run op id scope (stmt :: body)) env number name used bound
  | bodyJoin {run op id scope stmt body step added env number name used bound}
      (accepts : acceptsEntry stmt = true)
      (isFast : compileFast rt ctx scope stmt = some (step, added))
      (nextFast : body.head?.elim false acceptsEntry = true)
      (refers : Refers (.body (run ++ [id]) (fun exec => (op exec).bind step) (id + 1) added body)
        (envExpr ctx scope env stmt) number name used bound) :
      Refers (.body run op id scope (stmt :: body)) env number name used bound
  | bodyFlush {run op id scope stmt body step added env number name used bound}
      (accepts : acceptsEntry stmt = true)
      (isFast : compileFast rt ctx scope stmt = some (step, added))
      (lastFast : body.head?.elim false acceptsEntry = false)
      (refers : Refers (.body [] some (id + 1) added body) (envExpr ctx scope env stmt) number name
        used bound) :
      Refers (.body run op id scope (stmt :: body)) env number name used bound
  | bodyHead {run op id scope stmt body env number name used bound}
      (notFast : acceptsEntry stmt = false)
      (refers : Refers (.expr id scope stmt) env number name used bound) :
      Refers (.body run op id scope (stmt :: body)) env number name used bound
  | bodyTail {run op id scope stmt body first next env number name used bound}
      (notFast : acceptsEntry stmt = false)
      (compiled : compileExpr rt ctx id scope stmt = some first)
      (continues : first.outcome = .continued next)
      (refers : Refers (.body [] some next first.scope body) (envExpr ctx scope env stmt)
        number name used bound) :
      Refers (.body run op id scope (stmt :: body)) env number name used bound

end References

end LakeNative.Compiler

import LakeNative.Compiler.Machine

/-! # Symbols of tables

A `when` that is looked up in a table has the table's bytes in the object file, under symbols
that are named by the number of the block where the discriminant is done. The numbers begin
anew in every branch, the symbols are those of the whole program.
-/

namespace LakeNative.Compiler

open LakeNative.Runtime

/-! ## The tables of statements -/

inductive TableKind where
  | kTable
  | mphf
  deriving DecidableEq

/-- A table with the number `disc_done_id` of its `when`. -/
abbrev WhenTable := Nat × TableKind

/-- The first arm that is not `_` has a string for a key. -/
def isPtrWhen (keys : List Expr) : Bool :=
  match (keys.find? fun key => !isWildcardArm key).bind getTy with
  | some .ptr => true
  | _ => false

section Tables

variable {W : Type} (rt : RtFuncs W) (ctx : CompilerCtx)

/-- What follows where the code before goes on. -/
def following (before : Option (Emitted W)) (rest : Nat → Scope → List WhenTable) :
    List WhenTable :=
  match before with
  | some emitted =>
      match emitted.outcome with
      | .continued next => rest next emitted.scope
      | _ => []
  | none => []

mutual
/-- The tables that `compile_expr` declares, in order. -/
def exprTables (id : Nat) (scope : Scope) : Expr → List WhenTable
  | .letVar _ _ (some default) => if isPure default then [] else exprTables id scope default
  | .jump ident args =>
      if isPure (.jump ident args) then
        []
      else
        match ident with
        | .var callee _ =>
            if callee = "self" ∧ allPure args then
              []
            else if !isParkAware callee ∧ ctx.declaredRt callee ∧ allPure args then
              []
            else
              argsTables scope.jumpArgsBase args.length 0 id scope args
        | _ => []
  | .when cond branches =>
      exprTables id scope cond ++
        following (compileExpr rt ctx id scope cond) fun done scope =>
          match tryBuildKTable ctx.toLiterals branches with
          | some _ => [(done, .kTable)]
          | none =>
              armsTables (done + 1) scope branches ++
                if isPtrWhen (branches.map Prod.fst) then [(done, .mphf)] else []
  | .wait handlers _ =>
      handlersTables (id + 1)
        (registerHandlers scope (handlers.map fun handler => (⟨handler.1, []⟩ : Handler))) handlers
  | .index receiver index =>
      if isPure (.index receiver index) then
        []
      else
        let base := scope.jumpArgsBase
        exprTables id { scope with jumpArgsBase := base + 2 } receiver ++
          following (compileExpr rt ctx id { scope with jumpArgsBase := base + 2 } receiver)
            fun atBuf scope =>
              exprTables (atBuf + 1) { scope with jumpArgsBase := base + 2 } index
  | _ => []

def argsTables (base count index id : Nat) (scope : Scope) : List Expr → List WhenTable
  | [] => []
  | arg :: args =>
      exprTables id { scope with jumpArgsBase := base + count } arg ++
        following (compileExpr rt ctx id { scope with jumpArgsBase := base + count } arg)
          fun next scope =>
            argsTables base count (index + 1) (next + 1) { scope with jumpArgsBase := base } args

def seqTables (id : Nat) (scope : Scope) : List Expr → List WhenTable
  | [] => []
  | expr :: rest =>
      exprTables id scope expr ++
        following (compileExpr rt ctx id scope expr) fun next scope => seqTables next scope rest

def armsTables (id : Nat) (scope : Scope) : List (Expr × List Expr) → List WhenTable
  | [] => []
  | (_, body) :: branches =>
      seqTables id scope body ++
        match compileSeq rt ctx id scope body with
        | some arm =>
            match arm.outcome with
            | .stateChange next =>
                armsTables (if branches.isEmpty then next else next + 1) arm.scope branches
            | .continued next | .wait next => armsTables (next + 1) arm.scope branches
        | none => []

def handlersTables (id : Nat) (scope : Scope) : List (List Pattern × List Expr) → List WhenTable
  | [] => []
  | (_, body) :: handlers =>
      bodyTables id scope body ++
        match compileBody rt ctx [] some id scope body with
        | some first => handlersTables first.nextId first.scope handlers
        | none => []

def bodyTables (id : Nat) (scope : Scope) : List Expr → List WhenTable
  | [] => []
  | expr :: rest =>
      if acceptsEntry expr then
        match compileFast rt ctx scope expr with
        | some (_, scope) => bodyTables (id + 1) scope rest
        | none => []
      else
        exprTables id scope expr ++
          following (compileExpr rt ctx id scope expr) fun next scope => bodyTables next scope rest
end

/-- The tables of a branch. The block of an unrolled loop has none. -/
def branchTables (unrollFactor : Nat) (patterns : List Pattern) (body : List Expr) :
    List WhenTable :=
  match unrollInfo ctx unrollFactor patterns body with
  | some info =>
      let scope := branchScope patterns
      match compileIterations rt ctx info scope.toBranchState (max unrollFactor 2) with
      | some (_, state) => seqTables rt ctx 1 (exitScope info scope state) info.exitBody
      | none => []
  | none => bodyTables rt ctx 0 (branchScope patterns) body

end Tables

/-! ## Symbols -/

/-- The data that `emit_k_table` or the perfect hash of a `when` declares. -/
def tableSymbols : WhenTable → List String
  | (doneId, .kTable) => [s!"ktbl_{doneId}"]
  | (doneId, .mphf) => [s!"mphf_disp_{doneId}", s!"mphf_keys_{doneId}"]

/-- The module that is written to an object file. The names of its functions and of the data
that it has are those it takes no data of once more. -/
structure ObjectModule (σ : Type) where
  hasName : σ → String → Prop
  /-- `declare_data` and `define_data`. -/
  defineData : σ → String → Option σ
  refused : ∀ {module name}, hasName module name → defineData module name = none
  defined : ∀ {module name}, ¬ hasName module name → ∃ result,
    defineData module name = some result ∧
      ∀ other, hasName result other ↔ other = name ∨ hasName module other

/-- Define the data one after the other, up to the first that is refused. -/
def ObjectModule.defineAll {σ : Type} (objects : ObjectModule σ) (module : σ) :
    List String → σ × Bool
  | [] => (module, true)
  | name :: names =>
      match objects.defineData module name with
      | some module => objects.defineAll module names
      | none => (module, false)

/-! ## The loop over the machines -/

structure SourceMachine where
  ident : String
  branches : List (List Pattern × List Expr)

section Program

variable {W : Type} (rt : RtFuncs W) (ctx : CompilerCtx) (unrollFactor : Nat)

def CompilerCtx.within (machine : SourceMachine) : CompilerCtx :=
  { ctx with currentMachine := machine.ident }

/-- The tables of each branch of a machine. -/
def machineTables (machine : SourceMachine) : List (List WhenTable) :=
  machine.branches.zipIdx.map fun branch =>
    branchTables rt { ctx.within machine with currentBranch := branch.2 } unrollFactor
      branch.1.1 branch.1.2

def machineSymbols (machine : SourceMachine) : List String :=
  (machineTables rt ctx unrollFactor machine).flatten.flatMap tableSymbols

/-- The machines that the program is left without: their errors are logged, and the loop goes
on. -/
def leftOut {σ : Type} (objects : ObjectModule σ) (module : σ) : List SourceMachine → List String
  | [] => []
  | machine :: machines =>
      let (module, complete) := objects.defineAll module (machineSymbols rt ctx unrollFactor machine)
      let compiled := compileMachine rt (ctx.within machine) unrollFactor machine.branches
      if complete ∧ compiled.isSome then
        leftOut objects module machines
      else
        machine.ident :: leftOut objects module machines

end Program

end LakeNative.Compiler

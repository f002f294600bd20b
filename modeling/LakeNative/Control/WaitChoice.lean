import LakeNative.Compiler.Nesting
import LakeNative.Compiler.WaitDispatch

/-! # The choice of a `wait`

The bodies of a `wait`'s handlers have the numbers behind its check, one body after the
other. A body that has run to its end goes on with the next number, which is the next
body's first one unless all later bodies are empty.
-/

namespace LakeNative.Control

open LakeNative.Runtime LakeNative.Compiler LakeNative.NumberedCode LakeNative.Transitions

variable {W : Type} {rt : RtFuncs W} {ctx : CompilerCtx}

/-! ## The bodies of the handlers -/

/-- The number where the body of a handler starts. Behind the last one it is that behind
the `wait`. -/
def bodyStart (bodies : Emitted W) (handler : Nat) : Nat :=
  bodies.starts[handler]?.getD bodies.nextId

theorem bodyStart_zero {id : Nat} {scope : Scope} {handlers : List (List Pattern × List Expr)}
    {bodies : Emitted W} (compiled : Compiles rt ctx (.handlers id scope handlers) bodies) :
    bodyStart bodies 0 = id := by
  cases compiled with
  | rule isRule _ _ =>
      cases isRule with
      | handlersNil => rfl
      | handlersCons => rfl

theorem length_starts {id : Nat} {scope : Scope} {handlers : List (List Pattern × List Expr)}
    {bodies : Emitted W} (compiled : Compiles rt ctx (.handlers id scope handlers) bodies) :
    bodies.starts.length = handlers.length := by
  induction handlers generalizing id scope bodies with
  | nil =>
      cases compiled with
      | rule isRule _ _ =>
          cases isRule with
          | handlersNil => rfl
  | cons handler handlers induction =>
      cases compiled with
      | rule isRule _ derived =>
          cases isRule with
          | handlersCons =>
              have isRest := derived _ (List.mem_cons_of_mem _ List.mem_cons_self)
              exact congrArg (· + 1) (induction isRest)

/-- The scope with which the body of a handler is compiled, behind the bodies before it. -/
def scopeAt (rt : RtFuncs W) (ctx : CompilerCtx) (id : Nat) (scope : Scope) :
    List (List Pattern × List Expr) → Nat → Option Scope
  | [], _ => none
  | _ :: _, 0 => some scope
  | (_, body) :: handlers, handler + 1 => do
      let first ← compileBody rt ctx [] some id scope body
      scopeAt rt ctx first.nextId first.scope handlers handler

/-- What the handlers from one on are compiled to. -/
theorem laterHandlers {id : Nat} {scope : Scope} {handlers : List (List Pattern × List Expr)}
    {bodies : Emitted W} (compiled : Compiles rt ctx (.handlers id scope handlers) bodies)
    (handler : Nat) :
    ∃ later rest, rest.nextId = bodies.nextId ∧
      (∀ index, bodyStart rest index = bodyStart bodies (handler + index)) ∧
      (handler < handlers.length → scopeAt rt ctx id scope handlers handler = some later) ∧
      Inside rt ctx (.handlers (bodyStart bodies handler) later (handlers.drop handler), rest)
        (.handlers id scope handlers, bodies) := by
  induction handler generalizing id scope handlers bodies with
  | zero =>
      rw [bodyStart_zero compiled]
      refine ⟨scope, bodies, rfl, fun index => by rw [Nat.zero_add], fun inside => ?_,
        .here compiled⟩
      cases handlers with
      | nil => cases inside
      | cons handler handlers => rfl
  | succ handler induction =>
      cases compiled with
      | rule isRule compiled derived =>
          cases isRule with
          | handlersNil =>
              refine ⟨scope, _, rfl, fun index => rfl, nofun, ?_⟩
              exact .here (.rule .handlersNil compiled nofun)
          | @handlersCons _ _ _ body _ first rest =>
              have isFirst : compileBody rt ctx [] some id scope body = some first :=
                (derived _ List.mem_cons_self).compile
              have isRest := derived _ (List.mem_cons_of_mem _ List.mem_cons_self)
              rcases induction isRest with ⟨later, last, sameEnd, sameStarts, isScope, inside⟩
              refine ⟨later, last, sameEnd, fun index => ?_, fun within => ?_, ?_⟩
              · rw [sameStarts, Nat.succ_add]
                rfl
              · rw [scopeAt, isFirst]
                exact isScope (Nat.lt_of_succ_lt_succ within)
              · exact .deeper .handlersCons compiled derived
                  (List.mem_cons_of_mem _ List.mem_cons_self) inside

/-- The body of a handler has the numbers up to the next handler's first one. -/
theorem handlerBody {id : Nat} {scope : Scope} {handlers : List (List Pattern × List Expr)}
    {bodies : Emitted W} (compiled : Compiles rt ctx (.handlers id scope handlers) bodies)
    {handler : Nat} {patterns : List Pattern} {body : List Expr}
    (atIndex : handlers[handler]? = some (patterns, body)) :
    ∃ bodyScope emitted, emitted.nextId = bodyStart bodies (handler + 1) ∧
      scopeAt rt ctx id scope handlers handler = some bodyScope ∧
      Inside rt ctx (.body [] some (bodyStart bodies handler) bodyScope body, emitted)
        (.handlers id scope handlers, bodies) := by
  rcases laterHandlers compiled handler with ⟨later, rest, -, sameStarts, isScope, inside⟩
  rcases List.getElem?_eq_some_iff.mp atIndex with ⟨within, isHandler⟩
  rw [List.drop_eq_getElem_cons within, isHandler] at inside
  cases inside.compiles with
  | rule isRule compiled derived =>
      cases isRule with
      | @handlersCons _ _ _ _ _ first others =>
          have isFirst := derived _ List.mem_cons_self
          have isOthers := derived _ (List.mem_cons_of_mem _ List.mem_cons_self)
          refine ⟨later, first, ?_, isScope within, inside.trans ?_⟩
          · rw [← sameStarts 1]
            exact (bodyStart_zero isOthers).symm
          · exact .deeper .handlersCons compiled derived List.mem_cons_self (.here isFirst)

/-- The bodies take no numbers exactly if they all are empty. -/
theorem allEmpty_iff {id : Nat} {scope : Scope} {handlers : List (List Pattern × List Expr)}
    {bodies : Emitted W} (compiled : Compiles rt ctx (.handlers id scope handlers) bodies) :
    id = bodies.nextId ↔ ∀ handler ∈ handlers, handler.2 = [] := by
  induction handlers generalizing id scope bodies with
  | nil =>
      cases compiled with
      | rule isRule _ _ =>
          cases isRule with
          | handlersNil => exact iff_of_true rfl nofun
  | cons handler handlers induction =>
      cases compiled with
      | rule isRule _ derived =>
          cases isRule with
          | @handlersCons _ _ _ body _ first rest =>
              have isFirst : Compiles rt ctx (.body [] some id scope body) first :=
                derived _ List.mem_cons_self
              have isRest : Compiles rt ctx (.handlers first.nextId first.scope handlers) rest :=
                derived _ (List.mem_cons_of_mem _ List.mem_cons_self)
              have forward : id ≤ first.nextId :=
                (isFirst.laid (placed_body _ _ _ _)).fragment.ordered
              have onward : first.nextId ≤ rest.nextId :=
                (isRest.laid (Nat.le_refl _)).fragment.ordered
              change id = rest.nextId ↔ _
              rw [List.forall_mem_cons, ← induction isRest]
              constructor
              · intro same
                refine ⟨?_, by omega⟩
                by_contra nonempty
                have grows : id < first.nextId := isFirst.first_lt nonempty (placed_body _ _ _ _)
                omega
              · rintro ⟨empty, same⟩
                have empty : body = [] := empty
                subst empty
                have none := isFirst.compile
                rw [Task.compile, compileBody] at none
                cases none
                exact same

theorem laterEmpty_iff {id : Nat} {scope : Scope} {handlers : List (List Pattern × List Expr)}
    {bodies : Emitted W} (compiled : Compiles rt ctx (.handlers id scope handlers) bodies)
    (handler : Nat) :
    bodyStart bodies handler = bodies.nextId ↔
      ∀ later ∈ handlers.drop handler, later.2 = [] := by
  rcases laterHandlers compiled handler with ⟨_, rest, sameEnd, -, -, inside⟩
  rw [← sameEnd]
  exact allEmpty_iff inside.compiles

/-! ## A `wait` in a branch -/

/-- A `wait`, or a chain of `let` around one. -/
def bound (binds : List (String × Ty)) (stmt : Expr) : Expr :=
  binds.foldr (fun bind value => .letVar bind.1 bind.2 (some value)) stmt

theorem not_isPure_bound (binds : List (String × Ty)) (handlers : List (List Pattern × List Expr))
    (filter : List Expr) : isPure (bound binds (.wait handlers filter)) = false := by
  cases binds <;> rfl

theorem not_acceptsEntry_bound (binds : List (String × Ty))
    (handlers : List (List Pattern × List Expr)) (filter : List Expr) :
    acceptsEntry (bound binds (.wait handlers filter)) = false := by
  cases binds with
  | nil => rfl
  | cons bind binds => exact not_isPure_bound binds handlers filter

/-- The `let`s around a `wait` are not compiled. -/
theorem compile_bound {id : Nat} {scope : Scope} (binds : List (String × Ty))
    {handlers : List (List Pattern × List Expr)} {filter : List Expr} {emitted : Emitted W}
    (compiled : compileExpr rt ctx id scope (bound binds (.wait handlers filter)) = some emitted) :
    compileExpr rt ctx id scope (.wait handlers filter) = some emitted := by
  induction binds generalizing emitted with
  | nil => exact compiled
  | cons bind binds induction =>
      rw [bound, List.foldr_cons, compileExpr] at compiled
      have impure := not_isPure_bound binds handlers filter
      rw [bound] at impure
      rw [impure, if_neg Bool.false_ne_true] at compiled
      rcases bind_some compiled with ⟨value, isValue, result⟩
      have isWait := induction isValue
      rcases compile_wait isWait with ⟨bodies, folded, dispatch, -, -, -, -, -, isEmitted⟩
      rw [isEmitted] at result isWait
      cases result
      exact isWait

/-- The statements of an arm, or those of a branch or handler. -/
def listTask (inArm : Bool) (id : Nat) (scope : Scope) (stmts : List Expr) : Compiler.Task W :=
  if inArm then .seq id scope stmts else .body [] some id scope stmts

/-- A `wait` in compiled code, as a statement or as the value of a `let`, with the
statements behind it in its list. The code is that of a branch, or of the exit arm of an
unrolled loop behind the loop's own blocks. -/
structure WaitSite (rt : RtFuncs W) (ctx : CompilerCtx) where
  outer : Compiler.Task W
  outerEmitted : Emitted W
  placed : outer.Placed
  unrolled : Code W
  inFront : ∀ entry ∈ unrolled, entry.1 < outer.first
  inArm : Bool
  id : Nat
  scope : Scope
  binds : List (String × Ty)
  handlers : List (List Pattern × List Expr)
  filter : List Expr
  rest : List Expr
  listed : Emitted W
  inside : Inside rt ctx
    (listTask inArm id scope (bound binds (.wait handlers filter) :: rest), listed)
    (outer, outerEmitted)
  bodies : Emitted W
  isBodies : compileHandlers rt ctx (id + 1) (registerHandlers scope (collected handlers))
    handlers = some bodies
  folded : List Folded
  isFolded : filter.mapM (fold ctx.toLiterals bodies.scope.toBranchState) = some folded
  dispatch : Word → Option Nat
  isDispatch : emitDispatch ctx.switch (waitAt scope handlers) = some dispatch

namespace WaitSite

variable (site : WaitSite rt ctx)

def code : Code W := site.unrolled ++ site.outerEmitted.code

def afterWait : Nat := site.bodies.nextId

/-- The block is one of the handler's body. -/
def InBody (handler blockId : Nat) : Prop :=
  bodyStart site.bodies handler ≤ blockId ∧ blockId < bodyStart site.bodies (handler + 1)

instance (handler blockId : Nat) : Decidable (site.InBody handler blockId) :=
  inferInstanceAs (Decidable (_ ∧ _))

def bodyCode (handler : Nat) : Code W :=
  site.code.filter fun entry => site.InBody handler entry.1

/-- A message is queued and the dispatch takes it to the handler. -/
def Selects (exec : ExecCtx W) (handler : Nat) : Prop :=
  exec.actor.mailboxHead ≠ exec.actor.mailboxTail ∧
    chosenHandler rt (waitAt site.scope site.handlers) site.dispatch site.folded exec =
      some (some handler)

/-- Behind the check only the handler's body runs, up to the number behind the `wait`. -/
def Exclusive (exec : ExecCtx W) (handler : Nat) : Prop :=
  ∀ exit started, BlockStep rt site.code ⟨site.id, exec⟩ exit started →
    started.blockId = bodyStart site.bodies handler ∧
    ∀ history final, Run (BlockStep rt site.code) started history final →
      (∀ stage ∈ history, stage.state.blockId ≠ site.afterWait) →
      final.blockId = site.afterWait ∨ site.InBody handler final.blockId

/-- The body, on its own, can run to its end. -/
def CanEnd (exec : ExecCtx W) (handler : Nat) : Prop :=
  ∃ exit started history final, BlockStep rt site.code ⟨site.id, exec⟩ exit started ∧
    Run (BlockStep rt (site.bodyCode handler)) started history final ∧
    final.blockId = bodyStart site.bodies (handler + 1)

/-- Where the bindings or statements behind the `wait` go on, there is a block. -/
def GoesOn : Prop :=
  site.binds ≠ [] ∨ site.rest ≠ [] → ∃ block, (site.afterWait, block) ∈ site.listed.code

/-! ## The blocks of a site -/

/-- The block that checks the mailbox. -/
def check : Block W :=
  waitBlock rt (waitAt site.scope site.handlers) site.dispatch site.folded site.bodies.starts site.id

/-- The list ends with the `wait`, whatever stands behind it. -/
theorem listed_eq : site.listed.code = [(site.id, site.check)] ++ site.bodies.code ∧
    site.listed.nextId = site.afterWait ∧ site.handlers ≠ [] := by
  have compiled := site.inside.compiles.compile
  have isWait : ∀ {emitted}, compileExpr rt ctx site.id site.scope
      (bound site.binds (.wait site.handlers site.filter)) = some emitted →
      emitted.code = [(site.id, site.check)] ++ site.bodies.code ∧
        emitted.outcome = .wait site.afterWait ∧ site.handlers ≠ [] := by
    intro emitted isEmitted
    rcases compile_wait (compile_bound _ isEmitted) with
      ⟨bodies, folded, dispatch, nonempty, isBodies, isFolded, isDispatch, -, rfl⟩
    cases site.isBodies.symm.trans isBodies
    cases site.isFolded.symm.trans isFolded
    cases site.isDispatch.symm.trans isDispatch
    exact ⟨rfl, rfl, nonempty⟩
  rw [listTask] at compiled
  split at compiled
  · rw [Compiler.Task.compile, compileSeq] at compiled
    rcases bind_some compiled with ⟨first, isFirst, result⟩
    rcases isWait isFirst with ⟨isCode, isOutcome, nonempty⟩
    have behind : first.nextId = site.afterWait := by
      rw [Emitted.nextId, isOutcome]
      rfl
    rw [isOutcome] at result
    have same : first = site.listed := Option.some.inj result
    rw [← same]
    exact ⟨isCode, behind, nonempty⟩
  · rw [Compiler.Task.compile, compileBody, not_acceptsEntry_bound,
      if_neg Bool.false_ne_true] at compiled
    rcases bind_some compiled with ⟨first, isFirst, result⟩
    rcases isWait isFirst with ⟨isCode, isOutcome, nonempty⟩
    rw [isOutcome] at result
    have same : { first with outcome := .continued site.afterWait } = site.listed :=
      Option.some.inj result
    rw [← same]
    exact ⟨isCode, rfl, nonempty⟩

theorem list_placed : (listTask site.inArm site.id site.scope
    (bound site.binds (.wait site.handlers site.filter) :: site.rest) : Compiler.Task W).Placed := by
  rw [listTask]
  split
  · exact Nat.le_refl _
  · exact placed_body _ _ _ _

theorem list_first : (listTask site.inArm site.id site.scope
    (bound site.binds (.wait site.handlers site.filter) :: site.rest) :
      Compiler.Task W).first = site.id := by
  rw [listTask]
  split <;> rfl

theorem list_noRedirects : site.listed.redirects = [] := by
  refine site.inside.compiles.noRedirects fun id scope branches => ?_
  rw [listTask]
  split <;> simp

/-- In the numbers of the `wait` the code is its check and its bodies. -/
theorem embeds : Embeds site.code site.id site.afterWait
    ([(site.id, site.check)] ++ site.bodies.code) := by
  have nested := site.inside.nested site.placed
  have inOuter := nested.embeds site.list_noRedirects
  have whole : Embeds site.code site.outer.first site.outerEmitted.nextId
      site.outerEmitted.code := by
    intro entry low _
    rw [code, List.mem_append]
    constructor
    · rintro (isUnrolled | isOuter)
      · exact absurd (site.inFront entry isUnrolled) (Nat.not_lt_of_le low)
      · exact isOuter
    · exact .inr
  have all := whole.trans inOuter nested.low nested.high
  rw [site.list_first, site.listed_eq.1, site.listed_eq.2.1] at all
  exact all

theorem bodiesCompile : Compiles rt ctx (.handlers (site.id + 1)
    (registerHandlers site.scope (collected site.handlers)) site.handlers) site.bodies :=
  compiles_handlers _ site.isBodies

/-- In the numbers of the bodies the code is theirs. -/
theorem embeds_bodies : Embeds site.code (site.id + 1) site.afterWait site.bodies.code := by
  have forward : site.id + 1 ≤ site.afterWait :=
    (site.bodiesCompile.laid (Nat.le_refl _)).fragment.ordered
  refine site.embeds.trans ?_ (Nat.le_succ _) (Nat.le_refl _)
  intro entry low high
  rw [List.mem_append, List.mem_singleton]
  constructor
  · rintro (rfl | isBody)
    · exact absurd low (Nat.not_succ_le_self _)
    · exact isBody
  · exact .inr

/-- The body of a handler is a fragment of the code. -/
theorem body_fragment {handler : Nat} (isHandler : handler < site.handlers.length) :
    ∃ part, Fragment Leads (bodyStart site.bodies handler) (bodyStart site.bodies (handler + 1))
        part ∧
      Embeds site.code (bodyStart site.bodies handler) (bodyStart site.bodies (handler + 1)) part ∧
      bodyStart site.bodies (handler + 1) ≤ site.afterWait := by
  rcases handlerBody site.bodiesCompile
    (List.getElem?_eq_getElem isHandler : _ = some (site.handlers[handler].1, _)) with
    ⟨bodyScope, emitted, isEnd, -, inside⟩
  have nested := inside.nested (Nat.le_refl _)
  have laid := inside.compiles.laid (placed_body _ _ _ _)
  have inBodies := nested.embeds (inside.compiles.noRedirects fun _ _ _ => nofun)
  have low : site.id + 1 ≤ bodyStart site.bodies handler := nested.low
  have high : emitted.nextId ≤ site.afterWait := nested.high
  refine ⟨emitted.code, ?_, ?_, isEnd ▸ high⟩
  · rw [← isEnd]
    exact laid.fragment
  · rw [← isEnd]
    exact site.embeds_bodies.trans inBodies low high

theorem mem_bodyCode {handler : Nat} {entry : Nat × Block W} :
    entry ∈ site.bodyCode handler ↔ entry ∈ site.code ∧ site.InBody handler entry.1 := by
  rw [bodyCode, List.mem_filter, decide_eq_true_eq]

/-- So are the blocks of its numbers. -/
theorem bodyCode_fragment {handler : Nat} (isHandler : handler < site.handlers.length) :
    Fragment Leads (bodyStart site.bodies handler) (bodyStart site.bodies (handler + 1))
        (site.bodyCode handler) ∧
      Embeds site.code (bodyStart site.bodies handler) (bodyStart site.bodies (handler + 1))
        (site.bodyCode handler) := by
  rcases site.body_fragment isHandler with ⟨part, fragment, embeds, -⟩
  have sameBlocks : ∀ entry ∈ site.bodyCode handler, entry ∈ part := by
    intro entry member
    rcases site.mem_bodyCode.mp member with ⟨inCode, inBody⟩
    exact (embeds entry inBody.1 inBody.2).mp inCode
  refine ⟨⟨fragment.ordered, fun entry member => (site.mem_bodyCode.mp member).2, ?_⟩, ?_⟩
  · exact fun entry member => fragment.stays entry (sameBlocks entry member)
  · intro entry low high
    rw [site.mem_bodyCode]
    exact ⟨fun inCode => ⟨inCode, low, high⟩, And.left⟩

theorem selects_lt {exec : ExecCtx W} {handler : Nat} (selects : site.Selects exec handler) :
    handler < site.handlers.length := by
  rcases Option.map_eq_some_iff.mp selects.2 with ⟨accepted, -, chosen⟩
  split at chosen
  · rw [emitDispatch_eq site.isDispatch] at chosen
    have inside := WaitExpr.dispatch_lt _ ?_ chosen
    · rwa [WaitExpr.length_handlers, waitAt, collected, List.length_map] at inside
    · rw [waitAt, collected]
      exact fun empty => site.listed_eq.2.2 (List.map_eq_nil_iff.mp empty)
  · cases chosen

/-- The check dequeues and goes on with the selected body. -/
theorem check_selected {exec : ExecCtx W} {handler : Nat} (selects : site.Selects exec handler) :
    site.check exec = ({ exec with
        actor := exec.actor.dequeue (waitAt site.scope site.handlers).dequeueVarBase
          (waitAt site.scope site.handlers).dequeueArgCount },
      .goto (bodyStart site.bodies handler)) := by
  have inside : handler < site.bodies.starts.length := by
    rw [length_starts site.bodiesCompile]
    exact site.selects_lt selects
  rw [check, waitBlock, if_neg selects.1, selects.2, bodyStart, List.getElem?_eq_getElem inside]
  dsimp only [Option.map_some, orTrap, Option.bind_some]
  rw [List.getElem?_eq_getElem inside]
  rfl

/-- The step of the check goes to the selected body. -/
theorem starts_body {exec : ExecCtx W} {handler : Nat} (selects : site.Selects exec handler)
    {exit : Exit} {started : Point W} (step : BlockStep rt site.code ⟨site.id, exec⟩ exit started) :
    started.blockId = bodyStart site.bodies handler := by
  have forward : site.id + 1 ≤ site.afterWait :=
    (site.bodiesCompile.laid (Nat.le_refl _)).fragment.ordered
  rcases step with ⟨block, member, taken⟩
  have isCheck : block = site.check := by
    have inWait := (site.embeds (site.id, block) (Nat.le_refl _) forward).mp member
    rcases List.mem_append.mp inWait with isFirst | isBody
    · exact (Prod.mk.inj (List.mem_singleton.mp isFirst)).2
    · have range :=
        (site.bodiesCompile.laid (Nat.le_refl _)).fragment.inside _ isBody
      exact absurd range.1 (Nat.not_succ_le_self _)
  cases taken with
  | block runs alive resumes others =>
      rw [isCheck, site.check_selected selects] at runs
      rw [← (Prod.mk.inj runs).2] at resumes
      exact (Option.some.inj resumes).symm

/-- A body is left for no other one exactly if it cannot run to its end or no body behind
it has blocks. -/
theorem exclusive_iff {exec : ExecCtx W} {handler : Nat} (selects : site.Selects exec handler) :
    site.Exclusive exec handler ↔
      (site.CanEnd exec handler → ∀ later ∈ site.handlers.drop (handler + 1), later.2 = []) := by
  have isHandler := site.selects_lt selects
  rcases site.bodyCode_fragment isHandler with ⟨fragment, embeds⟩
  rw [← laterEmpty_iff site.bodiesCompile]
  constructor
  · rintro exclusive ⟨exit, started, history, final, step, run, atEnd⟩
    by_contra notLast
    rcases exclusive exit started step with ⟨isStart, stays⟩
    have within := fragment.run_of_part embeds run
    have high := (site.body_fragment isHandler).choose_spec.2.2
    have notPast : ∀ stage ∈ history, stage.state.blockId ≠ site.afterWait := by
      intro stage member
      have range := within.2 stage member
      omega
    rcases stays history final within.1 notPast with isAfter | inBody
    · exact notLast (atEnd.symm.trans isAfter)
    · exact absurd inBody.2 (by omega)
  · intro closes exit started step
    have isStart := site.starts_body selects step
    refine ⟨isStart, fun history final run avoids => ?_⟩
    have part := fragment.run_part embeds leads_of_blockRuns
      (fun past last ran atEnd => closes ⟨exit, started, past, last, step, ran, atEnd⟩)
      (Nat.le_of_eq isStart.symm) (isStart ▸ fragment.ordered) run avoids
    have range := fragment.run_inside leads_of_blockRuns part (Nat.le_of_eq isStart.symm)
      (isStart ▸ fragment.ordered)
    by_cases atEnd : final.blockId = bodyStart site.bodies (handler + 1)
    · exact .inl (atEnd.trans (closes ⟨exit, started, history, final, step, part, atEnd⟩))
    · exact .inr ⟨range.1, by omega⟩

/-- Nothing behind a `wait` in its list is compiled. -/
theorem goesOn_iff : site.GoesOn ↔ site.binds = [] ∧ site.rest = [] := by
  constructor
  · intro goesOn
    by_contra followed
    rcases goesOn (by tauto) with ⟨block, member⟩
    have range := (site.inside.compiles.laid site.list_placed).fragment.inside _ member
    have isEnd : site.listed.nextId = site.afterWait := site.listed_eq.2.1
    exact absurd range.2 (by rw [isEnd]; exact Nat.lt_irrefl _)
  · rintro ⟨noBinds, noRest⟩ (binds | rest)
    · exact absurd noBinds binds
    · exact absurd noRest rest

/-- Every `wait` that stands in the statements of compiled code is one of these. -/
theorem exists_of_inside {outer : Compiler.Task W} {outerEmitted listed : Emitted W} {inArm : Bool}
    {id : Nat} {scope : Scope} {binds : List (String × Ty)}
    {handlers : List (List Pattern × List Expr)} {filter rest : List Expr} (placed : outer.Placed)
    (inside : Inside rt ctx
      (listTask inArm id scope (bound binds (.wait handlers filter) :: rest), listed)
      (outer, outerEmitted)) :
    ∃ site : WaitSite rt ctx, site.code = outerEmitted.code ∧ site.id = id ∧
      site.handlers = handlers ∧ site.binds = binds ∧ site.rest = rest := by
  have compiled := inside.compiles.compile
  have isWait : ∃ emitted, compileExpr rt ctx id scope (bound binds (.wait handlers filter)) =
      some emitted := by
    rw [listTask] at compiled
    split at compiled
    · rw [Compiler.Task.compile, compileSeq] at compiled
      rcases bind_some compiled with ⟨first, isFirst, -⟩
      exact ⟨first, isFirst⟩
    · rw [Compiler.Task.compile, compileBody, not_acceptsEntry_bound,
        if_neg Bool.false_ne_true] at compiled
      rcases bind_some compiled with ⟨first, isFirst, -⟩
      exact ⟨first, isFirst⟩
  rcases isWait with ⟨emitted, isEmitted⟩
  rcases compile_wait (compile_bound _ isEmitted) with
    ⟨bodies, folded, dispatch, -, isBodies, isFolded, isDispatch, -, -⟩
  exact ⟨⟨outer, outerEmitted, placed, [], nofun, inArm, id, scope, binds, handlers, filter, rest,
    listed, inside, bodies, isBodies, folded, isFolded, dispatch, isDispatch⟩, rfl, rfl, rfl, rfl,
    rfl⟩

end WaitSite

/-! ## The choice -/

/-- A `wait` is an exclusive choice, and what stands behind it goes on, exactly if every
body that can run to its end has only empty bodies behind it and nothing stands behind the
`wait`. -/
theorem wait_exclusive_iff (site : WaitSite rt ctx) :
    ((∀ exec handler, site.Selects exec handler → site.Exclusive exec handler) ∧ site.GoesOn) ↔
      ((∀ exec handler, site.Selects exec handler → site.CanEnd exec handler →
        ∀ later ∈ site.handlers.drop (handler + 1), later.2 = []) ∧
      site.binds = [] ∧ site.rest = []) := by
  rw [site.goesOn_iff]
  apply and_congr_left'
  constructor
  · intro exclusive exec handler selects
    exact (site.exclusive_iff selects).mp (exclusive exec handler selects)
  · intro closes exec handler selects
    exact (site.exclusive_iff selects).mpr (closes exec handler selects)

/-- `wait { 0 i64 -> { true }  1 i64 -> { true }  n i64 -> { true } }` -/
def guardHandlers : List (List Pattern × List Expr) :=
  [([⟨"", .plain "i64", .numGuard 0⟩], [.bool true]),
    ([⟨"", .plain "i64", .numGuard 1⟩], [.bool true]),
    ([⟨"n", .plain "i64", .var⟩], [.bool true])]

def emptyScope : Scope := ⟨⟨[]⟩, [], 0⟩

/-- A branch that is a `wait` alone. -/
def soleWait (handlers : List (List Pattern × List Expr)) : Compiler.Task Unit :=
  .body [] some 0 emptyScope [.wait handlers []]

def soleSite (handlers : List (List Pattern × List Expr)) {listed bodies : Emitted Unit}
    {dispatch : Word → Option Nat} (compiled : (soleWait handlers).compile .idle .bare = some listed)
    (isBodies : compileHandlers .idle .bare 1 (registerHandlers emptyScope (collected handlers))
      handlers = some bodies)
    (isDispatch : emitDispatch .linear (waitAt emptyScope handlers) = some dispatch) :
    WaitSite .idle .bare where
  outer := soleWait handlers
  outerEmitted := listed
  placed := placed_body _ _ _ _
  unrolled := []
  inFront := nofun
  inArm := false
  id := 0
  scope := emptyScope
  binds := []
  handlers := handlers
  filter := []
  rest := []
  listed := listed
  inside := .here (Compiler.Task.compiles _ compiled)
  bodies := bodies
  isBodies := isBodies
  folded := []
  isFolded := rfl
  dispatch := dispatch
  isDispatch := isDispatch

def guardSite : WaitSite .idle .bare := soleSite guardHandlers rfl rfl rfl

theorem first_body_goes_on (exec : ExecCtx Unit) :
    BlockStep .idle guardSite.code ⟨1, exec⟩ (.goto 2) ⟨2, exec.setTemp 1⟩ :=
  ⟨_, List.mem_cons_of_mem _ List.mem_cons_self, .block rfl rfl rfl (.refl _ _)⟩

/-- The message `0` is taken to the first handler, behind whose body that of the second one
starts. -/
theorem zero_runs_two_bodies : ∃ exec : ExecCtx Unit, guardSite.Selects exec 0 ∧
    guardSite.GoesOn ∧ ¬ guardSite.Exclusive exec 0 := by
  let exec : ExecCtx Unit := ⟨Actor.zeroed.enqueue [0], fun _ => 0, 0, ()⟩
  have selects : guardSite.Selects exec 0 := by
    refine ⟨by decide, ?_⟩
    rw [emitDispatch_eq guardSite.isDispatch]
    decide
  refine ⟨exec, selects, guardSite.goesOn_iff.mpr ⟨rfl, rfl⟩, fun exclusive => ?_⟩
  have taken : BlockStep .idle guardSite.code ⟨0, exec⟩ (.goto 1) ⟨1, _⟩ :=
    ⟨_, List.mem_cons_self, .block (guardSite.check_selected selects) rfl rfl (.refl _ _)⟩
  have stays := (exclusive _ _ taken).2 _ _ (Run.refl.next (first_body_goes_on _))
  have avoids : (1 : Nat) ≠ guardSite.afterWait := by decide
  rcases stays fun stage member => by rw [List.mem_singleton.mp member]; exact avoids with
    isAfter | inBody
  · exact absurd isAfter (by decide)
  · exact absurd inBody (by decide)

end LakeNative.Control

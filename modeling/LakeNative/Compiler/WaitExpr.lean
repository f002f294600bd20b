import LakeNative.Runtime.Mailbox
import LakeNative.Compiler.Ast
import LakeNative.Compiler.BranchState

/-! # The compiled `wait`

What `wait` compiles to: the metadata of its handlers, how many words a dequeue
takes and where it puts them, and the block that checks the mailbox, dequeues,
filters by pid and dispatches to a handler.
-/

namespace LakeNative.Compiler

open LakeNative.Runtime

/-! ## Handlers -/

structure Handler where
  patterns : List Pattern
  /-- The variables that compiling the handler's body adds. -/
  bodyVars : List String

def Handler.guard (handler : Handler) : Option Word :=
  handler.patterns.head?.bind Pattern.guardI64

def Handler.binders (handler : Handler) : List String :=
  (handler.patterns.filter fun pattern =>
    !pattern.isWildcard && !pattern.isLiteralGuard).map Pattern.ident

structure HandlerMeta where
  argCount : Nat
  varBase : Nat
  guardI64 : Option Word

/-- The loop over the handlers that collects their metadata. Only the first handler
without a guard registers its variables. -/
def collectMeta (handlerVarBaseStart : Nat) (handlers : List HandlerMeta)
    (state : BranchState) : List Handler → List HandlerMeta × BranchState
  | [] => (handlers, state)
  | handler :: collect =>
      let guard := handler.guard
      let argCount := handler.binders.length
      if handlers.any fun earlier => earlier.guardI64.isNone then
        collectMeta handlerVarBaseStart
          (handlers ++ [⟨argCount, handlerVarBaseStart, guard⟩]) state collect
      else if guard.isNone then
        collectMeta handlerVarBaseStart (handlers ++ [⟨argCount, state.len, guard⟩])
          (state.insertAll handler.binders) collect
      else
        collectMeta handlerVarBaseStart
          (handlers ++ [⟨argCount, handlerVarBaseStart, guard⟩]) state collect

/-- A pure expression, by the values of the variables it names. -/
abbrev PureExpr := (String → Word) → Word

/-- A `wait` and the variables in scope where it stands. -/
structure WaitExpr where
  state : BranchState
  collect : List Handler
  filter : List PureExpr

/-- What became of one pass through the check: the actor goes to `wait_arr`, the
dequeued words are dropped by the filter or match no handler and the check is
entered again, or a handler's body starts. -/
inductive Outcome where
  | suspended
  | dropped
  | noMatch
  | fired (handler : Nat)
  deriving DecidableEq

namespace WaitExpr

def handlers (wait : WaitExpr) : List HandlerMeta :=
  (collectMeta wait.state.len [] wait.state wait.collect).1

/-- The variables when the filter is compiled, after the handlers and their bodies. -/
def boundState (wait : WaitExpr) : BranchState :=
  (collectMeta wait.state.len [] wait.state wait.collect).2.insertAll
    (wait.collect.flatMap Handler.bodyVars)

/-- The largest argument count across all handlers. -/
def dequeueArgCount (wait : WaitExpr) : Nat :=
  (wait.handlers.map HandlerMeta.argCount).foldr max 0

def dequeueVarBase (wait : WaitExpr) : Nat :=
  ((wait.handlers.find? fun handler => handler.guardI64.isNone).map HandlerMeta.varBase).getD
    wait.state.len

def hasGuards (wait : WaitExpr) : Bool :=
  wait.handlers.any fun handler => handler.guardI64.isSome

/-- The default of the guard switch: the last handler without a guard. -/
def wildcard (wait : WaitExpr) : Option Nat :=
  wait.handlers.zipIdx.foldl
    (fun found entry => if entry.1.guardI64.isNone then some entry.2 else found) none

/-- `dispatch_block`, given the first word. -/
def dispatch (wait : WaitExpr) (disc : Word) : Option Nat :=
  if wait.hasGuards then
    (wait.handlers.findIdx? fun handler => handler.guardI64 == some disc).or wait.wildcard
  else
    some 0

/-- The filter check, compiled after the dequeue has bound the words. -/
def accepts (wait : WaitExpr) (memory : Nat → Word) (disc : Word) : Bool :=
  wait.filter.isEmpty ||
    wait.filter.any fun expr => expr (wait.boundState.env memory) == disc

/-- One pass through `wait_check_block` and the blocks behind it. -/
def attempt (wait : WaitExpr) (actor : Actor) : Outcome × Actor :=
  if actor.mailboxHead = actor.mailboxTail then
    (.suspended, actor)
  else
    let disc :=
      if (wait.hasGuards || !wait.filter.isEmpty) && wait.dequeueArgCount ≠ 0 then
        actor.messageWord 0
      else
        0
    let dequeued := actor.dequeue wait.dequeueVarBase wait.dequeueArgCount
    if wait.accepts dequeued.vars disc then
      match wait.dispatch disc with
      | some handler => (.fired handler, dequeued)
      | none => (.noMatch, dequeued)
    else
      (.dropped, dequeued)

end WaitExpr

/-- A `wait` with a filter that the compiler accepts: it has a handler, a first word
to compare, and guards that the switch can hold, each once. -/
structure FilteredWait extends WaitExpr where
  collectSome : collect ≠ []
  filterSome : filter ≠ []
  argsSome : toWaitExpr.dequeueArgCount ≠ 0
  guardsFit : ∀ handler ∈ toWaitExpr.handlers, ∀ guard ∈ handler.guardI64, 0 ≤ guard.toInt
  guardsOnce : (toWaitExpr.handlers.filterMap HandlerMeta.guardI64).Nodup

/-! ## Slots and scopes -/

/-- Every handler binds from the first slot behind the scope of the `wait`. -/
theorem collectMeta_varBase {start : Nat} {handlers : List HandlerMeta}
    {state : BranchState} {collect : List Handler}
    (untouched : (handlers.any fun earlier => earlier.guardI64.isNone) = false →
      state.len = start)
    (sameBase : ∀ handler ∈ handlers, handler.varBase = start) :
    ∀ handler ∈ (collectMeta start handlers state collect).1, handler.varBase = start := by
  induction collect generalizing handlers state with
  | nil => exact sameBase
  | cons handler collect induction =>
      have extended : ∀ (added : HandlerMeta), added.varBase = start →
          ∀ other ∈ handlers ++ [added], other.varBase = start := by
        intro added isStart other member
        rcases List.mem_append.mp member with earlier | isLast
        · exact sameBase other earlier
        · rw [List.mem_singleton.mp isLast]
          exact isStart
      rw [collectMeta]
      split
      · rename_i registered
        refine induction (fun none => ?_) (extended _ rfl)
        rw [List.any_append, registered] at none
        exact absurd none (by simp)
      · rename_i unregistered
        rw [Bool.not_eq_true] at unregistered
        split
        · rename_i isWildcard
          refine induction (fun none => ?_) (extended _ (untouched unregistered))
          rw [List.any_append, List.any_cons, isWildcard] at none
          exact absurd none (by simp)
        · exact induction (fun _ => untouched unregistered) (extended _ rfl)

theorem collectMeta_get {start : Nat} {handlers : List HandlerMeta} {state : BranchState}
    {collect : List Handler} {name : String}
    (absent : name ∉ collect.flatMap Handler.binders) :
    (collectMeta start handlers state collect).2.get name = state.get name := by
  induction collect generalizing handlers state with
  | nil => rfl
  | cons handler collect induction =>
      rw [List.flatMap_cons, List.mem_append, not_or] at absent
      rw [collectMeta]
      split
      · exact induction absent.2
      · split
        · rw [induction absent.2]
          exact BranchState.get_insertAll absent.1
        · exact induction absent.2

namespace WaitExpr

/-- The names that the handlers bind, in their patterns and in their bodies. -/
def rebound (wait : WaitExpr) : List String :=
  wait.collect.flatMap Handler.binders ++ wait.collect.flatMap Handler.bodyVars

/-- The filter reads no name that the handlers bind. -/
def Scoped (wait : WaitExpr) : Prop :=
  ∀ expr ∈ wait.filter, ∀ env others : String → Word,
    (∀ name, name ∉ wait.rebound → env name = others name) → expr env = expr others

theorem dequeueVarBase_eq (wait : WaitExpr) : wait.dequeueVarBase = wait.state.len := by
  have sameBase := @collectMeta_varBase wait.state.len [] wait.state wait.collect
    (fun _ => rfl) (fun _ member => absurd member List.not_mem_nil)
  rw [dequeueVarBase]
  cases found : wait.handlers.find? fun handler => handler.guardI64.isNone with
  | none => rfl
  | some handler => exact sameBase handler (List.mem_of_find?_eq_some found)

theorem boundState_get (wait : WaitExpr) {name : String} (kept : name ∉ wait.rebound) :
    wait.boundState.get name = wait.state.get name := by
  rw [rebound, List.mem_append, not_or] at kept
  rw [boundState, BranchState.get_insertAll kept.2, collectMeta_get kept.1]

theorem foldl_unguarded_isSome (entries : List (HandlerMeta × Nat)) (found : Option Nat)
    (present : found.isSome ∨ ∃ entry ∈ entries, entry.1.guardI64 = none) :
    (entries.foldl (fun found entry =>
      if entry.1.guardI64.isNone then some entry.2 else found) found).isSome := by
  induction entries generalizing found with
  | nil => simpa using present
  | cons entry entries induction =>
      rw [List.foldl_cons]
      apply induction
      by_cases unguarded : entry.1.guardI64 = none
      · simp [unguarded]
      · rcases present with already | ⟨other, inEntries, isNone⟩
        · simp [unguarded, already]
        · rcases List.mem_cons.mp inEntries with rfl | later
          · exact absurd isNone unguarded
          · exact .inr ⟨other, later, isNone⟩

end WaitExpr

end LakeNative.Compiler

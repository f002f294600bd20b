import LakeNative.Compiler.Pipeline

/-! # The dispatch of a `wait`

The metadata of the handlers, one by one, and the switch that is compiled from them.
-/

namespace LakeNative.Compiler

open LakeNative.Runtime

theorem collectMeta_eq {start : Nat} {handlers : List HandlerMeta} {state : BranchState}
    {collect : List Handler}
    (untouched : (handlers.any fun earlier => earlier.guardI64.isNone) = false →
      state.len = start) :
    (collectMeta start handlers state collect).1 = handlers ++
      collect.map fun handler => ⟨handler.binders.length, start, handler.guard⟩ := by
  induction collect generalizing handlers state with
  | nil => exact (List.append_nil _).symm
  | cons handler collect induction =>
      have moved : ∀ added : HandlerMeta, handlers ++ [added] ++
          collect.map (fun handler => (⟨handler.binders.length, start, handler.guard⟩ : HandlerMeta)) =
          handlers ++ added :: collect.map fun handler =>
            ⟨handler.binders.length, start, handler.guard⟩ := fun added => by simp
      rw [collectMeta, List.map_cons]
      split
      · rename_i registered
        rw [← moved]
        refine induction fun unregistered => ?_
        rw [List.any_append, registered] at unregistered
        cases unregistered
      · rename_i unregistered
        rw [Bool.not_eq_true] at unregistered
        split
        · rename_i isWildcard
          rw [untouched unregistered, ← moved]
          refine induction fun none => ?_
          rw [List.any_append, List.any_cons, isWildcard, Bool.true_or, Bool.or_true] at none
          cases none
        · rw [← moved]
          exact induction fun _ => untouched unregistered

namespace WaitExpr

theorem handlers_eq (wait : WaitExpr) : wait.handlers =
    wait.collect.map fun handler => ⟨handler.binders.length, wait.state.len, handler.guard⟩ :=
  collectMeta_eq fun _ => rfl

theorem length_handlers (wait : WaitExpr) : wait.handlers.length = wait.collect.length := by
  rw [handlers_eq, List.length_map]

theorem handlers_ne_nil (wait : WaitExpr) (nonempty : wait.collect ≠ []) : wait.handlers ≠ [] := by
  rw [← List.length_pos_iff, length_handlers, List.length_pos_iff]
  exact nonempty

theorem foldl_unguarded (property : Nat → Prop) (entries : List (HandlerMeta × Nat))
    (found : Option Nat)
    (holds : ∀ entry ∈ entries, entry.1.guardI64 = none → property entry.2)
    (isFound : ∀ handler ∈ found, property handler) :
    ∀ handler ∈ entries.foldl (fun found entry =>
      if entry.1.guardI64.isNone then some entry.2 else found) found, property handler := by
  induction entries generalizing found with
  | nil => exact isFound
  | cons entry entries induction =>
      rw [List.forall_mem_cons] at holds
      rw [List.foldl_cons]
      refine induction _ holds.2 fun handler isHandler => ?_
      split at isHandler
      · rename_i unguarded
        cases isHandler
        exact holds.1 (Option.isNone_iff_eq_none.mp unguarded)
      · exact isFound handler isHandler

/-- The default is a handler without a guard. -/
theorem wildcard_unguarded (wait : WaitExpr) {handler : Nat}
    (isWildcard : wait.wildcard = some handler) :
    ∃ entry, wait.handlers[handler]? = some entry ∧ entry.guardI64 = none := by
  refine foldl_unguarded (fun handler =>
    ∃ entry, wait.handlers[handler]? = some entry ∧ entry.guardI64 = none)
    wait.handlers.zipIdx none (fun entry member unguarded => ?_) nofun handler isWildcard
  exact ⟨entry.1, List.mem_zipIdx_iff_getElem?.mp member, unguarded⟩

theorem wildcard_isSome (wait : WaitExpr) :
    wait.wildcard.isSome ↔ ∃ handler ∈ wait.handlers, handler.guardI64 = none := by
  constructor
  · intro present
    rcases Option.isSome_iff_exists.mp present with ⟨index, isWildcard⟩
    rcases wait.wildcard_unguarded isWildcard with ⟨entry, atIndex, unguarded⟩
    exact ⟨entry, List.mem_of_getElem? atIndex, unguarded⟩
  · rintro ⟨handler, member, unguarded⟩
    rcases List.getElem?_of_mem member with ⟨index, atIndex⟩
    apply foldl_unguarded_isSome _ none
    exact .inr ⟨(handler, index), List.mem_zipIdx_iff_getElem?.mpr atIndex, unguarded⟩

/-- A handler takes the word: one without a guard, or with this one. -/
def Takes (wait : WaitExpr) (word : Word) : Prop :=
  ∃ handler ∈ wait.collect, handler.guard = none ∨ handler.guard = some word

/-- Some handler is chosen for a word exactly if one takes it. -/
theorem dispatch_isSome_iff (wait : WaitExpr) (nonempty : wait.collect ≠ []) (word : Word) :
    (wait.dispatch word).isSome ↔ wait.Takes word := by
  have takes : wait.Takes word ↔
      ∃ handler ∈ wait.handlers, handler.guardI64 = none ∨ handler.guardI64 = some word := by
    rw [Takes, handlers_eq]
    simp
  rw [takes, dispatch]
  by_cases guarded : wait.hasGuards = true
  · rw [if_pos guarded, Option.isSome_or, Bool.or_eq_true, wildcard_isSome, List.findIdx?_isSome,
      List.any_eq_true]
    simp only [beq_iff_eq, and_or_left, exists_or]
    exact or_comm
  · rw [if_neg guarded]
    apply iff_of_true rfl
    rcases List.exists_mem_of_ne_nil _ (wait.handlers_ne_nil nonempty) with ⟨handler, member⟩
    refine ⟨handler, member, .inl ?_⟩
    rw [hasGuards, List.any_eq_true] at guarded
    by_contra isGuarded
    exact guarded ⟨handler, member, Option.isSome_iff_ne_none.mpr isGuarded⟩

/-- The dispatch chooses one of the handlers. -/
theorem dispatch_lt (wait : WaitExpr) (nonempty : wait.collect ≠ []) {disc : Word} {handler : Nat}
    (chosen : wait.dispatch disc = some handler) : handler < wait.handlers.length := by
  rw [dispatch] at chosen
  split at chosen
  · rcases Option.or_eq_some_iff.mp chosen with isGuard | ⟨-, isWildcard⟩
    · rw [List.findIdx?_eq_some_iff_getElem] at isGuard
      exact isGuard.1
    · rcases wait.wildcard_unguarded isWildcard with ⟨entry, atIndex, -⟩
      exact (List.getElem?_eq_some_iff.mp atIndex).1
  · cases chosen
    rw [length_handlers]
    exact List.length_pos_of_ne_nil nonempty

/-- The chosen handler's guard, if it has one, is the word that is compared. -/
theorem guard_of_dispatch (wait : WaitExpr) {disc guard : Word} {handler : Nat}
    {entry : HandlerMeta} (atIndex : wait.handlers[handler]? = some entry)
    (isGuard : entry.guardI64 = some guard) (chosen : wait.dispatch disc = some handler) :
    disc = guard := by
  have guarded : wait.hasGuards = true :=
    List.any_eq_true.mpr ⟨entry, List.mem_of_getElem? atIndex, by rw [isGuard]; rfl⟩
  rw [dispatch, if_pos guarded] at chosen
  rcases Option.or_eq_some_iff.mp chosen with isFirst | ⟨-, isWildcard⟩
  · rcases List.findIdx?_eq_some_iff_getElem.mp isFirst with ⟨inside, equal, -⟩
    rw [List.getElem?_eq_getElem inside, Option.some.injEq] at atIndex
    rw [atIndex, isGuard, beq_iff_eq, Option.some.injEq] at equal
    exact equal.symm
  · rcases wait.wildcard_unguarded isWildcard with ⟨other, atHandler, unguarded⟩
    cases atIndex.symm.trans atHandler
    cases isGuard.symm.trans unguarded

end WaitExpr

/-- The handlers with a guard, with its value and their index. -/
def guardEntries (handlers : List (HandlerMeta × Nat)) : List (Word × Nat) :=
  handlers.filterMap fun entry => entry.1.guardI64.map fun guard => (guard, entry.2)

theorem map_shift (found : Option Nat) (start : Nat) :
    found.map (· + (start + 1)) = (found.map (· + 1)).map (· + start) := by
  rw [Option.map_map]
  congr 1
  funext index
  exact (Nat.add_right_comm index 1 start).symm

theorem lookup_guardEntries (handlers : List HandlerMeta) (start : Nat) (disc : Word) :
    (guardEntries (handlers.zipIdx start)).lookup disc =
      (handlers.findIdx? fun handler => handler.guardI64 == some disc).map (· + start) := by
  induction handlers generalizing start with
  | nil => rfl
  | cons handler handlers induction =>
      rw [List.zipIdx_cons, guardEntries, List.findIdx?_cons]
      cases isGuard : handler.guardI64 with
      | none =>
          rw [List.filterMap_cons_none (by rw [isGuard]; rfl)]
          exact (induction (start + 1)).trans (map_shift _ start)
      | some guard =>
          rw [List.filterMap_cons_some (by rw [isGuard]; rfl), List.lookup_cons]
          by_cases same : disc = guard
          · simp [same]
          · have other : (some guard == some disc) = false :=
              beq_false_of_ne fun equal => same (Option.some.inj equal).symm
            rw [beq_false_of_ne same, other]
            exact (induction (start + 1)).trans (map_shift _ start)

/-- The switch of an accepted `wait` does what the comparisons one by one do. -/
theorem emitDispatch_eq {switch : Switch} {wait : WaitExpr} {dispatch : Word → Option Nat}
    (accepted : emitDispatch switch wait = some dispatch) : dispatch = wait.dispatch := by
  funext disc
  rw [emitDispatch] at accepted
  rw [WaitExpr.dispatch]
  split at accepted
  · rename_i guarded
    rcases Option.map_eq_some_iff.mp accepted with ⟨table, isTable, rfl⟩
    have entries : (wait.handlers.zipIdx.filterMap fun entry =>
        entry.1.guardI64.map fun guard => (asU128 guard, entry.2)) =
        (guardEntries wait.handlers.zipIdx).map fun entry => (asU128 entry.1, entry.2) := by
      rw [guardEntries, List.map_filterMap]
      simp only [Option.map_map, Function.comp_def]
    rw [entries] at isTable
    rw [if_pos guarded]
    dsimp only
    rw [Switch.accepted_lookup isTable, lookup_guardEntries]
    simp
  · rename_i unguarded
    cases accepted
    rw [if_neg unguarded]

end LakeNative.Compiler

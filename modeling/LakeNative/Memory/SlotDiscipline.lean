import LakeNative.Compiler.SlotTable
import LakeNative.Library.Transitions
import LakeNative.Memory.FrameSizing

/-! # Slots that are handed out once

The next slot is computed from the names that are in the table. As long as the name that was
inserted last stays there, it is the number of all slots so far; when that name is removed,
its slot is handed out again.
-/

namespace LakeNative.Memory

open LakeNative.Compiler LakeNative.Transitions

variable {Ty Var : Type} {use next : SlotUse Ty Var} {call : SlotCall Ty Var}
  {history : List (Stage (SlotUse Ty Var) (SlotCall Ty Var))}

/-- A step of the compiler's table is one call. -/
def SlotStep (use : SlotUse Ty Var) (call : SlotCall Ty Var) (next : SlotUse Ty Var) : Prop :=
  use.call call = next

/-- No names share a slot. -/
def Apart (use : SlotUse Ty Var) : Prop :=
  ∀ name other slot, use.table.slotOf name = some slot →
    use.table.slotOf other = some slot → name = other

/-- Names have slots of their own, no slot was handed out twice, and the length is the number of
all slots and above each of them. -/
structure Disciplined (use : SlotUse Ty Var) : Prop where
  apart : Apart use
  once : (use.handed.map Prod.snd).Nodup
  counted : use.table.len = use.handed.length
  covered : ∀ entry ∈ use.handed, entry.2 < use.table.len

/-- The call does not remove the name that was inserted last. -/
def SparesLatest (use : SlotUse Ty Var) : SlotCall Ty Var → Prop
  | .remove name => ∀ entry ∈ use.handed.head?, entry.1 ≠ name
  | _ => True

/-! ## Names apart -/

/-- A new name gets a slot above those of the others. -/
theorem Apart.insert (apart : Apart use) (name : String) (ty : Ty) (handed : List (String × Nat)) :
    Apart ⟨(use.table.insert name ty).2, handed⟩ := by
  intro first second slot isFirst isSecond
  dsimp only at isFirst isSecond
  by_cases firstNew : first = name
  · by_cases secondNew : second = name
    · exact firstNew.trans secondNew.symm
    · rw [firstNew, SlotTable.slotOf_insert] at isFirst
      rw [SlotTable.slotOf_insert_ne _ secondNew] at isSecond
      cases isFirst
      exact absurd (SlotTable.slot_lt_len isSecond) (Nat.lt_irrefl _)
  · rw [SlotTable.slotOf_insert_ne _ firstNew] at isFirst
    by_cases secondNew : second = name
    · rw [secondNew, SlotTable.slotOf_insert] at isSecond
      cases isSecond
      exact absurd (SlotTable.slot_lt_len isFirst) (Nat.lt_irrefl _)
    · rw [SlotTable.slotOf_insert_ne _ secondNew] at isSecond
      exact apart first second slot isFirst isSecond

theorem slotOf_of_remove {table : SlotTable Ty Var} {name other : String} {slot : Nat}
    (found : (table.remove name).slotOf other = some slot) :
    other ≠ name ∧ table.slotOf other = some slot := by
  by_cases same : other = name
  · rw [same, SlotTable.slotOf_remove] at found
    cases found
  · rw [SlotTable.slotOf_remove_ne table same] at found
    exact ⟨same, found⟩

theorem Apart.remove (apart : Apart use) (name : String) :
    Apart { use with table := use.table.remove name } := by
  intro first second slot isFirst isSecond
  exact apart first second slot (slotOf_of_remove isFirst).2 (slotOf_of_remove isSecond).2

theorem Apart.step (apart : Apart use) (step : SlotStep use call next) : Apart next := by
  cases step
  cases call with
  | insert name ty => exact apart.insert name ty _
  | insertWithLakeType name ty lakeTy => exact apart.insert name ty use.handed
  | cacheSlot slot var => exact apart
  | clearVarCache => exact apart
  | remove name => exact apart.remove name

/-- Whatever is inserted, shadowed and removed, no two names have the same slot, and the
length is above the slots of all names. -/
theorem names_apart {final : SlotUse Ty Var} (run : Run SlotStep .start history final) :
    Throughout Apart history final := by
  apply run.invariant
  · intro name other slot found
    cases found
  · exact fun _ _ _ apart step => apart.step step

/-! ## Slots in order -/

/-- The slots are numbered in order, and the latest name still has its own. -/
structure Dense (use : SlotUse Ty Var) : Prop where
  apart : Apart use
  numbered : use.handed.map Prod.snd = (List.range use.handed.length).reverse
  counted : use.table.len = use.handed.length
  latest : ∀ entry ∈ use.handed.head?, use.table.slotOf entry.1 = some entry.2

namespace Dense

theorem start : Dense (.start : SlotUse Ty Var) where
  apart := by
    intro name other slot found
    cases found
  numbered := rfl
  counted := rfl
  latest := nofun

theorem disciplined (dense : Dense use) : Disciplined use where
  apart := dense.apart
  once := by
    rw [dense.numbered]
    exact List.nodup_reverse.mpr List.nodup_range
  counted := dense.counted
  covered := by
    intro entry member
    have isSlot : entry.2 ∈ use.handed.map Prod.snd := List.mem_map_of_mem member
    rw [dense.numbered, List.mem_reverse, List.mem_range] at isSlot
    rw [dense.counted]
    exact isSlot

theorem insert (dense : Dense use) (name : String) (ty : Ty) :
    Dense ⟨(use.table.insert name ty).2, (name, use.table.len) :: use.handed⟩ where
  apart := dense.apart.insert name ty _
  numbered := by
    rw [List.map_cons, List.length_cons, List.range_succ, List.reverse_append, dense.numbered,
      dense.counted]
    rfl
  counted := by
    rw [SlotTable.len_insert, dense.counted]
    rfl
  latest := by
    intro entry isHead
    cases isHead
    exact SlotTable.slotOf_insert use.table name ty

/-- The latest slot is the highest one. -/
theorem latest_slot (dense : Dense use) {entry : String × Nat} (isHead : entry ∈ use.handed.head?) :
    use.table.len = entry.2 + 1 := by
  rcases List.head?_eq_some_iff.mp isHead with ⟨earlier, isHanded⟩
  have numbered := dense.numbered
  rw [isHanded, List.map_cons, List.length_cons, List.range_succ, List.reverse_append] at numbered
  have isLast : entry.2 = earlier.length := (List.cons.inj numbered).1
  rw [dense.counted, isHanded, isLast]
  rfl

theorem remove (dense : Dense use) {name : String}
    (spares : SparesLatest use (.remove name : SlotCall Ty Var)) :
    Dense { use with table := use.table.remove name } where
  apart := dense.apart.remove name
  numbered := dense.numbered
  counted := by
    rw [← dense.counted]
    apply Nat.le_antisymm (use.table.len_remove_le name)
    cases isHead : use.handed.head? with
    | none =>
        rw [dense.counted, List.head?_eq_none_iff.mp isHead]
        exact Nat.zero_le _
    | some entry =>
        rw [dense.latest_slot isHead]
        apply SlotTable.slot_lt_len
        rw [SlotTable.slotOf_remove_ne _ (spares entry isHead)]
        exact dense.latest entry isHead
  latest := by
    intro entry isHead
    dsimp only at isHead ⊢
    rw [SlotTable.slotOf_remove_ne _ (spares entry isHead)]
    exact dense.latest entry isHead

theorem step (dense : Dense use) (spares : SparesLatest use call) (step : SlotStep use call next) :
    Dense next := by
  cases step
  cases call with
  | insert name ty => exact dense.insert name ty
  | insertWithLakeType name ty lakeTy =>
      have inserted := dense.insert name ty
      exact ⟨inserted.apart, inserted.numbered, inserted.counted, inserted.latest⟩
  | cacheSlot slot var => exact ⟨dense.apart, dense.numbered, dense.counted, dense.latest⟩
  | clearVarCache => exact ⟨dense.apart, dense.numbered, dense.counted, dense.latest⟩
  | remove name => exact dense.remove spares

/-- Removing the latest name makes the table shorter than the number of its slots. -/
theorem spares_of_disciplined (dense : Dense use) (step : SlotStep use call next)
    (after : Disciplined next) : SparesLatest use call := by
  cases step
  cases call with
  | remove name =>
      intro entry isHead isLatest
      have shorter : (use.table.remove name).len ≤ entry.2 := by
        apply (SlotTable.len_le_iff _ _).mpr
        intro other slot found
        rcases slotOf_of_remove found with ⟨different, found⟩
        have below := SlotTable.slot_lt_len found
        rw [dense.latest_slot isHead] at below
        apply Nat.lt_of_le_of_ne (Nat.le_of_lt_succ below)
        rintro rfl
        exact different ((dense.apart other entry.1 _ found (dense.latest entry isHead)).trans isLatest)
      have counted : (use.table.remove name).len = use.handed.length := after.counted
      rw [← dense.counted, dense.latest_slot isHead] at counted
      omega
  | _ => trivial

end Dense

/-- The table keeps its discipline through a run exactly if no call of the run removes the name
that was inserted last. -/
theorem slots_disciplined_iff {final : SlotUse Ty Var} (run : Run SlotStep .start history final) :
    Throughout Disciplined history final ↔ Meets SparesLatest history := by
  constructor
  · intro disciplined
    suffices spared : Meets SparesLatest history ∧ Dense final from spared.1
    induction run with
    | refl => exact ⟨meets_nil _, .start⟩
    | next earlier step induction =>
        rcases throughout_cons.mp disciplined with ⟨before, after⟩
        rcases induction before with ⟨spared, dense⟩
        have spares := dense.spares_of_disciplined step after
        exact ⟨meets_cons.mpr ⟨spares, spared⟩, dense.step spares step⟩
  · intro spared
    have dense := run.invariant_of_meets spared Dense.start
      fun _ _ _ dense spares step => dense.step spares step
    exact ⟨fun stage member => (dense.1 stage member).disciplined, dense.2.disciplined⟩

/-- Every call is possible at any time. -/
theorem run_call (run : Run SlotStep .start history use) (call : SlotCall Ty Var) :
    Run SlotStep .start (⟨use, call⟩ :: history) (use.call call) := run.next rfl

/-- A name that is shadowed and one that was not inserted last may be removed. -/
theorem slots_disciplined_removal : ∃ history final,
    Run SlotStep (.start : SlotUse Unit Nat) history final ∧
      final.handed = [("s", 2), ("s", 1), ("n", 0)] ∧ final.table.slotOf "n" = none ∧
      Throughout Disciplined history final := by
  have first : Run SlotStep (.start : SlotUse Unit Nat) _ _ := run_call .refl (.insert "n" ())
  have run := run_call (run_call (run_call first (.insert "s" ())) (.insert "s" ())) (.remove "n")
  refine ⟨_, _, run, rfl, rfl, (slots_disciplined_iff run).mpr (meets_cons.mpr ⟨?_, ?_⟩)⟩
  · intro entry isHead
    cases isHead
    decide
  · simp [SparesLatest]

/-- What an unrolled loop of a machine that counts from `n` does, with a `let` in two of its
iterations. -/
theorem iterations_share_slot : ∃ history final,
    Run SlotStep (.start : SlotUse Unit Nat) history final ∧
      (history.map Stage.label).reverse = [.insertWithLakeType "n" () "i64", .insert "s" (),
        .cacheSlot 1 0, .remove "s", .insert "s" (), .cacheSlot 1 1, .remove "s"] ∧
      final.handed = [("s", 1), ("s", 1), ("n", 0)] ∧ final.table.len = 1 ∧
      ¬ Throughout Disciplined history final := by
  have param : Run SlotStep (.start : SlotUse Unit Nat) _ _ :=
    run_call .refl (.insertWithLakeType "n" () "i64")
  have once := run_call (run_call (run_call param (.insert "s" ())) (.cacheSlot 1 0)) (.remove "s")
  have run := run_call (run_call (run_call once (.insert "s" ())) (.cacheSlot 1 1)) (.remove "s")
  refine ⟨_, _, run, rfl, rfl, rfl, fun disciplined => ?_⟩
  have counted : 1 = 3 := disciplined.2.counted
  cases counted

/-! ## The table of the other passes -/

/-- The calls on the slots alone. -/
def callNames (state : BranchState) : SlotCall Ty Var → BranchState
  | .insert name _ => state.insert name
  | .insertWithLakeType name _ _ => state.insert name
  | .cacheSlot _ _ => state
  | .clearVarCache => state
  | .remove name => state.remove name

/-- Names have the same slots, and what is shadowed lies below what shadows it. -/
structure SameSlots (table : SlotTable Ty Var) (state : BranchState) : Prop where
  same : ∀ name, table.slotOf name = state.get name
  shadows : ∀ entry ∈ state.vars, ∃ slot, state.get entry.1 = some slot ∧ entry.2 ≤ slot

theorem get_insert_ne (state : BranchState) {name other : String} (different : other ≠ name) :
    (state.insert name).get other = state.get other := by
  rw [BranchState.get, BranchState.insert, List.lookup_cons, beq_false_of_ne different]
  rfl

theorem get_remove (state : BranchState) (name other : String) :
    (state.remove name).get other = if other = name then none else state.get other := by
  rcases state with ⟨vars⟩
  simp only [BranchState.remove, BranchState.get]
  induction vars with
  | nil => simp
  | cons entry vars induction =>
      by_cases removed : entry.1 = name
      · rw [List.filter_cons_of_neg (by simpa using removed), induction, List.lookup_cons]
        by_cases isName : other = name
        · rw [if_pos isName, if_pos isName]
        · rw [beq_false_of_ne fun same => isName (same.trans removed)]
      · rw [List.filter_cons_of_pos (by simpa using removed), List.lookup_cons, List.lookup_cons,
          induction]
        by_cases isName : other = name
        · rw [beq_false_of_ne fun same => removed (same.symm.trans isName)]
        · simp [isName]

namespace SameSlots

variable {table : SlotTable Ty Var} {state : BranchState}

theorem len_eq (same : SameSlots table state) : table.len = state.len := by
  apply Nat.le_antisymm
  · apply (table.len_le_iff _).mpr
    intro name slot found
    exact BranchState.slot_lt_len ((same.same name).symm.trans found)
  · have below : ∀ entry ∈ state.vars, entry.2 < table.len := by
      intro entry member
      rcases same.shadows entry member with ⟨slot, isSlot, atMost⟩
      exact Nat.lt_of_le_of_lt atMost (SlotTable.slot_lt_len ((same.same _).trans isSlot))
    rw [BranchState.len]
    generalize state.vars = vars at below
    induction vars with
    | nil => exact Nat.zero_le _
    | cons entry vars induction =>
        rcases List.forall_mem_cons.mp below with ⟨first, later⟩
        exact Nat.max_le.mpr ⟨first, induction later⟩

theorem insert (same : SameSlots table state) (name : String) (ty : Ty) :
    SameSlots (table.insert name ty).2 (state.insert name) where
  same := by
    intro other
    by_cases isNew : other = name
    · rw [isNew, SlotTable.slotOf_insert, BranchState.get_insert, same.len_eq]
    · rw [SlotTable.slotOf_insert_ne _ isNew, get_insert_ne _ isNew, same.same]
  shadows := by
    intro entry member
    rcases List.mem_cons.mp member with rfl | earlier
    · exact ⟨state.len, state.get_insert name, Nat.le_refl _⟩
    · rcases same.shadows entry earlier with ⟨slot, isSlot, atMost⟩
      by_cases isNew : entry.1 = name
      · rw [isNew]
        have below := BranchState.slot_lt_len isSlot
        exact ⟨state.len, state.get_insert name, by omega⟩
      · exact ⟨slot, (get_insert_ne _ isNew).trans isSlot, atMost⟩

theorem remove (same : SameSlots table state) (name : String) :
    SameSlots (table.remove name) (state.remove name) where
  same := by
    intro other
    rw [get_remove]
    by_cases isRemoved : other = name
    · rw [if_pos isRemoved, isRemoved, SlotTable.slotOf_remove]
    · rw [if_neg isRemoved, SlotTable.slotOf_remove_ne _ isRemoved, same.same]
  shadows := by
    intro entry member
    rcases List.mem_filter.mp member with ⟨earlier, kept⟩
    rcases same.shadows entry earlier with ⟨slot, isSlot, atMost⟩
    refine ⟨slot, ?_, atMost⟩
    rw [get_remove, if_neg (of_decide_eq_true kept)]
    exact isSlot

end SameSlots

/-- The other passes see the slots and the length that the table has. -/
theorem branch_state_same_slots {final : SlotUse Ty Var} (run : Run SlotStep .start history final) :
    SameSlots final.table
      (history.foldr (fun stage state => callNames state stage.label) ⟨[]⟩) := by
  induction run with
  | refl => exact ⟨fun _ => rfl, nofun⟩
  | @next _ _ call _ _ step induction =>
      cases step
      rw [List.foldr_cons]
      cases call with
      | insert name ty => exact induction.insert name ty
      | insertWithLakeType name ty lakeTy =>
          have inserted := induction.insert name ty
          exact ⟨inserted.same, inserted.shadows⟩
      | cacheSlot slot var => exact ⟨induction.same, induction.shadows⟩
      | clearVarCache => exact ⟨induction.same, induction.shadows⟩
      | remove name => exact induction.remove name

/-- Behind an iteration of an unrolled loop whose names are new, the table is as before it, and
the next iteration gets the same slots. -/
theorem state_compileIteration {W : Type} {rt : RtFuncs W} {ctx : CompilerCtx} {info : TailLoopInfo}
    {state next : BranchState} {iteration : Iteration W}
    (areNew : ∀ entry ∈ state.vars, entry.1 ∉ info.preStmts.filterMap PreStmt.local)
    (compiled : compileIteration rt ctx info state = some (iteration, next)) : next = state := by
  have one : compileIterations rt ctx info state (0 + 1) = some ([iteration], next) := by
    rw [compileIterations, compiled]
    rfl
  have unchanged : state.without (info.preStmts.filterMap PreStmt.local) = state := by
    rcases state with ⟨vars⟩
    have kept : vars.filter (fun entry => entry.1 ∉ info.preStmts.filterMap PreStmt.local) = vars :=
      List.filter_eq_self.mpr fun entry member => decide_eq_true (areNew entry member)
    rw [BranchState.without, kept]
  exact (state_compileIterations one).trans unchanged

end LakeNative.Memory

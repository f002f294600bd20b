import Mathlib.Tactic.Common
import LakeNative.Runtime.HeapArray

/-! # Variables of a branch

The compiler's table of the variables in scope and the slots of the runtime's
variables array that they have.
-/

namespace LakeNative.Compiler

open LakeNative.Runtime

/-- The slots of the named variables, latest first; a name that is bound again
gets a new slot. -/
structure BranchState where
  vars : List (String × Nat)

namespace BranchState

def get (state : BranchState) (name : String) : Option Nat := state.vars.lookup name

/-- `next_index`: one past the highest slot. -/
def len (state : BranchState) : Nat :=
  state.vars.foldr (fun entry highest => max (entry.2 + 1) highest) 0

def insert (state : BranchState) (name : String) : BranchState where
  vars := (name, state.len) :: state.vars

def insertAll (state : BranchState) (names : List String) : BranchState :=
  names.foldl insert state

/-- The values of the variables by name. A name without a slot stops the compiler. -/
def env (state : BranchState) (memory : Nat → Word) (name : String) : Word :=
  match state.get name with
  | some slot => memory slot
  | none => 0

variable {state : BranchState} {name : String}

theorem slot_lt_len {slot : Nat} (found : state.get name = some slot) : slot < state.len := by
  rcases state with ⟨vars⟩
  simp only [get, len] at *
  induction vars with
  | nil => simp at found
  | cons entry vars induction =>
      rw [List.lookup_cons] at found
      rw [List.foldr_cons]
      split at found
      · cases found
        omega
      · have below := induction found
        omega

theorem get_insertAll {names : List String} (absent : name ∉ names) :
    (state.insertAll names).get name = state.get name := by
  induction names generalizing state with
  | nil => rfl
  | cons first names induction =>
      rw [List.mem_cons, not_or] at absent
      have later := @induction (state.insert first) absent.2
      have other : (name == first) = false := beq_false_of_ne absent.1
      rw [insertAll, List.foldl_cons]
      apply later.trans
      rw [get, insert, List.lookup_cons, other]
      rfl

theorem len_insert (state : BranchState) (name : String) :
    (state.insert name).len = state.len + 1 := by
  change max (state.len + 1) state.len = state.len + 1
  omega

theorem len_insertAll (state : BranchState) (names : List String) :
    (state.insertAll names).len = state.len + names.length := by
  induction names generalizing state with
  | nil => rfl
  | cons name names induction =>
      rw [insertAll, List.foldl_cons]
      apply (induction (state.insert name)).trans
      rw [len_insert, List.length_cons]
      omega

theorem get_insert (state : BranchState) (name : String) :
    (state.insert name).get name = some state.len := by
  rw [get, insert, List.lookup_cons, beq_self_eq_true]

/-- A name has the slot of its last binding. -/
theorem get_insertAll_last (state : BranchState) {names : List String} {index : Nat}
    {name : String} (atIndex : names[index]? = some name)
    (isLast : name ∉ names.drop (index + 1)) :
    (state.insertAll names).get name = some (state.len + index) := by
  rcases List.getElem?_eq_some_iff.mp atIndex with ⟨inside, isName⟩
  have parts : names = names.take index ++ name :: names.drop (index + 1) := by
    rw [← isName, ← List.drop_eq_getElem_cons inside, List.take_append_drop]
  have split : state.insertAll names =
      (((state.insertAll (names.take index)).insert name).insertAll
        (names.drop (index + 1))) := by
    conv_lhs => rw [parts]
    rw [insertAll, List.foldl_append, List.foldl_cons]
    rfl
  rw [split, get_insertAll isLast, get_insert, len_insertAll, List.length_take,
    Nat.min_eq_left (Nat.le_of_lt inside)]

end BranchState

end LakeNative.Compiler

import LakeNative.Library.DenseArray
import Mathlib.Data.List.Rotate

/-! # The turns of a round-robin list

A cursor runs over a list in a circle. The turns are the elements in the order in
which the cursor meets them. This file says when a relation that holds between
each element and those whose turn is later still does after elements entered the
list or left it.
-/

namespace LakeNative.RoundRobin

open LakeNative.DenseArray

universe u
variable {α : Type u} {keeps : α → α → Prop} {elements : List α} {cursor : Nat}

/-- The elements from the cursor on, and then those before it. -/
def turns (elements : List α) (cursor : Nat) : List α :=
  elements.drop cursor ++ elements.take cursor

/-- The elements that the last one passes when it fills the place at the cursor. -/
def passed (elements : List α) (cursor : Nat) : List α :=
  (elements.drop (cursor + 1)).dropLast

@[simp] theorem turns_zero (elements : List α) : turns elements 0 = elements := by
  simp [turns]

@[simp] theorem turns_length (elements : List α) :
    turns elements elements.length = elements := by
  simp [turns]

theorem turns_eq_rotate (within : cursor ≤ elements.length) :
    turns elements cursor = elements.rotate cursor :=
  (List.rotate_eq_drop_append_take within).symm

theorem mem_turns {element : α} : element ∈ turns elements cursor ↔ element ∈ elements := by
  rw [turns, List.mem_append, or_comm, ← List.mem_append, List.take_append_drop]

/-- A list around the cursor: what precedes it, the element there and the rest. -/
theorem exists_parts (inRange : cursor < elements.length) :
    ∃ before current behind, elements = before ++ current :: behind ∧
      before.length = cursor := by
  refine ⟨elements.take cursor, elements[cursor], elements.drop (cursor + 1), ?_, ?_⟩
  · rw [List.getElem_cons_drop, List.take_append_drop]
  · rw [List.length_take]
    omega

theorem turns_parts (before behind : List α) (current : α) :
    turns (before ++ current :: behind) before.length = current :: (behind ++ before) := by
  simp [turns]

theorem turns_parts_succ (before behind : List α) (current : α) :
    turns (before ++ current :: behind) (before.length + 1) =
      (behind ++ before) ++ [current] := by
  have drops : (before ++ current :: behind).drop (before.length + 1) = behind := by
    rw [← List.drop_drop, List.drop_left]
    rfl
  have takes : (before ++ current :: behind).take (before.length + 1) =
      before ++ [current] := by
    rw [List.take_length_add_append]
    rfl
  rw [turns, drops, takes, List.append_assoc]

theorem passed_parts (before between : List α) (current last : α) :
    passed (before ++ current :: (between ++ [last])) before.length = between := by
  rw [passed, ← List.drop_drop, List.drop_left]
  exact List.dropLast_concat

/-- An element that enters at the end of the list has its turn before those that
the cursor has left behind. -/
theorem pairwise_append (within : cursor ≤ elements.length) {entered : α}
    (inTurn : (turns elements cursor).Pairwise keeps)
    (ahead : ∀ element ∈ elements, keeps element entered)
    (overtaken : ∀ element ∈ elements.take cursor, keeps entered element) :
    (turns (elements ++ [entered]) cursor).Pairwise keeps := by
  rw [turns, List.drop_append_of_le_length within, List.take_append_of_le_length within,
    List.append_assoc]
  rw [turns] at inTurn
  rcases List.pairwise_append.mp inTurn with ⟨first, second, across⟩
  refine List.pairwise_append.mpr ⟨first, ?_, ?_⟩
  · exact List.pairwise_cons.mpr ⟨overtaken, second⟩
  · intro element fromCursor later isLater
    rcases List.mem_cons.mp isLater with rfl | wrapped
    · exact ahead element (List.mem_of_mem_drop fromCursor)
    · exact across element fromCursor later wrapped

/-- When the element at the cursor has had its turn and goes, and the last one
fills its place, all keep their turns but the last, which passes some. -/
theorem pairwise_swapPop (inRange : cursor < elements.length)
    (inTurn : (turns elements (cursor + 1)).Pairwise keeps)
    (moved : ∀ last ∈ elements.getLast?, ∀ element ∈ passed elements cursor,
      keeps last element) :
    (turns (swapPop elements cursor)
      (if cursor + 1 = elements.length then 0 else cursor)).Pairwise keeps := by
  rcases exists_parts inRange with ⟨before, current, behind, rfl, rfl⟩
  rw [turns_parts_succ, List.append_assoc] at inTurn
  rcases List.eq_nil_or_concat behind with rfl | ⟨between, last, rfl⟩
  · have isLast : before.length + 1 = (before ++ [current]).length := by simp
    rw [if_pos isLast, swapPop_last isLast, List.dropLast_concat, turns_zero]
    rw [List.nil_append] at inTurn
    exact (List.pairwise_append.mp inTurn).1
  · rw [List.concat_eq_append] at *
    have notLast :
        before.length + 1 ≠ (before ++ current :: (between ++ [last])).length := by
      simp
    have atEnd : last ∈ (before ++ current :: (between ++ [last])).getLast? := by
      rw [← List.cons_append, ← List.append_assoc, List.getLast?_concat]
      rfl
    rw [if_neg notLast, swapPop_middle, turns_parts]
    have passes := moved last atEnd
    rw [passed_parts] at passes
    rw [List.append_assoc] at inTurn
    rcases List.pairwise_append.mp inTurn with ⟨first, second, across⟩
    rcases List.pairwise_append.mp second with ⟨-, rest, lastAhead⟩
    have wrapped := (List.pairwise_append.mp rest).1
    refine List.pairwise_cons.mpr ⟨?_, List.pairwise_append.mpr ⟨first, wrapped, ?_⟩⟩
    · intro element later
      rcases List.mem_append.mp later with inBetween | inBefore
      · exact passes element inBetween
      · exact lastAhead last (by simp) element (by simp [inBefore])
    · intro element inBetween later inBefore
      exact across element inBetween later (by simp [inBefore])

/-- When in addition the cursor goes back to the start of the list, those before
the cursor pass those behind it. -/
theorem pairwise_swapPop_restart (inRange : cursor < elements.length)
    (inTurn : (turns elements (cursor + 1)).Pairwise keeps)
    (moved : ∀ last ∈ elements.getLast?, ∀ element ∈ passed elements cursor,
      keeps last element)
    (restarted : ∀ element ∈ elements.take cursor,
      ∀ later ∈ elements.drop (cursor + 1), keeps element later) :
    (turns (swapPop elements cursor) 0).Pairwise keeps := by
  rw [turns_zero]
  have kept := pairwise_swapPop inRange inTurn moved
  by_cases isLast : cursor + 1 = elements.length
  · rwa [if_pos isLast, turns_zero] at kept
  · rw [if_neg isLast] at kept
    rcases exists_parts inRange with ⟨before, current, behind, rfl, rfl⟩
    rcases List.eq_nil_or_concat behind with rfl | ⟨between, last, rfl⟩
    · simp at isLast
    · rw [List.concat_eq_append] at *
      have behindCurrent : (before ++ current :: (between ++ [last])).drop
          (before.length + 1) = between ++ [last] := by
        rw [← List.drop_drop, List.drop_left]
        rfl
      rw [List.take_left, behindCurrent] at restarted
      rw [swapPop_middle, turns_parts, ← List.cons_append] at kept
      rw [swapPop_middle]
      rcases List.pairwise_append.mp kept with ⟨first, second, -⟩
      refine List.pairwise_append.mpr ⟨second, first, ?_⟩
      intro element inBefore later isLater
      apply restarted element inBefore later
      rcases List.mem_cons.mp isLater with rfl | inBetween
      · simp
      · simp [inBetween]

end LakeNative.RoundRobin

import Mathlib.Data.List.Perm.Basic
import Mathlib.Data.List.Nodup

/-! # Dense arrays with swap-and-pop removal

An array of unordered elements is kept dense by moving its last element into
the place of a removed one. This file gives that removal on lists and relates it
to the two cell updates an implementation performs on raw memory.
-/

namespace LakeNative.DenseArray

universe u v
variable {α : Type u}

/-! ## Removal on lists -/

/-- Remove position `index` by moving the last element there. -/
def swapPop (elements : List α) (index : Nat) : List α :=
  match elements.getLast? with
  | none => []
  | some last => elements.dropLast.set index last

@[simp] theorem swapPop_append_singleton (elements : List α) (last : α) (index : Nat) :
    swapPop (elements ++ [last]) index = elements.set index last := by
  simp [swapPop]

theorem eq_append_of_lt_length {elements : List α} {index : Nat}
    (inRange : index < elements.length) :
    ∃ initial last, elements = initial ++ [last] := by
  rcases List.eq_nil_or_concat elements with rfl | ⟨initial, last, rfl⟩
  · simp at inRange
  · exact ⟨initial, last, by simp⟩

@[simp] theorem length_swapPop (elements : List α) (index : Nat) :
    (swapPop elements index).length = elements.length - 1 := by
  rcases List.eq_nil_or_concat elements with rfl | ⟨initial, last, rfl⟩
  · simp [swapPop]
  · simp

/-- What is where after a removal: the last element at the hole, the rest in
place. -/
theorem getElem?_swapPop (elements : List α) (index position : Nat) :
    (swapPop elements index)[position]? =
      if position + 1 < elements.length then
        if position = index then elements[elements.length - 1]? else elements[position]?
      else none := by
  rcases List.eq_nil_or_concat elements with rfl | ⟨initial, last, rfl⟩
  · simp [swapPop]
  · rw [List.concat_eq_append, swapPop_append_singleton, List.getElem?_set]
    simp only [List.length_append, List.length_singleton, Nat.add_lt_add_iff_right,
      Nat.add_sub_cancel]
    by_cases inRange : position < initial.length
    · by_cases atHole : position = index
      · simp [← atHole, inRange]
      · simp [inRange, atHole, Ne.symm atHole, List.getElem?_append_left]
    · simp only [inRange, if_false]
      split
      · rename_i atHole
        rw [atHole, if_neg inRange]
      · exact List.getElem?_eq_none (Nat.le_of_not_lt inRange)

/-- Swap-and-pop removes exactly the element at its position. -/
theorem cons_swapPop_perm {elements : List α} {index : Nat}
    (inRange : index < elements.length) :
    (elements[index] :: swapPop elements index).Perm elements := by
  rcases eq_append_of_lt_length inRange with ⟨initial, last, rfl⟩
  have removed : (initial ++ [last])[index] = initial.getD index last := by
    rw [List.getD_eq_getElem?_getD, List.getElem_append]
    split
    · simp [*]
    · simp [List.getElem?_eq_none (Nat.le_of_not_lt ‹_›)]
  rw [swapPop_append_singleton, removed]
  exact (initial.getD_set_perm_cons index last).trans
    (List.perm_append_singleton last initial).symm

theorem count_swapPop [DecidableEq α] {elements : List α} {index : Nat} {removed : α}
    (atIndex : elements[index]? = some removed) (element : α) :
    elements.count element =
      (swapPop elements index).count element + if removed = element then 1 else 0 := by
  rcases List.getElem?_eq_some_iff.mp atIndex with ⟨inRange, rfl⟩
  rw [← (cons_swapPop_perm inRange).count_eq element, List.count_cons]
  simp

theorem mem_of_mem_swapPop {elements : List α} {index : Nat} {element : α}
    (inRange : index < elements.length) (member : element ∈ swapPop elements index) :
    element ∈ elements :=
  (cons_swapPop_perm inRange).subset (List.mem_cons_of_mem _ member)

theorem getElem_notMem_swapPop {elements : List α} {index : Nat}
    (inRange : index < elements.length) (nodup : elements.Nodup) :
    elements[index] ∉ swapPop elements index :=
  (List.nodup_cons.mp ((cons_swapPop_perm inRange).nodup_iff.mpr nodup)).1

theorem swapPop_map {β : Type v} (f : α → β) (elements : List α) (index : Nat) :
    swapPop (elements.map f) index = (swapPop elements index).map f := by
  rcases List.eq_nil_or_concat elements with rfl | ⟨initial, last, rfl⟩
  · rfl
  · simp [List.map_set]

/-- Removing the last position moves nothing. -/
theorem swapPop_last {elements : List α} {index : Nat}
    (isLast : index + 1 = elements.length) :
    swapPop elements index = elements.dropLast := by
  have inRange : index < elements.length := by omega
  rcases eq_append_of_lt_length inRange with ⟨initial, last, rfl⟩
  have outside : initial.length ≤ index := by simpa using Nat.le_of_eq isLast.symm
  simp [List.set_eq_of_length_le outside]

/-- Removing an earlier position splits into what precedes the hole, the moved
element and what follows the hole. -/
theorem swapPop_middle (before between : List α) (removed last : α) :
    swapPop (before ++ removed :: (between ++ [last])) before.length =
      before ++ last :: between := by
  have shape : before ++ removed :: (between ++ [last]) =
      (before ++ removed :: between) ++ [last] := by simp
  rw [shape, swapPop_append_singleton]
  simp

/-! ## Runs of memory cells -/

/-- The elements held by `count` consecutive cells from `first` on. -/
def cellsFrom (cells : Nat → α) (first count : Nat) : List α :=
  (List.range' first count).map cells

@[simp] theorem length_cellsFrom (cells : Nat → α) (first count : Nat) :
    (cellsFrom cells first count).length = count := by
  simp [cellsFrom]

@[simp] theorem getElem_cellsFrom (cells : Nat → α) (first count index : Nat)
    (inRange : index < (cellsFrom cells first count).length) :
    (cellsFrom cells first count)[index] = cells (first + index) := by
  simp [cellsFrom]

theorem mem_cellsFrom {cells : Nat → α} {first count : Nat} {element : α} :
    element ∈ cellsFrom cells first count ↔
      ∃ index < count, cells (first + index) = element := by
  simp only [cellsFrom, List.mem_map, List.mem_range'_1]
  constructor
  · rintro ⟨cell, ⟨lower, upper⟩, rfl⟩
    exact ⟨cell - first, by omega, by rw [Nat.add_sub_cancel' lower]⟩
  · rintro ⟨index, inRange, rfl⟩
    exact ⟨first + index, by omega, rfl⟩

@[simp] theorem cellsFrom_zero (cells : Nat → α) (first : Nat) :
    cellsFrom cells first 0 = [] := rfl

theorem cellsFrom_succ (cells : Nat → α) (first count : Nat) :
    cellsFrom cells first (count + 1) =
      cellsFrom cells first count ++ [cells (first + count)] := by
  simp [cellsFrom, List.range'_1_concat]

theorem cellsFrom_congr {cells others : Nat → α} {first count : Nat}
    (agree : ∀ cell, first ≤ cell → cell < first + count → cells cell = others cell) :
    cellsFrom cells first count = cellsFrom others first count := by
  apply List.map_congr_left
  intro cell member
  rcases List.mem_range'_1.mp member with ⟨lower, upper⟩
  exact agree cell lower upper

/-- Writing just behind the run and extending it appends the written element. -/
theorem cellsFrom_append (cells : Nat → α) (first count : Nat) (element : α) :
    cellsFrom (Function.update cells (first + count) element) first (count + 1) =
      cellsFrom cells first count ++ [element] := by
  rw [cellsFrom_succ, Function.update_self]
  congr 1
  apply cellsFrom_congr
  intro cell _ upper
  exact Function.update_of_ne (by omega) _ _

/-- Copying the last cell over another one and shortening the run is
swap-and-pop. -/
theorem cellsFrom_swapPop (cells : Nat → α) (first count index : Nat) :
    cellsFrom (Function.update cells (first + index) (cells (first + count))) first count =
      swapPop (cellsFrom cells first (count + 1)) index := by
  rw [cellsFrom_succ, swapPop_append_singleton]
  apply List.ext_getElem
  · simp
  · intro position left right
    simp only [getElem_cellsFrom, List.getElem_set]
    split
    · simp [*]
    · rw [Function.update_of_ne (by omega)]

end LakeNative.DenseArray

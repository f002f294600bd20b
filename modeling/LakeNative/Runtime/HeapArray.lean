import Mathlib.Algebra.Group.Nat.Defs
import Mathlib.Tactic.Common
import LakeNative.Library.DenseArray

/-! # Words and heap arrays

The compiled runtime works on 64-bit words. Its arrays are heap buffers reached
through a fat pointer; an array of this file is the buffer's entries together
with the number of entries allocated for it.
-/

namespace LakeNative.Runtime

open LakeNative.DenseArray

universe u
variable {α : Type u}

abbrev Word := BitVec 64

/-! ## Counting in words -/

theorem toNat_succ (word : Word) (noWrap : word.toNat + 1 < 2 ^ 64) :
    (word + 1).toNat = word.toNat + 1 := by
  bv_omega

theorem toNat_pred {word : Word} (nonzero : word ≠ 0) :
    (word - 1).toNat = word.toNat - 1 := by
  bv_omega

theorem toNat_ne_zero {word : Word} (nonzero : word ≠ 0) : word.toNat ≠ 0 := by
  bv_omega

/-! ## Buffers -/

/-- `HEAP_SIZE`: the one region `rt_init_heap` maps, which every buffer lies in. -/
def HEAP_SIZE : Nat := 4 * 1024 * 1024 * 1024

/-- A heap buffer of `cap` entries. `overrun` records whether some store went to
an index at or past `cap`. Such a store changes nothing but the array here, though
the memory there is another buffer's; what is proved of a run is proved of the
memory as long as its stores stay inside. -/
structure HeapArray (α : Type u) where
  entry : Nat → α
  cap : Nat
  overrun : Bool

namespace HeapArray

/-- A buffer just allocated, holding whatever its memory held before. -/
def allocated (cap : Nat) (fresh : Nat → α) : HeapArray α where
  entry := fresh
  cap := cap
  overrun := false

def load (array : HeapArray α) (index : Word) : α :=
  array.entry index.toNat

def store (array : HeapArray α) (index : Word) (value : α) : HeapArray α where
  entry := Function.update array.entry index.toNat value
  cap := array.cap
  overrun := array.overrun || decide (array.cap ≤ index.toNat)

/-- `emit_grow_array_if_full_strided`: when `nextIndex` does not fit, allocate
twice the capacity without clearing it and copy the first `nextIndex` entries. -/
def emitGrowArrayIfFull (array : HeapArray α) (nextIndex : Word)
    (fresh : Nat → α) : HeapArray α :=
  if array.cap ≤ nextIndex.toNat then
    { entry := fun index =>
        if index < nextIndex.toNat then array.entry index else fresh index
      cap := 2 * array.cap
      overrun := array.overrun }
  else
    array

@[simp] theorem allocated_entry (cap : Nat) (fresh : Nat → α) :
    (allocated cap fresh).entry = fresh := rfl

@[simp] theorem allocated_cap (cap : Nat) (fresh : Nat → α) :
    (allocated cap fresh).cap = cap := rfl

@[simp] theorem allocated_overrun (cap : Nat) (fresh : Nat → α) :
    (allocated cap fresh).overrun = false := rfl

@[simp] theorem store_entry (array : HeapArray α) (index : Word) (value : α) :
    (array.store index value).entry =
      Function.update array.entry index.toNat value := rfl

@[simp] theorem store_cap (array : HeapArray α) (index : Word) (value : α) :
    (array.store index value).cap = array.cap := rfl

theorem store_overrun (array : HeapArray α) (index : Word) (value : α) :
    (array.store index value).overrun = false ↔
      array.overrun = false ∧ index.toNat < array.cap := by
  simp [store]

@[simp] theorem grow_overrun (array : HeapArray α) (nextIndex : Word) (fresh : Nat → α) :
    (array.emitGrowArrayIfFull nextIndex fresh).overrun = array.overrun := by
  unfold emitGrowArrayIfFull
  split <;> rfl

theorem grow_of_lt (array : HeapArray α) (nextIndex : Word) (fresh : Nat → α)
    (fits : nextIndex.toNat < array.cap) :
    array.emitGrowArrayIfFull nextIndex fresh = array :=
  if_neg (Nat.not_le_of_lt fits)

/-- Growing keeps the entries below the index it makes room for. -/
theorem grow_entry_of_lt (array : HeapArray α) (nextIndex : Word) (fresh : Nat → α)
    {index : Nat} (below : index < nextIndex.toNat) :
    (array.emitGrowArrayIfFull nextIndex fresh).entry index = array.entry index := by
  unfold emitGrowArrayIfFull
  split
  · simp [below]
  · rfl

theorem grow_cap_le (array : HeapArray α) (nextIndex : Word) (fresh : Nat → α) :
    array.cap ≤ (array.emitGrowArrayIfFull nextIndex fresh).cap := by
  unfold emitGrowArrayIfFull
  split
  · simp only
    omega
  · exact Nat.le_refl _

/-- One doubling makes room when the index is at most the old capacity. -/
theorem lt_grow_cap (array : HeapArray α) (nextIndex : Word) (fresh : Nat → α)
    (positive : 0 < array.cap) (reached : nextIndex.toNat ≤ array.cap) :
    nextIndex.toNat < (array.emitGrowArrayIfFull nextIndex fresh).cap := by
  unfold emitGrowArrayIfFull
  split
  · simp only
    omega
  · omega

/-- The entries an array holds in `count` cells from `first` on. -/
def slice (array : HeapArray α) (first count : Nat) : List α :=
  cellsFrom array.entry first count

@[simp] theorem length_slice (array : HeapArray α) (first count : Nat) :
    (array.slice first count).length = count :=
  length_cellsFrom _ _ _

theorem slice_grow (array : HeapArray α) (nextIndex : Word) (fresh : Nat → α)
    {first count : Nat} (below : first + count ≤ nextIndex.toNat) :
    (array.emitGrowArrayIfFull nextIndex fresh).slice first count =
      array.slice first count :=
  cellsFrom_congr fun _ _ upper =>
    grow_entry_of_lt array nextIndex fresh (Nat.lt_of_lt_of_le upper below)

theorem slice_store_append (array : HeapArray α) (index : Word) (value : α)
    {first count : Nat} (behind : index.toNat = first + count) :
    (array.store index value).slice first (count + 1) =
      array.slice first count ++ [value] := by
  rw [slice, store_entry, behind]
  exact cellsFrom_append array.entry first count value

/-- A store past the slice leaves it unchanged. -/
theorem slice_store_of_le (array : HeapArray α) (index : Word) (value : α)
    {first count : Nat} (behind : first + count ≤ index.toNat) :
    (array.store index value).slice first count = array.slice first count :=
  cellsFrom_congr fun _ _ upper =>
    Function.update_of_ne (by omega) _ _

/-- The two stores of swap-and-pop, the removed tail being cleared or not. -/
theorem slice_store_last (array : HeapArray α) (index last : Word)
    {first count position : Nat} (atIndex : index.toNat = first + position)
    (atLast : last.toNat = first + count) :
    (array.store index (array.load last)).slice first count =
      swapPop (array.slice first (count + 1)) position := by
  rw [slice, store_entry, load, atIndex, atLast]
  exact cellsFrom_swapPop array.entry first count position

end HeapArray

end LakeNative.Runtime

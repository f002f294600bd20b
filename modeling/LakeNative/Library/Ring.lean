import Mathlib.Data.List.Basic
import Mathlib.Logic.Function.Basic

/-! # Ring buffers

A ring of `size` cells read from a head on. The head and the tail are kept modulo
the size, so the window between them is only determined while fewer than `size`
cells are in use.
-/

namespace LakeNative.Ring

universe u
variable {α : Type u} {size : Nat}

/-- The `count` cells of a ring from `head` on. -/
def window (size : Nat) (cells : Nat → α) (head count : Nat) : List α :=
  (List.range count).map fun offset => cells ((head + offset) % size)

/-- Write the values into consecutive cells from `tail` on. -/
def writeAll (size : Nat) (cells : Nat → α) (tail : Nat) : List α → Nat → α
  | [] => cells
  | value :: values =>
      writeAll size (Function.update cells (tail % size) value) (tail + 1) values

@[simp] theorem length_window (cells : Nat → α) (head count : Nat) :
    (window size cells head count).length = count := by
  simp [window]

@[simp] theorem window_zero (cells : Nat → α) (head : Nat) :
    window size cells head 0 = [] := rfl

theorem window_add (cells : Nat → α) (head first second : Nat) :
    window size cells head (first + second) =
      window size cells head first ++ window size cells (head + first) second := by
  simp [window, List.range_add, Function.comp_def, Nat.add_assoc]

theorem window_mod (cells : Nat → α) (head count : Nat) :
    window size cells (head % size) count = window size cells head count := by
  simp [window, Nat.mod_add_mod]

/-- Fewer than `size` cells on, the ring has not come back to where it started. -/
theorem mod_ne_of_lt {start ahead : Nat} (positive : 0 < ahead) (within : ahead < size) :
    (start + ahead) % size ≠ start % size := by
  rw [← Nat.mod_add_mod]
  have start_lt : start % size < size := Nat.mod_lt _ (by omega)
  by_cases wraps : start % size + ahead < size
  · rw [Nat.mod_eq_of_lt wraps]
    omega
  · rw [Nat.mod_eq_sub_mod (by omega), Nat.mod_eq_of_lt (by omega)]
    omega

/-- Writing behind a window that leaves room keeps the window. -/
theorem window_update (cells : Nat → α) {head count position : Nat} (value : α)
    (behind : count ≤ position) (room : position < size) :
    window size (Function.update cells ((head + position) % size) value) head count =
      window size cells head count := by
  apply List.map_congr_left
  intro offset member
  have inWindow := List.mem_range.mp member
  apply Function.update_of_ne
  intro same
  have ahead := @mod_ne_of_lt size (head + offset) (position - offset) (by omega) (by omega)
  apply ahead
  rw [same]
  congr 1
  omega

theorem window_writeAll (cells : Nat → α) (head count : Nat) (values : List α)
    (room : count + values.length ≤ size) :
    window size (writeAll size cells (head + count) values) head
        (count + values.length) =
      window size cells head count ++ values := by
  induction values generalizing cells count with
  | nil => simp [writeAll]
  | cons value values induction =>
      simp only [List.length_cons] at room ⊢
      have shifted := induction
        (Function.update cells ((head + count) % size) value) (count + 1) (by omega)
      rw [writeAll, Nat.add_assoc head, show count + (values.length + 1) =
        count + 1 + values.length by omega, shifted, window_add,
        window_update cells value (Nat.le_refl count) (by omega)]
      simp [window]

end LakeNative.Ring

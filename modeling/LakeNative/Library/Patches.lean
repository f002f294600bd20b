import LakeNative.Library.DenseArray
import LakeNative.Library.Regions

/-! # Patches of memory

What is written in one piece is a patch: the address it starts at and the cells from there on.
Patches are laid over memory one after the other, and one that is apart from all later ones
stays in place.
-/

namespace LakeNative.Regions

open LakeNative.DenseArray

universe u

variable {α : Type u}

structure Patch (α : Type u) where
  first : Nat
  content : List α
  deriving DecidableEq

namespace Patch

def region (patch : Patch α) : Region := ⟨patch.first, patch.first + patch.content.length⟩

/-- Memory with the patch in place. -/
def lay (memory : Nat → α) (patch : Patch α) : Nat → α := fun address =>
  if patch.first ≤ address then (patch.content[address - patch.first]?).getD (memory address)
  else memory address

def layAll (memory : Nat → α) (patches : List (Patch α)) : Nat → α := patches.foldl lay memory

end Patch

open Patch

variable {memory : Nat → α} {patch : Patch α} {first count : Nat}

/-! ## Reading -/

theorem cellsFrom_add (memory : Nat → α) (first count more : Nat) :
    cellsFrom memory first (count + more) =
      cellsFrom memory first count ++ cellsFrom memory (first + count) more := by
  simp [cellsFrom, ← List.map_append, List.range'_append_1]

/-- A part of what is read. -/
theorem cellsFrom_part {offset part : Nat} (inside : offset + part ≤ count) :
    cellsFrom memory (first + offset) part =
      ((cellsFrom memory first count).drop offset).take part := by
  rcases Nat.exists_eq_add_of_le inside with ⟨rest, rfl⟩
  rw [cellsFrom_add, cellsFrom_add, List.append_assoc,
    List.drop_left' (length_cellsFrom memory first offset),
    List.take_left' (length_cellsFrom memory (first + offset) part)]

/-! ## Laying -/

theorem lay_inside {index : Nat} (inRange : index < patch.content.length) :
    lay memory patch (patch.first + index) = patch.content[index] := by
  rw [lay, if_pos (Nat.le_add_right _ _), Nat.add_sub_cancel_left, List.getElem?_eq_getElem inRange]
  rfl

theorem lay_outside {address : Nat} (outside : address ∉ patch.region) :
    lay memory patch address = memory address := by
  rw [lay]
  split
  · rename_i behind
    rw [region, Region.mem_mk] at outside
    rw [List.getElem?_eq_none (by omega)]
    rfl
  · rfl

theorem cellsFrom_lay_self (memory : Nat → α) (patch : Patch α) :
    cellsFrom (lay memory patch) patch.first patch.content.length = patch.content := by
  apply List.ext_getElem
  · simp
  · intro index inCells inRange
    rw [getElem_cellsFrom, lay_inside inRange]

theorem cellsFrom_lay_apart (apart : Region.Apart ⟨first, first + count⟩ patch.region) :
    cellsFrom (lay memory patch) first count = cellsFrom memory first count := by
  apply cellsFrom_congr
  intro address lower upper
  apply lay_outside
  apply apart.notMem
  exact ⟨lower, upper⟩

/-- A list with a piece of it replaced. -/
def overwritten (content : List α) (offset : Nat) (piece : List α) : List α :=
  content.take offset ++ piece ++ content.drop (offset + piece.length)

@[simp] theorem length_overwritten {content piece : List α} {offset : Nat}
    (inside : offset + piece.length ≤ content.length) :
    (overwritten content offset piece).length = content.length := by
  simp [overwritten]
  omega

/-- What is read around a patch. -/
theorem cellsFrom_lay_within (memory : Nat → α) {offset : Nat} {piece : List α}
    (inside : offset + piece.length ≤ count) :
    cellsFrom (lay memory ⟨first + offset, piece⟩) first count =
      overwritten (cellsFrom memory first count) offset piece := by
  rcases Nat.exists_eq_add_of_le inside with ⟨rest, rfl⟩
  have atPiece : cellsFrom (lay memory ⟨first + offset, piece⟩) (first + offset) piece.length = piece :=
    cellsFrom_lay_self memory ⟨first + offset, piece⟩
  have before : Region.Apart ⟨first, first + offset⟩ (Patch.mk (first + offset) piece).region :=
    .inl (Nat.le_refl _)
  have behind : Region.Apart ⟨first + (offset + piece.length), first + (offset + piece.length) + rest⟩
      (Patch.mk (first + offset) piece).region := .inr (Nat.le_of_eq (Nat.add_assoc _ _ _))
  have front : (cellsFrom memory first offset ++ cellsFrom memory (first + offset) piece.length).length =
      offset + piece.length := by simp
  rw [overwritten, cellsFrom_add _ first (offset + piece.length), cellsFrom_add _ first offset,
    cellsFrom_lay_apart before, cellsFrom_lay_apart behind, atPiece,
    cellsFrom_add memory first (offset + piece.length), cellsFrom_add memory first offset,
    List.drop_left' front, List.append_assoc (cellsFrom memory first offset) (cellsFrom memory _ _),
    List.take_left' (length_cellsFrom memory first offset)]

@[simp] theorem lay_nil (memory : Nat → α) (first : Nat) : lay memory ⟨first, []⟩ = memory := by
  funext address
  simp [lay]

/-- Two patches one behind the other are one. -/
theorem lay_lay (memory : Nat → α) (first : Nat) (front back : List α) :
    lay (lay memory ⟨first, front⟩) ⟨first + front.length, back⟩ = lay memory ⟨first, front ++ back⟩ := by
  funext address
  simp only [lay]
  by_cases behind : first + front.length ≤ address
  · have inBack : address - first - front.length = address - (first + front.length) := by omega
    have pastFront : front[address - first]? = none := List.getElem?_eq_none (by omega)
    rw [if_pos behind, if_pos (by omega), if_pos (by omega), List.getElem?_append_right (by omega),
      inBack, pastFront]
    rfl
  · rw [if_neg behind]
    by_cases inFront : first ≤ address
    · rw [if_pos inFront, if_pos inFront, List.getElem?_append_left (by omega)]
    · rw [if_neg inFront, if_neg inFront]

/-! ## Many patches -/

@[simp] theorem layAll_nil (memory : Nat → α) : layAll memory [] = memory := rfl

@[simp] theorem layAll_cons (memory : Nat → α) (patch : Patch α) (patches : List (Patch α)) :
    layAll memory (patch :: patches) = layAll (lay memory patch) patches := rfl

theorem layAll_append (memory : Nat → α) (earlier later : List (Patch α)) :
    layAll memory (earlier ++ later) = layAll (layAll memory earlier) later :=
  List.foldl_append

theorem layAll_outside {patches : List (Patch α)} {address : Nat}
    (outside : ∀ patch ∈ patches, address ∉ patch.region) :
    layAll memory patches address = memory address := by
  induction patches generalizing memory with
  | nil => rfl
  | cons patch patches induction =>
      rw [List.forall_mem_cons] at outside
      rw [layAll_cons, induction outside.2, lay_outside outside.1]

theorem cellsFrom_layAll_apart {patches : List (Patch α)}
    (apart : ∀ patch ∈ patches, Region.Apart ⟨first, first + count⟩ patch.region) :
    cellsFrom (layAll memory patches) first count = cellsFrom memory first count := by
  apply cellsFrom_congr
  intro address lower upper
  apply layAll_outside
  intro patch member
  apply (apart patch member).notMem
  exact ⟨lower, upper⟩

end LakeNative.Regions

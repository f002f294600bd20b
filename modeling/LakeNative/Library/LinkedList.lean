import Mathlib.Data.List.Nodup

/-! # Linked lists in memory

A list of cells, each of which leads to the next one, from a head to `nil`. What a cell
leads to is stored in the cell, so that a store elsewhere keeps the list.
-/

namespace LakeNative.LinkedList

universe u
variable {α : Type u}

/-- From `head`, the cells lead one to the other and the last one to `nil`. -/
def Chain (next : α → α) (nil : α) : α → List α → Prop
  | head, [] => head = nil
  | head, cell :: cells => head = cell ∧ cell ≠ nil ∧ Chain next nil (next cell) cells

namespace Chain

variable {next other : α → α} {nil head cell : α} {cells : List α}

theorem ne_nil (chain : Chain next nil head cells) (member : cell ∈ cells) : cell ≠ nil := by
  induction cells generalizing head with
  | nil => cases member
  | cons first cells induction =>
      rcases List.mem_cons.mp member with rfl | later
      · exact chain.2.1
      · exact induction chain.2.2 later

/-- A list whose head is not `nil` has a first cell. -/
theorem exists_cons (chain : Chain next nil head cells) (nonempty : head ≠ nil) :
    ∃ rest, cells = head :: rest ∧ Chain next nil (next head) rest := by
  cases cells with
  | nil => exact absurd chain nonempty
  | cons first rest =>
      rcases chain with ⟨rfl, -, later⟩
      exact ⟨rest, rfl, later⟩

theorem push (chain : Chain next nil head cells) (isCell : cell ≠ nil) (leads : next cell = head) :
    Chain next nil cell (cell :: cells) := by
  refine ⟨rfl, isCell, ?_⟩
  rw [leads]
  exact chain

/-- Only what the cells of the list lead to matters. -/
theorem congr (chain : Chain next nil head cells)
    (same : ∀ cell ∈ cells, other cell = next cell) : Chain other nil head cells := by
  induction cells generalizing head with
  | nil => exact chain
  | cons first cells induction =>
      rcases chain with ⟨rfl, isCell, later⟩
      refine ⟨rfl, isCell, ?_⟩
      rw [same head List.mem_cons_self]
      exact induction later fun cell member => same cell (List.mem_cons_of_mem _ member)

/-- A head has one list. -/
theorem unique {others : List α} (chain : Chain next nil head cells)
    (also : Chain next nil head others) : cells = others := by
  induction cells generalizing head others with
  | nil =>
      cases others with
      | nil => rfl
      | cons first others => exact absurd (also.1.symm.trans chain) also.2.1
  | cons first cells induction =>
      cases others with
      | nil => exact absurd (chain.1.symm.trans also) chain.2.1
      | cons second others =>
          rcases chain with ⟨rfl, -, later⟩
          rcases also with ⟨rfl, -, alsoLater⟩
          rw [induction later alsoLater]

/-- The list from a cell on is a part of the list. -/
theorem suffix (chain : Chain next nil head cells) {before after : List α}
    (split : cells = before ++ cell :: after) : Chain next nil cell (cell :: after) := by
  induction before generalizing head cells with
  | nil =>
      subst split
      rcases chain with ⟨rfl, isCell, later⟩
      exact ⟨rfl, isCell, later⟩
  | cons first before induction =>
      subst split
      exact induction chain.2.2 rfl

/-- No cell leads back to an earlier one: a list that comes to its end has no cycle. -/
theorem nodup (chain : Chain next nil head cells) : cells.Nodup := by
  induction cells generalizing head with
  | nil => exact List.nodup_nil
  | cons first cells induction =>
      rw [List.nodup_cons]
      refine ⟨fun again => ?_, induction chain.2.2⟩
      rcases List.append_of_mem again with ⟨before, after, split⟩
      -- The list from the second occurrence on would be the whole list.
      have whole : Chain next nil first (first :: cells) := ⟨rfl, chain.2.1, chain.2.2⟩
      have tail := chain.2.2.suffix split
      have lengths := congrArg List.length (whole.unique tail)
      rw [split] at lengths
      simp only [List.length_cons, List.length_append] at lengths
      omega

theorem head_eq (chain : Chain next nil head cells) : ∀ cell ∈ cells.head?, cell = head := by
  cases cells with
  | nil => exact nofun
  | cons first cells =>
      rintro cell ⟨⟩
      exact chain.1.symm

theorem ne_head_of_mem_tail (chain : Chain next nil head cells) (member : cell ∈ cells.tail) :
    cell ≠ head := by
  cases cells with
  | nil => cases member
  | cons first cells =>
      rintro rfl
      have once := chain.nodup
      rw [← chain.1] at once
      exact (List.nodup_cons.mp once).1 member

end Chain

/-- Each cell leads back to the one before it. -/
def Back (prev : α → α) : α → List α → Prop
  | _, [] => True
  | before, cell :: cells => prev cell = before ∧ Back prev cell cells

namespace Back

variable {prev other : α → α} {before cell : α} {cells : List α}

theorem congr (back : Back prev before cells) (same : ∀ cell ∈ cells, other cell = prev cell) :
    Back other before cells := by
  induction cells generalizing before with
  | nil => trivial
  | cons first cells induction =>
      refine ⟨(same first List.mem_cons_self).trans back.1, ?_⟩
      exact induction back.2 fun cell member => same cell (List.mem_cons_of_mem _ member)

/-- A new first cell, to which the old one is made to lead back. -/
theorem push (back : Back prev before cells) (first : other cell = before)
    (second : ∀ head ∈ cells.head?, other head = cell)
    (same : ∀ later ∈ cells.tail, other later = prev later) :
    Back other before (cell :: cells) := by
  refine ⟨first, ?_⟩
  cases cells with
  | nil => trivial
  | cons head cells => exact ⟨second head rfl, back.2.congr same⟩

end Back

end LakeNative.LinkedList

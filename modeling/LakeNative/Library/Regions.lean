import Mathlib.Data.List.Nodup

/-! # Regions of addresses

Half-open ranges of addresses, and what a change of memory inside one leaves alone.
-/

namespace LakeNative.Regions

universe u

/-- The addresses from `first` up to `stop`. -/
structure Region where
  first : Nat
  stop : Nat
  deriving DecidableEq

namespace Region

instance : Membership Nat Region where
  mem region address := region.first ≤ address ∧ address < region.stop

instance (address : Nat) (region : Region) : Decidable (address ∈ region) :=
  inferInstanceAs (Decidable (region.first ≤ address ∧ address < region.stop))

theorem mem_iff {address : Nat} {region : Region} :
    address ∈ region ↔ region.first ≤ address ∧ address < region.stop := Iff.rfl

theorem mem_mk {address first stop : Nat} :
    address ∈ Region.mk first stop ↔ first ≤ address ∧ address < stop := Iff.rfl

def Apart (left right : Region) : Prop := left.stop ≤ right.first ∨ right.stop ≤ left.first

def Within (inner outer : Region) : Prop := outer.first ≤ inner.first ∧ inner.stop ≤ outer.stop

variable {left right inner outer : Region} {address : Nat}

theorem Apart.symm (apart : left.Apart right) : right.Apart left := Or.symm apart

theorem Apart.notMem (apart : left.Apart right) (member : address ∈ left) : address ∉ right := by
  rw [mem_iff] at member ⊢
  rcases apart with before | behind
  · omega
  · omega

theorem Within.mem (within : inner.Within outer) (member : address ∈ inner) : address ∈ outer := by
  rw [mem_iff] at member ⊢
  have bounds := within
  unfold Within at bounds
  omega

theorem Within.trans {middle : Region} (within : inner.Within middle) (also : middle.Within outer) :
    inner.Within outer :=
  ⟨Nat.le_trans also.1 within.1, Nat.le_trans within.2 also.2⟩

/-- What lies in apart regions is apart. -/
theorem Apart.within {part : Region} (apart : left.Apart right) (isPart : part.Within left) :
    part.Apart right := by
  rcases apart with before | behind
  · exact .inl (Nat.le_trans isPart.2 before)
  · exact .inr (Nat.le_trans behind isPart.1)

/-- Regions that share no address are apart. -/
theorem Apart.of_notMem (leftNonempty : left.first < left.stop)
    (rightNonempty : right.first < right.stop) (disjoint : ∀ address ∈ left, address ∉ right) :
    left.Apart right := by
  by_contra overlap
  unfold Apart at overlap
  apply disjoint (max left.first right.first)
  · rw [mem_iff]
    omega
  · rw [mem_iff]
    omega

end Region

/-- All words outside a region are as they were. -/
def AgreeOutside {α : Type u} (region : Region) (before after : Nat → α) : Prop :=
  ∀ address, address ∉ region → after address = before address

namespace AgreeOutside

variable {α : Type u} {region other : Region} {before after later : Nat → α}

theorem trans (first : AgreeOutside region before after) (second : AgreeOutside region after later) :
    AgreeOutside region before later := fun address outside =>
  (second address outside).trans (first address outside)

theorem update {address : Nat} (inside : address ∈ region) (value : α) :
    AgreeOutside region before (Function.update before address value) := by
  intro elsewhere outside
  apply Function.update_of_ne
  rintro rfl
  exact outside inside

theorem of_apart (agree : AgreeOutside region before after) (apart : other.Apart region)
    {address : Nat} (member : address ∈ other) : after address = before address :=
  agree address (apart.notMem member)

end AgreeOutside

end LakeNative.Regions

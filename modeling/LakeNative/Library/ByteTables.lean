import Mathlib.Algebra.Group.Nat.Defs
import Mathlib.Data.List.Basic

/-! # Tables in byte memory

Numbers of a fixed width, little-endian and one behind the other, and the loads that read them.
-/

namespace LakeNative.ByteTables

variable {w : Nat}

/-- The lowest bytes of a number. -/
def leBytes : Nat → Nat → List UInt8
  | 0, _ => []
  | width + 1, value => UInt8.ofNat value :: leBytes width (value / 256)

@[simp] theorem length_leBytes (width value : Nat) : (leBytes width value).length = width := by
  induction width generalizing value with
  | zero => rfl
  | succ width induction => rw [leBytes, List.length_cons, induction]

/-- Load as many bytes as a little-endian number. -/
def loadLe (byte : BitVec w → UInt8) (addr : BitVec w) : Nat → Nat
  | 0 => 0
  | width + 1 => (byte addr).toNat + 256 * loadLe byte (addr + 1) width

/-- These bytes are in memory from the address on. -/
def Holds (byte : BitVec w → UInt8) : BitVec w → List UInt8 → Prop
  | _, [] => True
  | addr, first :: rest => byte addr = first ∧ Holds byte (addr + 1) rest

instance decidableHolds (byte : BitVec w → UInt8) :
    (addr : BitVec w) → (bytes : List UInt8) → Decidable (Holds byte addr bytes)
  | _, [] => isTrue trivial
  | addr, first :: rest =>
      haveI := decidableHolds byte (addr + 1) rest
      inferInstanceAs (Decidable (byte addr = first ∧ Holds byte (addr + 1) rest))

variable {byte : BitVec w → UInt8}

/-- Addresses that are counted up from a later one. -/
theorem add_ofNat_succ (addr : BitVec w) (count : Nat) :
    addr + BitVec.ofNat w (count + 1) = addr + 1 + BitVec.ofNat w count := by
  rw [Nat.add_comm count, BitVec.ofNat_add, ← BitVec.add_assoc]
  rfl

theorem holds_append {addr : BitVec w} {front back : List UInt8} :
    Holds byte addr (front ++ back) ↔
      Holds byte addr front ∧ Holds byte (addr + BitVec.ofNat w front.length) back := by
  induction front generalizing addr with
  | nil =>
      rw [List.nil_append, List.length_nil, BitVec.add_zero]
      exact iff_of_eq (true_and _).symm
  | cons first front induction =>
      rw [List.cons_append, Holds, Holds, induction, List.length_cons, add_ofNat_succ, and_assoc]

theorem Holds.getElem {addr : BitVec w} {bytes : List UInt8} (holds : Holds byte addr bytes)
    {index : Nat} {value : UInt8} (atIndex : bytes[index]? = some value) :
    byte (addr + BitVec.ofNat w index) = value := by
  induction bytes generalizing addr index with
  | nil => cases atIndex
  | cons first bytes induction =>
      cases index with
      | zero =>
          rw [BitVec.add_zero, holds.1]
          exact Option.some.inj atIndex
      | succ index =>
          rw [add_ofNat_succ]
          exact induction holds.2 atIndex

theorem Holds.loadLe {addr : BitVec w} {width value : Nat}
    (holds : Holds byte addr (leBytes width value)) : loadLe byte addr width = value % 256 ^ width := by
  induction width generalizing addr value with
  | zero => exact (Nat.mod_one value).symm
  | succ width induction =>
      have low : (UInt8.ofNat value).toNat = value % 256 := UInt8.toNat_ofNat'
      rw [ByteTables.loadLe, holds.1, induction holds.2, low, Nat.pow_succ', ← Nat.mod_mul]

/-- Numbers of one width, one behind the other. -/
def table (width : Nat) (values : List Nat) : List UInt8 := values.flatMap (leBytes width)

/-- The entry at an index is loaded from the index times the width. -/
theorem Holds.table_entry {addr : BitVec w} {width : Nat} {values : List Nat}
    (holds : Holds byte addr (table width values)) {index value : Nat}
    (atIndex : values[index]? = some value) :
    ByteTables.loadLe byte (addr + BitVec.ofNat w (index * width)) width = value % 256 ^ width := by
  induction values generalizing addr index with
  | nil => cases atIndex
  | cons first values induction =>
      rcases holds_append.mp holds with ⟨here, later⟩
      rw [length_leBytes] at later
      cases index with
      | zero =>
          rcases Option.some.inj atIndex with rfl
          rw [Nat.zero_mul, BitVec.add_zero]
          exact here.loadLe
      | succ index =>
          rw [Nat.succ_mul, Nat.add_comm, BitVec.ofNat_add, ← BitVec.add_assoc]
          exact induction later atIndex

end LakeNative.ByteTables

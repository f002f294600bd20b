import Mathlib.Data.Nat.Digits.Defs
import LakeNative.Runtime.Arena

/-! # Slices of memory

What loads, stores and copies of bytes come to on whole words and slices.
-/

namespace LakeNative.Arenas

open LakeNative.Runtime LakeNative.Regions

variable {mem other : ByteMem}

theorem length_slice (mem : ByteMem) (first count : Nat) : (mem.slice first count).length = count := by
  rw [ByteMem.slice, List.length_map, List.length_range]

theorem slice_congr {first last count : Nat}
    (same : ∀ i < count, other.bytes (last + i) = mem.bytes (first + i)) :
    other.slice last count = mem.slice first count := by
  apply List.map_congr_left
  intro i inRange
  rw [same i (List.mem_range.mp inRange)]

theorem slice_add (mem : ByteMem) (first count more : Nat) :
    mem.slice first (count + more) = mem.slice first count ++ mem.slice (first + count) more := by
  rw [ByteMem.slice, List.range_add, List.map_append, List.map_map]
  congr 1
  apply List.map_congr_left
  intro i _
  change UInt8.ofNat (mem.bytes (first + (count + i))) = UInt8.ofNat (mem.bytes (first + count + i))
  rw [Nat.add_assoc]

/-! ## Words -/

/-- A load is the little-endian composition of the bytes that it reads, and writes none. -/
theorem loadBytes_eq (mem : ByteMem) {addr : Nat} (count : Nat) (noWrap : addr + count ≤ 2 ^ 64) :
    (mem.loadBytes addr count).1 =
        Nat.ofDigits 256 ((List.range count).map fun i => mem.bytes (addr + i)) ∧
      (mem.loadBytes addr count).2.bytes = mem.bytes := by
  induction count with
  | zero => exact ⟨rfl, rfl⟩
  | succ count induction =>
      rcases induction (by omega) with ⟨low, unchanged⟩
      refine ⟨?_, unchanged⟩
      change (mem.loadBytes addr count).1 +
        (mem.loadBytes addr count).2.bytes (iadd addr count) * 256 ^ count = _
      rw [low, unchanged, iadd_eq (by omega), List.range_succ, List.map_append, Nat.ofDigits_append,
        List.length_map, List.length_range, List.map_singleton, Nat.ofDigits_singleton, Nat.mul_comm]

/-- The composition of a number's lowest bytes. -/
theorem ofDigits_bytes (value count : Nat) :
    Nat.ofDigits 256 ((List.range count).map fun i => value / 256 ^ i % 256) =
      value % 256 ^ count := by
  induction count with
  | zero => exact (Nat.mod_one value).symm
  | succ count induction =>
      rw [List.range_succ, List.map_append, Nat.ofDigits_append, induction, List.length_map,
        List.length_range, List.map_singleton, Nat.ofDigits_singleton, Nat.mod_pow_succ]

/-- What the loop of a store leaves in memory: the low bytes of the value, and what was there
around them. -/
theorem bytes_storeLoop (mem : ByteMem) {addr : Nat} (value : Nat) {count : Nat} (inWord : count ≤ 8)
    (noWrap : addr + count ≤ 2 ^ 64) (address : Nat) :
    (mem.storeLoop addr value count).bytes address =
      if addr ≤ address ∧ address < addr + count then value / 256 ^ (address - addr) % 256
      else mem.bytes address := by
  induction count with
  | zero =>
      rw [if_neg (by omega)]
      rfl
  | succ count induction =>
      have position : imul count 8 = count * 8 := imul_eq (by omega)
      have shifted : ushr value (imul count 8) = value / 256 ^ count := by
        have power : (2 : Nat) ^ (count * 8) = 256 ^ count := by
          rw [Nat.mul_comm, Nat.pow_mul]
        rw [position, ushr, Nat.mod_eq_of_lt (by omega), Nat.shiftRight_eq_div_pow, power]
      have round : (mem.storeLoop addr value (count + 1)).bytes =
          Function.update (mem.storeLoop addr value count).bytes (addr + count)
            (value / 256 ^ count % 256) := by
        rw [ByteMem.storeLoop, List.range_succ, List.foldl_append]
        change Function.update (mem.storeLoop addr value count).bytes (iadd addr count)
          (ushr value (imul count 8) % 256) = _
        rw [shifted, iadd_eq (by omega)]
      rw [round]
      by_cases last : address = addr + count
      · rw [last, Function.update_self, if_pos (by omega), Nat.add_sub_cancel_left]
      · rw [Function.update_of_ne last, induction (by omega) (by omega)]
        exact if_congr (by omega) rfl rfl

/-! ## Copies -/

/-- What the loop of a copy between regions apart leaves in memory. -/
theorem bytes_copyLoop (mem : ByteMem) {dst src len : Nat} (dstFits : dst + len ≤ 2 ^ 64)
    (srcFits : src + len ≤ 2 ^ 64) (apart : Region.Apart ⟨src, src + len⟩ ⟨dst, dst + len⟩)
    (address : Nat) :
    (mem.copyLoop dst src len).bytes address =
      if dst ≤ address ∧ address < dst + len then mem.bytes (src + (address - dst)) % 256
      else mem.bytes address := by
  -- The bytes still to be copied are those of the source before the loop.
  have rounds : ∀ count ≤ len, ∀ address, (mem.copyLoop dst src count).bytes address =
      if dst ≤ address ∧ address < dst + count then mem.bytes (src + (address - dst)) % 256
      else mem.bytes address := by
    intro count
    induction count with
    | zero =>
        intro _ address
        rw [if_neg (by omega)]
        rfl
    | succ count induction =>
        intro within address
        have earlier := induction (by omega)
        have unread : (mem.copyLoop dst src count).bytes (src + count) = mem.bytes (src + count) := by
          rw [earlier, if_neg]
          rcases apart with before | behind
          · change src + len ≤ dst at before
            omega
          · change dst + len ≤ src at behind
            omega
        have round : (mem.copyLoop dst src (count + 1)).bytes =
            Function.update (mem.copyLoop dst src count).bytes (dst + count)
              (mem.bytes (src + count) % 256) := by
          rw [ByteMem.copyLoop, List.range_succ, List.foldl_append]
          change Function.update (mem.copyLoop dst src count).bytes (iadd dst count)
            ((mem.copyLoop dst src count).bytes (iadd src count) % 256) = _
          rw [iadd_eq (by omega), iadd_eq (by omega), unread]
        rw [round]
        by_cases last : address = dst + count
        · rw [last, Function.update_self, if_pos (by omega), Nat.add_sub_cancel_left]
        · rw [Function.update_of_ne last, earlier]
          exact if_congr (by omega) rfl rfl
  exact rounds len (Nat.le_refl len) address

end LakeNative.Arenas

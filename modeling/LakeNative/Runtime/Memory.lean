import Mathlib.Algebra.Group.Nat.Defs
import Mathlib.Data.Nat.Size
import LakeNative.Library.Regions

/-! # Addresses and size classes

The 64-bit arithmetic that the allocators do on addresses and sizes, and the powers of two
that sizes are rounded up to.
-/

namespace LakeNative.Runtime

/-- Memory by its words. All addresses that the allocators load from and store to are
multiples of eight. -/
abbrev Words := Nat → Nat

def iadd (left right : Nat) : Nat := (left + right) % 2 ^ 64

def isub (left right : Nat) : Nat := (left + 2 ^ 64 - right) % 2 ^ 64

def imul (left right : Nat) : Nat := left * right % 2 ^ 64

def ishl (word amount : Nat) : Nat := word <<< amount % 2 ^ 64

def bnot (word : Nat) : Nat := 2 ^ 64 - 1 - word

/-- `addr & !(alignment - 1)` -/
def alignDown (addr alignment : Nat) : Nat := addr - addr % alignment

/-- The leading zeros of a word. -/
def clz (word : Nat) : Nat := 64 - word.size

/-- The trailing zeros of a word. -/
def ctz (word : Nat) : Nat := ((List.range 64).find? fun bit => word.testBit bit).getD 64

/-- `ceil(log2(max(size, 16))) - 4` -/
def sizeClass (size : Nat) : Nat :=
  let sizeClamped := if size < 16 then 16 else size
  let log2Ceil := 64 - clz (sizeClamped - 1)
  log2Ceil - 4

/-- `1 << (class + 4)` -/
def classSize (classIdx : Nat) : Nat := 1 <<< (classIdx + 4)

/-- The classes 0 to 20, of 16 bytes to 16 MiB. -/
def MAX_CLASS : Nat := 20

theorem iadd_eq {left right : Nat} (noWrap : left + right < 2 ^ 64) :
    iadd left right = left + right := Nat.mod_eq_of_lt noWrap

theorem isub_eq {left right : Nat} (ordered : right ≤ left) (isWord : left < 2 ^ 64) :
    isub left right = left - right := by
  unfold isub
  omega

theorem imul_eq {left right : Nat} (noWrap : left * right < 2 ^ 64) :
    imul left right = left * right := Nat.mod_eq_of_lt noWrap

theorem ishl_eq {word amount : Nat} (noWrap : word * 2 ^ amount < 2 ^ 64) :
    ishl word amount = word * 2 ^ amount := by
  rw [ishl, Nat.shiftLeft_eq, Nat.mod_eq_of_lt noWrap]

theorem testBit_bnot {word bit : Nat} (isWord : word < 2 ^ 64) (inWord : bit < 64) :
    (bnot word).testBit bit = !word.testBit bit := by
  have shape : bnot word = 2 ^ 64 - (word + 1) := by
    unfold bnot
    omega
  rw [shape, Nat.testBit_two_pow_sub_succ isWord, decide_eq_true inWord, Bool.true_and]

/-- The bit that `ctz` finds is set. -/
theorem ctz_spec {word : Nat} (isWord : word < 2 ^ 64) (nonzero : word ≠ 0) :
    ctz word < 64 ∧ word.testBit (ctz word) = true := by
  rcases Nat.exists_testBit_of_ne_zero nonzero with ⟨bit, isSet⟩
  have inWord : bit < 64 := by
    by_contra outside
    have bounded := Nat.pow_le_pow_right (by decide : 0 < 2) (Nat.le_of_not_lt outside)
    rw [Nat.testBit_lt_two_pow (Nat.lt_of_lt_of_le isWord bounded)] at isSet
    cases isSet
  cases found : (List.range 64).find? fun bit => word.testBit bit with
  | none =>
      have clear := List.find?_eq_none.mp found bit (List.mem_range.mpr inWord)
      exact absurd isSet clear
  | some first =>
      rw [ctz, found]
      exact ⟨List.mem_range.mp (List.mem_of_find?_eq_some found), List.find?_some found⟩

theorem alignDown_le (addr alignment : Nat) : alignDown addr alignment ≤ addr :=
  Nat.sub_le _ _

theorem alignDown_dvd (addr alignment : Nat) : alignment ∣ alignDown addr alignment :=
  Nat.dvd_sub_mod addr

theorem lt_alignDown_add {alignment : Nat} (addr : Nat) (positive : 0 < alignment) :
    addr < alignDown addr alignment + alignment := by
  have remainder := Nat.mod_lt addr positive
  unfold alignDown
  omega

theorem classSize_eq (classIdx : Nat) : classSize classIdx = 2 ^ (classIdx + 4) :=
  Nat.one_shiftLeft _

theorem classSize_pos (classIdx : Nat) : 0 < classSize classIdx := by
  rw [classSize_eq]
  exact Nat.two_pow_pos _

theorem sixteen_dvd_classSize (classIdx : Nat) : 16 ∣ classSize classIdx := by
  rw [classSize_eq, Nat.pow_add]
  exact Nat.dvd_mul_left _ _

theorem classSize_mono {small large : Nat} (ordered : small ≤ large) :
    classSize small ≤ classSize large := by
  rw [classSize_eq, classSize_eq]
  exact Nat.pow_le_pow_right (by decide) (by omega)

theorem classSize_le {classIdx : Nat} (inRange : classIdx ≤ MAX_CLASS) :
    classSize classIdx ≤ 2 ^ 24 :=
  classSize_mono inRange

/-- A size is of the classes that it fits in or of an earlier one. -/
theorem sizeClass_le_iff {size : Nat} (isWord : size < 2 ^ 64) (classIdx : Nat) :
    sizeClass size ≤ classIdx ↔ size ≤ classSize classIdx := by
  have atLeast : 2 ^ 4 ≤ 2 ^ (classIdx + 4) := Nat.pow_le_pow_right (by decide) (by omega)
  have clamped : ∀ size, size < 2 ^ 64 → 64 - clz (size - 1) = (size - 1).size := by
    intro size isWord
    have bits : (size - 1).size ≤ 64 := Nat.size_le.mpr (by omega)
    unfold clz
    omega
  have rounds : sizeClass size ≤ classIdx ↔
      ((if size < 16 then 16 else size) - 1).size ≤ classIdx + 4 := by
    unfold sizeClass
    dsimp only
    rw [clamped _ (by split <;> omega)]
    omega
  rw [rounds, Nat.size_le, classSize_eq]
  split <;> omega

theorem le_classSize {size : Nat} (isWord : size < 2 ^ 64) : size ≤ classSize (sizeClass size) :=
  (sizeClass_le_iff isWord _).mp (Nat.le_refl _)

/-- Sizes above the largest class, 16 MiB, are huge. -/
theorem huge_iff {size : Nat} (isWord : size < 2 ^ 64) : MAX_CLASS < sizeClass size ↔ 2 ^ 24 < size := by
  rw [← not_iff_not, Nat.not_lt, Nat.not_lt]
  exact sizeClass_le_iff isWord MAX_CLASS

end LakeNative.Runtime

import Mathlib.Data.Finset.Card
import Mathlib.Data.Finset.Range

/-! # Bitmaps

Sets of numbers kept in the bits of a row of words.
-/

namespace LakeNative.Bitmap

variable {width bound index other count word : Nat} {words others : Nat → Nat}

/-- The numbers below a bound whose bits are set. -/
def marked (width bound : Nat) (words : Nat → Nat) : Finset Nat :=
  (Finset.range bound).filter fun index => (words (index / width)).testBit (index % width) = true

theorem mem_marked : index ∈ marked width bound words ↔
    index < bound ∧ (words (index / width)).testBit (index % width) = true := by
  rw [marked, Finset.mem_filter, Finset.mem_range]

theorem marked_congr (same : ∀ slot, slot * width < bound → words slot = others slot) :
    marked width bound words = marked width bound others := by
  apply Finset.filter_congr
  intro index member
  have before := Nat.div_mul_le_self index width
  rw [same _ (Nat.lt_of_le_of_lt before (Finset.mem_range.mp member))]

/-- The bits of a number and of another one in the same word differ. -/
theorem mod_ne (different : index ≠ other) (sameWord : index / width = other / width) :
    index % width ≠ other % width := by
  intro sameBit
  apply different
  rw [← Nat.div_add_mod index width, sameWord, sameBit, Nat.div_add_mod]

/-- Clearing a number's bit takes it out of the set. -/
theorem marked_clear (positive : 0 < width)
    (bits : ∀ bit < width, word.testBit bit =
      ((words (other / width)).testBit bit && decide (bit ≠ other % width))) :
    marked width bound (Function.update words (other / width) word) =
      (marked width bound words).erase other := by
  ext index
  rw [Finset.mem_erase, mem_marked, mem_marked]
  by_cases sameWord : index / width = other / width
  · rw [sameWord, Function.update_self, bits _ (Nat.mod_lt _ positive)]
    by_cases same : index = other
    · simp [same]
    · simp [same, mod_ne same sameWord]
  · have different : index ≠ other := fun same => sameWord (by rw [same])
    rw [Function.update_of_ne sameWord, and_iff_right different]

/-- Setting a number's bit puts it into the set. -/
theorem marked_set (positive : 0 < width) (inBound : other < bound)
    (bits : ∀ bit < width, word.testBit bit =
      ((words (other / width)).testBit bit || decide (bit = other % width))) :
    marked width bound (Function.update words (other / width) word) =
      insert other (marked width bound words) := by
  ext index
  rw [Finset.mem_insert, mem_marked, mem_marked]
  by_cases sameWord : index / width = other / width
  · rw [sameWord, Function.update_self, bits _ (Nat.mod_lt _ positive)]
    by_cases same : index = other
    · simp [same, inBound]
    · simp [same, mod_ne same sameWord]
  · have different : index ≠ other := fun same => sameWord (by rw [same])
    rw [Function.update_of_ne sameWord, or_iff_right different]

/-- A set that is not empty has a word that is not zero. -/
theorem exists_word (member : index ∈ marked width (width * count) words) :
    index / width < count ∧ words (index / width) ≠ 0 := by
  rcases mem_marked.mp member with ⟨inBound, isSet⟩
  refine ⟨Nat.div_lt_of_lt_mul inBound, fun isZero => ?_⟩
  rw [isZero, Nat.zero_testBit] at isSet
  cases isSet

end LakeNative.Bitmap

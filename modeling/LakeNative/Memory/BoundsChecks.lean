import LakeNative.Runtime.FatPtr

/-! # Bounds checks

A check adds 64-bit words, so that it can pass for a range that lies before the start of the
pointer. It keeps to the range of the pointer exactly for those calls whose sums do not come
out that way.
-/

namespace LakeNative.Memory

open LakeNative.Runtime LakeNative.Regions

/-- A call of one of the functions with its arguments. -/
inductive MemCall where
  | load (width : LoadWidth) (fatPtr : FatPtr) (offset : Nat)
  | store (fatPtr : FatPtr) (val size offset : Nat)
  | copy (dstFat : FatPtr) (dstOff : Nat) (srcFat : FatPtr) (srcOff len : Nat)

/-- A range of bytes behind a fat pointer. -/
structure Part where
  fatPtr : FatPtr
  offset : Nat
  size : Nat

namespace Part

def sum (part : Part) : Nat := part.fatPtr.start + part.offset + part.size

/-- The addresses of the pointer's data. -/
def data (part : Part) : Region := ⟨part.fatPtr.start, part.fatPtr.stop⟩

/-- The range lies in the data, as it does when its last address is computed without a wrap. -/
def Inside (part : Part) : Prop := part.sum ≤ part.fatPtr.stop

end Part

namespace MemCall

def run (mem : ByteMem) : MemCall → Outcome
  | load width fatPtr offset => rtLoad width mem fatPtr offset
  | store fatPtr val size offset => rtStore mem fatPtr val size offset
  | copy dstFat dstOff srcFat srcOff len => rtCopyBytes mem dstFat dstOff srcFat srcOff len

/-- The ranges that the call is to access. -/
def parts : MemCall → List Part
  | load width fatPtr offset => [⟨fatPtr, offset, width.size⟩]
  | store fatPtr _ size offset => [⟨fatPtr, offset, size⟩]
  | copy dstFat dstOff srcFat srcOff len => [⟨dstFat, dstOff, len⟩, ⟨srcFat, srcOff, len⟩]

end MemCall

/-- The call passes its checks only for ranges inside the data, and accesses nothing else. -/
structure Bounded (mem : ByteMem) (call : MemCall) : Prop where
  passed : (call.run mem).hasTrapped = false → ∀ part ∈ call.parts, part.Inside
  within : ∀ addr ∈ (call.run mem).mem.touched, addr ∈ mem.touched ∨
    ∃ part ∈ call.parts, addr ∈ part.data
  untouched : (call.run mem).hasTrapped = true → (call.run mem).mem = mem

/-- No sum comes to 2⁶⁴, or one of them does so far above it that its check fails. -/
def ChecksHold (call : MemCall) : Prop :=
  (∀ part ∈ call.parts, part.sum < 2 ^ 64) ∨
    ∃ part ∈ call.parts, part.fatPtr.stop < part.sum % 2 ^ 64

variable {mem : ByteMem}

theorem inBounds_iff (fatPtr : FatPtr) (offset size : Nat) :
    fatPtr.inBounds offset size = true ↔
      Part.sum ⟨fatPtr, offset, size⟩ % 2 ^ 64 ≤ fatPtr.stop := by
  have sums : iadd (iadd fatPtr.start offset) size =
      Part.sum ⟨fatPtr, offset, size⟩ % 2 ^ 64 := by
    unfold iadd
    change ((fatPtr.start + offset) % 2 ^ 64 + size) % 2 ^ 64 =
      (fatPtr.start + offset + size) % 2 ^ 64
    omega
  rw [FatPtr.inBounds, decide_eq_true_iff, sums]

/-- A call traps exactly when one of its checks fails. -/
theorem trapped_iff (call : MemCall) : (call.run mem).hasTrapped = true ↔
    ∃ part ∈ call.parts, part.fatPtr.stop < part.sum % 2 ^ 64 := by
  have failed : ∀ fatPtr offset size, ¬ FatPtr.inBounds fatPtr offset size = true ↔
      fatPtr.stop < Part.sum ⟨fatPtr, offset, size⟩ % 2 ^ 64 := fun fatPtr offset size => by
    rw [inBounds_iff, Nat.not_le]
  have traps : ∀ (passes : Bool) code (outcome : Outcome), outcome.hasTrapped = false →
      ((if passes = true then outcome else .trapped code mem).hasTrapped = true ↔
        ¬ passes = true) := by
    intro passes code outcome returns
    cases passes with
    | false => exact iff_of_true rfl Bool.false_ne_true
    | true => exact iff_of_false (by rw [if_pos rfl, returns]; decide) (not_not_intro rfl)
  cases call with
  | load width fatPtr offset =>
      simp only [MemCall.parts, List.mem_singleton, exists_eq_left]
      exact (traps _ _ _ rfl).trans (failed _ _ _)
  | store fatPtr val size offset =>
      simp only [MemCall.parts, List.mem_singleton, exists_eq_left]
      exact (traps _ _ _ rfl).trans (failed _ _ _)
  | copy dstFat dstOff srcFat srcOff len =>
      simp only [MemCall.parts, List.mem_cons, List.not_mem_nil, or_false, exists_eq_or_imp,
        exists_eq_left]
      rw [← failed, ← failed, MemCall.run, rtCopyBytes]
      cases dstFat.inBounds dstOff len with
      | false => exact iff_of_true rfl (.inl Bool.false_ne_true)
      | true =>
          rw [if_pos rfl, traps _ _ _ rfl]
          exact (or_iff_right (not_not_intro rfl)).symm

/-- Before a trap nothing is accessed. -/
theorem untouched_of_trapped (call : MemCall) (trapped : (call.run mem).hasTrapped = true) :
    (call.run mem).mem = mem := by
  cases call with
  | load width fatPtr offset =>
      rw [MemCall.run, rtLoad] at trapped ⊢
      split at trapped
      · cases trapped
      · rename_i fails
        rw [if_neg fails]
        rfl
  | store fatPtr val size offset =>
      rw [MemCall.run, rtStore] at trapped ⊢
      split at trapped
      · cases trapped
      · rename_i fails
        rw [if_neg fails]
        rfl
  | copy dstFat dstOff srcFat srcOff len =>
      rw [MemCall.run, rtCopyBytes] at trapped ⊢
      split at trapped
      · rename_i passes
        rw [if_pos passes]
        split at trapped
        · cases trapped
        · rename_i fails
          rw [if_neg fails]
          rfl
      · rename_i fails
        rw [if_neg fails]
        rfl

/-- The bytes of a range inside the data have addresses in it. -/
theorem mem_data {part : Part} (inside : part.Inside) {i : Nat} (inRange : i < part.size) :
    iadd (iadd part.fatPtr.start part.offset) i ∈ part.data := by
  have fits := part.fatPtr.fits
  unfold Part.Inside Part.sum at inside
  have base : iadd part.fatPtr.start part.offset = part.fatPtr.start + part.offset :=
    iadd_eq (by omega)
  have addr : iadd (part.fatPtr.start + part.offset) i = part.fatPtr.start + part.offset + i :=
    iadd_eq (by omega)
  rw [base, addr]
  constructor
  · dsimp only [Part.data]
    omega
  · dsimp only [Part.data]
    omega

/-- A call whose ranges lie inside the data accesses nothing else. -/
theorem within_of_inside (call : MemCall) (inside : ∀ part ∈ call.parts, part.Inside) :
    ∀ addr ∈ (call.run mem).mem.touched, addr ∈ mem.touched ∨
      ∃ part ∈ call.parts, addr ∈ part.data := by
  intro addr member
  cases call with
  | load width fatPtr offset =>
      rw [MemCall.run, rtLoad] at member
      split at member
      · rcases ByteMem.touched_loadBytes member with before | ⟨i, inRange, rfl⟩
        · exact .inl before
        · exact .inr ⟨_, List.mem_cons_self, mem_data (inside _ List.mem_cons_self) inRange⟩
      · exact .inl member
  | store fatPtr val size offset =>
      rw [MemCall.run, rtStore] at member
      split at member
      · rcases ByteMem.touched_storeLoop member with before | ⟨base, isBase, i, inRange, rfl⟩
        · exact .inl before
        · rw [List.mem_singleton.mp isBase]
          exact .inr ⟨_, List.mem_cons_self, mem_data (inside _ List.mem_cons_self) inRange⟩
      · exact .inl member
  | copy dstFat dstOff srcFat srcOff len =>
      have second : (⟨srcFat, srcOff, len⟩ : Part) ∈
          (MemCall.copy dstFat dstOff srcFat srcOff len).parts :=
        List.mem_cons_of_mem _ List.mem_cons_self
      rw [MemCall.run, rtCopyBytes] at member
      split at member
      · split at member
        · rcases ByteMem.touched_copyLoop member with before | ⟨base, isBase, i, inRange, rfl⟩
          · exact .inl before
          · rcases List.mem_pair.mp isBase with rfl | rfl
            · exact .inr ⟨_, List.mem_cons_self, mem_data (inside _ List.mem_cons_self) inRange⟩
            · exact .inr ⟨_, second, mem_data (inside _ second) inRange⟩
        · exact .inl member
      · exact .inl member

/-- The calls that keep to their pointers. -/
theorem bounded_iff (mem : ByteMem) (call : MemCall) : Bounded mem call ↔ ChecksHold call := by
  constructor
  · intro bounded
    by_cases trapped : (call.run mem).hasTrapped = true
    · exact .inr ((trapped_iff call).mp trapped)
    · refine .inl fun part member => ?_
      have inside := bounded.passed (Bool.not_eq_true _ ▸ trapped) part member
      have fits := part.fatPtr.fits
      unfold Part.Inside at inside
      omega
  · intro holds
    by_cases trapped : (call.run mem).hasTrapped = true
    · have same := untouched_of_trapped call trapped
      refine ⟨fun returned => ?_, fun addr member => ?_, fun _ => same⟩
      · rw [trapped] at returned
        cases returned
      · rw [same] at member
        exact .inl member
    · -- All checks pass, so the sums do not wrap.
      have passes : ∀ part ∈ call.parts, part.sum % 2 ^ 64 ≤ part.fatPtr.stop := by
        intro part member
        exact Nat.not_lt.mp fun fails => trapped ((trapped_iff call).mpr ⟨part, member, fails⟩)
      have noWrap := holds.resolve_right fun ⟨part, member, fails⟩ =>
        absurd (passes part member) (Nat.not_le.mpr fails)
      have inside : ∀ part ∈ call.parts, part.Inside := by
        intro part member
        have passed := passes part member
        rw [Nat.mod_eq_of_lt (noWrap part member)] at passed
        exact passed
      exact ⟨fun _ => inside, within_of_inside call inside, fun isTrapped => absurd isTrapped trapped⟩

/-- With an offset of -8 the word before the data is loaded. -/
theorem word_before_loaded : ∃ (mem : ByteMem) (fatPtr : FatPtr),
    ¬ Bounded mem (.load .u64 fatPtr (2 ^ 64 - 8)) := by
  refine ⟨⟨fun _ => 0, []⟩, ⟨4096, 4128, by decide, by decide⟩, fun bounded => ?_⟩
  have inside := bounded.passed rfl _ List.mem_cons_self
  change 4096 + (2 ^ 64 - 8) + 8 ≤ 4128 at inside
  exact absurd inside (by decide)

end LakeNative.Memory

import LakeNative.Allocators.BucketSafety

/-! # What one call of the bucket allocator leaves alone

An allocation writes to the space that it hands out, and freeing writes to the space that is
given back.
-/

namespace LakeNative.Allocators

open LakeNative.Runtime LakeNative.Regions

variable {base : HeapRegion} {state : BucketState} {dead : Nat → List Nat}

@[simp] theorem BucketState.heap_record (state : BucketState) (allocation : Allocation) (heap : Heap) :
    (state.record allocation heap).heap = heap := rfl

@[simp] theorem BucketState.live_record (state : BucketState) (allocation : Allocation) (heap : Heap) :
    (state.record allocation heap).live = allocation :: state.live := rfl

/-- A new allocation is none of the earlier ones. -/
theorem record_fresh {added allocation : Allocation} {heap : Heap}
    (intact : Intact base dead (state.record added heap)) (member : allocation ∈ state.live) :
    allocation ≠ added := by
  rintro rfl
  exact (List.nodup_cons.mp intact.once).1 (List.mem_map_of_mem member)

theorem load_store_of_ne (heap : Heap) {addr word value : Nat} (different : addr ≠ word) :
    (heap.store word value).load addr = heap.load addr := Function.update_of_ne different _ _

namespace Intact

/-- The end of an allocation's space. -/
theorem space_fits (intact : Intact base dead state) {allocation : Allocation}
    (member : allocation ∈ state.live) : allocation.space.stop ≤ 2 ^ 47 := by
  have held := intact.held _ member
  cases isHuge : allocation.isHuge with
  | false =>
      rw [Allocation.space_small isHuge]
      exact intact.chunk_fits (held.small isHuge).1
  | true =>
      rw [Allocation.space_huge isHuge]
      exact (held.huge isHuge).2.2.2.1

/-- An allocation that is not huge, or no overflowing one, has room for what was requested. -/
theorem region_room (intact : Intact base dead state) {allocation : Allocation}
    (member : allocation ∈ state.live) (noOverflow : allocation.size < 2 ^ 64 - 31) :
    (allocation.region state.heap).first + allocation.size ≤
      (allocation.region state.heap).stop := by
  have held := intact.held _ member
  unfold Allocation.region
  cases isHuge : allocation.isHuge with
  | false => exact Nat.add_le_add_left (le_classSize held.isWord) _
  | true =>
      rcases held.huge isHuge with ⟨starts, ends, nonempty, -⟩
      have room := mmapSize_room noOverflow nonempty
      dsimp only
      rw [if_pos rfl, starts, ends]
      omega

/-- What an allocation comes to: the invariant holds with the new allocation, and memory
outside its space is as it was. -/
theorem allocate_spec (intact : Intact base dead state) {size mmapAddr fatPtr : Nat} {heap : Heap}
    (isWord : size < 2 ^ 64)
    (maps : MAX_CLASS < sizeClass size → state.Maps base ⟨mmapAddr, mmapAddr + mmapSize size⟩)
    (allocates : state.heap.allocateRaw size mmapAddr = some (fatPtr, heap)) :
    (∃ later, Intact base later (state.record ⟨fatPtr, size⟩ heap)) ∧
      AgreeOutside (Allocation.space ⟨fatPtr, size⟩) state.heap.words heap.words := by
  have small : ∀ fatPtr, sizeClass size ≤ MAX_CLASS →
      Allocation.space ⟨fatPtr, size⟩ = Chunk.space ⟨fatPtr, sizeClass size⟩ := by
    intro fatPtr inRange
    have isSmall : Allocation.isHuge ⟨fatPtr, size⟩ = false :=
      Allocation.isHuge_eq_false_iff.mpr inRange
    exact Allocation.space_small isSmall
  simp only [Heap.allocateRaw] at allocates
  by_cases inRange : sizeClass size ≤ MAX_CLASS
  · rw [if_pos inRange] at allocates
    by_cases hasFree : state.heap.freeListHeads (sizeClass size) ≠ 0
    · rw [if_pos hasFree] at allocates
      cases allocates
      rw [small _ inRange]
      rcases (intact.lists (sizeClass size)).exists_cons hasFree with ⟨rest, isList, -⟩
      have isChunk := (intact.isDead _ _ (isList ▸ List.mem_cons_self)).1
      exact ⟨intact.pop isWord inRange rfl hasFree,
        intact.popBlock_frame isChunk (le_classSize isWord)⟩
    · rw [if_neg hasFree] at allocates
      rw [small _ inRange]
      exact ⟨⟨dead, intact.bump_block isWord inRange allocates⟩,
        intact.bumpBlock_frame inRange (le_classSize isWord) allocates⟩
  · rw [if_neg inRange] at allocates
    cases allocates
    have huge := Nat.not_le.mp inRange
    have mapping := maps huge
    have nonempty := mapping.nonempty
    have fits := mapping.fits
    dsimp only at nonempty fits
    have isHuge : Allocation.isHuge ⟨mmapAddr, size⟩ = true := Allocation.isHuge_iff.mpr huge
    rw [Allocation.space_huge isHuge]
    have written : AgreeOutside ⟨mmapAddr, mmapAddr + mmapSize size⟩ state.heap.words
        (state.heap.hugeBlock size mmapAddr).2.words :=
      hugeBlock_frame state.heap (by omega) (by omega)
    exact ⟨⟨dead, intact.map isWord huge mapping⟩, written⟩

/-- What freeing comes to. -/
theorem free_spec (intact : Intact base dead state) {allocation : Allocation}
    (member : allocation ∈ state.live) (noOverflow : allocation.size < 2 ^ 64 - 31) :
    (∃ later, Intact base later { state with
      heap := (state.heap.free allocation.fatPtr).2
      live := state.live.erase allocation }) ∧
      AgreeOutside allocation.space state.heap.words
        (state.heap.free allocation.fatPtr).2.words := by
  cases isHuge : allocation.isHuge with
  | false =>
      rw [intact.free_small member isHuge, Allocation.space_small isHuge]
      exact ⟨intact.push member isHuge,
        (intact.words_pushBlock ((intact.held _ member).small isHuge).1 rfl).1⟩
  | true =>
      have isFreed := (intact.freed_iff member).mpr noOverflow
      rw [intact.free_huge member isHuge] at isFreed ⊢
      by_cases inRange : mmapSize allocation.size ≤ 2 ^ 24 + 32
      · rw [if_pos inRange, Allocation.freed, isHuge] at isFreed
        cases isFreed
      · rw [if_neg inRange]
        exact ⟨⟨dead, intact.sublist List.erase_sublist⟩, fun _ _ => rfl⟩

end Intact

end LakeNative.Allocators

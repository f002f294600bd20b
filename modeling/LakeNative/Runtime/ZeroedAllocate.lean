import LakeNative.Runtime.SlabAllocator

/-! # Allocating zeroed memory

`rt_allocate` is `rt_allocate_raw` but for what it does with a chunk from a free list: it
stores zeros to the words of the payload. With `LAKE_SLAB_ALLOC` the two are the same.
-/

namespace LakeNative.Runtime

open SlabLayout Regions

/-- The payload of a fat pointer. -/
def payloadOf (words : Words) (fatPtr : Nat) : Region := ⟨words fatPtr, words (fatPtr + 8)⟩

/-- The words of a region read as zero, counted from its start. -/
def ReadsZero (words : Words) (region : Region) : Prop :=
  ∀ index, region.first + 8 * index < region.stop → words (region.first + 8 * index) = 0

namespace Heap

/-- The rounds of `zero_hdr` and `zero_body` below `zero_limit`. -/
def zeroRounds (heap : Heap) (payloadAddr : Nat) : Nat → Heap
  | 0 => heap
  | rounds + 1 => (heap.zeroRounds payloadAddr rounds).store (iadd payloadAddr (8 * rounds)) 0

/-- `pop_block` of `rt_allocate`: the words that were asked for are cleared, not the bucket. -/
def popZeroed (heap : Heap) (bucket userSize head : Nat) : Nat × Heap :=
  let payloadAddr := heap.load head
  let next := heap.load payloadAddr
  let visibleEnd := iadd payloadAddr userSize
  let zeroLimit := alignDown (iadd userSize 7) 8
  let unlinked := (heap.setHead bucket next).store (head + 8) visibleEnd
  (head, unlinked.zeroRounds payloadAddr (zeroLimit / 8))

/-- `rt_allocate`; the pages that `rt_mmap` returns read as zero. -/
def allocate (heap : Heap) (userSize mmapAddr : Nat) : Option (Nat × Heap) :=
  let bucket := sizeClass userSize
  if bucket ≤ MAX_CLASS then
    let head := heap.freeListHeads bucket
    if head ≠ 0 then some (heap.popZeroed bucket userSize head) else heap.bumpBlock bucket userSize
  else
    some ((heap.advise mmapAddr (mmapSize userSize)).hugeBlock userSize mmapAddr)

theorem zeroRounds_spec (heap : Heap) {payloadAddr rounds : Nat}
    (fits : payloadAddr + 8 * rounds < 2 ^ 64) :
    ∃ words, heap.zeroRounds payloadAddr rounds = { heap with words := words } ∧
      (∀ index < rounds, words (payloadAddr + 8 * index) = 0) ∧
      ∀ addr, (∀ index < rounds, addr ≠ payloadAddr + 8 * index) →
        words addr = heap.words addr := by
  induction rounds with
  | zero => exact ⟨heap.words, rfl, nofun, fun _ _ => rfl⟩
  | succ rounds induction =>
      rcases induction (by omega) with ⟨words, isZeroed, zeroed, others⟩
      have here : iadd payloadAddr (8 * rounds) = payloadAddr + 8 * rounds := iadd_eq (by omega)
      refine ⟨Function.update words (payloadAddr + 8 * rounds) 0, ?_, ?_, ?_⟩
      · rw [zeroRounds, isZeroed, here]
        rfl
      · intro index inRounds
        by_cases latest : index = rounds
        · rw [latest, Function.update_self]
        · rw [Function.update_of_ne (by omega)]
          exact zeroed index (by omega)
      · intro addr outside
        rw [Function.update_of_ne (outside rounds (Nat.lt_succ_self _))]
        exact others addr fun index inRounds => outside index (by omega)

end Heap

namespace SlabHeap

/-- What the kernel does to pages before it maps them. -/
def newPages (heap : SlabHeap) (addr length : Nat) : SlabHeap :=
  { heap with words := fun word =>
      if addr ≤ word ∧ word < addr + length then 0 else heap.words word }

/-- The length that `rt_allocate` asks `rt_mmap` for: twice a slab, or a mapping of its own. -/
def mmapLength (userSize : Nat) : Nat :=
  if slabClassIdx userSize ≤ NUM_CLASSES - 1 then 2 * slabSizeForClass (slabClassIdx userSize)
  else mmapSize userSize

/-- `rt_allocate`, with what `rt_mmap` returns. -/
def allocate (heap : SlabHeap) (fuel userSize raw : Nat) : Option (Allocated × SlabHeap) :=
  (heap.newPages raw (mmapLength userSize)).allocateRaw fuel userSize raw

end SlabHeap

end LakeNative.Runtime

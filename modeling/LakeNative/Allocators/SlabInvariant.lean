import LakeNative.Allocators.SlabRuns

/-! # What the slab allocator keeps

Each operation writes to the header and the bitmap of one slab, or to a chunk, and so leaves
the headers and bitmaps of all other slabs as they are.
-/

namespace LakeNative.Allocators

open LakeNative.Runtime LakeNative.Runtime.SlabLayout LakeNative.Regions LakeNative.LinkedList
open LakeNative.Bitmap

variable {state : SlabState} {heap : SlabHeap} {classIdx slab widx : Nat}

theorem bitmapWord_eq (fits : slab + HDR_BITMAP_START + 8 * widx < 2 ^ 64) :
    bitmapWord slab widx = slab + HDR_BITMAP_START + 8 * widx := by
  have start : iadd slab HDR_BITMAP_START = slab + HDR_BITMAP_START := iadd_eq (by omega)
  have offset : imul widx 8 = 8 * widx := by
    rw [imul_eq (by omega), Nat.mul_comm]
  rw [bitmapWord, start, offset, iadd_eq fits]

section Geometry

variable (inRange : classIdx ≤ NUM_CLASSES - 1)
include inRange

theorem mem_meta {offset : Nat} (inside : offset < HDR_FIXED_BYTES) :
    slab + offset ∈ slabMeta classIdx slab := by
  have room := (geometry classIdx inRange).2.2.1
  change slab ≤ slab + offset ∧ slab + offset < slab + payloadOffset classIdx
  dsimp only [HDR_BITMAP_START, HDR_FIXED_BYTES] at room inside
  omega

theorem bitmap_mem_meta (inWords : widx < numWords classIdx) :
    slab + HDR_BITMAP_START + 8 * widx ∈ slabMeta classIdx slab := by
  have room := (geometry classIdx inRange).2.2.1
  change slab ≤ slab + HDR_BITMAP_START + 8 * widx ∧
    slab + HDR_BITMAP_START + 8 * widx < slab + payloadOffset classIdx
  dsimp only [HDR_BITMAP_START] at room ⊢
  omega

theorem meta_within : (slabMeta classIdx slab).Within (slabRegion classIdx slab) := by
  rcases geometry classIdx inRange with ⟨-, -, -, room, -⟩
  refine ⟨Nat.le_refl _, ?_⟩
  change slab + payloadOffset classIdx ≤ slab + slabSizeForClass classIdx
  omega

end Geometry

theorem freeBits_congr {words others : Words}
    (same : ∀ widx < numWords classIdx, others (slab + HDR_BITMAP_START + 8 * widx) =
      words (slab + HDR_BITMAP_START + 8 * widx)) :
    freeBits others classIdx slab = freeBits words classIdx slab := by
  apply marked_congr
  intro widx inBound
  exact same widx (by omega)

/-- A slab is kept by what leaves its class, count and bitmap alone. -/
theorem SlabKept.congr {later : SlabHeap} (kept : SlabKept heap classIdx slab)
    (sameClass : later.words (slab + HDR_CLASS_ID) = heap.words (slab + HDR_CLASS_ID))
    (sameCount : later.words (slab + HDR_FREE_COUNT) = heap.words (slab + HDR_FREE_COUNT))
    (sameWords : ∀ widx < numWords classIdx, later.words (slab + HDR_BITMAP_START + 8 * widx) =
      heap.words (slab + HDR_BITMAP_START + 8 * widx))
    (mapped : ∀ addr ∈ slabRegion classIdx slab, later.mapped addr = true) :
    SlabKept later classIdx slab := by
  have sameBits := freeBits_congr sameWords
  refine {
    aligned := kept.aligned
    positive := kept.positive
    fits := kept.fits
    mapped := mapped
    classId := sameClass.trans kept.classId
    isWord := ?_
    counted := ?_
    inChunks := ?_ }
  · intro widx inWords
    have isWord := kept.isWord widx inWords
    rw [bitmapOf] at isWord ⊢
    rw [sameWords widx inWords]
    exact isWord
  · rw [sameCount, sameBits]
    exact kept.counted
  · rw [sameBits]
    exact kept.inChunks

theorem SlabKept.frame {later : SlabHeap} (kept : SlabKept heap classIdx slab)
    (inRange : classIdx ≤ NUM_CLASSES - 1)
    (same : ∀ addr ∈ slabMeta classIdx slab, later.words addr = heap.words addr)
    (mapped : ∀ addr ∈ slabRegion classIdx slab, later.mapped addr = true) :
    SlabKept later classIdx slab :=
  kept.congr (same _ (mem_meta inRange (by decide))) (same _ (mem_meta inRange (by decide)))
    (fun _ inWords => same _ (bitmap_mem_meta inRange inWords)) mapped

namespace SlabChunk

variable {chunk : SlabChunk}

/-- A chunk lies in its slab behind the header and the bitmap. -/
theorem region_within (inRange : chunk.classIdx ≤ NUM_CLASSES - 1)
    (inSlab : chunk.chunkIdx < chunksPerSlab chunk.classIdx) :
    chunk.region.Within ⟨chunk.slab + payloadOffset chunk.classIdx,
      chunk.slab + slabSizeForClass chunk.classIdx⟩ := by
  rcases geometry chunk.classIdx inRange with ⟨-, -, -, room, -⟩
  have next : (chunk.chunkIdx + 1) * classSize chunk.classIdx ≤
      chunksPerSlab chunk.classIdx * classSize chunk.classIdx := Nat.mul_le_mul_right _ inSlab
  rw [Nat.succ_mul] at next
  constructor
  · exact Nat.le_add_right _ _
  · change chunk.slab + payloadOffset chunk.classIdx +
      chunk.chunkIdx * classSize chunk.classIdx + classSize chunk.classIdx ≤ _
    dsimp only
    omega

theorem region_apart_meta (inRange : chunk.classIdx ≤ NUM_CLASSES - 1)
    (inSlab : chunk.chunkIdx < chunksPerSlab chunk.classIdx) :
    chunk.region.Apart (slabMeta chunk.classIdx chunk.slab) :=
  .inr (region_within inRange inSlab).1

theorem region_within_slab (inRange : chunk.classIdx ≤ NUM_CLASSES - 1)
    (inSlab : chunk.chunkIdx < chunksPerSlab chunk.classIdx) :
    chunk.region.Within (slabRegion chunk.classIdx chunk.slab) :=
  (region_within inRange inSlab).trans ⟨Nat.le_add_right _ _, Nat.le_refl _⟩

/-- Chunks of one slab with different numbers are apart. -/
theorem region_apart {other : SlabChunk} (sameSlab : chunk.slab = other.slab)
    (sameClass : chunk.classIdx = other.classIdx) (before : chunk.chunkIdx < other.chunkIdx) :
    chunk.region.Apart other.region := by
  have next : (chunk.chunkIdx + 1) * classSize chunk.classIdx ≤
      other.chunkIdx * classSize chunk.classIdx := Nat.mul_le_mul_right _ before
  rw [Nat.succ_mul] at next
  refine .inl ?_
  change chunk.slab + payloadOffset chunk.classIdx + chunk.chunkIdx * classSize chunk.classIdx +
    classSize chunk.classIdx ≤ other.slab + payloadOffset other.classIdx +
      other.chunkIdx * classSize other.classIdx
  rw [← sameSlab, ← sameClass]
  omega

end SlabChunk

namespace SlabsIntact

theorem slab_fits (intact : SlabsIntact state) (member : slab ∈ state.slabs classIdx) :
    slab + slabSizeForClass classIdx ≤ 2 ^ 47 := (intact.kept classIdx slab member).fits

/-- A slab belongs to one class only. -/
theorem class_unique (intact : SlabsIntact state) {otherIdx : Nat}
    (member : slab ∈ state.slabs classIdx) (also : slab ∈ state.slabs otherIdx) :
    classIdx = otherIdx :=
  (intact.kept _ _ member).classId.symm.trans (intact.kept _ _ also).classId

/-- The header and the bitmap of a slab are apart from all chunks. -/
theorem meta_apart (intact : SlabsIntact state) (member : slab ∈ state.slabs classIdx)
    {chunk : SlabChunk} (isSlab : chunk.slab ∈ state.slabs chunk.classIdx)
    (inSlab : chunk.chunkIdx < chunksPerSlab chunk.classIdx) :
    (slabMeta classIdx slab).Apart chunk.region := by
  have inRange := intact.inRange _ _ isSlab
  by_cases same : slab = chunk.slab
  · subst same
    have sameClass := intact.class_unique member isSlab
    rw [sameClass]
    exact (SlabChunk.region_apart_meta inRange inSlab).symm
  · have apart := intact.apart _ _ member _ _ isSlab same
    have part := apart.within (meta_within (intact.inRange _ _ member))
    exact (part.symm.within (SlabChunk.region_within_slab inRange inSlab)).symm

theorem meta_apart_chunk (intact : SlabsIntact state) (member : slab ∈ state.slabs classIdx)
    {chunk : SlabChunk} (kept : ChunkKept state chunk) :
    (slabMeta classIdx slab).Apart chunk.region :=
  intact.meta_apart member kept.isSlab kept.inSlab

/-- Two chunks of the slabs are apart, live or not. -/
theorem regions_apart (intact : SlabsIntact state) {chunk other : SlabChunk}
    (isSlab : chunk.slab ∈ state.slabs chunk.classIdx)
    (inSlab : chunk.chunkIdx < chunksPerSlab chunk.classIdx)
    (otherIsSlab : other.slab ∈ state.slabs other.classIdx)
    (otherInSlab : other.chunkIdx < chunksPerSlab other.classIdx)
    (different : chunk.slab = other.slab → chunk.chunkIdx ≠ other.chunkIdx) :
    chunk.region.Apart other.region := by
  by_cases sameSlab : chunk.slab = other.slab
  · have sameClass : chunk.classIdx = other.classIdx :=
      intact.class_unique isSlab (sameSlab ▸ otherIsSlab)
    rcases Nat.lt_or_gt_of_ne (different sameSlab) with before | behind
    · exact SlabChunk.region_apart sameSlab sameClass before
    · exact (SlabChunk.region_apart sameSlab.symm sameClass.symm behind).symm
  · have apart := intact.apart _ _ isSlab _ _ otherIsSlab sameSlab
    have part := apart.within (SlabChunk.region_within_slab (intact.inRange _ _ isSlab) inSlab)
    exact (part.symm.within
      (SlabChunk.region_within_slab (intact.inRange _ _ otherIsSlab) otherInSlab)).symm

/-- Live chunks are apart. -/
theorem chunks_apart (intact : SlabsIntact state) {chunk other : SlabChunk}
    (member : chunk ∈ state.live) (also : other ∈ state.live) (different : chunk ≠ other) :
    chunk.region.Apart other.region := by
  have kept := intact.live _ member
  have otherKept := intact.live _ also
  apply intact.regions_apart kept.isSlab kept.inSlab otherKept.isSlab otherKept.inSlab
  intro sameSlab sameIdx
  exact different (intact.once.2 _ member _ also sameSlab sameIdx)

theorem mapped (intact : SlabsIntact state) : ∀ classIdx, ∀ slab ∈ state.slabs classIdx,
    ∀ addr ∈ slabRegion classIdx slab, state.heap.mapped addr = true :=
  fun _ _ member => (intact.kept _ _ member).mapped

/-! ## Changes that leave the slabs alone -/

/-- What keeps the headers and bitmaps of all slabs keeps the invariant. -/
theorem frame (intact : SlabsIntact state) {later : SlabHeap}
    (same : ∀ classIdx, ∀ slab ∈ state.slabs classIdx, ∀ addr ∈ slabMeta classIdx slab,
      later.words addr = state.heap.words addr)
    (mapped : ∀ classIdx, ∀ slab ∈ state.slabs classIdx, ∀ addr ∈ slabRegion classIdx slab,
      later.mapped addr = true)
    (sameHeads : later.slabsHead = state.heap.slabsHead)
    (current : ∀ classIdx, later.currentSlab classIdx = 0 ∨
      later.currentSlab classIdx ∈ state.slabs classIdx) :
    SlabsIntact { state with heap := later } where
  inRange := intact.inRange
  lists classIdx := by
    dsimp only
    rw [sameHeads]
    refine (intact.lists classIdx).congr fun slab member => ?_
    exact same _ _ member _ (mem_meta (intact.inRange _ _ member) (by decide))
  backs classIdx := by
    refine (intact.backs classIdx).congr fun slab member => ?_
    exact same _ _ member _ (mem_meta (intact.inRange _ _ member) (by decide))
  current := current
  kept classIdx slab member :=
    (intact.kept _ _ member).frame (intact.inRange _ _ member) (same _ _ member)
      (mapped _ _ member)
  apart := intact.apart
  live chunk member := by
    have kept := intact.live _ member
    refine ⟨kept.isSlab, kept.inSlab, ?_, kept.sized⟩
    have inRange := intact.inRange _ _ kept.isSlab
    have sameBits := @freeBits_congr chunk.classIdx chunk.slab state.heap.words later.words
      fun widx inWords => same _ _ kept.isSlab _ (bitmap_mem_meta inRange inWords)
    dsimp only
    rw [sameBits]
    exact kept.notFree
  once := intact.once

/-- A write inside a live chunk. -/
theorem write (intact : SlabsIntact state) {words : Words}
    (keeps : ∀ addr, (∀ chunk ∈ state.live, addr ∉ chunk.region) →
      words addr = state.heap.words addr) :
    SlabsIntact { state with heap := { state.heap with words := words } } := by
  refine intact.frame (fun classIdx slab member addr inMeta => ?_) intact.mapped rfl intact.current
  refine keeps addr fun chunk isLive => ?_
  exact (intact.meta_apart_chunk member (intact.live _ isLive)).notMem inMeta

end SlabsIntact

/-! ## Changes of one bitmap -/

section Recount

variable {word count : Nat} {bits : Finset Nat}

/-- The words after a store to a word of a slab's bitmap and one to its count. -/
def recounted (words : Words) (slab widx word count : Nat) : Words :=
  Function.update (Function.update words (slab + HDR_BITMAP_START + 8 * widx) word)
    (slab + HDR_FREE_COUNT) count

theorem recounted_agree (words : Words) (inRange : classIdx ≤ NUM_CLASSES - 1)
    (inWords : widx < numWords classIdx) :
    AgreeOutside (slabMeta classIdx slab) words (recounted words slab widx word count) :=
  (AgreeOutside.update (bitmap_mem_meta inRange inWords) _).trans
    (AgreeOutside.update (mem_meta inRange (by decide)) _)

theorem recounted_fixed (words : Words) {offset : Nat} (inside : offset < HDR_BITMAP_START)
    (notCount : offset ≠ HDR_FREE_COUNT) :
    recounted words slab widx word count (slab + offset) = words (slab + offset) := by
  rw [recounted, Function.update_of_ne (by omega), Function.update_of_ne (by omega)]

theorem bitmapOf_recounted (words : Words) :
    bitmapOf (recounted words slab widx word count) slab =
      Function.update (bitmapOf words slab) widx word := by
  funext other
  have notCount : slab + HDR_BITMAP_START + 8 * other ≠ slab + HDR_FREE_COUNT := by
    dsimp only [HDR_BITMAP_START, HDR_FREE_COUNT]
    omega
  rw [bitmapOf, recounted, Function.update_of_ne notCount]
  by_cases same : other = widx
  · rw [same, Function.update_self, Function.update_self]
  · rw [Function.update_of_ne (by omega), Function.update_of_ne same, bitmapOf]

/-- A change of one slab's bitmap and count keeps the invariant when they still agree and no
live chunk becomes free. -/
theorem SlabsIntact.recount (intact : SlabsIntact state) (member : slab ∈ state.slabs classIdx)
    (inWords : widx < numWords classIdx) (isWord : word < 2 ^ 64)
    (isBits : marked 64 (64 * numWords classIdx)
      (Function.update (bitmapOf state.heap.words slab) widx word) = bits)
    (isCount : count = bits.card) (inChunks : ∀ chunkIdx ∈ bits, chunkIdx < chunksPerSlab classIdx)
    {live : List SlabChunk}
    (stillLive : ∀ chunk ∈ live, chunk.slab ∈ state.slabs chunk.classIdx ∧
      chunk.chunkIdx < chunksPerSlab chunk.classIdx ∧ slabClassIdx chunk.size = chunk.classIdx ∧
      (chunk.slab = slab → chunk.chunkIdx ∉ bits) ∧
      (chunk.slab ≠ slab → ChunkKept state chunk))
    (once : live.Nodup ∧ ∀ chunk ∈ live, ∀ other ∈ live, chunk.slab = other.slab →
      chunk.chunkIdx = other.chunkIdx → chunk = other) :
    SlabsIntact { state with
      live := live
      heap := { state.heap with words := recounted state.heap.words slab widx word count } } := by
  have inRange := intact.inRange _ _ member
  have agree := @recounted_agree classIdx slab widx word count state.heap.words inRange inWords
  have newBits : freeBits (recounted state.heap.words slab widx word count) classIdx slab = bits := by
    rw [freeBits, bitmapOf_recounted]
    exact isBits
  have elsewhere : ∀ otherIdx, ∀ other ∈ state.slabs otherIdx, other ≠ slab →
      ∀ addr ∈ slabMeta otherIdx other,
        recounted state.heap.words slab widx word count addr = state.heap.words addr := by
    intro otherIdx other also different addr inMeta
    have apart := (intact.apart _ _ also _ _ member different).within
      (meta_within (intact.inRange _ _ also))
    exact agree.of_apart (apart.symm.within (meta_within inRange)).symm inMeta
  have links : ∀ otherIdx, ∀ other ∈ state.slabs otherIdx, ∀ offset, offset < HDR_BITMAP_START →
      offset ≠ HDR_FREE_COUNT → recounted state.heap.words slab widx word count (other + offset) =
        state.heap.words (other + offset) := by
    intro otherIdx other also offset inside notCount
    by_cases same : other = slab
    · rw [same]
      exact recounted_fixed _ inside notCount
    · exact elsewhere _ _ also same _ (mem_meta (intact.inRange _ _ also) inside)
  refine {
    inRange := intact.inRange
    lists := fun otherIdx => (intact.lists otherIdx).congr fun other also =>
      links _ _ also _ (by decide) (by decide)
    backs := fun otherIdx => (intact.backs otherIdx).congr fun other also =>
      links _ _ also _ (by decide) (by decide)
    current := intact.current
    kept := ?_
    apart := intact.apart
    live := ?_
    once := once }
  · intro otherIdx other also
    by_cases same : other = slab
    · subst same
      have sameClass := intact.class_unique also member
      subst sameClass
      have kept := intact.kept _ _ also
      refine {
        aligned := kept.aligned
        positive := kept.positive
        fits := kept.fits
        mapped := kept.mapped
        classId := (recounted_fixed _ (by decide) (by decide)).trans kept.classId
        isWord := ?_
        counted := ?_
        inChunks := ?_ }
      · intro another inBitmap
        dsimp only
        rw [bitmapOf_recounted]
        by_cases sameWord : another = widx
        · rw [sameWord, Function.update_self]
          exact isWord
        · rw [Function.update_of_ne sameWord]
          exact kept.isWord another inBitmap
      · dsimp only
        rw [newBits, recounted, Function.update_self]
        exact isCount
      · dsimp only
        rw [newBits]
        exact inChunks
    · exact (intact.kept _ _ also).frame (intact.inRange _ _ also)
        (elsewhere _ _ also same) (intact.kept _ _ also).mapped
  · intro chunk isLive
    rcases stillLive chunk isLive with ⟨isSlab, inSlab, sized, taken, others⟩
    refine ⟨isSlab, inSlab, ?_, sized⟩
    dsimp only
    by_cases same : chunk.slab = slab
    · have sameClass : chunk.classIdx = classIdx := by
        rw [same] at isSlab
        exact intact.class_unique isSlab member
      rw [same, sameClass, newBits]
      exact taken same
    · rw [freeBits_congr fun another inBitmap => elsewhere _ _ isSlab same _
        (bitmap_mem_meta (intact.inRange _ _ isSlab) inBitmap)]
      exact (others same).notFree

end Recount

/-! ## Taking a chunk -/

/-- Where a number is in the bitmap. -/
theorem chunk_word (inRange : classIdx ≤ NUM_CLASSES - 1) {chunkIdx : Nat}
    (inSlab : chunkIdx < chunksPerSlab classIdx) : chunkIdx / 64 < numWords classIdx := by
  have room := (geometry classIdx inRange).2.1
  omega

theorem one_shl {bit : Nat} (inWord : bit < 64) : ishl 1 bit = 2 ^ bit := by
  have bounded : 1 * 2 ^ bit < 2 ^ 64 := by
    rw [Nat.one_mul]
    exact Nat.pow_lt_pow_right (by decide) inWord
  rw [ishl_eq bounded, Nat.one_mul]

theorem testBit_clear {word target : Nat} (inWord : target < 64) : ∀ bit < 64,
    (word &&& bnot (ishl 1 target)).testBit bit = (word.testBit bit && decide (bit ≠ target)) := by
  intro bit inBits
  have bounded : 2 ^ target < 2 ^ 64 := Nat.pow_lt_pow_right (by decide) inWord
  rw [one_shl inWord, Nat.testBit_and, testBit_bnot bounded inBits, Nat.testBit_two_pow]
  by_cases same : target = bit
  · simp [same]
  · simp [same, Ne.symm same]

theorem testBit_mark {word target : Nat} (inWord : target < 64) : ∀ bit < 64,
    (word ||| ishl 1 target).testBit bit = (word.testBit bit || decide (bit = target)) := by
  intro bit _
  rw [one_shl inWord, Nat.testBit_or, Nat.testBit_two_pow]
  by_cases same : target = bit
  · simp [same]
  · simp [same, Ne.symm same]

/-- What `takeChunk` computes from a word of a slab in the lower half of the address space. -/
theorem takeChunk_eq (inRange : classIdx ≤ NUM_CLASSES - 1) (inWords : widx < numWords classIdx)
    (fits : slab + slabSizeForClass classIdx ≤ 2 ^ 47) {bitIdx chunkIdx size : Nat}
    (isBit : ctz (bitmapOf heap.words slab widx) = bitIdx) (isChunk : chunkIdx = 64 * widx + bitIdx)
    (inSlab : chunkIdx < chunksPerSlab classIdx)
    (hasFree : 0 < heap.words (slab + HDR_FREE_COUNT))
    (isWord : heap.words (slab + HDR_FREE_COUNT) < 2 ^ 64) :
    heap.takeChunk classIdx slab widx =
      (⟨slab, chunkIdx, SlabChunk.addr ⟨slab, classIdx, chunkIdx, size⟩⟩, { heap with
        words := recounted heap.words slab widx
          (bitmapOf heap.words slab widx &&& bnot (ishl 1 bitIdx))
          (heap.words (slab + HDR_FREE_COUNT) - 1) }) := by
  rcases geometry classIdx inRange with ⟨-, -, bitmapRoom, chunkRoom, -, -, small⟩
  have offsetBound : chunkIdx * classSize classIdx ≤
      chunksPerSlab classIdx * classSize classIdx := Nat.mul_le_mul_right _ (Nat.le_of_lt inSlab)
  dsimp only [HDR_BITMAP_START] at bitmapRoom
  have waddr : bitmapWord slab widx = slab + HDR_BITMAP_START + 8 * widx := by
    apply bitmapWord_eq
    dsimp only [HDR_BITMAP_START]
    omega
  have base : iadd slab HDR_BITMAP_START = slab + HDR_BITMAP_START := by
    apply iadd_eq
    dsimp only [HDR_BITMAP_START]
    omega
  have woffBytes : isub (slab + HDR_BITMAP_START + 8 * widx) (slab + HDR_BITMAP_START) =
      8 * widx := by
    dsimp only [HDR_BITMAP_START]
    rw [isub_eq (by omega) (by omega)]
    omega
  have woffBits : ishl (8 * widx) 3 = 64 * widx := by
    rw [ishl_eq (by omega)]
    omega
  have bound : 64 * widx + bitIdx < 2 ^ 64 := by
    have atLeast : chunksPerSlab classIdx * 1 ≤ chunksPerSlab classIdx * classSize classIdx :=
      Nat.mul_le_mul_left _ (classSize_pos classIdx)
    omega
  have isIdx : iadd (64 * widx) bitIdx = chunkIdx := (iadd_eq bound).trans isChunk.symm
  have offset : imul chunkIdx (classSize classIdx) = chunkIdx * classSize classIdx :=
    imul_eq (by omega)
  have payloadBase : iadd slab (payloadOffset classIdx) = slab + payloadOffset classIdx :=
    iadd_eq (by omega)
  have isAddr : iadd (slab + payloadOffset classIdx) (chunkIdx * classSize classIdx) =
      SlabChunk.addr ⟨slab, classIdx, chunkIdx, size⟩ := iadd_eq (by omega)
  have counted : isub (heap.words (slab + HDR_FREE_COUNT)) 1 =
      heap.words (slab + HDR_FREE_COUNT) - 1 := isub_eq hasFree isWord
  have wval : heap.words (slab + HDR_BITMAP_START + 8 * widx) = bitmapOf heap.words slab widx := rfl
  simp only [SlabHeap.takeChunk, SlabHeap.load, SlabHeap.store, waddr, base, woffBytes, woffBits,
    wval, isBit, isIdx, offset, payloadBase, isAddr, counted, recounted]

theorem SlabsIntact.count_lt (intact : SlabsIntact state) (member : slab ∈ state.slabs classIdx) :
    state.heap.words (slab + HDR_FREE_COUNT) < 2 ^ 64 - 1 := by
  have inRange := intact.inRange _ _ member
  rcases geometry classIdx inRange with ⟨-, -, -, chunkRoom, -, -, small⟩
  have kept := intact.kept _ _ member
  have few : (freeBits state.heap.words classIdx slab).card ≤ (Finset.range (chunksPerSlab classIdx)).card :=
    Finset.card_le_card fun chunkIdx isFree => Finset.mem_range.mpr (kept.inChunks _ isFree)
  have atLeast : chunksPerSlab classIdx * 1 ≤ chunksPerSlab classIdx * classSize classIdx :=
    Nat.mul_le_mul_left _ (classSize_pos classIdx)
  rw [Finset.card_range] at few
  rw [kept.counted]
  omega

/-- A slab that counts a free chunk gives one, which was not live. -/
theorem SlabsIntact.takes (intact : SlabsIntact state) (member : slab ∈ state.slabs classIdx)
    (hasFree : state.heap.load (slab + HDR_FREE_COUNT) ≠ 0) {size : Nat}
    (sized : slabClassIdx size = classIdx) :
    ∃ chunkIdx later, chunkIdx < chunksPerSlab classIdx ∧
      state.heap.tryAllocFromSlab classIdx slab = some (⟨slab, chunkIdx,
        SlabChunk.addr ⟨slab, classIdx, chunkIdx, size⟩⟩, later) ∧
      later.slabsHead = state.heap.slabsHead ∧
      SlabsIntact ⟨later, ⟨slab, classIdx, chunkIdx, size⟩ :: state.live, state.slabs⟩ := by
  have inRange := intact.inRange _ _ member
  have kept := intact.kept _ _ member
  have isPositive : 0 < state.heap.words (slab + HDR_FREE_COUNT) := Nat.pos_of_ne_zero hasFree
  have wordsFit : ∀ widx < numWords classIdx,
      bitmapWord slab widx = slab + HDR_BITMAP_START + 8 * widx := by
    intro widx inWords
    have room := (geometry classIdx inRange).2.2
    have fits := kept.fits
    apply bitmapWord_eq
    dsimp only [HDR_BITMAP_START] at room ⊢
    omega
  -- The scan finds a word, since some bit of the bitmap is set.
  have found : ∃ widx < numWords classIdx, state.heap.scan classIdx slab = some widx ∧
      bitmapOf state.heap.words slab widx ≠ 0 := by
    have nonempty : (freeBits state.heap.words classIdx slab).Nonempty := by
      rw [← Finset.card_ne_zero, ← kept.counted]
      exact hasFree
    rcases nonempty with ⟨index, isFree⟩
    rcases exists_word isFree with ⟨inWords, nonzero⟩
    cases scanned : state.heap.scan classIdx slab with
    | none =>
        have allZero := List.find?_eq_none.mp scanned _ (List.mem_range.mpr inWords)
        rw [wordsFit _ inWords, decide_eq_true_iff, not_not] at allZero
        exact absurd allZero nonzero
    | some widx =>
        have inRow := List.mem_range.mp (List.mem_of_find?_eq_some scanned)
        have isNonzero := List.find?_some scanned
        rw [wordsFit _ inRow, decide_eq_true_iff] at isNonzero
        exact ⟨widx, inRow, rfl, isNonzero⟩
  rcases found with ⟨widx, inWords, scanned, nonzero⟩
  rcases ctz_spec (kept.isWord widx inWords) nonzero with ⟨inWord, isSet⟩
  let bitIdx := ctz (bitmapOf state.heap.words slab widx)
  change bitIdx < 64 at inWord
  have slotOf : (64 * widx + bitIdx) / 64 = widx := by omega
  have bitOf : (64 * widx + bitIdx) % 64 = bitIdx := by omega
  have isFree : 64 * widx + bitIdx ∈ freeBits state.heap.words classIdx slab := by
    rw [freeBits, mem_marked, slotOf, bitOf]
    exact ⟨by omega, isSet⟩
  have inSlab := kept.inChunks _ isFree
  have takes := @takeChunk_eq state.heap classIdx slab widx inRange inWords kept.fits bitIdx _ size
    rfl rfl inSlab isPositive (Nat.lt_of_lt_pred (intact.count_lt member))
  have tries := SlabHeap.tryAllocFromSlab.eq_1 state.heap classIdx slab
  rw [if_pos hasFree, scanned, Option.map_some, takes] at tries
  refine ⟨_, _, inSlab, tries, rfl, ?_⟩
  have cleared := @marked_clear 64 (64 * numWords classIdx) (64 * widx + bitIdx)
    (bitmapOf state.heap.words slab widx &&& bnot (ishl 1 bitIdx)) (bitmapOf state.heap.words slab)
    (by decide) (by
      rw [slotOf, bitOf]
      exact testBit_clear inWord)
  rw [slotOf] at cleared
  have isWord : bitmapOf state.heap.words slab widx &&& bnot (ishl 1 bitIdx) < 2 ^ 64 :=
    Nat.lt_of_le_of_lt Nat.and_le_left (kept.isWord widx inWords)
  have isCount : state.heap.words (slab + HDR_FREE_COUNT) - 1 =
      ((freeBits state.heap.words classIdx slab).erase (64 * widx + bitIdx)).card := by
    rw [Finset.card_erase_of_mem isFree, kept.counted]
  refine intact.recount member inWords isWord cleared isCount
    (fun _ stillFree => kept.inChunks _ (Finset.mem_of_mem_erase stillFree)) ?_ ?_
  · intro chunk isLive
    rcases List.mem_cons.mp isLive with rfl | earlier
    · exact ⟨member, inSlab, sized, fun _ => Finset.notMem_erase _ _, fun other => absurd rfl other⟩
    · have chunkKept := intact.live _ earlier
      refine ⟨chunkKept.isSlab, chunkKept.inSlab, chunkKept.sized, fun same stillFree => ?_,
        fun _ => chunkKept⟩
      have sameClass := intact.class_unique member (same ▸ chunkKept.isSlab)
      have notFree := chunkKept.notFree
      rw [same, ← sameClass] at notFree
      exact notFree (Finset.mem_of_mem_erase stillFree)
  · -- The chunk's bit was set, those of the live chunks are clear.
    have isNew : ∀ other ∈ state.live, slab = other.slab → 64 * widx + bitIdx ≠ other.chunkIdx := by
      intro other isLive sameSlab sameIdx
      have chunkKept := intact.live _ isLive
      have sameClass := intact.class_unique member (sameSlab ▸ chunkKept.isSlab)
      have notFree := chunkKept.notFree
      rw [← sameSlab, ← sameClass, ← sameIdx] at notFree
      exact notFree isFree
    constructor
    · refine List.nodup_cons.mpr ⟨fun isLive => ?_, intact.once.1⟩
      exact isNew _ isLive rfl rfl
    · intro chunk isLive other otherLive sameSlab sameIdx
      rcases List.mem_cons.mp isLive with rfl | earlier
      · rcases List.mem_cons.mp otherLive with rfl | otherEarlier
        · rfl
        · exact absurd sameIdx (isNew _ otherEarlier sameSlab)
      · rcases List.mem_cons.mp otherLive with rfl | otherEarlier
        · exact absurd sameIdx.symm (isNew _ earlier sameSlab.symm)
        · exact intact.once.2 _ earlier _ otherEarlier sameSlab sameIdx

/-! ## Giving a chunk back -/

/-- `rt_free_slab` finds the slab, the class and the number of a live chunk. -/
theorem SlabsIntact.freeSlab_eq (intact : SlabsIntact state) {chunk : SlabChunk}
    (kept : ChunkKept state chunk) :
    state.heap.freeSlab chunk.addr = (chunk.returned, { state.heap with
      words := recounted state.heap.words chunk.slab (chunk.chunkIdx / 64)
        (bitmapOf state.heap.words chunk.slab (chunk.chunkIdx / 64) |||
          ishl 1 (chunk.chunkIdx % 64))
        (state.heap.words (chunk.slab + HDR_FREE_COUNT) + 1) }) := by
  have inRange := intact.inRange _ _ kept.isSlab
  have slabKept := intact.kept _ _ kept.isSlab
  have inWords := chunk_word inRange kept.inSlab
  have fits := slabKept.fits
  rcases geometry chunk.classIdx inRange with ⟨-, -, bitmapRoom, chunkRoom, near, -, small⟩
  have offsetBound : chunk.chunkIdx * classSize chunk.classIdx ≤
      (chunksPerSlab chunk.classIdx - 1) * classSize chunk.classIdx :=
    Nat.mul_le_mul_right _ (Nat.le_sub_one_of_lt kept.inSlab)
  have isAddr : chunk.addr = chunk.slab + payloadOffset chunk.classIdx +
    chunk.chunkIdx * classSize chunk.classIdx := rfl
  have isSlab : alignDown chunk.addr DEFAULT_SLAB_SIZE = chunk.slab := by
    rcases slabKept.aligned with ⟨row, isRow⟩
    dsimp only [DEFAULT_SLAB_SIZE] at isRow near ⊢
    unfold alignDown
    omega
  have payloadStart : iadd chunk.slab (payloadOffset chunk.classIdx) =
      chunk.slab + payloadOffset chunk.classIdx := iadd_eq (by
    dsimp only [DEFAULT_SLAB_SIZE] at near
    omega)
  have byteOff : isub chunk.addr (chunk.slab + payloadOffset chunk.classIdx) =
      chunk.chunkIdx * classSize chunk.classIdx := by
    dsimp only [DEFAULT_SLAB_SIZE] at near
    rw [isub_eq (by omega) (by omega)]
    omega
  have isIdx : (chunk.chunkIdx * classSize chunk.classIdx) >>> (chunk.classIdx + 4) =
      chunk.chunkIdx := by
    rw [Nat.shiftRight_eq_div_pow, ← classSize_eq]
    exact Nat.mul_div_cancel _ (classSize_pos _)
  have wordIdx : chunk.chunkIdx >>> 6 = chunk.chunkIdx / 64 := Nat.shiftRight_eq_div_pow _ 6
  have wordAddr : bitmapWord chunk.slab (chunk.chunkIdx / 64) =
      chunk.slab + HDR_BITMAP_START + 8 * (chunk.chunkIdx / 64) := by
    apply bitmapWord_eq
    dsimp only [HDR_BITMAP_START] at bitmapRoom ⊢
    omega
  have word : state.heap.words (chunk.slab + HDR_BITMAP_START + 8 * (chunk.chunkIdx / 64)) =
      bitmapOf state.heap.words chunk.slab (chunk.chunkIdx / 64) := rfl
  have countKept : ∀ value, Function.update state.heap.words
      (chunk.slab + HDR_BITMAP_START + 8 * (chunk.chunkIdx / 64)) value
      (chunk.slab + HDR_FREE_COUNT) = state.heap.words (chunk.slab + HDR_FREE_COUNT) := by
    intro value
    apply Function.update_of_ne
    dsimp only [HDR_BITMAP_START, HDR_FREE_COUNT]
    omega
  have counted : iadd (state.heap.words (chunk.slab + HDR_FREE_COUNT)) 1 =
      state.heap.words (chunk.slab + HDR_FREE_COUNT) + 1 := by
    have bounded := intact.count_lt kept.isSlab
    exact iadd_eq (by omega)
  have classId : state.heap.load (chunk.slab + HDR_CLASS_ID) = chunk.classIdx := slabKept.classId
  rw [SlabHeap.freeSlab]
  simp only [isSlab, classId, payloadStart, byteOff, isIdx, wordIdx, wordAddr]
  simp only [SlabHeap.load, SlabHeap.store, word, countKept, counted, SlabChunk.returned, recounted]

theorem SlabsIntact.gives (intact : SlabsIntact state) {chunk : SlabChunk}
    (member : chunk ∈ state.live) :
    SlabsIntact { state with
      heap := (state.heap.freeSlab chunk.addr).2
      live := state.live.erase chunk } := by
  have kept := intact.live _ member
  have inRange := intact.inRange _ _ kept.isSlab
  have slabKept := intact.kept _ _ kept.isSlab
  have inWords := chunk_word inRange kept.inSlab
  have inWord := Nat.mod_lt chunk.chunkIdx (by decide : 0 < 64)
  have inBound : chunk.chunkIdx < 64 * numWords chunk.classIdx := by omega
  rw [intact.freeSlab_eq kept]
  have isWord : bitmapOf state.heap.words chunk.slab (chunk.chunkIdx / 64) |||
      ishl 1 (chunk.chunkIdx % 64) < 2 ^ 64 := by
    apply Nat.or_lt_two_pow (slabKept.isWord _ inWords)
    rw [one_shl inWord]
    exact Nat.pow_lt_pow_right (by decide) inWord
  have isCount : state.heap.words (chunk.slab + HDR_FREE_COUNT) + 1 =
      (insert chunk.chunkIdx (freeBits state.heap.words chunk.classIdx chunk.slab)).card := by
    rw [Finset.card_insert_of_notMem kept.notFree, slabKept.counted]
  refine intact.recount kept.isSlab inWords isWord
    (marked_set (by decide) inBound (testBit_mark inWord)) isCount ?_ ?_ ?_
  · intro chunkIdx isFree
    rcases Finset.mem_insert.mp isFree with rfl | earlier
    · exact kept.inSlab
    · exact slabKept.inChunks _ earlier
  · intro other isLive
    have stillLive := List.mem_of_mem_erase isLive
    have otherKept := intact.live _ stillLive
    refine ⟨otherKept.isSlab, otherKept.inSlab, otherKept.sized, fun same isFree => ?_,
      fun _ => otherKept⟩
    have sameClass := intact.class_unique kept.isSlab (same ▸ otherKept.isSlab)
    rcases Finset.mem_insert.mp isFree with sameIdx | earlier
    · have sameChunk := intact.once.2 _ stillLive _ member same sameIdx
      exact intact.once.1.not_mem_erase (sameChunk ▸ isLive)
    · have notFree := otherKept.notFree
      rw [same, ← sameClass] at notFree
      exact notFree earlier
  · refine ⟨intact.once.1.erase _, fun one isLive other otherLive => ?_⟩
    exact intact.once.2 _ (List.mem_of_mem_erase isLive) _ (List.mem_of_mem_erase otherLive)

end LakeNative.Allocators

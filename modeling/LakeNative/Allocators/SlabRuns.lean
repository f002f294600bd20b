import LakeNative.Library.Bitmap
import LakeNative.Library.LinkedList
import LakeNative.Library.Transitions
import LakeNative.Runtime.SlabAllocator

/-! # Runs of the slab allocator

Callers allocate sizes that have a class, free their chunks and write to them. A run also
remembers the slabs and which chunks of them were handed out.
-/

namespace LakeNative.Allocators

open LakeNative.Runtime LakeNative.Runtime.SlabLayout LakeNative.Regions LakeNative.LinkedList
open LakeNative.Transitions LakeNative.Bitmap

/-- A chunk of a slab that was handed out for a requested size. -/
structure SlabChunk where
  slab : Nat
  classIdx : Nat
  chunkIdx : Nat
  size : Nat
  deriving DecidableEq

namespace SlabChunk

def addr (chunk : SlabChunk) : Nat :=
  chunk.slab + payloadOffset chunk.classIdx + chunk.chunkIdx * classSize chunk.classIdx

def region (chunk : SlabChunk) : Region := ⟨chunk.addr, chunk.addr + classSize chunk.classIdx⟩

/-- What is to be found when the chunk is freed. -/
def returned (chunk : SlabChunk) : Returned := .chunk chunk.slab chunk.classIdx chunk.chunkIdx

end SlabChunk

/-- The slabs of each class are those in its list, latest first. -/
structure SlabState where
  heap : SlabHeap
  live : List SlabChunk
  slabs : Nat → List Nat

namespace SlabState

def start (words : Words) : SlabState where
  heap := ⟨words, fun _ => false, fun _ => 0, fun _ => 0⟩
  live := []
  slabs _ := []

/-- A new chunk, in a new slab if the head of the class's list has moved. -/
def record (state : SlabState) (chunk : SlabChunk) (heap : SlabHeap) : SlabState where
  heap := heap
  live := chunk :: state.live
  slabs :=
    if heap.slabsHead chunk.classIdx = state.heap.slabsHead chunk.classIdx then state.slabs
    else Function.update state.slabs chunk.classIdx (chunk.slab :: state.slabs chunk.classIdx)

end SlabState

/-- What the kernel promises of a new mapping: its pages are in the lower half of the address
space and nothing was mapped there. -/
structure Fresh (heap : SlabHeap) (mapping : Region) : Prop where
  positive : 0 < mapping.first
  aligned : 4096 ∣ mapping.first
  fits : mapping.stop ≤ 2 ^ 47
  unmapped : ∀ addr ∈ mapping, heap.mapped addr = false

inductive SlabEvent where
  | allocate (chunk : SlabChunk) (addr : Nat)
  | free (chunk : SlabChunk) (returned : Returned)
  | write

/-- Calls of `rt_allocate_raw` for sizes that have a class, calls of `rt_free_slab` for live
chunks and of `rt_free` for those whose fat pointer is as it was returned, and writes to live
chunks. -/
inductive SlabStep : SlabState → SlabEvent → SlabState → Prop
  | allocate {state heap} (size fuel raw : Nat) (taken : Taken) :
      size < 2 ^ 64 →
      slabClassIdx size ≤ NUM_CLASSES - 1 →
      Fresh state.heap ⟨raw, raw + 2 * slabSizeForClass (slabClassIdx size)⟩ →
      state.heap.allocateRaw fuel size raw = some (.chunk taken, heap) →
      SlabStep state (.allocate ⟨taken.slab, slabClassIdx size, taken.chunkIdx, size⟩ taken.chunkAddr)
        (state.record ⟨taken.slab, slabClassIdx size, taken.chunkIdx, size⟩ heap)
  | freeSlab {state heap} (chunk : SlabChunk) (returned : Returned) :
      chunk ∈ state.live →
      state.heap.freeSlab chunk.addr = (returned, heap) →
      SlabStep state (.free chunk returned)
        { state with heap := heap, live := state.live.erase chunk }
  | free {state heap} (chunk : SlabChunk) (returned : Returned) :
      chunk ∈ state.live →
      state.heap.load chunk.addr = iadd chunk.addr 16 →
      state.heap.load (chunk.addr + 8) = iadd (iadd chunk.addr 16) chunk.size →
      state.heap.free chunk.addr = (returned, heap) →
      SlabStep state (.free chunk returned)
        { state with heap := heap, live := state.live.erase chunk }
  | write {state} (words : Words) :
      (∀ addr, (∀ chunk ∈ state.live, addr ∉ chunk.region) →
        words addr = state.heap.words addr) →
      SlabStep state .write { state with heap := { state.heap with words := words } }

/-! ## The geometry of slabs -/

/-- The bitmap lies before the chunks, the chunks lie in the slab, and each of them starts in
its first 64 KiB. -/
theorem geometry : ∀ classIdx ≤ NUM_CLASSES - 1,
    0 < chunksPerSlab classIdx ∧ chunksPerSlab classIdx ≤ 64 * numWords classIdx ∧
      HDR_BITMAP_START + 8 * numWords classIdx ≤ payloadOffset classIdx ∧
      payloadOffset classIdx + chunksPerSlab classIdx * classSize classIdx ≤
        slabSizeForClass classIdx ∧
      payloadOffset classIdx + (chunksPerSlab classIdx - 1) * classSize classIdx <
        DEFAULT_SLAB_SIZE ∧
      DEFAULT_SLAB_SIZE ∣ slabSizeForClass classIdx ∧
      slabSizeForClass classIdx ≤ 2 ^ 25 := by
  decide

/-! ## The invariant -/

/-- The header and the bitmap. -/
def slabMeta (classIdx slab : Nat) : Region := ⟨slab, slab + payloadOffset classIdx⟩

def slabRegion (classIdx slab : Nat) : Region := ⟨slab, slab + slabSizeForClass classIdx⟩

def nextSlab (words : Words) (slab : Nat) : Nat := words (slab + HDR_NEXT_SLAB)

def prevSlab (words : Words) (slab : Nat) : Nat := words (slab + HDR_PREV_SLAB)

def bitmapOf (words : Words) (slab : Nat) : Words := fun widx =>
  words (slab + HDR_BITMAP_START + 8 * widx)

/-- The numbers of the bits that are set in a slab's bitmap. -/
def freeBits (words : Words) (classIdx slab : Nat) : Finset Nat :=
  marked 64 (64 * numWords classIdx) (bitmapOf words slab)

/-- What holds of a slab. -/
structure SlabKept (heap : SlabHeap) (classIdx slab : Nat) : Prop where
  aligned : DEFAULT_SLAB_SIZE ∣ slab
  positive : 0 < slab
  fits : slab + slabSizeForClass classIdx ≤ 2 ^ 47
  mapped : ∀ addr ∈ slabRegion classIdx slab, heap.mapped addr = true
  classId : heap.words (slab + HDR_CLASS_ID) = classIdx
  isWord : ∀ widx < numWords classIdx, bitmapOf heap.words slab widx < 2 ^ 64
  counted : heap.words (slab + HDR_FREE_COUNT) = (freeBits heap.words classIdx slab).card
  inChunks : ∀ chunkIdx ∈ freeBits heap.words classIdx slab, chunkIdx < chunksPerSlab classIdx

/-- A live chunk is one of its slab that is not free. -/
structure ChunkKept (state : SlabState) (chunk : SlabChunk) : Prop where
  isSlab : chunk.slab ∈ state.slabs chunk.classIdx
  inSlab : chunk.chunkIdx < chunksPerSlab chunk.classIdx
  notFree : chunk.chunkIdx ∉ freeBits state.heap.words chunk.classIdx chunk.slab
  sized : slabClassIdx chunk.size = chunk.classIdx

structure SlabsIntact (state : SlabState) : Prop where
  inRange : ∀ classIdx, ∀ slab ∈ state.slabs classIdx, classIdx ≤ NUM_CLASSES - 1
  lists : ∀ classIdx, Chain (nextSlab state.heap.words) 0 (state.heap.slabsHead classIdx)
    (state.slabs classIdx)
  backs : ∀ classIdx, Back (prevSlab state.heap.words) 0 (state.slabs classIdx)
  current : ∀ classIdx, state.heap.currentSlab classIdx = 0 ∨
    state.heap.currentSlab classIdx ∈ state.slabs classIdx
  kept : ∀ classIdx, ∀ slab ∈ state.slabs classIdx, SlabKept state.heap classIdx slab
  apart : ∀ classIdx, ∀ slab ∈ state.slabs classIdx, ∀ otherIdx, ∀ other ∈ state.slabs otherIdx,
    slab ≠ other → (slabRegion classIdx slab).Apart (slabRegion otherIdx other)
  live : ∀ chunk ∈ state.live, ChunkKept state chunk
  once : state.live.Nodup ∧ ∀ chunk ∈ state.live, ∀ other ∈ state.live, chunk.slab = other.slab →
    chunk.chunkIdx = other.chunkIdx → chunk = other

end LakeNative.Allocators

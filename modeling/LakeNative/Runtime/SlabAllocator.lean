import LakeNative.Runtime.BucketAllocator

/-! # The slab allocator

`rt_allocate_slab` and `rt_free_slab`, and what `rt_allocate_raw` and `rt_free` are with
`LAKE_SLAB_ALLOC`. A slab is a header, a bitmap of its free chunks and the chunks, which
all have the size of the slab's class. A class has one list of slabs, full and partial ones.
-/

namespace LakeNative.Runtime

namespace SlabLayout

def DEFAULT_SLAB_SIZE : Nat := 64 * 1024

def CHUNK_ALIGN : Nat := 16

def HDR_CLASS_ID : Nat := 0

def HDR_FREE_COUNT : Nat := 8

def HDR_NEXT_SLAB : Nat := 16

def HDR_PREV_SLAB : Nat := 24

def HDR_BITMAP_START : Nat := 32

def HDR_FIXED_BYTES : Nat := 32

def NUM_CLASSES : Nat := 21

def slabSizeForClass (classIdx : Nat) : Nat :=
  if classSize classIdx * 2 > DEFAULT_SLAB_SIZE then classSize classIdx * 2 else DEFAULT_SLAB_SIZE

/-- The rounds of `chunks_per_slab`: the bitmap takes room from the chunks that it is for. -/
def chunksRounds (slabSize chunkSize : Nat) : Nat → Nat → Nat
  | 0, chunks => chunks
  | rounds + 1, chunks =>
      let bitmapBytes := (chunks + 7) / 8
      let payloadStart := alignDown (HDR_FIXED_BYTES + bitmapBytes + CHUNK_ALIGN - 1) CHUNK_ALIGN
      if payloadStart ≥ slabSize then
        0
      else
        let actual := (slabSize - payloadStart) / chunkSize
        if actual = chunks then chunks else chunksRounds slabSize chunkSize rounds actual

def chunksPerSlab (classIdx : Nat) : Nat :=
  let chunkSize := classSize classIdx
  let slabSize := slabSizeForClass classIdx
  if slabSize ≤ HDR_FIXED_BYTES + chunkSize then
    0
  else
    chunksRounds slabSize chunkSize 8 ((slabSize - HDR_FIXED_BYTES) / chunkSize)

def payloadOffset (classIdx : Nat) : Nat :=
  let chunks := chunksPerSlab classIdx
  if chunks = 0 then
    0
  else
    let raw := HDR_FIXED_BYTES + (chunks + 7) / 8
    (raw + (CHUNK_ALIGN - 1)) / CHUNK_ALIGN * CHUNK_ALIGN

/-- The words of the bitmap. -/
def numWords (classIdx : Nat) : Nat := (chunksPerSlab classIdx + 63) / 64

end SlabLayout

open SlabLayout

/-- The words of memory, which of it is mapped, and the table `slab_class_state`. -/
structure SlabHeap where
  words : Words
  mapped : Nat → Bool
  slabsHead : Nat → Nat
  currentSlab : Nat → Nat

/-- A chunk taken from a slab. -/
structure Taken where
  slab : Nat
  chunkIdx : Nat
  chunkAddr : Nat
  deriving DecidableEq

/-- What `rt_allocate_raw` returned: a chunk or a mapping of its own. -/
inductive Allocated where
  | chunk (taken : Taken)
  | mapped (addr : Nat)
  deriving DecidableEq

/-- What `rt_free` gave back: a chunk, as it found it, or a mapping. -/
inductive Returned where
  | chunk (slab classId chunkIdx : Nat)
  | unmapped (addr length : Nat)
  deriving DecidableEq

/-- The class of a payload with the fat pointer before it. -/
def slabClassIdx (userSize : Nat) : Nat := sizeClass (iadd userSize 16)

/-- The address of a word of a slab's bitmap. -/
def bitmapWord (slab wordIdx : Nat) : Nat := iadd (iadd slab HDR_BITMAP_START) (imul wordIdx 8)

/-- A word of a new bitmap: the bits past the last chunk stay zero. -/
def fillWord (classIdx widx : Nat) : Nat :=
  let remaining := isub (chunksPerSlab classIdx) (imul widx 64)
  if remaining ≥ 64 then 2 ^ 64 - 1 else ishl 1 remaining - 1

namespace SlabHeap

def load (heap : SlabHeap) (addr : Nat) : Nat := heap.words addr

def store (heap : SlabHeap) (addr value : Nat) : SlabHeap :=
  { heap with words := Function.update heap.words addr value }

def setHead (heap : SlabHeap) (classIdx slab : Nat) : SlabHeap :=
  { heap with slabsHead := Function.update heap.slabsHead classIdx slab }

def setCurrent (heap : SlabHeap) (classIdx slab : Nat) : SlabHeap :=
  { heap with currentSlab := Function.update heap.currentSlab classIdx slab }

def mmap (heap : SlabHeap) (addr length : Nat) : SlabHeap :=
  { heap with mapped := fun other =>
      if addr ≤ other ∧ other < addr + length then true else heap.mapped other }

def munmap (heap : SlabHeap) (addr length : Nat) : SlabHeap :=
  { heap with mapped := fun other =>
      if addr ≤ other ∧ other < addr + length then false else heap.mapped other }

/-! ## Allocating -/

/-- The first word of the bitmap that is not zero. -/
def scan (heap : SlabHeap) (classIdx slab : Nat) : Option Nat :=
  (List.range (numWords classIdx)).find? fun widx => heap.load (bitmapWord slab widx) ≠ 0

/-- Clears the word's first bit. -/
def takeChunk (heap : SlabHeap) (classIdx slab widx : Nat) : Taken × SlabHeap :=
  let freeCount := heap.load (slab + HDR_FREE_COUNT)
  let waddr := bitmapWord slab widx
  let wval := heap.load waddr
  let bitIdx := ctz wval
  let cleared := heap.store waddr (wval &&& bnot (ishl 1 bitIdx))
  let counted := cleared.store (slab + HDR_FREE_COUNT) (isub freeCount 1)
  let chunkIdx := iadd (ishl (isub waddr (iadd slab HDR_BITMAP_START)) 3) bitIdx
  let chunkAddr := iadd (iadd slab (payloadOffset classIdx)) (imul chunkIdx (classSize classIdx))
  (⟨slab, chunkIdx, chunkAddr⟩, counted)

/-- `emit_try_alloc_from_slab` -/
def tryAllocFromSlab (heap : SlabHeap) (classIdx slab : Nat) : Option (Taken × SlabHeap) :=
  if heap.load (slab + HDR_FREE_COUNT) ≠ 0 then
    (heap.scan classIdx slab).map (heap.takeChunk classIdx slab)
  else
    none

def fillBitmap (heap : SlabHeap) (classIdx slab : Nat) : SlabHeap :=
  (List.range (numWords classIdx)).foldl
    (fun heap widx => heap.store (bitmapWord slab widx) (fillWord classIdx widx)) heap

/-- Twice the size of a slab is mapped, and what lies before and behind the aligned slab is
unmapped. -/
def mapSlab (heap : SlabHeap) (slabSize raw : Nat) : Nat × SlabHeap :=
  let whole := heap.mmap raw (ishl slabSize 1)
  let aligned := alignDown (iadd raw (slabSize - 1)) slabSize
  let prefixLen := isub aligned raw
  let afterPrefix := if prefixLen ≠ 0 then whole.munmap raw prefixLen else whole
  let suffixLen := isub slabSize prefixLen
  let afterSuffix :=
    if suffixLen ≠ 0 then afterPrefix.munmap (iadd aligned slabSize) suffixLen else afterPrefix
  (aligned, afterSuffix)

/-- `emit_create_new_slab`, with what `rt_mmap` returns. -/
def createNewSlab (heap : SlabHeap) (classIdx raw : Nat) : Nat × SlabHeap :=
  let (aligned, mapped) := heap.mapSlab (slabSizeForClass classIdx) raw
  let classed := mapped.store (aligned + HDR_CLASS_ID) classIdx
  let counted := classed.store (aligned + HDR_FREE_COUNT) (chunksPerSlab classIdx)
  let unlinked := (counted.store (aligned + HDR_NEXT_SLAB) 0).store (aligned + HDR_PREV_SLAB) 0
  (aligned, unlinked.fillBitmap classIdx aligned)

/-- The new slab is the class's first one and its current one. -/
def linkSlab (heap : SlabHeap) (classIdx newSlab : Nat) : SlabHeap :=
  let oldHead := heap.slabsHead classIdx
  let linked := heap.store (newSlab + HDR_NEXT_SLAB) oldHead
  let both := if oldHead ≠ 0 then linked.store (oldHead + HDR_PREV_SLAB) newSlab else linked
  (both.setHead classIdx newSlab).setCurrent classIdx newSlab

/-- `need_new_block` -/
def allocFromNewSlab (heap : SlabHeap) (classIdx raw : Nat) : Option (Taken × SlabHeap) :=
  let (newSlab, created) := heap.createNewSlab classIdx raw
  (created.linkSlab classIdx newSlab).tryAllocFromSlab classIdx newSlab

/-- The first slab from here on with a free chunk, or 0 at the end of the list. -/
def walk (heap : SlabHeap) : Nat → Nat → Option Nat
  | 0, _ => none
  | fuel + 1, slab =>
      if slab = 0 then some 0
      else if heap.load (slab + HDR_FREE_COUNT) ≠ 0 then some slab
      else heap.walk fuel (heap.load (slab + HDR_NEXT_SLAB))

/-- What follows when the current slab has no free chunk. -/
def allocFromList (heap : SlabHeap) (fuel classIdx raw : Nat) : Option (Taken × SlabHeap) :=
  match heap.walk fuel (heap.slabsHead classIdx) with
  | none => none
  | some 0 => heap.allocFromNewSlab classIdx raw
  | some slab =>
      let current := heap.setCurrent classIdx slab
      (current.tryAllocFromSlab classIdx slab).or (current.allocFromNewSlab classIdx raw)

/-- `rt_allocate_slab`; there is no result for a class without chunks. -/
def allocateSlab (heap : SlabHeap) (fuel classIdx raw : Nat) : Option (Taken × SlabHeap) :=
  if chunksPerSlab classIdx ≠ 0 then
    let current := heap.currentSlab classIdx
    if current ≠ 0 then
      (heap.tryAllocFromSlab classIdx current).or (heap.allocFromList fuel classIdx raw)
    else
      heap.allocFromList fuel classIdx raw
  else
    none

/-- `write_hdr_block`: the fat pointer is in the chunk. -/
def writeHdr (heap : SlabHeap) (chunk userSize : Nat) : SlabHeap :=
  let payloadStart := iadd chunk 16
  let payloadEnd := iadd payloadStart userSize
  (heap.store chunk payloadStart).store (chunk + 8) payloadEnd

/-- `rt_allocate_raw`, with what `rt_mmap` returns. -/
def allocateRaw (heap : SlabHeap) (fuel userSize raw : Nat) : Option (Allocated × SlabHeap) :=
  if slabClassIdx userSize ≤ NUM_CLASSES - 1 then
    (heap.allocateSlab fuel (slabClassIdx userSize) raw).map fun (taken, allocated) =>
      (.chunk taken, allocated.writeHdr taken.chunkAddr userSize)
  else
    let mapped := heap.mmap raw (mmapSize userSize)
    some (.mapped raw,
      (mapped.store raw (iadd raw 32)).store (raw + 8) (iadd raw (mmapSize userSize)))

/-! ## Freeing -/

/-- `rt_free_slab`. No slab is given back to the kernel: `is_empty` is the constant 0. -/
def freeSlab (heap : SlabHeap) (chunkAddr : Nat) : Returned × SlabHeap :=
  let slab := alignDown chunkAddr DEFAULT_SLAB_SIZE
  let classId := heap.load (slab + HDR_CLASS_ID)
  let payloadStart := iadd slab (payloadOffset classId)
  let chunkIdx := isub chunkAddr payloadStart >>> (classId + 4)
  let wordIdx := chunkIdx >>> 6
  let bitIdx := chunkIdx % 64
  let wordAddr := bitmapWord slab wordIdx
  let marked := heap.store wordAddr (heap.load wordAddr ||| ishl 1 bitIdx)
  let freeCount := marked.load (slab + HDR_FREE_COUNT)
  (.chunk slab classId chunkIdx, marked.store (slab + HDR_FREE_COUNT) (iadd freeCount 1))

/-- `rt_free` -/
def free (heap : SlabHeap) (fatPtr : Nat) : Returned × SlabHeap :=
  let payloadStart := heap.load fatPtr
  let payloadEnd := heap.load (fatPtr + 8)
  if slabClassIdx (isub payloadEnd payloadStart) ≤ NUM_CLASSES - 1 then
    heap.freeSlab fatPtr
  else
    let length := isub payloadEnd fatPtr
    (.unmapped fatPtr length, heap.munmap fatPtr length)

end SlabHeap

end LakeNative.Runtime

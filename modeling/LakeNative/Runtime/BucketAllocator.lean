import LakeNative.Runtime.Memory

/-! # The bucket allocator

`rt_allocate_raw` and `rt_free` as they are without `LAKE_SLAB_ALLOC`. A fat pointer is the
address of two words, the start and the end of its payload. Freed chunks are linked through
the first word of their payload.
-/

namespace LakeNative.Runtime

/-- The words of memory and the globals `heap_curr`, `heap_end` and `free_list_heads`. -/
structure Heap where
  words : Words
  heapCurr : Nat
  heapEnd : Nat
  freeListHeads : Nat → Nat

/-- `mmap_size`, which the request for more than 16 MiB is rounded up to. -/
def mmapSize (userSize : Nat) : Nat := alignDown (iadd (iadd userSize 32) 4095) 4096

namespace Heap

def load (heap : Heap) (addr : Nat) : Nat := heap.words addr

def store (heap : Heap) (addr value : Nat) : Heap :=
  { heap with words := Function.update heap.words addr value }

def setHead (heap : Heap) (bucket fatPtr : Nat) : Heap :=
  { heap with freeListHeads := Function.update heap.freeListHeads bucket fatPtr }

/-- `madvise(MADV_DONTNEED)`: the range reads as zero. -/
def advise (heap : Heap) (addr length : Nat) : Heap :=
  { heap with words := fun word =>
      if addr ≤ word ∧ word < addr + length then 0 else heap.words word }

/-! ## Allocating -/

/-- `pop_block` of `rt_allocate_raw`, with the head of the bucket's free list. -/
def popBlock (heap : Heap) (bucket userSize head : Nat) : Nat × Heap :=
  let payloadAddr := heap.load head
  let next := heap.load payloadAddr
  let visibleEnd := iadd payloadAddr userSize
  (head, ((heap.setHead bucket next).store (head + 8) visibleEnd).store payloadAddr 0)

/-- `bump_block`; without room there is no result. -/
def bumpBlock (heap : Heap) (bucket userSize : Nat) : Option (Nat × Heap) :=
  let rawUserPtr := iadd heap.heapCurr 16
  let alignedUserPtr := alignDown (iadd rawUserPtr 15) 16
  let endAddr := iadd alignedUserPtr (classSize bucket)
  if endAddr ≤ heap.heapEnd then
    let visibleEnd := iadd alignedUserPtr userSize
    let written := (heap.store heap.heapCurr alignedUserPtr).store (heap.heapCurr + 8) visibleEnd
    some (heap.heapCurr, { written with heapCurr := endAddr })
  else
    none

/-- `huge_block`, with what `rt_mmap` returns. -/
def hugeBlock (heap : Heap) (userSize mmapAddr : Nat) : Nat × Heap :=
  let payloadStart := iadd mmapAddr 32
  let payloadEnd := iadd mmapAddr (mmapSize userSize)
  (mmapAddr, (heap.store mmapAddr payloadStart).store (mmapAddr + 8) payloadEnd)

def allocateRaw (heap : Heap) (userSize mmapAddr : Nat) : Option (Nat × Heap) :=
  let bucket := sizeClass userSize
  if bucket ≤ MAX_CLASS then
    let head := heap.freeListHeads bucket
    if head ≠ 0 then some (heap.popBlock bucket userSize head) else heap.bumpBlock bucket userSize
  else
    some (heap.hugeBlock userSize mmapAddr)

/-! ## Freeing -/

/-- `advise_addr`: the first page behind the link of a free chunk. -/
def adviseAddr (payloadStart : Nat) : Nat :=
  alignDown (iadd (iadd payloadStart 8) 4095) 4096

/-- `advise_len`: the whole pages from there to the end of the chunk. -/
def adviseLen (bucket payloadStart : Nat) : Nat :=
  alignDown (isub (iadd payloadStart (classSize bucket)) (adviseAddr payloadStart)) 4096

/-- What `rt_free` did with the memory of a fat pointer. -/
inductive Freed where
  | pushed (bucket : Nat)
  | unmapped (addr length : Nat)
  deriving DecidableEq

/-- `push_block` and the `madvise` behind it. -/
def pushBlock (heap : Heap) (bucket fatPtr payloadStart : Nat) : Heap :=
  let linked := (heap.store payloadStart (heap.freeListHeads bucket)).setHead bucket fatPtr
  let bucketSize := classSize bucket
  let adviseAddr := alignDown (iadd (iadd payloadStart 8) 4095) 4096
  let adviseLen := alignDown (isub (iadd payloadStart bucketSize) adviseAddr) 4096
  if 8192 ≤ bucketSize ∧ 4096 ≤ adviseLen then linked.advise adviseAddr adviseLen else linked

def free (heap : Heap) (fatPtr : Nat) : Freed × Heap :=
  let payloadStart := heap.load fatPtr
  let payloadEnd := heap.load (fatPtr + 8)
  let bucket := sizeClass (isub payloadEnd payloadStart)
  if bucket ≤ MAX_CLASS then
    (.pushed bucket, heap.pushBlock bucket fatPtr payloadStart)
  else
    (.unmapped fatPtr (isub payloadEnd fatPtr), heap)

theorem advise_empty (heap : Heap) (addr : Nat) : heap.advise addr 0 = heap := by
  have same : (fun word => if addr ≤ word ∧ word < addr + 0 then 0 else heap.words word) =
      heap.words := by
    funext word
    exact if_neg (by omega)
  rw [advise, same]

/-- The pages that `push_block` gives back lie behind the link and end with the chunk. -/
theorem pushBlock_eq (heap : Heap) {bucket fatPtr payloadStart : Nat}
    (fits : payloadStart + classSize bucket ≤ 2 ^ 47) :
    ∃ addr length, payloadStart + 8 ≤ addr ∧
      (0 < length → addr + length ≤ payloadStart + classSize bucket) ∧
      heap.pushBlock bucket fatPtr payloadStart =
        ((heap.store payloadStart (heap.freeListHeads bucket)).setHead bucket fatPtr).advise
          addr length := by
  have afterChain : iadd payloadStart 8 = payloadStart + 8 := iadd_eq (by omega)
  have roundUp : iadd (payloadStart + 8) 4095 = payloadStart + 8 + 4095 := iadd_eq (by omega)
  have chunkEnd : iadd payloadStart (classSize bucket) = payloadStart + classSize bucket :=
    iadd_eq (by omega)
  have above := lt_alignDown_add (payloadStart + 8 + 4095) (by decide : 0 < 4096)
  have below := alignDown_le (payloadStart + 8 + 4095) 4096
  simp only [pushBlock, afterChain, roundUp, chunkEnd]
  split
  · rename_i advised
    rw [isub_eq (by omega) (by omega)]
    have shorter := alignDown_le (payloadStart + classSize bucket -
      alignDown (payloadStart + 8 + 4095) 4096) 4096
    exact ⟨_, _, by omega, by omega, rfl⟩
  · exact ⟨payloadStart + 8, 0, Nat.le_refl _, nofun, (advise_empty _ _).symm⟩

@[simp] theorem words_store (heap : Heap) (addr value : Nat) :
    (heap.store addr value).words = Function.update heap.words addr value := rfl

@[simp] theorem words_setHead (heap : Heap) (bucket fatPtr : Nat) :
    (heap.setHead bucket fatPtr).words = heap.words := rfl

@[simp] theorem freeListHeads_store (heap : Heap) (addr value : Nat) :
    (heap.store addr value).freeListHeads = heap.freeListHeads := rfl

@[simp] theorem freeListHeads_setHead (heap : Heap) (bucket fatPtr : Nat) :
    (heap.setHead bucket fatPtr).freeListHeads =
      Function.update heap.freeListHeads bucket fatPtr := rfl

end Heap

end LakeNative.Runtime

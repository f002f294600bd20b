import LakeNative.Library.LinkedList
import LakeNative.Library.Transitions
import LakeNative.Runtime.BucketAllocator
import LakeNative.Runtime.HeapArray

/-! # Runs of the bucket allocator

Callers allocate, free what they were given and write to the payloads that they hold. A run
also remembers what the allocator handed out, so that what it does to memory can be compared
with it.
-/

namespace LakeNative.Allocators

open LakeNative.Runtime LakeNative.Regions LakeNative.LinkedList LakeNative.Transitions

/-- What `rt_init_heap` maps: page-aligned memory in the lower half of the address space. -/
structure HeapRegion where
  first : Nat
  positive : 0 < first
  aligned : 4096 ∣ first
  fits : first + HEAP_SIZE ≤ 2 ^ 47

def HeapRegion.region (base : HeapRegion) : Region := ⟨base.first, base.first + HEAP_SIZE⟩

/-- A chunk that was cut off the heap for a bucket. -/
structure Chunk where
  fatPtr : Nat
  bucket : Nat
  deriving DecidableEq

/-- The fat pointer and the payload behind it. -/
def Chunk.space (chunk : Chunk) : Region :=
  ⟨chunk.fatPtr, chunk.fatPtr + 16 + classSize chunk.bucket⟩

/-- A fat pointer that was returned for a requested size and is not freed yet. -/
structure Allocation where
  fatPtr : Nat
  size : Nat
  deriving DecidableEq

namespace Allocation

def isHuge (allocation : Allocation) : Bool := MAX_CLASS < sizeClass allocation.size

def bucket (allocation : Allocation) : Nat := sizeClass allocation.size

/-- The mapping of a huge allocation. -/
def mapping (allocation : Allocation) : Region :=
  ⟨allocation.fatPtr, allocation.fatPtr + mmapSize allocation.size⟩

/-- The memory that the allocation was cut from. -/
def space (allocation : Allocation) : Region :=
  if allocation.isHuge then allocation.mapping
  else Chunk.space ⟨allocation.fatPtr, allocation.bucket⟩

def header (allocation : Allocation) : Region := ⟨allocation.fatPtr, allocation.fatPtr + 16⟩

/-- The bucket region, or the payload of a huge allocation. -/
def region (heap : Heap) (allocation : Allocation) : Region where
  first := heap.load allocation.fatPtr
  stop :=
    if allocation.isHuge then heap.load (allocation.fatPtr + 8)
    else heap.load allocation.fatPtr + classSize allocation.bucket

/-- What is to happen to the allocation when it is freed. -/
def freed (allocation : Allocation) : Heap.Freed :=
  if allocation.isHuge then .unmapped allocation.fatPtr (mmapSize allocation.size)
  else .pushed allocation.bucket

end Allocation

structure BucketState where
  heap : Heap
  live : List Allocation
  chunks : List Chunk

namespace BucketState

/-- The heap after `rt_init_heap`. -/
def start (base : HeapRegion) (words : Words) : BucketState where
  heap := ⟨words, base.first, iadd base.first HEAP_SIZE, fun _ => 0⟩
  live := []
  chunks := []

/-- A new allocation, in a new chunk if `heap_curr` has moved. -/
def record (state : BucketState) (allocation : Allocation) (heap : Heap) : BucketState where
  heap := heap
  live := allocation :: state.live
  chunks :=
    if heap.heapCurr = state.heap.heapCurr then state.chunks
    else ⟨allocation.fatPtr, allocation.bucket⟩ :: state.chunks

/-- What the kernel promises of a new mapping: its pages are in the lower half of the address
space and mapped nowhere else. It maps no range of length zero. -/
structure Maps (base : HeapRegion) (state : BucketState) (mapping : Region) : Prop where
  nonempty : mapping.first < mapping.stop
  positive : 0 < mapping.first
  fits : mapping.stop ≤ 2 ^ 47
  heap : mapping.Apart base.region
  others : ∀ other ∈ state.live, other.isHuge = true → mapping.Apart other.mapping

end BucketState

inductive BucketEvent where
  | allocate (size fatPtr : Nat)
  | free (allocation : Allocation) (freed : Heap.Freed)
  | write

/-- Calls of `rt_allocate_raw` for which there is room, calls of `rt_free` for live fat
pointers, and writes to what live allocations have room for. -/
inductive BucketStep (base : HeapRegion) : BucketState → BucketEvent → BucketState → Prop
  | allocate {state heap} (size mmapAddr fatPtr : Nat) :
      size < 2 ^ 64 →
      (MAX_CLASS < sizeClass size → state.Maps base ⟨mmapAddr, mmapAddr + mmapSize size⟩) →
      state.heap.allocateRaw size mmapAddr = some (fatPtr, heap) →
      BucketStep base state (.allocate size fatPtr) (state.record ⟨fatPtr, size⟩ heap)
  | free {state heap} (allocation : Allocation) (freed : Heap.Freed) :
      allocation ∈ state.live →
      state.heap.free allocation.fatPtr = (freed, heap) →
      BucketStep base state (.free allocation freed)
        { state with heap := heap, live := state.live.erase allocation }
  | write {state} (words : Words) :
      (∀ addr, (∀ allocation ∈ state.live, addr ∉ allocation.region state.heap) →
        words addr = state.heap.words addr) →
      BucketStep base state .write { state with heap := { state.heap with words := words } }

/-! ## Spaces -/

namespace Allocation

variable {allocation : Allocation}

theorem space_small (small : allocation.isHuge = false) :
    allocation.space = Chunk.space ⟨allocation.fatPtr, allocation.bucket⟩ := by
  rw [space, small]
  rfl

theorem space_huge (huge : allocation.isHuge = true) : allocation.space = allocation.mapping := by
  rw [space, huge]
  rfl

theorem isHuge_iff : allocation.isHuge = true ↔ MAX_CLASS < allocation.bucket := by
  rw [isHuge, decide_eq_true_iff]
  rfl

theorem isHuge_eq_false_iff : allocation.isHuge = false ↔ allocation.bucket ≤ MAX_CLASS := by
  rw [← Bool.not_eq_true, isHuge_iff, Nat.not_lt]

end Allocation

theorem Chunk.mem_space {chunk : Chunk} {offset : Nat} (inside : offset ≤ 16) :
    chunk.fatPtr + offset ∈ chunk.space := by
  have room := classSize_pos chunk.bucket
  constructor
  · exact Nat.le_add_right _ _
  · change chunk.fatPtr + offset < chunk.fatPtr + 16 + classSize chunk.bucket
    omega

/-! ## The invariant -/

/-- The fat pointer behind a free one, in the first word of its payload. -/
def nextFree (heap : Heap) (fatPtr : Nat) : Nat := heap.load (heap.load fatPtr)

/-- What holds of a live allocation. -/
structure Held (base : HeapRegion) (state : BucketState) (allocation : Allocation) : Prop where
  isWord : allocation.size < 2 ^ 64
  small : allocation.isHuge = false → ⟨allocation.fatPtr, allocation.bucket⟩ ∈ state.chunks ∧
    state.heap.load (allocation.fatPtr + 8) = allocation.fatPtr + 16 + allocation.size
  huge : allocation.isHuge = true → state.heap.load allocation.fatPtr = allocation.fatPtr + 32 ∧
    state.heap.load (allocation.fatPtr + 8) = allocation.fatPtr + mmapSize allocation.size ∧
    0 < mmapSize allocation.size ∧ allocation.mapping.stop ≤ 2 ^ 47 ∧
    allocation.mapping.Apart base.region

/-- The chunks lie one behind the other below `heap_curr`; each is held or in the list of its
bucket. `dead` are the lists. -/
structure Intact (base : HeapRegion) (dead : Nat → List Nat) (state : BucketState) : Prop where
  heapEnd : state.heap.heapEnd = base.first + HEAP_SIZE
  bump : base.first ≤ state.heap.heapCurr ∧ state.heap.heapCurr ≤ base.first + HEAP_SIZE ∧
    16 ∣ state.heap.heapCurr
  inRange : ∀ chunk ∈ state.chunks, chunk.bucket ≤ MAX_CLASS
  inside : ∀ chunk ∈ state.chunks, chunk.space.Within ⟨base.first, state.heap.heapCurr⟩
  apart : ∀ chunk ∈ state.chunks, ∀ other ∈ state.chunks, chunk ≠ other →
    chunk.space.Apart other.space
  starts : ∀ chunk ∈ state.chunks, state.heap.load chunk.fatPtr = chunk.fatPtr + 16
  once : (state.live.map Allocation.fatPtr).Nodup
  held : ∀ allocation ∈ state.live, Held base state allocation
  mappings : ∀ allocation ∈ state.live, ∀ other ∈ state.live, allocation ≠ other →
    allocation.isHuge = true → other.isHuge = true → allocation.mapping.Apart other.mapping
  lists : ∀ bucket, Chain (nextFree state.heap) 0 (state.heap.freeListHeads bucket) (dead bucket)
  isDead : ∀ bucket, ∀ fatPtr ∈ dead bucket, ⟨fatPtr, bucket⟩ ∈ state.chunks ∧
    ∀ allocation ∈ state.live, allocation.fatPtr ≠ fatPtr

end LakeNative.Allocators

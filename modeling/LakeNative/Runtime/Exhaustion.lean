import LakeNative.Runtime.HeapArray
import LakeNative.Runtime.SharedArena
import LakeNative.Runtime.ZeroedAllocate

/-! # When there is no memory

What calls of the allocators come to when the heap or the kernel has nothing to give. `rt_mmap`
returns what the system call left in `rax`, whatever it is.
-/

namespace LakeNative.Runtime

open SlabLayout

/-- What the kernel answers to a request for a mapping. -/
inductive Answer where
  | mapped (addr : Nat)
  | failed (errno : Nat)

/-- `rt_mmap`; a failure is the negated error number. -/
def rtMmap : Answer → Nat
  | .mapped addr => addr
  | .failed errno => isub 0 errno

/-- What a call that finds no memory reads of the scheduler, and the mark that it leaves. -/
structure Caller where
  hasActor : Bool
  isDying : Bool

inductive CallResult (H : Type) where
  | returned (value : Nat) (heap : H) (caller : Caller)
  | exited (code : Nat)
  | faulted

/-- The result of a call on one part of what the allocators hold. -/
def CallResult.map {H K : Type} (embed : H → K) : CallResult H → CallResult K
  | .returned value heap caller => .returned value (embed heap) caller
  | .exited code => .exited code
  | .faulted => .faulted

/-- `rt_die_actor` and the null that is returned behind it: without an actor the process
exits. -/
def outOfMemory {H : Type} (heap : H) (caller : Caller) : CallResult H :=
  if caller.hasActor then .returned 0 heap { caller with isDying := true } else .exited 137

/-- There is no memory at null and none in the kernel's half of the address space. -/
def accessible (addr : Nat) : Bool := addr ≠ 0 ∧ addr < 2 ^ 47

namespace Heap

/-- The globals that `rt_init_heap` stores. -/
def initHeap (heap : Heap) (base : Nat) : Heap :=
  { heap with heapCurr := base, heapEnd := iadd base HEAP_SIZE }

/-- `merge_block`, with the header at the address of the block, or else `oom_block`. -/
def merge (heap : Heap) (caller : Caller) (block : Option (Nat × Heap)) : CallResult Heap :=
  match block with
  | some (fatPtr, allocated) =>
      if accessible fatPtr then .returned fatPtr allocated caller else .faulted
  | none => outOfMemory heap caller

def rtAllocateRaw (heap : Heap) (caller : Caller) (userSize raw : Nat) : CallResult Heap :=
  heap.merge caller (heap.allocateRaw userSize raw)

def rtArenaAlloc (heap : Heap) (caller : Caller) (arenaFat userSize raw : Nat) : CallResult Heap :=
  heap.merge caller (heap.arenaAlloc arenaFat userSize raw)

/-- The two words of a tuple are stored behind its header. -/
def fillTuple (tuple : CallResult Heap) (first second : Nat) : CallResult Heap :=
  match tuple with
  | .returned fatPtr heap caller =>
      if accessible fatPtr then
        let start := heap.load fatPtr
        .returned fatPtr ((heap.store start first).store (start + 8) second) caller
      else
        .faulted
  | ended => ended

/-- `rt_allocate` with the tuple that it returns. -/
def rtAllocate (atomId : String → Nat) (heap : Heap) (caller : Caller)
    (arenaFat userSize raw : Nat) : CallResult Heap :=
  match heap.allocate userSize raw with
  | some (buf, allocated) =>
      if accessible buf then
        fillTuple (allocated.rtArenaAlloc caller arenaFat 16 raw) (atomId "ok") buf
      else
        .faulted
  | none => fillTuple (heap.rtAllocateRaw caller 16 raw) (atomId "err") (atomId "nomem")

end Heap

namespace SlabHeap

/-- `need_new_block`: one value that is not an address is told apart. -/
def needNew (heap : SlabHeap) (caller : Caller) (classIdx raw : Nat) : CallResult SlabHeap :=
  if raw = 2 ^ 64 - 1 then
    outOfMemory heap caller
  else
    let (newSlab, created) := heap.createNewSlab classIdx raw
    if accessible newSlab then
      let linked := created.linkSlab classIdx newSlab
      match linked.tryAllocFromSlab classIdx newSlab with
      | some (taken, allocated) => .returned taken.chunkAddr allocated caller
      | none => outOfMemory linked caller
    else
      .faulted

/-- `walk_alloc` for the slab that the walk has found, and `need_new_block` without one. -/
def walkAlloc (heap : SlabHeap) (caller : Caller) (classIdx raw slab : Nat) :
    CallResult SlabHeap :=
  if slab = 0 then
    heap.needNew caller classIdx raw
  else
    let current := heap.setCurrent classIdx slab
    match current.tryAllocFromSlab classIdx slab with
    | some (taken, allocated) => .returned taken.chunkAddr allocated caller
    | none => current.needNew caller classIdx raw

/-- `walk_start` and what follows; there is no result while the walk does not end. -/
def walkOrNew (heap : SlabHeap) (caller : Caller) (fuel classIdx raw : Nat) :
    Option (CallResult SlabHeap) :=
  (heap.walk fuel (heap.slabsHead classIdx)).map (heap.walkAlloc caller classIdx raw)

def rtAllocateSlab (heap : SlabHeap) (caller : Caller) (fuel classIdx raw : Nat) :
    Option (CallResult SlabHeap) :=
  if chunksPerSlab classIdx ≠ 0 then
    let current := heap.currentSlab classIdx
    if current ≠ 0 then
      match heap.tryAllocFromSlab classIdx current with
      | some (taken, allocated) => some (.returned taken.chunkAddr allocated caller)
      | none => heap.walkOrNew caller fuel classIdx raw
    else
      heap.walkOrNew caller fuel classIdx raw
  else
    some (outOfMemory heap caller)

/-- `write_hdr_block` and `slab_oom_block` -/
def header (userSize : Nat) : CallResult SlabHeap → CallResult SlabHeap
  | .returned chunk heap caller =>
      if chunk ≠ 0 then .returned chunk (heap.writeHdr chunk userSize) caller
      else .returned 0 heap caller
  | ended => ended

/-- `huge_block` -/
def hugeBlock (heap : SlabHeap) (caller : Caller) (userSize raw : Nat) : CallResult SlabHeap :=
  if accessible raw then
    let mapped := heap.mmap raw (mmapSize userSize)
    .returned raw
      ((mapped.store raw (iadd raw 32)).store (raw + 8) (iadd raw (mmapSize userSize))) caller
  else
    .faulted

def rtAllocateRaw (heap : SlabHeap) (caller : Caller) (fuel userSize raw : Nat) :
    Option (CallResult SlabHeap) :=
  if slabClassIdx userSize ≤ NUM_CLASSES - 1 then
    (heap.rtAllocateSlab caller fuel (slabClassIdx userSize) raw).map (header userSize)
  else
    some (heap.hugeBlock caller userSize raw)

end SlabHeap

/-! ## Errors of the kernel -/

/-- The negation of an error number is no address. -/
theorem failed_not_accessible {errno : Nat} (positive : 1 ≤ errno) (bound : errno ≤ 4095) :
    rtMmap (.failed errno) = 2 ^ 64 - errno ∧ accessible (rtMmap (.failed errno)) = false := by
  have negated : rtMmap (.failed errno) = 2 ^ 64 - errno := by
    rw [rtMmap, isub]
    omega
  refine ⟨negated, ?_⟩
  rw [negated, accessible, decide_eq_false_iff_not]
  omega

theorem outOfMemory_ne_faulted {H : Type} (heap : H) (caller : Caller) :
    outOfMemory heap caller ≠ .faulted := by
  unfold outOfMemory
  split
  · exact nofun
  · exact nofun

/-- The failure path returns no block. -/
theorem outOfMemory_ne_returned {H : Type} (heap after : H) (caller same : Caller) {value : Nat}
    (isBlock : value ≠ 0) : outOfMemory heap caller ≠ .returned value after same := by
  unfold outOfMemory
  split
  · intro isResult
    cases isResult
    exact isBlock rfl
  · exact nofun

end LakeNative.Runtime

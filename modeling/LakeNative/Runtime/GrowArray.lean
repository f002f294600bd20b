import LakeNative.Runtime.BucketAllocator

/-! # Growing an array of the scheduler

`emit_grow_array_if_full_strided` on the words of memory. The scheduler context has a field with
the array's fat pointer and one with its capacity.
-/

namespace LakeNative.Runtime

/-- What is read and what is freed, in order. -/
inductive HeapAccess where
  | read (addr : Nat)
  | freed (fatPtr : Nat)
  deriving DecidableEq

structure LoggedHeap where
  heap : Heap
  accesses : List HeapAccess

namespace LoggedHeap

def load (logged : LoggedHeap) (addr : Nat) : Nat × LoggedHeap :=
  (logged.heap.load addr, { logged with accesses := logged.accesses ++ [.read addr] })

def store (logged : LoggedHeap) (addr value : Nat) : LoggedHeap :=
  { logged with heap := logged.heap.store addr value }

def allocateRaw (logged : LoggedHeap) (size mmapAddr : Nat) : Option (Nat × LoggedHeap) :=
  (logged.heap.allocateRaw size mmapAddr).map fun (fatPtr, heap) =>
    (fatPtr, { logged with heap := heap })

def free (logged : LoggedHeap) (fatPtr : Nat) : LoggedHeap where
  heap := (logged.heap.free fatPtr).2
  accesses := logged.accesses ++ [.freed fatPtr]

/-- `rt_load_u64` of a field behind a fat pointer. -/
def loadField (logged : LoggedHeap) (fatPtr offset : Nat) : Nat × LoggedHeap :=
  let (start, logged) := logged.load fatPtr
  logged.load (iadd start offset)

/-- `rt_store` of a field behind a fat pointer. -/
def storeField (logged : LoggedHeap) (fatPtr value offset : Nat) : LoggedHeap :=
  let (start, logged) := logged.load fatPtr
  logged.store (iadd start offset) value

/-- The loop from `copy_header` to `copy_done`. -/
def copyEntries (logged : LoggedHeap) (oldStart newStart chunks : Nat) : LoggedHeap :=
  (List.range chunks).foldl (fun logged i =>
    let off := ishl i 3
    let (val, logged) := logged.load (iadd oldStart off)
    logged.store (iadd newStart off) val) logged

/-- Entries are of `1 << logStride` bytes; without room for the new array there is no result. -/
def emitGrowArrayIfFullStrided (logged : LoggedHeap) (shCtxPtr fatOffset capOffset nextIndex
    logStride mmapAddr : Nat) : Option (Nat × LoggedHeap) :=
  let (cap, logged) := logged.loadField shCtxPtr capOffset
  let (oldFat, logged) := logged.loadField shCtxPtr fatOffset
  if cap ≤ nextIndex then
    let newCap := ishl cap 1
    let allocBytes := ishl newCap logStride
    (logged.allocateRaw allocBytes mmapAddr).map fun (newFat, logged) =>
      let (oldStart, logged) := logged.load oldFat
      let (newStart, logged) := logged.load newFat
      let chunks := ishl nextIndex (logStride - 3)
      let copied := logged.copyEntries oldStart newStart chunks
      let freed := copied.free oldFat
      (newFat, (freed.storeField shCtxPtr newFat fatOffset).storeField shCtxPtr newCap capOffset)
  else
    some (oldFat, logged)

end LoggedHeap

end LakeNative.Runtime

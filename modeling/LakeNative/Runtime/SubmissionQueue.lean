import LakeNative.Runtime.FatPtr

/-! # The submission queue

The ring in which submissions are published for the kernel, and `SQE_PENDING`, the number of
them that the next `io_uring_enter` is to submit.
-/

namespace LakeNative.Runtime

def IORING_OP_WRITE : Nat := 23

def IORING_OP_POLL_ADD : Nat := 6

def POLLIN : Nat := 1

/-- Number of SQEs to accumulate before issuing a single `io_uring_enter`. -/
def SQE_BATCH_SIZE : Nat := 16

/-- The fields of a submission that are written; all others are zero. -/
structure Sqe where
  opcode : Nat
  fd : Nat
  addr : Nat
  len : Nat
  poll32Events : Nat
  userData : Nat
  deriving DecidableEq

/-- `head` is the kernel's. -/
structure SubmissionQueue where
  head : Nat
  tail : Nat
  mask : Nat
  array : Nat → Nat
  sqes : Nat → Sqe
  sqePending : Nat

namespace SubmissionQueue

/-- The queue after `rt_io_uring_setup`, with `2 ^ bits` entries. -/
def init (bits : Nat) (array : Nat → Nat) (sqes : Nat → Sqe) : SubmissionQueue where
  head := 0
  tail := 0
  mask := 2 ^ bits - 1
  array := array
  sqes := sqes
  sqePending := 0

/-- The submissions that the kernel has not consumed. -/
def unconsumed (queue : SubmissionQueue) : Nat := (queue.tail + 2 ^ 32 - queue.head) % 2 ^ 32

/-- The entry behind the tail. -/
def idx (queue : SubmissionQueue) : Nat := queue.tail &&& queue.mask

/-- Fill the entry behind the tail and publish it. -/
def push (queue : SubmissionQueue) (sqe : Sqe) : SubmissionQueue :=
  let idx := queue.idx
  { queue with
    sqes := Function.update queue.sqes idx sqe
    array := Function.update queue.array idx idx
    tail := (queue.tail + 1) % 2 ^ 32 }

/-- The system call, of which the kernel consumes some of the submissions that are due and
whose result is not looked at. -/
def ioUringEnter (queue : SubmissionQueue) (consumed : Nat) : SubmissionQueue :=
  { queue with head := (queue.head + consumed) % 2 ^ 32 }

def emitSubmitSqe (queue : SubmissionQueue) (opcode fd addr len procCtx : Nat) :
    SubmissionQueue :=
  let published := queue.push ⟨opcode, fd % 2 ^ 32, addr, len % 2 ^ 32, 0, procCtx⟩
  { published with sqePending := iadd published.sqePending 1 }

def emitSubmitPollSqe (queue : SubmissionQueue) (fd procCtx : Nat) : SubmissionQueue :=
  let published := queue.push ⟨IORING_OP_POLL_ADD, fd % 2 ^ 32, 0, 0, POLLIN, procCtx⟩
  { published with sqePending := iadd published.sqePending 1 }

/-- `rt_write_async`, without a result when its bounds check traps. -/
def writeAsync (queue : SubmissionQueue) (fd : Nat) (fatPtr : FatPtr) (size consumed : Nat) :
    Option SubmissionQueue :=
  if iadd fatPtr.start size ≤ fatPtr.stop then
    let published := queue.push ⟨IORING_OP_WRITE, fd % 2 ^ 32, fatPtr.start, size % 2 ^ 32, 0, 0⟩
    let pendingNext := iadd published.sqePending 1
    if pendingNext ≥ SQE_BATCH_SIZE then
      some { published.ioUringEnter consumed with sqePending := 0 }
    else
      some { published with sqePending := pendingNext }
  else
    none

/-- `rt_io_uring_flush` -/
def flush (queue : SubmissionQueue) (consumed : Nat) : SubmissionQueue :=
  if queue.sqePending ≠ 0 then { queue.ioUringEnter consumed with sqePending := 0 } else queue

/-- `rt_io_uring_wait_cqe` -/
def waitCqe (queue : SubmissionQueue) (consumed : Nat) : SubmissionQueue :=
  { queue.ioUringEnter consumed with sqePending := 0 }

end SubmissionQueue

end LakeNative.Runtime

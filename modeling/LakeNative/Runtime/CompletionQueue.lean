import LakeNative.Runtime.System

/-! # The completion queue

The ring in which the kernel posts completions, and `rt_io_uring_poll_cq`, which reads the
tail anew for each completion that it takes.
-/

namespace LakeNative.Runtime

structure Cqe where
  userData : Word
  res : BitVec 32
  deriving DecidableEq

structure CompletionQueue where
  head : BitVec 32
  tail : BitVec 32
  mask : BitVec 32
  cqes : Nat → Cqe

namespace CompletionQueue

/-- The queue after `rt_io_uring_setup`, with `2 ^ bits` entries. -/
def init (bits : Nat) (cqes : Nat → Cqe) : CompletionQueue where
  head := 0
  tail := 0
  mask := BitVec.ofNat 32 (2 ^ bits - 1)
  cqes := cqes

/-- The completion at a position of the ring. -/
def cqeAt (queue : CompletionQueue) (head : BitVec 32) : Cqe :=
  queue.cqes (head &&& queue.mask).toNat

/-- The kernel posts a completion. -/
def post (queue : CompletionQueue) (cqe : Cqe) : CompletionQueue :=
  { queue with
    cqes := Function.update queue.cqes (queue.tail &&& queue.mask).toNat cqe
    tail := queue.tail + 1 }

end CompletionQueue

/-- The running system with its completion queue. `polling` is the loop's own head while
`poll_cq` runs, `taken` how many completions it has taken; a run also remembers all
completions that were posted and taken. -/
structure IoSystem where
  system : System
  queue : CompletionQueue
  polling : Option (BitVec 32)
  taken : Nat
  posted : List Cqe
  consumed : List Cqe

inductive IoEvent where
  | call (event : Event)
  | post (cqe : Cqe)
  | pollStart
  | consume (cqe : Cqe)
  | pollEnd
  | waitCqe

namespace IoSystem

def start (main : Word) (memory : Word → Actor) (bits : Nat) (cqes : Nat → Cqe) : IoSystem where
  system := .start main memory
  queue := .init bits cqes
  polling := none
  taken := 0
  posted := []
  consumed := []

/-- The completions that wait in the ring. -/
def pending (io : IoSystem) : List Cqe := io.posted.drop io.consumed.length

end IoSystem

/-- Calls of compiled code and of the scheduler; completions that the kernel posts for
submissions which are outstanding, as long as the ring has room; and the loop of `poll_cq`.
`wait_cqe` changes nothing that is kept here. -/
inductive IoStep (bits : Nat) : IoSystem → IoEvent → IoSystem → Prop
  | call {io next} (event : Event) :
      io.polling = none →
      (∀ userData res, event ≠ .complete userData res) →
      Step io.system event next →
      IoStep bits io (.call event) { io with system := next }
  | post {io} (cqe : Cqe) :
      (io.queue.tail - io.queue.head).toNat < 2 ^ bits →
      (io.pending.map Cqe.userData).count cqe.userData <
        io.system.outstanding.count cqe.userData →
      IoStep bits io (.post cqe)
        { io with queue := io.queue.post cqe, posted := io.posted ++ [cqe] }
  | pollStart {io} :
      io.polling = none →
      io.system.running = false →
      IoStep bits io .pollStart { io with polling := some io.queue.head, taken := 0 }
  | consume {io} (head : BitVec 32) :
      io.polling = some head →
      head ≠ io.queue.tail →
      IoStep bits io (.consume (io.queue.cqeAt head))
        { io with
          system := io.system.complete (io.queue.cqeAt head).userData (io.queue.cqeAt head).res
          polling := some (head + 1)
          taken := io.taken + 1
          consumed := io.consumed ++ [io.queue.cqeAt head] }
  | pollEnd {io} (head : BitVec 32) :
      io.polling = some head →
      head = io.queue.tail →
      IoStep bits io .pollEnd
        { io with queue := { io.queue with head := head }, polling := none, taken := 0 }
  | waitCqe {io} :
      io.polling = none →
      io.system.running = false →
      IoStep bits io .waitCqe io

end LakeNative.Runtime

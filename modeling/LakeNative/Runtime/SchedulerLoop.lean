import LakeNative.Runtime.CompletionQueue
import LakeNative.Runtime.SubmissionQueue

/-! # The scheduler loop

The loop of `build_scheduler` between the two rings. Each tick takes the completions, hands the
pending submissions to the kernel and then calls the current actor, waits for completions, goes
round again or leaves the program. The kernel consumes submissions out of their ring in
`io_uring_enter` and completes them at any time and in any order.
-/

namespace LakeNative.Runtime

/-- The submissions that the kernel finds from its head on. -/
def SubmissionQueue.published (queue : SubmissionQueue) : List Sqe :=
  (List.range queue.unconsumed).map fun index =>
    queue.sqes (queue.array ((queue.head + index) &&& queue.mask))

/-- Where the loop is: before `poll_cq`, behind it, behind the flush, in the call of a machine, or
at its end. -/
inductive LoopPoint where
  | loopBlock
  | polled
  | flushed
  | exec
  | exited
  deriving DecidableEq

/-- The loop with both rings and what the kernel has consumed and not completed. -/
structure SchedulerLoop where
  point : LoopPoint
  io : IoSystem
  queue : SubmissionQueue
  inFlight : List Sqe

inductive LoopEvent where
  | pollStart
  | consume (cqe : Cqe)
  | pollEnd
  | flush (consumed : Nat)
  | noFlush
  | dispatch
  | waitIo (consumed : Nat)
  | spin
  | exit (consumed : Nat)
  | call (event : Event)
  | park (sqe : Sqe)
  | write (sqe : Sqe) (consumed : Nat)
  | post (sqe : Sqe) (res : BitVec 32)

namespace SchedulerLoop

def start (main : Word) (memory : Word → Actor) (bits : Nat) (cqes : Nat → Cqe) (sqBits : Nat)
    (array : Nat → Nat) (sqes : Nat → Sqe) : SchedulerLoop where
  point := .loopBlock
  io := .start main memory bits cqes
  queue := .init sqBits array sqes
  inFlight := []

abbrev system (loop : SchedulerLoop) : System := loop.io.system

def setSystem (loop : SchedulerLoop) (system : System) : SchedulerLoop :=
  { loop with io := { loop.io with system := system } }

/-- The kernel consumes submissions of a queue, which then is this one. -/
def enter (loop : SchedulerLoop) (queue after : SubmissionQueue) (consumed : Nat) : SchedulerLoop :=
  { loop with queue := after, inFlight := loop.inFlight ++ queue.published.take consumed }

end SchedulerLoop

def Sqe.context (sqe : Sqe) : Word := BitVec.ofNat 64 sqe.userData

/-- The completion of a submission carries its context. -/
def Sqe.completion (sqe : Sqe) (res : BitVec 32) : Cqe := ⟨sqe.context, res⟩

/-- What compiled code calls, and the stops that put no submission into the ring. -/
def Event.IsLoopCall : Event → Prop
  | .spawn _ _ _ _ | .send _ _ _ | .dequeue _ _ | .yield | .wait _ | .done _ => True
  | _ => False

/-- What `io_uring_enter` may consume of a queue when it is asked to submit so many. -/
def SubmissionQueue.MayEnter (queue : SubmissionQueue) (toSubmit consumed : Nat) : Prop :=
  consumed ≤ toSubmit ∧ consumed ≤ queue.unconsumed

/-- Where the loop goes on when a call is made or has returned. -/
def pointAfter (system : System) : LoopPoint := if system.running then .exec else .loopBlock

/-- The submission of `rt_write_async`, which nobody waits for. -/
def writeSqe (fd : Nat) (fatPtr : FatPtr) (size : Nat) : Sqe :=
  ⟨IORING_OP_WRITE, fd % 2 ^ 32, fatPtr.start, size % 2 ^ 32, 0, 0⟩

inductive LoopStep (bits : Nat) : SchedulerLoop → LoopEvent → SchedulerLoop → Prop
  | pollStart {loop : SchedulerLoop} {io : IoSystem} :
      loop.point = .loopBlock →
      IoStep bits loop.io .pollStart io →
      LoopStep bits loop .pollStart { loop with io := io }
  | consume {loop : SchedulerLoop} {cqe : Cqe} {io : IoSystem} :
      loop.point = .loopBlock →
      IoStep bits loop.io (.consume cqe) io →
      LoopStep bits loop (.consume cqe) { loop with io := io }
  | pollEnd {loop : SchedulerLoop} {io : IoSystem} :
      loop.point = .loopBlock →
      IoStep bits loop.io .pollEnd io →
      LoopStep bits loop .pollEnd { loop with io := io, point := .polled }
  | flush {loop : SchedulerLoop} {consumed : Nat} :
      loop.point = .polled →
      loop.queue.sqePending ≠ 0 →
      loop.queue.MayEnter loop.queue.sqePending consumed →
      LoopStep bits loop (.flush consumed)
        { loop.enter loop.queue (loop.queue.flush consumed) consumed with point := .flushed }
  | noFlush {loop : SchedulerLoop} :
      loop.point = .polled →
      loop.queue.sqePending = 0 →
      LoopStep bits loop .noFlush { loop with point := .flushed }
  | dispatch {loop : SchedulerLoop} {system : System} :
      loop.point = .flushed →
      loop.system.ctx.realCountOfProcesses ≠ 0 →
      Step loop.system .dispatch system →
      LoopStep bits loop .dispatch { loop.setSystem system with point := .exec }
  | waitIo {loop : SchedulerLoop} {consumed : Nat} :
      loop.point = .flushed →
      loop.system.ctx.realCountOfProcesses = 0 →
      loop.system.ctx.ioParkedCount ≠ 0 →
      loop.queue.MayEnter loop.queue.sqePending consumed →
      LoopStep bits loop (.waitIo consumed)
        { loop.enter loop.queue (loop.queue.waitCqe consumed) consumed with point := .loopBlock }
  | spin {loop : SchedulerLoop} :
      loop.point = .flushed →
      loop.system.ctx.realCountOfProcesses = 0 →
      loop.system.ctx.ioParkedCount = 0 →
      loop.system.ctx.waitedProcessCount ≠ 0 →
      LoopStep bits loop .spin { loop with point := .loopBlock }
  | exit {loop : SchedulerLoop} {consumed : Nat} :
      loop.point = .flushed →
      loop.system.ctx.realCountOfProcesses = 0 →
      loop.system.ctx.ioParkedCount = 0 →
      loop.system.ctx.waitedProcessCount = 0 →
      loop.queue.MayEnter loop.queue.sqePending consumed →
      LoopStep bits loop (.exit consumed)
        { loop.enter loop.queue (loop.queue.flush consumed) consumed with point := .exited }
  | call {loop : SchedulerLoop} {event : Event} {system : System} :
      loop.point = .exec →
      event.IsLoopCall →
      Step loop.system event system →
      LoopStep bits loop (.call event) { loop.setSystem system with point := pointAfter system }
  | park {loop : SchedulerLoop} (opcode fd addr len : Nat) {system : System} :
      loop.point = .exec →
      Step loop.system .park system →
      LoopStep bits loop
        (.park ⟨opcode, fd % 2 ^ 32, addr, len % 2 ^ 32, 0, loop.system.current.toNat⟩)
        { loop.setSystem system with
          point := .loopBlock
          queue := loop.queue.emitSubmitSqe opcode fd addr len loop.system.current.toNat }
  | parkPoll {loop : SchedulerLoop} (fd : Nat) {system : System} :
      loop.point = .exec →
      Step loop.system .park system →
      LoopStep bits loop
        (.park ⟨IORING_OP_POLL_ADD, fd % 2 ^ 32, 0, 0, POLLIN, loop.system.current.toNat⟩)
        { loop.setSystem system with
          point := .loopBlock
          queue := loop.queue.emitSubmitPollSqe fd loop.system.current.toNat }
  | write {loop : SchedulerLoop} (fd : Nat) (fatPtr : FatPtr) (size : Nat) {system : System}
      {written : SubmissionQueue} :
      loop.point = .exec →
      Step loop.system .submit system →
      loop.queue.writeAsync fd fatPtr size 0 = some written →
      iadd loop.queue.sqePending 1 < SQE_BATCH_SIZE →
      LoopStep bits loop (.write (writeSqe fd fatPtr size) 0)
        { loop.setSystem system with queue := written }
  | writeBatch {loop : SchedulerLoop} (fd : Nat) (fatPtr : FatPtr) (size consumed : Nat)
      {system : System} {written : SubmissionQueue} :
      loop.point = .exec →
      Step loop.system .submit system →
      loop.queue.writeAsync fd fatPtr size consumed = some written →
      SQE_BATCH_SIZE ≤ iadd loop.queue.sqePending 1 →
      (loop.queue.push (writeSqe fd fatPtr size)).MayEnter (iadd loop.queue.sqePending 1) consumed →
      LoopStep bits loop (.write (writeSqe fd fatPtr size) consumed)
        ((loop.setSystem system).enter (loop.queue.push (writeSqe fd fatPtr size)) written consumed)
  | post {loop : SchedulerLoop} (sqe : Sqe) (res : BitVec 32) :
      sqe ∈ loop.inFlight →
      (loop.io.queue.tail - loop.io.queue.head).toNat < 2 ^ bits →
      LoopStep bits loop (.post sqe res)
        { loop with
          inFlight := loop.inFlight.erase sqe
          io := { loop.io with
            queue := loop.io.queue.post (sqe.completion res)
            posted := loop.io.posted ++ [sqe.completion res] } }

end LakeNative.Runtime

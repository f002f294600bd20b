import LakeNative.Runtime.PidTable

/-! # The scheduler context

The three arrays that hold the actors, the counters that go with them, and the
operations of the scheduler and of the io_uring layer on them. `process_arr` and
`io_parked` hold process contexts from index 0 on; `wait_arr` holds pids, and its
index 0 is never used.
-/

namespace LakeNative.Runtime

/-- The fields of an actor's `ProcessCtx` and `ExecCtx` that the runtime code of
this development reads or writes. -/
structure Actor where
  ownPid : Word
  ioParkedIdx : Word
  tempVal : Word
  vars : Nat → Word
  mailbox : HeapArray Word
  mailboxHead : Word
  mailboxTail : Word

/-- An actor in memory that reads as zero. -/
def Actor.zeroed : Actor where
  ownPid := 0
  ioParkedIdx := 0
  tempVal := 0
  vars := fun _ => 0
  mailbox := .allocated 256 fun _ => 0
  mailboxHead := 0
  mailboxTail := 0

structure ShedulerCtx where
  processArr : HeapArray Word
  currentProcess : Word
  lastProcessIndex : Word
  realCountOfProcesses : Word
  waitArr : HeapArray Word
  lastWaitedProcessIndex : Word
  waitedProcessCount : Word
  pids : PidTable
  ioParked : HeapArray Word
  ioParkedCount : Word

/-- The buffer of `io_parked` has 4096 pairs of words, of which every access uses
a single word. -/
def IO_PARKED_ENTRIES : Nat := 2 * 4096

namespace ShedulerCtx

/-- The context after `init`: static memory and the first heap buffers are zero. -/
def init : ShedulerCtx where
  processArr := .allocated INITIAL_QUEUE_CAP fun _ => 0
  currentProcess := 0
  lastProcessIndex := 0
  realCountOfProcesses := 0
  waitArr := .allocated INITIAL_QUEUE_CAP fun _ => 0
  lastWaitedProcessIndex := 0
  waitedProcessCount := 0
  pids := .init
  ioParked := .allocated IO_PARKED_ENTRIES fun _ => 0
  ioParkedCount := 0

/-- `init_main_process`, from `assign_pid` on: the main actor's pid and context.
Unlike `new_process` it stores at index 0 and leaves `LAST_PROCESS_INDEX` alone. -/
def initMainProcess (ctx : ShedulerCtx) (processCtx : Word)
    (fresh : Nat → PidEntry) : Word × ShedulerCtx :=
  let assigned := ctx.pids.assignPid processCtx fresh
  (assigned.1,
    { ctx with
      pids := assigned.2
      processArr := ctx.processArr.store 0 processCtx
      realCountOfProcesses := 1 })

def newProcess (ctx : ShedulerCtx) (processCtx : Word) (fresh : Nat → Word) :
    ShedulerCtx :=
  let nextProcessIndex := ctx.lastProcessIndex + 1
  { ctx with
    processArr := (ctx.processArr.emitGrowArrayIfFull nextProcessIndex fresh).store
      nextProcessIndex processCtx
    lastProcessIndex := nextProcessIndex
    realCountOfProcesses := ctx.realCountOfProcesses + 1 }

def nextProcess (ctx : ShedulerCtx) : ShedulerCtx :=
  let nextProcessIndex := ctx.currentProcess + 1
  { ctx with
    currentProcess :=
      if ctx.lastProcessIndex < nextProcessIndex then 0 else nextProcessIndex }

def getCurrentProcess (ctx : ShedulerCtx) : Word :=
  ctx.processArr.load ctx.currentProcess

def removeCurrentProcess (ctx : ShedulerCtx) : ShedulerCtx :=
  let lastProc := ctx.processArr.load ctx.lastProcessIndex
  { ctx with
    processArr := (ctx.processArr.store ctx.currentProcess lastProc).store
      ctx.lastProcessIndex 0
    lastProcessIndex := ctx.lastProcessIndex - 1
    realCountOfProcesses := ctx.realCountOfProcesses - 1
    currentProcess :=
      if ctx.currentProcess = ctx.lastProcessIndex then 0 else ctx.currentProcess }

/-- `wait_current_process`, given the `OWN_PID` it reads from the process. -/
def waitCurrentProcess (ctx : ShedulerCtx) (ownPid : Word) (fresh : Nat → Word) :
    ShedulerCtx :=
  let nextProcessIndex := ctx.lastWaitedProcessIndex + 1
  { ctx with
    waitArr := (ctx.waitArr.emitGrowArrayIfFull nextProcessIndex fresh).store
      nextProcessIndex ownPid
    lastWaitedProcessIndex := nextProcessIndex
    waitedProcessCount := ctx.waitedProcessCount + 1 }

/-- The scan loop of `wake_process` from index `i` on, with `left` further
indices up to the last one. -/
def scanWaitArr (waitArr : HeapArray Word) (pid : Word) (i : Word) : Nat → Option Word
  | 0 => if waitArr.load i = pid then some i else none
  | left + 1 =>
      if waitArr.load i = pid then some i else scanWaitArr waitArr pid (i + 1) left

/-- Swap-remove the entry found by the scan from `wait_arr`. -/
def removedFromWait (ctx : ShedulerCtx) (foundI : Word) : ShedulerCtx :=
  let lastIdx := ctx.lastWaitedProcessIndex
  { ctx with
    waitArr := (ctx.waitArr.store foundI (ctx.waitArr.load lastIdx)).store lastIdx 0
    lastWaitedProcessIndex := lastIdx - 1
    waitedProcessCount := ctx.waitedProcessCount - 1 }

/-- The tail of `wake_process` when the scan found the pid. -/
def wakeFound (ctx : ShedulerCtx) (pid foundI : Word) (fresh : Nat → Word) :
    ShedulerCtx :=
  let procCtx := ctx.pids.lookupProcCtx pid
  if procCtx = 0 then ctx.removedFromWait foundI
  else (ctx.removedFromWait foundI).newProcess procCtx fresh

def wakeProcess (ctx : ShedulerCtx) (pid : Word) (fresh : Nat → Word) : ShedulerCtx :=
  if ctx.lastWaitedProcessIndex + 1 = 0 then
    ctx
  else
    match scanWaitArr ctx.waitArr pid 0 ctx.lastWaitedProcessIndex.toInt.toNat with
    | none => ctx
    | some foundI => ctx.wakeFound pid foundI fresh

/-! ## The io_uring layer -/

/-- `rt_io_park_current`; the index stored into the parked actor is the old count. -/
def parkCurrent (ctx : ShedulerCtx) (actors : Word → Actor) :
    ShedulerCtx × (Word → Actor) :=
  let procCtx := ctx.processArr.load ctx.currentProcess
  let lastVal := ctx.processArr.load ctx.lastProcessIndex
  let parkedCount := ctx.ioParkedCount
  ({ ctx with
      processArr := ctx.processArr.store ctx.currentProcess lastVal
      lastProcessIndex := ctx.lastProcessIndex - 1
      currentProcess := 0
      realCountOfProcesses := ctx.realCountOfProcesses - 1
      ioParked := ctx.ioParked.store parkedCount procCtx
      ioParkedCount := parkedCount + 1 },
    Function.update actors procCtx { actors procCtx with ioParkedIdx := parkedCount })

/-- The store that keeps the moved actor's index coherent. -/
def fixParkedIdx (actors : Word → Actor) (lastVal matchIdx lastIdx : Word) :
    Word → Actor :=
  if matchIdx = lastIdx then
    actors
  else
    Function.update actors lastVal { actors lastVal with ioParkedIdx := matchIdx }

def emitWakeByUserData (ctx : ShedulerCtx) (actors : Word → Actor) (userData : Word)
    (res : BitVec 32) : ShedulerCtx × (Word → Actor) :=
  if userData = 0 then
    (ctx, actors)
  else
    let matchIdx := (actors userData).ioParkedIdx
    let lastIdx := ctx.ioParkedCount - 1
    let lastVal := ctx.ioParked.load lastIdx
    let moved := fixParkedIdx actors lastVal matchIdx lastIdx
    let nextProc := ctx.lastProcessIndex + 1
    ({ ctx with
        ioParked := ctx.ioParked.store matchIdx lastVal
        ioParkedCount := lastIdx
        processArr := ctx.processArr.store nextProc userData
        lastProcessIndex := nextProc
        realCountOfProcesses := ctx.realCountOfProcesses + 1 },
      Function.update moved userData
        { moved userData with tempVal := res.signExtend 64 })

end ShedulerCtx

end LakeNative.Runtime

import LakeNative.Library.Transitions
import LakeNative.Runtime.Mailbox
import LakeNative.Runtime.PidTablePool

/-! # The running system

The scheduler loop, the actors it runs and the completions the kernel still owes.
A step is one call that compiled code or the loop makes into the runtime; between
a dispatch and the return to the loop only the current actor issues calls.
-/

namespace LakeNative.Runtime

structure System where
  ctx : ShedulerCtx
  actors : Word → Actor
  /-- The loop is inside the indirect call of the current actor's machine. -/
  running : Bool
  /-- The actors spawned and not yet reclaimed. -/
  live : List Word
  /-- The `user_data` of every submission that has not completed. -/
  outstanding : List Word
  logs : Word → MailLog

/-- What compiled code and the loop ask of the runtime. Arguments named `fresh`
are the contents of a buffer that the call may allocate, `memory` those of the new
actor's own buffers. -/
inductive Event where
  | complete (userData : Word) (res : BitVec 32)
  | dispatch
  | spawn (procCtx : Word) (memory : Actor) (freshPids : Nat → PidEntry)
      (fresh : Nat → Word)
  | send (pid : Word) (message : List Word) (fresh : Nat → Word)
  | dequeue (varBase count : Nat)
  | submit
  | yield
  | wait (fresh : Nat → Word)
  | park
  | done (fresh : Nat → Word)

/-- What `spawn` and `init_main_process` write into the new actor's contexts. -/
def Actor.spawned (memory : Actor) (pid : Word) : Actor :=
  { memory with ownPid := pid, ioParkedIdx := 0, mailboxHead := 0, mailboxTail := 0 }

namespace System

def current (system : System) : Word := system.ctx.getCurrentProcess

/-- The live actors as the pid table knows them. -/
def holders (system : System) : List Holder :=
  system.live.map fun actor => ⟨actor, (system.actors actor).ownPid⟩

/-- The system when the loop is entered for the first time. -/
def start (main : Word) (memory : Word → Actor) : System :=
  let initialised := ShedulerCtx.init.initMainProcess main fun _ => ⟨0, 0⟩
  { ctx := initialised.2
    actors := Function.update memory main ((memory main).spawned initialised.1)
    running := false
    live := [main]
    outstanding := []
    logs := fun _ => .empty }

def complete (system : System) (userData : Word) (res : BitVec 32) : System :=
  let woken := system.ctx.emitWakeByUserData system.actors userData res
  { system with
    ctx := woken.1
    actors := woken.2
    outstanding := system.outstanding.erase userData }

def spawn (system : System) (procCtx : Word) (memory : Actor)
    (freshPids : Nat → PidEntry) (fresh : Nat → Word) : System :=
  let assigned := system.ctx.pids.assignPid procCtx freshPids
  { system with
    ctx := { system.ctx with pids := assigned.2 }.newProcess procCtx fresh
    actors := Function.update system.actors procCtx (memory.spawned assigned.1)
    live := procCtx :: system.live
    logs := Function.update system.logs procCtx .empty }

/-- `compile_send`: drop the message, or enqueue it and wake the target. -/
def send (system : System) (pid : Word) (message : List Word) (fresh : Nat → Word) :
    System :=
  let target := system.ctx.pids.lookupProcCtx pid
  if target = 0 then
    system
  else
    { system with
      ctx := system.ctx.wakeProcess pid fresh
      actors := Function.update system.actors target
        ((system.actors target).enqueue message)
      logs := Function.update system.logs target ((system.logs target).send message) }

def dequeue (system : System) (varBase count : Nat) : System :=
  let actor := system.actors system.current
  { system with
    actors := Function.update system.actors system.current (actor.dequeue varBase count)
    logs := Function.update system.logs system.current
      ((system.logs system.current).take (actor.messageWords count)) }

def yield (system : System) : System :=
  { system with ctx := system.ctx.nextProcess, running := false }

def wait (system : System) (fresh : Nat → Word) : System :=
  let ownPid := (system.actors system.current).ownPid
  { system with
    ctx := (system.ctx.waitCurrentProcess ownPid fresh).removeCurrentProcess
    running := false }

/-- A submission with the current actor as its `user_data`, then `rt_io_park_current`. -/
def park (system : System) : System :=
  let parked := system.ctx.parkCurrent system.actors
  { system with
    ctx := parked.1
    actors := parked.2
    running := false
    outstanding := system.current :: system.outstanding }

/-- `free_process_resources` and `remove_current_process`. -/
def done (system : System) (fresh : Nat → Word) : System :=
  let ownPid := (system.actors system.current).ownPid
  let cleared := { system.ctx with pids := system.ctx.pids.clearPid ownPid fresh }
  { system with
    ctx := cleared.removeCurrentProcess
    running := false
    live := system.live.erase system.current }

end System

/-- The steps of the system. Completions are taken from the ring by `poll_cq`,
which only the loop calls. A send names a slot that was handed out, or slot 0. A
spawn gets memory of its own from the allocator. -/
inductive Step : System → Event → System → Prop
  | complete {system} (userData : Word) (res : BitVec 32) :
      system.running = false →
      userData ∈ system.outstanding →
      Step system (.complete userData res) (system.complete userData res)
  | dispatch {system} :
      system.running = false →
      system.ctx.realCountOfProcesses ≠ 0 →
      Step system .dispatch { system with running := true }
  | spawn {system} (procCtx : Word) (memory : Actor) (freshPids : Nat → PidEntry)
      (fresh : Nat → Word) :
      system.running = true →
      procCtx ≠ 0 →
      procCtx ∉ system.live →
      (system.ctx.pids.assignPid procCtx freshPids).2.FitsHeap →
      Step system (.spawn procCtx memory freshPids fresh)
        (system.spawn procCtx memory freshPids fresh)
  | send {system} (pid : Word) (message : List Word) (fresh : Nat → Word) :
      system.running = true →
      (slotOf pid).toNat < system.ctx.pids.pidTableLen.toNat →
      Step system (.send pid message fresh) (system.send pid message fresh)
  | dequeue {system} (varBase count : Nat) :
      system.running = true →
      (system.actors system.current).mailboxHead ≠
        (system.actors system.current).mailboxTail →
      Step system (.dequeue varBase count) (system.dequeue varBase count)
  | submit {system} :
      system.running = true →
      Step system .submit { system with outstanding := 0 :: system.outstanding }
  | yield {system} :
      system.running = true →
      Step system .yield system.yield
  | wait {system} (fresh : Nat → Word) :
      system.running = true →
      (system.actors system.current).mailboxHead =
        (system.actors system.current).mailboxTail →
      Step system (.wait fresh) (system.wait fresh)
  | park {system} :
      system.running = true →
      Step system .park system.park
  | done {system} (fresh : Nat → Word) :
      system.running = true →
      Step system (.done fresh) (system.done fresh)

end LakeNative.Runtime

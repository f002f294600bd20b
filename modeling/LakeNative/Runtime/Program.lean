import LakeNative.Compiler.Machine
import LakeNative.Runtime.System

/-! # The running program

The system together with the call of a machine that the loop has made. Its blocks run one after
the other, with their calls of the runtime in between, until it returns a stop code to the loop.
-/

namespace LakeNative.Runtime

open LakeNative.Compiler

/-- `IS_DYING` of every actor, the machine function that was called last, and that call. -/
structure Program (W : Type) where
  system : System
  isDying : Word → Bool
  machine : List (BranchCode W)
  call : Call W

inductive ProgramEvent where
  | system (event : Event)
  | block

/-- `rt_die_actor`: mark the current actor, or leave the program with code 137 if there is
none yet. -/
def rtDieActor (initialised : Bool) (ctx : ShedulerCtx) (isDying : Word → Bool) :
    Option (Word → Bool) :=
  if initialised ∧ ctx.realCountOfProcesses ≠ 0 then
    some (Function.update isDying ctx.getCurrentProcess true)
  else
    none

/-- A new actor is not dying. -/
def Event.clears (event : Event) (isDying : Word → Bool) : Word → Bool :=
  match event with
  | .spawn procCtx _ _ _ => Function.update isDying procCtx false
  | _ => isDying

/-- Compiled code asks for this while its call goes on. -/
def Event.IsCall : Event → Prop
  | .spawn _ _ _ _ | .send _ _ _ | .dequeue _ _ | .submit => True
  | _ => False

/-- What the loop does for a stop code. -/
def StopsWith : StopCode → Event → Prop
  | .done, .done _ => True
  | .limit, .yield => True
  | .wait, .wait _ => True
  | .park, .park => True
  | _, _ => False

section

variable {W : Type}

def Program.start (main : Word) (memory : Word → Actor) (isDying : Word → Bool)
    (machine : List (BranchCode W)) (call : Call W) : Program W :=
  ⟨.start main memory, Function.update isDying main false, machine, call⟩

variable (rt : RtFuncs W) (machines : List (List (BranchCode W)))

/-- A dispatch calls the machine of the current actor, which finds its contexts as the others
have left them. -/
inductive ProgramStep : Program W → ProgramEvent → Program W → Prop where
  | complete {program : Program W} {userData : Word} {res : BitVec 32} {system : System}
      (step : Step program.system (.complete userData res) system) :
      ProgramStep program (.system (.complete userData res)) { program with system := system }
  | dispatch {program : Program W} {system : System} {machine : List (BranchCode W)}
      {quantum : Int} {exec : ExecCtx W} {blockId : Nat}
      (isMachine : machine ∈ machines)
      (sameFlag : rt.isDying exec.world = program.isDying program.system.current)
      (step : Step program.system .dispatch system) :
      ProgramStep program (.system .dispatch)
        ⟨system, program.isDying, machine, .start quantum exec blockId⟩
  | runtime {program : Program W} {event : Event} {system : System} (isCall : event.IsCall)
      (running : program.call.stopped = none) (step : Step program.system event system) :
      ProgramStep program (.system event)
        { program with system := system, isDying := event.clears program.isDying }
  | block {program : Program W} {overBudget : Bool} {call : Call W}
      (running : program.system.running = true)
      (step : CallStep rt program.machine program.call overBudget call) :
      ProgramStep program .block { program with
        call := call
        isDying := Function.update program.isDying program.system.current
          (rt.isDying call.exec.world) }
  | stop {program : Program W} {code : StopCode} {event : Event} {system : System}
      (stopped : program.call.stopped = some code) (stops : StopsWith code event)
      (step : Step program.system event system) :
      ProgramStep program (.system event) { program with system := system }

end

end LakeNative.Runtime

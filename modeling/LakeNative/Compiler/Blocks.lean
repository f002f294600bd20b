import LakeNative.Library.NumberedCode
import LakeNative.Runtime.Mailbox
import LakeNative.Compiler.GuardSelect
import LakeNative.Compiler.PureExpr

/-! # Numbered blocks

A branch is compiled to blocks with consecutive numbers. Each runs to its end and names
the block to go on with, through `BLOCK_ID`, so that the actor may lose the processor
between any two of them.
-/

namespace LakeNative.Compiler

open LakeNative.Runtime LakeNative.NumberedCode

/-! ## The actor's side -/

/-- What a spawn asks for: the machine's branch, the argument words and for each
whether it is a fat pointer to be copied to the spawned actor's arena. -/
structure SpawnRequest where
  machine : String
  branchId : Nat
  args : List (Word × Bool)

/-- The runtime as compiled code calls it. `W` is all that it works on: memory, the
scheduler and the other actors. -/
structure RtFuncs (W : Type) where
  load : W → Nat → Word → Word
  store : Word → Word → W → W
  isDying : W → Bool
  string : String → W → Word × W
  arenaAlloc : Word → W → Word × W
  call : String → List Word → W → Option Word × W
  /-- The pid is that of the running actor. -/
  isOwn : Word → W → Bool
  /-- Enqueue to another actor and wake the receiver. -/
  send : Word → List Word → W → W
  spawn : SpawnRequest → W → Word × W
  /-- Set the bump cursor of the running actor's arena back, if it owns one. -/
  resetArena : W → W
  /-- Save what the fat pointers point to, reset the arena and copy it back. -/
  recopy : List Word → W → List Word × W

/-- A runtime that changes nothing and whose memory reads as zero. -/
def RtFuncs.idle : RtFuncs Unit where
  load _ _ _ := 0
  store _ _ world := world
  isDying _ := false
  string _ world := (0, world)
  arenaAlloc _ world := (0, world)
  call _ _ world := (none, world)
  isOwn _ _ := false
  send _ _ world := world
  spawn _ world := (0, world)
  resetArena world := world
  recopy args world := (args, world)

/-- The fields of the running actor that compiled code works on, besides `BLOCK_ID`. -/
structure ExecCtx (W : Type) where
  actor : Actor
  jumpArgs : Nat → Word
  branchId : Nat
  world : W

variable {W : Type}

/-- The bytes between the two pointers of a fat pointer. -/
def RtFuncs.bytes (rt : RtFuncs W) (world : W) : Memory := fun fatPtr =>
  let start := rt.load world 64 fatPtr
  let stop := rt.load world 64 (fatPtr + 8)
  (List.range (stop - start).toNat).map fun index =>
    UInt8.ofNat (rt.load world 8 (start + BitVec.ofNat 64 index)).toNat

namespace ExecCtx

def view (rt : RtFuncs W) (ctx : ExecCtx W) : View where
  vars := ctx.actor.vars
  ownPid := ctx.actor.ownPid
  load bits addr := some (rt.load ctx.world bits addr)

def setTemp (ctx : ExecCtx W) (value : Word) : ExecCtx W :=
  { ctx with actor := { ctx.actor with tempVal := value } }

def setVar (ctx : ExecCtx W) (slot : Nat) (value : Word) : ExecCtx W :=
  { ctx with actor := { ctx.actor with vars := Function.update ctx.actor.vars slot value } }

/-- Write words to the first variables. -/
def setVars (ctx : ExecCtx W) (values : List Word) : ExecCtx W :=
  { ctx with actor := { ctx.actor with
      vars := fun slot => values[slot]?.getD (ctx.actor.vars slot) } }

def setJumpArg (ctx : ExecCtx W) (slot : Nat) (value : Word) : ExecCtx W :=
  { ctx with jumpArgs := Function.update ctx.jumpArgs slot value }

@[simp] theorem jumpArgs_setJumpArg (ctx : ExecCtx W) (slot : Nat) (value : Word) :
    (ctx.setJumpArg slot value).jumpArgs = Function.update ctx.jumpArgs slot value := rfl

/-- The staged words from `base` on. -/
def staged (ctx : ExecCtx W) (base count : Nat) : List Word :=
  (List.range count).map fun index => ctx.jumpArgs (base + index)

end ExecCtx

/-! ## Blocks -/

/-- How a block ends: with the next block's number passed to `quantum_continue`, as
stored before `STOP_WAIT` or before `STOP_PARK`; with block 0 of the branch in
`BRANCH_ID`; or in a trap. -/
inductive Exit where
  | goto (id : Nat)
  | wait (id : Nat)
  | park (id : Nat)
  | enter
  | trap
  deriving DecidableEq

def Exit.isPark : Exit → Bool
  | park _ => true
  | _ => false

/-- The `BLOCK_ID` with which the branch is entered again. -/
def Exit.resume : Exit → Option Nat
  | goto id | wait id | park id => some id
  | enter | trap => none

abbrev Block (W : Type) := ExecCtx W → ExecCtx W × Exit

/-- The entries of a branch's switch on `BLOCK_ID`. -/
abbrev Code (W : Type) := List (Nat × Block W)

/-- An actor in a branch. -/
structure Point (W : Type) where
  blockId : Nat
  ctx : ExecCtx W

/-- What the other actors and the kernel may change while this one does not run: not
its variables, staged arguments and place in its mailbox, and `TEMP_VAL` only of a parked
actor. -/
structure OthersRan (exit : Exit) (before after : ExecCtx W) : Prop where
  vars : after.actor.vars = before.actor.vars
  ownPid : after.actor.ownPid = before.actor.ownPid
  mailboxHead : after.actor.mailboxHead = before.actor.mailboxHead
  tempVal : exit.isPark = false → after.actor.tempVal = before.actor.tempVal
  jumpArgs : after.jumpArgs = before.jumpArgs
  branchId : after.branchId = before.branchId

theorem OthersRan.refl (exit : Exit) (ctx : ExecCtx W) : OthersRan exit ctx ctx :=
  ⟨rfl, rfl, rfl, fun _ => rfl, rfl, rfl⟩

theorem OthersRan.trans {exit other : Exit} {first second third : ExecCtx W}
    (ran : OthersRan exit first second) (ranAgain : OthersRan other second third)
    (notPark : exit.isPark = false → other.isPark = false) : OthersRan exit first third where
  vars := ranAgain.vars.trans ran.vars
  ownPid := ranAgain.ownPid.trans ran.ownPid
  mailboxHead := ranAgain.mailboxHead.trans ran.mailboxHead
  tempVal isNot := (ranAgain.tempVal (notPark isNot)).trans (ran.tempVal isNot)
  jumpArgs := ranAgain.jumpArgs.trans ran.jumpArgs
  branchId := ranAgain.branchId.trans ran.branchId

theorem OthersRan.setTemp {exit : Exit} {before after : ExecCtx W} (ran : OthersRan exit before after)
    (value : Word) : OthersRan exit (before.setTemp value) (after.setTemp value) where
  vars := ran.vars
  ownPid := ran.ownPid
  mailboxHead := ran.mailboxHead
  tempVal _ := rfl
  jumpArgs := ran.jumpArgs
  branchId := ran.branchId

/-- One block runs. Behind it the quantum may have expired: before the next one other
actors may run, and a dying actor is done. -/
inductive BlockRuns (rt : RtFuncs W) (block : Block W) : Point W → Exit → Point W → Prop where
  | block {id next : Nat} {ctx after resumed : ExecCtx W} {exit : Exit}
      (runs : block ctx = (after, exit))
      (alive : rt.isDying after.world = false)
      (resumes : exit.resume = some next)
      (others : OthersRan exit after resumed) :
      BlockRuns rt block ⟨id, ctx⟩ exit ⟨next, resumed⟩

/-- The branch's switch enters the block of the actor's `BLOCK_ID`. -/
abbrev BlockStep (rt : RtFuncs W) (code : Code W) : Point W → Exit → Point W → Prop :=
  CodeStep Point.blockId (BlockRuns rt) code

/-- A block whose folded values trap ends the program. -/
def orTrap (ctx : ExecCtx W) : Option (ExecCtx W × Exit) → ExecCtx W × Exit
  | some result => result
  | none => (ctx, .trap)

end LakeNative.Compiler

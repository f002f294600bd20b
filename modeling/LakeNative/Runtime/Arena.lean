import LakeNative.Library.Patches
import LakeNative.Runtime.FatPtr
import LakeNative.Compiler.Blocks

/-! # The arena of an actor

An actor carves its buffers off its arena, one behind the other. What a `self(...)` passes on is
saved outside, the cursor set back to the base, and the saved bytes copied into the arena anew.
-/

namespace LakeNative.Runtime

open LakeNative.Regions

namespace ByteMem

def word (mem : ByteMem) (addr : Nat) : Nat := (mem.loadBytes addr 8).1

def storeWord (mem : ByteMem) (addr value : Nat) : ByteMem := mem.storeLoop addr value 8

/-- Memory after some writes. -/
def overwrite (mem : ByteMem) (patches : List (Patch Nat)) : ByteMem :=
  { mem with bytes := Patch.layAll mem.bytes patches }

/-- The bytes from an address on. -/
def slice (mem : ByteMem) (first count : Nat) : List UInt8 :=
  (List.range count).map fun index => UInt8.ofNat (mem.bytes (first + index))

end ByteMem

/-- The two words of an arena's fat pointer and the base that its owner sets the cursor
back to. The base is zero where the arena is the caller's. -/
structure Arena where
  bump : Nat
  stop : Nat
  base : Nat
  deriving DecidableEq

/-- What a request is given: the address of the header, the bounds of the data and all that
belongs to the block. Besides the header `rt_allocate_raw` and `rt_free` may write to the
block, as to the links of free lists. -/
structure RawBlock where
  addr : Nat
  start : Nat
  stop : Nat
  space : Region
  written : List (Patch Nat)
  freed : List (Patch Nat)

/-- The memory as the running actor works on it, with the blocks that `rt_allocate_raw` will
give next. The program ends when an access is out of bounds or memory is used up. -/
structure ActorHeap where
  mem : ByteMem
  arena : Option Arena
  raw : List RawBlock
  trapped : Bool

/-- The payload is padded to whole words, behind a header of two. -/
def Arena.carve (arena : Arena) (size : Nat) : Option (Nat × Arena) :=
  let needed := iadd (alignDown (iadd size 7) 8) 16
  let newBump := iadd arena.bump needed
  if newBump ≤ arena.stop then some (arena.bump, { arena with bump := newBump }) else none

def Arena.reset (arena : Arena) : Arena :=
  if arena.base = 0 then arena else { arena with bump := arena.base }

/-- The fat pointer at an address, if it is that of a live one. -/
def fatPtrAt (mem : ByteMem) (addr : Nat) : Option FatPtr :=
  let start := mem.word addr
  let stop := mem.word (iadd addr 8)
  if live : start ≤ stop ∧ stop < 2 ^ 47 then some ⟨start, stop, live.1, live.2⟩ else none

namespace ActorHeap

/-- Write a header with the bounds of the data. -/
def writeHeader (heap : ActorHeap) (addr start stop : Nat) : ActorHeap :=
  { heap with mem := (heap.mem.storeWord addr start).storeWord (iadd addr 8) stop }

def allocateRaw (heap : ActorHeap) (size : Nat) : Nat × ActorHeap :=
  match heap.raw with
  | [] => (0, { heap with trapped := true })
  | block :: raw =>
      if block.start + size ≤ block.stop then
        (block.addr, { heap with raw := raw, mem := heap.mem.overwrite block.written }.writeHeader
          block.addr block.start block.stop)
      else
        (0, { heap with trapped := true })

/-- Without an arena, or when it is used up, the buffer is allocated outside. -/
def arenaAlloc (heap : ActorHeap) (size : Nat) : Nat × ActorHeap :=
  match heap.arena.bind (Arena.carve · size) with
  | some (bump, arena) =>
      (bump, { heap with arena := some arena }.writeHeader bump (iadd bump 16)
        (iadd (iadd bump 16) size))
  | none => heap.allocateRaw size

def resetArena (heap : ActorHeap) : ActorHeap := { heap with arena := heap.arena.map Arena.reset }

/-- What becomes of memory when a call returns or traps. -/
def ended (heap : ActorHeap) : Outcome → ActorHeap
  | .returned _ mem => { heap with mem := mem }
  | .trapped _ mem => { heap with mem := mem, trapped := true }

def storeThrough (heap : ActorHeap) (val size offset : Nat) : Option FatPtr → ActorHeap
  | some fatPtr => heap.ended (rtStore heap.mem fatPtr val size offset)
  | none => { heap with trapped := true }

def store (heap : ActorHeap) (addr val size offset : Nat) : ActorHeap :=
  heap.storeThrough val size offset (fatPtrAt heap.mem addr)

def copyBetween (heap : ActorHeap) (dstOff srcOff len : Nat) : Option FatPtr → Option FatPtr → ActorHeap
  | some dst, some src => heap.ended (rtCopyBytes heap.mem dst dstOff src srcOff len)
  | _, _ => { heap with trapped := true }

def copyBytes (heap : ActorHeap) (dstFat dstOff srcFat srcOff len : Nat) : ActorHeap :=
  heap.copyBetween dstOff srcOff len (fatPtrAt heap.mem dstFat) (fatPtrAt heap.mem srcFat)

/-- The length that the header at an address gives. -/
def sizeAt (heap : ActorHeap) (addr : Nat) : Nat :=
  isub (heap.mem.word (iadd addr 8)) (heap.mem.word addr)

/-- A loop over arguments: the offset in the scratch buffer and the copies made so far. -/
structure Pass where
  cursor : Nat
  heap : ActorHeap
  copies : List Nat

/-- Save an argument's bytes, given with their number, behind the others in the scratch buffer. -/
def saveArg (scratch : Nat) (pass : Pass) (arg : Nat × Nat) : Pass :=
  { pass with
    cursor := iadd pass.cursor arg.2
    heap := pass.heap.copyBytes scratch pass.cursor arg.1 0 arg.2 }

/-- Copy the next bytes of the scratch buffer into a new buffer of the arena. -/
def restoreArg (scratch : Nat) (pass : Pass) (size : Nat) : Pass where
  cursor := iadd pass.cursor size
  heap := (pass.heap.arenaAlloc size).2.copyBytes (pass.heap.arenaAlloc size).1 0 scratch pass.cursor size
  copies := pass.copies ++ [(pass.heap.arenaAlloc size).1]

/-- Save the arguments' bytes, reset the arena, copy them back and free the scratch buffer. -/
def recopy (heap : ActorHeap) (args : List Nat) : List Nat × ActorHeap :=
  let sizes := args.map heap.sizeAt
  let freed := (heap.raw.head?.map RawBlock.freed).getD []
  let (scratch, heap) := heap.allocateRaw (sizes.foldl iadd 0)
  let saved := (args.zip sizes).foldl (saveArg scratch) ⟨0, heap, []⟩
  let restored := sizes.foldl (restoreArg scratch) ⟨0, saved.heap.resetArena, []⟩
  (restored.copies, { restored.heap with mem := restored.heap.mem.overwrite freed })

end ActorHeap

open LakeNative.Compiler in
/-- A runtime whose memory and arena are those of the running actor. -/
def arenaRt (others : RtFuncs ActorHeap) : RtFuncs ActorHeap :=
  { others with
    load := fun heap width addr => BitVec.ofNat 64 (heap.mem.loadBytes addr.toNat (width / 8)).1
    arenaAlloc := fun size heap =>
      let (addr, heap) := heap.arenaAlloc size.toNat
      (BitVec.ofNat 64 addr, heap)
    resetArena := ActorHeap.resetArena
    recopy := fun args heap =>
      let (copies, heap) := heap.recopy (args.map BitVec.toNat)
      (copies.map (BitVec.ofNat 64), heap) }

end LakeNative.Runtime

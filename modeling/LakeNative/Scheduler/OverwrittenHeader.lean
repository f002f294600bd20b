import LakeNative.Runtime.BucketAllocator
import LakeNative.Scheduler.Capacity

/-! # The word behind `process_arr`

`init` allocates `process_arr` and then `wait_arr`, and the allocator puts a fat pointer in
front of each payload. So a store past the first `process_arr` changes where `wait_arr` starts.
-/

namespace LakeNative.Scheduler

open LakeNative.Runtime LakeNative.Transitions

/-! ## Two buffers in a row -/

section Layout

variable {heap first second : Heap} {size processFat waitFat mmapAddr waitAddr : Nat}

/-- A chunk that its request fills starts 16 bytes behind its fat pointer, and the next one is
carved right behind it. -/
theorem carved_full (aligned : heap.heapCurr % 16 = 0) (low : heap.heapCurr < 2 ^ 47)
    (small : sizeClass size ≤ MAX_CLASS) (full : classSize (sizeClass size) = size)
    (noFree : heap.freeListHeads (sizeClass size) = 0)
    (allocates : heap.allocateRaw size mmapAddr = some (processFat, first)) :
    processFat = heap.heapCurr ∧ first.load processFat = heap.heapCurr + 16 ∧
      first.heapCurr = heap.heapCurr + 16 + size ∧
      first.freeListHeads = heap.freeListHeads := by
  have bounded := classSize_le small
  have user : iadd heap.heapCurr 16 = heap.heapCurr + 16 := iadd_eq (by omega)
  have payload : alignDown (iadd (heap.heapCurr + 16) 15) 16 = heap.heapCurr + 16 := by
    rw [iadd_eq (by omega), alignDown]
    omega
  have stop : iadd (heap.heapCurr + 16) size = heap.heapCurr + 16 + size :=
    iadd_eq (by omega)
  rw [Heap.allocateRaw, if_pos small, if_neg (by simp [noFree])] at allocates
  simp only [Heap.bumpBlock, user, payload, full, stop, Option.ite_none_right_eq_some,
    Option.some.injEq, Prod.mk.injEq] at allocates
  rcases allocates with ⟨-, rfl, rfl⟩
  refine ⟨rfl, ?_, rfl, rfl⟩
  simp [Heap.load]

/-- A small request leaves the words in front of the heap's end alone. -/
theorem load_allocateRaw {addr : Nat} (aligned : heap.heapCurr % 16 = 0)
    (below : addr < heap.heapCurr) (small : sizeClass size ≤ MAX_CLASS)
    (noFree : heap.freeListHeads (sizeClass size) = 0)
    (allocates : heap.allocateRaw size mmapAddr = some (processFat, first)) :
    first.load addr = heap.load addr := by
  rw [Heap.allocateRaw, if_pos small, if_neg (by simp [noFree])] at allocates
  simp only [Heap.bumpBlock, Option.ite_none_right_eq_some, Option.some.injEq,
    Prod.mk.injEq] at allocates
  rcases allocates with ⟨-, rfl, rfl⟩
  simp only [Heap.load, Heap.words_store]
  rw [Function.update_of_ne (by omega), Function.update_of_ne (by omega)]

theorem sizeClass_queue : sizeClass (INITIAL_QUEUE_CAP * 8) = 11 := by
  apply Nat.le_antisymm
  · exact (sizeClass_le_iff (by decide) 11).mpr (by decide)
  · apply Nat.lt_of_not_le
    rw [sizeClass_le_iff (by decide) 10]
    decide

/-- On the heap that `init` finds, entry 4096 of `process_arr` is the start word of `wait_arr`'s
fat pointer. -/
theorem header_behind_processArr (aligned : heap.heapCurr % 16 = 0)
    (low : heap.heapCurr < 2 ^ 46) (noFree : heap.freeListHeads 11 = 0)
    (processArr : heap.allocateRaw (INITIAL_QUEUE_CAP * 8) mmapAddr = some (processFat, first))
    (waitArr : first.allocateRaw (INITIAL_QUEUE_CAP * 8) waitAddr = some (waitFat, second)) :
    second.load processFat + 8 * INITIAL_QUEUE_CAP = waitFat := by
  have small : sizeClass (INITIAL_QUEUE_CAP * 8) ≤ MAX_CLASS := by
    rw [sizeClass_queue]
    decide
  have full : classSize (sizeClass (INITIAL_QUEUE_CAP * 8)) = INITIAL_QUEUE_CAP * 8 := by
    rw [sizeClass_queue]
    decide
  rw [← sizeClass_queue] at noFree
  have bytes : INITIAL_QUEUE_CAP * 8 = 32768 := rfl
  rcases carved_full aligned (by omega) small full noFree processArr with
    ⟨isFat, start, next, heads⟩
  rw [← heads] at noFree
  rcases carved_full (by omega) (by omega) small full noFree waitArr with ⟨isNext, -⟩
  rw [load_allocateRaw (by omega) (by omega) small noFree waitArr, start, isNext]
  omega

end Layout

/-- What a store past its array has changed. -/
inductive Behind where
  | nothing
  /-- The start word of `wait_arr`'s fat pointer, which is read as this word now. -/
  | waitStart (word : Word)
  /-- Memory that is not followed here. -/
  | elsewhere
  deriving DecidableEq

/-- What the first stores past an array have changed. The buffers `init` allocated lie side by
side; what is behind a grown one depends on the allocations in between. -/
def behind (ctx : ShedulerCtx) : Behind :=
  let others := ctx.waitArr.overrun || ctx.ioParked.overrun || ctx.pids.pidTable.overrun ||
    ctx.pids.freeSlots.overrun
  if ctx.processArr.overrun = false ∧ others = false then
    .nothing
  else if others = false ∧ ctx.processArr.cap = INITIAL_QUEUE_CAP ∧
      ctx.waitArr.cap = INITIAL_QUEUE_CAP then
    .waitStart (ctx.processArr.entry INITIAL_QUEUE_CAP)
  else
    .elsewhere

/-- The system together with what is behind its arrays. -/
structure HeapSystem where
  system : System
  behind : Behind

namespace HeapSystem

def start (main : Word) (memory : Word → Actor) : HeapSystem where
  system := .start main memory
  behind := .nothing

end HeapSystem

/-- `ProcessCtxLayout::SIZE` -/
def PROCESS_CTX_SIZE : Word := 40

/-- The words from the address of a process context on: its fat pointer, then its fields. -/
structure BlockAt (address : Word) (word : Nat → Word) : Prop where
  start : word 0 = address + 16
  stop : word 1 = address + 16 + PROCESS_CTX_SIZE

/-- Calls that neither move an actor nor touch `wait_arr`. -/
def KeepsArrays : Event → Prop
  | .dispatch | .dequeue .. | .submit | .yield => True
  | _ => False

/-- The steps of the system with the memory behind its arrays. Once `wait_arr` starts at a
woken actor's context, `wake_process` scans that block; the steps that would move entries
through the overwritten word are not followed. -/
inductive HeapStep : HeapSystem → Event → HeapSystem → Prop
  | inside {system next : System} {event : Event} :
      Step system event next →
      HeapStep ⟨system, .nothing⟩ event ⟨next, Scheduler.behind next.ctx⟩
  | kept {system next : System} {event : Event} {start : Word} :
      Step system event next →
      KeepsArrays event →
      HeapStep ⟨system, .waitStart start⟩ event ⟨next, .waitStart start⟩
  | unwoken {system : System} {start : Word} (pid : Word) (message : List Word)
      (fresh word : Nat → Word) :
      system.running = true →
      (slotOf pid).toNat < system.ctx.pids.pidTableLen.toNat →
      BlockAt start word →
      ShedulerCtx.scanWaitArr { system.ctx.waitArr with entry := word } pid 0
        system.ctx.lastWaitedProcessIndex.toInt.toNat = none →
      HeapStep ⟨system, .waitStart start⟩ (.send pid message fresh)
        ⟨{ system.send pid message fresh with ctx := system.ctx }, .waitStart start⟩

/-! ## Runs that have room -/

/-- No store of the run so far went past its array. -/
structure Inside (state : HeapSystem) : Prop where
  nothing : state.behind = .nothing
  supported : Supported state.system
  inBounds : InBounds state.system.ctx

/-- There is room for a step in the sense of the arrays alone. -/
def HeapHasRoom (state : HeapSystem) (event : Event) : Prop := HasRoom state.system event

theorem behind_of_inBounds {ctx : ShedulerCtx} (inBounds : InBounds ctx) :
    behind ctx = .nothing := by
  simp [behind, inBounds.processArr, inBounds.waitArr, inBounds.ioParked, inBounds.pidTable,
    inBounds.freeSlots]

theorem start_inside {main : Word} (memory : Word → Actor) (real : main ≠ 0) :
    Inside (.start main memory) where
  nothing := rfl
  supported := ⟨System.start_sound main memory real, start_roomy main memory⟩
  inBounds := start_inBounds main memory

/-- A step with room is one of the system, and stays inside. -/
theorem Inside.step {state next : HeapSystem} {event : Event} (inside : Inside state)
    (room : HeapHasRoom state event) (step : HeapStep state event next) :
    Step state.system event next.system ∧ Inside next := by
  have nothing := inside.nothing
  cases step with
  | inside taken =>
      have bounds := step_bounds inside.supported inside.inBounds taken
      have inBounds := bounds.1.mpr room
      exact ⟨taken, behind_of_inBounds inBounds, ⟨taken.sound inside.supported.sound,
        bounds.2 room⟩, inBounds⟩
  | kept => cases nothing
  | unwoken => cases nothing

/-- A run of the system with room is one with the memory behind the arrays. -/
theorem heapRun_of_room {main : Word} {memory : Word → Actor}
    {history : List (Stage System Event)} {final : System} (real : main ≠ 0)
    (run : Run Step (System.start main memory) history final) (room : Meets HasRoom history) :
    Run HeapStep (.start main memory)
        (history.map fun stage => ⟨⟨stage.state, .nothing⟩, stage.label⟩) ⟨final, .nothing⟩ ∧
      Inside ⟨final, .nothing⟩ := by
  induction run with
  | refl => exact ⟨.refl, start_inside memory real⟩
  | next _ taken induction =>
      rcases meets_cons.mp room with ⟨fits, earlier⟩
      rcases induction earlier with ⟨reached, inside⟩
      have bounds := step_bounds inside.supported inside.inBounds taken
      have inBounds := bounds.1.mpr fits
      have next := HeapStep.inside taken
      rw [behind_of_inBounds inBounds] at next
      exact ⟨reached.next next, rfl, ⟨taken.sound inside.supported.sound, bounds.2 fits⟩,
        inBounds⟩

end LakeNative.Scheduler

import LakeNative.Runtime.ShedulerCtx

/-! # The queues behind the scheduler context

What the arrays and counters of a coherent context stand for: the runnable
actors with the scheduler's cursor, the pids of the waiting actors and the actors
parked on I/O. Each operation of the context is an operation on these queues.
-/

namespace LakeNative.Runtime

open LakeNative.DenseArray

structure Queues where
  runnable : List Word
  cursor : Nat
  waiting : List Word
  parked : List Word

namespace Queues

def enqueue (queues : Queues) (actor : Word) : Queues :=
  { queues with runnable := queues.runnable ++ [actor] }

/-- Round robin: the next position, or the first one behind the last. -/
def advance (queues : Queues) : Queues :=
  { queues with
    cursor := if queues.cursor + 1 < queues.runnable.length then queues.cursor + 1 else 0 }

/-- Take the current actor out; the last one fills its place. -/
def removeCurrent (queues : Queues) : Queues :=
  { queues with
    runnable := swapPop queues.runnable queues.cursor
    cursor := if queues.cursor + 1 = queues.runnable.length then 0 else queues.cursor }

def suspend (queues : Queues) (pid : Word) : Queues :=
  { queues with waiting := queues.waiting ++ [pid] }

def resume (queues : Queues) (position : Nat) : Queues :=
  { queues with waiting := swapPop queues.waiting position }

/-- Take the current actor out and start over from the first one. -/
def park (queues : Queues) (actor : Word) : Queues :=
  { queues with
    runnable := swapPop queues.runnable queues.cursor
    cursor := 0
    parked := queues.parked ++ [actor] }

def unpark (queues : Queues) (position : Nat) (actor : Word) : Queues :=
  { queues with
    runnable := queues.runnable ++ [actor]
    parked := swapPop queues.parked position }

end Queues

namespace ShedulerCtx

def queues (ctx : ShedulerCtx) : Queues where
  runnable := ctx.processArr.slice 0 ctx.realCountOfProcesses.toNat
  cursor := ctx.currentProcess.toNat
  waiting := ctx.waitArr.slice 1 ctx.lastWaitedProcessIndex.toNat
  parked := ctx.ioParked.slice 0 ctx.ioParkedCount.toNat

/-- The counters agree with each other. `LAST_PROCESS_INDEX` is `-1` when
`process_arr` is empty. -/
structure Coherent (ctx : ShedulerCtx) : Prop where
  last : ctx.lastProcessIndex + 1 = ctx.realCountOfProcesses
  cursorIn : ctx.realCountOfProcesses ≠ 0 →
    ctx.currentProcess.toNat < ctx.realCountOfProcesses.toNat
  cursorReset : ctx.realCountOfProcesses = 0 → ctx.currentProcess = 0
  waited : ctx.waitedProcessCount = ctx.lastWaitedProcessIndex
  unusedEntry : ctx.waitArr.entry 0 = 0

/-- The three arrays hold fewer actors than the pid table can number. -/
structure Small (ctx : ShedulerCtx) : Prop where
  runnable : ctx.realCountOfProcesses.toNat < 2 ^ 32
  waiting : ctx.lastWaitedProcessIndex.toNat < 2 ^ 32
  parked : ctx.ioParkedCount.toNat < 2 ^ 32

@[simp] theorem length_runnable (ctx : ShedulerCtx) :
    ctx.queues.runnable.length = ctx.realCountOfProcesses.toNat :=
  HeapArray.length_slice _ _ _

@[simp] theorem length_waiting (ctx : ShedulerCtx) :
    ctx.queues.waiting.length = ctx.lastWaitedProcessIndex.toNat :=
  HeapArray.length_slice _ _ _

@[simp] theorem length_parked (ctx : ShedulerCtx) :
    ctx.queues.parked.length = ctx.ioParkedCount.toNat :=
  HeapArray.length_slice _ _ _

namespace Coherent

variable {ctx : ShedulerCtx}

theorem last_toNat (coherent : ctx.Coherent) (nonempty : ctx.realCountOfProcesses ≠ 0) :
    ctx.lastProcessIndex.toNat + 1 = ctx.realCountOfProcesses.toNat := by
  have last := coherent.last
  bv_omega

theorem cursor_lt (coherent : ctx.Coherent) (nonempty : ctx.realCountOfProcesses ≠ 0) :
    ctx.queues.cursor < ctx.queues.runnable.length := by
  rw [length_runnable]
  exact coherent.cursorIn nonempty

/-! ## Spawning and yielding -/

theorem newProcess_coherent (coherent : ctx.Coherent) (small : ctx.Small)
    (processCtx : Word) (fresh : Nat → Word) :
    (ctx.newProcess processCtx fresh).Coherent where
  last := congrArg (· + 1) coherent.last
  cursorIn := by
    intro _
    have room := small.runnable
    have inside := coherent.cursorIn
    have reset := coherent.cursorReset
    simp only [ShedulerCtx.newProcess]
    rw [toNat_succ _ (by omega)]
    by_cases empty : ctx.realCountOfProcesses = 0
    · simp [reset empty]
    · have := inside empty
      omega
  cursorReset := by
    intro empty
    have room := small.runnable
    simp only [ShedulerCtx.newProcess] at empty
    bv_omega
  waited := coherent.waited
  unusedEntry := coherent.unusedEntry

theorem queues_newProcess (coherent : ctx.Coherent) (small : ctx.Small)
    (processCtx : Word) (fresh : Nat → Word) :
    (ctx.newProcess processCtx fresh).queues = ctx.queues.enqueue processCtx := by
  have room := small.runnable
  have last := coherent.last
  have behind : (ctx.lastProcessIndex + 1).toNat =
      0 + ctx.realCountOfProcesses.toNat := by
    rw [last]
    omega
  simp only [queues, ShedulerCtx.newProcess, Queues.enqueue]
  rw [toNat_succ _ (by omega), HeapArray.slice_store_append _ _ _ behind,
    HeapArray.slice_grow _ _ _ (by omega)]

theorem nextProcess_coherent (coherent : ctx.Coherent)
    (nonempty : ctx.realCountOfProcesses ≠ 0) : ctx.nextProcess.Coherent where
  last := coherent.last
  cursorIn := by
    intro _
    have last := coherent.last_toNat nonempty
    have inside := coherent.cursorIn nonempty
    simp only [ShedulerCtx.nextProcess]
    split <;> bv_omega
  cursorReset := fun empty => absurd empty nonempty
  waited := coherent.waited
  unusedEntry := coherent.unusedEntry

theorem queues_nextProcess (coherent : ctx.Coherent)
    (nonempty : ctx.realCountOfProcesses ≠ 0) :
    ctx.nextProcess.queues = ctx.queues.advance := by
  have last := coherent.last_toNat nonempty
  have inside := coherent.cursorIn nonempty
  simp only [queues, ShedulerCtx.nextProcess, Queues.advance, HeapArray.length_slice]
  congr 1
  split <;> split <;> bv_omega

/-! ## Removing the current actor -/

/-- The array after the current entry was overwritten by the last one. -/
theorem slice_swapPop (coherent : ctx.Coherent)
    (nonempty : ctx.realCountOfProcesses ≠ 0) :
    (ctx.processArr.store ctx.currentProcess
        (ctx.processArr.load ctx.lastProcessIndex)).slice 0
        (ctx.realCountOfProcesses - 1).toNat =
      swapPop ctx.queues.runnable ctx.queues.cursor := by
  have last := coherent.last_toNat nonempty
  rw [toNat_pred nonempty]
  simp only [queues]
  rw [← last, Nat.add_sub_cancel]
  exact HeapArray.slice_store_last _ _ _ (by omega) (by omega)

theorem removeCurrentProcess_coherent (coherent : ctx.Coherent)
    (nonempty : ctx.realCountOfProcesses ≠ 0) :
    ctx.removeCurrentProcess.Coherent where
  last := by
    have last := coherent.last
    simp only [ShedulerCtx.removeCurrentProcess]
    bv_omega
  cursorIn := by
    intro remaining
    have last := coherent.last_toNat nonempty
    have inside := coherent.cursorIn nonempty
    simp only [ShedulerCtx.removeCurrentProcess] at remaining ⊢
    split <;> bv_omega
  cursorReset := by
    intro empty
    have last := coherent.last_toNat nonempty
    have inside := coherent.cursorIn nonempty
    simp only [ShedulerCtx.removeCurrentProcess] at empty ⊢
    split <;> bv_omega
  waited := coherent.waited
  unusedEntry := coherent.unusedEntry

theorem queues_removeCurrentProcess (coherent : ctx.Coherent)
    (nonempty : ctx.realCountOfProcesses ≠ 0) :
    ctx.removeCurrentProcess.queues = ctx.queues.removeCurrent := by
  have last := coherent.last_toNat nonempty
  have inside := coherent.cursorIn nonempty
  have swapped := coherent.slice_swapPop nonempty
  have lastBehind : 0 + (ctx.realCountOfProcesses - 1).toNat ≤
      ctx.lastProcessIndex.toNat := by
    rw [toNat_pred nonempty]
    omega
  simp only [ShedulerCtx.removeCurrentProcess, Queues.removeCurrent]
  rw [← swapped]
  simp only [queues, HeapArray.length_slice]
  rw [HeapArray.slice_store_of_le _ _ _ lastBehind]
  congr 1
  split <;> split <;> bv_omega

/-! ## Waiting and waking -/

theorem waitCurrentProcess_coherent (coherent : ctx.Coherent) (small : ctx.Small)
    (ownPid : Word) (fresh : Nat → Word) :
    (ctx.waitCurrentProcess ownPid fresh).Coherent where
  last := coherent.last
  cursorIn := coherent.cursorIn
  cursorReset := coherent.cursorReset
  waited := congrArg (· + 1) coherent.waited
  unusedEntry := by
    have room := small.waiting
    have succ := toNat_succ ctx.lastWaitedProcessIndex (by omega)
    simp only [ShedulerCtx.waitCurrentProcess, HeapArray.store_entry]
    rw [Function.update_of_ne (by omega), HeapArray.grow_entry_of_lt _ _ _ (by omega)]
    exact coherent.unusedEntry

theorem queues_waitCurrentProcess (small : ctx.Small) (ownPid : Word)
    (fresh : Nat → Word) :
    (ctx.waitCurrentProcess ownPid fresh).queues = ctx.queues.suspend ownPid := by
  have room := small.waiting
  have succ := toNat_succ ctx.lastWaitedProcessIndex (by omega)
  simp only [queues, ShedulerCtx.waitCurrentProcess, Queues.suspend]
  rw [succ, HeapArray.slice_store_append _ _ _ (by omega),
    HeapArray.slice_grow _ _ _ (by omega)]

end Coherent

/-! The scan visits the indices in order and stops at the first match. -/

theorem scanWaitArr_some {waitArr : HeapArray Word} {pid i foundI : Word} {left : Nat}
    (noWrap : i.toNat + left < 2 ^ 64)
    (found : scanWaitArr waitArr pid i left = some foundI) :
    i.toNat ≤ foundI.toNat ∧ foundI.toNat ≤ i.toNat + left ∧
      waitArr.load foundI = pid := by
  induction left generalizing i with
  | zero =>
      simp only [scanWaitArr, Option.ite_none_right_eq_some, Option.some.injEq] at found
      rcases found with ⟨matched, rfl⟩
      exact ⟨Nat.le_refl _, Nat.le_refl _, matched⟩
  | succ left induction =>
      have succ := toNat_succ i (by omega)
      rw [scanWaitArr] at found
      split at found
      · rename_i matched
        rcases Option.some.inj found with rfl
        exact ⟨Nat.le_refl _, Nat.le_add_right _ _, matched⟩
      · rcases induction (by omega) found with ⟨lower, upper, matched⟩
        exact ⟨by omega, by omega, matched⟩

theorem scanWaitArr_none {waitArr : HeapArray Word} {pid i : Word} {left : Nat}
    (noWrap : i.toNat + left < 2 ^ 64)
    (absent : scanWaitArr waitArr pid i left = none) :
    ∀ index, i.toNat ≤ index → index ≤ i.toNat + left → waitArr.entry index ≠ pid := by
  induction left generalizing i with
  | zero =>
      intro index lower upper
      have same : index = i.toNat := by omega
      simp only [scanWaitArr, ite_eq_right_iff, reduceCtorEq, imp_false] at absent
      rwa [same]
  | succ left induction =>
      intro index lower upper
      have succ := toNat_succ i (by omega)
      rw [scanWaitArr] at absent
      split at absent
      · cases absent
      · rename_i different
        by_cases same : index = i.toNat
        · rwa [same]
        · exact induction (by omega) absent index (by omega) (by omega)

section

variable {ctx : ShedulerCtx}

theorem getElem_waiting {position : Nat} (inRange : position < ctx.queues.waiting.length) :
    ctx.queues.waiting[position] = ctx.waitArr.entry (1 + position) :=
  getElem_cellsFrom _ _ _ _ _

theorem wakeFound_eq (pid foundI : Word) (fresh : Nat → Word) :
    ctx.wakeFound pid foundI fresh =
      if ctx.pids.lookupProcCtx pid = 0 then ctx.removedFromWait foundI
      else (ctx.removedFromWait foundI).newProcess (ctx.pids.lookupProcCtx pid) fresh := rfl

theorem getElem?_parked_last (nonempty : ctx.ioParkedCount ≠ 0) :
    ctx.queues.parked[ctx.queues.parked.length - 1]? =
      some (ctx.ioParked.load (ctx.ioParkedCount - 1)) := by
  have positive := toNat_ne_zero nonempty
  have inRange : ctx.queues.parked.length - 1 < ctx.queues.parked.length := by
    rw [length_parked]
    omega
  rw [List.getElem?_eq_getElem inRange, HeapArray.load, toNat_pred nonempty]
  simp [queues, HeapArray.slice]

/-- The context after a completion for a parked actor. -/
theorem emitWakeByUserData_of_ne_zero (actors : Word → Actor) {userData : Word}
    (res : BitVec 32) (real : userData ≠ 0) :
    (ctx.emitWakeByUserData actors userData res).1 =
      { ctx with
        ioParked := ctx.ioParked.store (actors userData).ioParkedIdx
          (ctx.ioParked.load (ctx.ioParkedCount - 1))
        ioParkedCount := ctx.ioParkedCount - 1
        processArr := ctx.processArr.store (ctx.lastProcessIndex + 1) userData
        lastProcessIndex := ctx.lastProcessIndex + 1
        realCountOfProcesses := ctx.realCountOfProcesses + 1 } := by
  rw [ShedulerCtx.emitWakeByUserData, if_neg real]

end

theorem Small.removedFromWait {ctx : ShedulerCtx} (small : ctx.Small) {position : Nat}
    (inRange : position < ctx.queues.waiting.length) (foundI : Word) :
    (ctx.removedFromWait foundI).Small := by
  rw [length_waiting] at inRange
  have waiting := small.waiting
  refine ⟨small.runnable, ?_, small.parked⟩
  change (ctx.lastWaitedProcessIndex - 1).toNat < 2 ^ 32
  bv_omega

namespace Coherent

variable {ctx : ShedulerCtx}

/-- `wake_process` finds the pid exactly when it waits. -/
theorem wakeProcess_cases (coherent : ctx.Coherent) (small : ctx.Small) {pid : Word}
    (real : pid ≠ 0) (fresh : Nat → Word) :
    (pid ∉ ctx.queues.waiting ∧ ctx.wakeProcess pid fresh = ctx) ∨
      ∃ (position : Nat) (inRange : position < ctx.queues.waiting.length) (foundI : Word),
        ctx.queues.waiting[position] = pid ∧ foundI.toNat = 1 + position ∧
          ctx.wakeProcess pid fresh = ctx.wakeFound pid foundI fresh := by
  have room := small.waiting
  have notSkipped : ctx.lastWaitedProcessIndex + 1 ≠ 0 := by bv_omega
  have steps : ctx.lastWaitedProcessIndex.toInt.toNat =
      ctx.lastWaitedProcessIndex.toNat := by
    rw [BitVec.toInt_eq_toNat_of_lt (by omega)]
    rfl
  have unused := coherent.unusedEntry
  simp only [ShedulerCtx.wakeProcess, notSkipped, if_false, steps]
  split
  · rename_i absent
    left
    refine ⟨?_, rfl⟩
    intro member
    rcases mem_cellsFrom.mp member with ⟨position, inRange, same⟩
    exact scanWaitArr_none (by simp; omega) absent (1 + position) (by simp)
      (by simp; omega) same
  · rename_i foundI found
    right
    rcases scanWaitArr_some (by simp; omega) found with ⟨-, upper, matched⟩
    have start : (0 : Word).toNat = 0 := rfl
    rw [start, Nat.zero_add] at upper
    have positive : foundI.toNat ≠ 0 := by
      intro zero
      rw [HeapArray.load, zero, unused] at matched
      exact real matched.symm
    have inRange : foundI.toNat - 1 < ctx.queues.waiting.length := by
      rw [length_waiting]
      omega
    refine ⟨foundI.toNat - 1, inRange, foundI, ?_, by omega, rfl⟩
    rw [getElem_waiting inRange, Nat.add_sub_cancel' (by omega)]
    exact matched

theorem removedFromWait_coherent (coherent : ctx.Coherent) {position : Nat}
    {foundI : Word} (inRange : position < ctx.queues.waiting.length)
    (atFound : foundI.toNat = 1 + position) : (ctx.removedFromWait foundI).Coherent where
  last := coherent.last
  cursorIn := coherent.cursorIn
  cursorReset := coherent.cursorReset
  waited := congrArg (· - 1) coherent.waited
  unusedEntry := by
    rw [length_waiting] at inRange
    simp only [removedFromWait, HeapArray.store_entry]
    rw [Function.update_of_ne (by omega), Function.update_of_ne (by omega)]
    exact coherent.unusedEntry

theorem queues_removedFromWait {position : Nat} {foundI : Word}
    (inRange : position < ctx.queues.waiting.length)
    (atFound : foundI.toNat = 1 + position) :
    (ctx.removedFromWait foundI).queues = ctx.queues.resume position := by
  rw [length_waiting] at inRange
  have nonzero : ctx.lastWaitedProcessIndex ≠ 0 := by bv_omega
  have lowered := toNat_pred nonzero
  obtain ⟨count, countEq⟩ : ∃ count, ctx.lastWaitedProcessIndex.toNat = count + 1 :=
    ⟨ctx.lastWaitedProcessIndex.toNat - 1, by omega⟩
  simp only [queues, removedFromWait, Queues.resume]
  rw [HeapArray.slice_store_of_le _ _ _ (by omega), lowered, countEq, Nat.add_sub_cancel,
    HeapArray.slice_store_last _ _ _ atFound (by omega)]

/-! ## Parking and unparking -/

theorem getElem?_runnable_cursor (coherent : ctx.Coherent)
    (nonempty : ctx.realCountOfProcesses ≠ 0) :
    ctx.queues.runnable[ctx.queues.cursor]? = some ctx.getCurrentProcess := by
  have inside := coherent.cursor_lt nonempty
  rw [List.getElem?_eq_getElem inside]
  simp [queues, HeapArray.slice, ShedulerCtx.getCurrentProcess, HeapArray.load]

theorem parkCurrent_coherent (coherent : ctx.Coherent) (actors : Word → Actor) :
    (ctx.parkCurrent actors).1.Coherent where
  last := by
    have last := coherent.last
    simp only [ShedulerCtx.parkCurrent]
    bv_omega
  cursorIn := by
    intro remaining
    simp only [ShedulerCtx.parkCurrent] at remaining ⊢
    bv_omega
  cursorReset := fun _ => rfl
  waited := coherent.waited
  unusedEntry := coherent.unusedEntry

theorem queues_parkCurrent (coherent : ctx.Coherent) (small : ctx.Small)
    (actors : Word → Actor) (nonempty : ctx.realCountOfProcesses ≠ 0) :
    (ctx.parkCurrent actors).1.queues = ctx.queues.park ctx.getCurrentProcess := by
  have room := small.parked
  have swapped := coherent.slice_swapPop nonempty
  simp only [ShedulerCtx.parkCurrent, Queues.park]
  rw [← swapped]
  simp only [queues]
  rw [toNat_succ _ (by omega), HeapArray.slice_store_append _ _ _ (by omega)]
  rfl

theorem emitWakeByUserData_coherent (coherent : ctx.Coherent) (small : ctx.Small)
    (actors : Word → Actor) (userData : Word) (res : BitVec 32) :
    (ctx.emitWakeByUserData actors userData res).1.Coherent := by
  by_cases real : userData = 0
  · simpa [ShedulerCtx.emitWakeByUserData, real] using coherent
  · have appended := coherent.newProcess_coherent small userData fun _ => 0
    rw [emitWakeByUserData_of_ne_zero actors res real]
    exact {
      last := appended.last
      cursorIn := appended.cursorIn
      cursorReset := appended.cursorReset
      waited := coherent.waited
      unusedEntry := coherent.unusedEntry }

theorem queues_emitWakeByUserData (coherent : ctx.Coherent) (small : ctx.Small)
    (actors : Word → Actor) {userData : Word} (res : BitVec 32) (real : userData ≠ 0)
    (inRange : (actors userData).ioParkedIdx.toNat < ctx.queues.parked.length) :
    (ctx.emitWakeByUserData actors userData res).1.queues =
      ctx.queues.unpark (actors userData).ioParkedIdx.toNat userData := by
  have room := small.runnable
  have last := coherent.last
  rw [length_parked] at inRange
  have nonzero : ctx.ioParkedCount ≠ 0 := by bv_omega
  have lowered := toNat_pred nonzero
  obtain ⟨count, countEq⟩ : ∃ count, ctx.ioParkedCount.toNat = count + 1 :=
    ⟨ctx.ioParkedCount.toNat - 1, by omega⟩
  have behind : (ctx.lastProcessIndex + 1).toNat =
      0 + ctx.realCountOfProcesses.toNat := by
    rw [last]
    omega
  rw [emitWakeByUserData_of_ne_zero actors res real]
  simp only [queues, Queues.unpark]
  rw [toNat_succ _ (by omega), HeapArray.slice_store_append _ _ _ behind, countEq,
    lowered, countEq, Nat.add_sub_cancel,
    HeapArray.slice_store_last _ _ _ (Nat.zero_add _).symm (by omega)]

end Coherent

end ShedulerCtx

end LakeNative.Runtime

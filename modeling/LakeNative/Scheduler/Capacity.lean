import LakeNative.Runtime.SystemInvariant

/-! # Stores into the scheduler's arrays

`new_process`, `wait_current_process`, `assign_pid` and `clear_pid` grow their
array before they store. `emit_wake_by_user_data` and `rt_io_park_current` do not;
this file shows that these two decide whether every store stays inside.
-/

namespace LakeNative.Scheduler

open LakeNative.Runtime LakeNative.Transitions

/-- No store has gone past the entries allocated for its array. -/
structure InBounds (ctx : ShedulerCtx) : Prop where
  processArr : ctx.processArr.overrun = false
  waitArr : ctx.waitArr.overrun = false
  ioParked : ctx.ioParked.overrun = false
  pidTable : ctx.pids.pidTable.overrun = false
  freeSlots : ctx.pids.freeSlots.overrun = false

/-- The arrays have an entry for everything they hold. -/
structure Roomy (ctx : ShedulerCtx) : Prop where
  processArr : ctx.realCountOfProcesses.toNat ≤ ctx.processArr.cap
  processArrCap : 0 < ctx.processArr.cap
  waitArr : ctx.lastWaitedProcessIndex.toNat < ctx.waitArr.cap
  ioParked : ctx.ioParkedCount.toNat ≤ ctx.ioParked.cap

variable {ctx : ShedulerCtx}

/-! ## Operations that make room first -/

theorem newProcess_bounds (coherent : ctx.Coherent) (small : ctx.Small)
    (roomy : Roomy ctx) (inBounds : InBounds ctx) (processCtx : Word)
    (fresh : Nat → Word) :
    InBounds (ctx.newProcess processCtx fresh) ∧ Roomy (ctx.newProcess processCtx fresh) := by
  have room := small.runnable
  have fits := ctx.processArr.lt_grow_cap (ctx.lastProcessIndex + 1) fresh
    roomy.processArrCap (by rw [coherent.last]; exact roomy.processArr)
  constructor
  · refine { inBounds with processArr := ?_ }
    rw [ShedulerCtx.newProcess, HeapArray.store_overrun, HeapArray.grow_overrun]
    exact ⟨inBounds.processArr, fits⟩
  · refine { roomy with processArr := ?_, processArrCap := ?_ }
    · simp only [ShedulerCtx.newProcess, HeapArray.store_cap]
      rw [toNat_succ _ (by omega)]
      rw [coherent.last] at fits ⊢
      exact fits
    · exact Nat.lt_of_le_of_lt (Nat.zero_le _) fits

theorem waitCurrentProcess_bounds (small : ctx.Small) (roomy : Roomy ctx)
    (inBounds : InBounds ctx) (ownPid : Word) (fresh : Nat → Word) :
    InBounds (ctx.waitCurrentProcess ownPid fresh) ∧
      Roomy (ctx.waitCurrentProcess ownPid fresh) := by
  have room := small.waiting
  have succ := toNat_succ ctx.lastWaitedProcessIndex (by omega)
  have holds := roomy.waitArr
  have fits := ctx.waitArr.lt_grow_cap (ctx.lastWaitedProcessIndex + 1) fresh
    (by omega) (by omega)
  constructor
  · refine { inBounds with waitArr := ?_ }
    rw [ShedulerCtx.waitCurrentProcess, HeapArray.store_overrun, HeapArray.grow_overrun]
    exact ⟨inBounds.waitArr, fits⟩
  · exact { roomy with waitArr := fits }

/-! ## Operations that only move entries -/

theorem removeCurrentProcess_bounds (coherent : ctx.Coherent) (roomy : Roomy ctx)
    (inBounds : InBounds ctx) (nonempty : ctx.realCountOfProcesses ≠ 0) :
    InBounds ctx.removeCurrentProcess ∧ Roomy ctx.removeCurrentProcess := by
  have last := coherent.last_toNat nonempty
  have inside := coherent.cursorIn nonempty
  have holds := roomy.processArr
  constructor
  · refine { inBounds with processArr := ?_ }
    simp only [ShedulerCtx.removeCurrentProcess, HeapArray.store_overrun,
      HeapArray.store_cap]
    exact ⟨⟨inBounds.processArr, by omega⟩, by omega⟩
  · refine { roomy with processArr := ?_ }
    simp only [ShedulerCtx.removeCurrentProcess, HeapArray.store_cap]
    rw [toNat_pred nonempty]
    omega

theorem removedFromWait_bounds (roomy : Roomy ctx) (inBounds : InBounds ctx)
    {position : Nat} {foundI : Word} (inRange : position < ctx.queues.waiting.length)
    (atFound : foundI.toNat = 1 + position) :
    InBounds (ctx.removedFromWait foundI) ∧
      Roomy (ctx.removedFromWait foundI) := by
  rw [ShedulerCtx.length_waiting] at inRange
  have holds := roomy.waitArr
  have lowered : (ctx.lastWaitedProcessIndex - 1).toNat =
      ctx.lastWaitedProcessIndex.toNat - 1 := by bv_omega
  constructor
  · refine { inBounds with waitArr := ?_ }
    simp only [ShedulerCtx.removedFromWait, HeapArray.store_overrun,
      HeapArray.store_cap]
    exact ⟨⟨inBounds.waitArr, by omega⟩, by omega⟩
  · refine { roomy with waitArr := ?_ }
    simp only [ShedulerCtx.removedFromWait, HeapArray.store_cap, lowered]
    omega

theorem wakeProcess_bounds (coherent : ctx.Coherent) (small : ctx.Small)
    (roomy : Roomy ctx) (inBounds : InBounds ctx) {pid : Word} (real : pid ≠ 0)
    (fresh : Nat → Word) :
    InBounds (ctx.wakeProcess pid fresh) ∧ Roomy (ctx.wakeProcess pid fresh) := by
  rcases coherent.wakeProcess_cases small real fresh with
    ⟨-, unchanged⟩ | ⟨position, inRange, foundI, -, atFound, woken⟩
  · rw [unchanged]
    exact ⟨inBounds, roomy⟩
  · have removed := removedFromWait_bounds roomy inBounds inRange atFound
    have removedSmall := small.removedFromWait inRange foundI
    rw [woken, ShedulerCtx.wakeFound_eq]
    split
    · exact removed
    · exact newProcess_bounds (coherent.removedFromWait_coherent inRange atFound)
        removedSmall removed.2 removed.1 _ fresh

/-! ## The pid table -/

theorem assignPid_bounds {table : PidTable} {holders : List Holder} {pool : SlotPool}
    (represents : table.Represents holders pool) (procCtx : Word)
    (fresh : Nat → PidEntry) :
    (table.assignPid procCtx fresh).2.pidTable.overrun = table.pidTable.overrun ∧
      (table.assignPid procCtx fresh).2.freeSlots = table.freeSlots := by
  have fits := represents.acquired_lt_cap fresh
  rw [represents.acquired_succ] at fits
  constructor
  · have grown : (table.assignedFrom fresh).overrun = table.pidTable.overrun :=
      HeapArray.grow_overrun _ _ _
    simp only [PidTable.assignPid, HeapArray.store, grown]
    rw [decide_eq_false (by omega), Bool.or_false]
  · simp only [PidTable.assignPid, PidTable.emitAcquireSlot]
    split <;> rfl

theorem clearPid_bounds {table : PidTable} {holders : List Holder} {pool : SlotPool}
    (represents : table.Represents holders pool) {holder : Holder}
    (live : holder ∈ holders) (fresh : Nat → Word) :
    (table.clearPid holder.ownPid fresh).pidTable.overrun = table.pidTable.overrun ∧
      (table.clearPid holder.ownPid fresh).freeSlots.overrun =
        table.freeSlots.overrun := by
  have range := represents.slot_range live
  have created := represents.created_lt
  have realSlot : slotOf holder.ownPid ≠ 0 := represents.slot_ne_zero live
  have lenSucc := represents.freeSlotsLen_succ
  have room := represents.freeRoom
  have fits := table.freeSlots.lt_grow_cap (table.freeSlotsLen + 1) fresh
    (by omega) (by omega)
  constructor
  · rw [PidTable.Represents.clearPid_pidTable, HeapArray.store, ← Holder.slot]
    simp only
    rw [decide_eq_false (by omega), Bool.or_false]
  · simp only [PidTable.clearPid, realSlot, if_false, HeapArray.store,
      HeapArray.grow_overrun]
    rw [decide_eq_false (by omega), Bool.or_false]

/-! ## Operations that do not make room -/

/-- Parking stays inside exactly when `io_parked` has an entry left. -/
theorem parkCurrent_bounds_iff (coherent : ctx.Coherent) (roomy : Roomy ctx)
    (inBounds : InBounds ctx) (actors : Word → Actor)
    (nonempty : ctx.realCountOfProcesses ≠ 0) :
    InBounds (ctx.parkCurrent actors).1 ↔
      ctx.ioParkedCount.toNat < ctx.ioParked.cap := by
  have inside := coherent.cursorIn nonempty
  have holds := roomy.processArr
  constructor
  · intro after
    exact ((HeapArray.store_overrun _ _ _).mp after.ioParked).2
  · intro fits
    refine { inBounds with processArr := ?_, ioParked := ?_ }
    · exact (HeapArray.store_overrun _ _ _).mpr ⟨inBounds.processArr, by omega⟩
    · exact (HeapArray.store_overrun _ _ _).mpr ⟨inBounds.ioParked, fits⟩

theorem parkCurrent_roomy (small : ctx.Small)
    (roomy : Roomy ctx) (actors : Word → Actor)
    (nonempty : ctx.realCountOfProcesses ≠ 0)
    (fits : ctx.ioParkedCount.toNat < ctx.ioParked.cap) :
    Roomy (ctx.parkCurrent actors).1 := by
  have holds := roomy.processArr
  have room := small.parked
  refine { roomy with processArr := ?_, ioParked := ?_ }
  · simp only [ShedulerCtx.parkCurrent, HeapArray.store_cap]
    rw [toNat_pred nonempty]
    omega
  · simp only [ShedulerCtx.parkCurrent, HeapArray.store_cap]
    rw [toNat_succ _ (by omega)]
    omega

/-- A completion stays inside exactly when `process_arr` has an entry left. -/
theorem emitWakeByUserData_bounds_iff (coherent : ctx.Coherent) (roomy : Roomy ctx)
    (inBounds : InBounds ctx) (actors : Word → Actor) {userData : Word}
    (res : BitVec 32) (real : userData ≠ 0)
    (inRange : (actors userData).ioParkedIdx.toNat < ctx.queues.parked.length) :
    InBounds (ctx.emitWakeByUserData actors userData res).1 ↔
      ctx.realCountOfProcesses.toNat < ctx.processArr.cap := by
  rw [ShedulerCtx.length_parked] at inRange
  have holds := roomy.ioParked
  rw [ShedulerCtx.emitWakeByUserData_of_ne_zero actors res real, coherent.last]
  constructor
  · intro after
    exact ((HeapArray.store_overrun _ _ _).mp after.processArr).2
  · intro fits
    refine { inBounds with processArr := ?_, ioParked := ?_ }
    · exact (HeapArray.store_overrun _ _ _).mpr ⟨inBounds.processArr, fits⟩
    · exact (HeapArray.store_overrun _ _ _).mpr ⟨inBounds.ioParked, by omega⟩

theorem emitWakeByUserData_roomy (small : ctx.Small) (roomy : Roomy ctx)
    (actors : Word → Actor) {userData : Word} (res : BitVec 32) (real : userData ≠ 0)
    (inRange : (actors userData).ioParkedIdx.toNat < ctx.queues.parked.length)
    (fits : ctx.realCountOfProcesses.toNat < ctx.processArr.cap) :
    Roomy (ctx.emitWakeByUserData actors userData res).1 := by
  rw [ShedulerCtx.length_parked] at inRange
  have holds := roomy.ioParked
  have room := small.runnable
  have nonempty : ctx.ioParkedCount ≠ 0 := by bv_omega
  rw [ShedulerCtx.emitWakeByUserData_of_ne_zero actors res real]
  refine { roomy with processArr := ?_, ioParked := ?_ }
  · simp only [HeapArray.store_cap]
    rw [toNat_succ _ (by omega)]
    omega
  · simp only [HeapArray.store_cap]
    rw [toNat_pred nonempty]
    omega

/-! ## Steps and runs -/

/-- There is room where the io_uring layer does not make any: for a parked actor's
completion one more entry of `process_arr`, for a park one more of `io_parked`. -/
def HasRoom (system : System) : Event → Prop
  | .complete userData _ =>
      userData ≠ 0 →
        system.ctx.realCountOfProcesses.toNat < system.ctx.processArr.cap
  | .park => system.ctx.ioParkedCount.toNat < system.ctx.ioParked.cap
  | _ => True

/-- What the invariant says of the arrays as long as every store stayed inside. -/
structure Supported (system : System) : Prop where
  sound : system.Sound
  roomy : Roomy system.ctx

theorem start_roomy (main : Word) (memory : Word → Actor) :
    Roomy (System.start main memory).ctx where
  processArr := (by decide : (1 : Word).toNat ≤ INITIAL_QUEUE_CAP)
  processArrCap := (by decide : 0 < INITIAL_QUEUE_CAP)
  waitArr := (by decide : (0 : Word).toNat < INITIAL_QUEUE_CAP)
  ioParked := (by decide : (0 : Word).toNat ≤ IO_PARKED_ENTRIES)

theorem start_inBounds (main : Word) (memory : Word → Actor) :
    InBounds (System.start main memory).ctx where
  processArr := (HeapArray.store_overrun _ _ _).mpr ⟨rfl, by decide⟩
  waitArr := rfl
  ioParked := rfl
  pidTable := by
    have bounds := assignPid_bounds PidTable.init_represents main fun _ => ⟨0, 0⟩
    exact bounds.1
  freeSlots := rfl

theorem spawn_bounds {system : System} (sound : system.Sound) (roomy : Roomy system.ctx)
    (inBounds : InBounds system.ctx) (procCtx : Word) (memory : Actor)
    (freshPids : Nat → PidEntry) (fresh : Nat → Word) :
    InBounds (system.spawn procCtx memory freshPids fresh).ctx ∧
      Roomy (system.spawn procCtx memory freshPids fresh).ctx := by
  rcases sound.pids with ⟨pool, represents⟩
  have coherent := sound.coherent
  have small := sound.small
  have bounds := assignPid_bounds represents procCtx freshPids
  have slotsInBounds := inBounds.freeSlots
  rw [← bounds.2] at slotsInBounds
  let withPid : ShedulerCtx :=
    { system.ctx with pids := (system.ctx.pids.assignPid procCtx freshPids).2 }
  have withPidCoherent : withPid.Coherent :=
    ⟨coherent.last, coherent.cursorIn, coherent.cursorReset, coherent.waited,
      coherent.unusedEntry⟩
  have withPidSmall : withPid.Small := ⟨small.runnable, small.waiting, small.parked⟩
  have withPidRoomy : Roomy withPid :=
    ⟨roomy.processArr, roomy.processArrCap, roomy.waitArr, roomy.ioParked⟩
  have withPidInBounds : InBounds withPid :=
    ⟨inBounds.processArr, inBounds.waitArr, inBounds.ioParked,
      bounds.1.trans inBounds.pidTable, slotsInBounds⟩
  exact newProcess_bounds withPidCoherent withPidSmall withPidRoomy withPidInBounds
    procCtx fresh

theorem done_bounds {system : System} (sound : system.Sound) (roomy : Roomy system.ctx)
    (inBounds : InBounds system.ctx) (running : system.running = true)
    (fresh : Nat → Word) :
    InBounds (system.done fresh).ctx ∧ Roomy (system.done fresh).ctx := by
  rcases sound.pids with ⟨pool, represents⟩
  have coherent := sound.coherent
  have bounds := clearPid_bounds represents
    (System.mem_holders (sound.current_live running)) fresh
  let cleared : ShedulerCtx :=
    { system.ctx with
      pids := system.ctx.pids.clearPid (system.actors system.current).ownPid fresh }
  have clearedCoherent : cleared.Coherent :=
    ⟨coherent.last, coherent.cursorIn, coherent.cursorReset, coherent.waited,
      coherent.unusedEntry⟩
  have clearedRoomy : Roomy cleared :=
    ⟨roomy.processArr, roomy.processArrCap, roomy.waitArr, roomy.ioParked⟩
  have clearedInBounds : InBounds cleared :=
    ⟨inBounds.processArr, inBounds.waitArr, inBounds.ioParked,
      bounds.1.trans inBounds.pidTable, bounds.2.trans inBounds.freeSlots⟩
  exact removeCurrentProcess_bounds clearedCoherent clearedRoomy clearedInBounds
    (sound.active running)

/-- A step stays inside the arrays exactly when there is room for it, and then
leaves them roomy. -/
theorem step_bounds {system next : System} {event : Event} (supported : Supported system)
    (inBounds : InBounds system.ctx) (step : Step system event next) :
    (InBounds next.ctx ↔ HasRoom system event) ∧
      (HasRoom system event → Roomy next.ctx) := by
  rcases supported with ⟨sound, roomy⟩
  have coherent := sound.coherent
  have small := sound.small
  have safe : ∀ {other : ShedulerCtx}, InBounds other ∧ Roomy other →
      (InBounds other ↔ True) ∧ (True → Roomy other) := fun held =>
    ⟨iff_of_true held.1 trivial, fun _ => held.2⟩
  cases step with
  | complete userData res _ owed =>
      by_cases real : userData = 0
      · subst real
        rw [System.complete_zero]
        exact ⟨iff_of_true inBounds (fun absurdity => absurd rfl absurdity),
          fun _ => roomy⟩
      · rcases sound.complete_queues res owed real with ⟨position, atPosition, isIdx, -⟩
        have inRange := (List.getElem?_eq_some_iff.mp atPosition).1
        rw [← isIdx] at inRange
        have bounds := emitWakeByUserData_bounds_iff coherent roomy inBounds system.actors
          res real inRange
        refine ⟨bounds.trans ⟨fun fits _ => fits, fun room => room real⟩, fun room => ?_⟩
        exact emitWakeByUserData_roomy small roomy system.actors res real inRange (room real)
  | park running =>
      have nonempty := sound.active running
      exact ⟨parkCurrent_bounds_iff coherent roomy inBounds system.actors nonempty,
        parkCurrent_roomy small roomy system.actors nonempty⟩
  | send pid message fresh _ handedOut =>
      apply safe
      by_cases none : system.ctx.pids.lookupProcCtx pid = 0
      · rw [System.send, if_pos none]
        exact ⟨inBounds, roomy⟩
      · rcases sound.ownPid_of_lookup handedOut none with ⟨live, isOwn⟩
        rw [System.send, if_neg none]
        exact wakeProcess_bounds coherent small roomy inBounds
          (isOwn ▸ sound.ownPid_ne_zero live) fresh
  | spawn procCtx memory freshPids fresh =>
      exact safe (spawn_bounds sound roomy inBounds procCtx memory freshPids fresh)
  | wait fresh running =>
      have waited := waitCurrentProcess_bounds small roomy inBounds
        (system.actors system.current).ownPid fresh
      have waitedCoherent := coherent.waitCurrentProcess_coherent small
        (system.actors system.current).ownPid fresh
      exact safe (removeCurrentProcess_bounds waitedCoherent waited.2 waited.1
        (sound.active running))
  | done fresh running => exact safe (done_bounds sound roomy inBounds running fresh)
  | yield =>
      exact safe ⟨{ inBounds with }, { roomy with }⟩
  | dispatch => exact safe ⟨inBounds, roomy⟩
  | dequeue => exact safe ⟨inBounds, roomy⟩
  | submit => exact safe ⟨inBounds, roomy⟩

/-- Every store of a run stays inside its array exactly when each completion of a
parked actor finds an unused entry of `process_arr` and each park one of
`io_parked`. -/
theorem stores_inBounds_iff {main : Word} {memory : Word → Actor}
    {history : List (Stage System Event)} {final : System} (real : main ≠ 0)
    (run : Run Step (System.start main memory) history final) :
    Throughout (fun system => InBounds system.ctx) history final ↔
      Meets HasRoom history :=
  run.throughout_iff_meets
    ⟨System.start_sound main memory real, start_roomy main memory⟩
    (start_inBounds main memory)
    (fun _ _ _ supported inBounds step => (step_bounds supported inBounds step).1)
    (fun _ _ _ supported inBounds room step =>
      ⟨step.sound supported.sound, (step_bounds supported inBounds step).2 room⟩)

theorem stores_inBounds_iff_park :
    let started := System.start 16 fun _ => .zeroed
    let dispatched := { started with running := true }
    Throughout (fun system => InBounds system.ctx)
      [⟨dispatched, Event.park⟩, ⟨started, Event.dispatch⟩] dispatched.park := by
  intro started dispatched
  have dispatch : Step started .dispatch dispatched := .dispatch rfl (by decide)
  have park : Step dispatched .park dispatched.park := .park rfl
  have run := (Run.refl.next dispatch).next park
  apply (stores_inBounds_iff (by decide) run).mpr
  simp only [meets_cons, meets_nil, HasRoom, and_true]
  decide

/-! ## A completion at a full array

The main actor spawns one actor and parks; that actor spawns 4095 more and fills
`process_arr`, so that the completion has nowhere to go. -/

/-- The contexts of the actors, 64 KiB apart in the heap; the first is the main actor's. -/
def contextAt (count : Nat) : Word := BitVec.ofNat 64 (0x7f0000000000 + 0x10000 * count)

theorem contextAt_toNat {count : Nat} (few : count < 5000) :
    (contextAt count).toNat = 0x7f0000000000 + 0x10000 * count := by
  rw [contextAt, BitVec.toNat_ofNat]
  omega

/-- The spawn of an actor in memory that reads as zero. -/
def spawnZeroed (system : System) (procCtx : Word) : System :=
  system.spawn procCtx .zeroed (fun _ => ⟨0, 0⟩) fun _ => 0

/-- The current actor has spawned `count` others while the main actor is parked. -/
structure Crowded (system : System) (count : Nat) : Prop where
  running : system.running = true
  runnable : system.ctx.realCountOfProcesses.toNat = count + 1
  cap : system.ctx.processArr.cap = 4096
  waitArr : system.ctx.lastWaitedProcessIndex.toNat < system.ctx.waitArr.cap
  ioParked : system.ctx.ioParkedCount = 1 ∧ system.ctx.ioParked.cap = 8192
  outstanding : system.outstanding = [contextAt 0]
  pidTableLen : count + 3 ≤ system.ctx.pids.pidTableLen.toNat ∧
    system.ctx.pids.pidTableLen.toNat ≤ count + 4
  noFree : system.ctx.pids.freeSlotsLen = 0
  pidTableCap : system.ctx.pids.pidTable.cap = 4096 ∨ system.ctx.pids.pidTable.cap = 8192
  addresses : ∀ actor ∈ system.live, actor.toNat < 0x7f0000000000 + 0x10000 * (count + 3)

namespace Crowded

variable {system : System} {count : Nat}

theorem acquired (crowded : Crowded system count) :
    system.ctx.pids.emitAcquireSlot =
      (system.ctx.pids.pidTableLen,
        { system.ctx.pids with pidTableLen := system.ctx.pids.pidTableLen + 1 }) := by
  simp [PidTable.emitAcquireSlot, crowded.noFree]

theorem new (crowded : Crowded system count) (few : count < 4095) :
    contextAt (count + 3) ∉ system.live := by
  intro live
  have bound := crowded.addresses _ live
  rw [contextAt_toNat (by omega)] at bound
  omega

theorem spawn (crowded : Crowded system count) (sound : system.Sound) (few : count < 4095) :
    Step system (.spawn (contextAt (count + 3)) .zeroed (fun _ => ⟨0, 0⟩) fun _ => 0)
        (spawnZeroed system (contextAt (count + 3))) ∧
      Crowded (spawnZeroed system (contextAt (count + 3))) (count + 1) := by
  have len := crowded.pidTableLen
  have runnable := crowded.runnable
  have last := sound.coherent.last
  have address := contextAt_toNat (by omega : count + 3 < 5000)
  have acquired := crowded.acquired
  have lenSucc := toNat_succ system.ctx.pids.pidTableLen (by omega)
  have tableCap : (system.ctx.pids.assignedFrom fun _ => ⟨0, 0⟩).cap = 4096 ∨
      (system.ctx.pids.assignedFrom fun _ => ⟨0, 0⟩).cap = 8192 := by
    have before := crowded.pidTableCap
    simp only [PidTable.assignedFrom, acquired, HeapArray.emitGrowArrayIfFull]
    split
    · simp only
      omega
    · exact before
  have fits : (system.ctx.pids.assignPid (contextAt (count + 3)) fun _ => ⟨0, 0⟩).2.FitsHeap := by
    change (system.ctx.pids.assignedFrom fun _ => ⟨0, 0⟩).cap * 16 ≤ HEAP_SIZE
    rw [HEAP_SIZE]
    omega
  have real : contextAt (count + 3) ≠ 0 := by
    intro zero
    have none : (0 : Word).toNat = 0 := rfl
    rw [zero, none] at address
    omega
  have noGrowth : (system.ctx.lastProcessIndex + 1).toNat < system.ctx.processArr.cap := by
    rw [last, crowded.cap]
    omega
  refine ⟨.spawn _ .zeroed _ _ crowded.running real (crowded.new few) fits, ?_⟩
  exact {
    running := crowded.running
    runnable := by
      simp only [spawnZeroed, System.spawn, ShedulerCtx.newProcess]
      rw [toNat_succ _ (by omega), runnable]
    cap := by
      simp only [spawnZeroed, System.spawn, ShedulerCtx.newProcess, HeapArray.store_cap]
      rw [HeapArray.grow_of_lt _ _ _ noGrowth]
      exact crowded.cap
    waitArr := crowded.waitArr
    ioParked := crowded.ioParked
    outstanding := crowded.outstanding
    pidTableLen := by
      simp only [spawnZeroed, System.spawn, ShedulerCtx.newProcess, PidTable.assignPid, acquired]
      omega
    noFree := by
      simp only [spawnZeroed, System.spawn, ShedulerCtx.newProcess, PidTable.assignPid, acquired]
      exact crowded.noFree
    pidTableCap := tableCap
    addresses := by
      intro actor live
      rcases List.mem_cons.mp live with rfl | old
      · omega
      · exact Nat.lt_of_lt_of_le (crowded.addresses actor old) (by omega) }

/-- The current actor goes on spawning until `process_arr` is full. What each spawn keeps
holds then, too. -/
theorem fill {start : System} {history : List (Stage System Event)} (property : System → Prop)
    (sound : start.Sound) (run : Run Step start history system) (room : Meets HasRoom history)
    (crowded : Crowded system 0) (holds : property system)
    (kept : ∀ system count, system.Sound → Crowded system count → count < 4095 →
      property system → property (spawnZeroed system (contextAt (count + 3))))
    (count : Nat) (few : count ≤ 4095) :
    ∃ history final, Run Step start history final ∧ Meets HasRoom history ∧
      Crowded final count ∧ property final := by
  induction count with
  | zero => exact ⟨history, system, run, room, crowded, holds⟩
  | succ count induction =>
      rcases induction (by omega) with ⟨earlier, reached, run, room, crowded, holds⟩
      have reachedSound : reached.Sound :=
        (run.invariant sound fun _ _ _ held step => step.sound held).2
      rcases crowded.spawn reachedSound (by omega) with ⟨step, after⟩
      exact ⟨_, _, run.next step, meets_cons.mpr ⟨trivial, room⟩, after,
        kept reached count reachedSound crowded (by omega) holds⟩

theorem roomy (crowded : Crowded system count) (few : count ≤ 4095) : Roomy system.ctx where
  processArr := by
    rw [crowded.runnable, crowded.cap]
    omega
  processArrCap := by
    rw [crowded.cap]
    decide
  waitArr := crowded.waitArr
  ioParked := by
    rw [crowded.ioParked.1, crowded.ioParked.2]
    decide

end Crowded

theorem crowded_run : ∃ history final,
    Run Step (System.start (contextAt 0) fun _ => .zeroed) history final ∧
      Crowded final 4095 := by
  let started := System.start (contextAt 0) fun _ => .zeroed
  let dispatched := { started with running := true }
  let spawned := spawnZeroed dispatched (contextAt 1)
  have dispatch : Step started .dispatch dispatched := .dispatch rfl (by decide)
  have spawn : Step dispatched (.spawn (contextAt 1) .zeroed _ _) spawned :=
    .spawn (contextAt 1) .zeroed _ _ rfl (by decide) (by decide) (by decide)
  have park : Step spawned .park spawned.park := .park rfl
  have next : Step spawned.park .dispatch { spawned.park with running := true } :=
    .dispatch rfl (by decide)
  have run := (((Run.refl.next dispatch).next spawn).next park).next next
  have crowded : Crowded { spawned.park with running := true } 0 := {
    running := rfl
    runnable := (by decide : ((1 : Word) + 1 - 1).toNat = 1)
    cap := rfl
    waitArr := (by decide : (0 : Word).toNat < 4096)
    ioParked := ⟨rfl, rfl⟩
    outstanding := rfl
    pidTableLen := (by decide : 3 ≤ (3 : Word).toNat ∧ (3 : Word).toNat ≤ 4)
    noFree := rfl
    pidTableCap := .inl rfl
    addresses := by
      intro actor live
      have isOne : actor ∈ [contextAt 1, contextAt 0] := live
      rcases List.mem_pair.mp isOne with rfl | rfl <;> decide }
  have filled := crowded.fill (fun _ => True) (System.start_sound _ _ (by decide)) run
    (by
      simp only [meets_cons, meets_nil, HasRoom, and_true]
      decide)
    trivial (fun _ _ _ _ _ _ => trivial) 4095 (Nat.le_refl _)
  rcases filled with ⟨history, final, run, -, crowded, -⟩
  exact ⟨history, final, run, crowded⟩

/-- A completion stores behind the 4096 entries of a full `process_arr`. -/
theorem completion_overruns_process_arr :
    ¬ ∀ (main : Word) (memory : Word → Actor) (history : List (Stage System Event))
        (final : System), main ≠ 0 →
      Run Step (System.start main memory) history final → InBounds final.ctx := by
  intro allInBounds
  rcases crowded_run with ⟨history, final, run, crowded⟩
  have yield : Step final .yield final.yield := .yield crowded.running
  have yielded := run.next yield
  have owed : contextAt 0 ∈ final.yield.outstanding := by
    change contextAt 0 ∈ final.outstanding
    simp [crowded.outstanding]
  have complete : Step final.yield (.complete (contextAt 0) 0)
      (final.yield.complete (contextAt 0) 0) := .complete _ 0 rfl owed
  have held := crowded.roomy (Nat.le_refl _)
  have roomy : Roomy final.yield.ctx := { held with }
  have bounds := step_bounds ⟨(System.sound_of_run (by decide) yielded).2, roomy⟩
    (allInBounds _ _ _ _ (by decide) yielded) complete
  have room := bounds.1.mp (allInBounds _ _ _ _ (by decide) (yielded.next complete))
    (by decide)
  have runnable := crowded.runnable
  have cap := crowded.cap
  change final.ctx.realCountOfProcesses.toNat < final.ctx.processArr.cap at room
  omega

end LakeNative.Scheduler

import LakeNative.Runtime.Placement
import LakeNative.Runtime.System

/-! # The invariant of the running system

Each call of the runtime keeps the scheduler's counters coherent, the pid table a
pool of the live actors' slots and every live actor in exactly one queue.
-/

namespace LakeNative.Runtime

open LakeNative.DenseArray LakeNative.Transitions

namespace System

structure Sound (system : System) : Prop where
  coherent : system.ctx.Coherent
  pids : ∃ pool, system.ctx.pids.Represents system.holders pool
  placement : ∃ waiters, Placement system.ctx.queues system.actors waiters system.live
    system.outstanding
  real : ∀ actor ∈ system.live, actor ≠ 0
  active : system.running = true → system.ctx.realCountOfProcesses ≠ 0

variable {system : System}

theorem holders_congr {others : Word → Actor} {live : List Word} {actors : Word → Actor}
    (samePid : ∀ actor ∈ live, (others actor).ownPid = (actors actor).ownPid) :
    (live.map fun actor => (⟨actor, (others actor).ownPid⟩ : Holder)) =
      live.map fun actor => ⟨actor, (actors actor).ownPid⟩ :=
  List.map_congr_left fun actor member => by rw [samePid actor member]

theorem mem_holders {actor : Word} (live : actor ∈ system.live) :
    (⟨actor, (system.actors actor).ownPid⟩ : Holder) ∈ system.holders :=
  List.mem_map.mpr ⟨actor, live, rfl⟩

/-- The queues hold fewer actors than there are slots, so no counter wraps. -/
theorem Sound.small (sound : system.Sound) : system.ctx.Small := by
  rcases sound.pids with ⟨pool, represents⟩
  rcases sound.placement with ⟨waiters, placement⟩
  have lengths := placement.lengths
  rw [ShedulerCtx.length_runnable, ShedulerCtx.length_waiting, ShedulerCtx.length_parked]
    at lengths
  have used := represents.used.length_eq
  rw [List.length_map, holders, List.length_map] at used
  have created := pool.partition.length_eq
  rw [List.length_append, List.length_range'] at created
  have createdBound := represents.created_lt
  have capBound := represents.cap_le
  constructor <;> omega

theorem Sound.current_runnable (sound : system.Sound) (running : system.running = true) :
    system.ctx.queues.runnable[system.ctx.queues.cursor]? = some system.current :=
  sound.coherent.getElem?_runnable_cursor (sound.active running)

theorem Sound.current_live (sound : system.Sound) (running : system.running = true) :
    system.current ∈ system.live := by
  rcases sound.placement with ⟨waiters, placement⟩
  exact placement.runnable_live (List.mem_of_getElem? (sound.current_runnable running))

/-! ## The queues after each call -/

theorem Sound.queues_yield (sound : system.Sound) (running : system.running = true) :
    system.yield.ctx.queues = system.ctx.queues.advance :=
  sound.coherent.queues_nextProcess (sound.active running)

theorem Sound.queues_wait (sound : system.Sound) (running : system.running = true)
    (fresh : Nat → Word) :
    (system.wait fresh).ctx.queues =
      (system.ctx.queues.suspend (system.actors system.current).ownPid).removeCurrent := by
  have waited := sound.coherent.waitCurrentProcess_coherent sound.small
    (system.actors system.current).ownPid fresh
  rw [System.wait, waited.queues_removeCurrentProcess (sound.active running),
    ShedulerCtx.Coherent.queues_waitCurrentProcess sound.small]

theorem Sound.queues_park (sound : system.Sound) (running : system.running = true) :
    system.park.ctx.queues = system.ctx.queues.park system.current :=
  sound.coherent.queues_parkCurrent sound.small system.actors (sound.active running)

/-- The coherence of a context does not depend on its pid table. -/
theorem Sound.coherent_pids (sound : system.Sound) (pids : PidTable) :
    ({ system.ctx with pids := pids } : ShedulerCtx).Coherent :=
  ⟨sound.coherent.last, sound.coherent.cursorIn, sound.coherent.cursorReset,
    sound.coherent.waited, sound.coherent.unusedEntry⟩

theorem Sound.small_pids (sound : system.Sound) (pids : PidTable) :
    ({ system.ctx with pids := pids } : ShedulerCtx).Small :=
  ⟨sound.small.runnable, sound.small.waiting, sound.small.parked⟩

theorem Sound.queues_done (sound : system.Sound) (running : system.running = true)
    (fresh : Nat → Word) :
    (system.done fresh).ctx.queues = system.ctx.queues.removeCurrent :=
  (sound.coherent_pids _).queues_removeCurrentProcess (sound.active running)

theorem Sound.queues_spawn (sound : system.Sound) (procCtx : Word) (memory : Actor)
    (freshPids : Nat → PidEntry) (fresh : Nat → Word) :
    (system.spawn procCtx memory freshPids fresh).ctx.queues =
      system.ctx.queues.enqueue procCtx :=
  (sound.coherent_pids _).queues_newProcess (sound.small_pids _) procCtx fresh

/-! ## The first state -/

theorem start_sound (main : Word) (memory : Word → Actor) (real : main ≠ 0) :
    (start main memory).Sound where
  coherent := by
    constructor
    · rfl
    · intro _
      change (0 : Word).toNat < (1 : Word).toNat
      decide
    · intro _
      rfl
    · rfl
    · rfl
  pids := by
    have fits : (PidTable.init.assignPid main fun _ => ⟨0, 0⟩).2.FitsHeap := by
      change (PidTable.init.assignedFrom fun _ => ⟨0, 0⟩).cap * 16 ≤ HEAP_SIZE
      decide
    have represents := PidTable.init_represents.assignPid main (fun _ => ⟨0, 0⟩) fits
    refine ⟨SlotPool.empty.acquire.2, ?_⟩
    have held : (start main memory).holders =
        [⟨main, (PidTable.init.assignPid main fun _ => ⟨0, 0⟩).1⟩] := by
      simp [holders, start, Actor.spawned, ShedulerCtx.initMainProcess, ShedulerCtx.init]
    rw [held]
    exact represents
  placement := by
    refine ⟨[], ?_, ?_, rfl, ?_, .nil⟩
    · simp [start]
    · simp [start, ShedulerCtx.queues, ShedulerCtx.initMainProcess, ShedulerCtx.init,
        HeapArray.slice, cellsFrom]
    · intro position actor atPosition
      simp [start, ShedulerCtx.queues, ShedulerCtx.initMainProcess, ShedulerCtx.init,
        HeapArray.slice] at atPosition
  real := by
    intro actor live
    rcases List.mem_singleton.mp live with rfl
    exact real
  active := by simp [start]

/-! ## The scheduler's own calls -/

theorem Sound.dispatch (sound : system.Sound)
    (nonempty : system.ctx.realCountOfProcesses ≠ 0) :
    ({ system with running := true } : System).Sound :=
  { sound with active := fun _ => nonempty }

theorem Sound.yield (sound : system.Sound) (running : system.running = true) :
    system.yield.Sound where
  coherent := sound.coherent.nextProcess_coherent (sound.active running)
  pids := sound.pids
  placement := by
    rcases sound.placement with ⟨waiters, placement⟩
    refine ⟨waiters, ?_⟩
    rw [sound.queues_yield running]
    exact placement.advance
  real := sound.real
  active := by simp [System.yield]

theorem Sound.submit (sound : system.Sound) :
    ({ system with outstanding := 0 :: system.outstanding } : System).Sound :=
  { sound with
    placement := by
      rcases sound.placement with ⟨waiters, placement⟩
      exact ⟨waiters, { placement with owed := placement.owed }⟩ }

theorem Sound.wait (sound : system.Sound) (running : system.running = true)
    (fresh : Nat → Word) : (system.wait fresh).Sound := by
  have waited := sound.coherent.waitCurrentProcess_coherent sound.small
    (system.actors system.current).ownPid fresh
  exact {
    coherent := waited.removeCurrentProcess_coherent (sound.active running)
    pids := sound.pids
    placement := by
      rcases sound.placement with ⟨waiters, placement⟩
      refine ⟨waiters ++ [system.current], ?_⟩
      rw [sound.queues_wait running]
      exact placement.suspend (sound.current_runnable running)
    real := sound.real
    active := by simp [System.wait] }

theorem Sound.park (sound : system.Sound) (running : system.running = true) :
    system.park.Sound := by
  have samePid : ∀ other, ((system.ctx.parkCurrent system.actors).2 other).ownPid =
      (system.actors other).ownPid := by
    intro other
    by_cases same : other = system.ctx.processArr.load system.ctx.currentProcess
    · simp [ShedulerCtx.parkCurrent, same]
    · simp [ShedulerCtx.parkCurrent, Function.update_of_ne same]
  exact {
    coherent := sound.coherent.parkCurrent_coherent system.actors
    pids := by
      rcases sound.pids with ⟨pool, represents⟩
      refine ⟨pool, ?_⟩
      rw [System.holders, System.park, holders_congr fun actor _ => samePid actor]
      exact represents
    placement := by
      rcases sound.placement with ⟨waiters, placement⟩
      refine ⟨waiters, ?_⟩
      rw [sound.queues_park running]
      refine placement.park (sound.current_runnable running)
        (sound.real _ (sound.current_live running)) samePid ?_ ?_
      · intro other different
        exact Function.update_of_ne different _ _
      · simp [System.park, ShedulerCtx.parkCurrent, System.current, ShedulerCtx.getCurrentProcess]
    real := sound.real
    active := by simp [System.park] }

/-! ## The calls of compiled code -/

theorem Sound.spawn (sound : system.Sound) (procCtx : Word) (memory : Actor)
    (freshPids : Nat → PidEntry) (fresh : Nat → Word) (real : procCtx ≠ 0)
    (new : procCtx ∉ system.live)
    (fits : (system.ctx.pids.assignPid procCtx freshPids).2.FitsHeap) :
    (system.spawn procCtx memory freshPids fresh).Sound := by
  let assigned := system.ctx.pids.assignPid procCtx freshPids
  let actors := Function.update system.actors procCtx (memory.spawned assigned.1)
  have older : ∀ actor ∈ system.live, actors actor = system.actors actor :=
    fun actor member => Function.update_of_ne (fun same => new (by rwa [← same])) _ _
  exact {
    coherent := (sound.coherent_pids _).newProcess_coherent (sound.small_pids _) procCtx fresh
    pids := by
      rcases sound.pids with ⟨pool, represents⟩
      refine ⟨pool.acquire.2, ?_⟩
      have held : (system.spawn procCtx memory freshPids fresh).holders =
          ⟨procCtx, assigned.1⟩ :: system.holders := by
        change ⟨procCtx, (actors procCtx).ownPid⟩ ::
          (system.live.map fun actor => (⟨actor, (actors actor).ownPid⟩ : Holder)) = _
        rw [holders_congr fun actor member => by rw [older actor member]]
        simp only [actors, Function.update_self]
        rfl
      rw [held]
      exact represents.assignPid procCtx freshPids fits
    placement := by
      rcases sound.placement with ⟨waiters, placement⟩
      refine ⟨waiters, ?_⟩
      rw [sound.queues_spawn]
      change Placement _ actors waiters (procCtx :: system.live) system.outstanding
      apply Placement.enqueue _ new
      refine placement.congr fun actor member => ?_
      rw [older actor member]
      exact ⟨rfl, rfl⟩
    real := by
      intro actor member
      rcases List.mem_cons.mp member with rfl | old
      · exact real
      · exact sound.real actor old
    active := by
      intro _ empty
      have room := sound.small.runnable
      simp only [System.spawn, ShedulerCtx.newProcess] at empty
      bv_omega }

/-- An update that keeps every actor's pid and parking position keeps the
invariant. -/
theorem Sound.update (sound : system.Sound) {others : Word → Actor}
    (logs : Word → MailLog)
    (same : ∀ actor, (others actor).ownPid = (system.actors actor).ownPid ∧
      (others actor).ioParkedIdx = (system.actors actor).ioParkedIdx) :
    ({ system with actors := others, logs := logs } : System).Sound :=
  { sound with
    pids := by
      rcases sound.pids with ⟨pool, represents⟩
      refine ⟨pool, ?_⟩
      rw [holders, holders_congr fun actor _ => (same actor).1]
      exact represents
    placement := by
      rcases sound.placement with ⟨waiters, placement⟩
      exact ⟨waiters, placement.congr fun actor _ => same actor⟩ }

theorem update_same {actors : Word → Actor} {target : Word} {changed : Actor}
    (samePid : changed.ownPid = (actors target).ownPid)
    (sameIdx : changed.ioParkedIdx = (actors target).ioParkedIdx) (actor : Word) :
    (Function.update actors target changed actor).ownPid = (actors actor).ownPid ∧
      (Function.update actors target changed actor).ioParkedIdx =
        (actors actor).ioParkedIdx := by
  by_cases isTarget : actor = target
  · subst isTarget
    simp [samePid, sameIdx]
  · simp [Function.update_of_ne isTarget]

theorem Sound.dequeue (sound : system.Sound) (varBase count : Nat) :
    (system.dequeue varBase count).Sound :=
  sound.update _ (update_same rfl rfl)

/-- The pid that a successful lookup was given is the own pid of the actor found:
the generation that matched is the one packed into it. -/
theorem Sound.ownPid_of_lookup (sound : system.Sound) {pid : Word}
    (handedOut : (slotOf pid).toNat < system.ctx.pids.pidTableLen.toNat)
    (found : system.ctx.pids.lookupProcCtx pid ≠ 0) :
    system.ctx.pids.lookupProcCtx pid ∈ system.live ∧
      (system.actors (system.ctx.pids.lookupProcCtx pid)).ownPid = pid := by
  rcases sound.pids with ⟨pool, represents⟩
  rcases represents.lookup_cases handedOut with none | ⟨holder, member, sameSlot, sameGen, foundIs⟩
  · exact absurd none found
  · have samePid : holder.ownPid = pid :=
      (represents.packed holder member).trans (by rw [sameGen, sameSlot, packPid_parts])
    rcases List.mem_map.mp member with ⟨actor, live, rfl⟩
    rw [foundIs]
    exact ⟨live, samePid⟩

/-- Live actors have different pids. -/
theorem Sound.ownPid_inj (sound : system.Sound) {actor other : Word}
    (live : actor ∈ system.live) (otherLive : other ∈ system.live)
    (samePid : (system.actors actor).ownPid = (system.actors other).ownPid) :
    actor = other := by
  rcases sound.pids with ⟨pool, represents⟩
  have same := represents.eq_of_slot_eq (mem_holders live) (mem_holders otherLive)
    (congrArg slotOf samePid)
  exact congrArg Holder.procCtx same

theorem Sound.waiting_not_runnable (sound : system.Sound) {actor : Word}
    (live : actor ∈ system.live)
    (waiting : (system.actors actor).ownPid ∈ system.ctx.queues.waiting) :
    actor ∉ system.ctx.queues.runnable := by
  rcases sound.placement with ⟨waiters, placement⟩
  intro runnable
  rw [placement.waiting] at waiting
  rcases List.mem_map.mp waiting with ⟨waiter, member, samePid⟩
  have same := sound.ownPid_inj (placement.waiter_live member) live samePid
  subst same
  exact (placement.runnable_notMem runnable).1 member

theorem Sound.ownPid_ne_zero (sound : system.Sound) {actor : Word}
    (live : actor ∈ system.live) : (system.actors actor).ownPid ≠ 0 := by
  rcases sound.pids with ⟨pool, represents⟩
  intro zero
  apply represents.slot_ne_zero (mem_holders live)
  rw [Holder.slot, zero]
  exact (by decide : slotOf 0 = 0)

/-- Waking an actor by the pid that resolves to it either finds it not waiting and
changes nothing, or moves it from the waiting queue to the runnable one. -/
theorem Sound.wake_cases (sound : system.Sound) {pid actor : Word}
    (live : actor ∈ system.live) (isOwn : (system.actors actor).ownPid = pid)
    (resolves : system.ctx.pids.lookupProcCtx pid = actor) (fresh : Nat → Word) :
    (pid ∉ system.ctx.queues.waiting ∧ system.ctx.wakeProcess pid fresh = system.ctx) ∨
      ∃ (position : Nat) (removed : ShedulerCtx),
        system.ctx.queues.waiting[position]? = some pid ∧
          removed.Coherent ∧ removed.Small ∧
          removed.queues = system.ctx.queues.resume position ∧
          removed.pids = system.ctx.pids ∧
          system.ctx.wakeProcess pid fresh = removed.newProcess actor fresh := by
  have pidReal : pid ≠ 0 := isOwn ▸ sound.ownPid_ne_zero live
  have small := sound.small
  rcases sound.coherent.wakeProcess_cases small pidReal fresh with
    absent | ⟨position, inRange, foundI, atPosition, atFound, woken⟩
  · exact .inl absent
  · right
    refine ⟨position, system.ctx.removedFromWait foundI, ?_,
      sound.coherent.removedFromWait_coherent inRange atFound, ?_,
      ShedulerCtx.Coherent.queues_removedFromWait inRange atFound, rfl, ?_⟩
    · rw [List.getElem?_eq_getElem inRange, atPosition]
    · exact small.removedFromWait inRange foundI
    · rw [woken, ShedulerCtx.wakeFound_eq, resolves,
        if_neg (sound.real actor live)]

theorem Sound.wake (sound : system.Sound) {pid actor : Word}
    (live : actor ∈ system.live) (isOwn : (system.actors actor).ownPid = pid)
    (resolves : system.ctx.pids.lookupProcCtx pid = actor) (fresh : Nat → Word) :
    ({ system with ctx := system.ctx.wakeProcess pid fresh } : System).Sound := by
  rcases sound.wake_cases live isOwn resolves fresh with
    ⟨-, unchanged⟩ | ⟨position, removed, atPosition, coherent, small, queues, pids, woken⟩
  · rw [unchanged]
    exact sound
  · have enqueued := coherent.queues_newProcess small actor fresh
    rw [woken]
    exact {
      coherent := coherent.newProcess_coherent small actor fresh
      pids := by
        rcases sound.pids with ⟨pool, represents⟩
        refine ⟨pool, ?_⟩
        change removed.pids.Represents system.holders pool
        rw [pids]
        exact represents
      placement := by
        rcases sound.placement with ⟨waiters, placement⟩
        refine ⟨swapPop waiters position, ?_⟩
        change Placement (removed.newProcess actor fresh).queues system.actors _
          system.live system.outstanding
        rw [enqueued, queues]
        apply placement.resume
        rw [placement.waiting, List.getElem?_map] at atPosition
        rcases Option.map_eq_some_iff.mp atPosition with ⟨waiter, atWaiter, samePid⟩
        have waiterLive := placement.waiter_live (List.mem_of_getElem? atWaiter)
        rw [atWaiter, sound.ownPid_inj waiterLive live (samePid.trans isOwn.symm)]
      real := sound.real
      active := by
        intro _ empty
        have room := small.runnable
        simp only [ShedulerCtx.newProcess] at empty
        bv_omega }

theorem Sound.send (sound : system.Sound) (pid : Word) (message : List Word)
    (fresh : Nat → Word)
    (handedOut : (slotOf pid).toNat < system.ctx.pids.pidTableLen.toNat) :
    (system.send pid message fresh).Sound := by
  by_cases none : system.ctx.pids.lookupProcCtx pid = 0
  · rwa [System.send, if_pos none]
  · rcases sound.ownPid_of_lookup handedOut none with ⟨live, isOwn⟩
    rw [System.send, if_neg none]
    exact (sound.wake live isOwn rfl fresh).update _ (update_same rfl rfl)

theorem Sound.done (sound : system.Sound) (running : system.running = true)
    (fresh : Nat → Word) : (system.done fresh).Sound := by
  let ownPid := (system.actors system.current).ownPid
  have live := sound.current_live running
  exact {
    coherent :=
      (sound.coherent_pids _).removeCurrentProcess_coherent (sound.active running)
    pids := by
      rcases sound.pids with ⟨pool, represents⟩
      have held : (system.done fresh).holders =
          system.holders.erase ⟨system.current, ownPid⟩ := by
        have injective : Function.Injective fun actor =>
            (⟨actor, (system.actors actor).ownPid⟩ : Holder) :=
          fun _ _ same => congrArg Holder.procCtx same
        exact List.map_erase injective system.live
      rw [held]
      exact ⟨_, represents.clearPid (mem_holders live) fresh⟩
    placement := by
      rcases sound.placement with ⟨waiters, placement⟩
      refine ⟨waiters, ?_⟩
      rw [sound.queues_done running]
      exact placement.removeCurrent (sound.current_runnable running)
    real := fun actor member => sound.real actor (List.mem_of_mem_erase member)
    active := by simp [System.done] }

/-! ## Completions -/

/-- Fixing the moved actor's position changes nothing but that position. -/
theorem fixParkedIdx_other (actors : Word → Actor) {lastVal matchIdx lastIdx other : Word} :
    (ShedulerCtx.fixParkedIdx actors lastVal matchIdx lastIdx other).ownPid =
        (actors other).ownPid ∧
      (other ≠ lastVal → ShedulerCtx.fixParkedIdx actors lastVal matchIdx lastIdx other =
        actors other) := by
  unfold ShedulerCtx.fixParkedIdx
  split
  · exact ⟨rfl, fun _ => rfl⟩
  · by_cases same : other = lastVal
    · simp [same]
    · simp [Function.update_of_ne same]

theorem fixParkedIdx_moved (actors : Word → Actor) {lastVal matchIdx lastIdx : Word}
    (different : matchIdx ≠ lastIdx) :
    (ShedulerCtx.fixParkedIdx actors lastVal matchIdx lastIdx lastVal).ioParkedIdx =
      matchIdx := by
  simp [ShedulerCtx.fixParkedIdx, different]

/-- The actors after a completion: the moved one has its new position, and the
woken one its result. -/
theorem complete_actors (system : System) {userData : Word} (res : BitVec 32)
    (real : userData ≠ 0) (other : Word) :
    ((system.complete userData res).actors other).ownPid = (system.actors other).ownPid ∧
      ((system.complete userData res).actors other).ioParkedIdx =
        (ShedulerCtx.fixParkedIdx system.actors
          (system.ctx.ioParked.load (system.ctx.ioParkedCount - 1))
          (system.actors userData).ioParkedIdx (system.ctx.ioParkedCount - 1)
          other).ioParkedIdx := by
  simp only [System.complete, ShedulerCtx.emitWakeByUserData, if_neg real]
  by_cases same : other = userData
  · subst same
    simp [fixParkedIdx_other]
  · simp [Function.update_of_ne same, fixParkedIdx_other]

theorem complete_zero (system : System) (res : BitVec 32) :
    system.complete 0 res =
      { system with outstanding := system.outstanding.erase 0 } := by
  simp [System.complete, ShedulerCtx.emitWakeByUserData]

theorem complete_ctx (system : System) {userData : Word} (res : BitVec 32)
    (real : userData ≠ 0) :
    (system.complete userData res).ctx =
      { system.ctx with
        ioParked := system.ctx.ioParked.store (system.actors userData).ioParkedIdx
          (system.ctx.ioParked.load (system.ctx.ioParkedCount - 1))
        ioParkedCount := system.ctx.ioParkedCount - 1
        processArr := system.ctx.processArr.store (system.ctx.lastProcessIndex + 1) userData
        lastProcessIndex := system.ctx.lastProcessIndex + 1
        realCountOfProcesses := system.ctx.realCountOfProcesses + 1 } :=
  ShedulerCtx.emitWakeByUserData_of_ne_zero system.actors res real

theorem Sound.complete_queues (sound : system.Sound) {userData : Word} (res : BitVec 32)
    (owed : userData ∈ system.outstanding) (real : userData ≠ 0) :
    ∃ position, system.ctx.queues.parked[position]? = some userData ∧
      (system.actors userData).ioParkedIdx.toNat = position ∧
      (system.complete userData res).ctx.queues =
        system.ctx.queues.unpark position userData := by
  rcases sound.placement with ⟨waiters, placement⟩
  have atPosition := placement.parked_of_owed owed real
  have inRange := (List.getElem?_eq_some_iff.mp atPosition).1
  exact ⟨_, atPosition, rfl, sound.coherent.queues_emitWakeByUserData sound.small
    system.actors res real inRange⟩

theorem Sound.complete (sound : system.Sound) (userData : Word) (res : BitVec 32)
    (owed : userData ∈ system.outstanding) : (system.complete userData res).Sound := by
  by_cases real : userData = 0
  · subst real
    rw [complete_zero]
    exact { sound with
      placement := by
        rcases sound.placement with ⟨waiters, placement⟩
        exact ⟨waiters, { placement with
          owed := (owedActors_erase owed).symm.trans placement.owed }⟩ }
  · have fields := complete_actors system res real
    rcases sound.complete_queues res owed real with ⟨position, atPosition, isIdx, queues⟩
    have inRange := (List.getElem?_eq_some_iff.mp atPosition).1
    have nonempty : system.ctx.ioParkedCount ≠ 0 := by
      intro empty
      rw [ShedulerCtx.length_parked, empty] at inRange
      exact absurd inRange (Nat.not_lt_zero _)
    have last := ShedulerCtx.getElem?_parked_last nonempty
    exact {
      coherent := sound.coherent.emitWakeByUserData_coherent sound.small system.actors
        userData res
      pids := by
        rcases sound.pids with ⟨pool, represents⟩
        refine ⟨pool, ?_⟩
        have held : (system.complete userData res).holders = system.holders :=
          holders_congr fun actor _ => (fields actor).1
        have samePids : (system.complete userData res).ctx.pids = system.ctx.pids := by
          rw [System.complete,
            ShedulerCtx.emitWakeByUserData_of_ne_zero system.actors res real]
        rw [held, samePids]
        exact represents
      placement := by
        rcases sound.placement with ⟨waiters, placement⟩
        refine ⟨waiters, ?_⟩
        rw [queues]
        refine placement.unpark owed real atPosition (fun other => (fields other).1) ?_ ?_
        · intro moved notLast isLast
          rw [last] at isLast
          rw [(fields moved).2, ← Option.some.inj isLast, fixParkedIdx_moved, isIdx]
          intro same
          rw [ShedulerCtx.length_parked] at notLast
          rw [same, toNat_pred nonempty] at isIdx
          omega
        · intro other notLast
          rw [(fields other).2, (fixParkedIdx_other system.actors).2]
          intro same
          exact notLast (by rw [last, same])
      real := sound.real
      active := by
        intro _ empty
        have room := sound.small.runnable
        rw [System.complete,
          ShedulerCtx.emitWakeByUserData_of_ne_zero system.actors res real] at empty
        simp only at empty
        bv_omega }

end System

/-! ## Every step and every run -/

theorem Step.sound {system next : System} {event : Event} (sound : system.Sound)
    (step : Step system event next) : next.Sound := by
  cases step with
  | complete userData res _ owed => exact sound.complete userData res owed
  | dispatch _ nonempty => exact sound.dispatch nonempty
  | spawn procCtx memory freshPids fresh _ real new fits =>
      exact sound.spawn procCtx memory freshPids fresh real new fits
  | send pid message fresh _ handedOut => exact sound.send pid message fresh handedOut
  | dequeue varBase count => exact sound.dequeue varBase count
  | submit => exact sound.submit
  | yield running => exact sound.yield running
  | wait fresh running => exact sound.wait running fresh
  | park running => exact sound.park running
  | done fresh running => exact sound.done running fresh

theorem System.sound_of_run {main : Word} {memory : Word → Actor}
    {history : List (Stage System Event)} {final : System} (real : main ≠ 0)
    (run : Run Step (System.start main memory) history final) :
    Throughout System.Sound history final :=
  run.invariant (start_sound main memory real) fun _ _ _ sound step => step.sound sound

end LakeNative.Runtime

import LakeNative.Runtime.SystemInvariant

/-! # No actor is lost or duplicated

What the arrays and counters of the scheduler context hold in every reachable
state, in terms of the raw entries.
-/

namespace LakeNative.Scheduler

open LakeNative.Runtime LakeNative.Transitions LakeNative.DenseArray

/-- Every live actor sits in exactly one of `process_arr[0..REAL_COUNT)`, `wait_arr`
(by its pid) and `io_parked[0..IO_PARKED_COUNT)`, exactly once, nothing else sits
there, and the counters agree with the arrays. -/
structure ActorsPlaced (system : System) : Prop where
  once : ∀ actor ∈ system.live,
    system.ctx.queues.runnable.count actor +
      system.ctx.queues.waiting.count (system.actors actor).ownPid +
      system.ctx.queues.parked.count actor = 1
  runnableLive : ∀ actor ∈ system.ctx.queues.runnable, actor ∈ system.live
  parkedLive : ∀ actor ∈ system.ctx.queues.parked, actor ∈ system.live
  waitEntries : ∀ index : Nat,
    (∃ actor ∈ system.live, system.ctx.waitArr.entry index = (system.actors actor).ownPid) ↔
      1 ≤ index ∧ index ≤ system.ctx.lastWaitedProcessIndex.toNat
  waitedCount : system.ctx.waitedProcessCount = system.ctx.lastWaitedProcessIndex
  last : system.ctx.lastProcessIndex + 1 = system.ctx.realCountOfProcesses
  currentIn : 0 < system.ctx.realCountOfProcesses →
    system.ctx.currentProcess < system.ctx.realCountOfProcesses
  currentReset : system.ctx.realCountOfProcesses = 0 → system.ctx.currentProcess = 0
  parkedIdx : ∀ (index : Nat) (actor : Word), index < system.ctx.ioParkedCount.toNat →
    system.ctx.ioParked.entry index = actor →
    (system.actors actor).ioParkedIdx.toNat = index

/-- The buffers that the call allocates read as zero. -/
def FreshZero (_ : System) : Event → Prop
  | .spawn _ _ freshPids fresh => (∀ index, freshPids index = ⟨0, 0⟩) ∧ ∀ index, fresh index = 0
  | .send _ _ fresh => ∀ index, fresh index = 0
  | .wait fresh => ∀ index, fresh index = 0
  | .done fresh => ∀ index, fresh index = 0
  | _ => True

/-- The entries of `wait_arr` behind the last one are cleared. -/
def WaitTailZero (ctx : ShedulerCtx) : Prop :=
  ∀ index, ctx.lastWaitedProcessIndex.toNat < index → ctx.waitArr.entry index = 0

theorem waitTail_waitCurrentProcess {ctx : ShedulerCtx} (small : ctx.Small)
    (tail : WaitTailZero ctx) (ownPid : Word) {fresh : Nat → Word}
    (zeroed : ∀ index, fresh index = 0) :
    WaitTailZero (ctx.waitCurrentProcess ownPid fresh) := by
  intro index behind
  have room := small.waiting
  have succ := toNat_succ ctx.lastWaitedProcessIndex (by omega)
  simp only [ShedulerCtx.waitCurrentProcess, succ] at behind
  simp only [ShedulerCtx.waitCurrentProcess, HeapArray.store_entry]
  rw [Function.update_of_ne (by omega), HeapArray.emitGrowArrayIfFull]
  split
  · simp only
    rw [if_neg (by omega), zeroed]
  · exact tail index (by omega)

theorem waitTail_removedFromWait {ctx : ShedulerCtx} (tail : WaitTailZero ctx)
    {foundI : Word} (positive : 1 ≤ foundI.toNat)
    (inRange : foundI.toNat ≤ ctx.lastWaitedProcessIndex.toNat) :
    WaitTailZero (ctx.removedFromWait foundI) := by
  intro index behind
  have lowered : (ctx.lastWaitedProcessIndex - 1).toNat =
      ctx.lastWaitedProcessIndex.toNat - 1 := by bv_omega
  simp only [ShedulerCtx.removedFromWait, lowered] at behind
  simp only [ShedulerCtx.removedFromWait, HeapArray.store_entry]
  by_cases isLast : index = ctx.lastWaitedProcessIndex.toNat
  · rw [isLast, Function.update_self]
  · rw [Function.update_of_ne isLast, Function.update_of_ne (by omega)]
    exact tail index (by omega)

theorem waitTail_wakeProcess {ctx : ShedulerCtx} (coherent : ctx.Coherent)
    (small : ctx.Small) (tail : WaitTailZero ctx) {pid : Word} (real : pid ≠ 0)
    (fresh : Nat → Word) : WaitTailZero (ctx.wakeProcess pid fresh) := by
  rcases coherent.wakeProcess_cases small real fresh with
    ⟨-, unchanged⟩ | ⟨position, inRange, foundI, -, atFound, woken⟩
  · rwa [unchanged]
  · rw [ShedulerCtx.length_waiting] at inRange
    have removed := @waitTail_removedFromWait ctx tail foundI (by omega) (by omega)
    rw [woken, ShedulerCtx.wakeFound_eq]
    split
    · exact removed
    · exact removed

theorem waitTail_step {system next : System} {event : Event} (sound : system.Sound)
    (tail : WaitTailZero system.ctx) (zeroed : FreshZero system event)
    (step : Step system event next) : WaitTailZero next.ctx := by
  cases step with
  | complete userData res =>
      by_cases real : userData = 0
      · subst real
        rwa [System.complete_zero]
      · rw [System.complete,
          ShedulerCtx.emitWakeByUserData_of_ne_zero system.actors res real]
        exact tail
  | send pid message fresh _ handedOut =>
      by_cases none : system.ctx.pids.lookupProcCtx pid = 0
      · rwa [System.send, if_pos none]
      · rcases sound.ownPid_of_lookup handedOut none with ⟨live, isOwn⟩
        rw [System.send, if_neg none]
        exact waitTail_wakeProcess sound.coherent sound.small tail
          (isOwn ▸ sound.ownPid_ne_zero live) fresh
  | wait fresh =>
      exact waitTail_waitCurrentProcess sound.small tail _ zeroed
  | dispatch => exact tail
  | spawn => exact tail
  | dequeue => exact tail
  | submit => exact tail
  | yield => exact tail
  | park => exact tail
  | done => exact tail

theorem count_waiting {system : System} (sound : system.Sound) {waiters : List Word}
    (placement : Placement system.ctx.queues system.actors waiters system.live
      system.outstanding) {actor : Word} (live : actor ∈ system.live) :
    system.ctx.queues.waiting.count (system.actors actor).ownPid = waiters.count actor := by
  rw [placement.waiting, List.count, List.countP_map, List.count]
  apply List.countP_congr
  intro waiter member
  simp only [Function.comp_apply, beq_iff_eq]
  exact ⟨sound.ownPid_inj (placement.waiter_live member) live,
    fun same => by rw [same]⟩

theorem actorsPlaced_of_sound {system : System} (sound : system.Sound)
    (tail : WaitTailZero system.ctx) : ActorsPlaced system := by
  rcases sound.placement with ⟨waiters, placement⟩
  exact {
    once := by
      intro actor live
      rw [count_waiting sound placement live, placement.count actor]
      exact List.count_eq_one_of_mem placement.nodup live
    runnableLive := fun _ => placement.runnable_live
    parkedLive := fun _ => placement.parked_live
    waitEntries := by
      intro index
      constructor
      · rintro ⟨actor, live, holdsPid⟩
        have real := sound.ownPid_ne_zero live
        constructor
        · by_contra atZero
          have isZero : index = 0 := by omega
          rw [isZero, sound.coherent.unusedEntry] at holdsPid
          exact real holdsPid.symm
        · by_contra behind
          rw [tail index (by omega)] at holdsPid
          exact real holdsPid.symm
      · rintro ⟨lower, upper⟩
        have entered : system.ctx.waitArr.entry index ∈ system.ctx.queues.waiting :=
          mem_cellsFrom.mpr ⟨index - 1, by omega, by rw [Nat.add_sub_cancel' lower]⟩
        rw [placement.waiting] at entered
        rcases List.mem_map.mp entered with ⟨waiter, member, samePid⟩
        exact ⟨waiter, placement.waiter_live member, samePid.symm⟩
    waitedCount := sound.coherent.waited
    last := sound.coherent.last
    currentIn := by
      intro positive
      have inside := sound.coherent.cursorIn
      bv_omega
    currentReset := sound.coherent.cursorReset
    parkedIdx := by
      intro index actor inRange holdsActor
      apply placement.parkedIdx index actor
      rw [List.getElem?_eq_getElem (by simpa using inRange)]
      simp [ShedulerCtx.queues, HeapArray.slice, holdsActor] }

/-- In every run over fresh memory that reads as zero, every state the run goes
through has every live actor in exactly one place. -/
theorem actors_placed {main : Word} {memory : Word → Actor}
    {history : List (Stage System Event)} {final : System} (real : main ≠ 0)
    (run : Run Step (System.start main memory) history final)
    (zeroed : Meets FreshZero history) : Throughout ActorsPlaced history final := by
  have invariant : Throughout (fun system => system.Sound ∧ WaitTailZero system.ctx)
      history final :=
    run.invariant_of_meets zeroed ⟨System.start_sound main memory real, fun _ _ => rfl⟩
      (fun _ _ _ held zeroed step =>
        ⟨step.sound held.1, waitTail_step held.1 held.2 zeroed step⟩)
  exact ⟨fun stage member =>
      actorsPlaced_of_sound (invariant.1 stage member).1 (invariant.1 stage member).2,
    actorsPlaced_of_sound invariant.2.1 invariant.2.2⟩

/-- The main actor spawns one, parks on I/O and is woken by its completion. -/
theorem actors_placed_park :
    let started := System.start 16 fun _ => .zeroed
    let spawned := { started with running := true }.spawn 32 .zeroed (fun _ => ⟨0, 0⟩)
      fun _ => 0
    ActorsPlaced (spawned.park.complete 16 5) := by
  intro started spawned
  have dispatch : Step started .dispatch { started with running := true } :=
    .dispatch rfl (by decide)
  have spawn : Step { started with running := true } (.spawn 32 .zeroed _ _) spawned :=
    .spawn 32 .zeroed _ _ rfl (by decide) (by decide) (by decide)
  have park : Step spawned .park spawned.park := .park rfl
  have complete : Step spawned.park (.complete 16 5) (spawned.park.complete 16 5) :=
    .complete 16 5 rfl (by decide)
  have run := (((Run.refl.next dispatch).next spawn).next park).next complete
  refine (actors_placed (by decide) run ?_).2
  simp [meets_cons, FreshZero]

end LakeNative.Scheduler

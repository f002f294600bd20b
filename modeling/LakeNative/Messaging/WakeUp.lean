import LakeNative.Messaging.MailSteps
import LakeNative.Scheduler.OverwrittenHeader

/-! # No wake-up is lost

An actor enters `wait_arr` with equal mailbox ends, only a send moves its tail, and
that send takes it out of `wait_arr`. A completion that stores past `process_arr`
hides `wait_arr` from later sends.
-/

namespace LakeNative.Messaging

open LakeNative.Runtime LakeNative.Scheduler LakeNative.Transitions LakeNative.DenseArray

/-- Every pid in `wait_arr` is that of a live actor with equal mailbox ends; so an
actor with unread words is not there, as long as they are fewer than the ring
holds. -/
structure NoLostWakeUp (system : System) : Prop where
  recorded : ∀ pid ∈ system.ctx.queues.waiting,
    ∃ actor ∈ system.live, (system.actors actor).ownPid = pid ∧
      (system.actors actor).mailboxHead = (system.actors actor).mailboxTail
  unread : ∀ actor ∈ system.live, (system.logs actor).unread < MAILBOX_WORDS →
    (system.logs actor).unread ≠ 0 →
    (system.actors actor).ownPid ∉ system.ctx.queues.waiting

/-- A waiting actor's mailbox ends are equal. -/
def WaitsEmpty (system : System) : Prop :=
  ∀ actor ∈ system.live, (system.actors actor).ownPid ∈ system.ctx.queues.waiting →
    (system.actors actor).mailboxHead = (system.actors actor).mailboxTail

/-- The mailbox ends count the words sent and read, whatever was read. -/
def EndsCount (system : System) : Prop :=
  ∀ actor ∈ system.live,
    ((system.actors actor).mailboxHead.toNat + (system.logs actor).sent.length) %
        MAILBOX_WORDS =
      ((system.actors actor).mailboxTail.toNat + (system.logs actor).read.length) %
        MAILBOX_WORDS

/-! ## The waiting actors -/

section Waiting

variable {system : System}

theorem waiting_owner (sound : system.Sound) {pid : Word}
    (waiting : pid ∈ system.ctx.queues.waiting) :
    ∃ actor ∈ system.live, (system.actors actor).ownPid = pid := by
  rcases sound.placement with ⟨waiters, placement⟩
  rw [placement.waiting] at waiting
  rcases List.mem_map.mp waiting with ⟨actor, member, isPid⟩
  exact ⟨actor, placement.waiter_live member, isPid⟩

theorem waiting_nodup (sound : system.Sound) : system.ctx.queues.waiting.Nodup := by
  rcases sound.placement with ⟨waiters, placement⟩
  have distinct := (List.nodup_append.mp (List.nodup_append.mp placement.all_nodup).1).2.1
  rw [placement.waiting]
  exact distinct.map_on fun actor member other otherMember samePid =>
    sound.ownPid_inj (placement.waiter_live member) (placement.waiter_live otherMember)
      samePid

/-- A wake takes the pid out of `wait_arr` and puts none in. -/
theorem waiting_wakeProcess (sound : system.Sound) {pid actor : Word}
    (live : actor ∈ system.live) (isOwn : (system.actors actor).ownPid = pid)
    (resolves : system.ctx.pids.lookupProcCtx pid = actor) (fresh : Nat → Word) :
    pid ∉ (system.ctx.wakeProcess pid fresh).queues.waiting ∧
      (system.ctx.wakeProcess pid fresh).queues.waiting ⊆ system.ctx.queues.waiting := by
  rcases sound.wake_cases live isOwn resolves fresh with
    ⟨absent, unchanged⟩ | ⟨position, removed, atPosition, -, -, queues, -, woken⟩
  · rw [unchanged]
    exact ⟨absent, fun _ member => member⟩
  · have isRemoved : (system.ctx.wakeProcess pid fresh).queues.waiting =
        swapPop system.ctx.queues.waiting position := by
      rw [woken]
      exact congrArg Queues.waiting queues
    rcases List.getElem?_eq_some_iff.mp atPosition with ⟨inRange, isPid⟩
    rw [isRemoved]
    constructor
    · rw [← isPid]
      exact getElem_notMem_swapPop inRange (waiting_nodup sound)
    · exact fun _ member => mem_of_mem_swapPop inRange member

end Waiting

/-! ## One step -/

theorem waiting_complete {system : System} (sound : system.Sound) {userData : Word}
    (res : BitVec 32) (owed : userData ∈ system.outstanding) :
    (system.complete userData res).ctx.queues.waiting = system.ctx.queues.waiting ∧
      ∀ actor, ((system.complete userData res).actors actor).ownPid =
        (system.actors actor).ownPid := by
  by_cases real : userData = 0
  · subst real
    rw [System.complete_zero]
    exact ⟨rfl, fun _ => rfl⟩
  · rcases sound.complete_queues res owed real with ⟨position, -, -, queues⟩
    rw [queues]
    exact ⟨rfl, fun actor => (System.complete_actors system res real actor).1⟩

theorem waitsEmpty_step {system next : System} {event : Event} (sound : system.Sound)
    (empty : WaitsEmpty system) (step : Step system event next) : WaitsEmpty next := by
  cases step with
  | complete userData res _ owed =>
      rcases waiting_complete sound res owed with ⟨sameWaiting, samePid⟩
      intro actor live waiting
      have same := sameMail_complete system userData res actor
      rw [samePid, sameWaiting] at waiting
      rw [same.head, same.tail]
      exact empty actor live waiting
  | dispatch => exact empty
  | submit => exact empty
  | yield => exact empty
  | done => exact fun actor live => empty actor (List.mem_of_mem_erase live)
  | park =>
      intro actor live waiting
      have same := sameMail_park system actor
      have samePid : (system.park.actors actor).ownPid = (system.actors actor).ownPid := by
        simp only [System.park, ShedulerCtx.parkCurrent]
        by_cases isCurrent : actor = system.ctx.processArr.load system.ctx.currentProcess
        · rw [isCurrent, Function.update_self]
        · rw [Function.update_of_ne isCurrent]
      rw [samePid] at waiting
      rw [same.head, same.tail]
      exact empty actor live waiting
  | spawn procCtx memory freshPids fresh _ _ new =>
      intro actor live waiting
      simp only [System.spawn] at waiting ⊢
      by_cases isNew : actor = procCtx
      · rw [isNew, Function.update_self]
        rfl
      · have old : actor ∈ system.live := (List.mem_cons.mp live).resolve_left isNew
        rw [Function.update_of_ne isNew] at waiting ⊢
        exact empty actor old waiting
  | dequeue varBase count running =>
      intro actor live waiting
      simp only [System.dequeue] at waiting ⊢
      by_cases isCurrent : actor = system.current
      · rw [isCurrent, Function.update_self] at waiting
        exact absurd (List.mem_of_getElem? (sound.current_runnable running))
          (sound.waiting_not_runnable (sound.current_live running) waiting)
      · rw [Function.update_of_ne isCurrent] at waiting ⊢
        exact empty actor live waiting
  | wait fresh running sameEnds =>
      intro actor live waiting
      -- the loop appends the pid of the actor whose wait block saw equal ends
      rw [sound.queues_wait running] at waiting
      rcases List.mem_append.mp waiting with earlier | isLast
      · exact empty actor live earlier
      · have isCurrent := sound.ownPid_inj live (sound.current_live running)
          (List.mem_singleton.mp isLast)
        subst isCurrent
        exact sameEnds
  | send pid message fresh _ handedOut =>
      by_cases none : system.ctx.pids.lookupProcCtx pid = 0
      · rw [System.send, if_pos none]
        exact empty
      · rcases sound.ownPid_of_lookup handedOut none with ⟨target, isOwn⟩
        rcases waiting_wakeProcess sound target isOwn rfl fresh with ⟨taken, fewer⟩
        intro actor live waiting
        rw [System.send, if_neg none] at live waiting ⊢
        simp only at live waiting ⊢
        by_cases isTarget : actor = system.ctx.pids.lookupProcCtx pid
        · rw [isTarget, Function.update_self] at waiting
          have pidWaits : (system.actors (system.ctx.pids.lookupProcCtx pid)).ownPid ∈
              (system.ctx.wakeProcess pid fresh).queues.waiting := waiting
          rw [isOwn] at pidWaits
          exact absurd pidWaits taken
        · rw [Function.update_of_ne isTarget] at waiting ⊢
          exact empty actor live (fewer waiting)

theorem endsCount_step {system next : System} {event : Event} (counts : EndsCount system)
    (step : Step system event next) : EndsCount next := by
  intro actor live
  cases mailChange_step step live with
  | kept old same logs =>
      rw [same.head, same.tail, logs]
      exact counts actor old
  | sent pid message fresh isSend found old actors logs =>
      have before := counts actor old
      rw [actors, logs]
      simp only [Actor.enqueue, MailLog.send, ringIndex_add_toNat, List.length_append]
      simp only [MAILBOX_WORDS] at *
      omega
  | read varBase count isDequeue isCurrent old some actors logs =>
      have before := counts actor old
      rw [actors, logs]
      simp only [Actor.dequeue, MailLog.take, ringIndex_add_toNat, List.length_append,
        Actor.messageWords, List.length_map, List.length_range]
      simp only [MAILBOX_WORDS] at *
      omega
  | spawned new head tail logs =>
      rw [head, tail, logs]
      rfl

/-! ## Every run -/

theorem noLostWakeUp_of_sound {system : System} (sound : system.Sound)
    (empty : WaitsEmpty system) (counts : EndsCount system) : NoLostWakeUp system where
  recorded := by
    intro pid waiting
    rcases waiting_owner sound waiting with ⟨actor, live, isPid⟩
    exact ⟨actor, live, isPid, empty actor live (isPid ▸ waiting)⟩
  unread := by
    intro actor live fits some waiting
    have sameEnds := empty actor live waiting
    have counted := counts actor live
    rw [sameEnds] at counted
    simp only [MailLog.unread, MAILBOX_WORDS] at *
    omega

theorem start_endsCount (main : Word) (memory : Word → Actor) :
    EndsCount (System.start main memory) := by
  intro actor live
  rcases List.mem_singleton.mp live with rfl
  simp [System.start, Actor.spawned, MailLog.empty]

/-- No wake-up is lost in a run whose completions and parks find room in their arrays. -/
theorem no_lost_wake_up {main : Word} {memory : Word → Actor}
    {history : List (Stage HeapSystem Event)} {final : HeapSystem} (real : main ≠ 0)
    (run : Run HeapStep (.start main memory) history final)
    (room : Meets HeapHasRoom history) :
    Throughout (fun state => NoLostWakeUp state.system) history final := by
  have initially : WaitsEmpty (System.start main memory) :=
    fun _ _ waiting => absurd waiting List.not_mem_nil
  have invariant : Throughout (fun state => Inside state ∧ WaitsEmpty state.system ∧
      EndsCount state.system) history final := by
    apply run.invariant_of_meets room
    · exact ⟨start_inside memory real, initially, start_endsCount main memory⟩
    · rintro current label next ⟨inside, empty, counts⟩ fits taken
      rcases inside.step fits taken with ⟨step, after⟩
      exact ⟨after, waitsEmpty_step inside.supported.sound empty step,
        endsCount_step counts step⟩
  have holds : ∀ state : HeapSystem, Inside state ∧ WaitsEmpty state.system ∧
      EndsCount state.system → NoLostWakeUp state.system :=
    fun _ held => noLostWakeUp_of_sound held.1.supported.sound held.2.1 held.2.2
  exact ⟨fun stage member => holds _ (invariant.1 stage member), holds _ invariant.2⟩

/-- The main actor spawns one that waits, sends it a word, parks and is woken. -/
theorem no_lost_wake_up_child :
    let started := System.start 16 fun _ => .zeroed
    let spawned := { started with running := true }.spawn 32 .zeroed (fun _ => ⟨0, 0⟩)
      fun _ => 0
    let waited := { spawned.yield with running := true }.wait fun _ => 0
    let sent := { waited with running := true }.send 0x100000002 [7] fun _ => 0
    NoLostWakeUp sent ∧ NoLostWakeUp (sent.park.complete 16 0) := by
  intro started spawned waited sent
  have dispatch : Step started .dispatch { started with running := true } :=
    .dispatch rfl (by decide)
  have spawn : Step { started with running := true } (.spawn 32 .zeroed _ _) spawned :=
    .spawn 32 .zeroed _ _ rfl (by decide) (by decide) (by decide)
  have yield : Step spawned .yield spawned.yield := .yield rfl
  have child : Step spawned.yield .dispatch { spawned.yield with running := true } :=
    .dispatch rfl (by decide)
  have wait : Step { spawned.yield with running := true } (.wait _) waited :=
    .wait _ rfl (by decide)
  have again : Step waited .dispatch { waited with running := true } :=
    .dispatch rfl (by decide)
  have send : Step { waited with running := true } (.send 0x100000002 [7] fun _ => 0) sent :=
    .send _ _ _ rfl (by decide)
  have park : Step sent .park sent.park := .park rfl
  have complete : Step sent.park (.complete 16 0) (sent.park.complete 16 0) :=
    .complete 16 0 rfl (by decide)
  have run := ((((((((Run.refl.next dispatch).next spawn).next yield).next child).next
    wait).next again).next send).next park).next complete
  have heapRun := heapRun_of_room (by decide) run (by
    simp only [meets_cons, meets_nil, HasRoom, and_true]
    decide)
  have kept := no_lost_wake_up (by decide) heapRun.1 (by
    simp only [List.map_cons, List.map_nil, meets_cons, meets_nil, HeapHasRoom, HasRoom, and_true]
    decide)
  exact ⟨kept.1 ⟨⟨sent, .nothing⟩, .park⟩ (by simp), kept.2⟩

/-! ## A send behind an overrun

An actor waits, another one fills `process_arr`, and the completion of the parked main actor's
request overwrites where `wait_arr` starts. -/

/-- The actor that waits, and its pid. -/
def waiter : Word := contextAt 2

def waiterPid : Word := 0x100000003

/-- The third actor is the only one in `wait_arr`, and nothing was sent to it. -/
structure WaitsAlone (system : System) : Prop where
  live : waiter ∈ system.live
  ownPid : (system.actors waiter).ownPid = waiterPid
  log : system.logs waiter = .empty
  last : system.ctx.lastWaitedProcessIndex = 1
  entry : system.ctx.waitArr.entry 1 = waiterPid
  cap : system.ctx.waitArr.cap = INITIAL_QUEUE_CAP
  resolves : system.ctx.pids.pidTable.entry 3 = ⟨1, waiter⟩
  handedOut : 4 ≤ system.ctx.pids.pidTableLen.toNat

namespace WaitsAlone

variable {system : System}

theorem spawned {count : Nat} (alone : WaitsAlone system) (crowded : Crowded system count)
    (few : count < 4095) : WaitsAlone (spawnZeroed system (contextAt (count + 3))) := by
  have other : waiter ≠ contextAt (count + 3) := by
    intro same
    exact crowded.new few (same ▸ alone.live)
  have len := crowded.pidTableLen
  have handedOut := alone.handedOut
  have lenSucc := toNat_succ system.ctx.pids.pidTableLen (by omega)
  exact {
    live := List.mem_cons_of_mem _ alone.live
    ownPid := by
      simp only [spawnZeroed, System.spawn, Function.update_of_ne other]
      exact alone.ownPid
    log := by
      simp only [spawnZeroed, System.spawn, Function.update_of_ne other]
      exact alone.log
    last := alone.last
    entry := alone.entry
    cap := alone.cap
    resolves := by
      simp only [spawnZeroed, System.spawn, ShedulerCtx.newProcess, PidTable.assignPid,
        PidTable.assignedFrom, crowded.acquired, HeapArray.store_entry]
      rw [Function.update_of_ne (by omega), HeapArray.grow_entry_of_lt _ _ _ (by omega)]
      exact alone.resolves
    handedOut := by
      simp only [spawnZeroed, System.spawn, ShedulerCtx.newProcess, PidTable.assignPid,
        crowded.acquired]
      omega }

theorem completed (alone : WaitsAlone system) :
    WaitsAlone (system.complete (contextAt 0) 0) := by
  have real : contextAt 0 ≠ 0 := by decide
  have ctx := system.complete_ctx 0 real
  exact {
    live := alone.live
    ownPid := (System.complete_actors system 0 real waiter).1.trans alone.ownPid
    log := alone.log
    last := by
      rw [ctx]
      exact alone.last
    entry := by
      rw [ctx]
      exact alone.entry
    cap := by
      rw [ctx]
      exact alone.cap
    resolves := by
      rw [ctx]
      exact alone.resolves
    handedOut := by
      rw [ctx]
      exact alone.handedOut }

theorem lookup (alone : WaitsAlone system) :
    system.ctx.pids.lookupProcCtx waiterPid = waiter := by
  have slot : (slotOf waiterPid).toNat = 3 := by decide
  simp only [PidTable.lookupProcCtx, HeapArray.load, slot, alone.resolves]
  decide

theorem waiting (alone : WaitsAlone system) : waiterPid ∈ system.ctx.queues.waiting := by
  have inRange : 0 < system.ctx.queues.waiting.length := by
    rw [ShedulerCtx.length_waiting, alone.last]
    decide
  have first := ShedulerCtx.getElem_waiting inRange
  rw [alone.entry] at first
  exact first ▸ List.getElem_mem inRange

end WaitsAlone

/-- A send whose wake does not find the actor leaves it in `wait_arr` with unread words. -/
theorem WaitsAlone.lost {system : System} (alone : WaitsAlone system) (fresh : Nat → Word) :
    ¬ NoLostWakeUp { system.send waiterPid [7] fresh with ctx := system.ctx } := by
  intro kept
  have real : waiter ≠ 0 := by decide
  rw [System.send, alone.lookup, if_neg real] at kept
  have unread : (Function.update system.logs waiter ((system.logs waiter).send [7]) waiter).unread =
      1 := by
    rw [Function.update_self, alone.log]
    rfl
  have ownPid : (Function.update system.actors waiter ((system.actors waiter).enqueue [7])
      waiter).ownPid = waiterPid := by
    rw [Function.update_self]
    exact alone.ownPid
  apply kept.unread waiter alone.live
  · exact Nat.lt_of_le_of_lt (Nat.le_of_eq unread) (by decide)
  · exact fun none => absurd (unread.symm.trans none) (by decide)
  · have waiting := alone.waiting
    rw [← ownPid] at waiting
    exact waiting

/-- The run up to the full `process_arr`. -/
theorem full_run : ∃ history final,
    Run Step (System.start (contextAt 0) fun _ => .zeroed) history final ∧
      Meets HasRoom history ∧ Crowded final 4095 ∧ WaitsAlone final := by
  let started := System.start (contextAt 0) fun _ => .zeroed
  let first := spawnZeroed { started with running := true } (contextAt 1)
  let second := spawnZeroed first waiter
  let waited := { second.park with running := true }.wait fun _ => 0
  have dispatch : Step started .dispatch { started with running := true } :=
    .dispatch rfl (by decide)
  have spawn : Step { started with running := true } (.spawn (contextAt 1) .zeroed _ _) first :=
    .spawn _ .zeroed _ _ rfl (by decide) (by decide) (by decide)
  have another : Step first (.spawn waiter .zeroed _ _) second :=
    .spawn _ .zeroed _ _ rfl (by decide) (by decide) (by decide)
  have park : Step second .park second.park := .park rfl
  have waits : Step second.park .dispatch { second.park with running := true } :=
    .dispatch rfl (by decide)
  have wait : Step { second.park with running := true } (.wait _) waited :=
    .wait _ rfl (by decide)
  have next : Step waited .dispatch { waited with running := true } :=
    .dispatch rfl (by decide)
  have run := ((((((Run.refl.next dispatch).next spawn).next another).next park).next
    waits).next wait).next next
  have crowded : Crowded { waited with running := true } 0 := {
    running := rfl
    runnable := (by decide : ((1 : Word) + 1 + 1 - 1 - 1).toNat = 1)
    cap := rfl
    waitArr := (by decide : (1 : Word).toNat < 4096)
    ioParked := ⟨rfl, rfl⟩
    outstanding := rfl
    pidTableLen := (by decide : 3 ≤ (4 : Word).toNat ∧ (4 : Word).toNat ≤ 4)
    noFree := rfl
    pidTableCap := .inl rfl
    addresses := by
      intro actor live
      have isOne : actor ∈ [waiter, contextAt 1, contextAt 0] := live
      simp only [List.mem_cons, List.not_mem_nil, or_false] at isOne
      rcases isOne with rfl | rfl | rfl <;> decide }
  have alone : WaitsAlone { waited with running := true } := {
    live := List.mem_cons_self
    ownPid := by decide
    log := rfl
    last := rfl
    entry := by decide
    cap := rfl
    resolves := by decide
    handedOut := (by decide : 4 ≤ (4 : Word).toNat) }
  exact crowded.fill WaitsAlone (System.start_sound _ _ (by decide)) run
    (by
      simp only [meets_cons, meets_nil, HasRoom, and_true]
      decide)
    alone (fun _ _ _ crowded few alone => alone.spawned crowded few) 4095 (Nat.le_refl _)

/-- The completion at the full `process_arr` leaves a start word in front of `wait_arr`. -/
theorem behind_full {system : System} (sound : system.Sound) (inBounds : InBounds system.ctx)
    (crowded : Crowded system 4095) (alone : WaitsAlone system) :
    behind (system.yield.complete (contextAt 0) 0).ctx = .waitStart (contextAt 0) := by
  have real : contextAt 0 ≠ 0 := by decide
  have owed : contextAt 0 ∈ system.yield.outstanding := by
    change contextAt 0 ∈ system.outstanding
    simp [crowded.outstanding]
  rcases (sound.yield crowded.running).complete_queues 0 owed real with
    ⟨position, atPosition, isIdx, -⟩
  have inRange := (List.getElem?_eq_some_iff.mp atPosition).1
  rw [ShedulerCtx.length_parked, ← isIdx] at inRange
  have parked : (system.actors (contextAt 0)).ioParkedIdx.toNat < system.ctx.ioParked.cap := by
    have few := (crowded.roomy (Nat.le_refl _)).ioParked
    exact Nat.lt_of_lt_of_le inRange few
  have last : system.yield.ctx.lastProcessIndex + 1 = 4096 := by
    apply BitVec.eq_of_toNat_eq
    exact (congrArg BitVec.toNat sound.coherent.last).trans crowded.runnable
  have cap : system.ctx.processArr.cap = INITIAL_QUEUE_CAP := crowded.cap
  rw [system.yield.complete_ctx 0 real, last]
  simp [behind, HeapArray.store, System.yield, ShedulerCtx.nextProcess, inBounds.waitArr,
    inBounds.ioParked, inBounds.pidTable, inBounds.freeSlots, cap, alone.cap, parked,
    INITIAL_QUEUE_CAP]

/-- The words at the main actor's context: the start and the end of its payload. -/
def mainBlock (index : Nat) : Word := if index = 0 then contextAt 0 + 16 else contextAt 0 + 56

theorem scan_mainBlock (array : HeapArray Word) :
    ShedulerCtx.scanWaitArr { array with entry := mainBlock } waiterPid 0 1 = none := by
  have start : mainBlock 0 ≠ waiterPid := by decide
  have stop : mainBlock 1 ≠ waiterPid := by decide
  rw [ShedulerCtx.scanWaitArr, if_neg, ShedulerCtx.scanWaitArr, if_neg]
  · exact stop
  · exact start

/-- A send behind an overrun does not wake the actor it sends to: its pid stays in `wait_arr`
with an unread word in its mailbox. -/
theorem send_behind_overrun_lost :
    ¬ ∀ (main : Word) (memory : Word → Actor) (history : List (Stage HeapSystem Event))
        (final : HeapSystem), main ≠ 0 →
      Run HeapStep (.start main memory) history final → NoLostWakeUp final.system := by
  intro never
  rcases full_run with ⟨history, final, run, room, crowded, alone⟩
  have yielded : Step final .yield final.yield := .yield crowded.running
  have sound := (System.sound_of_run (by decide) run).2
  rcases heapRun_of_room (by decide) run room with ⟨-, inside⟩
  rcases heapRun_of_room (by decide) (run.next yielded) (meets_cons.mpr ⟨trivial, room⟩) with
    ⟨heapRun, -⟩
  have owed : contextAt 0 ∈ final.yield.outstanding := by
    change contextAt 0 ∈ final.outstanding
    simp [crowded.outstanding]
  let woken := final.yield.complete (contextAt 0) 0
  have complete : HeapStep ⟨final.yield, .nothing⟩ (.complete (contextAt 0) 0)
      ⟨woken, .waitStart (contextAt 0)⟩ := by
    rw [← behind_full sound inside.inBounds crowded alone]
    exact .inside (.complete _ 0 rfl owed)
  have yieldAlone : WaitsAlone final.yield := { alone with }
  have wokenAlone : WaitsAlone woken := yieldAlone.completed
  have some : woken.ctx.realCountOfProcesses ≠ 0 := by
    have runnable : woken.ctx.realCountOfProcesses = final.ctx.realCountOfProcesses + 1 :=
      congrArg ShedulerCtx.realCountOfProcesses
        (final.yield.complete_ctx 0 (by decide : contextAt 0 ≠ 0))
    have count := crowded.runnable
    rw [runnable]
    intro none
    bv_omega
  have dispatch : HeapStep ⟨woken, .waitStart (contextAt 0)⟩ .dispatch
      ⟨{ woken with running := true }, .waitStart (contextAt 0)⟩ :=
    .kept (.dispatch rfl some) trivial
  let running : System := { woken with running := true }
  let sent : System := { running.send waiterPid [7] (fun _ => 0) with ctx := woken.ctx }
  have send : HeapStep ⟨running, .waitStart (contextAt 0)⟩
      (.send waiterPid [7] fun _ => 0) ⟨sent, .waitStart (contextAt 0)⟩ := by
    refine .unwoken waiterPid [7] (fun _ => 0) mainBlock rfl ?_ ?_ ?_
    · exact Nat.lt_of_lt_of_le (by decide) wokenAlone.handedOut
    · exact ⟨rfl, by decide⟩
    · have last : running.ctx.lastWaitedProcessIndex = 1 := wokenAlone.last
      have one : (1 : Word).toInt.toNat = 1 := rfl
      rw [last, one]
      exact scan_mainBlock _
  have kept := never _ _ _ _ (by decide) (((heapRun.next complete).next dispatch).next send)
  have runningAlone : WaitsAlone running := { wokenAlone with }
  exact runningAlone.lost (fun _ => 0) kept

end LakeNative.Messaging

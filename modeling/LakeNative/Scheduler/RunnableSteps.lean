import LakeNative.Runtime.SystemInvariant

/-! # What a step does to the runnable actors

Each step leaves `process_arr` and the cursor alone, dispatches the current actor,
appends an actor, moves the cursor on, or takes the current actor out.
-/

namespace LakeNative.Scheduler

open LakeNative.Runtime LakeNative.DenseArray

/-- The event puts an actor back into `process_arr`: the wake of a waiting actor by
a message, or the completion of a parked actor's request. -/
def Wakes (system : System) : Event → Word → Prop
  | .send pid _ _, actor =>
      pid ∈ system.ctx.queues.waiting ∧ system.ctx.pids.lookupProcCtx pid = actor ∧ actor ≠ 0
  | .complete userData _, actor => actor = userData ∧ userData ≠ 0
  | _, _ => False

/-- The event takes the current actor out of `process_arr`. -/
def Leaves : Event → Prop
  | .wait _ => True
  | .park => True
  | .done _ => True
  | _ => False

/-- What one step did to `process_arr`, the cursor and the running flag. -/
inductive RunnableChange (system next : System) (event : Event) : Prop
  | kept :
      event ≠ .dispatch →
      next.ctx.queues.runnable = system.ctx.queues.runnable →
      next.ctx.queues.cursor = system.ctx.queues.cursor →
      next.running = system.running →
      RunnableChange system next event
  | dispatched :
      event = .dispatch →
      next = { system with running := true } →
      system.running = false →
      system.ctx.realCountOfProcesses ≠ 0 →
      RunnableChange system next event
  | entered (actor : Word) :
      event ≠ .dispatch →
      actor ∉ system.live ∨ Wakes system event actor →
      actor ∉ system.ctx.queues.runnable →
      next.ctx.queues.runnable = system.ctx.queues.runnable ++ [actor] →
      next.ctx.queues.cursor = system.ctx.queues.cursor →
      next.running = system.running →
      RunnableChange system next event
  | yielded :
      event = .yield →
      system.running = true →
      next.running = false →
      next.ctx.queues = system.ctx.queues.advance →
      RunnableChange system next event
  | left :
      event ≠ .dispatch →
      Leaves event →
      system.running = true →
      next.running = false →
      next.ctx.queues.runnable =
        swapPop system.ctx.queues.runnable system.ctx.queues.cursor →
      next.ctx.queues.cursor =
        (if system.ctx.queues.cursor + 1 = system.ctx.queues.runnable.length then 0
          else system.ctx.queues.cursor) →
      RunnableChange system next event
  | parked :
      event = .park →
      system.running = true →
      next.running = false →
      next.ctx.queues.runnable =
        swapPop system.ctx.queues.runnable system.ctx.queues.cursor →
      next.ctx.queues.cursor = 0 →
      RunnableChange system next event

theorem parked_not_runnable {system : System} (sound : system.Sound) {actor : Word}
    {position : Nat} (atPosition : system.ctx.queues.parked[position]? = some actor) :
    actor ∉ system.ctx.queues.runnable := by
  rcases sound.placement with ⟨waiters, placement⟩
  exact fun runnable =>
    (placement.runnable_notMem runnable).2 (List.mem_of_getElem? atPosition)

theorem runnableChange_send {system : System} (sound : system.Sound) (pid : Word)
    (message : List Word) (fresh : Nat → Word)
    (handedOut : (slotOf pid).toNat < system.ctx.pids.pidTableLen.toNat) :
    RunnableChange system (system.send pid message fresh) (.send pid message fresh) := by
  by_cases none : system.ctx.pids.lookupProcCtx pid = 0
  · rw [System.send, if_pos none]
    exact .kept (by simp) rfl rfl rfl
  · rcases sound.ownPid_of_lookup handedOut none with ⟨live, isOwn⟩
    rw [System.send, if_neg none]
    rcases sound.wake_cases live isOwn rfl fresh with
      ⟨-, unchanged⟩ | ⟨position, removed, atPosition, coherent, small, queues, -, woken⟩
    · exact .kept (by simp) (by rw [unchanged]) (by rw [unchanged]) rfl
    · have waiting := List.mem_of_getElem? atPosition
      have enqueued : (system.ctx.wakeProcess pid fresh).queues =
          (system.ctx.queues.resume position).enqueue
            (system.ctx.pids.lookupProcCtx pid) := by
        rw [woken, coherent.queues_newProcess small, queues]
      refine .entered _ (by simp) (.inr ⟨waiting, rfl, none⟩) ?_ ?_ ?_ rfl
      · apply sound.waiting_not_runnable live
        rwa [isOwn]
      · rw [enqueued]
        rfl
      · rw [enqueued]
        rfl

theorem runnableChange_complete {system : System} (sound : system.Sound) (userData : Word)
    (res : BitVec 32) (owed : userData ∈ system.outstanding) :
    RunnableChange system (system.complete userData res) (.complete userData res) := by
  by_cases real : userData = 0
  · subst real
    rw [System.complete_zero]
    exact .kept (by simp) rfl rfl rfl
  · rcases sound.complete_queues res owed real with ⟨position, atPosition, -, queues⟩
    refine .entered userData (by simp) (.inr ⟨rfl, real⟩) (parked_not_runnable sound atPosition)
      ?_ ?_ rfl
    · rw [queues]
      rfl
    · rw [queues]
      rfl

theorem runnableChange_step {system next : System} {event : Event} (sound : system.Sound)
    (step : Step system event next) : RunnableChange system next event := by
  cases step with
  | complete userData res _ owed => exact runnableChange_complete sound userData res owed
  | send pid message fresh _ handedOut =>
      exact runnableChange_send sound pid message fresh handedOut
  | dispatch idle nonempty => exact .dispatched rfl rfl idle nonempty
  | spawn procCtx memory freshPids fresh _ _ new =>
      have queues := sound.queues_spawn procCtx memory freshPids fresh
      have absent : procCtx ∉ system.ctx.queues.runnable := by
        rcases sound.placement with ⟨waiters, placement⟩
        exact fun member => new (placement.runnable_live member)
      refine .entered procCtx (by simp) (.inl new) absent ?_ ?_ rfl
      · rw [queues]
        rfl
      · rw [queues]
        rfl
  | dequeue => exact .kept (by simp) rfl rfl rfl
  | submit => exact .kept (by simp) rfl rfl rfl
  | yield running => exact .yielded rfl running rfl (sound.queues_yield running)
  | wait fresh running =>
      have queues := sound.queues_wait running fresh
      refine .left (by simp) trivial running rfl ?_ ?_
      · rw [queues]
        rfl
      · rw [queues]
        rfl
  | park running =>
      have queues := sound.queues_park running
      refine .parked rfl running rfl ?_ ?_
      · rw [queues]
        rfl
      · rw [queues]
        rfl
  | done fresh running =>
      have queues := sound.queues_done running fresh
      refine .left (by simp) trivial running rfl ?_ ?_
      · rw [queues]
        rfl
      · rw [queues]
        rfl

end LakeNative.Scheduler

import LakeNative.Library.RoundRobin
import LakeNative.Scheduler.RunnableSteps

/-! # Fairness of the scheduler

No actor is dispatched twice while another one stays runnable and is not
dispatched, as long as no removal and no wake-up moves an actor ahead of one that
it has already overtaken.
-/

namespace LakeNative.Scheduler

open LakeNative.Runtime LakeNative.Transitions LakeNative.DenseArray LakeNative.RoundRobin

/-- The stage dispatches the actor. -/
def Dispatches (stage : Stage System Event) (actor : Word) : Prop :=
  stage.label = .dispatch ∧ stage.state.current = actor

/-- Between two dispatches of an actor that lives on, every other actor that was in
`process_arr` all the time is dispatched. -/
def FairDispatch (past : List (Stage System Event)) (system : System) (event : Event) :
    Prop :=
  event = .dispatch → ∀ (between : List (Stage System Event)) (first : Stage System Event)
      (earlier : List (Stage System Event)), past = between ++ first :: earlier →
    Dispatches first system.current →
    (∀ stage ∈ between, system.current ∈ stage.state.live) →
    ∀ other ∈ system.ctx.queues.runnable, other ≠ system.current →
      (∀ stage ∈ between ++ [first], other ∈ stage.state.ctx.queues.runnable) →
      ∃ stage ∈ between, Dispatches stage other

/-- The actor was dispatched since the other one was last dispatched or put into
`process_arr`. -/
def Overtook (actor other : Word) : List (Stage System Event) → Prop
  | [] => False
  | stage :: past =>
      other ∈ stage.state.ctx.queues.runnable ∧ ¬ Dispatches stage other ∧
        (Dispatches stage actor ∨
          actor ∈ stage.state.live ∧ Overtook actor other past)

/-- The step moves no actor ahead of one that it has overtaken: neither the actor
woken at the end of `process_arr`, which passes those before the cursor; nor the
last actor, when it fills the place of the one that leaves; nor, when a park resets
the cursor, those before the cursor, which pass those behind it. -/
structure KeepsTurns (past : List (Stage System Event)) (system : System) (event : Event) :
    Prop where
  entering : ∀ actor, Wakes system event actor →
    ∀ other ∈ system.ctx.queues.runnable.take system.ctx.queues.cursor,
      ¬ Overtook actor other past
  filling : Leaves event → ∀ last ∈ system.ctx.queues.runnable.getLast?,
    ∀ other ∈ passed system.ctx.queues.runnable system.ctx.queues.cursor,
      ¬ Overtook last other past
  restarting : event = .park →
    ∀ actor ∈ system.ctx.queues.runnable.take system.ctx.queues.cursor,
    ∀ other ∈ system.ctx.queues.runnable.drop (system.ctx.queues.cursor + 1),
      ¬ Overtook actor other past

/-- Where the turns start: at the actor dispatched next if all are kept. -/
def nextTurn (system : System) : Nat :=
  if system.running then system.ctx.queues.cursor + 1 else system.ctx.queues.cursor

/-- No actor has overtaken one whose turn is later. -/
structure TurnsKept (past : List (Stage System Event)) (system : System) : Prop where
  sound : system.Sound
  inTurn : (turns system.ctx.queues.runnable (nextTurn system)).Pairwise
    fun actor other => ¬ Overtook actor other past
  served : system.running = true → ∀ actor, ¬ Overtook actor system.current past

/-! ## What a step adds to the history -/

theorem overtook_of_cons {actor other : Word} {system : System} {event : Event}
    {past : List (Stage System Event)} (noDispatch : event ≠ .dispatch)
    (overtook : Overtook actor other (⟨system, event⟩ :: past)) :
    other ∈ system.ctx.queues.runnable ∧ actor ∈ system.live ∧
      Overtook actor other past := by
  rcases overtook with ⟨runnable, -, dispatches | ⟨live, earlier⟩⟩
  · exact absurd dispatches.1 noDispatch
  · exact ⟨runnable, live, earlier⟩

theorem overtook_of_split {actor other : Word} {first : Stage System Event}
    {between earlier : List (Stage System Event)} (different : other ≠ actor)
    (dispatches : Dispatches first actor)
    (alive : ∀ stage ∈ between, actor ∈ stage.state.live)
    (runnable : ∀ stage ∈ between ++ [first], other ∈ stage.state.ctx.queues.runnable)
    (passedOver : ∀ stage ∈ between, ¬ Dispatches stage other) :
    Overtook actor other (between ++ first :: earlier) := by
  induction between with
  | nil =>
      refine ⟨runnable first (by simp), fun both => ?_, .inl dispatches⟩
      exact different (both.2.symm.trans dispatches.2)
  | cons stage between induction =>
      refine ⟨runnable stage (by simp), passedOver stage (by simp),
        .inr ⟨alive stage (by simp), ?_⟩⟩
      exact induction (fun later member => alive later (by simp [member]))
        (fun later member => runnable later (List.mem_cons_of_mem _ member))
        (fun later member => passedOver later (by simp [member]))

section Step

variable {past : List (Stage System Event)} {system next : System} {event : Event}

theorem nextTurn_le (sound : system.Sound) :
    nextTurn system ≤ system.ctx.queues.runnable.length := by
  have inside := sound.coherent.cursorIn
  have reset := sound.coherent.cursorReset
  rw [nextTurn, ShedulerCtx.length_runnable]
  split
  · exact sound.coherent.cursorIn (sound.active ‹_›)
  · change system.ctx.currentProcess.toNat ≤ _
    by_cases empty : system.ctx.realCountOfProcesses = 0
    · rw [reset empty, empty]
    · exact Nat.le_of_lt (inside empty)

theorem runnable_nodup (sound : system.Sound) : system.ctx.queues.runnable.Nodup := by
  rcases sound.placement with ⟨waiters, placement⟩
  exact (List.nodup_append.mp (List.nodup_append.mp placement.all_nodup).1).1

/-- The turns around a dispatch: the current actor is the first, and then the last. -/
theorem turns_dispatch (sound : system.Sound)
    (nonempty : system.ctx.realCountOfProcesses ≠ 0) :
    ∃ rest, turns system.ctx.queues.runnable system.ctx.queues.cursor =
        system.current :: rest ∧
      turns system.ctx.queues.runnable (system.ctx.queues.cursor + 1) =
        rest ++ [system.current] := by
  have atCursor := sound.coherent.getElem?_runnable_cursor nonempty
  rcases exists_parts (sound.coherent.cursor_lt nonempty) with
    ⟨before, current, behind, parts, atBefore⟩
  have isCurrent : current = system.current := by
    rw [parts, ← atBefore, List.getElem?_append_right (Nat.le_refl _), Nat.sub_self] at atCursor
    exact Option.some.inj atCursor
  subst isCurrent
  rw [parts, ← atBefore]
  exact ⟨behind ++ before, turns_parts before behind _, turns_parts_succ before behind _⟩

theorem TurnsKept.pairwise_cons (kept : TurnsKept past system)
    (noDispatch : event ≠ .dispatch) :
    (turns system.ctx.queues.runnable (nextTurn system)).Pairwise
      fun actor other => ¬ Overtook actor other (⟨system, event⟩ :: past) :=
  kept.inTurn.imp fun keeps overtook => keeps (overtook_of_cons noDispatch overtook).2.2

theorem TurnsKept.dispatched (kept : TurnsKept past system)
    (idle : system.running = false) (nonempty : system.ctx.realCountOfProcesses ≠ 0) :
    TurnsKept (⟨system, .dispatch⟩ :: past) { system with running := true } := by
  rcases turns_dispatch kept.sound nonempty with ⟨rest, before, after⟩
  have inTurn := kept.inTurn
  rw [nextTurn, idle, if_neg (by decide), before] at inTurn
  have different : system.current ∉ rest := by
    have perm : (turns system.ctx.queues.runnable system.ctx.queues.cursor).Nodup := by
      rw [turns_eq_rotate (Nat.le_of_lt (kept.sound.coherent.cursor_lt nonempty))]
      exact List.nodup_rotate.mpr (runnable_nodup kept.sound)
    rw [before] at perm
    exact (List.nodup_cons.mp perm).1
  have served : ∀ actor,
      ¬ Overtook actor system.current (⟨system, .dispatch⟩ :: past) :=
    fun _ overtook => overtook.2.1 ⟨rfl, rfl⟩
  exact {
    sound := kept.sound.dispatch nonempty
    inTurn := by
      rw [nextTurn, if_pos rfl]
      change (turns system.ctx.queues.runnable (system.ctx.queues.cursor + 1)).Pairwise _
      rw [after]
      refine List.pairwise_append.mpr ⟨?_, List.pairwise_singleton _ _, ?_⟩
      · refine (List.pairwise_cons.mp inTurn).2.imp_of_mem fun member _ keeps overtook => ?_
        rcases overtook with ⟨-, -, dispatches | ⟨-, earlier⟩⟩
        · exact different (dispatches.2 ▸ member)
        · exact keeps earlier
      · intro actor _ current isCurrent
        rw [List.mem_singleton.mp isCurrent]
        exact served actor
    served := fun _ => served }

theorem TurnsKept.entered (kept : TurnsKept past system) (sound : next.Sound)
    (keeps : KeepsTurns past system event) {actor : Word} (noDispatch : event ≠ .dispatch)
    (cause : actor ∉ system.live ∨ Wakes system event actor)
    (absent : actor ∉ system.ctx.queues.runnable)
    (runnable : next.ctx.queues.runnable = system.ctx.queues.runnable ++ [actor])
    (cursor : next.ctx.queues.cursor = system.ctx.queues.cursor)
    (running : next.running = system.running) :
    TurnsKept (⟨system, event⟩ :: past) next := by
  have sameTurn : nextTurn next = nextTurn system := by
    rw [nextTurn, nextTurn, running, cursor]
  have sameCurrent : next.running = true → next.current = system.current := by
    intro isRunning
    have before := kept.sound.current_runnable (running ▸ isRunning)
    have after := sound.current_runnable isRunning
    rw [runnable, cursor, List.getElem?_append_left
      (List.getElem?_eq_some_iff.mp before).1, before] at after
    exact (Option.some.inj after).symm
  exact {
    sound := sound
    inTurn := by
      rw [sameTurn, runnable]
      refine pairwise_append (nextTurn_le kept.sound) (kept.pairwise_cons noDispatch) ?_ ?_
      · exact fun _ _ overtook => absent (overtook_of_cons noDispatch overtook).1
      · intro other before overtook
        rcases overtook_of_cons noDispatch overtook with ⟨-, live, earlier⟩
        have wakes := cause.resolve_left (not_not_intro live)
        rw [nextTurn] at before
        split at before
        · rename_i isRunning
          have atCursor := kept.sound.current_runnable isRunning
          rw [List.take_add_one, atCursor] at before
          rcases List.mem_append.mp before with behindCursor | isCurrent
          · exact keeps.entering actor wakes other behindCursor earlier
          · rw [Option.toList_some, List.mem_singleton] at isCurrent
            exact kept.served isRunning actor (isCurrent ▸ earlier)
        · exact keeps.entering actor wakes other before earlier
    served := by
      intro isRunning other overtook
      rw [sameCurrent isRunning] at overtook
      exact kept.served (running ▸ isRunning) other (overtook_of_cons noDispatch overtook).2.2 }

/-- The turns of a running system start behind the current actor. -/
theorem TurnsKept.behind_current (kept : TurnsKept past system)
    (noDispatch : event ≠ .dispatch) (running : system.running = true) :
    (turns system.ctx.queues.runnable (system.ctx.queues.cursor + 1)).Pairwise
      fun actor other => ¬ Overtook actor other (⟨system, event⟩ :: past) := by
  have inTurn := kept.pairwise_cons noDispatch
  rwa [nextTurn, if_pos running] at inTurn

/-- A step that ends the slice of the current actor leaves nobody served. -/
theorem turnsKept_idle (sound : next.Sound) (idle : next.running = false)
    (inTurn : (turns next.ctx.queues.runnable next.ctx.queues.cursor).Pairwise
      fun actor other => ¬ Overtook actor other (⟨system, event⟩ :: past)) :
    TurnsKept (⟨system, event⟩ :: past) next where
  sound := sound
  inTurn := by
    rw [nextTurn, idle, if_neg (by decide)]
    exact inTurn
  served := by simp [idle]

theorem turnsKept_step (kept : TurnsKept past system) (keeps : KeepsTurns past system event)
    (step : Step system event next) : TurnsKept (⟨system, event⟩ :: past) next := by
  have sound := step.sound kept.sound
  have older : ∀ {actor other}, event ≠ .dispatch → ¬ Overtook actor other past →
      ¬ Overtook actor other (⟨system, event⟩ :: past) :=
    fun noDispatch keeps overtook => keeps (overtook_of_cons noDispatch overtook).2.2
  cases runnableChange_step kept.sound step with
  | kept noDispatch runnable cursor running =>
      have sameTurn : nextTurn next = nextTurn system := by
        rw [nextTurn, nextTurn, running, cursor]
      have sameCurrent : next.running = true → next.current = system.current := by
        intro isRunning
        have before := kept.sound.current_runnable (running ▸ isRunning)
        have after := sound.current_runnable isRunning
        rw [runnable, cursor, before] at after
        exact (Option.some.inj after).symm
      refine ⟨sound, ?_, ?_⟩
      · rw [sameTurn, runnable]
        exact kept.pairwise_cons noDispatch
      · intro isRunning actor
        rw [sameCurrent isRunning]
        exact older noDispatch (kept.served (running ▸ isRunning) actor)
  | dispatched isDispatch isNext idle nonempty =>
      subst isDispatch isNext
      exact kept.dispatched idle nonempty
  | entered actor noDispatch cause absent runnable cursor running =>
      exact kept.entered sound keeps noDispatch cause absent runnable cursor running
  | yielded isYield running idle queues =>
      subst isYield
      have inTurn := @TurnsKept.behind_current _ _ .yield kept (by simp) running
      have inRange := kept.sound.coherent.cursor_lt (kept.sound.active running)
      apply turnsKept_idle sound idle
      rw [queues, Queues.advance]
      by_cases more : system.ctx.queues.cursor + 1 < system.ctx.queues.runnable.length
      · rw [if_pos more]
        exact inTurn
      · have isLast : system.ctx.queues.cursor + 1 = system.ctx.queues.runnable.length := by
          omega
        rw [if_neg more, turns_zero]
        rwa [isLast, turns_length] at inTurn
  | left noDispatch leaves running idle runnable cursor =>
      apply turnsKept_idle sound idle
      rw [runnable, cursor]
      exact pairwise_swapPop (kept.sound.coherent.cursor_lt (kept.sound.active running))
        (kept.behind_current noDispatch running)
        fun last isLast other isPassed =>
          older noDispatch (keeps.filling leaves last isLast other isPassed)
  | parked isPark running idle runnable cursor =>
      subst isPark
      apply turnsKept_idle sound idle
      rw [runnable, cursor]
      exact pairwise_swapPop_restart
        (kept.sound.coherent.cursor_lt (kept.sound.active running))
        (kept.behind_current (by simp) running)
        (fun last isLast other isPassed =>
          older (by simp) (keeps.filling trivial last isLast other isPassed))
        (fun actor before other behind =>
          older (by simp) (keeps.restarting rfl actor before other behind))

/-- While the turns are kept, a dispatch is fair: an actor that was passed over
since the last dispatch of the current one has been overtaken by it. -/
theorem TurnsKept.fairDispatch (kept : TurnsKept past system)
    (step : Step system event next) : FairDispatch past system event := by
  rintro rfl between first earlier rfl dispatches alive other runnable different stays
  cases step with
  | dispatch idle nonempty =>
      rcases turns_dispatch kept.sound nonempty with ⟨rest, before, -⟩
      have inTurn := kept.inTurn
      rw [nextTurn, idle, if_neg (by decide), before] at inTurn
      have inRest : other ∈ rest := by
        have member : other ∈ turns system.ctx.queues.runnable system.ctx.queues.cursor :=
          mem_turns.mpr runnable
        rw [before] at member
        exact (List.mem_cons.mp member).resolve_left different
      by_contra noDispatch
      refine (List.pairwise_cons.mp inTurn).1 other inRest
        (overtook_of_split different dispatches alive stays ?_)
      exact fun stage member dispatchesOther => noDispatch ⟨stage, member, dispatchesOther⟩

end Step

theorem start_turnsKept {main : Word} (memory : Word → Actor) (real : main ≠ 0) :
    TurnsKept [] (System.start main memory) where
  sound := System.start_sound main memory real
  inTurn := List.pairwise_of_forall fun _ _ => not_false
  served := fun _ _ => not_false

/-- A run whose steps all keep the turns is fair. -/
theorem fair_of_turns_kept {main : Word} {memory : Word → Actor}
    {history : List (Stage System Event)} {final : System} (real : main ≠ 0)
    (run : Run Step (System.start main memory) history final)
    (keeps : MeetsPast KeepsTurns history) : MeetsPast FairDispatch history :=
  (run.meetsPast_of_invariant keeps (start_turnsKept memory real)
    (fun _ _ _ _ kept keeps step => turnsKept_step kept keeps step)
    (fun _ _ _ _ kept step => kept.fairDispatch step)).1

/-- The main actor after it has spawned two others. -/
def spawnedTwo : System :=
  let dispatched := { System.start 16 fun _ => .zeroed with running := true }
  (dispatched.spawn 32 .zeroed (fun _ => ⟨0, 0⟩) fun _ => 0).spawn 48 .zeroed
    (fun _ => ⟨0, 0⟩) fun _ => 0

theorem spawnedTwo_run :
    ∃ history, Run Step (System.start 16 fun _ => .zeroed) history spawnedTwo ∧
      MeetsPast KeepsTurns history ∧ ¬ Overtook 48 32 history := by
  let started := System.start 16 fun _ => .zeroed
  let dispatched := { started with running := true }
  let spawned := dispatched.spawn 32 .zeroed (fun _ => ⟨0, 0⟩) fun _ => 0
  have dispatch : Step started .dispatch dispatched := .dispatch rfl (by decide)
  have first : Step dispatched (.spawn 32 .zeroed _ _) spawned :=
    .spawn 32 .zeroed _ _ rfl (by decide) (by decide) (by decide)
  have second : Step spawned (.spawn 48 .zeroed _ _) spawnedTwo :=
    .spawn 48 .zeroed _ _ rfl (by decide) (by decide) (by decide)
  refine ⟨_, ((Run.refl.next dispatch).next first).next second, ?_, ?_⟩
  · exact ⟨⟨nofun, nofun, nofun⟩, ⟨nofun, nofun, nofun⟩, ⟨nofun, nofun, nofun⟩, trivial⟩
  · rintro ⟨-, -, dispatches | ⟨live, -⟩⟩
    · exact Event.noConfusion dispatches.1
    · exact absurd live (by decide)

/-- The main actor waits, and the last of two actors that have not run fills its
place. -/
theorem fair_of_turns_kept_wait :
    let waited := spawnedTwo.wait fun _ => 0
    ∃ history, Run Step (System.start 16 fun _ => .zeroed)
        (⟨waited, .dispatch⟩ :: ⟨spawnedTwo, .wait fun _ => 0⟩ :: history)
        { waited with running := true } ∧
      MeetsPast FairDispatch
        (⟨waited, .dispatch⟩ :: ⟨spawnedTwo, .wait fun _ => 0⟩ :: history) := by
  intro waited
  rcases spawnedTwo_run with ⟨history, run, keeps, behind⟩
  have wait : Step spawnedTwo (.wait fun _ => 0) waited := .wait _ rfl (by decide)
  have dispatch : Step waited .dispatch { waited with running := true } :=
    .dispatch rfl (by decide)
  have longer := (run.next wait).next dispatch
  refine ⟨history, longer, fair_of_turns_kept (by decide) longer ?_⟩
  refine ⟨⟨nofun, nofun, nofun⟩, ⟨nofun, fun _ last isLast other isPassed => ?_, nofun⟩, keeps⟩
  have lastIs : some (48 : Word) = some last := isLast
  have passedAre : other ∈ [(32 : Word)] := isPassed
  rw [← Option.some.inj lastIs, List.mem_singleton.mp passedAre]
  exact behind

/-- Three actors run once each; then the first one waits, and the last one fills its
place and runs again before the second. -/
theorem runnable_actor_passed_over :
    ¬ ∀ (main : Word) (memory : Word → Actor) (history : List (Stage System Event))
        (final : System), main ≠ 0 →
      Run Step (System.start main memory) history final → MeetsPast FairDispatch history := by
  intro allFair
  rcases spawnedTwo_run with ⟨earlier, run, -, -⟩
  let second := { spawnedTwo.yield with running := true }
  let third := { second.yield with running := true }
  let again := { third.yield with running := true }
  let waited := again.wait fun _ => 0
  have toSecond : Step spawnedTwo .yield spawnedTwo.yield := .yield rfl
  have dispatchSecond : Step spawnedTwo.yield .dispatch second := .dispatch rfl (by decide)
  have toThird : Step second .yield second.yield := .yield rfl
  have dispatchThird : Step second.yield .dispatch third := .dispatch rfl (by decide)
  have toFirst : Step third .yield third.yield := .yield rfl
  have dispatchFirst : Step third.yield .dispatch again := .dispatch rfl (by decide)
  have wait : Step again (.wait fun _ => 0) waited := .wait _ rfl (by decide)
  have dispatchLast : Step waited .dispatch { waited with running := true } :=
    .dispatch rfl (by decide)
  have upToThird := (((run.next toSecond).next dispatchSecond).next toThird).next
    dispatchThird
  have longer := (((upToThird.next toFirst).next dispatchFirst).next wait).next dispatchLast
  have fair := (allFair _ _ _ _ (by decide) longer).1 rfl
    [⟨again, .wait fun _ => 0⟩, ⟨third.yield, .dispatch⟩, ⟨third, .yield⟩]
    ⟨second.yield, .dispatch⟩ _ rfl ⟨rfl, by decide⟩ (by
      intro stage member
      simp only [List.mem_cons, List.not_mem_nil, or_false] at member
      rcases member with rfl | rfl | rfl <;> decide)
    32 (by decide) (by decide) (by
      intro stage member
      simp only [List.mem_append, List.mem_cons, List.not_mem_nil, or_false] at member
      rcases member with (rfl | rfl | rfl) | rfl <;> decide)
  rcases fair with ⟨stage, member, isDispatch, isOther⟩
  simp only [List.mem_cons, List.not_mem_nil, or_false] at member
  rcases member with rfl | rfl | rfl
  · exact Event.noConfusion isDispatch
  · exact absurd isOther (by decide)
  · exact Event.noConfusion isDispatch

end LakeNative.Scheduler

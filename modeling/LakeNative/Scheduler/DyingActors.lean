import LakeNative.Control.DyingBlocks
import LakeNative.Runtime.Program
import LakeNative.Scheduler.RunnableSteps

/-! # Dying actors

A dying actor runs no further block. Its call has returned `STOP_DONE`, the loop reclaims it, and
what is not live is not dispatched.
-/

namespace LakeNative.Scheduler

open LakeNative.Runtime LakeNative.Compiler LakeNative.Control LakeNative.Transitions

variable {W : Type} {rt : RtFuncs W} {machines : List (List (BranchCode W))}

/-! ## The current actor -/

/-- While a call goes on, the actor that issues it stays the current one. -/
theorem current_of_call {system next : System} {event : Event} (sound : system.Sound)
    (isCall : event.IsCall) (step : Step system event next) :
    system.running = true ∧ next.running = true ∧ next.current = system.current := by
  have running : system.running = true := by
    cases step <;> first | assumption | exact absurd isCall id
  have change := runnableChange_step sound step
  have stays : next.running = true → next.ctx.queues.cursor = system.ctx.queues.cursor →
      (∃ added, next.ctx.queues.runnable = system.ctx.queues.runnable ++ added) →
      next.current = system.current := by
    rintro nextRunning sameCursor ⟨added, isAppended⟩
    have before := sound.current_runnable running
    have after := (step.sound sound).current_runnable nextRunning
    have inside := (List.getElem?_eq_some_iff.mp before).1
    rw [sameCursor, isAppended, List.getElem?_append_left inside, before] at after
    exact (Option.some.inj after).symm
  cases change with
  | kept _ sameRunnable sameCursor sameRunning =>
      have nextRunning := sameRunning.trans running
      refine ⟨running, nextRunning, stays nextRunning sameCursor ⟨[], ?_⟩⟩
      rw [sameRunnable, List.append_nil]
  | entered actor _ _ _ added sameCursor sameRunning =>
      have nextRunning := sameRunning.trans running
      exact ⟨running, nextRunning, stays nextRunning sameCursor ⟨[actor], added⟩⟩
  | dispatched isDispatch =>
      rw [isDispatch] at isCall
      exact absurd isCall id
  | yielded isYield =>
      rw [isYield] at isCall
      exact absurd isCall id
  | left _ leaves =>
      cases step <;> first | exact absurd isCall id | exact absurd leaves id
  | parked isPark =>
      rw [isPark] at isCall
      exact absurd isCall id

/-! ## Marked actors -/

/-- A live actor is marked only while its call is over and it is about to be reclaimed. -/
structure Marked (rt : RtFuncs W) (program : Program W) : Prop where
  sound : program.system.Sound
  watched : program.system.running = true → WatchedMachine rt program.machine
  sameFlag : program.system.running = true →
    rt.isDying program.call.exec.world = program.isDying program.system.current
  atEnd : ∀ actor ∈ program.system.live, program.isDying actor = true →
    program.system.running = true ∧ actor = program.system.current ∧
      program.call.stopped = some .done

namespace Marked

theorem start {main : Word} (real : main ≠ 0) (memory : Word → Actor) (isDying : Word → Bool)
    (machine : List (BranchCode W)) (call : Call W) :
    Marked rt (.start main memory isDying machine call) where
  sound := System.start_sound main memory real
  watched := nofun
  sameFlag := nofun
  atEnd := by
    intro actor live isMarked
    rcases List.mem_singleton.mp live with rfl
    change Function.update isDying actor false actor = true at isMarked
    rw [Function.update_self] at isMarked
    cases isMarked

variable {program next : Program W} {event : ProgramEvent}

/-- No actor is marked when its call goes on. -/
theorem alive (marked : Marked rt program) (running : program.system.running = true)
    (goesOn : program.call.stopped ≠ some .done) :
    program.isDying program.system.current = false := by
  rw [← Bool.not_eq_true]
  intro isMarked
  exact goesOn (marked.atEnd _ (marked.sound.current_live running) isMarked).2.2

/-- A block behind which the current actor is marked ends its call. -/
theorem block (marked : Marked rt program) {call : Call W} {overBudget : Bool}
    (running : program.system.running = true)
    (step : CallStep rt program.machine program.call overBudget call)
    (dies : rt.isDying call.exec.world = true) : call.stopped = some .done := by
  have goesOn : program.call.stopped = none := by
    cases step <;> assumption
  have isAlive := marked.alive running (by rw [goesOn]; nofun)
  exact dying_step_done (marked.watched running) ((marked.sameFlag running).trans isAlive) step dies

/-- The calls of compiled code leave the current actor's flag alone, and mark nobody. -/
theorem clears_of_call {system next : System} {event : Event} (sound : system.Sound)
    (isCall : event.IsCall) (step : Step system event next) (isDying : Word → Bool) :
    event.clears isDying system.current = isDying system.current ∧
      ∀ actor ∈ next.live, event.clears isDying actor = true →
        actor ∈ system.live ∧ isDying actor = true := by
  cases step with
  | spawn procCtx memory freshPids fresh running _ new =>
      have isOther : system.current ≠ procCtx := by
        rintro rfl
        exact new (sound.current_live running)
      refine ⟨Function.update_of_ne isOther _ _, fun actor live isMarked => ?_⟩
      by_cases isNew : actor = procCtx
      · rw [isNew] at isMarked
        change Function.update isDying procCtx false procCtx = true at isMarked
        rw [Function.update_self] at isMarked
        cases isMarked
      · change Function.update isDying procCtx false actor = true at isMarked
        rw [Function.update_of_ne isNew] at isMarked
        exact ⟨(List.mem_cons.mp live).resolve_left isNew, isMarked⟩
  | send pid message fresh =>
      refine ⟨rfl, fun actor live isMarked => ⟨?_, isMarked⟩⟩
      rw [System.send] at live
      split at live
      · exact live
      · exact live
  | dequeue | submit => exact ⟨rfl, fun actor live isMarked => ⟨live, isMarked⟩⟩
  | complete | dispatch | yield | wait | park | done => exact absurd isCall id

/-- What the loop does for a stop code ends the call, and only `STOP_DONE` takes an actor from the
live ones. -/
theorem idle_of_stop {system next : System} {code : StopCode} {event : Event}
    (stops : StopsWith code event) (step : Step system event next) :
    system.running = true ∧ next.running = false ∧
      (code = .done ∧ next.live = system.live.erase system.current ∨
        code ≠ .done ∧ next.live = system.live) := by
  cases code <;> cases step <;> first
    | exact absurd stops id
    | exact ⟨‹_›, rfl, .inl ⟨rfl, rfl⟩⟩
    | exact ⟨‹_›, rfl, .inr ⟨nofun, rfl⟩⟩

theorem step (areWatched : ∀ machine ∈ machines, WatchedMachine rt machine)
    (marked : Marked rt program) (step : ProgramStep rt machines program event next) :
    Marked rt next := by
  cases step with
  | @complete userData res system step =>
      have sound := step.sound marked.sound
      cases step with
      | complete _ _ idle =>
          have notRunning : (program.system.complete userData res).running ≠ true :=
            Bool.eq_false_iff.mp idle
          refine ⟨sound, fun running => absurd running notRunning,
            fun running => absurd running notRunning, fun actor live isMarked => ?_⟩
          exact absurd (marked.atEnd actor live isMarked).1 notRunning
  | dispatch isMachine sameFlag step =>
      have sound := step.sound marked.sound
      cases step with
      | dispatch idle nonempty =>
          refine ⟨sound, fun _ => areWatched _ isMachine, fun _ => sameFlag,
            fun actor live isMarked => ?_⟩
          exact absurd (marked.atEnd actor live isMarked).1 (Bool.eq_false_iff.mp idle)
  | runtime isCall goesOn step =>
      rcases current_of_call marked.sound isCall step with ⟨running, -, sameCurrent⟩
      rcases clears_of_call marked.sound isCall step program.isDying with ⟨kept, older⟩
      refine ⟨step.sound marked.sound, fun _ => marked.watched running, fun _ => ?_,
        fun actor live isMarked => ?_⟩
      · dsimp only
        rw [sameCurrent, kept]
        exact marked.sameFlag running
      · rcases older actor live isMarked with ⟨wasLive, wasMarked⟩
        have atEnd := (marked.atEnd actor wasLive wasMarked).2.2
        rw [goesOn] at atEnd
        cases atEnd
  | @block _ call running step =>
      refine ⟨marked.sound, marked.watched, fun _ => ?_, fun actor live isMarked => ?_⟩
      · dsimp only
        rw [Function.update_self]
      · dsimp only at isMarked
        by_cases isCurrent : actor = program.system.current
        · rw [isCurrent, Function.update_self] at isMarked
          exact ⟨running, isCurrent, marked.block running step isMarked⟩
        · rw [Function.update_of_ne isCurrent] at isMarked
          exact absurd (marked.atEnd actor live isMarked).2.1 isCurrent
  | stop stopped stops step =>
      rcases idle_of_stop stops step with ⟨running, idle, removed⟩
      have notRunning := Bool.eq_false_iff.mp idle
      refine ⟨step.sound marked.sound, fun isRunning => absurd isRunning notRunning,
        fun isRunning => absurd isRunning notRunning, fun actor live isMarked => ?_⟩
      dsimp only at live
      rcases removed with ⟨-, isErased⟩ | ⟨notDone, sameLive⟩
      · rcases marked.sound.placement with ⟨waiters, placement⟩
        rw [isErased, placement.nodup.mem_erase_iff] at live
        exact absurd (marked.atEnd actor live.2 isMarked).2.1 live.1
      · rw [sameLive] at live
        have atEnd := (marked.atEnd actor live isMarked).2.2
        rw [stopped] at atEnd
        exact absurd (Option.some.inj atEnd) notDone

theorem run {main : Word} (real : main ≠ 0) {memory : Word → Actor} {isDying : Word → Bool}
    {machine : List (BranchCode W)} {call : Call W} {history : List (Stage (Program W) ProgramEvent)}
    (areWatched : ∀ machine ∈ machines, WatchedMachine rt machine)
    (run : Run (ProgramStep rt machines) (.start main memory isDying machine call) history program) :
    Marked rt program :=
  (run.invariant (start real memory isDying machine call)
    fun _ _ _ marked step => marked.step areWatched step).2

end Marked

/-! ## Reclaimed actors -/

/-- The actor's memory was given to a new one. -/
def Respawned (actor : Word) (past : List (Stage (Program W) ProgramEvent)) : Prop :=
  ∃ stage ∈ past, ∃ memory freshPids fresh,
    stage.label = .system (.spawn actor memory freshPids fresh)

/-- The current actor is dispatched, runs a block, or calls the runtime. -/
def Executes : ProgramEvent → Prop
  | .block => True
  | .system event => event = .dispatch ∨ event.IsCall

/-- Since the call of the actor has ended, nothing has happened, or it was reclaimed first and
lives again only as a new actor. -/
def Reclaimed (dead : Program W) (past : List (Stage (Program W) ProgramEvent))
    (program : Program W) : Prop :=
  past = [] ∧ program = dead ∨
    (∃ fresh, past.getLast? = some ⟨dead, .system (.done fresh)⟩) ∧
      (dead.system.current ∈ program.system.live → Respawned dead.system.current past)

theorem live_step {system next : System} {event : Event} {actor : Word}
    (step : Step system event next) (live : actor ∈ next.live) :
    actor ∈ system.live ∨ ∃ memory freshPids fresh, event = .spawn actor memory freshPids fresh := by
  cases step with
  | spawn procCtx memory freshPids fresh =>
      rcases List.mem_cons.mp live with rfl | older
      · exact .inr ⟨memory, freshPids, fresh, rfl⟩
      · exact .inl older
  | send pid message fresh =>
      rw [System.send] at live
      split at live
      · exact .inl live
      · exact .inl live
  | done fresh => exact .inl (List.mem_of_mem_erase live)
  | complete | dispatch | dequeue | submit | yield | wait | park => exact .inl live

/-- What executes is live. -/
theorem live_of_executes {program next : Program W} {event : ProgramEvent}
    (marked : Marked rt program) (step : ProgramStep rt machines program event next)
    (executes : Executes event) : program.system.current ∈ program.system.live := by
  cases step with
  | block running => exact marked.sound.current_live running
  | runtime isCall _ step =>
      exact marked.sound.current_live (current_of_call marked.sound isCall step).1
  | dispatch _ _ step =>
      cases step with
      | dispatch idle nonempty => exact (marked.sound.dispatch nonempty).current_live rfl
  | complete step =>
      rcases executes with isDispatch | isCall
      · cases isDispatch
      · exact absurd isCall id
  | @stop code _ _ stopped stops step =>
      rcases executes with rfl | isCall
      · cases code <;> exact absurd stops id
      · cases code <;> cases step <;> first | exact absurd stops id | exact absurd isCall id

/-- A program whose current call has returned `STOP_DONE` goes on by reclaiming the actor. -/
theorem reclaims {dead next : Program W} {event : ProgramEvent}
    (running : dead.system.running = true) (stopped : dead.call.stopped = some .done)
    (step : ProgramStep rt machines dead event next) :
    ∃ fresh, event = .system (.done fresh) ∧
      next.system.live = dead.system.live.erase dead.system.current := by
  have notNone : dead.call.stopped ≠ none := by
    rw [stopped]
    nofun
  cases step with
  | complete step =>
      cases step with
      | complete _ _ idle => exact absurd running (Bool.eq_false_iff.mp idle)
  | dispatch _ _ step =>
      cases step with
      | dispatch idle => exact absurd running (Bool.eq_false_iff.mp idle)
  | runtime _ goesOn _ => exact absurd goesOn notNone
  | block _ step => cases step <;> exact absurd ‹dead.call.stopped = none› notNone
  | stop isStopped stops step =>
      rw [stopped] at isStopped
      cases isStopped
      cases step <;> first | exact absurd stops id | exact ⟨_, rfl, rfl⟩

theorem reclaimed_step {dead program next : Program W} {event : ProgramEvent}
    {past : List (Stage (Program W) ProgramEvent)} (ended : Marked rt dead)
    (running : dead.system.running = true) (stopped : dead.call.stopped = some .done)
    (marked : Marked rt program) (reclaimed : Reclaimed dead past program)
    (step : ProgramStep rt machines program event next) :
    Reclaimed dead (⟨program, event⟩ :: past) next ∧
      (Executes event → program.system.current = dead.system.current →
        Respawned dead.system.current past) := by
  rcases reclaimed with ⟨rfl, rfl⟩ | ⟨⟨fresh, isFirst⟩, reborn⟩
  · rcases reclaims running stopped step with ⟨fresh, rfl, erased⟩
    refine ⟨.inr ⟨⟨fresh, rfl⟩, fun live => ?_⟩, fun executes => ?_⟩
    · rcases ended.sound.placement with ⟨waiters, placement⟩
      rw [erased, placement.nodup.mem_erase_iff] at live
      exact absurd rfl live.1
    · rcases executes with isDispatch | isCall
      · cases isDispatch
      · exact absurd isCall id
  · refine ⟨.inr ⟨⟨fresh, ?_⟩, fun live => ?_⟩, fun executes isActor => ?_⟩
    · rw [List.getLast?_cons, isFirst]
      rfl
    · have older : dead.system.current ∈ program.system.live →
          Respawned dead.system.current (⟨program, event⟩ :: past) := by
        intro wasLive
        rcases reborn wasLive with ⟨stage, member, isSpawn⟩
        exact ⟨stage, List.mem_cons_of_mem _ member, isSpawn⟩
      have bySystem : ∀ {event : Event} {system : System},
          Step program.system event system → dead.system.current ∈ system.live →
          Respawned dead.system.current (⟨program, .system event⟩ :: past) ∨
            dead.system.current ∈ program.system.live := by
        intro event system step live
        rcases live_step step live with wasLive | ⟨memory, freshPids, fresh, rfl⟩
        · exact .inr wasLive
        · exact .inl ⟨_, List.mem_cons_self, memory, freshPids, fresh, rfl⟩
      cases step with
      | complete step => exact (bySystem step live).elim id older
      | dispatch _ _ step => exact (bySystem step live).elim id older
      | runtime _ _ step => exact (bySystem step live).elim id older
      | block => exact older live
      | stop _ _ step => exact (bySystem step live).elim id older
    · apply reborn
      rw [← isActor]
      exact live_of_executes marked step executes

/-- Once an actor's block has called `rt_die_actor`, its call has returned `STOP_DONE`; the next
that the loop does is to reclaim the actor, and unless its memory is given to a new actor
it is not dispatched, runs no block and calls nothing any more. -/
theorem dying_actor_removed (marks : MarksDying rt)
    (compiled : ∀ machine ∈ machines, ∃ ctx factor branches,
      compileMachine rt ctx factor branches = some machine)
    {main : Word} {memory : Word → Actor} {isDying : Word → Bool} {machine : List (BranchCode W)}
    {call : Call W} (real : main ≠ 0) {earlier later : List (Stage (Program W) ProgramEvent)}
    {before dead final : Program W}
    (run : Run (ProgramStep rt machines) (.start main memory isDying machine call) earlier before)
    (step : ProgramStep rt machines before .block dead)
    (dies : ∃ args, dead.call.exec.world =
      (rt.call "rt_die_actor" args before.call.exec.world).2)
    (goesOn : Run (ProgramStep rt machines) dead later final) :
    dead.call.stopped = some .done ∧
      rtDieActor true before.system.ctx before.isDying = some dead.isDying ∧
      Reclaimed dead later final ∧
      MeetsPast (fun past program event => Executes event →
        program.system.current = dead.system.current → Respawned dead.system.current past) later := by
  have areWatched : ∀ machine ∈ machines, WatchedMachine rt machine := by
    intro machine member
    rcases compiled machine member with ⟨ctx, factor, branches, isCompiled⟩
    exact watched_compileMachine marks isCompiled
  have marked := Marked.run real areWatched run
  have ended := marked.step areWatched step
  have isMarked : rt.isDying dead.call.exec.world = true := by
    rcases dies with ⟨args, isWorld⟩
    rw [isWorld]
    exact marks.dies args _
  have stopped : dead.call.stopped = some .done ∧ dead.system.running = true ∧
      rtDieActor true before.system.ctx before.isDying = some dead.isDying := by
    cases step with
    | block running step =>
        refine ⟨marked.block running step isMarked, running, ?_⟩
        dsimp only at isMarked ⊢
        rw [rtDieActor, if_pos ⟨rfl, marked.sound.active running⟩, isMarked]
        rfl
  have since : Marked rt final ∧
      Reclaimed dead later final ∧ MeetsPast (fun past program event => Executes event →
        program.system.current = dead.system.current → Respawned dead.system.current past) later := by
    induction goesOn with
    | refl => exact ⟨ended, .inl ⟨rfl, rfl⟩, trivial⟩
    | next _ step induction =>
        rcases induction with ⟨marked, reclaimed, silent⟩
        rcases reclaimed_step ended stopped.2.1 stopped.1 marked reclaimed step with ⟨after, quiet⟩
        exact ⟨marked.step areWatched step, after, quiet, silent⟩
  exact ⟨stopped.1, stopped.2.2, since.2⟩

/-! ## One actor -/

/-- The flag alone, which `rt_die_actor` sets. -/
def flagRt : RtFuncs Bool where
  load _ _ _ := 0
  store _ _ world := world
  isDying world := world
  string _ world := (0, world)
  arenaAlloc _ world := (0, world)
  call name _ world := (none, name == "rt_die_actor" || world)
  isOwn _ _ := false
  send _ _ world := world
  spawn _ world := (0, world)
  resetArena world := world
  recopy args world := (args, world)

theorem flagRt_marks : MarksDying flagRt where
  dies _ _ := rfl
  parks name args world isPark := by
    have different : name ≠ "rt_die_actor" := by
      rintro rfl
      revert isPark
      decide
    change (name == "rt_die_actor" || world) = world
    rw [beq_false_of_ne different, Bool.false_or]
  accesses name args world isAccess := by
    have different : name ≠ "rt_die_actor" := by
      rintro rfl
      revert isAccess
      decide
    change (name == "rt_die_actor" || world) = world
    rw [beq_false_of_ne different, Bool.false_or]
  resets _ := rfl
  recopies _ _ := rfl

/-- A branch `let x = rt_die_actor()`. -/
def dyingBranch : List Pattern × List Expr :=
  ([], [.letVar "x" .unknown (some (.jump (.var "rt_die_actor" .unknown) []))])

def dieCtx : CompilerCtx :=
  { CompilerCtx.bare with declaredRt := fun name => name == "rt_die_actor" }

def dyingMachine : List (BranchCode Bool) :=
  (compileMachine flagRt dieCtx 1 [dyingBranch]).getD []

/-- The main actor dies in its first block and is reclaimed. -/
theorem dying_actor_removed_let : compileMachine flagRt dieCtx 1 [dyingBranch] = some dyingMachine ∧
    ∃ later dead final, later.length = 1 ∧
      Run (ProgramStep flagRt [dyingMachine]) dead later final ∧
      dead.call.stopped = some .done ∧ dead.system.current = 16 ∧ Reclaimed dead later final := by
  have compiled : compileMachine flagRt dieCtx 1 [dyingBranch] = some dyingMachine := rfl
  let exec : ExecCtx Bool := ⟨.zeroed, fun _ => 0, 0, false⟩
  let first : Program Bool := .start 16 (fun _ => .zeroed) (fun _ => false) [] (.start 4 exec 0)
  let called : Program Bool :=
    ⟨{ first.system with running := true }, first.isDying, dyingMachine, .start 4 exec 0⟩
  let ended : Call Bool := (called.call.ran { exec with world := true } 1).quantumLoop flagRt false 1
  let dead : Program Bool :=
    { called with call := ended, isDying := Function.update called.isDying 16 true }
  have dispatch : ProgramStep flagRt [dyingMachine] first (.system .dispatch) called :=
    .dispatch List.mem_cons_self rfl (.dispatch rfl (by decide))
  have inBlock : CallStep flagRt dyingMachine called.call false ended :=
    .goto rfl ⟨_, rfl, List.mem_cons_self, fun atLoop => Bool.false_ne_true atLoop.1⟩ rfl
  have block : ProgramStep flagRt [dyingMachine] called .block dead :=
    @ProgramStep.block Bool flagRt [dyingMachine] called false ended rfl inBlock
  have stop : ProgramStep flagRt [dyingMachine] dead (.system (.done fun _ => 0))
      { dead with system := dead.system.done fun _ => 0 } :=
    .stop (rfl : dead.call.stopped = some .done) trivial (.done _ rfl)
  have areCompiled : ∀ machine ∈ [dyingMachine], ∃ ctx factor branches,
      compileMachine flagRt ctx factor branches = some machine := by
    intro machine member
    rw [List.mem_singleton.mp member]
    exact ⟨dieCtx, 1, [dyingBranch], compiled⟩
  have removed := dying_actor_removed flagRt_marks areCompiled (by decide) (Run.refl.next dispatch)
    block ⟨[], rfl⟩ (Run.refl.next stop)
  exact ⟨compiled, _, dead, _, rfl, Run.refl.next stop, removed.1, rfl, removed.2.2.1⟩

end LakeNative.Scheduler

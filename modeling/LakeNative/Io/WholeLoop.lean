import LakeNative.Io.CompletionBookkeeping
import LakeNative.Io.SubmissionAccounting
import LakeNative.Runtime.SchedulerLoop
import LakeNative.Scheduler.Capacity

/-! # The whole way of an operation

From the submission of a parking actor to the completion that wakes it. Over all runs of the
loop each outstanding operation is in exactly one place, the submission ring, the kernel or the
completion ring, and the loop ends only when every actor has.
-/

namespace LakeNative.Io

open LakeNative.Runtime LakeNative.Transitions LakeNative.Ring LakeNative.DenseArray
open LakeNative.Scheduler

variable {bits sqBits : Nat} {queue : SubmissionQueue} {loop next : SchedulerLoop}

/-! ## The submission ring -/

@[simp] theorem length_published (queue : SubmissionQueue) :
    queue.published.length = queue.unconsumed := by
  rw [SubmissionQueue.published, List.length_map, List.length_range]

theorem found_published (queue : SubmissionQueue) : Found queue queue.published := by
  intro index sqe isSqe
  rw [SubmissionQueue.published, List.getElem?_map, Option.map_eq_some_iff] at isSqe
  rcases isSqe with ⟨position, atIndex, rfl⟩
  rcases List.getElem?_eq_some_iff.mp atIndex with ⟨inRange, rfl⟩
  rw [List.getElem_range]

theorem published_eq {waiting : List Sqe} (small : sqBits ≤ 31) (tracks : Tracks sqBits queue waiting)
    (found : Found queue waiting) : queue.published = waiting := by
  apply List.ext_getElem
  · rw [length_published, tracks.unconsumed_eq small]
  · intro index inPublished inWaiting
    rw [← found index _ (List.getElem?_eq_getElem inWaiting)]
    exact (found_published queue index _ (List.getElem?_eq_getElem inPublished)).symm

/-- The ring is in order. -/
def InOrder (sqBits : Nat) (queue : SubmissionQueue) : Prop := Tracks sqBits queue queue.published

namespace InOrder

variable (small : sqBits ≤ 31)
include small

theorem of_tracks {waiting : List Sqe} (tracks : Tracks sqBits queue waiting)
    (found : Found queue waiting) : InOrder sqBits queue ∧ queue.published = waiting := by
  have same := published_eq small tracks found
  refine ⟨?_, same⟩
  rw [InOrder, same]
  exact tracks

/-- A submission that the ring has room for is published behind the others. -/
theorem push (inOrder : InOrder sqBits queue) (room : queue.unconsumed ≤ queue.mask) (sqe : Sqe)
    (pending : Nat) :
    InOrder sqBits { queue.push sqe with sqePending := pending } ∧
      SubmissionQueue.published { queue.push sqe with sqePending := pending } =
        queue.published ++ [sqe] := by
  have positive := Nat.two_pow_pos sqBits
  have isMask := inOrder.mask
  have isRoom : queue.published.length < 2 ^ sqBits := by
    rw [length_published]
    omega
  exact of_tracks small ((Tracks.push small inOrder isRoom sqe).set_pending pending)
    (Tracks.found_push small inOrder isRoom (found_published queue) sqe)

/-- What the kernel consumes leaves the ring. -/
theorem enter (inOrder : InOrder sqBits queue) {consumed : Nat} (atMost : consumed ≤ queue.unconsumed)
    (pending : Nat) :
    InOrder sqBits { queue.ioUringEnter consumed with sqePending := pending } ∧
      SubmissionQueue.published { queue.ioUringEnter consumed with sqePending := pending } =
        queue.published.drop consumed := by
  rw [← length_published] at atMost
  exact of_tracks small (Tracks.enter small inOrder atMost pending)
    (Tracks.found_enter small inOrder (found_published queue) consumed pending)

/-- A flush is a system call, or there is nothing to do. -/
theorem flush (inOrder : InOrder sqBits queue) {consumed : Nat}
    (mayEnter : queue.MayEnter queue.sqePending consumed) :
    InOrder sqBits (queue.flush consumed) ∧
      (queue.flush consumed).published = queue.published.drop consumed := by
  rw [SubmissionQueue.flush]
  by_cases pending : queue.sqePending = 0
  · have none : consumed = 0 := Nat.eq_zero_of_le_zero (pending ▸ mayEnter.1)
    rw [if_neg (not_not_intro pending), none]
    exact ⟨inOrder, rfl⟩
  · rw [if_pos pending]
    exact enter small inOrder mayEnter.2 0

end InOrder

/-! ## Where operations are -/

/-- The contexts of all operations on their way. -/
def underWay (loop : SchedulerLoop) : List Word :=
  (loop.queue.published ++ loop.inFlight).map Sqe.context ++ loop.io.pending.map Cqe.userData

/-- The submission ring has room for a new submission. -/
def RingHasRoom (loop : SchedulerLoop) : LoopEvent → Prop
  | .park _ | .write _ _ => loop.queue.unconsumed ≤ loop.queue.mask
  | _ => True

instance (loop : SchedulerLoop) (event : LoopEvent) : Decidable (RingHasRoom loop event) :=
  match event with
  | .park _ | .write _ _ => inferInstanceAs (Decidable (loop.queue.unconsumed ≤ loop.queue.mask))
  | .pollStart | .consume _ | .pollEnd | .flush _ | .noFlush | .dispatch | .waitIo _ | .spin | .exit _
  | .call _ | .post _ _ => instDecidableTrue

structure LoopKept (bits sqBits : Nat) (loop : SchedulerLoop) : Prop where
  kept : QueueKept bits loop.io
  inOrder : InOrder sqBits loop.queue
  owed : loop.io.system.outstanding.Perm (underWay loop)
  polling : loop.point ≠ .loopBlock → loop.io.polling = none

/-- A call of compiled code leaves the operations that are outstanding. -/
theorem outstanding_loopCall {system after : System} {event : Event} (isCall : event.IsLoopCall)
    (step : Step system event after) : after.outstanding = system.outstanding := by
  cases step with
  | complete | dispatch | submit | park => cases isCall
  | send pid message fresh =>
      rw [System.send]
      split
      · rfl
      · rfl
  | spawn | dequeue | yield | wait | done => rfl

theorem not_complete {event : Event} (isCall : event.IsLoopCall) :
    ∀ userData res, event ≠ .complete userData res := by
  rintro userData res rfl
  cases isCall

/-- A submission that is published is on its way. -/
theorem underWay_push {published inFlight : List Sqe} {pending : List Word} (sqe : Sqe) :
    (sqe.context :: ((published ++ inFlight).map Sqe.context ++ pending)).Perm
      ((published ++ [sqe] ++ inFlight).map Sqe.context ++ pending) := by
  rw [List.append_assoc published, List.singleton_append]
  exact ((List.perm_middle.map Sqe.context).symm).append_right pending

/-- The kernel's consuming keeps operations on their way. -/
theorem underWay_enter {published inFlight : List Sqe} {pending : List Word} (consumed : Nat) :
    ((published ++ inFlight).map Sqe.context ++ pending).Perm
      ((published.drop consumed ++ (inFlight ++ published.take consumed)).map Sqe.context ++ pending) := by
  apply List.Perm.append_right
  apply List.Perm.map
  have parts : (published.take consumed ++ published.drop consumed ++ inFlight).Perm
      (published.drop consumed ++ (inFlight ++ published.take consumed)) := by
    rw [List.append_assoc]
    apply List.perm_append_comm.trans
    rw [List.append_assoc]
  rwa [List.take_append_drop] at parts

namespace LoopKept

theorem start {main : Word} (memory : Word → Actor) (real : main ≠ 0) (small : bits ≤ 31)
    (cqes : Nat → Cqe) (sqSmall : sqBits ≤ 31) (array : Nat → Nat) (sqes : Nat → Sqe) :
    LoopKept bits sqBits (.start main memory bits cqes sqBits array sqes) where
  kept := .start main memory real small cqes
  inOrder := (InOrder.of_tracks sqSmall (tracks_start sqBits array sqes) nofun).1
  owed := by
    have empty : (SchedulerLoop.start main memory bits cqes sqBits array sqes).queue.published = [] :=
      (InOrder.of_tracks sqSmall (tracks_start sqBits array sqes) nofun).2
    rw [underWay, empty]
    exact .nil
  polling moved := absurd rfl moved

/-- A publication of an operation that becomes outstanding. -/
theorem publish (kept : LoopKept bits sqBits loop) (sqSmall : sqBits ≤ 31)
    (room : loop.queue.unconsumed ≤ loop.queue.mask) {system : System} {sqe : Sqe} {pending : Nat}
    {point : LoopPoint} (sound : system.Sound) (moved : point ≠ .loopBlock → loop.point ≠ .loopBlock)
    (idle : loop.io.polling ≠ none → system.running = false)
    (isOutstanding : system.outstanding = sqe.context :: loop.io.system.outstanding) :
    LoopKept bits sqBits { loop.setSystem system with
      point := point
      queue := { loop.queue.push sqe with sqePending := pending } } := by
  rcases InOrder.push sqSmall kept.inOrder room sqe pending with ⟨inOrder, published⟩
  constructor
  · refine { kept.kept with
      sound := sound
      owed := fun userData => ?_
      idle := idle }
    change _ ≤ system.outstanding.count userData
    rw [isOutstanding]
    exact Nat.le_trans (kept.kept.owed userData) List.count_le_count_cons
  · exact inOrder
  · change system.outstanding.Perm _
    rw [underWay]
    dsimp only
    rw [published, isOutstanding]
    exact (kept.owed.cons sqe.context).trans (underWay_push sqe)
  · exact fun away => kept.polling (moved away)

/-- A system call. -/
theorem enter (kept : LoopKept bits sqBits loop) {after : SubmissionQueue} {consumed : Nat}
    {point : LoopPoint} (inOrder : InOrder sqBits after)
    (published : after.published = loop.queue.published.drop consumed)
    (moved : point ≠ .loopBlock → loop.point ≠ .loopBlock) :
    LoopKept bits sqBits { loop.enter loop.queue after consumed with point := point } := by
  constructor
  · exact kept.kept
  · exact inOrder
  · change loop.io.system.outstanding.Perm _
    rw [underWay]
    dsimp only [SchedulerLoop.enter]
    rw [published]
    exact kept.owed.trans (underWay_enter consumed)
  · exact fun away => kept.polling (moved away)

/-- A step of an actor that publishes nothing. -/
theorem call (kept : LoopKept bits sqBits loop) (small : bits ≤ 31) {event : Event} {system : System}
    {point : LoopPoint} (step : Step loop.io.system event system) (away : loop.point ≠ .loopBlock)
    (notComplete : ∀ userData res, event ≠ .complete userData res)
    (same : system.outstanding = loop.io.system.outstanding) :
    LoopKept bits sqBits { loop.setSystem system with point := point } := by
  have notPolling := kept.polling away
  constructor
  · exact kept.kept.step small (.call event notPolling notComplete step)
  · exact kept.inOrder
  · change system.outstanding.Perm _
    rw [same]
    exact kept.owed
  · exact fun _ => notPolling

/-- A completion that is taken is no longer on its way. -/
theorem consume (kept : LoopKept bits sqBits loop) (small : bits ≤ 31) {cqe : Cqe} {io : IoSystem}
    (atLoop : loop.point = .loopBlock) (step : IoStep bits loop.io (.consume cqe) io) :
    LoopKept bits sqBits { loop with io := io } := by
  have after := kept.kept.step small step
  cases step with
  | consume head polls more =>
      have isPending := QueueKept.pending_cons (kept.kept.next_pending small polls more)
      have rest : IoSystem.pending { loop.io with
          system := loop.io.system.complete (loop.io.queue.cqeAt head).userData
            (loop.io.queue.cqeAt head).res
          polling := some (head + 1)
          taken := loop.io.taken + 1
          consumed := loop.io.consumed ++ [loop.io.queue.cqeAt head] } =
          loop.io.posted.drop (loop.io.consumed.length + 1) := by
        rw [IoSystem.pending, List.length_append, List.length_singleton]
      refine ⟨after, kept.inOrder, ?_, fun away => absurd atLoop away⟩
      have owed := kept.owed
      rw [underWay, isPending, List.map_cons] at owed
      rw [underWay, rest]
      have erased := (owed.trans List.perm_middle).erase (loop.io.queue.cqeAt head).userData
      rwa [List.erase_cons_head] at erased

/-- A completion that the kernel posts was in the kernel. -/
theorem post (kept : LoopKept bits sqBits loop) (small : bits ≤ 31) {sqe : Sqe} {res : BitVec 32}
    (inKernel : sqe ∈ loop.inFlight)
    (room : (loop.io.queue.tail - loop.io.queue.head).toNat < 2 ^ bits) :
    LoopKept bits sqBits { loop with
      inFlight := loop.inFlight.erase sqe
      io := { loop.io with
        queue := loop.io.queue.post (sqe.completion res)
        posted := loop.io.posted ++ [sqe.completion res] } } := by
  have owed := kept.owed
  have split := (List.perm_cons_erase inKernel).map Sqe.context
  rw [List.map_cons] at split
  constructor
  · apply kept.kept.post small room
    have counted := owed.count_eq sqe.context
    rw [underWay, List.map_append, List.count_append, List.count_append, split.count_eq sqe.context,
      List.count_cons_self] at counted
    change (loop.io.pending.map Cqe.userData).count sqe.context <
      loop.io.system.outstanding.count sqe.context
    omega
  · exact kept.inOrder
  · have isPending : IoSystem.pending { loop.io with
        queue := loop.io.queue.post (sqe.completion res)
        posted := loop.io.posted ++ [sqe.completion res] } = loop.io.pending ++ [sqe.completion res] :=
      List.drop_append_of_le_length kept.kept.atMost
    rw [underWay, isPending]
    dsimp only
    rw [List.map_append, List.map_append, List.map_singleton]
    rw [underWay, List.map_append] at owed
    apply owed.trans
    rw [List.append_assoc, List.append_assoc]
    apply List.Perm.append_left
    apply (split.append_right (loop.io.pending.map Cqe.userData)).trans
    rw [List.cons_append, ← List.append_assoc]
    exact (List.perm_append_singleton _ _).symm
  · exact kept.polling

theorem context_toNat (opcode fd addr len events : Nat) (procCtx : Word) :
    Sqe.context ⟨opcode, fd, addr, len, events, procCtx.toNat⟩ = procCtx := by
  rw [Sqe.context]
  exact BitVec.eq_of_toNat_eq (by simp)

theorem step (kept : LoopKept bits sqBits loop) (small : bits ≤ 31) (sqSmall : sqBits ≤ 31)
    {event : LoopEvent} (room : RingHasRoom loop event) (taken : LoopStep bits loop event next) :
    LoopKept bits sqBits next := by
  cases taken with
  | pollStart atLoop taken =>
      have after := kept.kept.step small taken
      cases taken with
      | pollStart => exact ⟨after, kept.inOrder, kept.owed, fun away => absurd atLoop away⟩
  | consume atLoop taken => exact kept.consume small atLoop taken
  | pollEnd atLoop taken =>
      have after := kept.kept.step small taken
      cases taken with
      | pollEnd => exact ⟨after, kept.inOrder, kept.owed, fun _ => rfl⟩
  | flush atPoint pending mayEnter =>
      rcases InOrder.flush sqSmall kept.inOrder mayEnter with ⟨inOrder, published⟩
      exact kept.enter inOrder published fun _ => by rw [atPoint]; exact nofun
  | noFlush atPoint pending =>
      have notPolling := kept.polling (by rw [atPoint]; exact nofun)
      exact ⟨kept.kept, kept.inOrder, kept.owed, fun _ => notPolling⟩
  | dispatch atPoint runnable taken =>
      apply kept.call small taken (by rw [atPoint]; exact nofun) nofun
      cases taken
      rfl
  | waitIo atPoint idle parked mayEnter =>
      rcases InOrder.enter sqSmall kept.inOrder mayEnter.2 0 with ⟨inOrder, published⟩
      exact kept.enter inOrder published (absurd rfl)
  | spin atPoint idle parked waits => exact ⟨kept.kept, kept.inOrder, kept.owed, absurd rfl⟩
  | exit atPoint idle parked waits mayEnter =>
      rcases InOrder.flush sqSmall kept.inOrder mayEnter with ⟨inOrder, published⟩
      exact kept.enter inOrder published fun _ => by rw [atPoint]; exact nofun
  | call atPoint isCall taken =>
      exact kept.call small taken (by rw [atPoint]; exact nofun) (not_complete isCall)
        (outstanding_loopCall isCall taken)
  | park opcode fd addr len atPoint taken =>
      have sound := taken.sound kept.kept.sound
      cases taken
      apply kept.publish sqSmall room sound (absurd rfl) fun _ => rfl
      rw [context_toNat]
      rfl
  | parkPoll fd atPoint taken =>
      have sound := taken.sound kept.kept.sound
      cases taken
      apply kept.publish sqSmall room sound (absurd rfl) fun _ => rfl
      rw [context_toNat]
      rfl
  | write fd fatPtr size atPoint taken writes notFull =>
      have sound := taken.sound kept.kept.sound
      have notPolling := kept.polling (by rw [atPoint]; exact nofun)
      cases taken
      rw [writeAsync_eq writes, if_neg (Nat.not_le.mpr notFull)]
      have published := @publish _ _ _ kept sqSmall room _ (writeSqe fd fatPtr size)
        (iadd loop.queue.sqePending 1) loop.point sound id (absurd notPolling) rfl
      exact published
  | writeBatch fd fatPtr size consumed atPoint taken writes isFull mayEnter =>
      have sound := taken.sound kept.kept.sound
      have notPolling := kept.polling (by rw [atPoint]; exact nofun)
      cases taken
      rw [writeAsync_eq writes, if_pos isFull]
      have published := @publish _ _ _ kept sqSmall room _ (writeSqe fd fatPtr size)
        loop.queue.sqePending loop.point sound id (absurd notPolling) rfl
      rcases InOrder.enter sqSmall published.inOrder mayEnter.2 0 with ⟨inOrder, left⟩
      exact @enter _ _ _ published _ consumed loop.point inOrder left id
  | post sqe res inKernel hasRoom => exact kept.post small inKernel hasRoom

end LoopKept

/-! ## What every run does -/

/-- Each parked actor has one operation on its way, in one place, and all others are nobody's. -/
structure Balanced (loop : SchedulerLoop) : Prop where
  owed : loop.system.outstanding.Perm (underWay loop)
  parked : ∀ actor ∈ loop.system.ctx.queues.parked, (underWay loop).count actor = 1
  awaited : ∀ context ∈ underWay loop, context ≠ 0 → context ∈ loop.system.ctx.queues.parked
  ordered : ParkedAndOrdered loop.io

/-- Each completion is taken in its turn and wakes its actor alone, and the loop is left when
there is no actor and no operation of one. -/
def Served (loop : SchedulerLoop) : LoopEvent → Prop
  | .consume cqe => TakenAndWoken loop.io (.consume cqe)
  | .pollEnd => TakenAndWoken loop.io .pollEnd
  | .exit _ => loop.system.live = [] ∧ ∀ context ∈ underWay loop, context = 0
  | _ => True

namespace LoopKept

theorem balanced (kept : LoopKept bits sqBits loop) : Balanced loop := by
  have sound := kept.kept.sound
  rcases sound.placement with ⟨waiters, placement⟩
  have counts : ∀ context, context ≠ 0 →
      (underWay loop).count context = loop.system.ctx.queues.parked.count context := by
    intro context real
    rw [← kept.owed.count_eq context, ← placement.owed.count_eq context, owedActors,
      List.count_filter (by simpa using real)]
  refine ⟨kept.owed, fun actor member => ?_, fun context member real => ?_, kept.kept.safe⟩
  · rw [counts actor (sound.real actor (placement.parked_live member))]
    exact List.count_eq_one_of_mem placement.parked_nodup member
  · have some := List.count_pos_iff.mpr member
    rw [counts context real] at some
    exact List.count_pos_iff.mp some

/-- With no actor in any queue there is no actor. -/
theorem live_nil (kept : LoopKept bits sqBits loop)
    (idle : loop.system.ctx.realCountOfProcesses = 0) (notParked : loop.system.ctx.ioParkedCount = 0)
    (noneWaits : loop.system.ctx.waitedProcessCount = 0) :
    loop.system.live = [] ∧ loop.system.ctx.queues.parked = [] := by
  have sound := kept.kept.sound
  rcases sound.placement with ⟨waiters, placement⟩
  have noneRuns : loop.system.ctx.queues.runnable = [] := by
    rw [← List.length_eq_zero_iff, ShedulerCtx.length_runnable, idle]
    rfl
  have nonParked : loop.system.ctx.queues.parked = [] := by
    rw [← List.length_eq_zero_iff, ShedulerCtx.length_parked, notParked]
    rfl
  have lastWaited : loop.system.ctx.lastWaitedProcessIndex = 0 :=
    sound.coherent.waited.symm.trans noneWaits
  have noWaiters : waiters = [] := by
    rw [← List.length_eq_zero_iff, ← @List.length_map _ _ waiters, ← placement.waiting,
      ShedulerCtx.length_waiting]
    exact congrArg BitVec.toNat lastWaited
  have placed := placement.placed
  change (loop.system.ctx.queues.runnable ++ waiters ++ loop.system.ctx.queues.parked).Perm
    loop.system.live at placed
  rw [noneRuns, noWaiters, nonParked] at placed
  exact ⟨placed.nil_eq.symm, nonParked⟩

theorem served (kept : LoopKept bits sqBits loop) (small : bits ≤ 31) {event : LoopEvent}
    (taken : LoopStep bits loop event next) : Served loop event := by
  cases taken with
  | consume _ taken => exact kept.kept.guarantees small taken
  | pollEnd _ taken => exact kept.kept.guarantees small taken
  | exit _ idle notParked noneWaits _ =>
      rcases kept.live_nil idle notParked noneWaits with ⟨noActor, nonParked⟩
      refine ⟨noActor, fun context member => ?_⟩
      by_contra real
      have awaited := kept.balanced.awaited context member real
      rw [nonParked] at awaited
      exact List.not_mem_nil awaited
  | pollStart | flush | noFlush | dispatch | waitIo | spin | call | park | parkPoll | write
  | writeBatch | post => exact trivial

end LoopKept

/-! ## The arrays behind the queues -/

/-- The arrays have room for what a completion or a park stores into them, which is not looked
at. -/
def ArraysHaveRoom (loop : SchedulerLoop) : LoopEvent → Prop
  | .consume cqe => HasRoom loop.system (.complete cqe.userData cqe.res)
  | .park _ => HasRoom loop.system .park
  | _ => True

/-- The queues have entries for what they hold, and no store has gone past one. -/
structure Housed (loop : SchedulerLoop) : Prop where
  roomy : Roomy loop.system.ctx
  inBounds : InBounds loop.system.ctx

theorem hasRoom_of_call {system : System} {event : Event} (isCall : event.IsLoopCall) :
    HasRoom system event := by
  cases event with
  | complete | park => cases isCall
  | spawn | send | dispatch | dequeue | yield | wait | done | submit => trivial

/-- A step of the loop is one step of the actors, or leaves them as they are. -/
theorem LoopKept.system_step (kept : LoopKept bits sqBits loop) (small : bits ≤ 31)
    {event : LoopEvent} (taken : LoopStep bits loop event next) (room : ArraysHaveRoom loop event) :
    next.system = loop.system ∨
      ∃ step, Step loop.system step next.system ∧ HasRoom loop.system step := by
  cases taken with
  | pollStart atLoop taken | pollEnd atLoop taken =>
      cases taken
      exact .inl rfl
  | consume atLoop taken =>
      cases taken with
      | consume head polls more =>
          rcases kept.kept.consume small polls more with ⟨idle, owed, -⟩
          exact .inr ⟨_, .complete _ _ idle owed, room⟩
  | dispatch atPoint runnable taken => exact .inr ⟨_, taken, trivial⟩
  | call atPoint isCall taken => exact .inr ⟨_, taken, hasRoom_of_call isCall⟩
  | park opcode fd addr len atPoint taken | parkPoll fd atPoint taken => exact .inr ⟨_, taken, room⟩
  | write fd fatPtr size atPoint taken | writeBatch fd fatPtr size consumed atPoint taken =>
      exact .inr ⟨_, taken, trivial⟩
  | flush | noFlush | waitIo | spin | exit | post => exact .inl rfl

namespace Housed

theorem start (main : Word) (memory : Word → Actor) (cqes : Nat → Cqe) (array : Nat → Nat)
    (sqes : Nat → Sqe) : Housed (.start main memory bits cqes sqBits array sqes) :=
  ⟨start_roomy main memory, start_inBounds main memory⟩

theorem step (housed : Housed loop) (kept : LoopKept bits sqBits loop) (small : bits ≤ 31)
    {event : LoopEvent} (taken : LoopStep bits loop event next) (room : ArraysHaveRoom loop event) :
    Housed next := by
  rcases kept.system_step small taken room with same | ⟨step, stepped, hasRoom⟩
  · constructor
    · rw [same]
      exact housed.roomy
    · rw [same]
      exact housed.inBounds
  · have bounds := step_bounds ⟨kept.kept.sound, housed.roomy⟩ housed.inBounds stepped
    exact ⟨bounds.2 hasRoom, bounds.1.mpr hasRoom⟩

end Housed

/-- In every run of the loop in which no submission is made while the ring is full and no actor is
woken or parked while its queue's array is, each operation is in one place until its completion is
taken, which wakes the actor that waits for it, no store leaves the arrays, and the loop does not
end before every actor has. -/
theorem loop_serves {main : Word} (memory : Word → Actor) (real : main ≠ 0) (small : bits ≤ 31)
    (cqes : Nat → Cqe) (sqSmall : sqBits ≤ 31) (array : Nat → Nat) (sqes : Nat → Sqe)
    {history : List (Stage SchedulerLoop LoopEvent)} {final : SchedulerLoop}
    (run : Run (LoopStep bits) (.start main memory bits cqes sqBits array sqes) history final)
    (room : Meets RingHasRoom history) (fits : Meets ArraysHaveRoom history) :
    Meets Served history ∧
      Throughout (fun loop => Balanced loop ∧ InBounds loop.system.ctx) history final := by
  have both : Meets (fun loop event => RingHasRoom loop event ∧ ArraysHaveRoom loop event) history :=
    fun stage member => ⟨room stage member, fits stage member⟩
  apply @Run.guarantees_of_invariant _ _ _ _ _ _
    (fun loop => LoopKept bits sqBits loop ∧ Housed loop) _ _ (run.restrict both)
    ⟨LoopKept.start memory real small cqes sqSmall array sqes, .start main memory cqes array sqes⟩
  · rintro current event next ⟨kept, housed⟩ ⟨taken, hasRoom, arrayRoom⟩
    exact ⟨kept.step small sqSmall hasRoom taken, housed.step kept small taken arrayRoom⟩
  · rintro current event next ⟨kept, -⟩ ⟨taken, -⟩
    exact kept.served small taken
  · exact fun loop both => ⟨both.1.balanced, both.2.inBounds⟩

/-! ## No submission stays behind -/

/-- The kernel takes all that it is asked to submit. -/
def TakesAll (loop : SchedulerLoop) : LoopEvent → Prop
  | .flush consumed | .waitIo consumed | .exit consumed => consumed = loop.queue.sqePending
  | .write _ consumed => SQE_BATCH_SIZE ≤ iadd loop.queue.sqePending 1 →
      consumed = iadd loop.queue.sqePending 1
  | _ => True

structure Drained (loop : SchedulerLoop) : Prop where
  pending : loop.queue.sqePending = loop.queue.unconsumed
  flushed : loop.point = .flushed ∨ loop.point = .exited → loop.queue.unconsumed = 0

/-- When the loop goes on to an actor, waits or ends, no submission is left in the ring. -/
def HandedOver (loop : SchedulerLoop) : LoopEvent → Prop
  | .dispatch | .waitIo _ | .spin | .exit _ => loop.queue.published = []
  | _ => True

namespace InOrder

theorem counted_push (small : sqBits ≤ 31) (inOrder : InOrder sqBits queue)
    (room : queue.unconsumed ≤ queue.mask) (counted : queue.sqePending = queue.unconsumed) (sqe : Sqe) :
    iadd queue.sqePending 1 =
      SubmissionQueue.unconsumed { queue.push sqe with sqePending := iadd queue.sqePending 1 } := by
  have ring : 2 ^ sqBits < 2 ^ 32 := Nat.pow_lt_pow_right (by decide) (by omega)
  have positive := Nat.two_pow_pos sqBits
  have isMask := inOrder.mask
  have published := (InOrder.push small inOrder room sqe (iadd queue.sqePending 1)).2
  rw [← length_published, published, List.length_append, length_published, List.length_singleton, counted]
  exact iadd_eq (by omega)

theorem drained_enter (small : sqBits ≤ 31) (inOrder : InOrder sqBits queue) :
    SubmissionQueue.unconsumed { queue.ioUringEnter queue.unconsumed with sqePending := 0 } = 0 := by
  rw [← length_published, (InOrder.enter small inOrder (Nat.le_refl _) 0).2, List.length_drop,
    length_published, Nat.sub_self]

end InOrder

namespace Drained

theorem flush (drained : Drained loop) (sqSmall : sqBits ≤ 31) (inOrder : InOrder sqBits loop.queue) :
    (loop.queue.flush loop.queue.sqePending).sqePending =
        (loop.queue.flush loop.queue.sqePending).unconsumed ∧
      (loop.queue.flush loop.queue.sqePending).unconsumed = 0 := by
  have counted := drained.pending
  rw [SubmissionQueue.flush]
  by_cases pending : loop.queue.sqePending = 0
  · rw [if_neg (not_not_intro pending)]
    exact ⟨counted, counted.symm.trans pending⟩
  · rw [if_pos pending, counted]
    have empty := inOrder.drained_enter sqSmall
    exact ⟨empty.symm, empty⟩

theorem step (drained : Drained loop) (kept : LoopKept bits sqBits loop) (sqSmall : sqBits ≤ 31)
    {event : LoopEvent} (room : RingHasRoom loop event) (takes : TakesAll loop event)
    (taken : LoopStep bits loop event next) : Drained next := by
  have counted := drained.pending
  have inOrder := kept.inOrder
  cases taken with
  | pollStart atPoint taken | consume atPoint taken | post sqe res inKernel hasRoom =>
      exact ⟨counted, drained.flushed⟩
  | pollEnd atPoint taken => exact ⟨counted, by simp⟩
  | flush atPoint pending mayEnter =>
      cases takes
      rcases drained.flush sqSmall inOrder with ⟨isCounted, empty⟩
      exact ⟨isCounted, fun _ => empty⟩
  | noFlush atPoint pending => exact ⟨counted, fun _ => counted.symm.trans pending⟩
  | dispatch atPoint runnable taken => exact ⟨counted, by simp⟩
  | waitIo atPoint idle parked mayEnter =>
      cases takes
      have empty := inOrder.drained_enter sqSmall
      rw [← counted] at empty
      exact ⟨empty.symm, fun _ => empty⟩
  | spin atPoint idle parked waits => exact ⟨counted, by simp⟩
  | exit atPoint idle parked waits mayEnter =>
      cases takes
      rcases drained.flush sqSmall inOrder with ⟨isCounted, empty⟩
      exact ⟨isCounted, fun _ => empty⟩
  | @call event system atPoint isCall taken =>
      refine ⟨counted, ?_⟩
      dsimp only [pointAfter]
      cases system.running
      · simp
      · simp
  | park opcode fd addr len atPoint taken =>
      exact ⟨inOrder.counted_push sqSmall room counted _, by simp⟩
  | parkPoll fd atPoint taken => exact ⟨inOrder.counted_push sqSmall room counted _, by simp⟩
  | write fd fatPtr size atPoint taken writes notFull =>
      rw [writeAsync_eq writes, if_neg (Nat.not_le.mpr notFull)]
      refine ⟨inOrder.counted_push sqSmall room counted _, ?_⟩
      change loop.point = .flushed ∨ loop.point = .exited → _
      rw [atPoint]
      simp
  | writeBatch fd fatPtr size consumed atPoint taken writes isFull mayEnter =>
      rw [writeAsync_eq writes, if_pos isFull]
      have isConsumed := takes isFull
      have pushed := inOrder.counted_push sqSmall room counted (writeSqe fd fatPtr size)
      have empty := InOrder.drained_enter sqSmall
        (InOrder.push sqSmall inOrder room (writeSqe fd fatPtr size) (iadd loop.queue.sqePending 1)).1
      rw [← pushed, ← isConsumed] at empty
      exact ⟨empty.symm, fun _ => empty⟩

end Drained

/-- In every run in which the kernel takes each batch whole as well, no submission is left in the
ring when the next actor is called, and none when the program ends. -/
theorem loop_hands_over {main : Word} (memory : Word → Actor) (real : main ≠ 0) (small : bits ≤ 31)
    (cqes : Nat → Cqe) (sqSmall : sqBits ≤ 31) (array : Nat → Nat) (sqes : Nat → Sqe)
    {history : List (Stage SchedulerLoop LoopEvent)} {final : SchedulerLoop}
    (run : Run (LoopStep bits) (.start main memory bits cqes sqBits array sqes) history final)
    (room : Meets RingHasRoom history) (takes : Meets TakesAll history) :
    Meets HandedOver history ∧ Throughout (fun loop => loop.point = .exited → loop.queue.published = [])
      history final := by
  have both : Meets (fun loop event => RingHasRoom loop event ∧ TakesAll loop event) history :=
    fun stage member => ⟨room stage member, takes stage member⟩
  have started : Drained (.start main memory bits cqes sqBits array sqes) := by
    have empty : (SubmissionQueue.init sqBits array sqes).unconsumed = 0 :=
      (tracks_start sqBits array sqes).unconsumed_eq sqSmall
    exact ⟨empty.symm, fun _ => empty⟩
  have none : ∀ loop : SchedulerLoop, loop.queue.unconsumed = 0 → loop.queue.published = [] := by
    intro loop empty
    rw [← List.length_eq_zero_iff, length_published, empty]
  apply @Run.guarantees_of_invariant _ _ _ _ _ _
    (fun loop => LoopKept bits sqBits loop ∧ Drained loop) _ _ (run.restrict both)
    ⟨LoopKept.start memory real small cqes sqSmall array sqes, started⟩
  · rintro current event next ⟨kept, drained⟩ ⟨taken, hasRoom, takesAll⟩
    exact ⟨kept.step small sqSmall hasRoom taken, drained.step kept sqSmall hasRoom takesAll taken⟩
  · rintro current event next ⟨-, drained⟩ ⟨taken, -, -⟩
    cases taken with
    | dispatch atPoint | waitIo atPoint | spin atPoint | exit atPoint =>
        exact none current (drained.flushed (.inl atPoint))
    | pollStart | consume | pollEnd | flush | noFlush | call | park | parkPoll | write | writeBatch
    | post => exact trivial
  · exact fun loop both atEnd => none loop (both.2.flushed (.inr atEnd))

/-! ## One accept -/

/-- The main actor parks on an accept, and the loop hands it to the kernel, waits for its
completion and takes it. -/
theorem accept_run : ∃ history final,
    Run (LoopStep 12) (.start 16 (fun _ => .zeroed) 12 (fun _ => ⟨0, 0⟩) 12 (fun _ => 0)
      fun _ => ⟨0, 0, 0, 0, 0, 0⟩) history final ∧
      Meets RingHasRoom history ∧ Meets ArraysHaveRoom history ∧ Meets TakesAll history ∧
      (final.system.actors 16).tempVal = -5 := by
  have start : Run (LoopStep 12) (.start 16 (fun _ => .zeroed) 12 (fun _ => ⟨0, 0⟩) 12 (fun _ => 0)
      fun _ => ⟨0, 0, 0, 0, 0, 0⟩) [] _ := .refl
  have polled := (start.next (.pollStart rfl (.pollStart rfl rfl))).next (.pollEnd rfl (.pollEnd 0 rfl rfl))
  have called := (polled.next (.noFlush rfl rfl)).next (.dispatch rfl (by decide) (.dispatch rfl (by decide)))
  have parked := called.next (.park 13 3 0 0 rfl (.park rfl))
  have again := (parked.next (.pollStart rfl (.pollStart rfl rfl))).next (.pollEnd rfl (.pollEnd 0 rfl rfl))
  have submitted := again.next (@LoopStep.flush _ _ 1 rfl (by decide) ⟨by decide, by decide⟩)
  have waited := submitted.next (@LoopStep.waitIo _ _ 0 rfl (by decide) (by decide) ⟨by decide, by decide⟩)
  have posted := waited.next (.post ⟨13, 3, 0, 0, 0, 16⟩ (-5) (by decide) (by decide))
  have woken := (posted.next (.pollStart rfl (.pollStart rfl rfl))).next (.consume rfl (.consume 0 rfl (by decide)))
  refine ⟨_, _, woken, ?_, ?_, ?_, by decide⟩
  · simp only [meets_cons]
    exact ⟨trivial, trivial, trivial, trivial, trivial, trivial, trivial, by decide, trivial, trivial,
      trivial, trivial, meets_nil _⟩
  · simp only [meets_cons]
    exact ⟨fun _ => by decide, trivial, trivial, trivial, trivial, trivial, trivial,
      (by decide : _ < IO_PARKED_ENTRIES), trivial, trivial, trivial, trivial, meets_nil _⟩
  · simp only [meets_cons]
    exact ⟨trivial, trivial, trivial, rfl, rfl, trivial, trivial, trivial, trivial, trivial, trivial,
      trivial, meets_nil _⟩

theorem accept_served : ∃ history final,
    Run (LoopStep 12) (.start 16 (fun _ => .zeroed) 12 (fun _ => ⟨0, 0⟩) 12 (fun _ => 0)
      fun _ => ⟨0, 0, 0, 0, 0, 0⟩) history final ∧
      Meets Served history ∧
      Throughout (fun loop => Balanced loop ∧ InBounds loop.system.ctx) history final ∧
      (final.system.actors 16).tempVal = -5 := by
  rcases accept_run with ⟨history, final, run, room, fits, -, result⟩
  rcases loop_serves _ (by decide) (by decide) _ (by decide) _ _ run room fits with ⟨served, balanced⟩
  exact ⟨history, final, run, served, balanced, result⟩

theorem accept_handed_over : ∃ history final,
    Run (LoopStep 12) (.start 16 (fun _ => .zeroed) 12 (fun _ => ⟨0, 0⟩) 12 (fun _ => 0)
      fun _ => ⟨0, 0, 0, 0, 0, 0⟩) history final ∧
      Meets HandedOver history ∧ (final.system.actors 16).tempVal = -5 := by
  rcases accept_run with ⟨history, final, run, room, -, takes, result⟩
  have handed := loop_hands_over _ (by decide) (by decide) _ (by decide) _ _ run room takes
  exact ⟨history, final, run, handed.1, result⟩

end LakeNative.Io

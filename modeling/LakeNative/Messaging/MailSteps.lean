import LakeNative.Runtime.SystemInvariant

/-! # What a step does to a mailbox

Each step leaves an actor's mailbox alone, appends one message to it, takes words
from it, or creates it empty.
-/

namespace LakeNative.Messaging

open LakeNative.Runtime LakeNative.Transitions

/-- The same ring with the same ends. -/
structure SameMail (actor other : Actor) : Prop where
  mailbox : actor.mailbox = other.mailbox
  head : actor.mailboxHead = other.mailboxHead
  tail : actor.mailboxTail = other.mailboxTail

theorem SameMail.refl (actor : Actor) : SameMail actor actor := ⟨rfl, rfl, rfl⟩

theorem SameMail.delivered {actor other : Actor} {log : MailLog}
    (same : SameMail actor other) (delivered : Delivered other log) :
    Delivered actor log := by
  apply Delivered.of_inOrder
  rw [Actor.unread, same.mailbox, same.head, same.tail]
  exact delivered.inOrder

theorem SameMail.tracked {actor other : Actor} {log : MailLog}
    (same : SameMail actor other) (tracked : Tracked other log) : Tracked actor log where
  headIn := same.head ▸ tracked.headIn
  tailIn := same.tail ▸ tracked.tailIn
  readIn := tracked.readIn
  queued := tracked.queued
  counts := by
    rw [same.head, same.tail]
    exact tracked.counts

/-- What one step did to the mailbox and the log of an actor that is live after it. -/
inductive MailChange (system next : System) (event : Event) (actor : Word) : Prop
  | kept :
      actor ∈ system.live →
      SameMail (next.actors actor) (system.actors actor) →
      next.logs actor = system.logs actor →
      MailChange system next event actor
  | sent (pid : Word) (message : List Word) (fresh : Nat → Word) :
      event = .send pid message fresh →
      system.ctx.pids.lookupProcCtx pid = actor →
      actor ∈ system.live →
      next.actors actor = (system.actors actor).enqueue message →
      next.logs actor = (system.logs actor).send message →
      MailChange system next event actor
  | read (varBase count : Nat) :
      event = .dequeue varBase count →
      system.current = actor →
      actor ∈ system.live →
      (system.actors actor).mailboxHead ≠ (system.actors actor).mailboxTail →
      next.actors actor = (system.actors actor).dequeue varBase count →
      next.logs actor =
        (system.logs actor).take ((system.actors actor).messageWords count) →
      MailChange system next event actor
  | spawned :
      actor ∉ system.live →
      (next.actors actor).mailboxHead = 0 →
      (next.actors actor).mailboxTail = 0 →
      next.logs actor = .empty →
      MailChange system next event actor

theorem sameMail_fixParkedIdx (actors : Word → Actor)
    (lastVal matchIdx lastIdx actor : Word) :
    SameMail (ShedulerCtx.fixParkedIdx actors lastVal matchIdx lastIdx actor)
      (actors actor) := by
  unfold ShedulerCtx.fixParkedIdx
  split
  · exact .refl _
  · by_cases same : actor = lastVal
    · subst same
      rw [Function.update_self]
      exact ⟨rfl, rfl, rfl⟩
    · rw [Function.update_of_ne same]
      exact .refl _

theorem sameMail_complete (system : System) (userData : Word) (res : BitVec 32)
    (actor : Word) :
    SameMail ((system.complete userData res).actors actor) (system.actors actor) := by
  by_cases real : userData = 0
  · subst real
    rw [System.complete_zero]
    exact .refl _
  · simp only [System.complete, ShedulerCtx.emitWakeByUserData, if_neg real]
    by_cases same : actor = userData
    · subst same
      rw [Function.update_self]
      have kept := sameMail_fixParkedIdx system.actors
        (system.ctx.ioParked.load (system.ctx.ioParkedCount - 1))
        (system.actors actor).ioParkedIdx (system.ctx.ioParkedCount - 1) actor
      exact ⟨kept.mailbox, kept.head, kept.tail⟩
    · rw [Function.update_of_ne same]
      exact sameMail_fixParkedIdx system.actors _ _ _ actor

theorem sameMail_park (system : System) (actor : Word) :
    SameMail (system.park.actors actor) (system.actors actor) := by
  simp only [System.park, ShedulerCtx.parkCurrent]
  by_cases same : actor = system.ctx.processArr.load system.ctx.currentProcess
  · subst same
    rw [Function.update_self]
    exact ⟨rfl, rfl, rfl⟩
  · rw [Function.update_of_ne same]
    exact .refl _

theorem mailChange_step {system next : System} {event : Event}
    (step : Step system event next) {actor : Word} (live : actor ∈ next.live) :
    MailChange system next event actor := by
  cases step with
  | complete userData res =>
      exact .kept live (sameMail_complete system userData res actor) rfl
  | park => exact .kept live (sameMail_park system actor) rfl
  | dispatch => exact .kept live (.refl _) rfl
  | submit => exact .kept live (.refl _) rfl
  | yield => exact .kept live (.refl _) rfl
  | wait => exact .kept live (.refl _) rfl
  | done => exact .kept (List.mem_of_mem_erase live) (.refl _) rfl
  | spawn procCtx memory freshPids fresh _ _ new =>
      by_cases isNew : actor = procCtx
      · subst isNew
        exact .spawned new (by simp [System.spawn, Actor.spawned])
          (by simp [System.spawn, Actor.spawned]) (by simp [System.spawn])
      · have old : actor ∈ system.live := (List.mem_cons.mp live).resolve_left isNew
        refine .kept old ?_ ?_
        · simp only [System.spawn, Function.update_of_ne isNew]
          exact .refl _
        · simp only [System.spawn, Function.update_of_ne isNew]
  | dequeue varBase count running some =>
      by_cases isCurrent : actor = system.current
      · subst isCurrent
        exact .read varBase count rfl rfl live some (by simp [System.dequeue])
          (by simp [System.dequeue])
      · refine .kept live ?_ ?_
        · simp only [System.dequeue, Function.update_of_ne isCurrent]
          exact .refl _
        · simp only [System.dequeue, Function.update_of_ne isCurrent]
  | send pid message fresh _ handedOut =>
      by_cases none : system.ctx.pids.lookupProcCtx pid = 0
      · rw [System.send, if_pos none] at live ⊢
        exact .kept live (.refl _) rfl
      · rw [System.send, if_neg none] at live ⊢
        by_cases isTarget : actor = system.ctx.pids.lookupProcCtx pid
        · subst isTarget
          exact .sent pid message fresh rfl rfl live (by simp) (by simp)
        · refine .kept live ?_ ?_
          · simp only [Function.update_of_ne isTarget]
            exact .refl _
          · simp only [Function.update_of_ne isTarget]

end LakeNative.Messaging

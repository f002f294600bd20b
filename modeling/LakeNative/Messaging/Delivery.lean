import LakeNative.Messaging.MailSteps

/-! # Mailbox delivery

Any number of actors send to a mailbox while its owner reads whole messages. The
words read are the words sent, in order, exactly as long as no send meets more
unread words than the ring can tell apart.
-/

namespace LakeNative.Messaging

open LakeNative.Runtime LakeNative.Transitions

def AllDelivered (system : System) : Prop :=
  ∀ actor ∈ system.live, Delivered (system.actors actor) (system.logs actor)

/-- A dequeue takes exactly the words of the first queued message, or those of a
message of no words. -/
def WholeMessages (system : System) : Event → Prop
  | .dequeue _ count =>
      count = 0 ∨ ∃ message messages,
        (system.logs system.current).queued = message :: messages ∧ message.length = count
  | _ => True

theorem WholeMessages.available {system : System} {varBase count : Nat}
    (whole : WholeMessages system (.dequeue varBase count)) :
    count ≤ (system.logs system.current).queued.flatten.length := by
  rcases whole with none | ⟨message, messages, first, isLength⟩
  · omega
  · rw [first, List.flatten_cons, List.length_append]
    omega

/-- The unread words of the target and the new message together stay below the size
of the ring. -/
def RingHasRoom (system : System) : Event → Prop
  | .send pid message _ =>
      system.ctx.pids.lookupProcCtx pid ≠ 0 →
        (system.logs (system.ctx.pids.lookupProcCtx pid)).unread + message.length <
          MAILBOX_WORDS
  | _ => True

structure Supported (system : System) : Prop where
  sound : system.Sound
  tracked : ∀ actor ∈ system.live, Tracked (system.actors actor) (system.logs actor)

theorem start_supported {main : Word} (memory : Word → Actor) (real : main ≠ 0) :
    Supported (System.start main memory) where
  sound := System.start_sound main memory real
  tracked := by
    intro actor live
    rcases List.mem_singleton.mp live with rfl
    exact tracked_new (by simp [System.start, Actor.spawned])
      (by simp [System.start, Actor.spawned])

theorem start_delivered (main : Word) (memory : Word → Actor) :
    AllDelivered (System.start main memory) := by
  intro actor live
  rcases List.mem_singleton.mp live with rfl
  exact delivered_new (by simp [System.start, Actor.spawned])
    (by simp [System.start, Actor.spawned])

theorem supported_step {system next : System} {event : Event}
    (supported : Supported system) (whole : WholeMessages system event)
    (step : Step system event next) : Supported next where
  sound := step.sound supported.sound
  tracked := by
    intro actor live
    cases mailChange_step step live with
    | kept old same logs =>
        rw [logs]
        exact same.tracked (supported.tracked actor old)
    | sent pid message fresh isSend found old actors logs =>
        rw [actors, logs]
        exact (supported.tracked actor old).enqueue message
    | read varBase count isDequeue isCurrent old some actors logs =>
        subst isDequeue isCurrent
        rw [actors, logs]
        exact (supported.tracked _ old).dequeue whole.available varBase
    | spawned new head tail logs =>
        rw [logs]
        exact tracked_new head tail

/-- From a state in which everything is delivered, a step leads to such a state
exactly when the ring has room for what it sends. -/
theorem allDelivered_step_iff {system next : System} {event : Event}
    (supported : Supported system) (delivered : AllDelivered system)
    (whole : WholeMessages system event) (step : Step system event next) :
    AllDelivered next ↔ RingHasRoom system event := by
  constructor
  · intro after
    cases step with
    | send pid message fresh _ handedOut =>
        intro found
        rcases supported.sound.ownPid_of_lookup handedOut found with ⟨live, -⟩
        have target := after (system.ctx.pids.lookupProcCtx pid)
        simp only [System.send, if_neg found, Function.update_self] at target
        exact ((supported.tracked _ live).delivered_enqueue_iff (delivered _ live)
          message).mp (target live)
    | _ => trivial
  · intro room actor live
    cases mailChange_step step live with
    | kept old same logs =>
        rw [logs]
        exact same.delivered (delivered actor old)
    | sent pid message fresh isSend found old actors logs =>
        subst isSend found
        rw [actors, logs]
        exact ((supported.tracked _ old).delivered_enqueue_iff (delivered _ old)
          message).mpr (room (supported.sound.real _ old))
    | read varBase count isDequeue isCurrent old some actors logs =>
        subst isDequeue isCurrent
        rw [actors, logs]
        exact (supported.tracked _ old).delivered_dequeue (delivered _ old)
          whole.available varBase
    | spawned new head tail logs =>
        rw [logs]
        exact delivered_new head tail

/-- In a run whose dequeues take whole messages, every mailbox delivers in every
state exactly when every send finds room in the ring of its target. -/
theorem mailbox_delivery_iff {main : Word} {memory : Word → Actor}
    {history : List (Stage System Event)} {final : System} (real : main ≠ 0)
    (run : Run Step (System.start main memory) history final)
    (whole : Meets WholeMessages history) :
    Throughout AllDelivered history final ↔ Meets RingHasRoom history :=
  (run.restrict whole).throughout_iff_meets (start_supported memory real)
    (start_delivered main memory)
    (fun _ _ _ supported delivered step =>
      allDelivered_step_iff supported delivered step.2 step.1)
    (fun _ _ _ supported _ _ step => supported_step supported step.2 step.1)

/-- The main actor sends two words to itself and reads both as one message. -/
theorem mailbox_delivery_self :
    let started := System.start 16 fun _ => .zeroed
    let dispatched := { started with running := true }
    let sent := dispatched.send 0x100000001 [7, 9] fun _ => 0
    AllDelivered (sent.dequeue 0 2) := by
  intro started dispatched sent
  have dispatch : Step started .dispatch dispatched := .dispatch rfl (by decide)
  have send : Step dispatched (.send 0x100000001 [7, 9] _) sent :=
    .send _ [7, 9] _ rfl (by decide)
  have dequeue : Step sent (.dequeue 0 2) (sent.dequeue 0 2) :=
    .dequeue 0 2 rfl (by decide)
  have run := ((Run.refl.next dispatch).next send).next dequeue
  refine ((mailbox_delivery_iff (by decide) run ?_).mpr ?_).2
  · simp only [meets_cons, meets_nil, WholeMessages, and_true]
    exact .inr ⟨[7, 9], [], by decide, rfl⟩
  · simp only [meets_cons, meets_nil, RingHasRoom, and_true, true_and]
    decide

/-! ## A ring that is filled -/

/-- The main actor has sent itself `count` words and read none. -/
def selfSends : Nat → System
  | 0 => { System.start 16 fun _ => .zeroed with running := true }
  | count + 1 => (selfSends count).send 0x100000001 [7] fun _ => 0

theorem send_unwaited {system : System} {pid : Word} (message : List Word)
    (fresh : Nat → Word) (found : system.ctx.pids.lookupProcCtx pid = 16)
    (unwaited : system.ctx.wakeProcess pid fresh = system.ctx) :
    system.send pid message fresh =
      { system with
        actors := Function.update system.actors 16 ((system.actors 16).enqueue message)
        logs := Function.update system.logs 16 ((system.logs 16).send message) } := by
  have real : system.ctx.pids.lookupProcCtx pid ≠ 0 := by
    rw [found]
    decide
  rw [System.send, if_neg real, unwaited, found]

structure SelfSent (system : System) (count : Nat) : Prop where
  ctx : system.ctx = (selfSends 0).ctx
  running : system.running = true
  live : system.live = [16]
  sent : (system.logs 16).sent.length = count
  read : (system.logs 16).read = []

theorem SelfSent.found {system : System} {count : Nat} (sent : SelfSent system count) :
    system.ctx.pids.lookupProcCtx 0x100000001 = 16 := by
  rw [sent.ctx]
  decide

theorem selfSent (count : Nat) : SelfSent (selfSends count) count := by
  induction count with
  | zero => exact ⟨rfl, rfl, rfl, rfl, rfl⟩
  | succ count induction =>
      have unwaited : (selfSends count).ctx.wakeProcess 0x100000001 (fun _ => 0) =
          (selfSends count).ctx := by
        rw [induction.ctx]
        rfl
      rw [selfSends, send_unwaited [7] _ induction.found unwaited]
      exact {
        ctx := induction.ctx
        running := induction.running
        live := induction.live
        sent := by
          simp only [Function.update_self, MailLog.send, List.length_append, induction.sent,
            List.length_singleton]
        read := by
          simp only [Function.update_self, MailLog.send, induction.read] }

theorem selfSends_step (count : Nat) :
    Step (selfSends count) (.send 0x100000001 [7] fun _ => 0) (selfSends (count + 1)) := by
  have sent := selfSent count
  refine .send _ [7] _ sent.running ?_
  rw [sent.ctx]
  decide

theorem selfSends_run (count : Nat) :
    ∃ history, Run Step (System.start 16 fun _ => .zeroed) history (selfSends count) ∧
      Meets WholeMessages history := by
  induction count with
  | zero =>
      have dispatch : Step (System.start 16 fun _ => .zeroed) .dispatch (selfSends 0) :=
        .dispatch rfl (by decide)
      exact ⟨_, Run.refl.next dispatch, by simp [WholeMessages]⟩
  | succ count induction =>
      rcases induction with ⟨history, run, whole⟩
      exact ⟨_, run.next (selfSends_step count), by simp [WholeMessages, whole]⟩

/-- After 256 words a full mailbox is seen as empty. -/
theorem full_mailbox_seen_empty :
    ∃ history, Run Step (System.start 16 fun _ => .zeroed) history (selfSends 256) ∧
      Meets WholeMessages history ∧ ¬ AllDelivered (selfSends 256) := by
  rcases selfSends_run 256 with ⟨history, run, whole⟩
  refine ⟨history, run, whole, fun delivered => ?_⟩
  have sent := selfSent 256
  have supported : Throughout Supported history (selfSends 256) :=
    run.invariant_of_meets whole (start_supported _ (by decide))
      (fun _ _ _ supported whole step => supported_step supported whole step)
  have live : (16 : Word) ∈ (selfSends 256).live := by simp [sent.live]
  have fits := (supported.2.tracked 16 live).fits_of_delivered (delivered 16 live)
  rw [MailLog.unread, sent.sent, sent.read] at fits
  exact absurd fits (by decide)

end LakeNative.Messaging

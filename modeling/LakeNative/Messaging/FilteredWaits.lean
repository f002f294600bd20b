import LakeNative.Compiler.WaitDispatch
import LakeNative.Messaging.MailSteps

/-! # The filtered wait

An actor executes filtered waits while others send to it. A pass through a wait
takes exactly the first queued message, and fires a handler exactly if its first
word is a listed pid, as long as that message has the length the handlers expect.
-/

namespace LakeNative.Messaging

open LakeNative.Runtime LakeNative.Transitions LakeNative.Compiler

/-! ## One pass -/

/-- The variables after the words are stored from `base` on. -/
def storeWords (memory : Nat → Word) (base : Nat) (words : List Word) : Nat → Word :=
  fun index => if base ≤ index then (words[index - base]?).getD (memory index) else memory index

/-- The pids listed by the filter, in the scope in which the wait stands. -/
def listed (wait : WaitExpr) (memory : Nat → Word) : List Word :=
  wait.filter.map fun expr => expr (wait.state.env memory)

/-- The message's first word is a listed pid. -/
def FromListed (wait : WaitExpr) (memory : Nat → Word) (message : List Word) : Prop :=
  ∃ pid ∈ listed wait memory, message.head? = some pid

theorem dequeue_vars (actor : Actor) (varBase count : Nat) :
    (actor.dequeue varBase count).vars =
      storeWords actor.vars varBase (actor.messageWords count) := by
  funext index
  simp only [Actor.dequeue, storeWords, Actor.messageWords, List.getElem?_map]
  by_cases above : varBase ≤ index
  · by_cases within : index < varBase + count
    · rw [if_pos ⟨above, within⟩, if_pos above, List.getElem?_range (by omega)]
      rfl
    · rw [if_neg (fun both => within both.2), if_pos above,
        List.getElem?_eq_none (by simp; omega)]
      rfl
  · rw [if_neg (fun both => above both.1), if_neg above]

/-- The word the filter compares, and the handler that the pass fires on it. -/
theorem attempt_of_some (wait : FilteredWait) {actor : Actor}
    (some : actor.mailboxHead ≠ actor.mailboxTail) :
    wait.attempt actor =
      (if wait.accepts (actor.dequeue wait.dequeueVarBase wait.dequeueArgCount).vars
          (actor.messageWord 0) then
        match wait.dispatch (actor.messageWord 0) with
        | .some handler => (.fired handler, actor.dequeue wait.dequeueVarBase wait.dequeueArgCount)
        | none => (.noMatch, actor.dequeue wait.dequeueVarBase wait.dequeueArgCount)
      else
        (.dropped, actor.dequeue wait.dequeueVarBase wait.dequeueArgCount)) := by
  have compares : ((wait.hasGuards || !wait.filter.isEmpty) &&
      decide (wait.dequeueArgCount ≠ 0)) = true := by
    simp [wait.filterSome, wait.argsSome]
  have isFirst : (if ((wait.hasGuards || !wait.filter.isEmpty) &&
      decide (wait.dequeueArgCount ≠ 0)) = true then actor.messageWord 0 else 0) =
        actor.messageWord 0 := if_pos compares
  rewrite [WaitExpr.attempt, if_neg some, isFirst]
  rfl

theorem attempt_actor (wait : FilteredWait) {actor : Actor}
    (some : actor.mailboxHead ≠ actor.mailboxTail) :
    (wait.attempt actor).2 = actor.dequeue wait.dequeueVarBase wait.dequeueArgCount := by
  rw [attempt_of_some wait some]
  split
  · split <;> rfl
  · rfl

theorem attempt_fired_iff (wait : FilteredWait) {actor : Actor}
    (some : actor.mailboxHead ≠ actor.mailboxTail) :
    (∃ handler, (wait.attempt actor).1 = .fired handler) ↔
      wait.accepts (actor.dequeue wait.dequeueVarBase wait.dequeueArgCount).vars
          (actor.messageWord 0) = true ∧
        (wait.dispatch (actor.messageWord 0)).isSome := by
  rw [attempt_of_some wait some]
  split
  · rename_i accepted
    split
    · rename_i handler dispatched
      simp [accepted, dispatched]
    · rename_i none
      simp [none]
  · rename_i rejected
    simp [rejected]

/-! ## The receiver and its mailbox -/

structure Receiver where
  actor : Actor
  log : MailLog

inductive ReceiverEvent where
  | send (message : List Word)
  | attempt (wait : FilteredWait)
  | other

def Receiver.attempt (receiver : Receiver) (wait : FilteredWait) : Receiver where
  actor := (wait.attempt receiver.actor).2
  log :=
    if receiver.actor.mailboxHead = receiver.actor.mailboxTail then receiver.log
    else receiver.log.take (receiver.actor.messageWords wait.dequeueArgCount)

/-- The steps that concern one actor's mailbox: a send by anyone, a pass through a
filtered wait of its own, and anything else, which leaves the mailbox alone. -/
inductive ReceiverStep : Receiver → ReceiverEvent → Receiver → Prop
  | send {receiver} (message : List Word) :
      ReceiverStep receiver (.send message)
        ⟨receiver.actor.enqueue message, receiver.log.send message⟩
  | attempt {receiver} (wait : FilteredWait) :
      ReceiverStep receiver (.attempt wait) (receiver.attempt wait)
  | other {receiver} (actor : Actor) :
      SameMail actor receiver.actor →
      ReceiverStep receiver .other ⟨actor, receiver.log⟩

/-- The event dequeues as a filtered wait does, if the actor is the current one. -/
def DequeuesFiltered (actor : Word) (system : System) : Event → Prop
  | .dequeue varBase count => system.current = actor →
      ∃ wait : FilteredWait, varBase = wait.dequeueVarBase ∧ count = wait.dequeueArgCount
  | _ => True

/-- Each step of the running system is such a step of every actor that lives on. -/
theorem receiverStep_of_step {system next : System} {event : Event} {actor : Word}
    (step : Step system event next) (filtered : DequeuesFiltered actor system event)
    (old : actor ∈ system.live) (live : actor ∈ next.live) :
    ∃ receiverEvent, ReceiverStep ⟨system.actors actor, system.logs actor⟩ receiverEvent
      ⟨next.actors actor, next.logs actor⟩ := by
  cases mailChange_step step live with
  | kept _ same logs =>
      rw [logs]
      exact ⟨_, .other (next.actors actor) same⟩
  | sent pid message fresh _ _ _ actors logs =>
      rw [actors, logs]
      exact ⟨_, .send message⟩
  | read varBase count isDequeue isCurrent _ some actors logs =>
      subst isDequeue
      rcases filtered isCurrent with ⟨wait, rfl, rfl⟩
      rw [actors, logs]
      have taken := @ReceiverStep.attempt ⟨system.actors actor, system.logs actor⟩ wait
      rw [Receiver.attempt, attempt_actor wait some, if_neg some] at taken
      exact ⟨_, taken⟩
  | spawned new => exact absurd old new

/-- A run of the system is a run of the mailbox of an actor that lives throughout. -/
theorem receiver_run {start final : System} {history : List (Stage System Event)}
    {actor : Word} (run : Run Step start history final)
    (filtered : Meets (DequeuesFiltered actor) history)
    (live : Throughout (fun system => actor ∈ system.live) history final) :
    ∃ receiverHistory, Run ReceiverStep ⟨start.actors actor, start.logs actor⟩
      receiverHistory ⟨final.actors actor, final.logs actor⟩ := by
  induction run with
  | refl => exact ⟨[], .refl⟩
  | next _ step induction =>
      rcases meets_cons.mp filtered with ⟨now, earlier⟩
      rcases throughout_cons.mp live with ⟨before, after⟩
      rcases induction earlier before with ⟨receiverHistory, receiverRun⟩
      rcases receiverStep_of_step step now before.2 after with ⟨receiverEvent, receiverStep⟩
      exact ⟨_, receiverRun.next receiverStep⟩

/-- What a pass is to do. Without a message it suspends. Else it takes exactly the
first message and leaves the later ones between the head and the tail; it fires a
handler exactly if the message is from a listed pid, and then the message's own words
are bound. -/
def Honours (receiver : Receiver) : ReceiverEvent → Prop
  | .attempt wait =>
      match receiver.log.queued with
      | [] => wait.attempt receiver.actor = (.suspended, receiver.actor)
      | message :: later =>
          receiver.actor.messageWords wait.dequeueArgCount = message ∧
            (wait.attempt receiver.actor).2.unread = later.flatten ∧
            ((∃ handler, (wait.attempt receiver.actor).1 = .fired handler) ↔
              FromListed wait.toWaitExpr receiver.actor.vars message) ∧
            ∀ (position : Nat) (word : Word), message[position]? = some word →
              (wait.attempt receiver.actor).2.vars (wait.dequeueVarBase + position) = word
  | _ => True

def DeliveredTo (receiver : Receiver) : Prop :=
  Delivered receiver.actor receiver.log

/-- A send finds room in the ring. A pass finds a first message as long as the
largest argument count of the handlers; and the filter, evaluated when the message
is bound, accepts it and there is a handler for it, exactly if it is from a listed
pid. -/
def WaitFits (receiver : Receiver) : ReceiverEvent → Prop
  | .send message => receiver.log.unread + message.length < MAILBOX_WORDS
  | .attempt wait => ∀ message later, receiver.log.queued = message :: later →
      message.length = wait.dequeueArgCount ∧
        ((wait.accepts (storeWords receiver.actor.vars wait.dequeueVarBase message)
              (message.headD 0) = true ∧
            (wait.dispatch (message.headD 0)).isSome) ↔
          FromListed wait.toWaitExpr receiver.actor.vars message)
  | .other => True

structure MailKept (receiver : Receiver) : Prop where
  tracked : Tracked receiver.actor receiver.log
  wordy : ∀ message ∈ receiver.log.queued, message ≠ []

section Step

variable {receiver next : Receiver} {event : ReceiverEvent}

theorem head_eq_tail (kept : MailKept receiver) (delivered : DeliveredTo receiver)
    (none : receiver.log.queued = []) :
    receiver.actor.mailboxHead = receiver.actor.mailboxTail := by
  have lengths := congrArg List.length (kept.tracked.unread_queued delivered)
  have headIn := kept.tracked.headIn
  have tailIn := kept.tracked.tailIn
  rw [none, Actor.unread, Ring.length_window] at lengths
  simp only [List.flatten_nil, List.length_nil, MAILBOX_WORDS] at *
  exact BitVec.eq_of_toNat_eq (by omega)

theorem head_ne_tail (kept : MailKept receiver) (delivered : DeliveredTo receiver)
    {message : List Word} {later : List (List Word)}
    (first : receiver.log.queued = message :: later) :
    receiver.actor.mailboxHead ≠ receiver.actor.mailboxTail := by
  intro sameEnds
  have allRead := delivered.seenEmpty sameEnds
  have queued := kept.tracked.queued
  rw [first, allRead, List.drop_length, List.flatten_cons] at queued
  exact kept.wordy message (by simp [first]) (List.append_eq_nil_iff.mp queued).1

/-- A pass that takes as many words as the first message has takes that message. -/
theorem messageWords_first (kept : MailKept receiver) (delivered : DeliveredTo receiver)
    {message : List Word} {later : List (List Word)}
    (first : receiver.log.queued = message :: later) :
    receiver.actor.messageWords message.length = message := by
  rw [kept.tracked.messageWords_queued delivered (by simp [first]), first, List.flatten_cons,
    List.take_left]

theorem messageWord_zero (actor : Actor) {message : List Word} {count : Nat}
    (positive : count ≠ 0) (words : actor.messageWords count = message) :
    actor.messageWord 0 = message.headD 0 := by
  rcases Nat.exists_eq_succ_of_ne_zero positive with ⟨smaller, rfl⟩
  rw [← words, Actor.messageWords, List.range_succ_eq_map]
  rfl

theorem honours_iff (kept : MailKept receiver) (delivered : DeliveredTo receiver)
    (wait : FilteredWait) :
    Honours receiver (.attempt wait) ∧ DeliveredTo (receiver.attempt wait) ↔
      WaitFits receiver (.attempt wait) := by
  cases first : receiver.log.queued with
  | nil =>
      have empty := head_eq_tail kept delivered first
      have suspends : wait.attempt receiver.actor = (.suspended, receiver.actor) := by
        rw [WaitExpr.attempt, if_pos empty]
      constructor
      · intro _ message later found
        rw [first] at found
        cases found
      · intro _
        constructor
        · simp only [Honours, first]
          exact suspends
        · simp only [DeliveredTo, Receiver.attempt, suspends, if_pos empty]
          exact delivered
  | cons message later =>
      have some := head_ne_tail kept delivered first
      have fired := attempt_fired_iff wait some
      rw [dequeue_vars] at fired
      simp only [Honours, WaitFits, first, DeliveredTo, Receiver.attempt, if_neg some,
        attempt_actor wait some]
      constructor
      · rintro ⟨⟨words, -, fires, -⟩, -⟩ _ _ found
        cases found
        rw [words, messageWord_zero _ wait.argsSome words] at fired
        refine ⟨?_, fired.symm.trans fires⟩
        rw [← words, Tracked.length_messageWords]
      · intro fits
        rcases fits message later rfl with ⟨isLength, accepts⟩
        have words : receiver.actor.messageWords wait.dequeueArgCount = message := by
          rw [← isLength]
          exact messageWords_first kept delivered first
        have available : wait.dequeueArgCount ≤ receiver.log.queued.flatten.length := by
          simp [first, ← isLength]
        have after := kept.tracked.delivered_dequeue delivered available wait.dequeueVarBase
        have tracked := kept.tracked.dequeue available wait.dequeueVarBase
        rw [words, messageWord_zero _ wait.argsSome words] at fired
        refine ⟨⟨words, ?_, fired.trans accepts, ?_⟩, after⟩
        · rw [tracked.unread_queued after, words, MailLog.take, first, MailLog.dropWords_head]
        · intro position word atPosition
          rw [dequeue_vars, words, storeWords, if_pos (Nat.le_add_right _ _),
            Nat.add_sub_cancel_left, atPosition]
          rfl

theorem receiver_step_iff (kept : MailKept receiver) (delivered : DeliveredTo receiver)
    (step : ReceiverStep receiver event next) :
    Honours receiver event ∧ DeliveredTo next ↔ WaitFits receiver event := by
  cases step with
  | send message =>
      rw [DeliveredTo, kept.tracked.delivered_enqueue_iff delivered]
      exact and_iff_right trivial
  | attempt wait => exact honours_iff kept delivered wait
  | other actor same =>
      exact iff_of_true ⟨trivial, same.delivered delivered⟩ trivial

theorem mailKept_step (kept : MailKept receiver) (delivered : DeliveredTo receiver)
    (fits : WaitFits receiver event) (step : ReceiverStep receiver event next) :
    MailKept next := by
  cases step with
  | other actor same => exact ⟨same.tracked kept.tracked, kept.wordy⟩
  | send message =>
      refine ⟨kept.tracked.enqueue message, ?_⟩
      intro queued member
      rw [MailLog.send] at member
      split at member
      · exact kept.wordy queued member
      · rename_i some
        rcases List.mem_append.mp member with earlier | isLast
        · exact kept.wordy queued earlier
        · rwa [List.mem_singleton.mp isLast]
  | attempt wait =>
      cases first : receiver.log.queued with
      | nil =>
          have empty := head_eq_tail kept delivered first
          have unchanged : receiver.attempt wait = receiver := by
            rw [Receiver.attempt, if_pos empty, WaitExpr.attempt, if_pos empty]
          rwa [unchanged]
      | cons message later =>
          have some := head_ne_tail kept delivered first
          rcases fits message later first with ⟨isLength, -⟩
          have available : wait.dequeueArgCount ≤ receiver.log.queued.flatten.length := by
            simp [first, ← isLength]
          rw [Receiver.attempt, if_neg some, attempt_actor wait some]
          refine ⟨kept.tracked.dequeue available _, ?_⟩
          intro queued member
          rw [MailLog.take, Tracked.length_messageWords, first, ← isLength,
            MailLog.dropWords_head] at member
          exact kept.wordy queued (by simp [first, member])

end Step

/-- In every run of a new actor's mailbox, each pass through a filtered wait does what
it is to do and the mailbox delivers, exactly when every step fits. -/
theorem honours_iff_fits {actor : Actor} {history : List (Stage Receiver ReceiverEvent)}
    {final : Receiver} (headZero : actor.mailboxHead = 0) (tailZero : actor.mailboxTail = 0)
    (run : Run ReceiverStep ⟨actor, .empty⟩ history final) :
    Meets Honours history ∧ Throughout DeliveredTo history final ↔ Meets WaitFits history :=
  run.guarantees_iff_meets
    ⟨tracked_new headZero tailZero, fun _ member => absurd member List.not_mem_nil⟩
    (delivered_new headZero tailZero)
    (fun _ _ _ kept delivered step => receiver_step_iff kept delivered step)
    (fun _ _ _ kept delivered fits step => mailKept_step kept delivered fits step)

/-! ## Waits in scope -/

theorem env_storeWords (wait : WaitExpr) (memory : Nat → Word) (words : List Word)
    {name : String} (kept : name ∉ wait.rebound) :
    wait.boundState.env (storeWords memory wait.dequeueVarBase words) name =
      wait.state.env memory name := by
  rw [BranchState.env, BranchState.env, wait.boundState_get kept]
  cases found : wait.state.get name with
  | none => rfl
  | some slot =>
      have below := BranchState.slot_lt_len found
      simp only
      rw [storeWords, if_neg (by rw [wait.dequeueVarBase_eq]; omega)]

/-- The filter is compiled behind the handlers, but reads no name that they bind. -/
def InScope (_ : Receiver) : ReceiverEvent → Prop
  | .attempt wait => wait.Scoped
  | _ => True

/-- A send finds room in the ring. A pass finds a first message as long as the largest argument
count of the handlers, and one of them takes its first word if that is a listed pid. -/
def MessageFits (receiver : Receiver) : ReceiverEvent → Prop
  | .send message => receiver.log.unread + message.length < MAILBOX_WORDS
  | .attempt wait => ∀ message later, receiver.log.queued = message :: later →
      message.length = wait.dequeueArgCount ∧
        ∀ pid ∈ listed wait.toWaitExpr receiver.actor.vars, message.head? = some pid → wait.Takes pid
  | .other => True

/-- In its scope the filter has the values that it has behind the handlers. -/
theorem accepts_iff {receiver : Receiver} (wait : FilteredWait) (inScope : wait.Scoped) (word : Word)
    (words : List Word) :
    wait.accepts (storeWords receiver.actor.vars wait.dequeueVarBase (word :: words)) word = true ↔
      word ∈ listed wait.toWaitExpr receiver.actor.vars := by
  have values : ∀ expr ∈ wait.filter,
      expr (wait.boundState.env
        (storeWords receiver.actor.vars wait.dequeueVarBase (word :: words))) =
      expr (wait.state.env receiver.actor.vars) :=
    fun expr member => inScope expr member _ _ fun name kept =>
      env_storeWords wait.toWaitExpr receiver.actor.vars (word :: words) kept
  rw [WaitExpr.accepts, Bool.or_eq_true, List.any_eq_true]
  simp only [List.isEmpty_iff, wait.filterSome, false_or, listed, List.mem_map, beq_iff_eq]
  constructor
  · rintro ⟨expr, member, isWord⟩
    exact ⟨expr, member, (values expr member).symm.trans isWord⟩
  · rintro ⟨expr, member, isWord⟩
    exact ⟨expr, member, (values expr member).trans isWord⟩

theorem waitFits_iff {receiver : Receiver} {event : ReceiverEvent} (inScope : InScope receiver event) :
    WaitFits receiver event ↔ MessageFits receiver event := by
  cases event with
  | send | other => rfl
  | attempt wait =>
      apply forall_congr'
      intro message
      apply forall_congr'
      intro later
      apply imp_congr_right
      intro first
      apply and_congr_right
      intro isLength
      cases message with
      | nil => exact absurd isLength.symm wait.argsSome
      | cons word words =>
          have fromListed : FromListed wait.toWaitExpr receiver.actor.vars (word :: words) ↔
              word ∈ listed wait.toWaitExpr receiver.actor.vars := by
            simp [FromListed]
          rw [List.headD_cons, accepts_iff wait inScope, fromListed,
            wait.dispatch_isSome_iff wait.collectSome]
          constructor
          · rintro fits pid isListed isHead
            cases isHead
            exact (fits.mpr isListed).2
          · exact fun takes => ⟨And.left, fun isListed => ⟨isListed, takes word isListed rfl⟩⟩

theorem meets_congr {history : List (Stage Receiver ReceiverEvent)} (inScope : Meets InScope history) :
    Meets WaitFits history ↔ Meets MessageFits history := by
  constructor
  · exact fun fits stage member => (waitFits_iff (inScope stage member)).mp (fits stage member)
  · exact fun fits stage member => (waitFits_iff (inScope stage member)).mpr (fits stage member)

/-- In every run of a new actor's mailbox whose filters read none of the handlers' names and whose
messages fit, each pass through a filtered wait does what it is to do and the mailbox delivers;
with such filters they do so in no other run. -/
theorem filtered_wait_iff {actor : Actor} {history : List (Stage Receiver ReceiverEvent)}
    {final : Receiver} (headZero : actor.mailboxHead = 0) (tailZero : actor.mailboxTail = 0)
    (run : Run ReceiverStep ⟨actor, .empty⟩ history final) (inScope : Meets InScope history) :
    Meets Honours history ∧ Throughout DeliveredTo history final ↔ Meets MessageFits history :=
  (honours_iff_fits headZero tailZero run).trans (meets_congr inScope)

/-- `wait p { s pid r i64 -> .. }`, with `p` in the first slot. -/
def replyWait : FilteredWait where
  state := ⟨[("p", 0)]⟩
  collect := [⟨[⟨"s", .plain "pid", .var⟩, ⟨"r", .plain "i64", .var⟩], []⟩]
  filter := [fun env => env "p"]
  collectSome := nofun
  filterSome := nofun
  argsSome := by decide
  guardsFit := by
    intro handler member guard isGuard
    have unguarded : handler ∈ [(⟨2, 1, none⟩ : HandlerMeta)] := member
    rw [List.mem_singleton.mp unguarded] at isGuard
    cases isGuard
  guardsOnce := by decide

theorem replyWait_scoped : replyWait.Scoped := by
  intro expr member env others same
  rw [List.mem_singleton.mp member]
  exact same "p" (by simp [WaitExpr.rebound, replyWait, Handler.binders])

theorem replyWait_fits {receiver : Receiver}
    (pairs : ∀ message ∈ receiver.log.queued, message.length = 2) :
    MessageFits receiver (.attempt replyWait) := by
  intro message later first
  refine ⟨pairs message (by simp [first]), fun pid _ _ => ?_⟩
  exact ⟨_, List.mem_cons_self, .inl rfl⟩

/-- A pair from an unlisted pid is dropped, and the pair behind it fires the handler. -/
theorem filtered_wait_pairs :
    let empty : Receiver := ⟨{ Actor.zeroed with vars := fun _ => 5 }, .empty⟩
    let first : Receiver := ⟨empty.actor.enqueue [9, 1], empty.log.send [9, 1]⟩
    let second : Receiver := ⟨first.actor.enqueue [5, 42], first.log.send [5, 42]⟩
    Honours second (.attempt replyWait) ∧
      Honours (second.attempt replyWait) (.attempt replyWait) := by
  intro empty first second
  have run := (((Run.refl.next (@ReceiverStep.send empty [9, 1])).next
    (@ReceiverStep.send first [5, 42])).next (@ReceiverStep.attempt second replyWait)).next
    (ReceiverStep.attempt replyWait)
  have fits : Meets MessageFits [⟨second.attempt replyWait, .attempt replyWait⟩,
      ⟨second, .attempt replyWait⟩, ⟨first, .send [5, 42]⟩, ⟨empty, .send [9, 1]⟩] := by
    simp only [meets_cons, meets_nil, and_true]
    refine ⟨replyWait_fits ?_, replyWait_fits ?_, ?_, ?_⟩
    · have queued : (second.attempt replyWait).log.queued = [[5, 42]] := by decide
      simp [queued]
    · exact (by decide : ∀ message ∈ [[(9 : Word), 1], [5, 42]], message.length = 2)
    · exact (by decide : 2 + 2 < MAILBOX_WORDS)
    · exact (by decide : 0 + 2 < MAILBOX_WORDS)
  have inScope : Meets InScope [⟨second.attempt replyWait, .attempt replyWait⟩,
      ⟨second, .attempt replyWait⟩, ⟨first, .send [5, 42]⟩, ⟨empty, .send [9, 1]⟩] := by
    simp only [meets_cons, meets_nil, and_true]
    exact ⟨replyWait_scoped, replyWait_scoped, trivial, trivial⟩
  have honours := ((@filtered_wait_iff empty.actor _ _ rfl rfl run inScope).mpr fits).1
  exact ⟨honours ⟨second, _⟩ (by simp [second]), honours ⟨second.attempt _, _⟩ (by simp)⟩

/-- A message of one word is dropped together with the first word of the next one. -/
theorem drop_takes_later_word :
    ¬ ∀ (actor : Actor) (history : List (Stage Receiver ReceiverEvent)) (final : Receiver),
        actor.mailboxHead = 0 → actor.mailboxTail = 0 →
      Run ReceiverStep ⟨actor, .empty⟩ history final → Meets Honours history := by
  intro allHonour
  let empty : Receiver := ⟨{ Actor.zeroed with vars := fun _ => 5 }, .empty⟩
  let first : Receiver := ⟨empty.actor.enqueue [9], empty.log.send [9]⟩
  let second : Receiver := ⟨first.actor.enqueue [5, 42], first.log.send [5, 42]⟩
  have run := ((Run.refl.next (@ReceiverStep.send empty [9])).next
    (@ReceiverStep.send first [5, 42])).next (@ReceiverStep.attempt second replyWait)
  have honours : Honours second (.attempt replyWait) :=
    allHonour _ _ _ rfl rfl run ⟨second, .attempt replyWait⟩ (by simp [second])
  have lengths : replyWait.dequeueArgCount = 1 := by
    have words : second.actor.messageWords replyWait.dequeueArgCount = [9] := honours.1
    rw [← @Tracked.length_messageWords second.actor replyWait.dequeueArgCount, words]
    rfl
  exact absurd lengths (by decide)

/-! ## From the start of a wait to its handler -/

/-- The messages sent in a history, those of no words left out. -/
def arrivals : List (Stage Receiver ReceiverEvent) → List (List Word)
  | [] => []
  | ⟨_, .send message⟩ :: past => arrivals past ++ if message = [] then [] else [message]
  | ⟨_, _⟩ :: past => arrivals past

/-- The pass fires no handler and lists the given pids. -/
def PassesOver (pids : List Word) (receiver : Receiver) : ReceiverEvent → Prop
  | .attempt wait => listed wait.toWaitExpr receiver.actor.vars = pids ∧
      ∀ handler, (wait.attempt receiver.actor).1 ≠ .fired handler
  | _ => True

/-- While no handler fires, what is taken from the queue are whole messages from
unlisted pids. -/
theorem passed_over {start final : Receiver} {pids : List Word}
    {history : List (Stage Receiver ReceiverEvent)} (kept : MailKept start)
    (delivered : DeliveredTo start) (run : Run ReceiverStep start history final)
    (fits : Meets WaitFits history) (passes : Meets (PassesOver pids) history) :
    MailKept final ∧ DeliveredTo final ∧
      ∃ skipped, (∀ message ∈ skipped, ∀ pid ∈ pids, message.head? ≠ some pid) ∧
        start.log.queued ++ arrivals history = skipped ++ final.log.queued := by
  induction run with
  | refl => exact ⟨kept, delivered, [], by simp, by simp [arrivals]⟩
  | @next history receiver event next _ step induction =>
      rcases meets_cons.mp fits with ⟨fitsNow, fitsBefore⟩
      rcases meets_cons.mp passes with ⟨passesNow, passesBefore⟩
      rcases induction fitsBefore passesBefore with
        ⟨keptNow, deliveredNow, skipped, unlisted, queued⟩
      rcases (receiver_step_iff keptNow deliveredNow step).mpr fitsNow with ⟨honours, after⟩
      refine ⟨mailKept_step keptNow deliveredNow fitsNow step, after, ?_⟩
      cases step with
      | other actor same => exact ⟨skipped, unlisted, queued⟩
      | send message =>
          refine ⟨skipped, unlisted, ?_⟩
          rw [arrivals, ← List.append_assoc, queued, List.append_assoc, MailLog.send]
          split <;> simp
      | attempt wait =>
          rcases passesNow with ⟨isListed, noFire⟩
          cases first : receiver.log.queued with
          | nil =>
              have empty := head_eq_tail keptNow deliveredNow first
              refine ⟨skipped, unlisted, ?_⟩
              rw [arrivals, queued, Receiver.attempt, if_pos empty]
              simp
          | cons message later =>
              have some := head_ne_tail keptNow deliveredNow first
              simp only [Honours, first] at honours
              rcases honours with ⟨words, -, fires, -⟩
              have isUnlisted : ¬ FromListed wait.toWaitExpr receiver.actor.vars message :=
                fun fromListed => (fires.mpr fromListed).elim noFire
              refine ⟨skipped ++ [message], ?_, ?_⟩
              · intro taken member pid isPid isHead
                rcases List.mem_append.mp member with earlier | isLast
                · exact unlisted taken earlier pid isPid isHead
                · rw [List.mem_singleton.mp isLast] at isHead
                  exact isUnlisted ⟨pid, isListed ▸ isPid, isHead⟩
              · rw [arrivals, queued, first, Receiver.attempt, if_neg some, words,
                  MailLog.take, first, MailLog.dropWords_head]
                · simp
                · simp

/-- The handler fires on the first message, of those queued when the wait began and
those that arrived since, whose first word is a listed pid. -/
theorem fires_first_listed {start final : Receiver} {history : List (Stage Receiver ReceiverEvent)}
    (kept : MailKept start) (delivered : DeliveredTo start)
    (run : Run ReceiverStep start history final) (fits : Meets WaitFits history)
    (wait : FilteredWait) (fitsNow : WaitFits final (.attempt wait))
    (passes : Meets (PassesOver (listed wait.toWaitExpr final.actor.vars)) history)
    {handler : Nat} (fired : (wait.attempt final.actor).1 = .fired handler) :
    ∃ skipped message later,
      start.log.queued ++ arrivals history = skipped ++ message :: later ∧
        (∀ earlier ∈ skipped, ¬ FromListed wait.toWaitExpr final.actor.vars earlier) ∧
        FromListed wait.toWaitExpr final.actor.vars message ∧
        (final.attempt wait).log.queued = later := by
  rcases passed_over kept delivered run fits passes with
    ⟨keptNow, deliveredNow, skipped, unlisted, queued⟩
  cases first : final.log.queued with
  | nil =>
      have empty := head_eq_tail keptNow deliveredNow first
      rw [WaitExpr.attempt, if_pos empty] at fired
      cases fired
  | cons message later =>
      have some := head_ne_tail keptNow deliveredNow first
      have honours := ((honours_iff keptNow deliveredNow wait).mpr fitsNow).1
      simp only [Honours, first] at honours
      rcases honours with ⟨words, -, fires, -⟩
      refine ⟨skipped, message, later, first ▸ queued, ?_, fires.mp ⟨handler, fired⟩, ?_⟩
      · rintro earlier member ⟨pid, isPid, isHead⟩
        exact unlisted earlier member pid isPid isHead
      · rw [Receiver.attempt, if_neg some, words, MailLog.take, first,
          MailLog.dropWords_head]

end LakeNative.Messaging

import LakeNative.Library.Ring
import LakeNative.Runtime.ShedulerCtx

/-! # Mailboxes

An actor's mailbox is a ring of 256 words between `MAILBOX_HEAD` and
`MAILBOX_TAIL`. A send copies its arguments behind the tail without looking at the
head; the receiver takes the mailbox for empty when the two are equal.
-/

namespace LakeNative.Runtime

open LakeNative.Ring

def MAILBOX_WORDS : Nat := 256

/-- The position in the ring: `band_imm(index, 255)`. -/
def ringIndex (index : Word) : Word := index &&& 255

@[simp] theorem ringIndex_toNat (index : Word) :
    (ringIndex index).toNat = index.toNat % MAILBOX_WORDS := by
  have mask : (255 : Word).toNat = 2 ^ 8 - 1 := rfl
  rw [ringIndex, BitVec.toNat_and, mask, Nat.and_two_pow_sub_one_eq_mod]
  rfl

theorem ringIndex_add_toNat (index : Word) (offset : Nat) :
    (ringIndex (index + BitVec.ofNat 64 offset)).toNat =
      (index.toNat + offset) % MAILBOX_WORDS := by
  rw [ringIndex_toNat, BitVec.toNat_add, BitVec.toNat_ofNat, MAILBOX_WORDS]
  omega

namespace Actor

/-- Copy the arguments to `mailbox[(index + i) mod 256]`. -/
def copyArgs (mailbox : HeapArray Word) (index : Word) : List Word → HeapArray Word
  | [] => mailbox
  | arg :: args => copyArgs (mailbox.store (ringIndex index) arg) (index + 1) args

/-- Step 3 of `compile_send`, on the target. -/
def enqueue (target : Actor) (args : List Word) : Actor :=
  { target with
    mailbox := copyArgs target.mailbox target.mailboxTail args
    mailboxTail := ringIndex (target.mailboxTail + BitVec.ofNat 64 args.length) }

/-- The word that the dequeue loop loads for its `i`-th variable. -/
def messageWord (actor : Actor) (i : Nat) : Word :=
  actor.mailbox.load (ringIndex (actor.mailboxHead + BitVec.ofNat 64 i))

/-- The words a dequeue of `count` arguments loads. -/
def messageWords (actor : Actor) (count : Nat) : List Word :=
  (List.range count).map actor.messageWord

/-- The dequeue block of `wait`: copy `count` words to the variables from
`varBase` on and advance the head. -/
def dequeue (actor : Actor) (varBase count : Nat) : Actor :=
  { actor with
    vars := fun index =>
      if varBase ≤ index ∧ index < varBase + count then
        actor.messageWord (index - varBase)
      else
        actor.vars index
    mailboxHead := ringIndex (actor.mailboxHead + BitVec.ofNat 64 count) }

/-- The words between the head and the tail. -/
def unread (actor : Actor) : List Word :=
  window MAILBOX_WORDS actor.mailbox.entry actor.mailboxHead.toNat
    ((actor.mailboxTail.toNat + MAILBOX_WORDS - actor.mailboxHead.toNat) % MAILBOX_WORDS)

end Actor

/-! ## What was sent and what was read -/

/-- The history of a mailbox: all words sent to it and all words read from it, and
the messages of which words are left. A message of no words leaves no trace. -/
structure MailLog where
  sent : List Word
  read : List Word
  queued : List (List Word)

namespace MailLog

def empty : MailLog := ⟨[], [], []⟩

/-- Drop words from the front of a queue of messages. -/
def dropWords : Nat → List (List Word) → List (List Word)
  | _, [] => []
  | count, message :: messages =>
      if count < message.length then
        message.drop count :: messages
      else if count = message.length then
        messages
      else
        dropWords (count - message.length) messages

def send (log : MailLog) (message : List Word) : MailLog where
  sent := log.sent ++ message
  read := log.read
  queued := if message = [] then log.queued else log.queued ++ [message]

def take (log : MailLog) (words : List Word) : MailLog where
  sent := log.sent
  read := log.read ++ words
  queued := dropWords words.length log.queued

/-- The number of words sent and not read. -/
def unread (log : MailLog) : Nat := log.sent.length - log.read.length

theorem dropWords_head (message : List Word) (messages : List (List Word)) :
    dropWords message.length (message :: messages) = messages := by
  simp [dropWords]

@[simp] theorem flatten_dropWords (count : Nat) (messages : List (List Word)) :
    (dropWords count messages).flatten = messages.flatten.drop count := by
  induction messages generalizing count with
  | nil => simp [dropWords]
  | cons message messages induction =>
      rw [dropWords, List.flatten_cons]
      split
      · rename_i within
        rw [List.flatten_cons, List.drop_append_of_le_length (Nat.le_of_lt within)]
      · split
        · rename_i whole
          rw [whole, List.drop_left]
        · have consumed : message.drop count = [] := List.drop_of_length_le (by omega)
          rw [induction, List.drop_append, consumed, List.nil_append]

@[simp] theorem flatten_send (log : MailLog) (message : List Word) :
    (log.send message).queued.flatten = log.queued.flatten ++ message := by
  by_cases none : message = []
  · simp [send, none]
  · simp [send, none]

end MailLog

/-- The words read are the words sent, in order and once each, up to those that
lie between the head and the tail; and the mailbox looks empty only if it is. -/
structure Delivered (actor : Actor) (log : MailLog) : Prop where
  inOrder : log.read ++ actor.unread = log.sent
  seenEmpty : actor.mailboxHead = actor.mailboxTail → log.read = log.sent

/-- The head and the tail count the words read and sent, modulo the ring, and the
queued messages are made of the words sent and not read. -/
structure Tracked (actor : Actor) (log : MailLog) : Prop where
  headIn : actor.mailboxHead.toNat < MAILBOX_WORDS
  tailIn : actor.mailboxTail.toNat < MAILBOX_WORDS
  readIn : log.read.length ≤ log.sent.length
  queued : log.queued.flatten = log.sent.drop log.read.length
  counts : (actor.mailboxHead.toNat + log.unread) % MAILBOX_WORDS =
    actor.mailboxTail.toNat

theorem Delivered.of_inOrder {actor : Actor} {log : MailLog}
    (inOrder : log.read ++ actor.unread = log.sent) : Delivered actor log where
  inOrder := inOrder
  seenEmpty := by
    intro sameEnds
    rw [Actor.unread, sameEnds, Nat.add_sub_cancel_left, Nat.mod_self, window_zero,
      List.append_nil] at inOrder
    exact inOrder

/-! ## Sending -/

theorem copyArgs_entry (mailbox : HeapArray Word) {index : Word} {position : Nat}
    (args : List Word)
    (same : index.toNat % MAILBOX_WORDS = position % MAILBOX_WORDS) :
    (Actor.copyArgs mailbox index args).entry =
      writeAll MAILBOX_WORDS mailbox.entry position args := by
  induction args generalizing mailbox index position with
  | nil => rfl
  | cons arg args induction =>
      have next : (index + 1).toNat % MAILBOX_WORDS = (position + 1) % MAILBOX_WORDS := by
        have one : (1 : Word).toNat = 1 := rfl
        rw [BitVec.toNat_add, one]
        simp only [MAILBOX_WORDS] at *
        omega
      rw [Actor.copyArgs, induction _ next, HeapArray.store_entry, ringIndex_toNat, same]
      rfl

namespace Tracked

variable {actor : Actor} {log : MailLog}

/-- While fewer words are unread than the ring holds, the head and the tail tell
how many there are. -/
theorem unread_eq (tracked : Tracked actor log) (fits : log.unread < MAILBOX_WORDS) :
    actor.unread =
      window MAILBOX_WORDS actor.mailbox.entry actor.mailboxHead.toNat log.unread := by
  have headIn := tracked.headIn
  have counts := tracked.counts
  rw [Actor.unread]
  congr 1
  rw [← counts]
  simp only [MAILBOX_WORDS] at *
  omega

theorem length_unread (tracked : Tracked actor log) :
    actor.unread.length = log.unread % MAILBOX_WORDS := by
  have headIn := tracked.headIn
  have counts := tracked.counts
  rw [Actor.unread, length_window, ← counts]
  simp only [MAILBOX_WORDS] at *
  omega

/-- A mailbox whose log is delivered holds fewer words than the ring. -/
theorem fits_of_delivered (tracked : Tracked actor log) (delivered : Delivered actor log) :
    log.unread < MAILBOX_WORDS := by
  have lengths := congrArg List.length delivered.inOrder
  rw [List.length_append, tracked.length_unread] at lengths
  have bound := Nat.mod_lt log.unread (show 0 < MAILBOX_WORDS by decide)
  simp only [MailLog.unread] at *
  omega

theorem length_queued (tracked : Tracked actor log) :
    log.queued.flatten.length = log.unread := by
  rw [tracked.queued, List.length_drop, MailLog.unread]

/-- In a delivered mailbox the queued messages lie between the head and the tail. -/
theorem unread_queued (tracked : Tracked actor log) (delivered : Delivered actor log) :
    actor.unread = log.queued.flatten := by
  rw [tracked.queued, ← delivered.inOrder, List.drop_left]

theorem enqueue (tracked : Tracked actor log) (args : List Word) :
    Tracked (actor.enqueue args) (log.send args) where
  headIn := tracked.headIn
  tailIn := by
    rw [Actor.enqueue, ringIndex_toNat]
    exact Nat.mod_lt _ (by decide)
  readIn := by
    have readIn := tracked.readIn
    simp only [MailLog.send, List.length_append]
    omega
  queued := by
    rw [MailLog.flatten_send, tracked.queued]
    exact (List.drop_append_of_le_length tracked.readIn).symm
  counts := by
    have counts := tracked.counts
    have readIn := tracked.readIn
    simp only [Actor.enqueue, ringIndex_add_toNat, MailLog.unread, MailLog.send,
      List.length_append] at *
    rw [← counts]
    simp only [MAILBOX_WORDS]
    omega

/-- A send delivers its words behind the unread ones exactly when the ring has
room for them and keeps one cell free. -/
theorem delivered_enqueue_iff (tracked : Tracked actor log)
    (delivered : Delivered actor log) (args : List Word) :
    Delivered (actor.enqueue args) (log.send args) ↔
      log.unread + args.length < MAILBOX_WORDS := by
  have readIn := tracked.readIn
  have unreadAfter : (log.send args).unread = log.unread + args.length := by
    simp only [MailLog.unread, MailLog.send, List.length_append]
    omega
  constructor
  · intro after
    have fits := (tracked.enqueue args).fits_of_delivered after
    rwa [unreadAfter] at fits
  · intro fits
    have inOrder := delivered.inOrder
    rw [tracked.unread_eq (by omega)] at inOrder
    have atTail : actor.mailboxTail.toNat % MAILBOX_WORDS =
        (actor.mailboxHead.toNat + log.unread) % MAILBOX_WORDS := by
      rw [tracked.counts]
      exact Nat.mod_eq_of_lt tracked.tailIn
    have written : (actor.enqueue args).unread =
        window MAILBOX_WORDS actor.mailbox.entry actor.mailboxHead.toNat log.unread ++
          args := by
      rw [(tracked.enqueue args).unread_eq (by omega), unreadAfter]
      simp only [Actor.enqueue]
      rw [copyArgs_entry actor.mailbox args atTail]
      exact window_writeAll _ _ _ _ (by omega)
    apply Delivered.of_inOrder
    rw [written, MailLog.send, ← List.append_assoc, inOrder]

/-! ## Receiving -/

theorem messageWords_eq (count : Nat) :
    actor.messageWords count =
      window MAILBOX_WORDS actor.mailbox.entry actor.mailboxHead.toNat count := by
  apply List.map_congr_left
  intro offset _
  rw [Actor.messageWord, HeapArray.load, ringIndex_add_toNat]

@[simp] theorem length_messageWords (count : Nat) :
    (actor.messageWords count).length = count := by
  simp [Actor.messageWords]

/-- A dequeue of words that are there keeps the count. -/
theorem dequeue (tracked : Tracked actor log) {count : Nat}
    (available : count ≤ log.queued.flatten.length) (varBase : Nat) :
    Tracked (actor.dequeue varBase count) (log.take (actor.messageWords count)) := by
  have readIn := tracked.readIn
  have counts := tracked.counts
  have queued := tracked.length_queued
  exact {
    headIn := by
      rw [Actor.dequeue, ringIndex_toNat]
      exact Nat.mod_lt _ (by decide)
    tailIn := tracked.tailIn
    readIn := by
      simp only [MailLog.take, MailLog.unread, length_messageWords,
        List.length_append] at *
      omega
    queued := by
      rw [MailLog.take, length_messageWords, MailLog.flatten_dropWords, tracked.queued,
        List.drop_drop, List.length_append, length_messageWords]
    counts := by
      simp only [Actor.dequeue, ringIndex_add_toNat, MailLog.unread, MailLog.take,
        List.length_append, length_messageWords] at *
      rw [← counts]
      simp only [MAILBOX_WORDS]
      omega }

/-- A dequeue of words that are there reads the first queued words. -/
theorem messageWords_queued (tracked : Tracked actor log)
    (delivered : Delivered actor log) {count : Nat}
    (available : count ≤ log.queued.flatten.length) :
    actor.messageWords count = log.queued.flatten.take count := by
  have fits := tracked.fits_of_delivered delivered
  rw [tracked.length_queued] at available
  have split : log.unread = count + (log.unread - count) := by omega
  rw [← tracked.unread_queued delivered, tracked.unread_eq fits, split, window_add,
    ← messageWords_eq, List.take_left' (length_messageWords count)]

theorem delivered_dequeue (tracked : Tracked actor log)
    (delivered : Delivered actor log) {count : Nat}
    (available : count ≤ log.queued.flatten.length) (varBase : Nat) :
    Delivered (actor.dequeue varBase count) (log.take (actor.messageWords count)) := by
  have fits := tracked.fits_of_delivered delivered
  have after := tracked.dequeue available varBase
  have readIn := tracked.readIn
  rw [tracked.length_queued] at available
  have unreadBefore : log.unread =
      count + (log.take (actor.messageWords count)).unread := by
    simp only [MailLog.unread, MailLog.take, List.length_append, length_messageWords] at *
    omega
  have inOrder := delivered.inOrder
  rw [tracked.unread_eq fits, unreadBefore, window_add, ← messageWords_eq] at inOrder
  apply Delivered.of_inOrder
  rw [after.unread_eq (by omega)]
  simp only [Actor.dequeue, ringIndex_add_toNat, window_mod]
  exact (List.append_assoc _ _ _).trans inOrder

end Tracked

/-! ## A new actor -/

theorem delivered_new {actor : Actor} (headZero : actor.mailboxHead = 0)
    (tailZero : actor.mailboxTail = 0) : Delivered actor .empty := by
  apply Delivered.of_inOrder
  simp [Actor.unread, headZero, tailZero, MailLog.empty]

theorem tracked_new {actor : Actor} (headZero : actor.mailboxHead = 0)
    (tailZero : actor.mailboxTail = 0) : Tracked actor .empty where
  headIn := by simp [headZero, MAILBOX_WORDS]
  tailIn := by simp [tailZero, MAILBOX_WORDS]
  readIn := Nat.le_refl _
  queued := rfl
  counts := by simp [headZero, tailZero, MailLog.empty, MailLog.unread]

end LakeNative.Runtime

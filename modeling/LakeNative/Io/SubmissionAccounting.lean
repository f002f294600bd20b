import LakeNative.Library.Ring
import LakeNative.Library.Transitions
import LakeNative.Runtime.SubmissionQueue

/-! # Submissions

`SQE_PENDING` is set to zero by every `io_uring_enter`, whatever the kernel has taken, and no
path looks whether the ring has room. A run accounts for its submissions exactly when the
kernel takes all of them each time and never more than a ring of them wait.
-/

namespace LakeNative.Io

open LakeNative.Runtime LakeNative.Transitions LakeNative.Ring

/-- The queue, and the submissions in it that the kernel has not consumed, oldest first. -/
structure SubmissionState where
  queue : SubmissionQueue
  waiting : List Sqe

inductive SubmissionEvent where
  | submit
  | write (consumed : Nat)
  | flush (consumed : Nat)
  | wait (consumed : Nat)

namespace SubmissionState

def start (bits : Nat) (array : Nat → Nat) (sqes : Nat → Sqe) : SubmissionState :=
  ⟨.init bits array sqes, []⟩

/-- What `io_uring_enter` may consume of what it is asked to submit. -/
def MayConsume (state : SubmissionState) (toSubmit consumed : Nat) : Prop :=
  consumed ≤ toSubmit ∧ consumed ≤ state.waiting.length

end SubmissionState

open SubmissionState in
/-- The submit paths with what the kernel consumes in them. -/
inductive SubmissionStep : SubmissionState → SubmissionEvent → SubmissionState → Prop
  | submit {queue waiting} (opcode fd addr len procCtx : Nat) :
      SubmissionStep ⟨queue, waiting⟩ .submit
        ⟨queue.emitSubmitSqe opcode fd addr len procCtx,
          waiting ++ [⟨opcode, fd % 2 ^ 32, addr, len % 2 ^ 32, 0, procCtx⟩]⟩
  | submitPoll {queue waiting} (fd procCtx : Nat) :
      SubmissionStep ⟨queue, waiting⟩ .submit
        ⟨queue.emitSubmitPollSqe fd procCtx,
          waiting ++ [⟨IORING_OP_POLL_ADD, fd % 2 ^ 32, 0, 0, POLLIN, procCtx⟩]⟩
  | write {queue written waiting} (fd : Nat) (fatPtr : FatPtr) (size consumed : Nat) :
      queue.writeAsync fd fatPtr size consumed = some written →
      iadd queue.sqePending 1 < SQE_BATCH_SIZE →
      SubmissionStep ⟨queue, waiting⟩ (.write consumed)
        ⟨written, waiting ++ [⟨IORING_OP_WRITE, fd % 2 ^ 32, fatPtr.start, size % 2 ^ 32, 0, 0⟩]⟩
  | writeBatch {queue written waiting} (fd : Nat) (fatPtr : FatPtr) (size consumed : Nat)
      (batch : List Sqe) :
      queue.writeAsync fd fatPtr size consumed = some written →
      SQE_BATCH_SIZE ≤ iadd queue.sqePending 1 →
      batch = waiting ++ [⟨IORING_OP_WRITE, fd % 2 ^ 32, fatPtr.start, size % 2 ^ 32, 0, 0⟩] →
      MayConsume ⟨queue, batch⟩ (iadd queue.sqePending 1) consumed →
      SubmissionStep ⟨queue, waiting⟩ (.write consumed) ⟨written, batch.drop consumed⟩
  | flush {queue waiting} (consumed : Nat) :
      queue.sqePending ≠ 0 →
      MayConsume ⟨queue, waiting⟩ queue.sqePending consumed →
      SubmissionStep ⟨queue, waiting⟩ (.flush consumed) ⟨queue.flush consumed, waiting.drop consumed⟩
  | flushEmpty {queue waiting} (consumed : Nat) :
      queue.sqePending = 0 →
      SubmissionStep ⟨queue, waiting⟩ (.flush consumed) ⟨queue.flush consumed, waiting⟩
  | wait {queue waiting} (consumed : Nat) :
      MayConsume ⟨queue, waiting⟩ queue.sqePending consumed →
      SubmissionStep ⟨queue, waiting⟩ (.wait consumed) ⟨queue.waitCqe consumed, waiting.drop consumed⟩

/-- The kernel finds the waiting submissions from its head on. -/
def Found (queue : SubmissionQueue) (waiting : List Sqe) : Prop :=
  ∀ index sqe, waiting[index]? = some sqe →
    queue.sqes (queue.array ((queue.head + index) &&& queue.mask)) = sqe

/-- `SQE_PENDING` counts the submissions that the kernel has not consumed, all of which are
still in the ring. -/
structure Accounted (state : SubmissionState) : Prop where
  pending : state.queue.sqePending = state.queue.unconsumed
  found : Found state.queue state.waiting

/-- A new submission is not put where one waits. -/
def NotOverwriting (state : SubmissionState) : SubmissionEvent → Prop
  | .submit | .write _ => ∀ index < state.queue.unconsumed,
      (state.queue.head + index) &&& state.queue.mask ≠ state.queue.idx
  | .flush _ | .wait _ => True

/-- The ring has room, and the kernel takes the whole batch. -/
def TakenWhole (state : SubmissionState) : SubmissionEvent → Prop
  | .submit => state.queue.unconsumed ≤ state.queue.mask
  | .write consumed => state.queue.unconsumed ≤ state.queue.mask ∧
      (SQE_BATCH_SIZE ≤ iadd state.queue.sqePending 1 →
        consumed = iadd state.queue.sqePending 1)
  | .flush consumed => state.queue.sqePending ≠ 0 → consumed = state.queue.sqePending
  | .wait consumed => consumed = state.queue.sqePending

/-! ## The ring -/

variable {bits : Nat} {queue : SubmissionQueue} {waiting : List Sqe} {sqe : Sqe}

structure Tracks (bits : Nat) (queue : SubmissionQueue) (waiting : List Sqe) : Prop where
  mask : queue.mask = 2 ^ bits - 1
  head : queue.head < 2 ^ 32
  tail : queue.tail = (queue.head + waiting.length) % 2 ^ 32
  atMost : waiting.length ≤ 2 ^ bits
  array : ∀ index < waiting.length,
    queue.array ((queue.head + index) &&& queue.mask) = (queue.head + index) &&& queue.mask

namespace Tracks

variable (small : bits ≤ 31)
include small

theorem unconsumed_eq (tracks : Tracks bits queue waiting) : queue.unconsumed = waiting.length := by
  have head := tracks.head
  have atMost := tracks.atMost
  have ring : 2 ^ bits < 2 ^ 32 := Nat.pow_lt_pow_right (by decide) (by omega)
  rw [SubmissionQueue.unconsumed, tracks.tail]
  omega

omit small in
theorem and_mask (tracks : Tracks bits queue waiting) (position : Nat) :
    position &&& queue.mask = position % 2 ^ bits := by
  rw [tracks.mask, Nat.and_two_pow_sub_one_eq_mod]

theorem idx_eq (tracks : Tracks bits queue waiting) :
    queue.idx = (queue.head + waiting.length) % 2 ^ bits := by
  have divides : 2 ^ bits ∣ 2 ^ 32 := Nat.pow_dvd_pow 2 (by omega)
  rw [SubmissionQueue.idx, tracks.and_mask, tracks.tail, Nat.mod_mod_of_dvd _ divides]

theorem ahead (tracks : Tracks bits queue waiting) {index : Nat} (inQueue : index < waiting.length)
    (room : waiting.length < 2 ^ bits) :
    (queue.head + index) &&& queue.mask ≠ queue.idx := by
  have ahead := @mod_ne_of_lt (2 ^ bits) (queue.head + index) (waiting.length - index)
    (by omega) (by omega)
  rw [Nat.add_assoc, Nat.add_sub_cancel' (Nat.le_of_lt inQueue)] at ahead
  rw [tracks.and_mask, tracks.idx_eq small]
  exact ahead.symm

/-- The entry behind the tail is free as long as fewer than a ring of submissions wait. -/
theorem free_iff (tracks : Tracks bits queue waiting) :
    (∀ index < queue.unconsumed, (queue.head + index) &&& queue.mask ≠ queue.idx) ↔
      queue.unconsumed ≤ queue.mask := by
  have positive := Nat.two_pow_pos bits
  have atMost := tracks.atMost
  have isMask := tracks.mask
  rw [tracks.unconsumed_eq small]
  constructor
  · intro free
    by_contra full
    have isFull : waiting.length = 2 ^ bits := by omega
    apply free 0 (by omega)
    rw [tracks.and_mask, tracks.idx_eq small, isFull, Nat.add_zero, Nat.add_mod_right]
  · intro room index inQueue
    exact tracks.ahead small inQueue (by omega)

theorem push (tracks : Tracks bits queue waiting) (room : waiting.length < 2 ^ bits) (sqe : Sqe) :
    Tracks bits (queue.push sqe) (waiting ++ [sqe]) where
  mask := tracks.mask
  head := tracks.head
  tail := by
    change (queue.tail + 1) % 2 ^ 32 = (queue.head + (waiting ++ [sqe]).length) % 2 ^ 32
    rw [tracks.tail, List.length_append, List.length_singleton]
    omega
  atMost := by
    rw [List.length_append, List.length_singleton]
    exact room
  array := by
    intro index inQueue
    rw [List.length_append, List.length_singleton] at inQueue
    change Function.update queue.array queue.idx queue.idx ((queue.head + index) &&& queue.mask) = _
    by_cases isLast : index = waiting.length
    · rw [isLast, tracks.and_mask, ← tracks.idx_eq small, Function.update_self]
      rw [tracks.idx_eq small]
      exact (tracks.and_mask _).symm
    · have earlier : index < waiting.length := by omega
      rw [Function.update_of_ne (tracks.ahead small earlier room)]
      exact tracks.array index earlier

theorem found_push (tracks : Tracks bits queue waiting) (room : waiting.length < 2 ^ bits)
    (found : Found queue waiting) (sqe : Sqe) : Found (queue.push sqe) (waiting ++ [sqe]) := by
  intro index other isOther
  change Function.update queue.sqes queue.idx sqe (Function.update queue.array queue.idx
    queue.idx ((queue.head + index) &&& queue.mask)) = other
  rcases Nat.lt_trichotomy index waiting.length with before | rfl | past
  · have isAhead := tracks.ahead small before room
    have isFound := found index other
    rw [List.getElem?_append_left before] at isOther
    rw [tracks.array index before] at isFound
    rw [Function.update_of_ne isAhead, tracks.array index before, Function.update_of_ne isAhead]
    exact isFound isOther
  · rw [List.getElem?_concat_length] at isOther
    rw [tracks.and_mask, ← tracks.idx_eq small, Function.update_self, Function.update_self]
    exact Option.some.inj isOther
  · rw [List.getElem?_eq_none (by rw [List.length_append, List.length_singleton]; omega)] at isOther
    cases isOther

omit small in
/-- Positions behind the new head are those behind the old one, shifted. -/
theorem enter_position (tracks : Tracks bits queue waiting) (small : bits ≤ 31)
    (consumed index : Nat) :
    ((queue.head + consumed) % 2 ^ 32 + index) &&& queue.mask =
      (queue.head + (consumed + index)) &&& queue.mask := by
  have divides : 2 ^ bits ∣ 2 ^ 32 := Nat.pow_dvd_pow 2 (by omega)
  rw [tracks.and_mask, tracks.and_mask, Nat.add_mod, Nat.mod_mod_of_dvd _ divides, ← Nat.add_mod,
    Nat.add_assoc]

theorem enter (tracks : Tracks bits queue waiting) {consumed : Nat}
    (atMost : consumed ≤ waiting.length) (pending : Nat) :
    Tracks bits { queue.ioUringEnter consumed with sqePending := pending }
      (waiting.drop consumed) where
  mask := tracks.mask
  head := Nat.mod_lt _ (by decide)
  tail := by
    change queue.tail = ((queue.head + consumed) % 2 ^ 32 + (waiting.drop consumed).length) % 2 ^ 32
    rw [tracks.tail, List.length_drop]
    omega
  atMost := by
    have before := tracks.atMost
    rw [List.length_drop]
    omega
  array := by
    intro index inQueue
    rw [List.length_drop] at inQueue
    change queue.array (((queue.head + consumed) % 2 ^ 32 + index) &&& queue.mask) =
      ((queue.head + consumed) % 2 ^ 32 + index) &&& queue.mask
    rw [tracks.enter_position small]
    exact tracks.array _ (by omega)

theorem found_enter (tracks : Tracks bits queue waiting) (found : Found queue waiting)
    (consumed pending : Nat) :
    Found { queue.ioUringEnter consumed with sqePending := pending } (waiting.drop consumed) := by
  intro index sqe isSqe
  rw [List.getElem?_drop] at isSqe
  change queue.sqes (queue.array (((queue.head + consumed) % 2 ^ 32 + index) &&& queue.mask)) = sqe
  rw [tracks.enter_position small]
  exact found _ _ isSqe

omit small in
theorem set_pending (tracks : Tracks bits queue waiting) (pending : Nat) :
    Tracks bits { queue with sqePending := pending } waiting :=
  ⟨tracks.mask, tracks.head, tracks.tail, tracks.atMost, tracks.array⟩

/-! ## Steps -/

/-- Publishing a submission and counting it. -/
theorem accounted_push (tracks : Tracks bits queue waiting) (accounted : Accounted ⟨queue, waiting⟩)
    (sqe : Sqe) :
    let after : SubmissionState :=
      ⟨{ queue.push sqe with sqePending := iadd queue.sqePending 1 }, waiting ++ [sqe]⟩
    ((∀ index < queue.unconsumed, (queue.head + index) &&& queue.mask ≠ queue.idx) ∧
        Accounted after ↔ queue.unconsumed ≤ queue.mask) ∧
      (queue.unconsumed ≤ queue.mask → Tracks bits after.queue after.waiting) := by
  intro after
  have positive := Nat.two_pow_pos bits
  have ring : 2 ^ bits < 2 ^ 32 := Nat.pow_lt_pow_right (by decide) (by omega)
  have unconsumed := tracks.unconsumed_eq small
  have isMask := tracks.mask
  have pending := accounted.pending
  dsimp only at pending
  have roomOf : queue.unconsumed ≤ queue.mask → waiting.length < 2 ^ bits := by omega
  refine ⟨?_, fun room => (tracks.push small (roomOf room) sqe).set_pending _⟩
  rw [tracks.free_iff small]
  refine ⟨And.left, fun room => ⟨room, ?_, ?_⟩⟩
  · have pushed := ((tracks.push small (roomOf room) sqe).set_pending
      (iadd queue.sqePending 1)).unconsumed_eq small
    change iadd queue.sqePending 1 = _
    rw [pushed, pending, unconsumed, List.length_append, List.length_singleton]
    exact iadd_eq (by omega)
  · exact tracks.found_push small (roomOf room) accounted.found sqe

/-- After a system call nothing is pending. -/
theorem accounted_enter (tracks : Tracks bits queue waiting)
    (found : Found queue waiting) {consumed : Nat} (atMost : consumed ≤ waiting.length) :
    let after : SubmissionState :=
      ⟨{ queue.ioUringEnter consumed with sqePending := 0 }, waiting.drop consumed⟩
    (Accounted after ↔ consumed = waiting.length) ∧ Tracks bits after.queue after.waiting := by
  intro after
  have entered := tracks.enter small atMost 0
  have unconsumed := entered.unconsumed_eq small
  refine ⟨⟨fun accounted => ?_, fun whole => ⟨?_, tracks.found_enter small found consumed 0⟩⟩,
    entered⟩
  · have pending := accounted.pending
    change 0 = after.queue.unconsumed at pending
    rw [unconsumed, List.length_drop] at pending
    omega
  · change 0 = after.queue.unconsumed
    rw [unconsumed, List.length_drop]
    omega

end Tracks

theorem writeAsync_eq {written : SubmissionQueue} {fd size consumed : Nat} {fatPtr : FatPtr}
    (writes : queue.writeAsync fd fatPtr size consumed = some written) :
    let published := queue.push ⟨IORING_OP_WRITE, fd % 2 ^ 32, fatPtr.start, size % 2 ^ 32, 0, 0⟩
    written = if iadd queue.sqePending 1 ≥ SQE_BATCH_SIZE then
        { published.ioUringEnter consumed with sqePending := 0 }
      else { published with sqePending := iadd queue.sqePending 1 } := by
  intro published
  rw [SubmissionQueue.writeAsync] at writes
  split at writes
  · apply Option.some.inj
    rw [← writes]
    exact (apply_ite some _ _ _).symm
  · cases writes

/-- What one step does to an accounted state. -/
theorem submission_step (small : bits ≤ 31) {state next : SubmissionState} {event : SubmissionEvent}
    (tracks : Tracks bits state.queue state.waiting) (accounted : Accounted state)
    (step : SubmissionStep state event next) :
    (NotOverwriting state event ∧ Accounted next ↔ TakenWhole state event) ∧
      (TakenWhole state event → Tracks bits next.queue next.waiting) := by
  have pending : state.queue.sqePending = state.waiting.length :=
    accounted.pending.trans (tracks.unconsumed_eq small)
  have ring : 2 ^ bits < 2 ^ 32 := Nat.pow_lt_pow_right (by decide) (by omega)
  have atMost := tracks.atMost
  cases step with
  | submit opcode fd addr len procCtx => exact tracks.accounted_push small accounted _
  | submitPoll fd procCtx => exact tracks.accounted_push small accounted _
  | @write queue written waiting fd fatPtr size consumed writes notFull =>
      rw [writeAsync_eq writes, if_neg (Nat.not_le.mpr notFull)]
      rcases tracks.accounted_push small accounted
        ⟨IORING_OP_WRITE, fd % 2 ^ 32, fatPtr.start, size % 2 ^ 32, 0, 0⟩ with ⟨exactly, pushed⟩
      refine ⟨exactly.trans ⟨fun room => ⟨room, fun isFull => ?_⟩, And.left⟩,
        fun whole => pushed whole.1⟩
      exact absurd isFull (Nat.not_le.mpr notFull)
  | @writeBatch queue written waiting fd fatPtr size consumed batch writes isFull isBatch
      mayConsume =>
      rw [writeAsync_eq writes, if_pos isFull]
      subst isBatch
      rw [NotOverwriting, TakenWhole, tracks.free_iff small]
      dsimp only at pending tracks accounted ⊢
      have positive := Nat.two_pow_pos bits
      have isMask := tracks.mask
      have unconsumed := tracks.unconsumed_eq small
      by_cases room : queue.unconsumed ≤ queue.mask
      · have hasRoom : waiting.length < 2 ^ bits := by omega
        rcases (tracks.push small hasRoom _).accounted_enter small
          (tracks.found_push small hasRoom accounted.found _) mayConsume.2 with ⟨whole, entered⟩
        have batchLength : iadd queue.sqePending 1 = waiting.length + 1 := by
          rw [pending]
          exact iadd_eq (by omega)
        refine ⟨and_congr_right fun _ => whole.trans ?_, fun _ => entered⟩
        rw [List.length_append, List.length_singleton, batchLength]
        refine ⟨fun taken _ => taken, fun taken => taken ?_⟩
        rw [← batchLength]
        exact isFull
      · exact ⟨iff_of_false (fun both => room both.1) fun both => room both.1,
          fun both => absurd both.1 room⟩
  | @flush queue waiting consumed nonempty mayConsume =>
      have flushes : queue.flush consumed =
          { queue.ioUringEnter consumed with sqePending := 0 } := if_pos nonempty
      rw [flushes]
      rcases tracks.accounted_enter small accounted.found mayConsume.2 with ⟨whole, entered⟩
      refine ⟨(and_iff_right trivial).trans (whole.trans ?_), fun _ => entered⟩
      change consumed = waiting.length ↔ (queue.sqePending ≠ 0 → consumed = queue.sqePending)
      rw [pending]
      exact ⟨fun taken _ => taken, fun taken => taken (pending ▸ nonempty)⟩
  | @flushEmpty queue waiting consumed isEmpty =>
      have flushes : queue.flush consumed = queue := if_neg (not_not_intro isEmpty)
      rw [flushes]
      exact ⟨iff_of_true ⟨trivial, accounted⟩ fun nonempty => absurd isEmpty nonempty,
        fun _ => tracks⟩
  | @wait queue waiting consumed mayConsume =>
      rcases tracks.accounted_enter small accounted.found mayConsume.2 with ⟨whole, entered⟩
      refine ⟨(and_iff_right trivial).trans (whole.trans ?_), fun _ => entered⟩
      change consumed = waiting.length ↔ consumed = queue.sqePending
      rw [pending]

/-! ## Runs -/

theorem tracks_start (bits : Nat) (array : Nat → Nat) (sqes : Nat → Sqe) :
    Tracks bits (SubmissionQueue.init bits array sqes) [] where
  mask := rfl
  head := Nat.two_pow_pos 32
  tail := rfl
  atMost := Nat.zero_le _
  array := nofun

/-- A run accounts for its submissions exactly when the kernel takes each batch whole and no
submission is made while a whole ring of them waits. -/
theorem submissions_accounted_iff (small : bits ≤ 31) (array : Nat → Nat) (sqes : Nat → Sqe)
    {history : List (Stage SubmissionState SubmissionEvent)} {final : SubmissionState}
    (run : Run SubmissionStep (SubmissionState.start bits array sqes) history final) :
    Meets NotOverwriting history ∧ Throughout Accounted history final ↔
      Meets TakenWhole history :=
  @Run.guarantees_iff_meets _ _ _ _ _ _ (fun state => Tracks bits state.queue state.waiting)
    Accounted NotOverwriting TakenWhole run (tracks_start bits array sqes)
    ⟨((tracks_start bits array sqes).unconsumed_eq small).symm, nofun⟩
    (fun _ _ _ tracks accounted step => (submission_step small tracks accounted step).1)
    fun _ _ _ tracks accounted whole step => (submission_step small tracks accounted step).2 whole

/-- A queue of 4096 entries after `rt_io_uring_setup`. -/
def emptyQueue : SubmissionQueue := .init 12 (fun _ => 0) fun _ => ⟨0, 0, 0, 0, 0, 0⟩

/-- The submission of an accept is taken by one wait. -/
theorem submissions_accounted_wait : ∃ history final,
    Run SubmissionStep ⟨emptyQueue, []⟩ history final ∧ history.length = 2 ∧
      Meets NotOverwriting history ∧ Throughout Accounted history final := by
  have accept := @SubmissionStep.submit emptyQueue [] 13 3 0 0 16
  have wait := @SubmissionStep.wait (emptyQueue.emitSubmitSqe 13 3 0 0 16)
    [⟨13, 3, 0, 0, 0, 16⟩] 1 ⟨by decide, by decide⟩
  have run := (Run.refl.next accept).next wait
  refine ⟨_, _, run, rfl, (submissions_accounted_iff (by decide) _ _ run).mpr ?_⟩
  rw [meets_cons, meets_cons]
  refine ⟨?_, ?_, meets_nil _⟩
  · change 1 = (emptyQueue.emitSubmitSqe 13 3 0 0 16).sqePending
    decide
  · change emptyQueue.unconsumed ≤ emptyQueue.mask
    decide

/-- The kernel takes one of two submissions; the other one is not counted any more. -/
theorem partial_batch_forgotten : ∃ history final,
    Run SubmissionStep ⟨emptyQueue, []⟩ history final ∧
      ¬ (Meets NotOverwriting history ∧ Throughout Accounted history final) := by
  have first := @SubmissionStep.submit emptyQueue [] 13 3 0 0 16
  let one := emptyQueue.emitSubmitSqe 13 3 0 0 16
  have second := @SubmissionStep.submit one [⟨13, 3, 0, 0, 0, 16⟩] 13 3 0 0 32
  have wait := @SubmissionStep.wait (one.emitSubmitSqe 13 3 0 0 32)
    [⟨13, 3, 0, 0, 0, 16⟩, ⟨13, 3, 0, 0, 0, 32⟩] 1 ⟨by decide, by decide⟩
  refine ⟨_, _, ((Run.refl.next first).next second).next wait, ?_⟩
  rintro ⟨-, -, accounted⟩
  exact absurd accounted.pending (by decide)

end LakeNative.Io

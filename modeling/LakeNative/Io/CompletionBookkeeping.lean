import LakeNative.Library.Ring
import LakeNative.Runtime.CompletionQueue
import LakeNative.Runtime.SystemInvariant

/-! # Io completions

Each completion is taken once, in the order of the ring, and wakes the actor that it is for
and no other one, whatever the order in which actors park and completions arrive.
-/

namespace LakeNative.Io

open LakeNative.Runtime LakeNative.Transitions LakeNative.DenseArray LakeNative.Ring

variable {io next : IoSystem} {bits : Nat}

/-- A parked actor's index leads to its entry, and completions are taken in order. -/
structure ParkedAndOrdered (io : IoSystem) : Prop where
  parkedIdx : ∀ index < io.system.ctx.ioParkedCount.toNat,
    (io.system.actors (io.system.ctx.ioParked.entry index)).ioParkedIdx.toNat = index
  ordered : io.consumed <+: io.posted

/-- What a completion for an actor does: of the parked ones it becomes runnable, with the
result in its `TEMP_VAL`. -/
structure Wakes (system : System) (cqe : Cqe) : Prop where
  wasParked : system.ctx.queues.parked.count cqe.userData = 1
  othersParked : ∀ actor, (system.complete cqe.userData cqe.res).ctx.queues.parked.count actor =
    if actor = cqe.userData then 0 else system.ctx.queues.parked.count actor
  runnable : (system.complete cqe.userData cqe.res).ctx.queues.runnable =
    system.ctx.queues.runnable ++ [cqe.userData]
  result : ((system.complete cqe.userData cqe.res).actors cqe.userData).tempVal =
    cqe.res.signExtend 64
  othersKept : ∀ actor, actor ≠ cqe.userData →
    ((system.complete cqe.userData cqe.res).actors actor).tempVal =
      (system.actors actor).tempVal

/-- `poll_cq` takes the next completion that was posted, wakes its actor if it has one, and
ends when it has taken all that are pending. -/
def TakenAndWoken (io : IoSystem) : IoEvent → Prop
  | .consume cqe => io.posted[io.consumed.length]? = some cqe ∧
      (cqe.userData ≠ 0 → Wakes io.system cqe) ∧
      (cqe.userData = 0 → (io.system.complete cqe.userData cqe.res).ctx = io.system.ctx ∧
        (io.system.complete cqe.userData cqe.res).actors = io.system.actors)
  | .pollEnd => io.consumed = io.posted ∧
      io.taken = (io.queue.tail - io.queue.head).toNat
  | _ => True

/-! ## The invariant -/

structure QueueKept (bits : Nat) (io : IoSystem) : Prop where
  sound : io.system.Sound
  mask : io.queue.mask.toNat = 2 ^ bits - 1
  consumed : io.consumed = io.posted.take io.consumed.length
  atMost : io.consumed.length ≤ io.posted.length
  position : io.polling.getD io.queue.head = BitVec.ofNat 32 io.consumed.length
  tail : io.queue.tail = BitVec.ofNat 32 io.posted.length
  taken : io.taken ≤ io.consumed.length
  head : io.queue.head = BitVec.ofNat 32 (io.consumed.length - io.taken)
  room : io.posted.length - (io.consumed.length - io.taken) ≤ 2 ^ bits
  inRing : ∀ index cqe, io.consumed.length ≤ index → io.posted[index]? = some cqe →
    io.queue.cqes (index % 2 ^ bits) = cqe
  owed : ∀ userData, (io.pending.map Cqe.userData).count userData ≤
    io.system.outstanding.count userData
  idle : io.polling ≠ none → io.system.running = false
  notTaken : io.polling = none → io.taken = 0

theorem toNat_and_mask {mask : BitVec 32} (isMask : mask.toNat = 2 ^ bits - 1) (small : bits ≤ 31)
    (count : Nat) : (BitVec.ofNat 32 count &&& mask).toNat = count % 2 ^ bits := by
  have divides : 2 ^ bits ∣ 2 ^ 32 := Nat.pow_dvd_pow 2 (by omega)
  rw [BitVec.toNat_and, isMask, Nat.and_two_pow_sub_one_eq_mod, BitVec.toNat_ofNat,
    Nat.mod_mod_of_dvd _ divides]

theorem toNat_distance {near far : Nat} (ordered : near ≤ far) (close : far - near < 2 ^ 32) :
    (BitVec.ofNat 32 far - BitVec.ofNat 32 near).toNat = far - near := by
  rw [BitVec.toNat_sub, BitVec.toNat_ofNat, BitVec.toNat_ofNat]
  omega

namespace QueueKept

theorem ring_small (small : bits ≤ 31) : 2 ^ bits < 2 ^ 32 :=
  Nat.pow_lt_pow_right (by decide) (by omega)

theorem distance (kept : QueueKept bits io) (small : bits ≤ 31) :
    (io.queue.tail - io.queue.head).toNat =
      io.posted.length - (io.consumed.length - io.taken) := by
  have atMost := kept.atMost
  have room := kept.room
  have ring := ring_small small
  rw [kept.tail, kept.head]
  exact toNat_distance (by omega) (by omega)

/-- A head that is not the tail has a completion behind it. -/
theorem next_pending (kept : QueueKept bits io) (small : bits ≤ 31) {head : BitVec 32}
    (polls : io.polling = some head) (more : head ≠ io.queue.tail) :
    io.posted[io.consumed.length]? = some (io.queue.cqeAt head) := by
  have isHead := kept.position
  rw [polls, Option.getD_some] at isHead
  have atMost := kept.atMost
  have notAll : io.consumed.length ≠ io.posted.length := by
    intro all
    rw [isHead, kept.tail, all] at more
    exact more rfl
  have inRange : io.consumed.length < io.posted.length := by omega
  have isCqe := List.getElem?_eq_getElem inRange
  have found := kept.inRing _ _ (Nat.le_refl _) isCqe
  rw [isCqe, CompletionQueue.cqeAt, isHead, toNat_and_mask kept.mask small, found]

theorem all_taken (kept : QueueKept bits io) (small : bits ≤ 31) {head : BitVec 32}
    (polls : io.polling = some head) (done : head = io.queue.tail) :
    io.consumed.length = io.posted.length := by
  have isHead := kept.position
  rw [polls, Option.getD_some, done, kept.tail] at isHead
  have same := congrArg BitVec.toNat isHead
  rw [BitVec.toNat_ofNat, BitVec.toNat_ofNat] at same
  have atMost := kept.atMost
  have room := kept.room
  have ring := ring_small small
  omega

theorem pending_cons {cqe : Cqe}
    (isNext : io.posted[io.consumed.length]? = some cqe) :
    io.pending = cqe :: io.posted.drop (io.consumed.length + 1) := by
  rcases List.getElem?_eq_some_iff.mp isNext with ⟨inRange, isCqe⟩
  rw [IoSystem.pending, List.drop_eq_getElem_cons inRange, isCqe]

end QueueKept

/-! ## Waking -/

theorem wakes (sound : io.system.Sound) {cqe : Cqe} (owed : cqe.userData ∈ io.system.outstanding)
    (real : cqe.userData ≠ 0) : Wakes io.system cqe := by
  rcases sound.complete_queues cqe.res owed real with ⟨position, atPosition, -, queues⟩
  rcases sound.placement with ⟨waiters, placement⟩
  have isOnce := List.count_eq_one_of_mem placement.parked_nodup (List.mem_of_getElem? atPosition)
  refine ⟨isOnce, fun actor => ?_, ?_, ?_, fun actor different => ?_⟩
  · have removed := count_swapPop atPosition actor
    rw [queues]
    change (swapPop io.system.ctx.queues.parked position).count actor = _
    by_cases same : actor = cqe.userData
    · subst same
      rw [if_pos rfl] at removed ⊢
      omega
    · rw [if_neg (Ne.symm same)] at removed
      rw [if_neg same]
      omega
  · rw [queues]
    rfl
  · simp only [System.complete, ShedulerCtx.emitWakeByUserData, if_neg real, Function.update_self]
  · have fixed : ∀ lastVal matchIdx lastIdx,
        (ShedulerCtx.fixParkedIdx io.system.actors lastVal matchIdx lastIdx actor).tempVal =
          (io.system.actors actor).tempVal := by
      intro lastVal matchIdx lastIdx
      unfold ShedulerCtx.fixParkedIdx
      split
      · rfl
      · by_cases same : actor = lastVal
        · rw [same, Function.update_self]
        · rw [Function.update_of_ne same]
    simp only [System.complete, ShedulerCtx.emitWakeByUserData, if_neg real,
      Function.update_of_ne different]
    exact fixed _ _ _

/-! ## Steps -/

theorem outstanding_call {system after : System} {event : Event}
    (notComplete : ∀ userData res, event ≠ .complete userData res)
    (step : Step system event after) (userData : Word) :
    system.outstanding.count userData ≤ after.outstanding.count userData := by
  cases step with
  | complete userData res => exact absurd rfl (notComplete _ _)
  | submit => exact List.count_le_count_cons
  | park => exact List.count_le_count_cons
  | send pid message fresh =>
      rw [System.send]
      split
      · exact Nat.le_refl _
      · exact Nat.le_refl _
  | dispatch => exact Nat.le_refl _
  | spawn => exact Nat.le_refl _
  | dequeue => exact Nat.le_refl _
  | yield => exact Nat.le_refl _
  | wait => exact Nat.le_refl _
  | done => exact Nat.le_refl _

namespace QueueKept

theorem start (main : Word) (memory : Word → Actor) (real : main ≠ 0) (small : bits ≤ 31)
    (cqes : Nat → Cqe) : QueueKept bits (IoSystem.start main memory bits cqes) where
  sound := System.start_sound main memory real
  mask := by
    have ring := ring_small small
    change (BitVec.ofNat 32 (2 ^ bits - 1)).toNat = 2 ^ bits - 1
    rw [BitVec.toNat_ofNat]
    omega
  consumed := rfl
  atMost := Nat.le_refl _
  position := rfl
  tail := rfl
  taken := Nat.le_refl _
  head := rfl
  room := Nat.zero_le _
  inRing index cqe _ isCqe := by cases isCqe
  owed _ := Nat.zero_le _
  idle polls := absurd rfl polls
  notTaken _ := rfl

theorem post (kept : QueueKept bits io) (small : bits ≤ 31) {cqe : Cqe}
    (room : (io.queue.tail - io.queue.head).toNat < 2 ^ bits)
    (owed : (io.pending.map Cqe.userData).count cqe.userData <
      io.system.outstanding.count cqe.userData) :
    QueueKept bits { io with queue := io.queue.post cqe, posted := io.posted ++ [cqe] } := by
  rw [kept.distance small] at room
  have atMost := kept.atMost
  refine { kept with
    consumed := ?_
    atMost := ?_
    tail := ?_
    room := ?_
    inRing := ?_
    owed := ?_ }
  · dsimp only
    rw [List.take_append_of_le_length atMost]
    exact kept.consumed
  · dsimp only
    rw [List.length_append]
    omega
  · dsimp only [CompletionQueue.post]
    rw [List.length_append, kept.tail, List.length_singleton, BitVec.ofNat_add]
    rfl
  · dsimp only
    rw [List.length_append, List.length_singleton]
    omega
  · intro index found behind isFound
    have isTail : (io.queue.tail &&& io.queue.mask).toNat = io.posted.length % 2 ^ bits := by
      rw [kept.tail, toNat_and_mask kept.mask small]
    change Function.update io.queue.cqes (io.queue.tail &&& io.queue.mask).toNat cqe
      (index % 2 ^ bits) = found
    change (io.posted ++ [cqe])[index]? = some found at isFound
    dsimp only at behind
    rw [isTail]
    rcases Nat.lt_trichotomy index io.posted.length with before | rfl | past
    · -- The new entry lies behind the pending ones and does not come round to them.
      have ahead := @mod_ne_of_lt (2 ^ bits) index (io.posted.length - index) (by omega) (by omega)
      rw [Nat.add_sub_cancel' (Nat.le_of_lt before)] at ahead
      rw [Function.update_of_ne ahead.symm]
      rw [List.getElem?_append_left before] at isFound
      exact kept.inRing index found behind isFound
    · rw [Function.update_self]
      rw [List.getElem?_concat_length] at isFound
      exact Option.some.inj isFound
    · rw [List.getElem?_eq_none (by rw [List.length_append, List.length_singleton]; omega)]
        at isFound
      cases isFound
  · intro userData
    have isPending : ({ io with queue := io.queue.post cqe, posted := io.posted ++ [cqe] } :
        IoSystem).pending = io.pending ++ [cqe] := List.drop_append_of_le_length atMost
    have before := kept.owed userData
    rw [isPending, List.map_append, List.count_append, List.map_singleton, List.count_singleton]
    split
    · rename_i same
      rw [beq_iff_eq] at same
      subst same
      exact owed
    · exact before

theorem consume (kept : QueueKept bits io) (small : bits ≤ 31) {head : BitVec 32}
    (polls : io.polling = some head) (more : head ≠ io.queue.tail) :
    io.system.running = false ∧ (io.queue.cqeAt head).userData ∈ io.system.outstanding ∧
      QueueKept bits { io with
        system := io.system.complete (io.queue.cqeAt head).userData (io.queue.cqeAt head).res
        polling := some (head + 1)
        taken := io.taken + 1
        consumed := io.consumed ++ [io.queue.cqeAt head] } := by
  have isNext := kept.next_pending small polls more
  have isPending := pending_cons isNext
  have idle := kept.idle (by rw [polls]; exact nofun)
  have isOwed : (io.queue.cqeAt head).userData ∈ io.system.outstanding := by
    have counted := kept.owed (io.queue.cqeAt head).userData
    rw [isPending, List.map_cons, List.count_cons_self] at counted
    exact List.count_pos_iff.mp (by omega)
  have inRange := (List.getElem?_eq_some_iff.mp isNext).1
  refine ⟨idle, isOwed, {
    sound := (Step.complete _ _ idle isOwed).sound kept.sound
    mask := kept.mask
    consumed := ?_
    atMost := ?_
    position := ?_
    tail := kept.tail
    taken := ?_
    head := ?_
    room := ?_
    inRing := ?_
    owed := ?_
    idle := fun _ => idle
    notTaken := nofun }⟩
  · dsimp only
    rw [List.length_append, List.length_singleton, List.take_add_one, isNext, ← kept.consumed]
    rfl
  · dsimp only
    rw [List.length_append, List.length_singleton]
    omega
  · have isHead := kept.position
    rw [polls, Option.getD_some] at isHead
    dsimp only [Option.getD_some]
    rw [isHead, List.length_append, List.length_singleton, BitVec.ofNat_add]
    rfl
  · have taken := kept.taken
    dsimp only
    rw [List.length_append, List.length_singleton]
    omega
  · have same : (io.consumed ++ [io.queue.cqeAt head]).length - (io.taken + 1) =
        io.consumed.length - io.taken := by
      rw [List.length_append, List.length_singleton]
      omega
    dsimp only
    rw [same]
    exact kept.head
  · have room := kept.room
    dsimp only
    rw [List.length_append, List.length_singleton]
    omega
  · intro index cqe behind isCqe
    dsimp only at behind isCqe
    rw [List.length_append] at behind
    exact kept.inRing index cqe (by omega) isCqe
  · intro userData
    have counted := kept.owed userData
    change ((io.posted.drop (io.consumed ++ [io.queue.cqeAt head]).length).map
      Cqe.userData).count userData ≤
        (io.system.outstanding.erase (io.queue.cqeAt head).userData).count userData
    rw [isPending, List.map_cons, List.count_cons] at counted
    rw [List.length_append, List.length_singleton, List.count_erase]
    split at counted
    · rename_i same
      rw [if_pos same]
      omega
    · rename_i different
      rw [if_neg different]
      omega

theorem pollEnd (kept : QueueKept bits io) (small : bits ≤ 31) {head : BitVec 32}
    (polls : io.polling = some head) (done : head = io.queue.tail) :
    QueueKept bits { io with
      queue := { io.queue with head := head }, polling := none, taken := 0 } := by
  have isHead := kept.position
  rw [polls, Option.getD_some] at isHead
  have all := kept.all_taken small polls done
  have empty : io.posted.length - (io.consumed.length - 0) = 0 := by omega
  exact {
    sound := kept.sound
    mask := kept.mask
    consumed := kept.consumed
    atMost := kept.atMost
    position := isHead
    tail := kept.tail
    taken := Nat.zero_le _
    head := isHead
    room := Nat.le_trans (Nat.le_of_eq empty) (Nat.zero_le _)
    inRing := kept.inRing
    owed := kept.owed
    idle := fun polls => absurd rfl polls
    notTaken := fun _ => rfl }

theorem step (kept : QueueKept bits io) (small : bits ≤ 31) {event : IoEvent}
    (step : IoStep bits io event next) : QueueKept bits next := by
  cases step with
  | call event notPolling notComplete step =>
      exact { kept with
        sound := step.sound kept.sound
        owed := fun userData =>
          Nat.le_trans (kept.owed userData) (outstanding_call notComplete step userData)
        idle := fun polls => absurd notPolling polls }
  | post cqe room owed => exact kept.post small room owed
  | pollStart notPolling idle =>
      have isHead := kept.position
      have notTaken := kept.notTaken notPolling
      have head := kept.head
      have room := kept.room
      rw [notPolling, Option.getD_none] at isHead
      rw [notTaken] at head room
      exact { kept with
        position := isHead
        taken := Nat.zero_le _
        head := head
        room := room
        idle := fun _ => idle
        notTaken := nofun }
  | consume head polls more => exact (kept.consume small polls more).2.2
  | pollEnd head polls done => exact kept.pollEnd small polls done
  | waitCqe => exact kept

theorem safe (kept : QueueKept bits io) : ParkedAndOrdered io where
  parkedIdx index inRange := by
    rcases kept.sound.placement with ⟨waiters, placement⟩
    apply placement.parkedIdx index
    rw [List.getElem?_eq_getElem (by simpa using inRange)]
    simp [ShedulerCtx.queues, HeapArray.slice]
  ordered := by
    rw [kept.consumed]
    exact List.take_prefix _ _

theorem guarantees (kept : QueueKept bits io) (small : bits ≤ 31) {event : IoEvent}
    (step : IoStep bits io event next) : TakenAndWoken io event := by
  cases step with
  | call | post | pollStart | waitCqe => exact trivial
  | consume head polls more =>
      rcases kept.consume small polls more with ⟨-, isOwed, -⟩
      refine ⟨kept.next_pending small polls more, wakes kept.sound isOwed, fun isZero => ?_⟩
      rw [isZero, System.complete_zero]
      exact ⟨rfl, rfl⟩
  | pollEnd head polls done =>
      have all := kept.all_taken small polls done
      have taken := kept.taken
      refine ⟨?_, ?_⟩
      · rw [kept.consumed, all, List.take_length]
      · rw [kept.distance small]
        omega

end QueueKept

/-- In every run each completion is taken once and in order, and wakes its actor alone. -/
theorem completions_kept {main : Word} (memory : Word → Actor) (real : main ≠ 0)
    (small : bits ≤ 31) (cqes : Nat → Cqe) {history : List (Stage IoSystem IoEvent)}
    {final : IoSystem} (run : Run (IoStep bits) (IoSystem.start main memory bits cqes) history final) :
    Meets TakenAndWoken history ∧ Throughout ParkedAndOrdered history final :=
  run.guarantees_of_invariant (QueueKept.start main memory real small cqes)
    (fun _ _ _ kept step => kept.step small step)
    (fun _ _ _ kept step => kept.guarantees small step) fun _ kept => kept.safe

/-- The main actor parks and is woken with the result of its operation. -/
theorem completions_kept_park : ∃ history final,
    Run (IoStep 12) (IoSystem.start 16 (fun _ => .zeroed) 12 fun _ => ⟨0, 0⟩) history final ∧
      Meets TakenAndWoken history ∧ Throughout ParkedAndOrdered history final ∧
      (final.system.actors 16).tempVal = -5 := by
  let started := IoSystem.start 16 (fun _ => .zeroed) 12 fun _ => ⟨0, 0⟩
  let running := { started with system := { started.system with running := true } }
  let parked := { running with system := running.system.park }
  let posted := { parked with queue := parked.queue.post ⟨16, -5⟩, posted := [⟨16, -5⟩] }
  let polling := { posted with polling := some posted.queue.head, taken := 0 }
  have dispatch : IoStep 12 started (.call .dispatch) running :=
    .call .dispatch rfl nofun (.dispatch rfl (by decide))
  have park : IoStep 12 running (.call .park) parked := .call .park rfl nofun (.park rfl)
  have post : IoStep 12 parked (.post ⟨16, -5⟩) posted := .post _ (by decide) (by decide)
  have pollStart : IoStep 12 posted .pollStart polling := .pollStart rfl rfl
  have consume := @IoStep.consume 12 polling polling.queue.head rfl (by decide)
  have run := ((((Run.refl.next dispatch).next park).next post).next pollStart).next consume
  rcases completions_kept _ (by decide) (by decide) _ run with ⟨taken, ordered⟩
  exact ⟨_, _, run, taken, ordered, by decide⟩

end LakeNative.Io

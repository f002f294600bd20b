import LakeNative.Arenas.ArenaRequests

/-! # What `rt_allocate` comes back with

The buffer is put into a tuple, which `rt_allocate` takes from the arena of the running actor or
else from the heap behind the buffer. Nothing looks whether there is one.
-/

namespace LakeNative.Arenas

open LakeNative.Runtime LakeNative.Regions LakeNative.Allocators

variable {base : HeapRegion} {arena : Allocation} {state : ArenaState}

instance (heap : Heap) (bucket : Nat) : Decidable (Serves heap bucket) :=
  inferInstanceAs (Decidable (_ ∨ _))

/-- 16 bytes are to be had behind a chunk of the bucket. -/
def RoomBehind (heap : Heap) (bucket : Nat) : Prop :=
  if heap.freeListHeads bucket = 0 then
    heap.freeListHeads 0 ≠ 0 ∨ heap.heapCurr + 16 + classSize bucket + 32 ≤ heap.heapEnd
  else if bucket = 0 then
    nextFree heap (heap.freeListHeads 0) ≠ 0 ∨ heap.heapCurr + 32 ≤ heap.heapEnd
  else
    Serves heap 0

/-- A call of `rt_allocate` is met: the process ends for want of memory, or the tuple reports that
there is none, or it holds a buffer that has room. -/
def TupleMet (atomId : String → Nat) (base : HeapRegion) (state : BucketState) (caller : Caller)
    (size : Nat) (answer : Answer) (result : CallResult Heap) : Prop :=
  result = .exited 137 ∨
    (Unserved state.heap size answer ∧ ∃ tuple after, result = .returned tuple after caller ∧
      after.load (after.load tuple) = atomId "err" ∧
      after.load (after.load tuple + 8) = atomId "nomem") ∨
    ∃ tuple after buf, result = .returned tuple after caller ∧
      after.load (after.load tuple) = atomId "ok" ∧ after.load (after.load tuple + 8) = buf ∧
      SizedBlock after size buf (Allocation.space ⟨buf, size⟩)
        ((Allocation.space ⟨buf, size⟩).Within (memoryOf base size answer))
        (state.live.map Allocation.space)

/-- The arena has room for a tuple. -/
def ArenaState.ArenaHolds (state : ArenaState) (arena : Allocation) (party : Nat) : Prop :=
  state.ownedArenaFat party ≠ 0 ∧ state.behind arena 16 ≤ (state.rest arena).stop

/-- There is a tuple for what the call comes to: a report, or a buffer of the heap or of a mapping
of its own, with a tuple that an arena may hold. -/
def TupleServed (heap : Heap) (arenaHolds : Prop) (size : Nat) : Prop :=
  if sizeClass size ≤ MAX_CLASS then
    if Serves heap (sizeClass size) then
      arenaHolds ∨ RoomBehind heap (sizeClass size)
    else
      Serves heap 0
  else
    arenaHolds ∨ Serves heap 0

/-- The requests of `rt_allocate` that are served well: with a tuple if their size is, and without
one where there is no actor; a large one needs a mapping in any case. -/
def RtServed (heap : Heap) (arenaHolds : Prop) (caller : Caller) (size : Nat) (answer : Answer) :
    Prop :=
  (size ≤ 2 ^ 24 ∨ ∃ addr, answer = .mapped addr) ∧
    (TupleServed heap arenaHolds size → SizeServed size answer) ∧
    (¬ TupleServed heap arenaHolds size → caller.hasActor = false)

/-- What the tuple for a buffer comes to: it is filled beside the buffer where it can be had. -/
structure TupleBeside (after : Heap) (arenaHolds : Prop) (caller : Caller) (arenaFat raw first buf : Nat) :
    Prop where
  found : arenaHolds ∨ Serves after 0 → ∃ tuple filled,
    Heap.fillTuple (after.rtArenaAlloc caller arenaFat 16 raw) first buf =
      .returned tuple filled caller ∧
    filled.load (filled.load tuple) = first ∧ filled.load (filled.load tuple + 8) = buf ∧
    ∀ offset ≤ 16, filled.load (buf + offset) = after.load (buf + offset)
  missing : ¬ (arenaHolds ∨ Serves after 0) →
    Heap.fillTuple (after.rtArenaAlloc caller arenaFat 16 raw) first buf = noTuple caller

theorem serves_zero_iff (heap : Heap) :
    Serves heap 0 ↔ heap.freeListHeads 0 ≠ 0 ∨ heap.heapCurr + 32 ≤ heap.heapEnd := Iff.rfl

/-- What is left behind a chunk is what its taking leaves. -/
theorem serves_behind {heap after : Heap} {bucket fatPtr : Nat}
    (took : TookChunk heap after bucket fatPtr) : Serves after 0 ↔ RoomBehind heap bucket := by
  rw [serves_zero_iff, RoomBehind, took.heapEnd]
  by_cases isEmpty : heap.freeListHeads bucket = 0
  · rcases took.bumped isEmpty with ⟨-, curr, heads⟩
    rw [if_pos isEmpty, curr, heads]
  · rcases took.popped isEmpty with ⟨isHead, curr, heads⟩
    rw [if_neg isEmpty, curr, heads]
    by_cases isZero : bucket = 0
    · rw [if_pos isZero, isHead, isZero, Function.update_self]
    · rw [if_neg isZero, Function.update_of_ne (Ne.symm isZero), serves_zero_iff]

/-- The tuple that is not there stands for the end of the process, or is written through. -/
theorem noTuple_met_iff {atomId : String → Nat} {bucket : BucketState} {caller : Caller} {size : Nat}
    {answer : Answer} :
    TupleMet atomId base bucket caller size answer (noTuple caller) ↔ caller.hasActor = false := by
  constructor
  · rintro (isEnd | ⟨-, tuple, after, isReturned, -⟩ | ⟨tuple, after, buf, isReturned, -⟩)
    · by_contra hasActor
      rw [noTuple, if_pos (Bool.not_eq_false _ ▸ hasActor)] at isEnd
      cases isEnd
    · exact absurd isReturned (noTuple_ne_returned _ _ _ _)
    · exact absurd isReturned (noTuple_ne_returned _ _ _ _)
  · intro noActor
    left
    rw [noTuple, noActor]
    rfl

/-! ## The buffer in the tuple -/

section

variable {moved : List Allocation} {bucket : BucketState} {atomId : String → Nat} {caller : Caller}
  {arenaFat size : Nat} {answer : Answer} {arenaHolds : Prop}

/-- What a call that got its buffer comes to is met as the tuple is, and the buffer in it. -/
theorem got_met_iff (but : IntactBut base moved bucket) {buf : Nat} {after : Heap}
    (isWord : size < 2 ^ 64) (promised : Promised base bucket size answer)
    (isThere : accessible buf = true) (served : ¬ Unserved bucket.heap size answer)
    (allocates : bucket.heap.allocate size (rtMmap answer) = some (buf, after))
    (beside : TupleBeside after arenaHolds caller arenaFat (rtMmap answer) (atomId "ok") buf) :
    TupleMet atomId base bucket caller size answer
        (bucket.heap.rtAllocate atomId caller arenaFat size (rtMmap answer)) ↔
      (arenaHolds ∨ Serves after 0 → SizeServed size answer) ∧
        (¬ (arenaHolds ∨ Serves after 0) → caller.hasActor = false) := by
  have sized := but.zeroed_met_iff caller isWord promised
  have isBuf : buf ≠ 0 := by
    rw [accessible, decide_eq_true_iff] at isThere
    exact isThere.1
  have merges : bucket.heap.merge caller (some (buf, after)) = .returned buf after caller :=
    if_pos isThere
  rw [allocates, merges, blockMet_returned_iff isBuf] at sized
  have isCall : bucket.heap.rtAllocate atomId caller arenaFat size (rtMmap answer) =
      Heap.fillTuple (after.rtArenaAlloc caller arenaFat 16 (rtMmap answer)) (atomId "ok") buf := by
    rw [Heap.rtAllocate, allocates]
    exact if_pos isThere
  rw [isCall]
  by_cases fits : arenaHolds ∨ Serves after 0
  · rcases beside.found fits with ⟨tuple, filled, returns, isOk, isSecond, kept⟩
    have start : filled.load buf = after.load buf := kept 0 (by decide)
    rw [SizedBlock, ← start, ← kept 8 (by decide)] at sized
    refine (Iff.trans ?_ sized).trans ⟨fun isServed => ⟨fun _ => isServed, absurd fits⟩, fun both =>
      both.1 fits⟩
    rw [returns]
    constructor
    · rintro (isEnd | ⟨isUnserved, -⟩ | ⟨other, heap, block, isReturned, -, isBlock, isSized⟩)
      · cases isEnd
      · exact absurd isUnserved served
      · cases isReturned
        rw [isSecond] at isBlock
        subst isBlock
        exact isSized
    · exact fun isSized => .inr (.inr ⟨tuple, filled, buf, rfl, isOk, isSecond, isSized⟩)
  · rw [beside.missing fits, noTuple_met_iff]
    exact ⟨fun noActor => ⟨fun holds => absurd holds fits, fun _ => noActor⟩, fun both => both.2 fits⟩

/-- A small request that can be served gets a chunk that is there. -/
theorem zeroed_serves (but : IntactBut base moved bucket) (isWord : size < 2 ^ 64)
    (small : sizeClass size ≤ MAX_CLASS) (serves : Serves bucket.heap (sizeClass size)) (raw : Nat) :
    ∃ buf after, bucket.heap.allocate size raw = some (buf, after) ∧ accessible buf = true ∧
      TookChunk bucket.heap after (sizeClass size) buf := by
  have isSome : ∃ buf after, bucket.heap.allocate size raw = some (buf, after) := by
    rcases but.bump with ⟨-, fits, aligned⟩
    simp only [Heap.allocate]
    rw [if_pos small]
    by_cases hasFree : bucket.heap.freeListHeads (sizeClass size) ≠ 0
    · rw [if_pos hasFree]
      exact ⟨_, _, rfl⟩
    · rw [if_neg hasFree]
      have isBump := bumpBlock_eq bucket.heap size small aligned fits
      rw [if_pos (serves.resolve_left hasFree)] at isBump
      exact ⟨_, _, isBump⟩
  rcases isSome with ⟨buf, after, allocates⟩
  have maps : MAX_CLASS < sizeClass size → bucket.Maps base ⟨raw, raw + mmapSize size⟩ :=
    fun huge => absurd small (Nat.not_le.mpr huge)
  rcases but.zeroed_block isWord maps allocates with ⟨plain, words, isRaw, rfl, -⟩
  have took := but.tookChunk small isRaw
  exact ⟨buf, _, allocates, (but.small_sized small isWord isRaw).1,
    ⟨took.heapEnd, took.popped, took.bumped⟩⟩

/-- A request that finds no room is met if there is a tuple, or no actor. -/
theorem unserved_met_iff (but : IntactBut base moved bucket) (small : sizeClass size ≤ MAX_CLASS)
    (exhausted : ¬ Serves bucket.heap (sizeClass size)) :
    TupleMet atomId base bucket caller size answer
        (bucket.heap.rtAllocate atomId caller arenaFat size (rtMmap answer)) ↔
      (¬ Serves bucket.heap 0 → caller.hasActor = false) := by
  have unserved : Unserved bucket.heap size answer := by
    rw [Unserved, if_pos small]
    exact exhausted
  rw [but.rtAllocate_exhausted small exhausted]
  by_cases fits : Serves bucket.heap 0
  · rcases but.tuple_filled fits caller (rtMmap answer) (atomId "err") (atomId "nomem") with
      ⟨tuple, after, returns, filled⟩
    apply iff_of_true _ (absurd fits)
    exact .inr (.inl ⟨unserved, tuple, after, returns, filled.first, filled.second⟩)
  · rw [but.tuple_missing fits, noTuple_met_iff]
    exact ⟨fun noActor _ => noActor, fun noActor => noActor fits⟩

/-- The requests that are met, if tuples come from an arena that may hold one. -/
theorem rt_met_iff (but : IntactBut base moved bucket) (isWord : size < 2 ^ 64)
    (promised : Promised base bucket size answer)
    (beside : ∀ buf after, bucket.heap.allocate size (rtMmap answer) = some (buf, after) →
      (MAX_CLASS < sizeClass size →
        bucket.Maps base ⟨rtMmap answer, rtMmap answer + mmapSize size⟩) →
      TupleBeside after arenaHolds caller arenaFat (rtMmap answer) (atomId "ok") buf) :
    TupleMet atomId base bucket caller size answer
        (bucket.heap.rtAllocate atomId caller arenaFat size (rtMmap answer)) ↔
      RtServed bucket.heap arenaHolds caller size answer := by
  unfold RtServed TupleServed
  by_cases small : sizeClass size ≤ MAX_CLASS
  · have inRange : size ≤ 2 ^ 24 := (sizeClass_le_iff isWord MAX_CLASS).mp small
    rw [if_pos small, and_iff_right (.inl inRange)]
    by_cases serves : Serves bucket.heap (sizeClass size)
    · rw [if_pos serves]
      rcases zeroed_serves but isWord small serves (rtMmap answer) with
        ⟨buf, after, allocates, isThere, took⟩
      have served : ¬ Unserved bucket.heap size answer := by
        rw [Unserved, if_pos small]
        exact not_not_intro serves
      rw [← serves_behind took]
      exact got_met_iff but isWord promised isThere served allocates
        (beside buf after allocates fun huge => absurd small (Nat.not_le.mpr huge))
    · rw [if_neg serves, unserved_met_iff but small serves]
      exact (and_iff_right fun _ => .inl inRange).symm
  · rw [if_neg small]
    have huge := Nat.not_le.mp small
    have large : ¬ size ≤ 2 ^ 24 := Nat.not_le.mpr ((huge_iff isWord).mp huge)
    cases answer with
    | failed errno =>
        rw [rtAllocate_unmapped _ small promised.1 promised.2]
        apply iff_of_false
        · rintro (isEnd | ⟨-, tuple, after, isReturned, -⟩ | ⟨tuple, after, buf, isReturned, -⟩)
          · cases isEnd
          · cases isReturned
          · cases isReturned
        · rintro ⟨isSmall | ⟨addr, isMapped⟩, -⟩
          · exact large isSmall
          · cases isMapped
    | mapped addr =>
        have maps : bucket.Maps base ⟨addr, addr + mmapSize size⟩ := promised huge
        have positive : 0 < addr := maps.positive
        have fits : addr + mmapSize size ≤ 2 ^ 47 := maps.fits
        have nonempty : addr < addr + mmapSize size := maps.nonempty
        have isThere : accessible addr = true := by
          rw [accessible, decide_eq_true_iff]
          omega
        have served : ¬ Unserved bucket.heap size (.mapped addr) := by
          rw [Unserved, if_neg small]
          rintro ⟨errno, isFailed, -⟩
          cases isFailed
        have allocates : bucket.heap.allocate size (rtMmap (.mapped addr)) =
            some (addr, ((bucket.heap.advise addr (mmapSize size)).hugeBlock size addr).2) :=
          if_neg small
        have isMet := got_met_iff but isWord promised isThere served allocates
          (beside addr _ allocates fun _ => maps)
        rw [and_iff_right (.inr ⟨addr, rfl⟩)]
        exact isMet

end

/-- Without an arena the tuple comes from the heap. -/
theorem beside_of_heap {moved : List Allocation} {bucket : BucketState} (atomId : String → Nat)
    (but : IntactBut base moved bucket) (caller : Caller) {size raw buf : Nat} {after : Heap}
    (isWord : size < 2 ^ 64)
    (maps : MAX_CLASS < sizeClass size → bucket.Maps base ⟨raw, raw + mmapSize size⟩)
    (allocates : bucket.heap.allocate size raw = some (buf, after)) :
    TupleBeside after False caller 0 raw (atomId "ok") buf := by
  have allocated := (but.zeroed_allocate isWord maps allocates).1
  have goesOn : after.rtArenaAlloc caller 0 16 raw = after.rtAllocateRaw caller 16 raw := rfl
  constructor
  · intro fits
    rcases allocated.tuple_filled (fits.resolve_left id) caller raw (atomId "ok") buf with
      ⟨tuple, filled, returns, isFilled⟩
    refine ⟨tuple, filled, goesOn ▸ returns, isFilled.first, isFilled.second, fun offset inHeader => ?_⟩
    apply isFilled.unchanged.of_apart (isFilled.beside _ List.mem_cons_self)
    exact allocated.mem_space List.mem_cons_self inHeader
  · intro nowhere
    have isFull : ¬ Serves after 0 := fun serves => nowhere (.inr serves)
    rw [goesOn]
    exact allocated.tuple_missing isFull caller raw _ _

namespace Shared

/-- A tuple is carved off the arena if that has room, and else made of a chunk; the other
allocations stay as they are. -/
theorem tuple (shared : Shared base arena state) (caller : Caller) (party raw first second : Nat) :
    (state.ArenaHolds arena party ∨ Serves state.heap 0 → ∃ tuple after,
      Heap.fillTuple (state.heap.rtArenaAlloc caller (state.ownedArenaFat party) 16 raw) first second =
        .returned tuple after caller ∧
      after.load (after.load tuple) = first ∧ after.load (after.load tuple + 8) = second ∧
      ∀ allocation ∈ state.bucket.live, allocation ≠ arena → ∀ addr ∈ allocation.space,
        after.words addr = state.heap.words addr) ∧
    (¬ (state.ArenaHolds arena party ∨ Serves state.heap 0) →
      Heap.fillTuple (state.heap.rtArenaAlloc caller (state.ownedArenaFat party) 16 raw) first second =
        noTuple caller) := by
  rcases carved : state.heap.carve (state.ownedArenaFat party) 16 with _ | ⟨tuple, after⟩
  · have notHeld : ¬ state.ArenaHolds arena party := by
      rintro ⟨holds, room⟩
      rw [(shared.parties party).resolve_left holds, shared.carve_none_iff] at carved
      have fits := shared.arena_fits.2.1
      have isRoom : state.heap.load arena.fatPtr + 32 ≤ arena.fatPtr + 16 + arena.size := room
      have isFull : arena.fatPtr + 16 + arena.size <
          iadd (state.heap.load arena.fatPtr) (iadd (alignDown (iadd 16 7) 8) 16) := carved
      unfold iadd alignDown at isFull
      omega
    have goesOn : state.heap.rtArenaAlloc caller (state.ownedArenaFat party) 16 raw =
        state.heap.rtAllocateRaw caller 16 raw := by
      rw [Heap.rtArenaAlloc, Heap.arenaAlloc, carved]
      rfl
    rw [goesOn, or_iff_right notHeld]
    constructor
    · intro serves
      rcases shared.but.tuple_filled serves caller raw first second with ⟨tuple, after, returns, filled⟩
      refine ⟨tuple, after, returns, filled.first, filled.second, ?_⟩
      intro allocation member _ addr inside
      exact filled.unchanged.of_apart (filled.beside allocation member) inside
    · exact fun isFull => shared.but.tuple_missing isFull caller raw first second
  · have isArena := shared.carve_none_or carved
    have goesOn : state.heap.rtArenaAlloc caller (state.ownedArenaFat party) 16 raw =
        state.heap.merge caller (some (tuple, after)) := by
      rw [Heap.rtArenaAlloc, Heap.arenaAlloc, carved]
    rcases shared.carve_eq (by decide) (isArena ▸ carved) with ⟨isCursor, newBump, rfl, above, room, -⟩
    rcases shared.arena_fits with ⟨positive, fits, inSpace⟩
    have behind := shared.behind
    have held : state.ArenaHolds arena party := by
      refine ⟨isArena ▸ Nat.ne_of_gt positive, ?_⟩
      change state.heap.load arena.fatPtr + 32 ≤ arena.fatPtr + 16 + arena.size
      omega
    refine ⟨fun _ => ?_, fun nowhere => absurd (.inl held) nowhere⟩
    let heap := ((state.heap.store tuple (tuple + 16)).store (tuple + 8) (tuple + 16 + 16)).store
      arena.fatPtr newBump
    let after := (heap.store (tuple + 16) first).store (tuple + 16 + 8) second
    have isThere : accessible tuple = true := by
      rw [accessible, decide_eq_true_iff]
      omega
    have starts : heap.load tuple = tuple + 16 := by
      rw [load_store_of_ne _ (by omega), load_store_of_ne _ (by omega)]
      exact Function.update_self _ _ _
    have startKept : after.load tuple = tuple + 16 := by
      rw [load_store_of_ne _ (by omega), load_store_of_ne _ (by omega), starts]
    have isFirst : after.load (tuple + 16) = first := by
      rw [load_store_of_ne _ (by omega)]
      exact Function.update_self _ _ _
    have isSecond : after.load (tuple + 16 + 8) = second := Function.update_self _ _ _
    refine ⟨tuple, after, ?_, startKept ▸ isFirst, startKept ▸ isSecond, ?_⟩
    · rw [goesOn, Heap.merge, if_pos isThere]
      simp only [Heap.fillTuple]
      rw [if_pos isThere, starts]
    · intro allocation member different addr inside
      have apart := shared.but.live_apart shared.member member different.symm
      have elsewhere : ∀ written, arena.fatPtr ≤ written → written < arena.fatPtr + 16 + arena.size →
          addr ≠ written := by
        rintro written above below rfl
        exact apart.notMem (inSpace.mem (Region.mem_mk.mpr ⟨above, below⟩)) inside
      change after.load addr = state.heap.load addr
      rw [load_store_of_ne _ (elsewhere _ (by omega) (by omega)),
        load_store_of_ne _ (elsewhere _ (by omega) (by omega)),
        load_store_of_ne _ (elsewhere _ (by omega) (by omega)),
        load_store_of_ne _ (elsewhere _ (by omega) (by omega)),
        load_store_of_ne _ (elsewhere _ (by omega) (by omega))]

/-- A buffer of `rt_allocate` leaves the arena as it is. -/
theorem beside_zeroed (shared : Shared base arena state) {size raw buf : Nat} {after : Heap}
    (isWord : size < 2 ^ 64)
    (maps : MAX_CLASS < sizeClass size → state.bucket.Maps base ⟨raw, raw + mmapSize size⟩)
    (allocates : state.heap.allocate size raw = some (buf, after)) :
    Shared base arena { state with bucket := state.bucket.record ⟨buf, size⟩ after } ∧
      (⟨buf, size⟩ : Allocation) ≠ arena ∧ after.load arena.fatPtr = state.heap.load arena.fatPtr := by
  rcases shared.but.zeroed_allocate isWord maps allocates with ⟨allocated, fresh, agree⟩
  have isNew : (⟨buf, size⟩ : Allocation) ∈ (state.bucket.record ⟨buf, size⟩ after).live :=
    List.mem_cons_self
  have stays : arena ∈ (state.bucket.record ⟨buf, size⟩ after).live :=
    List.mem_cons_of_mem _ shared.member
  have different := fresh arena shared.member
  have arenaKept : ∀ addr ∈ arena.space, after.words addr = state.heap.words addr :=
    fun addr inArena => agree.of_apart (allocated.live_apart stays isNew different) inArena
  refine ⟨?_, different.symm, arenaKept _ (shared.header_mem (Nat.zero_le 16))⟩
  apply shared.frame { state with bucket := state.bucket.record ⟨buf, size⟩ after } allocated stays
    rfl rfl
  · exact fun offset inHeader => arenaKept _ (shared.header_mem (Nat.le_of_lt inHeader))
  · exact fun block isBlock offset inHeader =>
      arenaKept _ (shared.block_inside isBlock (block.header_mem inHeader).1).1

/-- The tuple lies in the arena or in a chunk, and so beside the buffer. -/
theorem tupleBeside (shared : Shared base arena state) (atomId : String → Nat) (caller : Caller)
    {party size raw buf : Nat} {after : Heap} (isWord : size < 2 ^ 64)
    (maps : MAX_CLASS < sizeClass size → state.bucket.Maps base ⟨raw, raw + mmapSize size⟩)
    (allocates : state.heap.allocate size raw = some (buf, after)) :
    TupleBeside after (state.ArenaHolds arena party) caller (state.ownedArenaFat party) raw
      (atomId "ok") buf := by
  rcases shared.beside_zeroed isWord maps allocates with ⟨next, different, sameCursor⟩
  have sameHolds : ArenaState.ArenaHolds { state with bucket := state.bucket.record ⟨buf, size⟩ after }
      arena party ↔ state.ArenaHolds arena party := by
    unfold ArenaState.ArenaHolds ArenaState.behind ArenaState.rest
    change _ ∧ after.load arena.fatPtr + _ + _ ≤ _ ↔ _
    rw [sameCursor]
  rcases next.tuple caller party raw (atomId "ok") buf with ⟨found, missing⟩
  rw [sameHolds] at found missing
  constructor
  · intro fits
    rcases found fits with ⟨tuple, filled, returns, isOk, isSecond, kept⟩
    refine ⟨tuple, filled, returns, isOk, isSecond, fun offset inHeader => ?_⟩
    apply kept _ List.mem_cons_self different
    exact next.but.mem_space List.mem_cons_self inHeader
  · exact missing

end Shared

/-! ## All entry points -/

end LakeNative.Arenas

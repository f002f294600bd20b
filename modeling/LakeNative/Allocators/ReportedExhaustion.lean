import LakeNative.Allocators.LiveMemory
import LakeNative.Runtime.Exhaustion

/-! # How exhaustion is reported

`rt_allocate` reports that there is no room in a tuple, for which it allocates 16 bytes from the
same heap. Beside that chunk the allocator stays as it was.
-/

namespace LakeNative.Allocators

open LakeNative.Runtime LakeNative.Regions LakeNative.LinkedList LakeNative.Transitions

variable {base : HeapRegion} {state : BucketState} {moved : List Allocation}

/-- There is a free chunk of the bucket, or room for one behind `heap_curr`. -/
def Serves (heap : Heap) (bucket : Nat) : Prop :=
  heap.freeListHeads bucket ≠ 0 ∨ heap.heapCurr + 16 + classSize bucket ≤ heap.heapEnd

/-- What a small request does to the globals: its chunk is the first of the bucket's list, or
the next one of the heap when the list is empty. -/
structure TookChunk (heap after : Heap) (bucket fatPtr : Nat) : Prop where
  heapEnd : after.heapEnd = heap.heapEnd
  popped : heap.freeListHeads bucket ≠ 0 → fatPtr = heap.freeListHeads bucket ∧
    after.heapCurr = heap.heapCurr ∧
    after.freeListHeads = Function.update heap.freeListHeads bucket (nextFree heap fatPtr)
  bumped : heap.freeListHeads bucket = 0 → fatPtr = heap.heapCurr ∧
    after.heapCurr = heap.heapCurr + 16 + classSize bucket ∧
    after.freeListHeads = heap.freeListHeads

/-! ## Small requests -/

/-- The bump pointer moves if the chunk ends in the heap. -/
theorem bumpBlock_eq (heap : Heap) {bucket : Nat} (size : Nat) (inRange : bucket ≤ MAX_CLASS)
    (aligned : 16 ∣ heap.heapCurr) (fits : heap.heapCurr ≤ 2 ^ 47) :
    heap.bumpBlock bucket size =
      if heap.heapCurr + 16 + classSize bucket ≤ heap.heapEnd then
        some (heap.heapCurr, { (heap.store heap.heapCurr (heap.heapCurr + 16)).store
            (heap.heapCurr + 8) (iadd (heap.heapCurr + 16) size) with
          heapCurr := heap.heapCurr + 16 + classSize bucket })
      else
        none := by
  have small := classSize_le inRange
  have raw : iadd heap.heapCurr 16 = heap.heapCurr + 16 := iadd_eq (by omega)
  have rounded : alignDown (iadd (heap.heapCurr + 16) 15) 16 = heap.heapCurr + 16 := by
    rw [iadd_eq (by omega), alignDown]
    omega
  have endAddr : iadd (heap.heapCurr + 16) (classSize bucket) =
      heap.heapCurr + 16 + classSize bucket := iadd_eq (by omega)
  simp only [Heap.bumpBlock, raw, rounded, endAddr]

namespace IntactBut

theorem bump (but : IntactBut base moved state) : base.first ≤ state.heap.heapCurr ∧
    state.heap.heapCurr ≤ 2 ^ 47 ∧ 16 ∣ state.heap.heapCurr := by
  rcases but.shadow with ⟨dead, words, intact, -⟩
  rcases intact.bump with ⟨first, last, aligned⟩
  have fits := base.fits
  exact ⟨first, Nat.le_trans last fits, aligned⟩

/-- A request that can be served is served. -/
theorem serves (but : IntactBut base moved state) {size : Nat} (inRange : sizeClass size ≤ MAX_CLASS)
    (serves : Serves state.heap (sizeClass size)) (raw : Nat) :
    ∃ fatPtr after, state.heap.allocateRaw size raw = some (fatPtr, after) := by
  rcases but.bump with ⟨-, fits, aligned⟩
  simp only [Heap.allocateRaw]
  rw [if_pos inRange]
  by_cases hasFree : state.heap.freeListHeads (sizeClass size) ≠ 0
  · rw [if_pos hasFree]
    exact ⟨_, _, rfl⟩
  · rw [if_neg hasFree, bumpBlock_eq _ _ inRange aligned fits, if_pos (serves.resolve_left hasFree)]
    exact ⟨_, _, rfl⟩

/-- No small request is served that cannot be. -/
theorem allocate_none (but : IntactBut base moved state) {size : Nat}
    (inRange : sizeClass size ≤ MAX_CLASS) (exhausted : ¬ Serves state.heap (sizeClass size))
    (raw : Nat) : state.heap.allocate size raw = none := by
  rcases but.bump with ⟨-, fits, aligned⟩
  rcases not_or.mp exhausted with ⟨isEmpty, isFull⟩
  simp only [Heap.allocate]
  rw [if_pos inRange, if_neg isEmpty, bumpBlock_eq _ _ inRange aligned fits, if_neg isFull]

/-- Nor is a small raw request. -/
theorem allocateRaw_none (but : IntactBut base moved state) {size : Nat}
    (inRange : sizeClass size ≤ MAX_CLASS) (exhausted : ¬ Serves state.heap (sizeClass size))
    (raw : Nat) : state.heap.allocateRaw size raw = none := by
  rcases but.bump with ⟨-, fits, aligned⟩
  rcases not_or.mp exhausted with ⟨isEmpty, isFull⟩
  simp only [Heap.allocateRaw]
  rw [if_pos inRange, if_neg isEmpty, bumpBlock_eq _ _ inRange aligned fits, if_neg isFull]

/-- The first chunk of a free list leads to another one, or to none. -/
theorem nextFree_ne (but : IntactBut base moved state) {bucket head : Nat}
    (isHead : state.heap.freeListHeads bucket = head) (hasFree : head ≠ 0) :
    nextFree state.heap head ≠ head := by
  rcases but.shadow with ⟨dead, words, intact, same⟩
  have list := intact.lists bucket
  change Chain (nextFree (state.withWords words).heap) 0 (state.heap.freeListHeads bucket) _ at list
  rw [isHead] at list
  rcases list.exists_cons hasFree with ⟨rest, isList, chain⟩
  rcases intact.isDead bucket head (isList ▸ List.mem_cons_self) with ⟨isChunk, notLive⟩
  have sameNext : nextFree state.heap head = nextFree (state.withWords words).heap head := by
    apply intact.nextFree_congr isChunk
    intro addr inside
    apply same
    intro allocation isMoved
    exact (intact.chunk_apart isChunk (but.areLive isMoved)
      (notLive allocation (but.areLive isMoved))).notMem inside
  rw [sameNext]
  intro loops
  rw [loops] at chain
  rcases chain.exists_cons hasFree with ⟨others, isRest, -⟩
  have once := list.nodup
  rw [isList, isRest] at once
  exact (List.nodup_cons.mp once).1 List.mem_cons_self

theorem tookChunk (but : IntactBut base moved state) {size raw fatPtr : Nat} {after : Heap}
    (inRange : sizeClass size ≤ MAX_CLASS)
    (allocates : state.heap.allocateRaw size raw = some (fatPtr, after)) :
    TookChunk state.heap after (sizeClass size) fatPtr := by
  rcases but.bump with ⟨-, fits, aligned⟩
  simp only [Heap.allocateRaw] at allocates
  rw [if_pos inRange] at allocates
  by_cases hasFree : state.heap.freeListHeads (sizeClass size) ≠ 0
  · rw [if_pos hasFree] at allocates
    cases allocates
    exact ⟨rfl, fun _ => ⟨rfl, rfl, rfl⟩, fun isEmpty => absurd isEmpty hasFree⟩
  · rw [if_neg hasFree, bumpBlock_eq _ _ inRange aligned fits] at allocates
    split at allocates
    · cases allocates
      exact ⟨rfl, fun isFree => absurd isFree hasFree, fun _ => ⟨rfl, rfl, rfl⟩⟩
    · cases allocates

/-- The address of a chunk is one that memory can be at. -/
theorem small_accessible (but : IntactBut base moved state) {allocation : Allocation}
    (member : allocation ∈ state.live) (small : allocation.isHuge = false) :
    accessible allocation.fatPtr = true := by
  rcases but.shadow with ⟨dead, words, intact, -⟩
  have within := intact.chunk_within ((intact.held _ member).small small).1
  have first : base.first ≤ allocation.fatPtr := within.1
  have inside := (but.mem_space member (Nat.zero_le 16)).2
  have fits := but.space_fits member
  have positive := base.positive
  rw [accessible, decide_eq_true_iff]
  dsimp only [Nat.add_zero] at inside
  exact ⟨by omega, by omega⟩

end IntactBut

/-! ## The report -/

/-- A tuple of two words in a chunk of the heap, and that nothing but its chunk has changed. -/
structure TupleFilled (base : HeapRegion) (moved : List Allocation) (state : BucketState)
    (first second tuple : Nat) (after : Heap) : Prop where
  first : after.load (after.load tuple) = first
  second : after.load (after.load tuple + 8) = second
  header : after.load tuple = tuple + 16 ∧ after.load (tuple + 8) = tuple + 32
  globals : TookChunk state.heap after 0 tuple
  unchanged : AgreeOutside (Allocation.space ⟨tuple, 16⟩) state.heap.words after.words
  beside : ∀ allocation ∈ state.live,
    allocation.space.Apart (Allocation.space ⟨tuple, 16⟩)
  intact : IntactBut base moved (state.record ⟨tuple, 16⟩ after)

/-- The tuple `{:err :nomem}`. -/
abbrev Reported (atomId : String → Nat) (base : HeapRegion) (moved : List Allocation)
    (state : BucketState) (tuple : Nat) (after : Heap) : Prop :=
  TupleFilled base moved state (atomId "err") (atomId "nomem") tuple after

theorem class_sixteen : sizeClass 16 = 0 := by decide +kernel

theorem small_sixteen (fatPtr : Nat) : Allocation.isHuge ⟨fatPtr, 16⟩ = false := by
  change decide (MAX_CLASS < sizeClass 16) = false
  rw [class_sixteen]
  rfl

/-- What filling a null comes to, behind the mark or the end that it is returned with. -/
def noTuple (caller : Caller) : CallResult Heap :=
  if caller.hasActor then .faulted else .exited 137

/-- A null is written through, or the process has ended. -/
theorem fillTuple_null (heap : Heap) (caller : Caller) (first second : Nat) :
    Heap.fillTuple (outOfMemory heap caller) first second = noTuple caller := by
  rw [outOfMemory, noTuple]
  split
  · rfl
  · rfl

theorem noTuple_ne_returned (caller same : Caller) (tuple : Nat) (after : Heap) :
    noTuple caller ≠ .returned tuple after same := by
  rw [noTuple]
  split
  · simp
  · simp

namespace IntactBut

/-- Where 16 bytes are to be had, a tuple is. -/
theorem tuple_filled (but : IntactBut base moved state) (tupleFits : Serves state.heap 0)
    (caller : Caller) (raw first second : Nat) :
    ∃ tuple after, Heap.fillTuple (state.heap.rtAllocateRaw caller 16 raw) first second =
        .returned tuple after caller ∧
      TupleFilled base moved state first second tuple after := by
  have inRange16 : sizeClass 16 ≤ MAX_CLASS := by
    rw [class_sixteen]
    exact Nat.zero_le _
  have noMaps : MAX_CLASS < sizeClass 16 → state.Maps base ⟨raw, raw + mmapSize 16⟩ := fun huge =>
    absurd inRange16 (Nat.not_le.mpr huge)
  rcases but.serves inRange16 (class_sixteen ▸ tupleFits) raw with ⟨tuple, filled, allocates⟩
  rcases but.allocate (by decide) noMaps allocates with ⟨allocated, fresh, agree⟩
  have took := but.tookChunk inRange16 allocates
  rw [class_sixteen] at took
  let added : Allocation := ⟨tuple, 16⟩
  have isNew : added ∈ (state.record added filled).live := List.mem_cons_self
  have isUnmoved : added ∉ moved := fun isMoved => fresh _ (but.areLive isMoved) rfl
  have isThere := allocated.small_accessible isNew (small_sixteen tuple)
  rcases allocated.header isNew isUnmoved (small_sixteen tuple) with ⟨-, starts, ends⟩
  change filled.load tuple = tuple + 16 at starts
  change filled.load (tuple + 8) = tuple + 16 + 16 at ends
  let after := (filled.store (tuple + 16) first).store (tuple + 16 + 8) second
  have elsewhere : ∀ addr, addr ≠ tuple + 16 → addr ≠ tuple + 24 →
      after.words addr = filled.words addr := by
    intro addr notFirst notSecond
    apply (Function.update_of_ne notSecond _ _).trans
    exact Function.update_of_ne notFirst _ _
  have isFirst : after.load (tuple + 16) = first := by
    apply (Function.update_of_ne (by omega) _ _).trans
    exact Function.update_self _ _ _
  have isSecond : after.load (tuple + 16 + 8) = second := Function.update_self _ _ _
  have startKept : after.load tuple = tuple + 16 :=
    (elsewhere _ (by omega) (by omega)).trans starts
  have endKept : after.load (tuple + 8) = tuple + 32 :=
    (elsewhere _ (by omega) (by omega)).trans ends
  have inSpace : ∀ addr, tuple + 16 ≤ addr → addr < tuple + 32 →
      addr ∈ Allocation.space added := by
    intro addr above below
    rw [Allocation.space_small (small_sixteen tuple)]
    change tuple ≤ addr ∧ addr < tuple + 16 + classSize (sizeClass 16)
    rw [class_sixteen]
    exact ⟨by omega, below⟩
  refine ⟨tuple, after, ?_, ?_⟩
  · simp only [Heap.rtAllocateRaw, allocates, Heap.merge]
    rw [if_pos isThere]
    simp only [Heap.fillTuple, starts]
    exact if_pos isThere
  · refine ⟨?_, ?_, ⟨startKept, endKept⟩, ⟨took.heapEnd, took.popped, took.bumped⟩, ?_, ?_, ?_⟩
    · rw [startKept]
      exact isFirst
    · rw [startKept]
      exact isSecond
    · intro addr outside
      refine (elsewhere addr ?_ ?_).trans (agree addr outside)
      · rintro rfl
        exact outside (inSpace _ (Nat.le_refl _) (by omega))
      · rintro rfl
        exact outside (inSpace _ (by omega) (by omega))
    · intro allocation member
      exact allocated.live_apart (List.mem_cons_of_mem _ member) isNew (fresh _ member)
    · have sameCurr : (state.record added after) =
          (state.record added filled).withWords after.words := rfl
      rw [sameCurr]
      apply allocated.write
      intro addr _ notLive
      have outside := notLive added isNew isUnmoved
      have region : Allocation.region filled added = ⟨tuple + 16, tuple + 32⟩ := by
        rw [Allocation.region, small_sixteen]
        change Region.mk (filled.load tuple) (filled.load tuple + classSize (sizeClass 16)) = _
        rw [starts, class_sixteen]
        rfl
      change addr ∉ Allocation.region filled added at outside
      rw [region, Region.mem_mk] at outside
      exact elsewhere addr (by omega) (by omega)

/-- Where they are not, there is none. -/
theorem tuple_missing (but : IntactBut base moved state) (isFull : ¬ Serves state.heap 0)
    (caller : Caller) (raw first second : Nat) :
    Heap.fillTuple (state.heap.rtAllocateRaw caller 16 raw) first second = noTuple caller := by
  have inRange16 : sizeClass 16 ≤ MAX_CLASS := by
    rw [class_sixteen]
    exact Nat.zero_le _
  rw [← class_sixteen] at isFull
  rw [Heap.rtAllocateRaw, but.allocateRaw_none inRange16 isFull]
  exact fillTuple_null _ _ _ _

/-- A request that finds no room goes on with the tuple of its report. -/
theorem rtAllocate_exhausted (but : IntactBut base moved state) {size : Nat}
    (inRange : sizeClass size ≤ MAX_CLASS) (exhausted : ¬ Serves state.heap (sizeClass size))
    (atomId : String → Nat) (caller : Caller) (arenaFat raw : Nat) :
    state.heap.rtAllocate atomId caller arenaFat size raw =
      Heap.fillTuple (state.heap.rtAllocateRaw caller 16 raw) (atomId "err") (atomId "nomem") := by
  rw [Heap.rtAllocate, but.allocate_none inRange exhausted]

end IntactBut

/-- When a request finds no room but the tuple does, the tuple reports it, its chunk is all that
has changed, and the actor lives on. -/
theorem exhaustion_reported (atomId : String → Nat) (but : IntactBut base moved state) {size : Nat}
    (inRange : sizeClass size ≤ MAX_CLASS) (exhausted : ¬ Serves state.heap (sizeClass size))
    (tupleFits : Serves state.heap 0) (caller : Caller) (arenaFat raw : Nat) :
    ∃ tuple after, state.heap.rtAllocate atomId caller arenaFat size raw =
        .returned tuple after caller ∧
      Reported atomId base moved state tuple after := by
  rw [but.rtAllocate_exhausted inRange exhausted]
  exact but.tuple_filled tupleFits caller raw _ _

/-! ## What is not reported -/

/-- A request that is not served: the heap has no chunk for it, or the kernel no mapping. -/
def Unserved (heap : Heap) (size : Nat) (answer : Answer) : Prop :=
  if sizeClass size ≤ MAX_CLASS then ¬ Serves heap (sizeClass size)
  else ∃ errno, answer = .failed errno ∧ 1 ≤ errno ∧ errno ≤ 4095

/-- The report as it is promised: the tuple is there, the actor lives on, and the bump pointer,
the lists and what is live are as they were. -/
def ReportsUnchanged (atomId : String → Nat) (state : BucketState) (caller : Caller)
    (arenaFat userSize raw : Nat) : Prop :=
  ∃ tuple after, state.heap.rtAllocate atomId caller arenaFat userSize raw =
      .returned tuple after caller ∧
    after.load (after.load tuple) = atomId "err" ∧
    after.load (after.load tuple + 8) = atomId "nomem" ∧
    after.heapCurr = state.heap.heapCurr ∧ after.freeListHeads = state.heap.freeListHeads ∧
    ∀ allocation ∈ state.live, ∀ addr ∈ allocation.space,
      after.words addr = state.heap.words addr

/-- The tuple's chunk is taken off the heap or off a list. -/
theorem Reported.moves {atomId : String → Nat} {tuple : Nat} {after : Heap}
    (but : IntactBut base moved state)
    (reported : Reported atomId base moved state tuple after) :
    ¬ (after.heapCurr = state.heap.heapCurr ∧ after.freeListHeads = state.heap.freeListHeads) := by
  rintro ⟨sameCurr, sameHeads⟩
  by_cases hasFree : state.heap.freeListHeads 0 ≠ 0
  · rcases reported.globals.popped hasFree with ⟨isHead, -, heads⟩
    rw [sameHeads] at heads
    have next := congrFun heads 0
    rw [Function.update_self, isHead] at next
    exact but.nextFree_ne rfl hasFree next.symm
  · rcases reported.globals.bumped (not_not.mp hasFree) with ⟨-, curr, -⟩
    omega

/-- The negated error number of a mapping is used as an address. -/
theorem rtAllocate_unmapped (heap : Heap) {size errno : Nat} (huge : ¬ sizeClass size ≤ MAX_CLASS)
    (positive : 1 ≤ errno) (bound : errno ≤ 4095) (atomId : String → Nat) (caller : Caller)
    (arenaFat : Nat) :
    heap.rtAllocate atomId caller arenaFat size (rtMmap (.failed errno)) = .faulted := by
  have notThere := (failed_not_accessible positive bound).2
  have isBlock : heap.allocate size (rtMmap (.failed errno)) =
      some ((heap.advise (rtMmap (.failed errno)) (mmapSize size)).hugeBlock size
        (rtMmap (.failed errno))) := if_neg huge
  rw [Heap.rtAllocate, isBlock]
  simp only [Heap.hugeBlock, notThere]
  exact if_neg Bool.false_ne_true

/-- A request of more than 16 MiB, or one that leaves no room for the tuple, is not reported. -/
theorem not_returned (atomId : String → Nat) (but : IntactBut base moved state) {size : Nat}
    {answer : Answer} (unserved : Unserved state.heap size answer)
    (noReport : ¬ (sizeClass size ≤ MAX_CLASS ∧ Serves state.heap 0)) (caller : Caller)
    (arenaFat tuple : Nat) (after : Heap) :
    state.heap.rtAllocate atomId caller arenaFat size (rtMmap answer) ≠
      .returned tuple after caller := by
  unfold Unserved at unserved
  by_cases inRange : sizeClass size ≤ MAX_CLASS
  · rw [if_pos inRange] at unserved
    have isFull : ¬ Serves state.heap 0 := fun serves => noReport ⟨inRange, serves⟩
    rw [but.rtAllocate_exhausted inRange unserved, but.tuple_missing isFull]
    exact noTuple_ne_returned _ _ _ _
  · rw [if_neg inRange] at unserved
    rcases unserved with ⟨errno, rfl, positive, bound⟩
    rw [rtAllocate_unmapped _ inRange positive bound]
    simp

theorem class_largest : sizeClass (2 ^ 24) = 20 := by decide +kernel

/-- How far chunks for such requests reach. -/
def spanOf : List Nat → Nat
  | [] => 0
  | size :: sizes => 16 + classSize (sizeClass size) + spanOf sizes

theorem span_replicate (size count : Nat) :
    spanOf (List.replicate count size) = count * (16 + classSize (sizeClass size)) := by
  induction count with
  | zero => rw [Nat.zero_mul]; rfl
  | succ count induction => rw [List.replicate_succ, spanOf, induction, Nat.succ_mul, Nat.add_comm]

/-- Chunks are cut off the heap one behind the other, as long as they fit. -/
theorem filled_heap : ∀ sizes : List Nat, (∀ size ∈ sizes, size ≤ 2 ^ 24) →
    spanOf sizes ≤ 2 ^ 32 → ∃ history state dead,
    Run (BucketStep lowHeap) emptyState history state ∧ Intact lowHeap dead state ∧
      state.heap.heapCurr = 4096 + spanOf sizes ∧ state.heap.freeListHeads = fun _ => 0 := by
  intro sizes
  induction sizes with
  | nil => exact fun _ _ => ⟨[], emptyState, fun _ => [], .refl, intact_start _ _, rfl, rfl⟩
  | cons size sizes induction =>
      intro areSmall inHeap
      rw [spanOf] at inHeap ⊢
      rcases induction (fun other member => areSmall other (List.mem_cons_of_mem _ member))
        (by omega) with ⟨history, state, dead, run, intact, curr, heads⟩
      have small := areSmall size List.mem_cons_self
      have isWord : size < 2 ^ 64 := by omega
      have but := IntactBut.of_intact intact
      have inRange : sizeClass size ≤ MAX_CLASS := (sizeClass_le_iff isWord MAX_CLASS).mpr small
      have ends : state.heap.heapEnd = 4096 + 2 ^ 32 := intact.heapEnd
      have room : Serves state.heap (sizeClass size) := by
        refine .inr ?_
        rw [curr, ends]
        omega
      rcases but.serves inRange room 0 with ⟨fatPtr, after, allocates⟩
      have took := but.tookChunk inRange allocates
      rcases took.bumped (congrFun heads _) with ⟨-, moves, sameHeads⟩
      have noMaps : MAX_CLASS < sizeClass size → state.Maps lowHeap ⟨0, 0 + mmapSize size⟩ :=
        fun huge => absurd inRange (Nat.not_le.mpr huge)
      have step : BucketStep lowHeap state (.allocate size fatPtr)
          (state.record ⟨fatPtr, size⟩ after) := .allocate _ 0 fatPtr isWord noMaps allocates
      rcases (intact.allocate_spec isWord noMaps allocates).1 with ⟨later, afterwards⟩
      refine ⟨_, _, later, run.next step, afterwards, ?_, sameHeads.trans heads⟩
      change after.heapCurr = _
      rw [moves, curr]
      omega

/-- Requests that leave not a byte of the heap. -/
def lastSizes : List Nat :=
  [16, 2 ^ 8, 2 ^ 9, 2 ^ 10, 2 ^ 11, 2 ^ 13, 2 ^ 14, 2 ^ 15, 2 ^ 16, 2 ^ 17, 2 ^ 18, 2 ^ 19, 2 ^ 20,
    2 ^ 21, 2 ^ 22, 2 ^ 23] ++ List.replicate 255 (2 ^ 24)

theorem span_lastSizes : spanOf lastSizes = 2 ^ 32 := by decide +kernel

theorem lastSizes_le : ∀ size ∈ lastSizes, size ≤ 2 ^ 24 := by decide +kernel

/-- A full heap has room for the tuple, but not for another 16 MiB. -/
theorem full_heap : ∃ history state, Run (BucketStep lowHeap) emptyState history state ∧
    IntactBut lowHeap [] state ∧ Unserved state.heap (2 ^ 24) (.mapped 0) ∧
      Serves state.heap 0 := by
  have largest : classSize (sizeClass (2 ^ 24)) = 2 ^ 24 := by
    rw [class_largest]
    rfl
  have span : spanOf (List.replicate 255 (2 ^ 24)) = 255 * (16 + 2 ^ 24) := by
    rw [span_replicate, largest]
  have areSmall : ∀ size ∈ List.replicate 255 (2 ^ 24), size ≤ 2 ^ 24 := fun size member =>
    Nat.le_of_eq (List.eq_of_mem_replicate member)
  rcases filled_heap _ areSmall (by omega) with ⟨history, state, dead, run, intact, curr, heads⟩
  have ends : state.heap.heapEnd = 4096 + 2 ^ 32 := intact.heapEnd
  have smallest : classSize 0 = 16 := rfl
  refine ⟨history, state, run, .of_intact intact, ?_, .inr ?_⟩
  · have inRange : sizeClass (2 ^ 24) ≤ MAX_CLASS := Nat.le_of_eq class_largest
    rw [Unserved, if_pos inRange]
    rintro (isFree | fits)
    · exact isFree (congrFun heads _)
    · rw [curr, ends, largest] at fits
      omega
  · rw [curr, ends, smallest]
    omega

end LakeNative.Allocators

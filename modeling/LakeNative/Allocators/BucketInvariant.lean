import LakeNative.Allocators.BucketRuns

/-! # What the bucket allocator keeps

Each operation writes to the space of one chunk or mapping only, and so leaves the fat
pointers, links and payloads in all others as they are.
-/

namespace LakeNative.Allocators

open LakeNative.Runtime LakeNative.Regions LakeNative.LinkedList

variable {base : HeapRegion} {state : BucketState} {dead : Nat → List Nat}

theorem mmapSize_ge {size : Nat} (nonempty : 0 < mmapSize size) : 4096 ≤ mmapSize size :=
  Nat.le_of_dvd nonempty (alignDown_dvd _ _)

theorem Allocation.mem_mapping {allocation : Allocation} (nonempty : 0 < mmapSize allocation.size)
    {offset : Nat} (inside : offset ≤ 16) : allocation.fatPtr + offset ∈ allocation.mapping := by
  have atLeast := mmapSize_ge nonempty
  constructor
  · exact Nat.le_add_right _ _
  · change allocation.fatPtr + offset < allocation.fatPtr + mmapSize allocation.size
    omega

/-- A held allocation is one of every later state that has its words and chunk. -/
theorem Held.frame {later : BucketState} {allocation : Allocation}
    (held : Held base state allocation)
    (same : ∀ addr ∈ allocation.space, later.heap.words addr = state.heap.words addr)
    (kept : state.chunks ⊆ later.chunks) : Held base later allocation where
  isWord := held.isWord
  small isSmall := by
    rcases held.small isSmall with ⟨isChunk, ends⟩
    refine ⟨kept isChunk, (same _ ?_).trans ends⟩
    rw [Allocation.space_small isSmall]
    exact Chunk.mem_space (by decide)
  huge isHuge := by
    rcases held.huge isHuge with ⟨starts, ends, nonempty, fits, outside⟩
    rw [Allocation.space_huge isHuge] at same
    have first := same _ (Allocation.mem_mapping nonempty (Nat.zero_le 16))
    have second := same _ (Allocation.mem_mapping nonempty (by decide : 8 ≤ 16))
    exact ⟨first.trans starts, second.trans ends, nonempty, fits, outside⟩

theorem Held.fatPtr_mem {allocation : Allocation} (held : Held base state allocation) :
    allocation.fatPtr ∈ allocation.space := by
  cases isHuge : allocation.isHuge with
  | false =>
      rw [Allocation.space_small isHuge]
      exact @Chunk.mem_space ⟨allocation.fatPtr, allocation.bucket⟩ 0 (Nat.zero_le 16)
  | true =>
      rw [Allocation.space_huge isHuge]
      exact Allocation.mem_mapping (held.huge isHuge).2.2.1 (Nat.zero_le 16)

namespace Intact

theorem chunk_fits (intact : Intact base dead state) {chunk : Chunk} (member : chunk ∈ state.chunks) :
    chunk.space.stop ≤ 2 ^ 47 := by
  have inside := (intact.inside chunk member).2
  have bump := intact.bump.2.1
  have fits := base.fits
  dsimp only at inside
  omega

theorem chunk_within (intact : Intact base dead state) {chunk : Chunk}
    (member : chunk ∈ state.chunks) : chunk.space.Within base.region :=
  (intact.inside chunk member).trans ⟨Nat.le_refl _, intact.bump.2.1⟩

/-- A fat pointer is one of one chunk only. -/
theorem chunk_unique (intact : Intact base dead state) {chunk other : Chunk}
    (member : chunk ∈ state.chunks) (also : other ∈ state.chunks)
    (same : chunk.fatPtr = other.fatPtr) : chunk = other := by
  by_contra different
  have apart := intact.apart chunk member other also different
  have inside := @Chunk.mem_space other 0 (Nat.zero_le _)
  rw [← same] at inside
  exact apart.notMem (Chunk.mem_space (Nat.zero_le _)) inside

theorem live_unique (intact : Intact base dead state) {allocation other : Allocation}
    (member : allocation ∈ state.live) (also : other ∈ state.live)
    (same : allocation.fatPtr = other.fatPtr) : allocation = other :=
  List.inj_on_of_nodup_map intact.once member also same

/-- The spaces of live allocations are apart. -/
theorem live_apart (intact : Intact base dead state) {allocation other : Allocation}
    (member : allocation ∈ state.live) (also : other ∈ state.live) (different : allocation ≠ other) :
    allocation.space.Apart other.space := by
  have chunkOfHuge : ∀ allocation ∈ state.live, ∀ other ∈ state.live,
      allocation.isHuge = false → other.isHuge = true → allocation.space.Apart other.space := by
    intro allocation member other also small huge
    rw [Allocation.space_small small, Allocation.space_huge huge]
    have outside := ((intact.held other also).huge huge).2.2.2.2
    exact outside.symm.within (intact.chunk_within ((intact.held allocation member).small small).1)
  cases isHuge : allocation.isHuge with
  | false =>
      cases otherHuge : other.isHuge with
      | false =>
          rw [Allocation.space_small isHuge, Allocation.space_small otherHuge]
          refine intact.apart _ ((intact.held _ member).small isHuge).1 _
            ((intact.held _ also).small otherHuge).1 fun same => different ?_
          exact intact.live_unique member also (congrArg Chunk.fatPtr same)
      | true => exact chunkOfHuge _ member _ also isHuge otherHuge
  | true =>
      cases otherHuge : other.isHuge with
      | false => exact (chunkOfHuge _ also _ member otherHuge isHuge).symm
      | true =>
          rw [Allocation.space_huge isHuge, Allocation.space_huge otherHuge]
          exact intact.mappings _ member _ also different isHuge otherHuge

/-- A chunk is apart from the live allocations that are not its own. -/
theorem chunk_apart (intact : Intact base dead state) {chunk : Chunk} {allocation : Allocation}
    (member : chunk ∈ state.chunks) (also : allocation ∈ state.live)
    (different : allocation.fatPtr ≠ chunk.fatPtr) : chunk.space.Apart allocation.space := by
  cases isHuge : allocation.isHuge with
  | false =>
      rw [Allocation.space_small isHuge]
      refine intact.apart _ member _ ((intact.held _ also).small isHuge).1 fun same => different ?_
      exact (congrArg Chunk.fatPtr same).symm
  | true =>
      rw [Allocation.space_huge isHuge]
      exact (((intact.held _ also).huge isHuge).2.2.2.2).symm.within (intact.chunk_within member)

/-- The fat pointer and both its words are in the space of an allocation. -/
theorem mem_space (intact : Intact base dead state) {allocation : Allocation}
    (member : allocation ∈ state.live) {offset : Nat} (inside : offset ≤ 16) :
    allocation.fatPtr + offset ∈ allocation.space := by
  cases isHuge : allocation.isHuge with
  | false =>
      rw [Allocation.space_small isHuge]
      exact @Chunk.mem_space ⟨allocation.fatPtr, allocation.bucket⟩ offset inside
  | true =>
      rw [Allocation.space_huge isHuge]
      exact Allocation.mem_mapping ((intact.held _ member).huge isHuge).2.2.1 inside

theorem load_start (intact : Intact base dead state) {allocation : Allocation}
    (member : allocation ∈ state.live) (small : allocation.isHuge = false) :
    state.heap.load allocation.fatPtr = allocation.fatPtr + 16 :=
  intact.starts ⟨allocation.fatPtr, allocation.bucket⟩ ((intact.held _ member).small small).1

/-- The payload lies behind the fat pointer in the allocation's space. -/
theorem region_within (intact : Intact base dead state) {allocation : Allocation}
    (member : allocation ∈ state.live) :
    (allocation.region state.heap).Within allocation.space ∧
      allocation.fatPtr + 16 ≤ (allocation.region state.heap).first := by
  have held := intact.held _ member
  unfold Allocation.region
  cases isHuge : allocation.isHuge with
  | false =>
      rw [Allocation.space_small isHuge, intact.load_start member isHuge]
      exact ⟨⟨Nat.le_add_right _ _, Nat.le_refl _⟩, Nat.le_refl _⟩
  | true =>
      rcases held.huge isHuge with ⟨starts, ends, -⟩
      rw [Allocation.space_huge isHuge, starts, ends]
      exact ⟨⟨Nat.le_add_right _ _, Nat.le_refl _⟩, Nat.add_le_add_left (by decide) _⟩

/-- The words of a chunk lead on as before while its space is as it was. -/
theorem nextFree_congr (intact : Intact base dead state) {heap : Heap} {chunk : Chunk}
    (member : chunk ∈ state.chunks)
    (same : ∀ addr ∈ chunk.space, heap.words addr = state.heap.words addr) :
    nextFree heap chunk.fatPtr = nextFree state.heap chunk.fatPtr := by
  have starts : heap.load chunk.fatPtr = chunk.fatPtr + 16 :=
    (same _ (Chunk.mem_space (Nat.zero_le 16))).trans (intact.starts chunk member)
  rw [nextFree, nextFree, starts, intact.starts chunk member]
  exact same _ (Chunk.mem_space (Nat.le_refl 16))

/-! ## Changes inside one region -/

section Touched

variable {heap : Heap} {touched : Region}

theorem start_frame (intact : Intact base dead state)
    (agree : AgreeOutside touched state.heap.words heap.words) {chunk : Chunk}
    (member : chunk ∈ state.chunks) (apart : chunk.space.Apart touched) :
    heap.load chunk.fatPtr = chunk.fatPtr + 16 :=
  (agree.of_apart apart (Chunk.mem_space (Nat.zero_le 16))).trans (intact.starts chunk member)

theorem held_frame (intact : Intact base dead state)
    (agree : AgreeOutside touched state.heap.words heap.words) {live : List Allocation}
    {chunks : List Chunk} {allocation : Allocation} (member : allocation ∈ state.live)
    (apart : allocation.space.Apart touched) (kept : state.chunks ⊆ chunks) :
    Held base ⟨heap, live, chunks⟩ allocation :=
  (intact.held _ member).frame (fun _ inside => agree.of_apart apart inside) kept

/-- A free list of chunks apart from the region is as it was. -/
theorem chain_frame (intact : Intact base dead state)
    (agree : AgreeOutside touched state.heap.words heap.words) (bucket : Nat) {first : Nat}
    {cells : List Nat} (chain : Chain (nextFree state.heap) 0 first cells)
    (others : ∀ fatPtr ∈ cells, ⟨fatPtr, bucket⟩ ∈ state.chunks ∧
      (Chunk.space ⟨fatPtr, bucket⟩).Apart touched) :
    Chain (nextFree heap) 0 first cells := by
  refine chain.congr fun fatPtr member => ?_
  rcases others fatPtr member with ⟨isChunk, apart⟩
  exact intact.nextFree_congr isChunk fun addr inside => agree.of_apart apart inside

end Touched

theorem apart_of_ne (intact : Intact base dead state) {chunk touched : Chunk}
    (member : chunk ∈ state.chunks) (also : touched ∈ state.chunks)
    (different : chunk.fatPtr ≠ touched.fatPtr) : chunk.space.Apart touched.space :=
  intact.apart _ member _ also fun same => different (congrArg Chunk.fatPtr same)

/-! ## Allocating -/

/-- What is left of the free lists without the head of one of them. -/
theorem mem_rest (intact : Intact base dead state) {bucket head : Nat} {rest : List Nat}
    (isList : dead bucket = head :: rest) {other fatPtr : Nat}
    (member : fatPtr ∈ Function.update dead bucket rest other) :
    fatPtr ∈ dead other ∧ fatPtr ≠ head := by
  by_cases same : other = bucket
  · subst same
    rw [Function.update_self] at member
    have once := (intact.lists other).nodup
    rw [isList] at once ⊢
    refine ⟨List.mem_cons_of_mem _ member, ?_⟩
    rintro rfl
    exact (List.nodup_cons.mp once).1 member
  · rw [Function.update_of_ne same] at member
    refine ⟨member, ?_⟩
    rintro rfl
    have isHead : fatPtr ∈ dead bucket := isList ▸ List.mem_cons_self
    exact same (congrArg Chunk.bucket (intact.chunk_unique (intact.isDead _ _ member).1
      (intact.isDead _ _ isHead).1 rfl))

/-- What `pop_block` does to memory. -/
theorem words_popBlock (intact : Intact base dead state) {bucket head size : Nat}
    (isChunk : ⟨head, bucket⟩ ∈ state.chunks) (room : size ≤ classSize bucket) :
    (state.heap.popBlock bucket size head).2.words = Function.update
      (Function.update state.heap.words (head + 8) (head + 16 + size)) (head + 16) 0 := by
  have starts : state.heap.load head = head + 16 := intact.starts _ isChunk
  have fits := intact.chunk_fits isChunk
  change head + 16 + classSize bucket ≤ 2 ^ 47 at fits
  have visibleEnd : iadd (head + 16) size = head + 16 + size := iadd_eq (by omega)
  change Function.update (Function.update state.heap.words (head + 8)
    (iadd (state.heap.load head) size)) (state.heap.load head) 0 = _
  rw [starts, visibleEnd]

theorem popBlock_frame (intact : Intact base dead state) {bucket head size : Nat}
    (isChunk : ⟨head, bucket⟩ ∈ state.chunks) (room : size ≤ classSize bucket) :
    AgreeOutside (Chunk.space ⟨head, bucket⟩) state.heap.words
      (state.heap.popBlock bucket size head).2.words := by
  rw [intact.words_popBlock isChunk room]
  exact (AgreeOutside.update (Chunk.mem_space (by decide)) _).trans
    (AgreeOutside.update (Chunk.mem_space (by decide)) _)

theorem pop (intact : Intact base dead state) {size : Nat} (isWord : size < 2 ^ 64)
    (inRange : sizeClass size ≤ MAX_CLASS) {head : Nat}
    (isHead : state.heap.freeListHeads (sizeClass size) = head) (hasFree : head ≠ 0) :
    ∃ later, Intact base later
      (state.record ⟨head, size⟩ (state.heap.popBlock (sizeClass size) size head).2) := by
  have list := intact.lists (sizeClass size)
  rw [isHead] at list
  rcases list.exists_cons hasFree with ⟨rest, isList, chain⟩
  have headDead : head ∈ dead (sizeClass size) := isList ▸ List.mem_cons_self
  rcases intact.isDead _ head headDead with ⟨isChunk, notLive⟩
  have isWords := intact.words_popBlock isChunk (le_classSize isWord)
  let heap := (state.heap.popBlock (sizeClass size) size head).2
  change heap.words = _ at isWords
  have agree : AgreeOutside (Chunk.space ⟨head, sizeClass size⟩) state.heap.words heap.words :=
    intact.popBlock_frame isChunk (le_classSize isWord)
  have notHuge : ∀ allocation : Allocation, allocation.isHuge = true →
      allocation ≠ ⟨head, size⟩ := by
    rintro allocation huge rfl
    rw [Allocation.isHuge_iff] at huge
    exact absurd inRange (Nat.not_le.mpr huge)
  refine ⟨Function.update dead (sizeClass size) rest, ?_⟩
  have isRecord : state.record ⟨head, size⟩ heap =
      ⟨heap, ⟨head, size⟩ :: state.live, state.chunks⟩ := by
    rw [BucketState.record, if_pos]
    rfl
  change Intact base _ (state.record ⟨head, size⟩ heap)
  rw [isRecord]
  refine {
    heapEnd := intact.heapEnd
    bump := intact.bump
    inRange := intact.inRange
    inside := intact.inside
    apart := intact.apart
    starts := ?_
    once := List.nodup_cons.mpr ⟨?_, intact.once⟩
    held := ?_
    mappings := ?_
    lists := ?_
    isDead := ?_ }
  · intro chunk member
    by_cases same : chunk.fatPtr = head
    · rw [same]
      change heap.words head = head + 16
      rw [isWords, Function.update_of_ne (by omega), Function.update_of_ne (by omega)]
      exact intact.starts _ isChunk
    · exact intact.start_frame agree member (intact.apart_of_ne member isChunk same)
  · intro isLive
    rcases List.mem_map.mp isLive with ⟨allocation, member, same⟩
    exact notLive allocation member same
  · intro allocation member
    rcases List.mem_cons.mp member with rfl | isLive
    · refine ⟨isWord, fun _ => ⟨isChunk, ?_⟩, fun huge => absurd rfl (notHuge _ huge)⟩
      change heap.words (head + 8) = head + 16 + size
      rw [isWords, Function.update_of_ne (by omega), Function.update_self]
    · exact intact.held_frame agree isLive
        (intact.chunk_apart isChunk isLive (notLive _ isLive)).symm (List.Subset.refl _)
  · intro allocation member other also different huge otherHuge
    exact intact.mappings _ ((List.mem_cons.mp member).resolve_left (notHuge _ huge)) _
      ((List.mem_cons.mp also).resolve_left (notHuge _ otherHuge)) different huge otherHuge
  · -- The bucket's list starts one further, all others are as they were.
    intro other
    refine intact.chain_frame agree other ?_ fun fatPtr member => ?_
    · change Chain (nextFree state.heap) 0
        (Function.update state.heap.freeListHeads (sizeClass size) (nextFree state.heap head) other) _
      by_cases same : other = sizeClass size
      · rw [same, Function.update_self, Function.update_self]
        exact chain
      · rw [Function.update_of_ne same, Function.update_of_ne same]
        exact intact.lists other
    · rcases intact.mem_rest isList member with ⟨alsoDead, different⟩
      have alsoChunk := (intact.isDead _ _ alsoDead).1
      exact ⟨alsoChunk, intact.apart_of_ne alsoChunk isChunk different⟩
  · intro other fatPtr member
    rcases intact.mem_rest isList member with ⟨alsoDead, different⟩
    refine ⟨(intact.isDead _ _ alsoDead).1, fun allocation isLive => ?_⟩
    rcases List.mem_cons.mp isLive with rfl | earlier
    · exact different.symm
    · exact (intact.isDead _ _ alsoDead).2 allocation earlier

theorem of_bumpBlock (intact : Intact base dead state) {bucket size fatPtr : Nat} {heap : Heap}
    (inRange : bucket ≤ MAX_CLASS) (room : size ≤ classSize bucket)
    (bumps : state.heap.bumpBlock bucket size = some (fatPtr, heap)) :
    fatPtr = state.heap.heapCurr ∧
      heap.words = Function.update (Function.update state.heap.words fatPtr (fatPtr + 16))
        (fatPtr + 8) (fatPtr + 16 + size) ∧
      heap.heapCurr = fatPtr + 16 + classSize bucket ∧
      heap.heapCurr ≤ base.first + HEAP_SIZE ∧
      heap.heapEnd = state.heap.heapEnd ∧ heap.freeListHeads = state.heap.freeListHeads := by
  have ends := intact.heapEnd
  have bump := intact.bump
  have fits := base.fits
  have small := classSize_le inRange
  have raw : iadd state.heap.heapCurr 16 = state.heap.heapCurr + 16 := iadd_eq (by omega)
  have rounded : alignDown (iadd (state.heap.heapCurr + 16) 15) 16 = state.heap.heapCurr + 16 := by
    rw [iadd_eq (by omega), alignDown]
    omega
  have endAddr : iadd (state.heap.heapCurr + 16) (classSize bucket) =
      state.heap.heapCurr + 16 + classSize bucket := iadd_eq (by omega)
  have visibleEnd : iadd (state.heap.heapCurr + 16) size = state.heap.heapCurr + 16 + size :=
    iadd_eq (by omega)
  simp only [Heap.bumpBlock, raw, rounded, endAddr, visibleEnd] at bumps
  split at bumps
  · rename_i inBounds
    cases bumps
    exact ⟨rfl, rfl, rfl, ends ▸ inBounds, rfl, rfl⟩
  · cases bumps

theorem bumpBlock_frame (intact : Intact base dead state) {bucket size fatPtr : Nat} {heap : Heap}
    (inRange : bucket ≤ MAX_CLASS) (room : size ≤ classSize bucket)
    (bumps : state.heap.bumpBlock bucket size = some (fatPtr, heap)) :
    AgreeOutside (Chunk.space ⟨fatPtr, bucket⟩) state.heap.words heap.words := by
  rw [(intact.of_bumpBlock inRange room bumps).2.1]
  exact (AgreeOutside.update (@Chunk.mem_space ⟨fatPtr, bucket⟩ 0 (Nat.zero_le 16)) _).trans
    (AgreeOutside.update (Chunk.mem_space (by decide)) _)

theorem bump_block (intact : Intact base dead state) {size fatPtr : Nat} {heap : Heap}
    (isWord : size < 2 ^ 64) (inRange : sizeClass size ≤ MAX_CLASS)
    (bumps : state.heap.bumpBlock (sizeClass size) size = some (fatPtr, heap)) :
    Intact base dead (state.record ⟨fatPtr, size⟩ heap) := by
  rcases intact.of_bumpBlock inRange (le_classSize isWord) bumps with
    ⟨rfl, isWords, curr, inHeap, sameEnd, sameHeads⟩
  let added : Chunk := ⟨state.heap.heapCurr, sizeClass size⟩
  have positive := classSize_pos (sizeClass size)
  have isRecord : state.record ⟨state.heap.heapCurr, size⟩ heap =
      ⟨heap, ⟨state.heap.heapCurr, size⟩ :: state.live, added :: state.chunks⟩ := by
    rw [BucketState.record, if_neg]
    · rfl
    · omega
  have agree : AgreeOutside added.space state.heap.words heap.words :=
    intact.bumpBlock_frame inRange (le_classSize isWord) bumps
  have addedWithin : added.space.Within ⟨base.first, heap.heapCurr⟩ :=
    ⟨intact.bump.1, Nat.le_of_eq curr.symm⟩
  have apartFromAdded : ∀ chunk ∈ state.chunks, chunk.space.Apart added.space := by
    intro chunk member
    exact .inl ((intact.inside chunk member).2)
  have notHuge : ∀ allocation : Allocation, allocation.isHuge = true →
      allocation ≠ ⟨state.heap.heapCurr, size⟩ := by
    rintro allocation huge rfl
    rw [Allocation.isHuge_iff] at huge
    exact absurd inRange (Nat.not_le.mpr huge)
  have liveApart : ∀ allocation ∈ state.live, allocation.space.Apart added.space := by
    intro allocation member
    cases isHuge : allocation.isHuge with
    | false =>
        rw [Allocation.space_small isHuge]
        exact apartFromAdded _ ((intact.held _ member).small isHuge).1
    | true =>
        rw [Allocation.space_huge isHuge]
        have outside := ((intact.held _ member).huge isHuge).2.2.2.2
        exact (outside.symm.within (addedWithin.trans ⟨Nat.le_refl _, inHeap⟩)).symm
  have isNew : ∀ chunk ∈ state.chunks, chunk.fatPtr ≠ state.heap.heapCurr := by
    intro chunk member same
    have inside := (apartFromAdded chunk member).notMem (Chunk.mem_space (Nat.zero_le 16))
    exact inside (same ▸ @Chunk.mem_space added 0 (Nat.zero_le _))
  rw [isRecord]
  refine {
    heapEnd := sameEnd.trans intact.heapEnd
    bump := ⟨?_, inHeap, ?_⟩
    inRange := ?_
    inside := ?_
    apart := ?_
    starts := ?_
    once := List.nodup_cons.mpr ⟨?_, intact.once⟩
    held := ?_
    mappings := ?_
    lists := ?_
    isDead := ?_ }
  · have below := intact.bump.1
    dsimp only
    omega
  · dsimp only
    rw [curr]
    exact Nat.dvd_add (Nat.dvd_add intact.bump.2.2 (by decide)) (sixteen_dvd_classSize _)
  · intro chunk member
    rcases List.mem_cons.mp member with rfl | earlier
    · exact inRange
    · exact intact.inRange chunk earlier
  · intro chunk member
    rcases List.mem_cons.mp member with rfl | earlier
    · exact addedWithin
    · have inside := intact.inside chunk earlier
      refine ⟨inside.1, Nat.le_trans inside.2 ?_⟩
      dsimp only
      omega
  · intro chunk member other also different
    rcases List.mem_cons.mp member with rfl | earlier
    · rcases List.mem_cons.mp also with rfl | alsoEarlier
      · exact absurd rfl different
      · exact (apartFromAdded other alsoEarlier).symm
    · rcases List.mem_cons.mp also with rfl | alsoEarlier
      · exact apartFromAdded chunk earlier
      · exact intact.apart chunk earlier other alsoEarlier different
  · intro chunk member
    rcases List.mem_cons.mp member with rfl | earlier
    · change heap.words state.heap.heapCurr = state.heap.heapCurr + 16
      rw [isWords, Function.update_of_ne (by omega), Function.update_self]
    · exact intact.start_frame agree earlier (apartFromAdded chunk earlier)
  · intro isLive
    rcases List.mem_map.mp isLive with ⟨allocation, member, same⟩
    have outside := (liveApart allocation member).notMem (intact.held _ member).fatPtr_mem
    rw [same] at outside
    exact outside (@Chunk.mem_space added 0 (Nat.zero_le _))
  · intro allocation member
    rcases List.mem_cons.mp member with rfl | isLive
    · refine ⟨isWord, fun _ => ⟨List.mem_cons_self, ?_⟩, fun huge => absurd rfl (notHuge _ huge)⟩
      change heap.words (state.heap.heapCurr + 8) = state.heap.heapCurr + 16 + size
      rw [isWords, Function.update_self]
    · exact intact.held_frame agree isLive (liveApart _ isLive) (List.subset_cons_self _ _)
  · intro allocation member other also different huge otherHuge
    exact intact.mappings _ ((List.mem_cons.mp member).resolve_left (notHuge _ huge)) _
      ((List.mem_cons.mp also).resolve_left (notHuge _ otherHuge)) different huge otherHuge
  · intro bucket
    dsimp only
    rw [sameHeads]
    refine intact.chain_frame agree bucket (intact.lists bucket) fun other member => ?_
    have isChunk := (intact.isDead _ _ member).1
    exact ⟨isChunk, apartFromAdded _ isChunk⟩
  · intro bucket other member
    rcases intact.isDead _ _ member with ⟨isChunk, notLive⟩
    refine ⟨List.mem_cons_of_mem _ isChunk, fun allocation isLive => ?_⟩
    rcases List.mem_cons.mp isLive with rfl | earlier
    · exact (isNew _ isChunk).symm
    · exact notLive allocation earlier

theorem words_hugeBlock (heap : Heap) {size mmapAddr : Nat} (fits : mmapAddr + mmapSize size < 2 ^ 63) :
    (heap.hugeBlock size mmapAddr).2.words = Function.update
      (Function.update heap.words mmapAddr (mmapAddr + 32)) (mmapAddr + 8)
      (mmapAddr + mmapSize size) := by
  change Function.update (Function.update heap.words mmapAddr (iadd mmapAddr 32)) (mmapAddr + 8)
    (iadd mmapAddr (mmapSize size)) = _
  rw [iadd_eq (by omega), iadd_eq (by omega)]

theorem hugeBlock_frame (heap : Heap) {size mmapAddr : Nat} (nonempty : 0 < mmapSize size)
    (fits : mmapAddr + mmapSize size < 2 ^ 63) :
    AgreeOutside ⟨mmapAddr, mmapAddr + mmapSize size⟩ heap.words
      (heap.hugeBlock size mmapAddr).2.words := by
  let added : Allocation := ⟨mmapAddr, size⟩
  rw [words_hugeBlock heap fits]
  exact (AgreeOutside.update (added.mem_mapping nonempty (Nat.zero_le 16)) _).trans
    (AgreeOutside.update (added.mem_mapping nonempty (by decide)) _)

theorem map (intact : Intact base dead state) {size mmapAddr : Nat} (isWord : size < 2 ^ 64)
    (huge : MAX_CLASS < sizeClass size)
    (maps : state.Maps base ⟨mmapAddr, mmapAddr + mmapSize size⟩) :
    Intact base dead (state.record ⟨mmapAddr, size⟩ (state.heap.hugeBlock size mmapAddr).2) := by
  let added : Allocation := ⟨mmapAddr, size⟩
  let heap := (state.heap.hugeBlock size mmapAddr).2
  have nonempty : 0 < mmapSize size := by
    have ordered := maps.nonempty
    dsimp only at ordered
    omega
  have atLeast := mmapSize_ge nonempty
  have fits := maps.fits
  dsimp only at fits
  have isHuge : added.isHuge = true := Allocation.isHuge_iff.mpr huge
  have isWords : heap.words = Function.update
      (Function.update state.heap.words mmapAddr (mmapAddr + 32)) (mmapAddr + 8)
      (mmapAddr + mmapSize size) := words_hugeBlock state.heap (by omega)
  have agree : AgreeOutside added.mapping state.heap.words heap.words :=
    hugeBlock_frame state.heap nonempty (Nat.lt_of_le_of_lt fits (by decide))
  have isRecord : state.record added heap = ⟨heap, added :: state.live, state.chunks⟩ := by
    rw [BucketState.record, if_pos]
    rfl
  have chunksApart : ∀ chunk ∈ state.chunks, chunk.space.Apart added.mapping := by
    intro chunk member
    exact maps.heap.symm.within (intact.chunk_within member)
  have liveApart : ∀ allocation ∈ state.live, allocation.space.Apart added.mapping := by
    intro allocation member
    cases otherHuge : allocation.isHuge with
    | false =>
        rw [Allocation.space_small otherHuge]
        exact chunksApart _ ((intact.held _ member).small otherHuge).1
    | true =>
        rw [Allocation.space_huge otherHuge]
        exact (maps.others _ member otherHuge).symm
  have fatPtrInside := added.mem_mapping nonempty (Nat.zero_le 16)
  change Intact base dead (state.record added heap)
  rw [isRecord]
  refine {
    heapEnd := intact.heapEnd
    bump := intact.bump
    inRange := intact.inRange
    inside := intact.inside
    apart := intact.apart
    starts := ?_
    once := List.nodup_cons.mpr ⟨?_, intact.once⟩
    held := ?_
    mappings := ?_
    lists := ?_
    isDead := ?_ }
  · intro chunk member
    exact intact.start_frame agree member (chunksApart chunk member)
  · intro isLive
    rcases List.mem_map.mp isLive with ⟨allocation, member, same⟩
    have outside := (liveApart allocation member).notMem (intact.held _ member).fatPtr_mem
    rw [same] at outside
    exact outside fatPtrInside
  · intro allocation member
    rcases List.mem_cons.mp member with rfl | isLive
    · refine ⟨isWord, fun small => absurd isHuge ?_, fun _ => ⟨?_, ?_, nonempty, fits, maps.heap⟩⟩
      · rw [small]
        exact Bool.false_ne_true
      · change heap.words mmapAddr = mmapAddr + 32
        rw [isWords, Function.update_of_ne (by omega), Function.update_self]
      · change heap.words (mmapAddr + 8) = mmapAddr + mmapSize size
        rw [isWords, Function.update_self]
    · exact intact.held_frame agree isLive (liveApart _ isLive) (List.Subset.refl _)
  · intro allocation member other also different allocationHuge otherHuge
    rcases List.mem_cons.mp member with rfl | isLive
    · rcases List.mem_cons.mp also with rfl | alsoLive
      · exact absurd rfl different
      · exact maps.others _ alsoLive otherHuge
    · rcases List.mem_cons.mp also with rfl | alsoLive
      · exact (maps.others _ isLive allocationHuge).symm
      · exact intact.mappings _ isLive _ alsoLive different allocationHuge otherHuge
  · intro bucket
    refine intact.chain_frame agree bucket (intact.lists bucket) fun fatPtr member => ?_
    have isChunk := (intact.isDead _ _ member).1
    exact ⟨isChunk, chunksApart _ isChunk⟩
  · intro bucket fatPtr member
    rcases intact.isDead _ _ member with ⟨isChunk, notLive⟩
    refine ⟨isChunk, fun allocation isLive => ?_⟩
    rcases List.mem_cons.mp isLive with rfl | earlier
    · rintro rfl
      exact (chunksApart _ isChunk).notMem (Chunk.mem_space (Nat.zero_le 16)) fatPtrInside
    · exact notLive allocation earlier

/-! ## Freeing -/

/-- Less may be held. -/
theorem sublist (intact : Intact base dead state) {live : List Allocation}
    (fewer : live.Sublist state.live) : Intact base dead { state with live := live } where
  heapEnd := intact.heapEnd
  bump := intact.bump
  inRange := intact.inRange
  inside := intact.inside
  apart := intact.apart
  starts := intact.starts
  once := intact.once.sublist (fewer.map _)
  held allocation member :=
    (intact.held _ (fewer.subset member)).frame (fun _ _ => rfl) (List.Subset.refl _)
  mappings allocation member other also :=
    intact.mappings _ (fewer.subset member) _ (fewer.subset also)
  lists := intact.lists
  isDead bucket fatPtr member := by
    rcases intact.isDead bucket fatPtr member with ⟨isChunk, notLive⟩
    exact ⟨isChunk, fun allocation isLive => notLive _ (fewer.subset isLive)⟩

/-- What `push_block` and `madvise` do to memory: they keep the fat pointer and link it to
the head of the list. -/
theorem words_pushBlock (intact : Intact base dead state) {fatPtr bucket : Nat}
    (isChunk : ⟨fatPtr, bucket⟩ ∈ state.chunks) {heap : Heap}
    (isHeap : heap = state.heap.pushBlock bucket fatPtr (fatPtr + 16)) :
    AgreeOutside (Chunk.space ⟨fatPtr, bucket⟩) state.heap.words heap.words ∧
      heap.words fatPtr = fatPtr + 16 ∧ heap.words (fatPtr + 16) = state.heap.freeListHeads bucket ∧
      heap.heapCurr = state.heap.heapCurr ∧ heap.heapEnd = state.heap.heapEnd ∧
      heap.freeListHeads = Function.update state.heap.freeListHeads bucket fatPtr := by
  have starts : state.heap.words fatPtr = fatPtr + 16 := intact.starts _ isChunk
  have fits := intact.chunk_fits isChunk
  change fatPtr + 16 + classSize bucket ≤ 2 ^ 47 at fits
  rcases @Heap.pushBlock_eq state.heap bucket fatPtr (fatPtr + 16) fits with ⟨addr, length, behind, before, isPush⟩
  have link : ∀ word, heap.words word = if addr ≤ word ∧ word < addr + length then 0 else
      Function.update state.heap.words (fatPtr + 16) (state.heap.freeListHeads bucket) word := by
    intro word
    rw [isHeap, isPush]
    rfl
  refine ⟨fun word outside => ?_, ?_, ?_, ?_⟩
  · rw [link, if_neg]
    · exact AgreeOutside.update (Chunk.mem_space (Nat.le_refl 16)) _ word outside
    · rintro ⟨above, below⟩
      refine outside ⟨?_, ?_⟩
      · dsimp only [Chunk.space]
        omega
      · dsimp only [Chunk.space]
        omega
  · rw [link, if_neg (by omega), Function.update_of_ne (by omega), starts]
  · rw [link, if_neg (by omega), Function.update_self]
  · rw [isHeap, isPush]
    exact ⟨rfl, rfl, rfl⟩

theorem push (intact : Intact base dead state) {allocation : Allocation}
    (member : allocation ∈ state.live) (small : allocation.isHuge = false) :
    ∃ later, Intact base later { state with
      heap := state.heap.pushBlock allocation.bucket allocation.fatPtr (allocation.fatPtr + 16)
      live := state.live.erase allocation } := by
  have isChunk := ((intact.held _ member).small small).1
  rcases intact.words_pushBlock isChunk rfl with ⟨agree, starts, link, sameCurr, sameEnd, heads⟩
  let bucket := allocation.bucket
  let heap := state.heap.pushBlock bucket allocation.fatPtr (allocation.fatPtr + 16)
  have once := intact.once.of_map
  have isLive : ∀ other ∈ state.live.erase allocation,
      other ∈ state.live ∧ other.fatPtr ≠ allocation.fatPtr := by
    intro other isOther
    rw [once.mem_erase_iff] at isOther
    exact ⟨isOther.2, fun same => isOther.1 (intact.live_unique isOther.2 member same)⟩
  have notDead : ∀ other, ∀ fatPtr ∈ dead other, fatPtr ≠ allocation.fatPtr :=
    fun other fatPtr isDead => ((intact.isDead other fatPtr isDead).2 _ member).symm
  refine ⟨Function.update dead bucket (allocation.fatPtr :: dead bucket), {
    heapEnd := sameEnd.trans intact.heapEnd
    bump := ?_
    inRange := intact.inRange
    inside := ?_
    apart := intact.apart
    starts := ?_
    once := intact.once.sublist (List.erase_sublist.map _)
    held := ?_
    mappings := ?_
    lists := ?_
    isDead := ?_ }⟩
  · dsimp only
    rw [sameCurr]
    exact intact.bump
  · dsimp only
    rw [sameCurr]
    exact intact.inside
  · intro chunk chunkMember
    by_cases same : chunk.fatPtr = allocation.fatPtr
    · rw [same]
      exact starts
    · exact intact.start_frame agree chunkMember (intact.apart_of_ne chunkMember isChunk same)
  · intro other isOther
    rcases isLive other isOther with ⟨wasLive, different⟩
    exact intact.held_frame agree wasLive (intact.chunk_apart isChunk wasLive different).symm
      (List.Subset.refl _)
  · intro other isOther another isAnother
    exact intact.mappings _ (isLive _ isOther).1 _ (isLive _ isAnother).1
  · -- The chunk is the new head of its list, all other lists are as they were.
    intro other
    have others : Chain (nextFree heap) 0 (state.heap.freeListHeads other) (dead other) := by
      refine intact.chain_frame agree other (intact.lists other) fun fatPtr isDead => ?_
      have alsoChunk := (intact.isDead _ _ isDead).1
      exact ⟨alsoChunk, intact.apart_of_ne alsoChunk isChunk (notDead _ _ isDead)⟩
    change Chain (nextFree heap) 0 (heap.freeListHeads other) _
    rw [heads]
    by_cases same : other = bucket
    · subst same
      rw [Function.update_self, Function.update_self]
      refine others.push ?_ ?_
      · have inside := (intact.inside _ isChunk).1
        have positive := base.positive
        change base.first ≤ allocation.fatPtr at inside
        omega
      · change heap.words (heap.words allocation.fatPtr) = _
        rw [starts, link]
    · rw [Function.update_of_ne same, Function.update_of_ne same]
      exact others
  · intro other fatPtr isDead
    by_cases same : other = bucket ∧ fatPtr = allocation.fatPtr
    · rw [same.1, same.2]
      exact ⟨isChunk, fun other isOther => (isLive other isOther).2⟩
    · have wasDead : fatPtr ∈ dead other := by
        by_cases isBucket : other = bucket
        · subst isBucket
          rw [Function.update_self] at isDead
          exact (List.mem_cons.mp isDead).resolve_left fun isNew => same ⟨rfl, isNew⟩
        · rwa [Function.update_of_ne isBucket] at isDead
      rcases intact.isDead _ _ wasDead with ⟨alsoChunk, notLive⟩
      exact ⟨alsoChunk, fun other isOther => notLive _ (isLive other isOther).1⟩

/-! ## Writing -/

/-- The invariant is one of the fat pointers and of the dead chunks. -/
theorem rewrite (intact : Intact base dead state) {words : Words}
    (starts : ∀ chunk ∈ state.chunks, words chunk.fatPtr = state.heap.words chunk.fatPtr)
    (headers : ∀ allocation ∈ state.live,
      words allocation.fatPtr = state.heap.words allocation.fatPtr ∧
      words (allocation.fatPtr + 8) = state.heap.words (allocation.fatPtr + 8))
    (deadWords : ∀ bucket, ∀ fatPtr ∈ dead bucket, ∀ addr ∈ Chunk.space ⟨fatPtr, bucket⟩,
      words addr = state.heap.words addr) :
    Intact base dead { state with heap := { state.heap with words := words } } where
  heapEnd := intact.heapEnd
  bump := intact.bump
  inRange := intact.inRange
  inside := intact.inside
  apart := intact.apart
  starts chunk member := (starts chunk member).trans (intact.starts chunk member)
  once := intact.once
  held allocation member := by
    have held := intact.held _ member
    rcases headers allocation member with ⟨first, second⟩
    refine ⟨held.isWord, fun small => ?_, fun huge => ?_⟩
    · rcases held.small small with ⟨isChunk, ends⟩
      exact ⟨isChunk, second.trans ends⟩
    · rcases held.huge huge with ⟨starts, ends, nonempty, fits, outside⟩
      exact ⟨first.trans starts, second.trans ends, nonempty, fits, outside⟩
  mappings := intact.mappings
  lists bucket := by
    refine (intact.lists bucket).congr fun fatPtr member => ?_
    exact intact.nextFree_congr (intact.isDead _ _ member).1 (deadWords bucket fatPtr member)
  isDead := intact.isDead

/-- Callers that keep to their payloads change no fat pointer and no link. -/
theorem write (intact : Intact base dead state) {words : Words}
    (keeps : ∀ addr, (∀ allocation ∈ state.live, addr ∉ allocation.region state.heap) →
      words addr = state.heap.words addr) :
    Intact base dead { state with heap := { state.heap with words := words } } := by
  have ownWord : ∀ allocation ∈ state.live, ∀ offset < 16,
      allocation.fatPtr + offset ∈ allocation.space →
      words (allocation.fatPtr + offset) = state.heap.words (allocation.fatPtr + offset) := by
    intro allocation member offset inHeader inSpace
    refine keeps _ fun other isOther inRegion => ?_
    rcases intact.region_within isOther with ⟨within, behind⟩
    by_cases same : allocation = other
    · subst same
      have first := inRegion.1
      omega
    · exact (intact.live_apart member isOther same).notMem inSpace (within.mem inRegion)
  apply intact.rewrite
  · intro chunk member
    have inSpace := @Chunk.mem_space chunk 0 (Nat.zero_le 16)
    refine keeps _ fun other isOther inRegion => ?_
    rcases intact.region_within isOther with ⟨within, behind⟩
    by_cases same : other.fatPtr = chunk.fatPtr
    · have first := inRegion.1
      omega
    · exact (intact.chunk_apart member isOther same).notMem inSpace (within.mem inRegion)
  · intro allocation member
    exact ⟨ownWord _ member 0 (by decide) (intact.mem_space member (by decide)),
      ownWord _ member 8 (by decide) (intact.mem_space member (by decide))⟩
  · intro bucket fatPtr isDead addr inSpace
    refine keeps _ fun other isOther inRegion => ?_
    rcases intact.isDead _ _ isDead with ⟨isChunk, notLive⟩
    exact (intact.chunk_apart isChunk isOther (notLive _ isOther)).notMem inSpace
      ((intact.region_within isOther).1.mem inRegion)

end Intact

end LakeNative.Allocators

import LakeNative.Allocators.AllocationFrame

/-! # What programs do with live memory

A program moves the start of an arena and of a buffer that it has written from the back, and
trims the end of another, all in the fat pointers. The allocator does not look at live memory
before it is freed, and stays intact beside it.
-/

namespace LakeNative.Allocators

open LakeNative.Runtime LakeNative.Regions

variable {base : HeapRegion} {state : BucketState} {dead : Nat → List Nat}
  {moved : List Allocation}

def BucketState.withWords (state : BucketState) (words : Words) : BucketState :=
  { state with heap := { state.heap with words := words } }

/-- The allocator is intact, but for what is in the memory of some live allocations. -/
structure IntactBut (base : HeapRegion) (moved : List Allocation) (state : BucketState) : Prop where
  areLive : moved ⊆ state.live
  shadow : ∃ dead words, Intact base dead (state.withWords words) ∧
    ∀ addr, (∀ allocation ∈ moved, addr ∉ allocation.space) → state.heap.words addr = words addr

/-! ## Calls on other words -/

/-- Whether there is room does not depend on what is in memory. -/
theorem allocateRaw_none (heap : Heap) (words : Words) {size mmapAddr : Nat}
    (fails : heap.allocateRaw size mmapAddr = none) :
    Heap.allocateRaw { heap with words := words } size mmapAddr = none := by
  simp only [Heap.allocateRaw] at fails ⊢
  by_cases inRange : sizeClass size ≤ MAX_CLASS
  · rw [if_pos inRange] at fails ⊢
    by_cases hasFree : heap.freeListHeads (sizeClass size) ≠ 0
    · rw [if_pos hasFree] at fails
      cases fails
    · rw [if_neg hasFree] at fails ⊢
      simp only [Heap.bumpBlock] at fails ⊢
      split at fails
      · cases fails
      · exact if_neg ‹_›
  · rw [if_neg inRange] at fails
    cases fails

/-- The same word is written to two memories. -/
theorem update_congr {words other : Words} {addr : Nat} (same : words addr = other addr)
    (word value : Nat) :
    Function.update words word value addr = Function.update other word value addr := by
  rw [Function.update_apply, Function.update_apply, same]

theorem popBlock_eq (heap : Heap) (bucket size : Nat) {head : Nat}
    (start : heap.words head = head + 16) :
    heap.popBlock bucket size head = (head, { heap with
      words := Function.update (Function.update heap.words (head + 8) (iadd (head + 16) size))
        (head + 16) 0
      freeListHeads := Function.update heap.freeListHeads bucket (heap.words (head + 16)) }) := by
  have loaded : heap.load head = head + 16 := start
  simp only [Heap.popBlock, loaded]
  rfl

/-- What is pushed is linked in its payload. -/
theorem pushBlock_frame (heap : Heap) {bucket payloadStart : Nat} (fatPtr : Nat)
    (fits : payloadStart + classSize bucket ≤ 2 ^ 47) :
    AgreeOutside ⟨payloadStart, payloadStart + classSize bucket⟩ heap.words
      (heap.pushBlock bucket fatPtr payloadStart).words := by
  have room := classSize_pos bucket
  rcases @Heap.pushBlock_eq heap bucket fatPtr payloadStart fits with
    ⟨addr, length, behind, before, isPush⟩
  rw [isPush]
  intro word outside
  rw [Region.mem_mk] at outside
  apply (if_neg (by omega)).trans
  exact Function.update_of_ne (by omega) _ _

theorem pushBlock_congr (heap : Heap) (words : Words) (bucket fatPtr payloadStart : Nat) :
    ∃ later, Heap.pushBlock { heap with words := words } bucket fatPtr payloadStart =
        { heap.pushBlock bucket fatPtr payloadStart with words := later } ∧
      ∀ addr, words addr = heap.words addr →
        later addr = (heap.pushBlock bucket fatPtr payloadStart).words addr := by
  unfold Heap.pushBlock
  dsimp only
  split
  · refine ⟨_, rfl, fun addr same => ?_⟩
    simp only [Heap.advise, Heap.words_setHead, Heap.words_store, update_congr same]
  · exact ⟨_, rfl, fun addr same => update_congr same _ _⟩

theorem free_split (heap : Heap) (fatPtr : Nat) : heap.free fatPtr =
    if sizeClass (isub (heap.load (fatPtr + 8)) (heap.load fatPtr)) ≤ MAX_CLASS then
      (.pushed (sizeClass (isub (heap.load (fatPtr + 8)) (heap.load fatPtr))),
        heap.pushBlock (sizeClass (isub (heap.load (fatPtr + 8)) (heap.load fatPtr))) fatPtr
          (heap.load fatPtr))
    else
      (.unmapped fatPtr (isub (heap.load (fatPtr + 8)) fatPtr), heap) := by
  rw [Heap.free]

/-- The header says what is done with the memory behind it. -/
theorem free_eq (heap : Heap) (words : Words) {fatPtr : Nat}
    (start : Heap.load { heap with words := words } fatPtr = heap.load fatPtr)
    (stop : Heap.load { heap with words := words } (fatPtr + 8) = heap.load (fatPtr + 8)) :
    Heap.free { heap with words := words } fatPtr =
      match (heap.free fatPtr).1 with
      | .pushed bucket => (.pushed bucket,
          Heap.pushBlock { heap with words := words } bucket fatPtr (heap.load fatPtr))
      | .unmapped addr length => (.unmapped addr length, { heap with words := words }) := by
  rw [free_split, free_split heap, start, stop]
  generalize sizeClass (isub (heap.load (fatPtr + 8)) (heap.load fatPtr)) = bucket
  by_cases inRange : bucket ≤ MAX_CLASS
  · rw [if_pos inRange, if_pos inRange]
  · rw [if_neg inRange, if_neg inRange]

namespace Intact

/-- A call does the same when the memory of live allocations is another. -/
theorem allocateRaw_congr (intact : Intact base dead state) {words : Words}
    (same : ∀ addr, (∀ allocation ∈ state.live, addr ∉ allocation.space) →
      words addr = state.heap.words addr)
    {size mmapAddr fatPtr : Nat} {heap : Heap} (isWord : size < 2 ^ 64)
    (maps : MAX_CLASS < sizeClass size → state.Maps base ⟨mmapAddr, mmapAddr + mmapSize size⟩)
    (allocates : state.heap.allocateRaw size mmapAddr = some (fatPtr, heap)) :
    ∃ later, Heap.allocateRaw { state.heap with words := words } size mmapAddr =
        some (fatPtr, { heap with words := later }) ∧
      (∀ addr, words addr = state.heap.words addr → later addr = heap.words addr) ∧
      AgreeOutside (Allocation.space ⟨fatPtr, size⟩) words later := by
  rcases intact.allocate_spec isWord maps allocates with ⟨⟨later, afterwards⟩, -⟩
  have isNew : ⟨fatPtr, size⟩ ∈ (state.record ⟨fatPtr, size⟩ heap).live := List.mem_cons_self
  have inSpace : ∀ offset ≤ 16, fatPtr + offset ∈ Allocation.space ⟨fatPtr, size⟩ :=
    fun offset inside => afterwards.mem_space isNew inside
  have unseen : ∀ offset ≤ 16, words (fatPtr + offset) = state.heap.words (fatPtr + offset) := by
    intro offset inside
    apply same
    intro allocation member
    have apart := afterwards.live_apart isNew (List.mem_cons_of_mem _ member)
      (record_fresh afterwards member).symm
    exact apart.notMem (inSpace offset inside)
  have first : words fatPtr = state.heap.words fatPtr := unseen 0 (by decide)
  simp only [Heap.allocateRaw] at allocates ⊢
  by_cases inRange : sizeClass size ≤ MAX_CLASS
  · rw [if_pos inRange] at allocates ⊢
    by_cases hasFree : state.heap.freeListHeads (sizeClass size) ≠ 0
    · rw [if_pos hasFree] at allocates ⊢
      rcases (intact.lists (sizeClass size)).exists_cons hasFree with ⟨rest, isList, -⟩
      have start : state.heap.words (state.heap.freeListHeads (sizeClass size)) =
          state.heap.freeListHeads (sizeClass size) + 16 :=
        intact.starts _ (intact.isDead _ _ (isList ▸ List.mem_cons_self)).1
      rw [popBlock_eq _ _ _ start] at allocates
      cases allocates
      rw [popBlock_eq _ _ _ (first.trans start)]
      dsimp only
      rw [unseen 16 (by decide)]
      refine ⟨_, rfl, fun addr kept => update_congr (update_congr kept _ _) _ _, ?_⟩
      exact (AgreeOutside.update (inSpace 8 (by decide)) _).trans
        (AgreeOutside.update (inSpace 16 (by decide)) _)
    · rw [if_neg hasFree] at allocates ⊢
      simp only [Heap.bumpBlock] at allocates ⊢
      split at allocates
      · rename_i fits
        cases allocates
        rw [if_pos fits]
        refine ⟨_, rfl, fun addr kept => update_congr (update_congr kept _ _) _ _, ?_⟩
        exact (AgreeOutside.update (inSpace 0 (by decide)) _).trans
          (AgreeOutside.update (inSpace 8 (by decide)) _)
      · cases allocates
  · rw [if_neg inRange] at allocates ⊢
    cases allocates
    refine ⟨_, rfl, fun addr kept => update_congr (update_congr kept _ _) _ _, ?_⟩
    exact (AgreeOutside.update (inSpace 0 (by decide)) _).trans
      (AgreeOutside.update (inSpace 8 (by decide)) _)

end Intact

namespace IntactBut

/-! ## What stays of the invariant -/

theorem of_intact (intact : Intact base dead state) : IntactBut base [] state :=
  ⟨List.nil_subset _, dead, state.heap.words, intact, fun _ _ => rfl⟩

theorem mono {more : List Allocation} (but : IntactBut base moved state) (wider : moved ⊆ more)
    (areLive : more ⊆ state.live) : IntactBut base more state := by
  rcases but.shadow with ⟨dead, words, intact, same⟩
  exact ⟨areLive, dead, words, intact, fun addr outside =>
    same addr fun allocation isMoved => outside allocation (wider isMoved)⟩

theorem live_apart (but : IntactBut base moved state) {allocation other : Allocation}
    (member : allocation ∈ state.live) (also : other ∈ state.live) (different : allocation ≠ other) :
    allocation.space.Apart other.space := by
  rcases but.shadow with ⟨dead, words, intact, -⟩
  exact intact.live_apart member also different

theorem mem_space (but : IntactBut base moved state) {allocation : Allocation}
    (member : allocation ∈ state.live) {offset : Nat} (inside : offset ≤ 16) :
    allocation.fatPtr + offset ∈ allocation.space := by
  rcases but.shadow with ⟨dead, words, intact, -⟩
  exact intact.mem_space member inside

theorem space_fits (but : IntactBut base moved state) {allocation : Allocation}
    (member : allocation ∈ state.live) : allocation.space.stop ≤ 2 ^ 47 := by
  rcases but.shadow with ⟨dead, words, intact, -⟩
  exact intact.space_fits member

/-- What an allocation that is not moved holds is as the allocator left it. -/
theorem unmoved (but : IntactBut base moved state) : ∃ dead words,
    Intact base dead (state.withWords words) ∧
      (∀ addr, (∀ allocation ∈ moved, addr ∉ allocation.space) →
        state.heap.words addr = words addr) ∧
      ∀ allocation ∈ state.live, allocation ∉ moved →
        (∀ addr ∈ allocation.space, state.heap.words addr = words addr) ∧
        allocation.region state.heap = allocation.region (state.withWords words).heap := by
  rcases but.shadow with ⟨dead, words, intact, same⟩
  refine ⟨dead, words, intact, same, fun allocation member isUnmoved => ?_⟩
  have inSpace : ∀ addr ∈ allocation.space, state.heap.words addr = words addr := by
    intro addr inside
    apply same
    intro other isMoved
    have different : allocation ≠ other := by
      rintro rfl
      exact isUnmoved isMoved
    exact (intact.live_apart member (but.areLive isMoved) different).notMem inside
  have first := inSpace _ (intact.mem_space member (Nat.zero_le 16))
  have second := inSpace _ (intact.mem_space member (by decide : 8 ≤ 16))
  refine ⟨inSpace, ?_⟩
  simp only [Allocation.region, Heap.load, BucketState.withWords]
  rw [← second]
  rw [← (show state.heap.words allocation.fatPtr = words allocation.fatPtr from first)]

theorem region_within (but : IntactBut base moved state) {allocation : Allocation}
    (member : allocation ∈ state.live) (isUnmoved : allocation ∉ moved) :
    (allocation.region state.heap).Within allocation.space ∧
      allocation.fatPtr + 16 ≤ (allocation.region state.heap).first := by
  rcases but.unmoved with ⟨dead, words, intact, -, same⟩
  rw [(same allocation member isUnmoved).2]
  exact intact.region_within member

theorem region_room (but : IntactBut base moved state) {allocation : Allocation}
    (member : allocation ∈ state.live) (isUnmoved : allocation ∉ moved)
    (noOverflow : allocation.size < 2 ^ 64 - 31) :
    (allocation.region state.heap).first + allocation.size ≤
      (allocation.region state.heap).stop := by
  rcases but.unmoved with ⟨dead, words, intact, -, same⟩
  rw [(same allocation member isUnmoved).2]
  exact intact.region_room member noOverflow

/-- What was requested lies in the allocation, with the words that it begins and ends in. -/
theorem data (but : IntactBut base moved state) {allocation : Allocation}
    (member : allocation ∈ state.live) (isUnmoved : allocation ∉ moved)
    (noOverflow : allocation.size < 2 ^ 64 - 31) :
    state.heap.load allocation.fatPtr + allocation.size ≤ 2 ^ 47 ∧
      ∀ addr, alignDown (state.heap.load allocation.fatPtr) 8 ≤ addr →
        addr < state.heap.load allocation.fatPtr + allocation.size → addr ∈ allocation.space := by
  rcases but.region_within member isUnmoved with ⟨within, behind⟩
  have room := but.region_room member isUnmoved noOverflow
  have fits := but.space_fits member
  have fatIn := (but.mem_space member (Nat.zero_le 16)).1
  have stops := within.2
  have start : (allocation.region state.heap).first = state.heap.load allocation.fatPtr := rfl
  rw [start] at behind room
  refine ⟨by omega, fun addr above below => ?_⟩
  have rounded := lt_alignDown_add (state.heap.load allocation.fatPtr) (by decide : 0 < 8)
  rw [Region.mem_iff]
  omega

/-- The header of a small allocation that is not moved. -/
theorem header (but : IntactBut base moved state) {allocation : Allocation}
    (member : allocation ∈ state.live) (isUnmoved : allocation ∉ moved)
    (small : allocation.isHuge = false) :
    ⟨allocation.fatPtr, allocation.bucket⟩ ∈ state.chunks ∧
      state.heap.load allocation.fatPtr = allocation.fatPtr + 16 ∧
      state.heap.load (allocation.fatPtr + 8) = allocation.fatPtr + 16 + allocation.size := by
  rcases but.unmoved with ⟨dead, words, intact, -, same⟩
  have inSpace := (same allocation member isUnmoved).1
  rcases (intact.held _ member).small small with ⟨isChunk, ends⟩
  refine ⟨isChunk, ?_, ?_⟩
  · exact (inSpace _ (intact.mem_space member (Nat.zero_le 16))).trans
      (intact.load_start member small)
  · exact (inSpace _ (intact.mem_space member (by decide : 8 ≤ 16))).trans ends

/-! ## Steps -/

/-- An allocation is made beside what is live. -/
theorem allocate (but : IntactBut base moved state) {size mmapAddr fatPtr : Nat} {heap : Heap}
    (isWord : size < 2 ^ 64)
    (maps : MAX_CLASS < sizeClass size → state.Maps base ⟨mmapAddr, mmapAddr + mmapSize size⟩)
    (allocates : state.heap.allocateRaw size mmapAddr = some (fatPtr, heap)) :
    IntactBut base moved (state.record ⟨fatPtr, size⟩ heap) ∧
      (∀ other ∈ state.live, other ≠ ⟨fatPtr, size⟩) ∧
      AgreeOutside (Allocation.space ⟨fatPtr, size⟩) state.heap.words heap.words := by
  rcases but.shadow with ⟨dead, words, intact, same⟩
  have maps : MAX_CLASS < sizeClass size →
      (state.withWords words).Maps base ⟨mmapAddr, mmapAddr + mmapSize size⟩ := fun huge =>
    ⟨(maps huge).nonempty, (maps huge).positive, (maps huge).fits, (maps huge).heap,
      (maps huge).others⟩
  rcases found : (state.withWords words).heap.allocateRaw size mmapAddr with _ | ⟨newFat, shadow⟩
  · have fails : state.heap.allocateRaw size mmapAddr = none :=
      allocateRaw_none (state.withWords words).heap state.heap.words found
    rw [allocates] at fails
    cases fails
  · have outside : ∀ addr, (∀ allocation ∈ state.live, addr ∉ allocation.space) →
        state.heap.words addr = words addr := fun addr apart =>
      same addr fun allocation isMoved => apart allocation (but.areLive isMoved)
    rcases intact.allocateRaw_congr outside isWord maps found with ⟨later, result, kept, agree⟩
    have isResult : some (fatPtr, heap) = some (newFat, { shadow with words := later }) :=
      allocates.symm.trans result
    cases isResult
    rcases (intact.allocate_spec isWord maps found).1 with ⟨dead, afterwards⟩
    refine ⟨⟨fun _ isMoved => List.mem_cons_of_mem _ (but.areLive isMoved), dead, shadow.words,
      afterwards, fun addr apart => kept addr (same addr apart)⟩, ?_, agree⟩
    exact fun other member => record_fresh afterwards member

/-- A program writes to moved memory as it likes, and to what the others have room for. -/
theorem write (but : IntactBut base moved state) {words : Words}
    (keeps : ∀ addr, (∀ allocation ∈ moved, addr ∉ allocation.space) →
      (∀ allocation ∈ state.live, allocation ∉ moved → addr ∉ allocation.region state.heap) →
      words addr = state.heap.words addr) :
    IntactBut base moved (state.withWords words) := by
  rcases but.unmoved with ⟨dead, shadow, intact, outside, same⟩
  let mixed : Words := fun addr =>
    if ∃ allocation ∈ moved, addr ∈ allocation.space then shadow addr else words addr
  refine ⟨but.areLive, dead, mixed, ?_, ?_⟩
  · apply Intact.write intact
    intro addr notLive
    change mixed addr = shadow addr
    by_cases isMoved : ∃ allocation ∈ moved, addr ∈ allocation.space
    · exact if_pos isMoved
    · apply (if_neg isMoved).trans
      have apart : ∀ allocation ∈ moved, addr ∉ allocation.space := fun allocation member inside =>
        isMoved ⟨allocation, member, inside⟩
      refine (keeps addr apart fun allocation member isUnmoved => ?_).trans (outside addr apart)
      rw [(same allocation member isUnmoved).2]
      exact notLive allocation member
  · intro addr apart
    refine (if_neg ?_).symm
    rintro ⟨allocation, member, inside⟩
    exact apart allocation member inside

/-- What was not moved can be freed. -/
theorem free (but : IntactBut base moved state) {allocation : Allocation} {heap : Heap}
    (member : allocation ∈ state.live) (isUnmoved : allocation ∉ moved)
    (noOverflow : allocation.size < 2 ^ 64 - 31)
    (frees : (state.heap.free allocation.fatPtr).2 = heap) :
    IntactBut base moved { state with heap := heap, live := state.live.erase allocation } ∧
      AgreeOutside allocation.space state.heap.words heap.words := by
  rcases but.unmoved with ⟨dead, words, intact, outside, same⟩
  have inSpace := (same allocation member isUnmoved).1
  have isLive : allocation ∈ (state.withWords words).live := member
  have first : state.heap.words allocation.fatPtr = (state.withWords words).heap.words allocation.fatPtr :=
    inSpace _ (intact.mem_space isLive (Nat.zero_le 16))
  have second := inSpace _ (intact.mem_space isLive (by decide : 8 ≤ 16))
  rcases intact.free_spec isLive noOverflow with ⟨⟨later, afterwards⟩, -⟩
  have stillLive : moved ⊆ state.live.erase allocation := by
    intro other isMoved
    refine (List.mem_erase_of_ne ?_).mpr (but.areLive isMoved)
    rintro rfl
    exact isUnmoved isMoved
  have result := free_eq (state.withWords words).heap state.heap.words first second
  change state.heap.free allocation.fatPtr = _ at result
  cases isHuge : allocation.isHuge with
  | false =>
      have starts := intact.load_start isLive isHuge
      have fits := intact.space_fits isLive
      rw [Allocation.space_small isHuge] at fits ⊢
      rw [intact.free_small isLive isHuge, starts] at result
      rw [intact.free_small isLive isHuge] at afterwards
      rw [result] at frees
      rcases pushBlock_congr (state.withWords words).heap state.heap.words allocation.bucket
        allocation.fatPtr (allocation.fatPtr + 16) with ⟨linked, pushes, sameLinked⟩
      have frame := pushBlock_frame state.heap allocation.fatPtr fits
      have isHeap : Heap.pushBlock state.heap allocation.bucket allocation.fatPtr
          (allocation.fatPtr + 16) = heap := frees
      have linkedHeap := isHeap.symm.trans pushes
      rw [isHeap] at frame
      refine ⟨?_, fun addr apart => frame addr fun inside => ?_⟩
      · rw [linkedHeap]
        exact ⟨stillLive, later, _, afterwards, fun addr apart => sameLinked addr (outside addr apart)⟩
      · exact apart ⟨Nat.le_of_add_right_le inside.1, inside.2⟩
  | true =>
      have isFreed := (intact.freed_iff isLive).mpr noOverflow
      rw [Allocation.freed, isHuge] at isFreed
      rw [isFreed] at result
      rw [result] at frees
      cases frees
      exact ⟨⟨stillLive, dead, words, intact.sublist List.erase_sublist, outside⟩, fun _ _ => rfl⟩

end IntactBut

end LakeNative.Allocators

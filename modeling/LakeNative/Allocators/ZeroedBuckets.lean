import LakeNative.Allocators.BucketSafety
import LakeNative.Runtime.ZeroedAllocate

/-! # Zeroed memory from the buckets

Memory that the heap has not been cut up to reads as zero, as does what a chunk from a free
list was cleared for and what is newly mapped.
-/

namespace LakeNative.Allocators

open LakeNative.Runtime LakeNative.Regions LakeNative.LinkedList LakeNative.Transitions

variable {base : HeapRegion} {state : BucketState} {dead : Nat → List Nat}

inductive BucketCallEvent where
  | allocate (fatPtr : Nat) (words : Words)
  | other (event : BucketEvent)

/-- Calls of `rt_allocate`, with the fat pointer and the memory they leave, between the steps
of the allocator's other callers. -/
inductive BucketCall (base : HeapRegion) : BucketState → BucketCallEvent → BucketState → Prop
  | allocate {state heap} (size mmapAddr fatPtr : Nat) :
      size < 2 ^ 64 →
      (MAX_CLASS < sizeClass size → state.Maps base ⟨mmapAddr, mmapAddr + mmapSize size⟩) →
      state.heap.allocate size mmapAddr = some (fatPtr, heap) →
      BucketCall base state (.allocate fatPtr heap.words) (state.record ⟨fatPtr, size⟩ heap)
  | other {state event next} :
      BucketStep base state event next →
      BucketCall base state (.other event) next

/-- All of the payload reads as zero. -/
def BucketZeroed (_ : BucketState) : BucketCallEvent → Prop
  | .allocate fatPtr words => ReadsZero words (payloadOf words fatPtr)
  | .other _ => True

def BucketCallOk (state : BucketState) : BucketCallEvent → Prop
  | .allocate _ _ => True
  | .other event => FreesNoOverflow state event

/-- What lies behind `heap_curr` was never written. -/
def Unused (base : HeapRegion) (state : BucketState) : Prop :=
  ∀ addr, state.heap.heapCurr ≤ addr → addr < base.first + HEAP_SIZE → state.heap.words addr = 0

namespace Intact

/-- Memory in no chunk and in no mapping does not matter. -/
theorem elsewhere (intact : Intact base dead state) {words : Words}
    (sameChunk : ∀ chunk ∈ state.chunks, ∀ addr ∈ chunk.space,
      words addr = state.heap.words addr)
    (sameLive : ∀ allocation ∈ state.live, ∀ addr ∈ allocation.space,
      words addr = state.heap.words addr) :
    Intact base dead { state with heap := { state.heap with words := words } } where
  heapEnd := intact.heapEnd
  bump := intact.bump
  inRange := intact.inRange
  inside := intact.inside
  apart := intact.apart
  starts chunk member :=
    (sameChunk chunk member _ (Chunk.mem_space (Nat.zero_le 16))).trans (intact.starts chunk member)
  once := intact.once
  held allocation member :=
    (intact.held allocation member).frame (sameLive allocation member) (List.Subset.refl _)
  mappings := intact.mappings
  lists bucket := by
    refine (intact.lists bucket).congr fun fatPtr member => ?_
    have isChunk := (intact.isDead bucket fatPtr member).1
    exact intact.nextFree_congr isChunk (sameChunk _ isChunk)
  isDead := intact.isDead

/-! ## The three ways to a payload -/

/-- A chunk from a free list is cleared for the size that was asked for. -/
theorem pop_zeroed (intact : Intact base dead state) {size head : Nat} (isWord : size < 2 ^ 64)
    (inRange : sizeClass size ≤ MAX_CLASS)
    (isHead : state.heap.freeListHeads (sizeClass size) = head) (hasFree : head ≠ 0) {heap : Heap}
    (pops : state.heap.popZeroed (sizeClass size) size head = (head, heap)) :
    (∃ later, Intact base later (state.record ⟨head, size⟩ heap)) ∧
      heap.heapCurr = state.heap.heapCurr ∧
      AgreeOutside ⟨base.first, state.heap.heapCurr⟩ state.heap.words heap.words ∧
      ReadsZero heap.words (payloadOf heap.words head) := by
  have list := intact.lists (sizeClass size)
  rw [isHead] at list
  rcases list.exists_cons hasFree with ⟨rest, isList, -⟩
  have isChunk := (intact.isDead _ head (isList ▸ List.mem_cons_self)).1
  have starts : state.heap.load head = head + 16 := intact.starts _ isChunk
  have fits := intact.chunk_fits isChunk
  have inside := intact.inside _ isChunk
  have room := le_classSize isWord
  have whole := sixteen_dvd_classSize (sizeClass size)
  have bound := classSize_le inRange
  change head + 16 + classSize (sizeClass size) ≤ 2 ^ 47 at fits
  change base.first ≤ head ∧ head + 16 + classSize (sizeClass size) ≤ state.heap.heapCurr at inside
  have visibleEnd : iadd (head + 16) size = head + 16 + size := iadd_eq (by omega)
  have rounded : iadd size 7 = size + 7 := iadd_eq (by omega)
  have covers : size ≤ 8 * (alignDown (size + 7) 8 / 8) := by
    unfold alignDown
    omega
  have inRoom : 8 * (alignDown (size + 7) 8 / 8) ≤ classSize (sizeClass size) := by
    unfold alignDown
    omega
  simp only [Heap.popZeroed, starts, visibleEnd, rounded] at pops
  generalize alignDown (size + 7) 8 / 8 = rounds at covers inRoom pops
  let unlinked := (state.heap.setHead (sizeClass size) (state.heap.load (head + 16))).store
    (head + 8) (head + 16 + size)
  rcases unlinked.zeroRounds_spec (by omega : head + 16 + 8 * rounds < 2 ^ 64) with
    ⟨words, isZeroed, zeroed, others⟩
  have isHeap : heap = { unlinked with words := words } :=
    (Prod.ext_iff.mp pops).2.symm.trans isZeroed
  have unlinkedWord : ∀ addr, addr ≠ head + 8 → unlinked.words addr = state.heap.words addr :=
    fun addr different => Function.update_of_ne different _ _
  have ends : words (head + 8) = head + 16 + size := by
    rw [others _ fun index inRounds => by omega]
    exact Function.update_self _ _ _
  have first : words head = head + 16 := by
    rw [others _ fun index inRounds => by omega, unlinkedWord _ (by omega)]
    exact starts
  rw [isHeap]
  refine ⟨?_, rfl, ?_, ?_⟩
  · -- The zeros are a write to the payload that `rt_allocate_raw` would have returned.
    rcases intact.pop isWord inRange isHead hasFree with ⟨later, raw⟩
    have rawWords := intact.words_popBlock isChunk room
    refine ⟨later, ?_⟩
    have isRaw : (state.heap.popBlock (sizeClass size) size head).2 =
        { unlinked with words := Function.update unlinked.words (head + 16) 0 } := by
      simp only [Heap.popBlock, starts, visibleEnd]
      rfl
    rw [isRaw] at raw
    refine @Intact.write _ _ _ raw words fun addr outside => ?_
    have notHere := outside _ List.mem_cons_self
    have isSmall : Allocation.isHuge ⟨head, size⟩ = false :=
      Allocation.isHuge_eq_false_iff.mpr inRange
    have region : Allocation.region (state.record ⟨head, size⟩
        { unlinked with words := Function.update unlinked.words (head + 16) 0 }).heap ⟨head, size⟩ =
          ⟨head + 16, head + 16 + classSize (sizeClass size)⟩ := by
      have start := raw.load_start (List.mem_cons_self) isSmall
      rw [Allocation.region, start, isSmall]
      rfl
    rw [region, Region.mem_iff] at notHere
    have positive := classSize_pos (sizeClass size)
    have different : addr ≠ head + 16 := by
      rintro rfl
      exact notHere ⟨Nat.le_refl _, by dsimp only; omega⟩
    rw [others addr fun index inRounds => by
      rintro rfl
      exact notHere ⟨Nat.le_add_right _ _, by dsimp only; omega⟩]
    exact (Function.update_of_ne different _ _).symm
  · intro addr outside
    have apart : ∀ offset < 16 + classSize (sizeClass size), addr ≠ head + offset := by
      rintro offset inChunk rfl
      exact outside ⟨by dsimp only; omega, by dsimp only; omega⟩
    dsimp only
    rw [others addr fun index inRounds => by
      have different := apart (16 + 8 * index) (by omega)
      omega]
    exact unlinkedWord _ (apart 8 (by omega))
  · intro index inPayload
    dsimp only [payloadOf] at inPayload ⊢
    rw [first] at inPayload ⊢
    rw [ends] at inPayload
    exact zeroed index (by omega)

/-- A new chunk is cut from memory that was never written. -/
theorem bump_zeroed (intact : Intact base dead state) (unused : Unused base state)
    {size fatPtr : Nat} {heap : Heap} (isWord : size < 2 ^ 64)
    (inRange : sizeClass size ≤ MAX_CLASS)
    (bumps : state.heap.bumpBlock (sizeClass size) size = some (fatPtr, heap)) :
    Unused base (state.record ⟨fatPtr, size⟩ heap) ∧
      ReadsZero heap.words (payloadOf heap.words fatPtr) := by
  rcases intact.of_bumpBlock inRange (le_classSize isWord) bumps with
    ⟨rfl, isWords, curr, inHeap, -, -⟩
  have room := le_classSize isWord
  have behind : ∀ addr, state.heap.heapCurr + 16 ≤ addr → heap.words addr = state.heap.words addr := by
    intro addr above
    rw [isWords, Function.update_of_ne (by omega), Function.update_of_ne (by omega)]
  constructor
  · intro addr above below
    change heap.heapCurr ≤ addr at above
    change heap.words addr = 0
    rw [behind addr (by omega)]
    exact unused addr (by omega) below
  · have first : heap.words state.heap.heapCurr = state.heap.heapCurr + 16 := by
      rw [isWords, Function.update_of_ne (by omega), Function.update_self]
    have ends : heap.words (state.heap.heapCurr + 8) = state.heap.heapCurr + 16 + size := by
      rw [isWords, Function.update_self]
    intro index inPayload
    dsimp only [payloadOf] at inPayload ⊢
    rw [first] at inPayload ⊢
    rw [ends] at inPayload
    rw [behind _ (by omega)]
    exact unused _ (by omega) (by omega)

/-- A huge payload lies in new pages. -/
theorem map_zeroed (intact : Intact base dead state) {size mmapAddr : Nat} (isWord : size < 2 ^ 64)
    (huge : MAX_CLASS < sizeClass size)
    (maps : state.Maps base ⟨mmapAddr, mmapAddr + mmapSize size⟩) {heap : Heap}
    (isHeap : heap = ((state.heap.advise mmapAddr (mmapSize size)).hugeBlock size mmapAddr).2) :
    Intact base dead (state.record ⟨mmapAddr, size⟩ heap) ∧
      AgreeOutside ⟨mmapAddr, mmapAddr + mmapSize size⟩ state.heap.words heap.words ∧
      ReadsZero heap.words (payloadOf heap.words mmapAddr) := by
  have nonempty := maps.nonempty
  have fits := maps.fits
  dsimp only at nonempty fits
  have atLeast := mmapSize_ge (by omega : 0 < mmapSize size)
  have starts : iadd mmapAddr 32 = mmapAddr + 32 := iadd_eq (by omega)
  have stops : iadd mmapAddr (mmapSize size) = mmapAddr + mmapSize size := iadd_eq (by omega)
  have isWords : heap.words = Function.update (Function.update (fun word =>
      if mmapAddr ≤ word ∧ word < mmapAddr + mmapSize size then 0 else state.heap.words word)
        mmapAddr (mmapAddr + 32)) (mmapAddr + 8) (mmapAddr + mmapSize size) := by
    rw [isHeap]
    change Function.update (Function.update (state.heap.advise mmapAddr (mmapSize size)).words
      mmapAddr (iadd mmapAddr 32)) (mmapAddr + 8) (iadd mmapAddr (mmapSize size)) = _
    rw [starts, stops]
    rfl
  have outside : ∀ addr, addr ∉ (⟨mmapAddr, mmapAddr + mmapSize size⟩ : Region) →
      (if mmapAddr ≤ addr ∧ addr < mmapAddr + mmapSize size then 0 else state.heap.words addr) =
        state.heap.words addr := fun addr notIn => if_neg notIn
  refine ⟨?_, ?_, ?_⟩
  · have wiped : Intact base dead
        { state with heap := state.heap.advise mmapAddr (mmapSize size) } := by
      refine intact.elsewhere (fun chunk member addr inSpace => ?_)
        fun allocation member addr inSpace => ?_
      · have apart := maps.heap.symm.within (intact.chunk_within member)
        exact outside addr (apart.notMem inSpace)
      · cases isHuge : allocation.isHuge with
        | false =>
            rw [Allocation.space_small isHuge] at inSpace
            have isChunk := ((intact.held _ member).small isHuge).1
            have apart := maps.heap.symm.within (intact.chunk_within isChunk)
            exact outside addr (apart.notMem inSpace)
        | true =>
            rw [Allocation.space_huge isHuge] at inSpace
            exact outside addr ((maps.others _ member isHuge).symm.notMem inSpace)
    rw [isHeap]
    exact wiped.map isWord huge ⟨maps.nonempty, maps.positive, maps.fits, maps.heap, maps.others⟩
  · intro addr notIn
    have apart : ∀ offset < mmapSize size, addr ≠ mmapAddr + offset := by
      rintro offset inMapping rfl
      exact notIn ⟨Nat.le_add_right _ _, by dsimp only; omega⟩
    have notFirst : addr ≠ mmapAddr := apart 0 (by omega)
    rw [isWords, Function.update_of_ne (apart 8 (by omega)), Function.update_of_ne notFirst]
    exact outside addr notIn
  · have first : heap.words mmapAddr = mmapAddr + 32 := by
      rw [isWords, Function.update_of_ne (by omega), Function.update_self]
    have ends : heap.words (mmapAddr + 8) = mmapAddr + mmapSize size := by
      rw [isWords, Function.update_self]
    intro index inPayload
    dsimp only [payloadOf] at inPayload ⊢
    rw [first] at inPayload ⊢
    rw [ends] at inPayload
    rw [isWords, Function.update_of_ne (by omega), Function.update_of_ne (by omega)]
    exact if_pos ⟨by omega, inPayload⟩

end Intact

/-! ## Runs -/

theorem Unused.frame {later : BucketState} (unused : Unused base state)
    (sameCurr : later.heap.heapCurr = state.heap.heapCurr)
    (same : ∀ addr, state.heap.heapCurr ≤ addr → addr < base.first + HEAP_SIZE →
      later.heap.words addr = state.heap.words addr) : Unused base later := by
  intro addr above below
  rw [sameCurr] at above
  rw [same addr above below]
  exact unused addr above below

/-- The other callers write to chunks and mappings only. -/
theorem Unused.step {next : BucketState} {event : BucketEvent} (unused : Unused base state)
    (intact : Intact base dead state) (condition : FreesNoOverflow state event)
    (step : BucketStep base state event next) : Unused base next := by
  have below := intact.bump.1
  have inChunks : ∀ chunk ∈ state.chunks, ∀ addr, state.heap.heapCurr ≤ addr → addr ∉ chunk.space := by
    intro chunk member addr above inSpace
    have inside := (intact.inside chunk member).2
    have before := inSpace.2
    dsimp only at inside
    omega
  cases step with
  | @allocate heap size mmapAddr fatPtr isWord maps allocates =>
      simp only [Heap.allocateRaw] at allocates
      split at allocates
      · rename_i inRange
        split at allocates
        · rename_i hasFree
          cases allocates
          have list := intact.lists (sizeClass size)
          rcases list.exists_cons hasFree with ⟨rest, isList, -⟩
          have isChunk := (intact.isDead _ _ (isList ▸ List.mem_cons_self)).1
          have isWords := intact.words_popBlock isChunk (le_classSize isWord)
          refine unused.frame rfl fun addr above _ => ?_
          change (state.heap.popBlock (sizeClass size) size
            (state.heap.freeListHeads (sizeClass size))).2.words addr = _
          rw [isWords]
          exact ((AgreeOutside.update (Chunk.mem_space (by decide)) _).trans
            (AgreeOutside.update (Chunk.mem_space (by decide)) _)) addr
              (inChunks _ isChunk addr above)
        · exact (intact.bump_zeroed unused isWord inRange allocates).1
      · rename_i huge
        cases allocates
        have apart := (maps (Nat.not_le.mp huge)).heap
        have nonempty := (maps (Nat.not_le.mp huge)).nonempty
        dsimp only at nonempty
        have atLeast := mmapSize_ge (by omega : 0 < mmapSize size)
        refine unused.frame rfl fun addr above inHeap => ?_
        have notIn : ∀ offset < mmapSize size, addr ≠ mmapAddr + offset := by
          rintro offset inMapping rfl
          have inRegion : mmapAddr + offset ∈ (⟨mmapAddr, mmapAddr + mmapSize size⟩ : Region) :=
            ⟨Nat.le_add_right _ _, by dsimp only; omega⟩
          exact apart.notMem inRegion ⟨Nat.le_trans below above, inHeap⟩
        have notFirst : addr ≠ mmapAddr := notIn 0 (by omega)
        change Function.update (Function.update state.heap.words mmapAddr _) (mmapAddr + 8) _ addr = _
        rw [Function.update_of_ne (notIn 8 (by omega)), Function.update_of_ne notFirst]
  | @free heap allocation freed member frees =>
      cases isHuge : allocation.isHuge with
      | false =>
          rw [intact.free_small member isHuge] at frees
          cases frees
          have isChunk := ((intact.held _ member).small isHuge).1
          rcases intact.words_pushBlock isChunk rfl with ⟨agree, -, -, sameCurr, -⟩
          exact unused.frame sameCurr fun addr above _ => agree addr (inChunks _ isChunk addr above)
      | true =>
          have isFreed := (intact.freed_iff member).mpr condition
          rw [intact.free_huge member isHuge] at frees isFreed
          split at frees
          · rename_i inRange
            rw [if_pos inRange, Allocation.freed, isHuge] at isFreed
            cases isFreed
          · cases frees
            exact unused
  | write words keeps =>
      refine unused.frame rfl fun addr above inHeap => keeps addr fun allocation member inRegion => ?_
      have inSpace := (intact.region_within member).1.mem inRegion
      cases isHuge : allocation.isHuge with
      | false =>
          rw [Allocation.space_small isHuge] at inSpace
          exact inChunks _ ((intact.held _ member).small isHuge).1 addr above inSpace
      | true =>
          rw [Allocation.space_huge isHuge] at inSpace
          have apart := ((intact.held _ member).huge isHuge).2.2.2.2
          exact apart.notMem inSpace ⟨Nat.le_trans below above, inHeap⟩

theorem bucket_call_step {next : BucketState} {event : BucketCallEvent}
    (intact : Intact base dead state) (unused : Unused base state)
    (condition : BucketCallOk state event) (step : BucketCall base state event next) :
    BucketZeroed state event ∧ (∃ later, Intact base later next) ∧ Unused base next := by
  cases step with
  | @allocate heap size mmapAddr fatPtr isWord maps allocates =>
      simp only [Heap.allocate] at allocates
      split at allocates
      · rename_i inRange
        split at allocates
        · rename_i hasFree
          rcases Option.some.inj allocates with pops
          have isHead : state.heap.freeListHeads (sizeClass size) = fatPtr :=
            (Prod.ext_iff.mp pops).1
          rw [isHead] at pops hasFree
          rcases intact.pop_zeroed isWord inRange isHead hasFree pops with
            ⟨after, sameCurr, agree, zeroed⟩
          refine ⟨zeroed, after, unused.frame sameCurr fun addr above _ => agree addr fun inside => ?_⟩
          exact absurd inside.2 (Nat.not_lt.mpr above)
        · rcases intact.bump_zeroed unused isWord inRange allocates with ⟨stillUnused, zeroed⟩
          exact ⟨zeroed, ⟨dead, intact.bump_block isWord inRange allocates⟩, stillUnused⟩
      · rename_i huge
        have isMapped := maps (Nat.not_le.mp huge)
        cases allocates
        rcases intact.map_zeroed isWord (Nat.not_le.mp huge) isMapped rfl with
          ⟨after, agree, zeroed⟩
        refine ⟨zeroed, ⟨dead, after⟩, unused.frame rfl fun addr above inHeap => agree addr ?_⟩
        exact isMapped.heap.symm.notMem ⟨Nat.le_trans intact.bump.1 above, inHeap⟩
  | other step =>
      exact ⟨trivial, intact_step intact condition step, unused.step intact condition step⟩

/-- A heap of pages that read as zero hands out zeroed payloads. -/
theorem buckets_zeroed {words : Words} (fresh : ∀ addr ∈ base.region, words addr = 0)
    {history : List (Stage BucketState BucketCallEvent)} {final : BucketState}
    (run : Run (BucketCall base) (BucketState.start base words) history final)
    (condition : Meets BucketCallOk history) : Meets BucketZeroed history := by
  suffices all : Meets BucketZeroed history ∧ (∃ dead, Intact base dead final) ∧
      Unused base final from all.1
  induction run with
  | refl =>
      refine ⟨meets_nil _, ⟨_, intact_start base words⟩, fun addr above below => ?_⟩
      exact fresh addr ⟨above, below⟩
  | next _ taken induction =>
      rcases meets_cons.mp condition with ⟨now, earlier⟩
      rcases induction earlier with ⟨before, ⟨dead, intact⟩, unused⟩
      rcases bucket_call_step intact unused now taken with ⟨zeroed, after⟩
      exact ⟨meets_cons.mpr ⟨zeroed, before⟩, after⟩

end LakeNative.Allocators

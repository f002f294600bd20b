import LakeNative.Allocators.SlabSafety
import LakeNative.Allocators.MappingFailure
import LakeNative.Allocators.RequestedSizes

/-! # What a request of the slab allocator comes back with -/

namespace LakeNative.Allocators

open LakeNative.Runtime LakeNative.Runtime.SlabLayout LakeNative.Regions LakeNative.LinkedList

variable {state : SlabState} {heap : SlabHeap} {classIdx raw size : Nat}

/-- A slab of the class has a free chunk. -/
def HasFree (state : SlabState) (classIdx : Nat) : Prop :=
  ∃ slab ∈ state.slabs classIdx, state.heap.load (slab + HDR_FREE_COUNT) ≠ 0

instance (state : SlabState) (classIdx : Nat) : Decidable (HasFree state classIdx) :=
  inferInstanceAs (Decidable
    (∃ slab ∈ state.slabs classIdx, state.heap.load (slab + HDR_FREE_COUNT) ≠ 0))

/-- The chunk, or the mapping of a size that has no class. -/
def slabSpace (size fatPtr : Nat) : Region :=
  if slabClassIdx size ≤ NUM_CLASSES - 1 then ⟨fatPtr, fatPtr + classSize (slabClassIdx size)⟩
  else ⟨fatPtr, fatPtr + mmapSize size⟩

/-- What the kernel promises of its answers; it maps nothing of length zero. -/
def SlabPromised (state : SlabState) (size : Nat) : Answer → Prop
  | .mapped addr => 0 < SlabHeap.mmapLength size ∧
      Fresh state.heap ⟨addr, addr + SlabHeap.mmapLength size⟩
  | .failed errno => 1 ≤ errno ∧ errno ≤ 4095

/-- A request of the slab allocator is met: it failed as it may, or its block is mapped, apart
from the other chunks, and has room. -/
def SlabMet (state : SlabState) (caller : Caller) (size : Nat) (result : CallResult SlabHeap) :
    Prop :=
  result = outOfMemory state.heap caller ∨ ∃ fatPtr after,
    result = .returned fatPtr after caller ∧
      Sized (after.load fatPtr) (after.load (fatPtr + 8)) size (slabSpace size fatPtr)
        (∀ addr ∈ slabSpace size fatPtr, after.mapped addr = true)
        (state.live.map SlabChunk.region)

/-- A size with a class is served well unless it wraps or the mapping for a new slab fails with
a number that is not told from an address. Other sizes need a mapping of their own. -/
def SlabServed (state : SlabState) (size : Nat) (answer : Answer) : Prop :=
  if slabClassIdx size ≤ NUM_CLASSES - 1 then
    if HasFree state (slabClassIdx size) then size < 2 ^ 64 - 16
    else answer = .failed 1 ∨ size < 2 ^ 64 - 16 ∧ ∃ addr, answer = .mapped addr
  else
    size < 2 ^ 64 - 31 ∧ ∃ addr, answer = .mapped addr

/-- A block that is returned is met by its bounds. -/
theorem slabMet_returned_iff {caller : Caller} {fatPtr : Nat} {after : SlabHeap}
    (isBlock : fatPtr ≠ 0) :
    SlabMet state caller size (.returned fatPtr after caller) ↔
      Sized (after.load fatPtr) (after.load (fatPtr + 8)) size (slabSpace size fatPtr)
        (∀ addr ∈ slabSpace size fatPtr, after.mapped addr = true)
        (state.live.map SlabChunk.region) := by
  constructor
  · rintro (isOut | ⟨other, heap, isReturned, sized⟩)
    · exact absurd isOut.symm (outOfMemory_ne_returned _ _ _ _ isBlock)
    · cases isReturned
      exact sized
  · exact fun sized => .inr ⟨fatPtr, after, rfl, sized⟩

theorem not_slabMet_faulted {caller : Caller} : ¬ SlabMet state caller size .faulted := by
  rintro (isOut | ⟨fatPtr, after, isReturned, -⟩)
  · exact outOfMemory_ne_faulted _ _ isOut.symm
  · cases isReturned

theorem header_returned {chunk : Nat} (caller : Caller) (isBlock : chunk ≠ 0) :
    SlabHeap.header size (.returned chunk heap caller) =
      .returned chunk (heap.writeHdr chunk size) caller := if_pos isBlock

theorem header_outOfMemory (caller : Caller) :
    SlabHeap.header size (outOfMemory heap caller) = outOfMemory heap caller := by
  unfold outOfMemory
  split
  · simp [SlabHeap.header]
  · rfl

/-! ## Finding a chunk -/

/-- A walk that comes to the end of the list has seen no free chunk. -/
theorem walk_full {head : Nat} {cells : List Nat}
    (chain : Chain (nextSlab heap.words) 0 head cells) {fuel : Nat}
    (walks : heap.walk fuel head = some 0) :
    ∀ slab ∈ cells, heap.load (slab + HDR_FREE_COUNT) = 0 := by
  induction fuel generalizing head cells with
  | zero => cases walks
  | succ fuel induction =>
      rw [SlabHeap.walk] at walks
      split at walks
      · rename_i isEnd
        cases cells with
        | nil => exact List.forall_mem_nil _
        | cons first rest =>
            exact absurd (chain.1.symm.trans isEnd) chain.2.1
      · rename_i isSlab
        rcases chain.exists_cons isSlab with ⟨rest, rfl, later⟩
        split at walks
        · cases walks
          exact absurd rfl isSlab
        · rename_i isFull
          intro slab member
          rcases List.mem_cons.mp member with rfl | inRest
          · exact not_not.mp isFull
          · exact induction later walks slab inRest

/-- What a call gives when it finds a chunk in a slab. -/
def Chunked (state : SlabState) (caller : Caller) (classIdx size : Nat)
    (result : CallResult SlabHeap) : Prop :=
  ∃ slab chunkIdx later, result = .returned (SlabChunk.addr ⟨slab, classIdx, chunkIdx, size⟩)
      later caller ∧
    SlabsIntact (state.record ⟨slab, classIdx, chunkIdx, size⟩ later)

/-- The header of a chunk. -/
theorem load_writeHdr (heap : SlabHeap) (chunk size : Nat) :
    (heap.writeHdr chunk size).load chunk = iadd chunk 16 ∧
      (heap.writeHdr chunk size).load (chunk + 8) = iadd (iadd chunk 16) size := by
  constructor
  · apply (Function.update_of_ne (by omega) _ _).trans
    exact Function.update_self _ _ _
  · exact Function.update_self _ _ _

/-- The header of a block of its own mapping. -/
theorem load_slabHuge (heap : SlabHeap) (addr start stop : Nat) :
    ((heap.store addr start).store (addr + 8) stop).load addr = start ∧
      ((heap.store addr start).store (addr + 8) stop).load (addr + 8) = stop := by
  constructor
  · apply (Function.update_of_ne (by omega) _ _).trans
    exact Function.update_self _ _ _
  · exact Function.update_self _ _ _

namespace SlabsIntact

theorem chunked_walk (intact : SlabsIntact state) (caller : Caller) {fuel : Nat}
    (sized : slabClassIdx size = classIdx)
    (enough : (state.slabs classIdx).length < fuel) :
    ∃ result, state.heap.walkOrNew caller fuel classIdx raw = some result ∧
      (HasFree state classIdx → Chunked state caller classIdx size result) ∧
      (¬ HasFree state classIdx → result = state.heap.needNew caller classIdx raw) := by
  rcases walk_ends (intact.lists classIdx) enough with ⟨found, walks⟩
  rw [SlabHeap.walkOrNew, walks]
  refine ⟨_, rfl, ?_⟩
  by_cases isEnd : found = 0
  · rw [isEnd] at walks ⊢
    constructor
    · rintro ⟨slab, member, hasFree⟩
      exact absurd (walk_full (intact.lists classIdx) walks slab member) hasFree
    · exact fun _ => if_pos rfl
  · rcases walk_spec (intact.lists classIdx) walks isEnd with ⟨member, hasFree⟩
    rcases (intact.set_current member).gave_from member hasFree sized with
      ⟨slab, chunkIdx, later, takes, after⟩
    have isResult : (state.heap.setCurrent classIdx found).tryAllocFromSlab classIdx found =
        some (⟨slab, chunkIdx, SlabChunk.addr ⟨slab, classIdx, chunkIdx, size⟩⟩, later) := takes
    constructor
    · refine fun _ => ⟨slab, chunkIdx, later, ?_, after⟩
      rw [SlabHeap.walkAlloc, if_neg isEnd]
      dsimp only
      rw [isResult]
    · exact fun isFull => absurd ⟨_, member, hasFree⟩ isFull

/-- `rt_allocate_slab` returns a free chunk of its class, and makes a new slab when there is
none. -/
theorem chunked_slab (intact : SlabsIntact state) (caller : Caller) {fuel : Nat}
    (inRange : classIdx ≤ NUM_CLASSES - 1) (sized : slabClassIdx size = classIdx)
    (enough : (state.slabs classIdx).length < fuel) :
    ∃ result, state.heap.rtAllocateSlab caller fuel classIdx raw = some result ∧
      (HasFree state classIdx → Chunked state caller classIdx size result) ∧
      (¬ HasFree state classIdx → result = state.heap.needNew caller classIdx raw) := by
  have walked := @chunked_walk state classIdx raw size intact caller fuel sized enough
  rw [SlabHeap.rtAllocateSlab, if_pos (Nat.ne_of_gt (geometry classIdx inRange).1)]
  rcases intact.current classIdx with isEmpty | isSlab
  · rw [if_neg (not_not_intro isEmpty)]
    exact walked
  · rw [if_pos (Nat.ne_of_gt (intact.kept _ _ isSlab).positive)]
    by_cases hasFree : state.heap.load (state.heap.currentSlab classIdx + HDR_FREE_COUNT) ≠ 0
    · rcases intact.gave_from isSlab hasFree sized with ⟨slab, chunkIdx, later, takes, after⟩
      rw [takes]
      exact ⟨_, rfl, fun _ => ⟨slab, chunkIdx, later, rfl, after⟩,
        fun isFull => absurd ⟨_, isSlab, hasFree⟩ isFull⟩
    · have full : state.heap.tryAllocFromSlab classIdx (state.heap.currentSlab classIdx) = none :=
        if_neg hasFree
      rw [full]
      exact walked

/-- In fresh memory a new slab gives a chunk. -/
theorem chunked_new (intact : SlabsIntact state) (caller : Caller)
    (inRange : classIdx ≤ NUM_CLASSES - 1) (sized : slabClassIdx size = classIdx)
    (fresh : Fresh state.heap ⟨raw, raw + 2 * slabSizeForClass classIdx⟩) :
    Chunked state caller classIdx size (state.heap.needNew caller classIdx raw) := by
  have fits := fresh.fits
  dsimp only at fits
  rcases intact.gave_new inRange sized fresh with ⟨slab, chunkIdx, later, takes, after⟩
  rcases intact.adds inRange fresh with ⟨newSlab, created, isCreated, -, -, -, added⟩
  have isMember : newSlab ∈ Function.update state.slabs classIdx (newSlab :: state.slabs classIdx)
      classIdx := mem_added.mpr (.inl ⟨rfl, rfl⟩)
  have kept := added.kept _ _ isMember
  have slabFits := kept.fits
  have positive := kept.positive
  have large := (geometry classIdx inRange).2.2.2.1
  have isThere : accessible newSlab = true := by
    have sizes : 0 < slabSizeForClass classIdx := by
      unfold slabSizeForClass DEFAULT_SLAB_SIZE
      split <;> omega
    rw [accessible, decide_eq_true_iff]
    omega
  rw [SlabHeap.allocFromNewSlab, isCreated] at takes
  dsimp only at takes
  refine ⟨slab, chunkIdx, later, ?_, after⟩
  rw [SlabHeap.needNew, if_neg (by omega), isCreated]
  dsimp only
  rw [if_pos isThere, takes]

/-- The chunk of a request is met if its size does not wrap. -/
theorem chunk_met_iff (caller : Caller) (isWord : size < 2 ^ 64)
    (inRange : slabClassIdx size ≤ NUM_CLASSES - 1) {result : CallResult SlabHeap}
    (chunked : Chunked state caller (slabClassIdx size) size result) :
    SlabMet state caller size (SlabHeap.header size result) ↔ size < 2 ^ 64 - 16 := by
  rcases chunked with ⟨slab, chunkIdx, later, rfl, after⟩
  let chunk : SlabChunk := ⟨slab, slabClassIdx size, chunkIdx, size⟩
  have member : chunk ∈ (state.record chunk later).live := List.mem_cons_self
  have kept := after.live _ member
  have slabKept := after.kept _ _ kept.isSlab
  have within : chunk.region.Within (slabRegion (slabClassIdx size) slab) :=
    SlabChunk.region_within_slab inRange kept.inSlab
  have positive := slabKept.positive
  have fits := slabKept.fits
  have first := within.1
  have last := within.2
  change slab ≤ chunk.addr at first
  change chunk.addr + classSize (slabClassIdx size) ≤ slab + slabSizeForClass (slabClassIdx size)
    at last
  change slab + slabSizeForClass (slabClassIdx size) ≤ 2 ^ 47 at fits
  change 0 < slab at positive
  have room := classSize_pos (slabClassIdx size)
  have isBlock : chunk.addr ≠ 0 := by omega
  have owned : slabSpace size chunk.addr = chunk.region := if_pos inRange
  rcases load_writeHdr later chunk.addr size with ⟨starts, ends⟩
  have behind : iadd chunk.addr 16 = chunk.addr + 16 := iadd_eq (by omega)
  rw [behind] at starts ends
  change SlabMet state caller size (SlabHeap.header size (.returned chunk.addr later caller)) ↔ _
  rw [header_returned caller isBlock, slabMet_returned_iff isBlock, starts, ends, owned]
  constructor
  · intro sized
    have ordered := sized.ordered
    by_contra wraps
    have wrapped : iadd (chunk.addr + 16) size < chunk.addr + 16 := by
      unfold iadd
      omega
    omega
  · intro noWrap
    have padded : iadd size 16 = size + 16 := iadd_eq (by omega)
    have classed : size + 16 ≤ classSize (slabClassIdx size) := by
      have holds := @le_classSize (iadd size 16) (Nat.mod_lt _ (by decide))
      rwa [← slabClassIdx, padded] at holds
    have stop : iadd (chunk.addr + 16) size = chunk.addr + 16 + size := iadd_eq (by omega)
    rw [stop]
    have inside : Region.Within ⟨chunk.addr + 16, chunk.addr + 16 + size⟩ chunk.region := by
      change chunk.addr ≤ chunk.addr + 16 ∧
        chunk.addr + 16 + size ≤ chunk.addr + classSize (slabClassIdx size)
      omega
    refine ⟨by omega, by omega, inside, ?_, ?_⟩
    · exact fun addr inside => slabKept.mapped addr (within.mem inside)
    · intro other isOther
      rcases List.mem_map.mp isOther with ⟨earlier, isLive, rfl⟩
      have different : earlier ≠ chunk := by
        rintro rfl
        exact (List.nodup_cons.mp after.once.1).1 isLive
      exact after.chunks_apart (List.mem_cons_of_mem _ isLive) member different

/-- A request of its own mapping. -/
theorem slab_huge_met_iff (intact : SlabsIntact state) (caller : Caller) (isWord : size < 2 ^ 64)
    (huge : ¬ slabClassIdx size ≤ NUM_CLASSES - 1) {answer : Answer}
    (promised : SlabPromised state size answer) :
    SlabMet state caller size (state.heap.hugeBlock caller size (rtMmap answer)) ↔
      size < 2 ^ 64 - 31 ∧ ∃ addr, answer = .mapped addr := by
  have owned : ∀ fatPtr, slabSpace size fatPtr = ⟨fatPtr, fatPtr + mmapSize size⟩ :=
    fun fatPtr => if_neg huge
  have length : SlabHeap.mmapLength size = mmapSize size := if_neg huge
  cases answer with
  | failed errno =>
      have notThere := (failed_not_accessible promised.1 promised.2).2
      have faults : state.heap.hugeBlock caller size (rtMmap (.failed errno)) = .faulted :=
        if_neg (by rw [notThere]; exact Bool.false_ne_true)
      rw [faults]
      apply iff_of_false not_slabMet_faulted
      rintro ⟨-, addr, isMapped⟩
      cases isMapped
  | mapped addr =>
      rcases promised with ⟨nonempty, fresh⟩
      rw [length] at nonempty fresh
      have positive : 0 < addr := fresh.positive
      have fits : addr + mmapSize size ≤ 2 ^ 47 := fresh.fits
      have isThere : accessible addr = true := by
        rw [accessible, decide_eq_true_iff]
        omega
      let mapped := state.heap.mmap addr (mmapSize size)
      have returns : state.heap.hugeBlock caller size (rtMmap (.mapped addr)) =
          .returned addr ((mapped.store addr (iadd addr 32)).store (addr + 8)
            (iadd addr (mmapSize size))) caller := if_pos isThere
      rcases load_slabHuge mapped addr (iadd addr 32) (iadd addr (mmapSize size)) with
        ⟨starts, ends⟩
      rw [returns, slabMet_returned_iff (Nat.ne_of_gt positive), starts, ends, owned]
      constructor
      · intro sized
        by_contra wraps
        refine not_room_of_wrapped isWord ?_ fits sized.room
        by_contra small
        exact wraps ⟨by omega, addr, rfl⟩
      · rintro ⟨noWrap, -⟩
        have room := mmapSize_room noWrap nonempty
        rw [iadd_eq (by omega), iadd_eq (by omega)]
        refine ⟨by omega, by omega, ⟨Nat.le_add_right _ _, Nat.le_refl _⟩, ?_, ?_⟩
        · exact fun word inside => if_pos inside
        · intro other isOther
          rcases List.mem_map.mp isOther with ⟨chunk, isLive, rfl⟩
          have kept := intact.live _ isLive
          have within := SlabChunk.region_within_slab (intact.inRange _ _ kept.isSlab) kept.inSlab
          refine Region.Apart.of_notMem ?_ (Nat.lt_add_of_pos_right nonempty) ?_
          · exact Nat.lt_add_of_pos_right (classSize_pos _)
          · intro word inChunk inMapping
            have isMapped := intact.mapped _ _ kept.isSlab word (within.mem inChunk)
            rw [fresh.unmapped word inMapping] at isMapped
            cases isMapped

/-- A request of the slab allocator returns, and this says when it is met. -/
theorem slab_met_iff (intact : SlabsIntact state) (caller : Caller) (isWord : size < 2 ^ 64)
    {answer : Answer} (promised : SlabPromised state size answer) {fuel : Nat}
    (enough : (state.slabs (slabClassIdx size)).length < fuel) :
    ∃ result, state.heap.rtAllocateRaw caller fuel size (rtMmap answer) = some result ∧
      (SlabMet state caller size result ↔ SlabServed state size answer) := by
  rw [SlabHeap.rtAllocateRaw]
  by_cases inRange : slabClassIdx size ≤ NUM_CLASSES - 1
  · rw [if_pos inRange]
    rcases @chunked_slab state (slabClassIdx size) (rtMmap answer) size intact caller fuel inRange rfl
      enough with ⟨result, isResult, found, notFound⟩
    rw [isResult]
    refine ⟨_, rfl, ?_⟩
    rw [SlabServed, if_pos inRange]
    by_cases hasFree : HasFree state (slabClassIdx size)
    · rw [if_pos hasFree]
      exact chunk_met_iff caller isWord inRange (found hasFree)
    · rw [if_neg hasFree, notFound hasFree]
      cases answer with
      | failed errno =>
          rw [needNew_failed _ _ inRange promised.1 promised.2]
          by_cases isOne : errno = 1
          · rw [if_pos isOne]
            exact iff_of_true (.inl (header_outOfMemory caller)) (.inl (congrArg _ isOne))
          · rw [if_neg isOne]
            apply iff_of_false not_slabMet_faulted
            rintro (isFailed | ⟨-, addr, isMapped⟩)
            · cases isFailed
              exact isOne rfl
            · cases isMapped
      | mapped addr =>
          have length : SlabHeap.mmapLength size = 2 * slabSizeForClass (slabClassIdx size) :=
            if_pos inRange
          have fresh := promised.2
          rw [length] at fresh
          have met := chunk_met_iff caller isWord inRange
            (intact.chunked_new caller inRange rfl fresh)
          change SlabMet state caller size
            (SlabHeap.header size (state.heap.needNew caller (slabClassIdx size) addr)) ↔ _
          rw [met]
          constructor
          · exact fun noWrap => .inr ⟨noWrap, addr, rfl⟩
          · rintro (isFailed | ⟨noWrap, -⟩)
            · cases isFailed
            · exact noWrap
  · rw [if_neg inRange, SlabServed, if_neg inRange]
    exact ⟨_, rfl, intact.slab_huge_met_iff caller isWord inRange promised⟩

end SlabsIntact

end LakeNative.Allocators

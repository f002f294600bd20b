import LakeNative.Allocators.LiveMemory
import LakeNative.Allocators.ReportedExhaustion

/-! # What a request comes back with

A size is rounded up and gets a header before it is compared with anything, and each of these
additions can wrap. A request is met if it fails as the allocator lets it fail, or if the fat
pointer has room for the size in memory that is the allocation's own.
-/

namespace LakeNative.Allocators

open LakeNative.Runtime LakeNative.Regions

/-- The header bounds the size in memory that is owned: it is there, and no other owner's. -/
structure Sized (first stop size : Nat) (owned : Region) (isThere : Prop) (others : List Region) :
    Prop where
  ordered : first ≤ stop
  room : size ≤ stop - first
  inside : Region.Within ⟨first, stop⟩ owned
  isThere : isThere
  apart : ∀ other ∈ others, other.Apart owned

/-- The bytes that a fat pointer's header bounds. -/
def SizedBlock (heap : Heap) (size fatPtr : Nat) (owned : Region) (isThere : Prop)
    (others : List Region) : Prop :=
  Sized (heap.load fatPtr) (heap.load (fatPtr + 8)) size owned isThere others

/-- What the kernel promises of its answers. -/
def Promised (base : HeapRegion) (state : BucketState) (size : Nat) : Answer → Prop
  | .mapped addr =>
      MAX_CLASS < sizeClass size → state.Maps base ⟨addr, addr + mmapSize size⟩
  | .failed errno => 1 ≤ errno ∧ errno ≤ 4095

/-- The heap, or the mapping that the kernel gave. -/
def memoryOf (base : HeapRegion) (size : Nat) : Answer → Region
  | .mapped addr => if MAX_CLASS < sizeClass size then ⟨addr, addr + mmapSize size⟩ else base.region
  | .failed _ => base.region

/-- A request of the bucket allocator is met: it failed as it may, or its block is a chunk of the
heap or the mapping, apart from the others, and has room. -/
def BlockMet (base : HeapRegion) (state : BucketState) (caller : Caller) (size : Nat)
    (answer : Answer) (result : CallResult Heap) : Prop :=
  result = outOfMemory state.heap caller ∨ ∃ fatPtr after,
    result = .returned fatPtr after caller ∧
      SizedBlock after size fatPtr (Allocation.space ⟨fatPtr, size⟩)
        ((Allocation.space ⟨fatPtr, size⟩).Within (memoryOf base size answer))
        (state.live.map Allocation.space)

/-- The sizes that are served well: those of the heap, and larger ones that do not wrap and for
which there is a mapping. -/
def SizeServed (size : Nat) (answer : Answer) : Prop :=
  size ≤ 2 ^ 24 ∨ size < 2 ^ 64 - 31 ∧ ∃ addr, answer = .mapped addr

variable {base : HeapRegion} {state : BucketState} {moved : List Allocation}

/-- A block that is returned is met by its bounds. -/
theorem blockMet_returned_iff {caller : Caller} {size fatPtr : Nat} {answer : Answer} {after : Heap}
    (isBlock : fatPtr ≠ 0) :
    BlockMet base state caller size answer (.returned fatPtr after caller) ↔
      SizedBlock after size fatPtr (Allocation.space ⟨fatPtr, size⟩)
        ((Allocation.space ⟨fatPtr, size⟩).Within (memoryOf base size answer))
        (state.live.map Allocation.space) := by
  constructor
  · rintro (isOut | ⟨other, heap, isReturned, sized⟩)
    · exact absurd isOut.symm (outOfMemory_ne_returned _ _ _ _ isBlock)
    · cases isReturned
      exact sized
  · exact fun sized => .inr ⟨fatPtr, after, rfl, sized⟩

theorem not_blockMet_faulted {caller : Caller} {size : Nat} {answer : Answer} :
    ¬ BlockMet base state caller size answer .faulted := by
  rintro (isOut | ⟨fatPtr, after, isReturned, -⟩)
  · exact outOfMemory_ne_faulted _ _ isOut.symm
  · cases isReturned

/-- A wrapped size is larger than the page that it is given. -/
theorem not_room_of_wrapped {size addr : Nat} (isWord : size < 2 ^ 64)
    (wraps : 2 ^ 64 - 31 ≤ size) (fits : addr + mmapSize size ≤ 2 ^ 47) :
    ¬ size ≤ iadd addr (mmapSize size) - iadd addr 32 := by
  rw [mmapSize_of_overflow isWord wraps] at fits ⊢
  rw [iadd_eq (by omega), iadd_eq (by omega)]
  omega

/-- The header of a block of its own mapping. -/
theorem load_hugeBlock (heap : Heap) (size addr : Nat) :
    (heap.hugeBlock size addr).2.load addr = iadd addr 32 ∧
      (heap.hugeBlock size addr).2.load (addr + 8) = iadd addr (mmapSize size) := by
  constructor
  · apply (Function.update_of_ne (by omega) _ _).trans
    exact Function.update_self _ _ _
  · exact Function.update_self _ _ _

namespace IntactBut

/-- A small request that is served has a chunk of the heap. -/
theorem small_sized (but : IntactBut base moved state) {size raw fatPtr : Nat} {after : Heap}
    (small : sizeClass size ≤ MAX_CLASS) (isWord : size < 2 ^ 64)
    (allocates : state.heap.allocateRaw size raw = some (fatPtr, after)) :
    accessible fatPtr = true ∧
      after.load fatPtr = fatPtr + 16 ∧ after.load (fatPtr + 8) = fatPtr + 16 + size ∧
      fatPtr + 16 + size ≤ (Allocation.space ⟨fatPtr, size⟩).stop ∧
      (Allocation.space ⟨fatPtr, size⟩).Within base.region ∧
      ∀ other ∈ state.live.map Allocation.space, other.Apart (Allocation.space ⟨fatPtr, size⟩) := by
  have isSmall : Allocation.isHuge ⟨fatPtr, size⟩ = false :=
    Allocation.isHuge_eq_false_iff.mpr small
  rcases but.allocate isWord (fun huge => absurd small (Nat.not_le.mpr huge)) allocates with
    ⟨allocated, fresh, -⟩
  have isNew : ⟨fatPtr, size⟩ ∈ (state.record ⟨fatPtr, size⟩ after).live := List.mem_cons_self
  have isUnmoved : (⟨fatPtr, size⟩ : Allocation) ∉ moved := fun isMoved =>
    fresh _ (but.areLive isMoved) rfl
  rcases allocated.header isNew isUnmoved isSmall with ⟨isChunk, starts, ends⟩
  rcases allocated.shadow with ⟨dead, words, intact, -⟩
  have within := intact.chunk_within isChunk
  have room : size ≤ classSize (sizeClass size) := le_classSize isWord
  refine ⟨allocated.small_accessible isNew isSmall, starts, ends, ?_, ?_, ?_⟩
  · rw [Allocation.space_small isSmall]
    exact Nat.add_le_add_left room _
  · rw [Allocation.space_small isSmall]
    exact within
  · intro other isOther
    rcases List.mem_map.mp isOther with ⟨allocation, member, rfl⟩
    exact allocated.live_apart (List.mem_cons_of_mem _ member) isNew (fresh _ member)

/-- The mapping of a huge block is apart from all that is live. -/
theorem mapping_apart (but : IntactBut base moved state) {size addr : Nat}
    (huge : MAX_CLASS < sizeClass size) (isWord : size < 2 ^ 64)
    (maps : state.Maps base ⟨addr, addr + mmapSize size⟩) :
    ∀ other ∈ state.live.map Allocation.space, other.Apart (Allocation.space ⟨addr, size⟩) := by
  have allocates : state.heap.allocateRaw size addr = some (state.heap.hugeBlock size addr) :=
    if_neg (Nat.not_le.mpr huge)
  rcases but.allocate isWord (fun _ => maps) allocates with ⟨allocated, fresh, -⟩
  intro other isOther
  rcases List.mem_map.mp isOther with ⟨allocation, member, rfl⟩
  exact allocated.live_apart (List.mem_cons_of_mem _ member) List.mem_cons_self (fresh _ member)

/-- A huge request is met if its size does not wrap and there is a mapping. -/
theorem huge_met_iff (but : IntactBut base moved state) (caller : Caller) {size : Nat}
    {answer : Answer} (huge : MAX_CLASS < sizeClass size) (isWord : size < 2 ^ 64)
    (promised : Promised base state size answer) (heap : Heap) :
    BlockMet base state caller size answer
        (state.heap.merge caller (some (heap.hugeBlock size (rtMmap answer)))) ↔
      size < 2 ^ 64 - 31 ∧ ∃ addr, answer = .mapped addr := by
  cases answer with
  | failed errno =>
      have faults : state.heap.merge caller (some (heap.hugeBlock size (rtMmap (.failed errno)))) =
          .faulted := by
        have notThere := (failed_not_accessible promised.1 promised.2).2
        exact if_neg (by change accessible _ ≠ true; rw [notThere]; exact Bool.false_ne_true)
      rw [faults]
      apply iff_of_false not_blockMet_faulted
      rintro ⟨-, addr, isMapped⟩
      cases isMapped
  | mapped addr =>
      have maps : state.Maps base ⟨addr, addr + mmapSize size⟩ := promised huge
      have positive : 0 < addr := maps.positive
      have fits : addr + mmapSize size ≤ 2 ^ 47 := maps.fits
      have nonempty : addr < addr + mmapSize size := maps.nonempty
      have isThere : accessible addr = true := by
        rw [accessible, decide_eq_true_iff]
        omega
      have returns : state.heap.merge caller (some (heap.hugeBlock size (rtMmap (.mapped addr)))) =
          .returned addr (heap.hugeBlock size addr).2 caller := if_pos isThere
      have isHuge : Allocation.isHuge ⟨addr, size⟩ = true := Allocation.isHuge_iff.mpr huge
      rcases load_hugeBlock heap size addr with ⟨starts, ends⟩
      rw [returns, blockMet_returned_iff (Nat.ne_of_gt positive), SizedBlock, starts, ends]
      constructor
      · intro sized
        by_contra wraps
        refine not_room_of_wrapped isWord ?_ fits sized.room
        by_contra small
        exact wraps ⟨by omega, addr, rfl⟩
      · rintro ⟨noWrap, -⟩
        have room := mmapSize_room noWrap (by omega)
        rw [iadd_eq (by omega), iadd_eq (by omega), Allocation.space_huge isHuge]
        refine ⟨by omega, by omega, ⟨Nat.le_add_right _ _, Nat.le_refl _⟩, ?_, ?_⟩
        · rw [memoryOf, if_pos huge]
          exact ⟨Nat.le_refl _, Nat.le_refl _⟩
        · rw [← Allocation.space_huge isHuge]
          exact but.mapping_apart huge isWord maps

/-- A block that is handed out with the header that a chunk has is met. -/
theorem small_met (but : IntactBut base moved state) (caller : Caller) {size raw : Nat}
    (answer : Answer) (small : sizeClass size ≤ MAX_CLASS) (isWord : size < 2 ^ 64)
    {block : Option (Nat × Heap)}
    (sameBlock : block = none ∨ ∃ fatPtr plain after,
      state.heap.allocateRaw size raw = some (fatPtr, plain) ∧ block = some (fatPtr, after) ∧
        after.load fatPtr = plain.load fatPtr ∧ after.load (fatPtr + 8) = plain.load (fatPtr + 8)) :
    BlockMet base state caller size answer (state.heap.merge caller block) := by
  rcases sameBlock with rfl | ⟨fatPtr, plain, after, allocates, rfl, sameStart, sameStop⟩
  · exact .inl rfl
  · rcases but.small_sized small isWord allocates with
      ⟨isThere, starts, ends, inside, within, apart⟩
    have memory : memoryOf base size answer = base.region := by
      cases answer with
      | mapped addr => exact if_neg (Nat.not_lt.mpr small)
      | failed errno => rfl
    refine .inr ⟨fatPtr, after, if_pos isThere, ?_⟩
    rw [SizedBlock, sameStart, sameStop, starts, ends, memory]
    have isSmall : Allocation.isHuge ⟨fatPtr, size⟩ = false :=
      Allocation.isHuge_eq_false_iff.mpr small
    have above : (Allocation.space ⟨fatPtr, size⟩).first ≤ fatPtr + 16 := by
      rw [Allocation.space_small isSmall]
      exact Nat.le_add_right _ _
    exact ⟨by omega, by omega, ⟨above, inside⟩, within, apart⟩

theorem raw_met_iff (but : IntactBut base moved state) (caller : Caller) {size : Nat}
    {answer : Answer} (isWord : size < 2 ^ 64) (promised : Promised base state size answer) :
    BlockMet base state caller size answer
        (state.heap.rtAllocateRaw caller size (rtMmap answer)) ↔ SizeServed size answer := by
  unfold Heap.rtAllocateRaw
  by_cases small : sizeClass size ≤ MAX_CLASS
  · have inRange : size ≤ 2 ^ 24 := (sizeClass_le_iff isWord MAX_CLASS).mp small
    refine iff_of_true (@small_met _ _ _ but caller _ (rtMmap answer) answer small isWord _ ?_)
      (.inl inRange)
    rcases found : state.heap.allocateRaw size (rtMmap answer) with _ | ⟨fatPtr, plain⟩
    · exact .inl rfl
    · exact .inr ⟨fatPtr, plain, plain, rfl, rfl, rfl, rfl⟩
  · have huge := Nat.not_le.mp small
    have large := (huge_iff isWord).mp huge
    have isBlock : state.heap.allocateRaw size (rtMmap answer) =
        some (state.heap.hugeBlock size (rtMmap answer)) := if_neg small
    rw [isBlock, but.huge_met_iff caller huge isWord promised]
    exact (or_iff_right (Nat.not_le.mpr large)).symm

/-- A chunk of a free list is cleared behind its header. -/
theorem popped_block (but : IntactBut base moved state) {size raw fatPtr : Nat} {after : Heap}
    (small : sizeClass size ≤ MAX_CLASS) (isWord : size < 2 ^ 64)
    (pops : state.heap.allocateRaw size raw =
      some (state.heap.popBlock (sizeClass size) size fatPtr))
    (found : state.heap.popZeroed (sizeClass size) size fatPtr = (fatPtr, after)) :
    ∃ plain words, state.heap.allocateRaw size raw = some (fatPtr, plain) ∧
      after = { plain with words := words } ∧
      AgreeOutside (Allocation.space ⟨fatPtr, size⟩) plain.words words ∧
      words fatPtr = plain.words fatPtr ∧ words (fatPtr + 8) = plain.words (fatPtr + 8) := by
  rcases but.small_sized small isWord pops with ⟨-, starts, ends, inside, within, -⟩
  have stops := Nat.le_trans inside (Nat.le_trans within.2 base.fits)
  let payload := state.heap.words fatPtr
  let unlinked := Function.update state.heap.words (fatPtr + 8) (iadd payload size)
  have popped : (state.heap.popBlock (sizeClass size) size fatPtr).2.words =
      Function.update unlinked payload 0 := rfl
  have isBehind : payload = fatPtr + 16 := by
    have loaded : Function.update unlinked payload 0 fatPtr = fatPtr + 16 := starts
    by_cases same : fatPtr = payload
    · rw [← same, Function.update_self] at loaded
      omega
    · rw [Function.update_of_ne same] at loaded
      exact (Function.update_of_ne (by omega) _ _).symm.trans loaded
  have isSmall : Allocation.isHuge ⟨fatPtr, size⟩ = false := Allocation.isHuge_eq_false_iff.mpr small
  have room : size ≤ classSize (sizeClass size) := le_classSize isWord
  have positive := classSize_pos (sizeClass size)
  have inChunk : ∀ addr, fatPtr ≤ addr → addr < fatPtr + 16 + classSize (sizeClass size) →
      addr ∈ Allocation.space ⟨fatPtr, size⟩ := by
    intro addr above before
    rw [Allocation.space_small isSmall]
    exact ⟨above, before⟩
  have padded : iadd size 7 = size + 7 := iadd_eq (by omega)
  have below := alignDown_le (size + 7) 8
  have noWrap : payload + 8 * (alignDown (iadd size 7) 8 / 8) < 2 ^ 64 := by
    rw [padded]
    omega
  rcases @Heap.zeroRounds_spec ((state.heap.setHead (sizeClass size)
    (state.heap.load payload)).store (fatPtr + 8) (iadd payload size)) _ _ noWrap with
    ⟨words, rounds, -, others⟩
  have isAfter : after = { (state.heap.popBlock (sizeClass size) size fatPtr).2 with
      words := words } := by
    have second := congrArg Prod.snd found
    change Heap.zeroRounds _ payload _ = after at second
    rw [← second]
    exact rounds
  refine ⟨_, words, pops, isAfter, ?_, ?_, ?_⟩
  · intro addr outside
    have notCleared : ∀ index < alignDown (iadd size 7) 8 / 8, addr ≠ payload + 8 * index := by
      rintro index inRange rfl
      rw [padded] at inRange
      exact outside (inChunk _ (by omega) (by omega))
    have notLink : addr ≠ payload := by
      rintro rfl
      exact outside (inChunk _ (by omega) (by omega))
    exact (others addr notCleared).trans (Function.update_of_ne notLink _ _).symm
  · change _ = Function.update unlinked payload 0 fatPtr
    rw [others fatPtr (by omega)]
    exact (Function.update_of_ne (by omega) _ _).symm
  · change _ = Function.update unlinked payload 0 (fatPtr + 8)
    rw [others (fatPtr + 8) (by omega)]
    exact (Function.update_of_ne (by omega) _ _).symm

/-- `rt_allocate` hands out the same block, and clears it between the header and its end. -/
theorem zeroed_block (but : IntactBut base moved state) {size raw fatPtr : Nat} {after : Heap}
    (isWord : size < 2 ^ 64)
    (maps : MAX_CLASS < sizeClass size → state.Maps base ⟨raw, raw + mmapSize size⟩)
    (allocates : state.heap.allocate size raw = some (fatPtr, after)) :
    ∃ plain words, state.heap.allocateRaw size raw = some (fatPtr, plain) ∧
      after = { plain with words := words } ∧
      AgreeOutside (Allocation.space ⟨fatPtr, size⟩) plain.words words ∧
      words fatPtr = plain.words fatPtr ∧ words (fatPtr + 8) = plain.words (fatPtr + 8) := by
  simp only [Heap.allocate] at allocates
  by_cases small : sizeClass size ≤ MAX_CLASS
  · rw [if_pos small] at allocates
    by_cases hasFree : state.heap.freeListHeads (sizeClass size) ≠ 0
    · rw [if_pos hasFree] at allocates
      have pops : state.heap.allocateRaw size raw = some (state.heap.popBlock (sizeClass size) size
          (state.heap.freeListHeads (sizeClass size))) := by
        simp only [Heap.allocateRaw]
        rw [if_pos small, if_pos hasFree]
      have found : state.heap.popZeroed (sizeClass size) size
          (state.heap.freeListHeads (sizeClass size)) = (fatPtr, after) := Option.some.inj allocates
      have isHead : state.heap.freeListHeads (sizeClass size) = fatPtr := congrArg Prod.fst found
      rw [isHead] at pops found
      exact but.popped_block small isWord pops found
    · rw [if_neg hasFree] at allocates
      refine ⟨after, after.words, ?_, rfl, fun _ _ => rfl, rfl, rfl⟩
      simp only [Heap.allocateRaw]
      rw [if_pos small, if_neg hasFree]
      exact allocates
  · rw [if_neg small] at allocates
    have huge := Nat.not_le.mp small
    have nonempty : raw < raw + mmapSize size := (maps huge).nonempty
    have isRaw : state.heap.allocateRaw size raw = some (state.heap.hugeBlock size raw) := if_neg small
    have mapped : (state.heap.advise raw (mmapSize size)).hugeBlock size raw = (fatPtr, after) :=
      Option.some.inj allocates
    have isFat : raw = fatPtr := congrArg Prod.fst mapped
    have isAfter : ((state.heap.advise raw (mmapSize size)).hugeBlock size raw).2 = after :=
      congrArg Prod.snd mapped
    rcases load_hugeBlock state.heap size raw with ⟨starts, ends⟩
    rcases load_hugeBlock (state.heap.advise raw (mmapSize size)) size raw with
      ⟨clearedStarts, clearedEnds⟩
    subst isFat isAfter
    refine ⟨(state.heap.hugeBlock size raw).2, Heap.words (Heap.hugeBlock _ size raw).2, isRaw, rfl,
      ?_, clearedStarts.trans starts.symm, clearedEnds.trans ends.symm⟩
    have isHuge : Allocation.isHuge ⟨raw, size⟩ = true := Allocation.isHuge_iff.mpr huge
    rw [Allocation.space_huge isHuge]
    intro addr outside
    rw [Region.mem_mk] at outside
    have notCleared : (state.heap.advise raw (mmapSize size)).words addr = state.heap.words addr :=
      if_neg outside
    exact update_congr (update_congr notCleared _ _) _ _

/-- What is allocated is allocated beside all that is live, and cleared in its own memory. -/
theorem zeroed_allocate (but : IntactBut base moved state) {size raw fatPtr : Nat} {after : Heap}
    (isWord : size < 2 ^ 64)
    (maps : MAX_CLASS < sizeClass size → state.Maps base ⟨raw, raw + mmapSize size⟩)
    (allocates : state.heap.allocate size raw = some (fatPtr, after)) :
    IntactBut base (⟨fatPtr, size⟩ :: moved) (state.record ⟨fatPtr, size⟩ after) ∧
      (∀ other ∈ state.live, other ≠ ⟨fatPtr, size⟩) ∧
      AgreeOutside (Allocation.space ⟨fatPtr, size⟩) state.heap.words after.words := by
  rcases but.zeroed_block isWord maps allocates with ⟨plain, words, isRaw, rfl, agree, -, -⟩
  rcases but.allocate isWord maps isRaw with ⟨allocated, fresh, outside⟩
  refine ⟨?_, fresh, outside.trans agree⟩
  have wider : IntactBut base (⟨fatPtr, size⟩ :: moved) (state.record ⟨fatPtr, size⟩ plain) :=
    allocated.mono (List.subset_cons_self _ _) (List.cons_subset_cons _ but.areLive)
  exact wider.write fun addr apart _ => agree addr (apart _ List.mem_cons_self)

/-- What `rt_allocate` puts into its tuple is met for the same sizes. -/
theorem zeroed_met_iff (but : IntactBut base moved state) (caller : Caller) {size : Nat}
    {answer : Answer} (isWord : size < 2 ^ 64) (promised : Promised base state size answer) :
    BlockMet base state caller size answer
        (state.heap.merge caller (state.heap.allocate size (rtMmap answer))) ↔
      SizeServed size answer := by
  by_cases small : sizeClass size ≤ MAX_CLASS
  · have inRange : size ≤ 2 ^ 24 := (sizeClass_le_iff isWord MAX_CLASS).mp small
    refine iff_of_true (@small_met _ _ _ but caller _ (rtMmap answer) answer small isWord _ ?_)
      (.inl inRange)
    rcases found : state.heap.allocate size (rtMmap answer) with _ | ⟨fatPtr, after⟩
    · exact .inl rfl
    · rcases but.zeroed_block isWord (fun huge => absurd small (Nat.not_le.mpr huge)) found with
        ⟨plain, words, allocates, isAfter, -, sameStart, sameStop⟩
      rw [isAfter]
      exact .inr ⟨fatPtr, plain, _, allocates, rfl, sameStart, sameStop⟩
  · have huge := Nat.not_le.mp small
    have large := (huge_iff isWord).mp huge
    have isBlock : state.heap.allocate size (rtMmap answer) =
        some ((state.heap.advise (rtMmap answer) (mmapSize size)).hugeBlock size (rtMmap answer)) :=
      if_neg small
    rw [isBlock, but.huge_met_iff caller huge isWord promised]
    exact (or_iff_right (Nat.not_le.mpr large)).symm

end IntactBut

end LakeNative.Allocators

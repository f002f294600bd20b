import LakeNative.Allocators.BucketSafety

/-! # The pages of a free chunk

A chunk of two pages or more gives its pages back to the kernel when it is freed, all but the
one with the link in it.
-/

namespace LakeNative.Allocators

open LakeNative.Runtime LakeNative.Runtime.Heap LakeNative.Regions LakeNative.Transitions

variable {bucket payloadStart : Nat}

/-- The range that is passed to `madvise`. -/
def advised (bucket payloadStart : Nat) : Region :=
  ⟨adviseAddr payloadStart, adviseAddr payloadStart + adviseLen bucket payloadStart⟩

/-- How far behind the start of the payload the range starts. -/
def adviseOffset (payloadStart : Nat) : Nat := isub (adviseAddr payloadStart) payloadStart

/-- Both ends of the range are page-aligned. Counted from the start of the payload, it lies
behind the link, has room for a page and ends with the bucket, so that no subtraction goes
below zero. -/
structure SafeRange (bucket payloadStart : Nat) : Prop where
  addrAligned : 4096 ∣ adviseAddr payloadStart
  stopAligned : 4096 ∣ (advised bucket payloadStart).stop
  behindLink : 8 < adviseOffset payloadStart
  page : adviseOffset payloadStart + 4096 ≤ classSize bucket
  tail : isub (iadd payloadStart (classSize bucket)) (adviseAddr payloadStart) =
    classSize bucket - adviseOffset payloadStart
  before : adviseOffset payloadStart + adviseLen bucket payloadStart ≤ classSize bucket

/-- The range starts with the next page boundary, which may be the one at the start of the
payload only if the payload starts before it. -/
theorem adviseOffset_eq (isWord : payloadStart < 2 ^ 64) (aligned : 16 ∣ payloadStart) :
    adviseOffset payloadStart = 4096 - payloadStart % 4096 := by
  unfold adviseOffset adviseAddr isub alignDown iadd
  omega

theorem adviseOffset_bounds (isWord : payloadStart < 2 ^ 64) (aligned : 16 ∣ payloadStart) :
    16 ≤ adviseOffset payloadStart ∧ adviseOffset payloadStart ≤ 4096 := by
  rw [adviseOffset_eq isWord aligned]
  omega

theorem adviseTail_eq (isWord : payloadStart < 2 ^ 64)
    (big : adviseOffset payloadStart ≤ classSize bucket) (small : classSize bucket < 2 ^ 64) :
    isub (iadd payloadStart (classSize bucket)) (adviseAddr payloadStart) =
      classSize bucket - adviseOffset payloadStart := by
  have addrWord : adviseAddr payloadStart < 2 ^ 64 :=
    Nat.lt_of_le_of_lt (alignDown_le _ _) (Nat.mod_lt _ (by decide))
  unfold adviseOffset isub iadd at *
  omega

theorem safeRange (isWord : payloadStart < 2 ^ 64) (aligned : 16 ∣ payloadStart)
    (big : 8192 ≤ classSize bucket) (inRange : bucket ≤ MAX_CLASS) :
    SafeRange bucket payloadStart := by
  have offset := adviseOffset_bounds isWord aligned
  have small := classSize_le inRange
  have addrAligned : 4096 ∣ adviseAddr payloadStart := alignDown_dvd _ _
  have lenAligned : 4096 ∣ adviseLen bucket payloadStart := alignDown_dvd _ _
  have tail := @adviseTail_eq bucket payloadStart isWord (by omega) (by omega)
  have len : adviseLen bucket payloadStart ≤ classSize bucket - adviseOffset payloadStart := by
    rw [adviseLen, tail]
    exact alignDown_le _ _
  exact {
    addrAligned := addrAligned
    stopAligned := Nat.dvd_add addrAligned lenAligned
    behindLink := by omega
    page := by omega
    tail := tail
    before := by omega }

/-- In a chunk that lies in the address space the offsets are addresses. -/
theorem SafeRange.within (safe : SafeRange bucket payloadStart) (isWord : payloadStart < 2 ^ 64)
    (fits : payloadStart + classSize bucket ≤ 2 ^ 64) :
    (advised bucket payloadStart).Within ⟨payloadStart + 8, payloadStart + classSize bucket⟩ := by
  have behindLink := safe.behindLink
  have before := safe.before
  have page := safe.page
  have aligned := safe.addrAligned
  have addrWord : adviseAddr payloadStart < 2 ^ 64 :=
    Nat.lt_of_le_of_lt (alignDown_le _ _) (Nat.mod_lt _ (by decide))
  unfold adviseOffset isub at *
  constructor
  · dsimp only [advised]
    omega
  · dsimp only [advised]
    omega

/-- `push_block` in terms of the range. -/
theorem pushBlock_advised (heap : Heap) (bucket fatPtr payloadStart : Nat) :
    heap.pushBlock bucket fatPtr payloadStart =
      let linked := (heap.store payloadStart (heap.freeListHeads bucket)).setHead bucket fatPtr
      if 8192 ≤ classSize bucket ∧ 4096 ≤ adviseLen bucket payloadStart then
        linked.advise (adviseAddr payloadStart) (adviseLen bucket payloadStart)
      else
        linked := rfl

theorem words_advise (heap : Heap) {addr length word : Nat}
    (outside : word ∉ Region.mk addr (addr + length)) :
    (heap.advise addr length).words word = heap.words word := if_neg outside

theorem words_advised (heap : Heap) (fatPtr : Nat) {word : Nat}
    (outside : word ∉ advised bucket payloadStart) :
    (heap.pushBlock bucket fatPtr payloadStart).words word =
      (heap.store payloadStart (heap.freeListHeads bucket)).words word := by
  rw [pushBlock_advised]
  split
  · exact words_advise _ outside
  · rfl

/-- The range that `rt_free` discards is a range of whole pages behind the link and in the
bucket, and all words outside it keep what they have. -/
theorem advised_range_safe {bucket payloadStart : Nat} (isWord : payloadStart < 2 ^ 64)
    (aligned : 16 ∣ payloadStart) (big : 8192 ≤ classSize bucket) (inRange : bucket ≤ MAX_CLASS) :
    SafeRange bucket payloadStart ∧
      (payloadStart + classSize bucket ≤ 2 ^ 64 →
        (advised bucket payloadStart).Within
          ⟨payloadStart + 8, payloadStart + classSize bucket⟩) ∧
      ∀ (heap : Heap) (fatPtr word : Nat), word ∉ advised bucket payloadStart →
        (heap.pushBlock bucket fatPtr payloadStart).words word =
          (heap.store payloadStart (heap.freeListHeads bucket)).words word := by
  have safe := safeRange isWord aligned big inRange
  exact ⟨safe, safe.within isWord, fun heap fatPtr _ => words_advised heap fatPtr⟩

/-- A payload 32 bytes behind a page boundary, and the bucket of 8 KiB: one page is given
back. -/
theorem advised_range_safe_small :
    SafeRange 9 4128 ∧ advised 9 4128 = ⟨8192, 12288⟩ ∧
      (advised 9 4128).Within ⟨4136, 12320⟩ := by
  have safe := advised_range_safe (by decide : 4128 < 2 ^ 64) (by decide) (by decide : 8192 ≤ classSize 9)
    (by decide)
  exact ⟨safe.1, by decide, safe.2.1 (by decide)⟩

/-! ## Chunks in a run -/

variable {base : HeapRegion} {state : BucketState} {dead : Nat → List Nat}

def ChunksAligned (state : BucketState) : Prop := ∀ chunk ∈ state.chunks, 16 ∣ chunk.fatPtr

/-- Chunks are cut off where the heap is aligned. -/
theorem ChunksAligned.step {event : BucketEvent} {next : BucketState}
    (aligned : ChunksAligned state) (intact : Intact base dead state)
    (step : BucketStep base state event next) : ChunksAligned next := by
  cases step with
  | @allocate heap size mmapAddr fatPtr isWord maps allocates =>
      have isAligned : heap.heapCurr ≠ state.heap.heapCurr → 16 ∣ fatPtr := by
        intro moved
        simp only [Heap.allocateRaw, Heap.bumpBlock] at allocates
        split at allocates
        · split at allocates
          · cases allocates
            exact absurd rfl moved
          · split at allocates
            · cases allocates
              exact intact.bump.2.2
            · cases allocates
        · cases allocates
          exact absurd rfl moved
      intro chunk member
      simp only [BucketState.record] at member
      split at member
      · exact aligned chunk member
      · rename_i moved
        rcases List.mem_cons.mp member with rfl | earlier
        · exact isAligned moved
        · exact aligned chunk earlier
  | free allocation freed member frees => exact aligned
  | write words keeps => exact aligned

theorem chunksAligned_run (base : HeapRegion) (words : Words)
    {history : List (Stage BucketState BucketEvent)} {final : BucketState}
    (run : Run (BucketStep base) (BucketState.start base words) history final)
    (condition : Meets FreesNoOverflow history) :
    ∃ dead, Intact base dead final ∧ ChunksAligned final := by
  have kept : Throughout (fun state => ∃ dead, Intact base dead state ∧ ChunksAligned state)
      history final := by
    apply run.invariant_of_meets condition
    · exact ⟨_, intact_start base words, nofun⟩
    · rintro state event next ⟨dead, intact, aligned⟩ condition step
      rcases intact_step intact condition step with ⟨later, stillIntact⟩
      exact ⟨later, stillIntact, aligned.step intact step⟩
  exact kept.2

/-- When a chunk is freed, what is discarded is apart from its own fat pointer and link, from
all other chunks, live or free, and from all other live allocations. -/
theorem Intact.advised_apart (intact : Intact base dead state) (aligned : ChunksAligned state)
    {chunk : Chunk} (member : chunk ∈ state.chunks) (big : 8192 ≤ classSize chunk.bucket) :
    Region.Apart ⟨chunk.fatPtr, chunk.fatPtr + 24⟩ (advised chunk.bucket (chunk.fatPtr + 16)) ∧
      (∀ other ∈ state.chunks, other ≠ chunk →
        other.space.Apart (advised chunk.bucket (chunk.fatPtr + 16))) ∧
      ∀ allocation ∈ state.live, allocation.fatPtr ≠ chunk.fatPtr →
        allocation.space.Apart (advised chunk.bucket (chunk.fatPtr + 16)) := by
  have fits := intact.chunk_fits member
  dsimp only [Chunk.space] at fits
  have isWord : chunk.fatPtr + 16 < 2 ^ 64 := by omega
  have payloadAligned : 16 ∣ chunk.fatPtr + 16 := Nat.dvd_add (aligned _ member) (Nat.dvd_refl 16)
  have safe := safeRange isWord payloadAligned big (intact.inRange _ member)
  have within := safe.within isWord (by omega)
  have inChunk : (advised chunk.bucket (chunk.fatPtr + 16)).Within chunk.space := by
    apply within.trans
    constructor
    · dsimp only [Chunk.space]
      omega
    · exact Nat.le_refl _
  refine ⟨.inl within.1, ?_, ?_⟩
  · intro other also different
    exact ((intact.apart _ member _ also different.symm).within inChunk).symm
  · intro allocation live different
    exact ((intact.chunk_apart member live different).within inChunk).symm

end LakeNative.Allocators

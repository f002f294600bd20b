import LakeNative.Allocators.LiveMemory

/-! # Freeing a buffer whose header has changed

`rt_free` finds the bucket of a chunk by the length that the header gives. Programs trim buffers,
and a length of another class leads to another bucket.
-/

namespace LakeNative.Runtime.Heap

/-- `buf_trim` -/
def bufTrim (heap : Heap) (fatPtr newLen : Nat) : Heap :=
  heap.store (fatPtr + 8) (iadd (heap.load fatPtr) newLen)

theorem freeListHeads_pushBlock (heap : Heap) (bucket fatPtr payloadStart : Nat) :
    (heap.pushBlock bucket fatPtr payloadStart).freeListHeads =
      Function.update heap.freeListHeads bucket fatPtr := by
  unfold pushBlock
  dsimp only
  split
  · rfl
  · rfl

end LakeNative.Runtime.Heap

namespace LakeNative.Allocators

open LakeNative.Runtime LakeNative.Regions

variable {base : HeapRegion} {state : BucketState} {dead : Nat → List Nat}
  {moved : List Allocation} {owner : Allocation} {span : Nat}

/-- Where the payload of an allocation starts. -/
def Allocation.payload (owner : Allocation) : Nat :=
  if owner.isHuge then owner.fatPtr + 32 else owner.fatPtr + 16

/-- A chunk goes back to its bucket, and of a huge allocation all pages are unmapped. -/
def GivesBack (owner : Allocation) : Heap.Freed → Prop
  | .pushed bucket => owner.isHuge = false ∧ bucket = owner.bucket
  | .unmapped addr length => owner.isHuge = true ∧ addr = owner.fatPtr ∧
      alignDown (iadd length 4095) 4096 = mmapSize owner.size

/-- `rt_free` for a fat pointer into the memory of a live allocation gives that back, leaves all
other live memory as it is, and the allocator intact. -/
structure FreedSafely (base : HeapRegion) (moved : List Allocation) (state : BucketState)
    (owner : Allocation) (result : Heap.Freed × Heap) : Prop where
  givesBack : GivesBack owner result.1
  listed : owner.isHuge = false → result.2.freeListHeads owner.bucket = owner.fatPtr
  beside : ∀ other ∈ state.live, other ≠ owner → ∀ addr ∈ other.space,
    result.2.words addr = state.heap.words addr
  intact : IntactBut base (moved.filter (· ≠ owner))
    { state with heap := result.2, live := state.live.erase owner }

/-- A length that leads `rt_free` back to where the allocation is from. -/
def SpanFits (owner : Allocation) (span : Nat) : Prop :=
  if owner.isHuge then MAX_CLASS < sizeClass span ∧ mmapSize span = mmapSize owner.size
  else sizeClass span = owner.bucket

/-! ## What stays of the invariant -/

namespace Intact

/-- A chunk that nobody has is held again. -/
theorem hold (intact : Intact base dead state) {fatPtr size : Nat}
    (isChunk : ⟨fatPtr, sizeClass size⟩ ∈ state.chunks) (isWord : size < 2 ^ 64)
    (stop : state.heap.load (fatPtr + 8) = fatPtr + 16 + size)
    (notLive : ∀ allocation ∈ state.live, allocation.fatPtr ≠ fatPtr)
    (notDead : ∀ bucket, fatPtr ∉ dead bucket) :
    Intact base dead { state with live := ⟨fatPtr, size⟩ :: state.live } := by
  have small : Allocation.isHuge ⟨fatPtr, size⟩ = false :=
    Allocation.isHuge_eq_false_iff.mpr (intact.inRange _ isChunk)
  have isEarlier : ∀ allocation ∈ (⟨fatPtr, size⟩ :: state.live : List Allocation),
      allocation.isHuge = true → allocation ∈ state.live := by
    intro allocation member huge
    apply (List.mem_cons.mp member).resolve_left
    rintro rfl
    rw [small] at huge
    cases huge
  refine {
    heapEnd := intact.heapEnd
    bump := intact.bump
    inRange := intact.inRange
    inside := intact.inside
    apart := intact.apart
    starts := intact.starts
    once := ?_
    held := ?_
    mappings := ?_
    lists := intact.lists
    isDead := ?_ }
  · refine List.nodup_cons.mpr ⟨fun member => ?_, intact.once⟩
    rcases List.mem_map.mp member with ⟨allocation, isLive, same⟩
    exact notLive allocation isLive same
  · intro allocation member
    rcases List.mem_cons.mp member with rfl | earlier
    · refine ⟨isWord, fun _ => ⟨isChunk, stop⟩, fun huge => ?_⟩
      rw [small] at huge
      cases huge
    · exact (intact.held _ earlier).frame (fun _ _ => rfl) (List.Subset.refl _)
  · intro allocation member other also different huge otherHuge
    exact intact.mappings _ (isEarlier _ member huge) _ (isEarlier _ also otherHuge) different huge
      otherHuge
  · intro bucket other member
    rcases intact.isDead bucket other member with ⟨alsoChunk, free⟩
    refine ⟨alsoChunk, fun allocation isLive => ?_⟩
    rcases List.mem_cons.mp isLive with rfl | earlier
    · rintro rfl
      exact notDead bucket member
    · exact free allocation earlier

/-- An allocation is on the list of live ones once. -/
theorem ne_of_mem_erase (intact : Intact base dead state) {other : Allocation}
    (member : other ∈ state.live.erase owner) : other ∈ state.live ∧ other ≠ owner :=
  have nodup : state.live.Nodup := intact.once.of_map
  (nodup.mem_erase_iff.mp member).symm

/-- The memory of an allocation is not looked at when it is not live any more, but for the start
of its chunk. -/
theorem drop (intact : Intact base dead state) (member : owner ∈ state.live) {words : Words}
    (start : owner.isHuge = false → words owner.fatPtr = owner.fatPtr + 16)
    (agree : AgreeOutside owner.space state.heap.words words) :
    Intact base dead { state with
      heap := { state.heap with words := words }
      live := state.live.erase owner } := by
  have fewer : Intact base dead { state with live := state.live.erase owner } :=
    intact.sublist List.erase_sublist
  apply fewer.rewrite
  · intro chunk isChunk
    by_cases same : owner.fatPtr = chunk.fatPtr
    · cases isHuge : owner.isHuge with
      | false =>
          rw [← same, start isHuge]
          exact (intact.load_start member isHuge).symm
      | true =>
          have apart := intact.chunk_within isChunk
          have outside := (((intact.held _ member).huge isHuge).2.2.2.2).symm.within apart
          have inside := intact.mem_space member (Nat.zero_le 16)
          rw [Allocation.space_huge isHuge] at inside
          have isIn : chunk.fatPtr + 0 ∈ chunk.space := Chunk.mem_space (Nat.zero_le 16)
          rw [← same] at isIn
          exact absurd inside (outside.notMem isIn)
    · exact agree.of_apart (intact.chunk_apart isChunk member same)
        (@Chunk.mem_space chunk 0 (Nat.zero_le 16))
  · intro other isOther
    rcases intact.ne_of_mem_erase isOther with ⟨isLive, different⟩
    have apart := intact.live_apart isLive member different
    exact ⟨agree.of_apart apart (intact.mem_space isLive (Nat.zero_le 16)),
      agree.of_apart apart (intact.mem_space isLive (by decide : 8 ≤ 16))⟩
  · intro bucket fatPtr isDead addr inSpace
    rcases intact.isDead _ _ isDead with ⟨isChunk, notLive⟩
    exact agree.of_apart (intact.chunk_apart isChunk member (notLive _ member)) inSpace

end Intact

namespace IntactBut

/-- Where the allocator is intact but for an allocation, it is intact without it, with the words
that there are. -/
theorem drop (but : IntactBut base moved state) (member : owner ∈ state.live)
    (start : state.heap.load owner.fatPtr = owner.payload) : ∃ dead words,
    Intact base dead
      { (state.withWords words) with live := state.live.erase owner } ∧
      (∀ bucket, owner.fatPtr ∉ dead bucket) ∧
      (∀ addr ∈ owner.space, words addr = state.heap.words addr) ∧
      (∀ addr, (∀ allocation ∈ moved.filter (· ≠ owner), addr ∉ allocation.space) →
        state.heap.words addr = words addr) ∧
      moved.filter (· ≠ owner) ⊆ state.live.erase owner := by
  rcases but.shadow with ⟨dead, shadow, intact, same⟩
  have isLive : owner ∈ (state.withWords shadow).live := member
  let words : Words := fun addr =>
    if addr ∈ owner.space then state.heap.words addr else shadow addr
  refine ⟨dead, words, ?_, ?_, fun addr inside => if_pos inside, ?_, ?_⟩
  · apply @Intact.drop base (state.withWords shadow) dead owner intact isLive
    · intro small
      have inside := intact.mem_space isLive (Nat.zero_le 16)
      refine (if_pos inside).trans (Eq.trans start ?_)
      rw [Allocation.payload, small]
      rfl
    · exact fun addr outside => if_neg outside
  · intro bucket isDead
    exact (intact.isDead _ _ isDead).2 owner isLive rfl
  · intro addr outside
    by_cases inside : addr ∈ owner.space
    · exact (if_pos inside).symm
    · refine (same addr fun allocation isMoved => ?_).trans (if_neg inside).symm
      by_cases isOwner : allocation = owner
      · exact isOwner ▸ inside
      · exact outside allocation (List.mem_filter.mpr ⟨isMoved, decide_eq_true isOwner⟩)
  · intro allocation isMoved
    rcases List.mem_filter.mp isMoved with ⟨member, different⟩
    exact (List.mem_erase_of_ne (of_decide_eq_true different)).mpr (but.areLive member)

/-- The allocation with another length of its class. -/
theorem resized (but : IntactBut base moved state) (member : owner ∈ state.live)
    (small : owner.isHuge = false) (sameClass : sizeClass span = owner.bucket)
    (isWord : span < 2 ^ 64) (start : state.heap.load owner.fatPtr = owner.fatPtr + 16)
    (stop : state.heap.load (owner.fatPtr + 8) = owner.fatPtr + 16 + span) :
    IntactBut base (moved.filter (· ≠ owner))
      { state with live := ⟨owner.fatPtr, span⟩ :: state.live.erase owner } := by
  have payload : owner.payload = owner.fatPtr + 16 := by
    rw [Allocation.payload, small]
    rfl
  rcases but.drop member (start.trans payload.symm) with
    ⟨dead, words, intact, notDead, inSpace, same, stillLive⟩
  rcases but.shadow with ⟨_, shadow, before, _⟩
  have isChunk := ((before.held owner member).small small).1
  refine ⟨fun _ isMoved => List.mem_cons_of_mem _ (stillLive isMoved), dead, words, ?_, same⟩
  apply Intact.hold intact
  · rw [sameClass]
    exact isChunk
  · exact isWord
  · exact (inSpace _ (but.mem_space member (by decide : 8 ≤ 16))).trans stop
  · intro allocation isLive sameFat
    rcases before.ne_of_mem_erase isLive with ⟨isOther, different⟩
    exact different (before.live_unique isOther member sameFat)
  · exact notDead

end IntactBut

/-! ## Which lengths lead back -/

/-- What `rt_free` makes of a length. -/
theorem free_of_span (heap : Heap) {fatPtr start : Nat} (isWord : span < 2 ^ 64)
    (startFits : start < 2 ^ 64) (first : heap.load fatPtr = start)
    (second : heap.load (fatPtr + 8) = iadd start span) :
    heap.free fatPtr =
      if sizeClass span ≤ MAX_CLASS then
        (.pushed (sizeClass span), heap.pushBlock (sizeClass span) fatPtr start)
      else
        (.unmapped fatPtr (isub (iadd start span) fatPtr), heap) := by
  have isSpan : isub (iadd start span) start = span := by
    unfold isub iadd
    omega
  rw [free_split, first, second, isSpan]

namespace IntactBut

/-- A small allocation whose header gives a length of its class is freed safely. -/
theorem freed_small (but : IntactBut base moved state) (member : owner ∈ state.live)
    (small : owner.isHuge = false) (sameClass : sizeClass span = owner.bucket)
    (isWord : span < 2 ^ 64) (start : state.heap.load owner.fatPtr = owner.fatPtr + 16)
    (stop : state.heap.load (owner.fatPtr + 8) = owner.fatPtr + 16 + span) {heap : Heap}
    (frees : (state.heap.free owner.fatPtr).2 = heap)
    (pushes : heap = state.heap.pushBlock owner.bucket owner.fatPtr (owner.fatPtr + 16)) :
    FreedSafely base moved state owner (.pushed owner.bucket, heap) := by
  have inRange : sizeClass span ≤ MAX_CLASS := by
    rw [sameClass]
    exact Allocation.isHuge_eq_false_iff.mp small
  have bounded : span ≤ 2 ^ 24 := (sizeClass_le_iff isWord MAX_CLASS).mp inRange
  have resized := but.resized member small sameClass isWord start stop
  let trimmed : Allocation := ⟨owner.fatPtr, span⟩
  have stillSmall : trimmed.isHuge = false := Allocation.isHuge_eq_false_iff.mpr inRange
  have sameSpace : trimmed.space = owner.space := by
    rw [Allocation.space_small small, Allocation.space_small stillSmall]
    exact congrArg (fun bucket => Chunk.space ⟨owner.fatPtr, bucket⟩) sameClass
  have isUnmoved : trimmed ∉ moved.filter (· ≠ owner) := by
    intro isMoved
    rcases List.mem_filter.mp isMoved with ⟨wasMoved, different⟩
    rcases but.shadow with ⟨_, shadow, intact, _⟩
    exact of_decide_eq_true different (intact.live_unique (but.areLive wasMoved) member rfl)
  have noOverflow : trimmed.size < 2 ^ 64 - 31 := Nat.lt_of_le_of_lt bounded (by decide)
  rcases resized.free List.mem_cons_self isUnmoved noOverflow frees with ⟨afterwards, agree⟩
  rw [sameSpace] at agree
  refine ⟨⟨small, rfl⟩, fun _ => ?_, ?_, ?_⟩
  · rw [pushes, Heap.freeListHeads_pushBlock]
    exact Function.update_self _ _ _
  · intro other isLive different addr inSpace
    exact agree.of_apart (but.live_apart isLive member different) inSpace
  · have erased : (trimmed :: state.live.erase owner).erase trimmed = state.live.erase owner :=
      List.erase_cons_head _ _
    dsimp only at afterwards
    rw [erased] at afterwards
    exact afterwards

/-- A huge allocation is freed safely if the unmapped pages are its own. -/
theorem freed_huge (but : IntactBut base moved state) (member : owner ∈ state.live)
    (huge : owner.isHuge = true) {length : Nat}
    (samePages : alignDown (iadd length 4095) 4096 = mmapSize owner.size)
    (start : state.heap.load owner.fatPtr = owner.fatPtr + 32) :
    FreedSafely base moved state owner (.unmapped owner.fatPtr length, state.heap) := by
  have payload : owner.payload = owner.fatPtr + 32 := by
    rw [Allocation.payload, huge]
    rfl
  rcases but.drop member (start.trans payload.symm) with
    ⟨dead, words, intact, _, _, same, stillLive⟩
  refine ⟨⟨huge, rfl, samePages⟩, fun small => ?_, fun _ _ _ _ _ => rfl, ?_⟩
  · rw [huge] at small
    cases small
  · exact ⟨stillLive, dead, words, intact, same⟩

/-- While the header has its start, freeing is safe if the length leads back. -/
theorem freed_safely_iff (but : IntactBut base moved state) (member : owner ∈ state.live)
    (isWord : span < 2 ^ 64) (start : state.heap.load owner.fatPtr = owner.payload)
    (stop : state.heap.load (owner.fatPtr + 8) = iadd owner.payload span) :
    FreedSafely base moved state owner (state.heap.free owner.fatPtr) ↔ SpanFits owner span := by
  have fits := but.space_fits member
  have fatIn := (but.mem_space member (by decide : 16 ≤ 16)).2
  have startFits : owner.payload < 2 ^ 64 := by
    unfold Allocation.payload
    split <;> omega
  have frees := free_of_span state.heap isWord startFits start stop
  cases isHuge : owner.isHuge with
  | false =>
      have payload : owner.payload = owner.fatPtr + 16 := by
        rw [Allocation.payload, isHuge]
        rfl
      rw [payload] at start stop frees
      rw [SpanFits, isHuge]
      constructor
      · intro safely
        have givesBack := safely.givesBack
        rw [frees] at givesBack
        split at givesBack
        · exact givesBack.2
        · have huge := givesBack.1
          rw [isHuge] at huge
          cases huge
      · intro sameClass
        have inRange : sizeClass span ≤ MAX_CLASS := by
          rw [sameClass]
          exact Allocation.isHuge_eq_false_iff.mp isHuge
        have bounded : span ≤ 2 ^ 24 := (sizeClass_le_iff isWord MAX_CLASS).mp inRange
        have plainStop : iadd (owner.fatPtr + 16) span = owner.fatPtr + 16 + span :=
          iadd_eq (by omega)
        rw [if_pos inRange, sameClass] at frees
        rw [frees]
        exact but.freed_small member isHuge sameClass isWord start (stop.trans plainStop)
          (congrArg Prod.snd frees) rfl
  | true =>
      have payload : owner.payload = owner.fatPtr + 32 := by
        rw [Allocation.payload, isHuge]
        rfl
      rw [payload] at start stop frees
      have length : isub (iadd (owner.fatPtr + 32) span) owner.fatPtr = iadd span 32 := by
        unfold isub iadd
        omega
      rw [length] at frees
      rw [SpanFits, isHuge, if_pos rfl, frees]
      constructor
      · intro safely
        have givesBack := safely.givesBack
        split at givesBack
        · have small := givesBack.1
          rw [isHuge] at small
          cases small
        · exact ⟨Nat.not_le.mp ‹_›, givesBack.2.2⟩
      · rintro ⟨large, samePages⟩
        rw [if_neg (Nat.not_le.mpr large)]
        exact but.freed_huge member isHuge samePages start

end IntactBut

end LakeNative.Allocators

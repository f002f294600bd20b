import LakeNative.Allocators.BucketInvariant

/-! # Safety of the bucket allocator

Live allocations do not share memory, the free lists have dead chunks only, and freed memory
goes back to where it came from, except that of a request so large that its size with the fat
pointer in front of it is not a word.
-/

namespace LakeNative.Allocators

open LakeNative.Runtime LakeNative.Regions LakeNative.LinkedList LakeNative.Transitions

variable {base : HeapRegion} {state : BucketState} {dead : Nat → List Nat}

/-- The fat pointers and payloads of live allocations are apart and lie in the heap or in
their own mapping. The free lists come to their end and have the bucket's dead chunks, each
once. -/
structure BucketSafe (base : HeapRegion) (state : BucketState) : Prop where
  apart : state.live.Pairwise fun allocation other =>
    ∀ part ∈ [allocation.header, allocation.region state.heap],
      ∀ otherPart ∈ [other.header, other.region state.heap], part.Apart otherPart
  payload : ∀ allocation ∈ state.live, allocation.header.Apart (allocation.region state.heap)
  inside : ∀ allocation ∈ state.live,
    ∀ part ∈ [allocation.header, allocation.region state.heap],
      part.Within (if allocation.isHuge then allocation.mapping else base.region)
  lists : ∀ bucket ≤ MAX_CLASS, ∃ cells,
    Chain (nextFree state.heap) 0 (state.heap.freeListHeads bucket) cells ∧ cells.Nodup ∧
      ∀ fatPtr ∈ cells, ⟨fatPtr, bucket⟩ ∈ state.chunks ∧
        ∀ allocation ∈ state.live, allocation.fatPtr ≠ fatPtr

/-- A chunk is pushed on the list of its bucket, and a mapping is unmapped as it was mapped. -/
def FreedAsAllocated (_ : BucketState) : BucketEvent → Prop
  | .free allocation freed => freed = allocation.freed
  | _ => True

/-- What is freed was not requested with a size that `huge_block` takes for a small one. -/
def FreesNoOverflow (_ : BucketState) : BucketEvent → Prop
  | .free allocation _ => allocation.size < 2 ^ 64 - 31
  | _ => True

theorem Intact.safe (intact : Intact base dead state) : BucketSafe base state := by
  have parts : ∀ allocation ∈ state.live,
      ∀ part ∈ [allocation.header, allocation.region state.heap],
        part.Within allocation.space := by
    intro allocation member part isPart
    rcases List.mem_pair.mp isPart with rfl | rfl
    · have held := intact.held _ member
      cases isHuge : allocation.isHuge with
      | false =>
          rw [Allocation.space_small isHuge]
          exact ⟨Nat.le_refl _, Nat.le_add_right _ _⟩
      | true =>
          have atLeast := mmapSize_ge (held.huge isHuge).2.2.1
          rw [Allocation.space_huge isHuge]
          refine ⟨Nat.le_refl _, ?_⟩
          dsimp only [Allocation.header, Allocation.mapping]
          omega
    · exact (intact.region_within member).1
  refine ⟨?_, ?_, ?_, ?_⟩
  · refine intact.once.of_map.pairwise_of_forall_ne fun allocation member other also different => ?_
    intro part isPart otherPart isOther
    have apart := intact.live_apart member also different
    exact ((apart.within (parts _ member _ isPart)).symm.within (parts _ also _ isOther)).symm
  · intro allocation member
    exact .inl (intact.region_within member).2
  · intro allocation member part isPart
    apply (parts _ member _ isPart).trans
    cases isHuge : allocation.isHuge with
    | false =>
        rw [Allocation.space_small isHuge]
        exact intact.chunk_within ((intact.held _ member).small isHuge).1
    | true =>
        rw [Allocation.space_huge isHuge]
        exact ⟨Nat.le_refl _, Nat.le_refl _⟩
  · intro bucket _
    exact ⟨dead bucket, intact.lists bucket, (intact.lists bucket).nodup, intact.isDead bucket⟩

/-! ## What `rt_free` makes of a fat pointer -/

theorem mmapSize_of_overflow {size : Nat} (isWord : size < 2 ^ 64) (overflows : 2 ^ 64 - 31 ≤ size) :
    mmapSize size = 4096 := by
  unfold mmapSize iadd alignDown
  omega

theorem mmapSize_room {size : Nat} (small : size < 2 ^ 64 - 31) (nonempty : 0 < mmapSize size) :
    size + 32 ≤ mmapSize size := by
  unfold mmapSize iadd alignDown at *
  omega

namespace Intact

theorem free_small (intact : Intact base dead state) {allocation : Allocation}
    (member : allocation ∈ state.live) (small : allocation.isHuge = false) :
    state.heap.free allocation.fatPtr = (.pushed allocation.bucket,
      state.heap.pushBlock allocation.bucket allocation.fatPtr (allocation.fatPtr + 16)) := by
  have held := intact.held _ member
  rcases held.small small with ⟨isChunk, ends⟩
  have starts := intact.load_start member small
  have fits := intact.chunk_fits isChunk
  have room : allocation.size ≤ classSize allocation.bucket := le_classSize held.isWord
  change allocation.fatPtr + 16 + classSize allocation.bucket ≤ 2 ^ 47 at fits
  have span : isub (allocation.fatPtr + 16 + allocation.size) (allocation.fatPtr + 16) =
      allocation.size := by
    rw [isub_eq (Nat.le_add_right _ _) (by omega)]
    omega
  rw [Allocation.isHuge_eq_false_iff, Allocation.bucket] at small
  simp only [Heap.free, starts, ends, span]
  exact if_pos small

/-- The size of a huge payload is that of its mapping behind the fat pointer. -/
theorem free_huge (intact : Intact base dead state) {allocation : Allocation}
    (member : allocation ∈ state.live) (huge : allocation.isHuge = true) :
    state.heap.free allocation.fatPtr =
      if mmapSize allocation.size ≤ 2 ^ 24 + 32 then
        let bucket := sizeClass (mmapSize allocation.size - 32)
        (.pushed bucket, state.heap.pushBlock bucket allocation.fatPtr (allocation.fatPtr + 32))
      else
        (.unmapped allocation.fatPtr (mmapSize allocation.size), state.heap) := by
  rcases (intact.held _ member).huge huge with ⟨starts, ends, nonempty, fits, -⟩
  have atLeast := mmapSize_ge nonempty
  dsimp only [Allocation.mapping] at fits
  have span : isub (allocation.fatPtr + mmapSize allocation.size) (allocation.fatPtr + 32) =
      mmapSize allocation.size - 32 := by
    rw [isub_eq (by omega) (by omega)]
    omega
  have whole : isub (allocation.fatPtr + mmapSize allocation.size) allocation.fatPtr =
      mmapSize allocation.size := by
    rw [isub_eq (Nat.le_add_right _ _) (by omega)]
    omega
  have inRange : sizeClass (mmapSize allocation.size - 32) ≤ MAX_CLASS ↔
      mmapSize allocation.size ≤ 2 ^ 24 + 32 := by
    have huge := @huge_iff (mmapSize allocation.size - 32) (by omega)
    omega
  simp only [Heap.free, starts, ends, span, whole, inRange]

theorem freed_iff (intact : Intact base dead state) {allocation : Allocation}
    (member : allocation ∈ state.live) :
    (state.heap.free allocation.fatPtr).1 = allocation.freed ↔ allocation.size < 2 ^ 64 - 31 := by
  have held := intact.held _ member
  have isWord := held.isWord
  cases isHuge : allocation.isHuge with
  | false =>
      have small := isHuge
      rw [Allocation.isHuge_eq_false_iff, Allocation.bucket, ← Nat.not_lt, huge_iff isWord] at small
      rw [intact.free_small member isHuge, Allocation.freed, isHuge]
      exact iff_of_true rfl (by omega)
  | true =>
      have huge := isHuge
      rw [Allocation.isHuge_iff, Allocation.bucket, huge_iff isWord] at huge
      rw [intact.free_huge member isHuge, Allocation.freed, isHuge]
      by_cases overflows : 2 ^ 64 - 31 ≤ allocation.size
      · rw [mmapSize_of_overflow isWord overflows, if_pos (by decide)]
        exact iff_of_false nofun (by omega)
      · have room := mmapSize_room (by omega) (held.huge isHuge).2.2.1
        rw [if_neg (by omega)]
        exact iff_of_true rfl (by omega)

end Intact

/-! ## Runs -/

theorem intact_start (base : HeapRegion) (words : Words) :
    Intact base (fun _ => []) (BucketState.start base words) where
  heapEnd := by
    have fits := base.fits
    exact iadd_eq (by omega)
  bump := by
    have aligned : 16 ∣ base.first := Nat.dvd_trans (by decide) base.aligned
    exact ⟨Nat.le_refl _, Nat.le_add_right _ _, aligned⟩
  inRange := nofun
  inside := nofun
  apart := nofun
  starts := nofun
  once := List.nodup_nil
  held := nofun
  mappings := nofun
  lists _ := rfl
  isDead := nofun

theorem intact_step {next : BucketState} {event : BucketEvent} (intact : Intact base dead state)
    (condition : FreesNoOverflow state event) (step : BucketStep base state event next) :
    ∃ later, Intact base later next := by
  cases step with
  | @allocate heap size mmapAddr fatPtr isWord maps allocates =>
      simp only [Heap.allocateRaw] at allocates
      split at allocates
      · rename_i inRange
        split at allocates
        · rename_i hasFree
          cases allocates
          exact intact.pop isWord inRange rfl hasFree
        · exact ⟨dead, intact.bump_block isWord inRange allocates⟩
      · rename_i huge
        cases allocates
        exact ⟨dead, intact.map isWord (Nat.not_le.mp huge) (maps (Nat.not_le.mp huge))⟩
  | @free heap allocation freed member frees =>
      cases isHuge : allocation.isHuge with
      | false =>
          rw [intact.free_small member isHuge] at frees
          cases frees
          exact intact.push member isHuge
      | true =>
          have isFreed := (intact.freed_iff member).mpr condition
          rw [intact.free_huge member isHuge] at frees isFreed
          split at frees
          · rename_i inRange
            rw [if_pos inRange, Allocation.freed, isHuge] at isFreed
            cases isFreed
          · cases frees
            exact ⟨dead, intact.sublist List.erase_sublist⟩
  | write words keeps => exact ⟨dead, intact.write keeps⟩

/-- The allocator is safe in exactly the runs that free no allocation of such a size. -/
theorem bucket_allocator_iff (base : HeapRegion) (words : Words)
    {history : List (Stage BucketState BucketEvent)} {final : BucketState}
    (run : Run (BucketStep base) (BucketState.start base words) history final) :
    Meets FreedAsAllocated history ∧ Throughout (BucketSafe base) history final ↔
      Meets FreesNoOverflow history := by
  have initially := intact_start base words
  refine @Run.guarantees_iff_meets _ _ _ _ _ _ (fun state => ∃ dead, Intact base dead state)
    (BucketSafe base) FreedAsAllocated FreesNoOverflow run ⟨_, initially⟩ initially.safe ?_ ?_
  · rintro state event next ⟨dead, intact⟩ - step
    constructor
    · rintro ⟨guaranteed, -⟩
      cases step with
      | allocate | write => exact trivial
      | free allocation freed member frees =>
          apply (intact.freed_iff member).mp
          rw [frees]
          exact guaranteed
    · intro condition
      rcases intact_step intact condition step with ⟨later, stillIntact⟩
      refine ⟨?_, stillIntact.safe⟩
      cases step with
      | allocate | write => exact trivial
      | free allocation freed member frees =>
          have isFreed := (intact.freed_iff member).mpr condition
          rw [frees] at isFreed
          exact isFreed
  · rintro state event next ⟨dead, intact⟩ - condition step
    exact intact_step intact condition step

/-! ## Two runs -/

/-- A heap at the lowest page that may be mapped. -/
def lowHeap : HeapRegion := ⟨4096, by decide, by decide, by decide⟩

def emptyState : BucketState := .start lowHeap fun _ => 0

/-- The heap behind a call that returns. -/
def heapAfter (result : Option (Nat × Heap)) : Heap := (result.map Prod.snd).getD emptyState.heap

theorem returned {result : Option (Nat × Heap)} {fatPtr : Nat}
    (found : result.map Prod.fst = some fatPtr) : result = some (fatPtr, heapAfter result) := by
  rcases Option.map_eq_some_iff.mp found with ⟨⟨_, heap⟩, isResult, rfl⟩
  rw [isResult]
  rfl

/-- A call of `rt_free` is a step, whatever it does. -/
theorem free_step {allocation : Allocation} (member : allocation ∈ state.live) :
    ∃ next, BucketStep base state
      (.free allocation (state.heap.free allocation.fatPtr).1) next :=
  ⟨_, .free allocation _ member (Prod.eta _).symm⟩

/-- The heaps behind a request for 16 bytes, behind a second one and behind the free of the
first. -/
def oneHeap : Heap := heapAfter (emptyState.heap.allocateRaw 16 0)

def twoHeap : Heap := heapAfter (oneHeap.allocateRaw 16 0)

def pushedHeap : Heap := (twoHeap.free 4096).2

/-- The chunk of a freed allocation is handed out again beside one that is still held. -/
theorem reuse_safe : ∃ history final,
    Run (BucketStep lowHeap) emptyState history final ∧ history.length = 4 ∧
      final.live = [⟨4096, 16⟩, ⟨4128, 16⟩] ∧
      Meets FreedAsAllocated history ∧ Throughout (BucketSafe lowHeap) history final := by
  have small : ¬ MAX_CLASS < sizeClass 16 := by decide +kernel
  let one := emptyState.record ⟨4096, 16⟩ oneHeap
  let two := one.record ⟨4128, 16⟩ twoHeap
  have first : BucketStep lowHeap emptyState (.allocate 16 4096) one :=
    .allocate 16 0 4096 (by decide) (fun huge => absurd huge small)
      (returned (by decide +kernel))
  have second : BucketStep lowHeap one (.allocate 16 4128) two :=
    .allocate 16 0 4128 (by decide) (fun huge => absurd huge small)
      (returned (by decide +kernel))
  have frees : ∃ freed, twoHeap.free 4096 = (freed, pushedHeap) := ⟨_, (Prod.eta _).symm⟩
  have reused : (pushedHeap.allocateRaw 16 0).map Prod.fst = some 4096 := by decide +kernel
  -- the heaps are not to be evaluated in what follows
  generalize pushedHeap = heap at frees reused
  rcases frees with ⟨freed, frees⟩
  rcases Option.map_eq_some_iff.mp reused with ⟨⟨_, reusedHeap⟩, allocates, rfl⟩
  have third := @BucketStep.free lowHeap two heap ⟨4096, 16⟩ freed (by decide) frees
  have fourth := @BucketStep.allocate lowHeap
    { two with heap := heap, live := two.live.erase ⟨4096, 16⟩ } reusedHeap 16 0 4096
    (by decide) (fun huge => absurd huge small) allocates
  have run := (((Run.refl.next first).next second).next third).next fourth
  refine ⟨_, _, run, rfl, rfl, (bucket_allocator_iff lowHeap _ run).mpr ?_⟩
  simp only [meets_cons, meets_nil, FreesNoOverflow, and_true, true_and]
  decide

/-- The mapping for a request of 2⁶⁴ - 1 bytes is a page, which `rt_free` puts on a free
list. -/
theorem overflow_not_unmapped : ∃ history final,
    Run (BucketStep lowHeap) emptyState history final ∧ ¬ Meets FreedAsAllocated history := by
  have huge : MAX_CLASS < sizeClass (2 ^ 64 - 1) := (huge_iff (by decide)).mpr (by decide)
  let heap := (emptyState.heap.hugeBlock (2 ^ 64 - 1) (2 ^ 46)).2
  let mapped := emptyState.record ⟨2 ^ 46, 2 ^ 64 - 1⟩ heap
  have allocates : emptyState.heap.allocateRaw (2 ^ 64 - 1) (2 ^ 46) = some (2 ^ 46, heap) := by
    rw [Heap.allocateRaw]
    exact if_neg (Nat.not_le.mpr huge)
  have first : BucketStep lowHeap emptyState (.allocate (2 ^ 64 - 1) (2 ^ 46)) mapped := by
    refine .allocate (2 ^ 64 - 1) (2 ^ 46) (2 ^ 46) (by decide) (fun _ => ?_) allocates
    rw [mmapSize_of_overflow (by decide) (by decide)]
    exact ⟨by decide, by decide, by decide, .inr (by decide), nofun⟩
  have condition : FreesNoOverflow emptyState (.allocate (2 ^ 64 - 1) (2 ^ 46)) := trivial
  rcases intact_step (intact_start lowHeap fun _ => 0) condition first with ⟨dead, intact⟩
  have member : ⟨2 ^ 46, 2 ^ 64 - 1⟩ ∈ mapped.live := List.mem_cons_self
  rcases @free_step lowHeap mapped _ member with ⟨final, second⟩
  refine ⟨_, final, (Run.refl.next first).next second, fun meets => ?_⟩
  have small := (intact.freed_iff member).mp (meets_cons.mp meets).1
  exact absurd small (by decide)

end LakeNative.Allocators

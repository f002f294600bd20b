import LakeNative.Allocators.BucketSafety
import LakeNative.Allocators.SlabRuns
import LakeNative.Runtime.Exhaustion

/-! # Mappings that fail

A failing system call leaves a negated error number in `rax`. What the callers of `rt_mmap` make
of it depends on the number.
-/

namespace LakeNative.Allocators

open LakeNative.Runtime LakeNative.Runtime.SlabLayout

/-- The bucket allocator and the slab allocator. -/
structure Allocator where
  bucket : Heap
  slab : SlabHeap

/-- `rt_mmap` and the places that it is called from. -/
inductive MapSite where
  | rtMmap
  | newSlab (classIdx : Fin NUM_CLASSES)
  | hugeBlock (userSize : Nat)
  | slabHugeBlock (userSize : Nat)
  | initHeap

/-- What follows at a place when `rt_mmap` has returned, with the value that is taken for memory. -/
def MapSite.run (allocator : Allocator) (caller : Caller) (raw : Nat) :
    MapSite → CallResult Allocator
  | .rtMmap => .returned raw allocator caller
  | .newSlab classIdx =>
      (allocator.slab.needNew caller classIdx raw).map fun slab => { allocator with slab := slab }
  | .hugeBlock userSize =>
      (allocator.bucket.merge caller (some (allocator.bucket.hugeBlock userSize raw))).map
        fun bucket => { allocator with bucket := bucket }
  | .slabHugeBlock userSize =>
      (allocator.slab.hugeBlock caller userSize raw).map fun slab => { allocator with slab := slab }
  | .initHeap =>
      .returned raw { allocator with bucket := allocator.bucket.initHeap raw } caller

/-- A failure path: the result is null or the end of the process, and nothing was written. -/
def Recognised (allocator : Allocator) (result : CallResult Allocator) : Prop :=
  (∃ caller, result = .returned 0 allocator caller) ∨ ∃ code, result = .exited code

/-- A negated error number is rounded up to null. -/
theorem mapSlab_failed (heap : SlabHeap) {slabSize errno : Nat} (large : 4096 ≤ slabSize)
    (small : slabSize ≤ 2 ^ 25) (positive : 1 ≤ errno) (bound : errno ≤ 4095) :
    (heap.mapSlab slabSize (2 ^ 64 - errno)).1 = 0 := by
  have wraps : iadd (2 ^ 64 - errno) (slabSize - 1) = slabSize - 1 - errno := by
    unfold iadd
    omega
  change alignDown (iadd (2 ^ 64 - errno) (slabSize - 1)) slabSize = 0
  rw [wraps, alignDown, Nat.mod_eq_of_lt (by omega), Nat.sub_self]

/-- One error number is told from an address, and the store to the slab's header faults for the
others. -/
theorem needNew_failed (heap : SlabHeap) (caller : Caller) {classIdx errno : Nat}
    (inRange : classIdx ≤ NUM_CLASSES - 1) (positive : 1 ≤ errno) (bound : errno ≤ 4095) :
    heap.needNew caller classIdx (rtMmap (.failed errno)) =
      if errno = 1 then outOfMemory heap caller else .faulted := by
  have large : 4096 ≤ slabSizeForClass classIdx := by
    unfold slabSizeForClass DEFAULT_SLAB_SIZE
    split <;> omega
  have small := (geometry classIdx inRange).2.2.2.2.2.2
  have isNull : (heap.createNewSlab classIdx (2 ^ 64 - errno)).1 = 0 :=
    mapSlab_failed heap large small positive bound
  rw [(failed_not_accessible positive bound).1, SlabHeap.needNew]
  by_cases isOne : errno = 1
  · rw [if_pos (by omega), if_pos isOne]
  · rw [if_neg (by omega), if_neg isOne]
    simp only [isNull]
    exact if_neg (by decide)

theorem recognised_outOfMemory {H : Type} (heap : H) (caller : Caller) (allocator : Allocator)
    (embed : H → Allocator) (same : embed heap = allocator) :
    Recognised allocator ((outOfMemory heap caller).map embed) := by
  unfold outOfMemory
  split
  · refine .inl ⟨{ caller with isDying := true }, ?_⟩
    rw [CallResult.map, same]
  · exact .inr ⟨137, rfl⟩

theorem not_recognised_faulted (allocator : Allocator) : ¬ Recognised allocator .faulted := by
  rintro (⟨caller, isReturned⟩ | ⟨code, isExited⟩)
  · cases isReturned
  · cases isExited

theorem not_recognised_returned (allocator after : Allocator) (caller : Caller) {value : Nat}
    (isBlock : value ≠ 0) : ¬ Recognised allocator (.returned value after caller) := by
  rintro (⟨other, isReturned⟩ | ⟨code, isExited⟩)
  · cases isReturned
    exact isBlock rfl
  · cases isExited

/-- A failing mapping is recognised by nothing but the creation of a slab, and there only if the
error number is the one that the code takes for every failure. -/
theorem mapping_failure_recognised_iff (allocator : Allocator) (caller : Caller) (site : MapSite)
    {errno : Nat} (positive : 1 ≤ errno) (bound : errno ≤ 4095) :
    Recognised allocator (site.run allocator caller (rtMmap (.failed errno))) ↔
      (∃ classIdx, site = .newSlab classIdx) ∧ errno = 1 := by
  rcases failed_not_accessible positive bound with ⟨negated, notThere⟩
  have isBlock : rtMmap (.failed errno) ≠ 0 := by omega
  have noSlab : ∀ {other : MapSite}, (∀ classIdx, other ≠ .newSlab classIdx) →
      ¬ ((∃ classIdx, other = .newSlab classIdx) ∧ errno = 1) :=
    fun different isSlab => isSlab.1.elim different
  cases site with
  | rtMmap =>
      refine iff_of_false (not_recognised_returned _ _ _ isBlock) (noSlab nofun)
  | newSlab classIdx =>
      have inRange : classIdx.val ≤ NUM_CLASSES - 1 := Nat.le_sub_one_of_lt classIdx.isLt
      rw [MapSite.run, needNew_failed _ _ inRange positive bound]
      by_cases isOne : errno = 1
      · rw [if_pos isOne]
        exact iff_of_true (recognised_outOfMemory _ _ _ _ rfl) ⟨⟨classIdx, rfl⟩, isOne⟩
      · rw [if_neg isOne]
        exact iff_of_false (not_recognised_faulted _) fun isSlab => isOne isSlab.2
  | hugeBlock userSize =>
      have faults : allocator.bucket.merge caller
          (some (allocator.bucket.hugeBlock userSize (rtMmap (.failed errno)))) = .faulted := by
        rw [Heap.merge, Heap.hugeBlock]
        exact if_neg (by rw [notThere]; exact Bool.false_ne_true)
      rw [MapSite.run, faults]
      exact iff_of_false (not_recognised_faulted _) (noSlab nofun)
  | slabHugeBlock userSize =>
      have faults : allocator.slab.hugeBlock caller userSize (rtMmap (.failed errno)) =
          .faulted := by
        rw [SlabHeap.hugeBlock]
        exact if_neg (by rw [notThere]; exact Bool.false_ne_true)
      rw [MapSite.run, faults]
      exact iff_of_false (not_recognised_faulted _) (noSlab nofun)
  | initHeap =>
      exact iff_of_false (not_recognised_returned _ _ _ isBlock) (noSlab nofun)

/-- A new slab, with the one error number that is told apart. -/
theorem mapping_failure_recognised_iff_one :
    Recognised ⟨emptyState.heap, (SlabState.start fun _ => 0).heap⟩
      ((MapSite.newSlab ⟨0, by decide⟩).run ⟨emptyState.heap, (SlabState.start fun _ => 0).heap⟩ ⟨true, false⟩
        (rtMmap (.failed 1))) :=
  (mapping_failure_recognised_iff _ _ _ (by decide) (by decide)).mpr ⟨⟨_, rfl⟩, rfl⟩

/-- Without memory (12) for the pages of a huge block the process faults. -/
theorem no_memory_not_recognised :
    ¬ ∀ site : MapSite, Recognised ⟨emptyState.heap, (SlabState.start fun _ => 0).heap⟩
      (site.run ⟨emptyState.heap, (SlabState.start fun _ => 0).heap⟩ ⟨true, false⟩
        (rtMmap (.failed 12))) := by
  intro recognised
  have huge := recognised (.hugeBlock (2 ^ 24 + 1))
  have faults : (MapSite.hugeBlock (2 ^ 24 + 1)).run
      ⟨emptyState.heap, (SlabState.start fun _ => 0).heap⟩ ⟨true, false⟩ (rtMmap (.failed 12)) =
        .faulted := by
    rfl
  rw [faults] at huge
  exact not_recognised_faulted _ huge

end LakeNative.Allocators

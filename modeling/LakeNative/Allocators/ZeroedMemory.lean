import LakeNative.Allocators.ZeroedBuckets
import LakeNative.Allocators.ZeroedSlabs

/-! # Zeroed memory

What `rt_allocate` returns reads as zero with either allocator, except for what a chunk of a
slab was freed with.
-/

namespace LakeNative.Allocators

open LakeNative.Runtime LakeNative.Runtime.SlabLayout LakeNative.Regions LakeNative.LinkedList
open LakeNative.Transitions

/-- Without slabs all payloads are zeroed, with them all those of classes in which no payload
was freed with something in it. -/
theorem allocate_zeroed (base : HeapRegion) (words : Words) :
    ((∀ addr ∈ base.region, words addr = 0) →
      ∀ history final, Run (BucketCall base) (BucketState.start base words) history final →
        Meets BucketCallOk history → Meets BucketZeroed history) ∧
    ∀ history final, Run SlabCall ⟨SlabState.start words, []⟩ history final →
      MeetsPast SlabCallOk history → MeetsPast SlabZeroed history :=
  ⟨fun fresh _ _ run condition => buckets_zeroed fresh run condition,
    fun _ _ run condition => slabs_zeroed run condition⟩

/-! ## Two allocations of 40000 bytes -/

def emptyCalls : SlabCallState := ⟨SlabState.start fun _ => 0, []⟩

/-- The only chunk of a slab for such sizes. -/
def onlyChunk : SlabChunk := ⟨2 ^ 46, 12, 0, 40000⟩

/-- The memory after `rt_allocate(40000)` at this chunk. -/
def heldHeap (heap : SlabHeap) (raw : Nat) : SlabHeap :=
  (((heap.newPages raw (2 ^ 18)).allocateSlab 1 12 raw).elim heap Prod.snd).writeHdr
    onlyChunk.addr 40000

theorem allocate_40000 {heap : SlabHeap} {raw : Nat}
    (takes : (((heap.newPages raw (2 ^ 18)).allocateSlab 1 12 raw).map fun result =>
      (result.1.slab, result.1.chunkIdx, result.1.chunkAddr)) =
        some (2 ^ 46, 0, onlyChunk.addr)) :
    heap.allocate 1 40000 raw =
      some (.chunk ⟨2 ^ 46, 0, onlyChunk.addr⟩, heldHeap heap raw) := by
  have isLength : SlabHeap.mmapLength 40000 = 2 ^ 18 := by
    rw [SlabHeap.mmapLength, class_of_40000]
    rfl
  rw [heldHeap, SlabHeap.allocate, isLength, SlabHeap.allocateRaw, class_of_40000]
  cases isGiven : (heap.newPages raw (2 ^ 18)).allocateSlab 1 12 raw with
  | none =>
      rw [isGiven] at takes
      cases takes
  | some result =>
      rcases result with ⟨⟨slab, chunkIdx, chunkAddr⟩, later⟩
      rw [isGiven] at takes
      cases takes
      rfl

/-- The chunk was handed out, its first word was written to and it was freed. -/
def freedHeap (value : Nat) : SlabHeap :=
  (((heldHeap emptyCalls.slabs.heap (2 ^ 46)).store (onlyChunk.addr + 16) value).freeSlab
    onlyChunk.addr).2

theorem mmapLength_40000 : SlabHeap.mmapLength 40000 = 2 ^ 18 := by
  rw [SlabHeap.mmapLength, class_of_40000]
  rfl

theorem first_fresh : Fresh emptyCalls.slabs.heap
    ⟨2 ^ 46, 2 ^ 46 + SlabHeap.mmapLength 40000⟩ := by
  rw [mmapLength_40000]
  exact ⟨by decide, by decide, by decide, fun _ _ => rfl⟩

theorem second_fresh (value : Nat) : Fresh (freedHeap value)
    ⟨2 ^ 46 + 2 ^ 20, 2 ^ 46 + 2 ^ 20 + SlabHeap.mmapLength 40000⟩ := by
  have isMapped : (freedHeap value).mapped = fun addr =>
      if 2 ^ 46 + 2 ^ 17 ≤ addr ∧ addr < 2 ^ 46 + 2 ^ 17 + 2 ^ 17 then false
      else if 2 ^ 46 ≤ addr ∧ addr < 2 ^ 46 + 2 ^ 18 then true else false := rfl
  rw [mmapLength_40000]
  refine ⟨by decide, by decide, by decide, fun addr inMapping => ?_⟩
  have above := inMapping.1
  dsimp only at above
  rw [isMapped]
  dsimp only
  rw [if_neg (by omega), if_neg (by omega)]

theorem first_allocation : emptyCalls.slabs.heap.allocate 1 40000 (2 ^ 46) =
    some (.chunk ⟨2 ^ 46, 0, onlyChunk.addr⟩, heldHeap emptyCalls.slabs.heap (2 ^ 46)) :=
  allocate_40000 (by decide +kernel)

/-- The chunk is handed out, written to, freed and handed out again. -/
theorem handed_out_again {value : Nat}
    (takes : ((((freedHeap value).newPages (2 ^ 46 + 2 ^ 20) (2 ^ 18)).allocateSlab 1 12
      (2 ^ 46 + 2 ^ 20)).map fun result =>
        (result.1.slab, result.1.chunkIdx, result.1.chunkAddr)) =
          some (2 ^ 46, 0, onlyChunk.addr)) :
    ∃ stage past final, Run SlabCall emptyCalls (stage :: past) final ∧ past.length = 3 ∧
      stage.label = .allocate 40000 onlyChunk.addr
        (heldHeap (freedHeap value) (2 ^ 46 + 2 ^ 20)).words ∧
      (ReadsZero ((heldHeap emptyCalls.slabs.heap (2 ^ 46)).store (onlyChunk.addr + 16) value).words
        onlyChunk.payload → MeetsPast SlabCallOk (stage :: past)) := by
  let held := heldHeap emptyCalls.slabs.heap (2 ^ 46)
  have first := SlabCall.allocate 40000 1 (2 ^ 46) _ (by decide) inRange_40000 first_fresh nofun
    first_allocation
  rw [class_of_40000] at first
  let calls : SlabCallState := ⟨emptyCalls.slabs.record onlyChunk held, []⟩
  change SlabCall emptyCalls (.allocate 40000 onlyChunk.addr held.words) calls at first
  have second := @SlabCall.write calls (Function.update held.words (onlyChunk.addr + 16) value) (by
    intro addr outside _
    apply Function.update_of_ne
    rintro rfl
    exact outside onlyChunk List.mem_cons_self ⟨by decide, by decide⟩)
  let written : SlabState := { calls.slabs with heap := held.store (onlyChunk.addr + 16) value }
  change SlabCall calls .write ⟨written, []⟩ at second
  have third := @SlabCall.free ⟨written, []⟩ _ onlyChunk _
    (.freeSlab onlyChunk _ List.mem_cons_self (Prod.eta _).symm)
  let freed : SlabState :=
    { written with heap := freedHeap value, live := written.live.erase onlyChunk }
  change SlabCall ⟨written, []⟩ (.free onlyChunk) ⟨freed, []⟩ at third
  have fourth := @SlabCall.allocate ⟨freed, []⟩ _ 40000 1 (2 ^ 46 + 2 ^ 20) _ (by decide)
    inRange_40000 (second_fresh value) nofun (allocate_40000 takes)
  have run := (((Run.refl.next first).next second).next third).next fourth
  refine ⟨_, _, _, run, rfl, rfl, fun isZero => ⟨?_, trivial, trivial, nofun, trivial⟩⟩
  intro stage isPast isUsed
  rcases List.mem_cons.mp isPast with rfl | earlier
  · exact isUsed.2 isZero
  · rcases List.mem_pair.mp earlier with rfl | rfl
    · exact isUsed
    · exact isUsed

/-- A payload of 40000 bytes starts with the word that was in it when it was freed. -/
theorem freed_word_handed_out : ∃ history final,
    Run SlabCall emptyCalls history final ∧ ¬ MeetsPast SlabZeroed history := by
  rcases @handed_out_again 7 (by decide +kernel) with
    ⟨⟨calls, event⟩, past, final, run, -, isLast, -⟩
  refine ⟨_, final, run, fun zeroed => ?_⟩
  cases isLast
  have word := zeroed.1 0 (by decide +kernel)
  revert word
  decide +kernel

/-- The payload is empty again when a zero is written. -/
theorem zero_written : ReadsZero
    ((heldHeap emptyCalls.slabs.heap (2 ^ 46)).store (onlyChunk.addr + 16) 0).words
      onlyChunk.payload := by
  have noSlabs : SlabsClean emptyCalls.slabs 12 :=
    ⟨fun chunk _ isIdle => (List.not_mem_nil isIdle.1.1).elim, nofun⟩
  have zeroed := (allocate_clean (slabs_start _) inRange_40000 first_fresh rfl first_allocation
    noSlabs).2 class_of_40000
  rw [class_of_40000] at zeroed
  intro index inPayload
  change Function.update (heldHeap emptyCalls.slabs.heap (2 ^ 46)).words (onlyChunk.addr + 16) 0 _ = 0
  by_cases isFirst : onlyChunk.payload.first + 8 * index = onlyChunk.addr + 16
  · rw [isFirst, Function.update_self]
  · rw [Function.update_of_ne isFirst]
    exact zeroed index inPayload

/-- A chunk of 16 bytes of a new heap, and the run above with a zero written. -/
theorem zero_handed_out :
    (∃ history final, Run (BucketCall lowHeap) emptyState history final ∧ history.length = 1 ∧
      Meets BucketZeroed history) ∧
    ∃ history final, Run SlabCall emptyCalls history final ∧ history.length = 4 ∧
      MeetsPast SlabZeroed history := by
  constructor
  · have smallest : sizeClass 16 = 0 :=
      Nat.le_zero.mp ((sizeClass_le_iff (by decide) 0).mpr (by decide))
    have fits : iadd (alignDown (iadd (iadd emptyState.heap.heapCurr 16) 15) 16) (classSize 0) ≤
        emptyState.heap.heapEnd := by
      change iadd (alignDown (iadd (iadd 4096 16) 15) 16) (classSize 0) ≤ iadd 4096 HEAP_SIZE
      decide
    have allocates : ∃ heap, emptyState.heap.allocate 16 0 = some (4096, heap) := by
      simp only [Heap.allocate, smallest, Heap.bumpBlock]
      rw [if_pos (Nat.zero_le _), if_neg (fun free => free rfl), if_pos fits]
      exact ⟨_, rfl⟩
    rcases allocates with ⟨heap, allocates⟩
    have first := @BucketCall.allocate lowHeap emptyState heap 16 0 4096 (by decide) (fun huge => by
      rw [smallest] at huge
      cases huge) allocates
    have run := Run.refl.next first
    exact ⟨_, _, run, rfl, (allocate_zeroed lowHeap _).1 (fun _ _ => rfl) _ _ run
      (meets_cons.mpr ⟨trivial, meets_nil _⟩)⟩
  · rcases @handed_out_again 0 (by decide +kernel) with ⟨stage, past, final, run, isLong, -, meets⟩
    exact ⟨_, final, run, congrArg Nat.succ isLong,
      (allocate_zeroed lowHeap _).2 _ final run (meets zero_written)⟩

end LakeNative.Allocators

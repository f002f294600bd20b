import LakeNative.Allocators.LiveMemory
import LakeNative.Runtime.GrowArray
import LakeNative.Runtime.HeapArray

/-! # The arrays of the scheduler when they grow

A full array is replaced by one of twice its capacity, into which its entries are copied before
it is freed. Next to the fields of the context, no other memory changes.
-/

namespace LakeNative.Scheduler

open LakeNative.Runtime LakeNative.Regions LakeNative.Allocators

variable {base : HeapRegion} {state : BucketState} {moved : List Allocation}

/-- The value of a field behind a fat pointer. -/
def fieldOf (heap : Heap) (fatPtr offset : Nat) : Nat := heap.load (heap.load fatPtr + offset)

/-- Two fields of the live context describe a live array: its fat pointer, and a capacity of
entries that it was requested for and has room for. Neither fat pointer was moved. -/
structure Describes (moved : List Allocation) (state : BucketState) (ctx array : Allocation)
    (fatOffset capOffset logStride cap : Nat) : Prop where
  ctxLive : ctx ∈ state.live
  ctxUnmoved : ctx ∉ moved
  arrayLive : array ∈ state.live
  arrayUnmoved : array ∉ moved
  apart : ctx ≠ array
  fatInside : (ctx.region state.heap).first + fatOffset + 8 ≤ (ctx.region state.heap).stop
  capInside : (ctx.region state.heap).first + capOffset + 8 ≤ (ctx.region state.heap).stop
  fields : fatOffset ≠ capOffset
  isFat : fieldOf state.heap ctx.fatPtr fatOffset = array.fatPtr
  isCap : fieldOf state.heap ctx.fatPtr capOffset = cap
  requested : array.size = cap * 2 ^ logStride
  room : (array.region state.heap).first + cap * 2 ^ logStride ≤ (array.region state.heap).stop

/-! ## Copying -/

/-- The copy loop copies words between regions apart, writes nothing else and frees nothing. -/
theorem copyEntries_spec (logged : LoggedHeap) {oldStart newStart chunks : Nat}
    (oldFits : oldStart + 8 * chunks ≤ 2 ^ 47) (newFits : newStart + 8 * chunks ≤ 2 ^ 47)
    (apart : Region.Apart ⟨oldStart, oldStart + 8 * chunks⟩ ⟨newStart, newStart + 8 * chunks⟩) :
    ∃ words reads, logged.copyEntries oldStart newStart chunks =
        ⟨{ logged.heap with words := words }, logged.accesses ++ reads⟩ ∧
      AgreeOutside ⟨newStart, newStart + 8 * chunks⟩ logged.heap.words words ∧
      (∀ i < chunks, words (newStart + 8 * i) = logged.heap.words (oldStart + 8 * i)) ∧
      ∀ fatPtr, HeapAccess.freed fatPtr ∉ reads := by
  induction chunks with
  | zero =>
      refine ⟨logged.heap.words, [], ?_, fun _ _ => rfl, nofun, fun _ => List.not_mem_nil⟩
      rw [List.append_nil]
      rfl
  | succ chunks induction =>
      have shorter : Region.Apart ⟨oldStart, oldStart + 8 * chunks⟩
          ⟨newStart, newStart + 8 * chunks⟩ := by
        unfold Region.Apart at apart ⊢
        dsimp only at apart ⊢
        omega
      rcases induction (by omega) (by omega) shorter with ⟨words, reads, copies, outside, copied, keeps⟩
      have off : ishl chunks 3 = 8 * chunks := by
        rw [ishl_eq (by omega)]
        omega
      have unread : words (oldStart + 8 * chunks) = logged.heap.words (oldStart + 8 * chunks) := by
        apply outside
        unfold Region.Apart at apart
        rw [Region.mem_mk]
        dsimp only at apart
        omega
      refine ⟨Function.update words (newStart + 8 * chunks) (logged.heap.words (oldStart + 8 * chunks)),
        reads ++ [.read (oldStart + 8 * chunks)], ?_, ?_, ?_, ?_⟩
      · rw [LoggedHeap.copyEntries, List.range_succ, List.foldl_append, ← LoggedHeap.copyEntries, copies]
        dsimp only [List.foldl_cons, List.foldl_nil]
        rw [off, iadd_eq (by omega), iadd_eq (by omega)]
        simp only [LoggedHeap.load, LoggedHeap.store, Heap.store, Heap.load, unread,
          List.append_assoc]
      · intro addr out
        rw [Region.mem_mk] at out
        rw [Function.update_of_ne (by omega)]
        apply outside
        rw [Region.mem_mk]
        omega
      · intro i inRange
        by_cases last : i = chunks
        · rw [last, Function.update_self]
        · rw [Function.update_of_ne (by omega)]
          exact copied i (by omega)
      · intro fatPtr member
        rcases List.mem_append.mp member with earlier | isLast
        · exact keeps fatPtr earlier
        · cases List.mem_singleton.mp isLast

/-! ## What stays -/

/-- The space of an allocation has the words that it had. -/
def Kept (allocation : Allocation) (before after : Heap) : Prop :=
  ∀ addr ∈ allocation.space, after.words addr = before.words addr

theorem Kept.trans {allocation : Allocation} {before after later : Heap}
    (first : Kept allocation before after) (second : Kept allocation after later) :
    Kept allocation before later := fun addr member =>
  (second addr member).trans (first addr member)

theorem kept_of_apart {allocation : Allocation} {touched : Region} {before after : Heap}
    (agree : AgreeOutside touched before.words after.words)
    (apart : allocation.space.Apart touched) : Kept allocation before after :=
  fun _ member => agree.of_apart apart member

theorem Kept.load (but : IntactBut base moved state) {allocation : Allocation} {later : Heap}
    (member : allocation ∈ state.live) (kept : Kept allocation state.heap later) :
    later.load allocation.fatPtr = state.heap.load allocation.fatPtr :=
  kept _ (but.mem_space member (Nat.zero_le 16))

theorem Kept.region (but : IntactBut base moved state) {allocation : Allocation} {later : Heap}
    (member : allocation ∈ state.live) (kept : Kept allocation state.heap later) :
    allocation.region later = allocation.region state.heap := by
  have second : later.load (allocation.fatPtr + 8) = state.heap.load (allocation.fatPtr + 8) :=
    kept _ (but.mem_space member (by decide))
  rw [Allocation.region, Allocation.region, kept.load but member, second]

/-! ## The steps of a growth -/

/-- A write to one live region keeps the fat pointer to the region. -/
theorem region_written (but : IntactBut base moved state) {allocation : Allocation} {words : Words}
    (member : allocation ∈ state.live) (isUnmoved : allocation ∉ moved)
    (agree : AgreeOutside (allocation.region state.heap) state.heap.words words) :
    allocation.region { state.heap with words := words } = allocation.region state.heap := by
  have behind := (but.region_within member isUnmoved).2
  have header : ∀ offset < 16, words (allocation.fatPtr + offset) =
      state.heap.words (allocation.fatPtr + offset) := by
    intro offset inHeader
    apply agree
    rw [Region.mem_iff]
    omega
  have first : words allocation.fatPtr = state.heap.words allocation.fatPtr := header 0 (by decide)
  have second := header 8 (by decide)
  simp only [Allocation.region, Heap.load, first, second]

/-- What a step keeps: all allocations but those that it is about, and what they hold. -/
structure Keeps (state next : BucketState) (touched : Allocation → Prop) : Prop where
  live : ∀ other ∈ state.live, ¬ touched other → other ∈ next.live
  words : ∀ other ∈ state.live, ¬ touched other → Kept other state.heap next.heap

theorem Keeps.trans {middle next : BucketState} {touched others : Allocation → Prop}
    (first : Keeps state middle touched) (second : Keeps middle next others) :
    Keeps state next fun other => touched other ∨ others other where
  live other member untouched :=
    second.live other (first.live other member (untouched ∘ .inl)) (untouched ∘ .inr)
  words other member untouched :=
    (first.words other member (untouched ∘ .inl)).trans
      (second.words other (first.live other member (untouched ∘ .inl)) (untouched ∘ .inr))

theorem allocate_step (but : IntactBut base moved state) {size mmapAddr fatPtr : Nat} {heap : Heap}
    (isWord : size < 2 ^ 64)
    (maps : MAX_CLASS < sizeClass size → state.Maps base ⟨mmapAddr, mmapAddr + mmapSize size⟩)
    (allocates : state.heap.allocateRaw size mmapAddr = some (fatPtr, heap)) :
    ∃ next, next.heap = heap ∧ next.live = ⟨fatPtr, size⟩ :: state.live ∧
      IntactBut base moved next ∧ (∀ other ∈ state.live, other ≠ ⟨fatPtr, size⟩) ∧
      Keeps state next fun _ => False := by
  rcases but.allocate isWord maps allocates with ⟨afterwards, fresh, agree⟩
  have still : ∀ other ∈ state.live, other ∈ (state.record ⟨fatPtr, size⟩ heap).live := fun _ =>
    List.mem_cons_of_mem _
  refine ⟨state.record ⟨fatPtr, size⟩ heap, rfl, rfl, afterwards, fresh, ?_, ?_⟩
  · exact fun other member _ => still other member
  · intro other member _
    exact kept_of_apart agree
      (afterwards.live_apart (still other member) List.mem_cons_self (fresh other member))

theorem write_step (but : IntactBut base moved state) {allocation : Allocation} {words : Words}
    (member : allocation ∈ state.live) (isUnmoved : allocation ∉ moved)
    (agree : AgreeOutside (allocation.region state.heap) state.heap.words words) :
    ∃ next, next.heap = { state.heap with words := words } ∧ next.live = state.live ∧
      IntactBut base moved next ∧ allocation.region next.heap = allocation.region state.heap ∧
      Keeps state next (· = allocation) := by
  have afterwards : IntactBut base moved (state.withWords words) :=
    but.write fun addr _ outside => agree addr (outside allocation member isUnmoved)
  refine ⟨state.withWords words, rfl, rfl, afterwards, region_written but member isUnmoved agree,
    ?_, ?_⟩
  · exact fun other also _ => also
  · intro other also different
    have apart := but.live_apart also member different
    exact kept_of_apart agree (apart.symm.within (but.region_within member isUnmoved).1).symm

theorem free_step (but : IntactBut base moved state) {allocation : Allocation} {heap : Heap}
    (member : allocation ∈ state.live) (isUnmoved : allocation ∉ moved)
    (noOverflow : allocation.size < 2 ^ 64 - 31)
    (frees : (state.heap.free allocation.fatPtr).2 = heap) :
    ∃ next, next.heap = heap ∧ next.live = state.live.erase allocation ∧
      IntactBut base moved next ∧ Keeps state next (· = allocation) := by
  rcases but.free member isUnmoved noOverflow frees with ⟨afterwards, agree⟩
  refine ⟨{ state with heap := heap, live := state.live.erase allocation }, rfl, rfl, afterwards,
    ?_, ?_⟩
  · exact fun other also different => (List.mem_erase_of_ne different).mpr also
  · exact fun other also different =>
      kept_of_apart agree (but.live_apart also member different)

namespace Describes

variable {ctx array : Allocation} {fatOffset capOffset logStride cap : Nat}

/-- The array's bytes lie in the address space. -/
theorem fits (describes : Describes moved state ctx array fatOffset capOffset logStride cap)
    (but : IntactBut base moved state) :
    (array.region state.heap).first + cap * 2 ^ logStride ≤ 2 ^ 47 := by
  have within := (but.region_within describes.arrayLive describes.arrayUnmoved).1.2
  have stops := but.space_fits describes.arrayLive
  have room := describes.room
  omega

theorem noOverflow (describes : Describes moved state ctx array fatOffset capOffset logStride cap)
    (but : IntactBut base moved state) : array.size < 2 ^ 64 - 31 := by
  have fits := describes.fits but
  have requested := describes.requested
  omega

theorem field_mem (but : IntactBut base moved state) {offset : Nat} (member : ctx ∈ state.live)
    (isUnmoved : ctx ∉ moved)
    (inside : (ctx.region state.heap).first + offset + 8 ≤ (ctx.region state.heap).stop) :
    state.heap.load ctx.fatPtr + offset ∈ ctx.region state.heap ∧
      iadd (state.heap.load ctx.fatPtr) offset = state.heap.load ctx.fatPtr + offset := by
  have within := (but.region_within member isUnmoved).1.2
  have stops := but.space_fits member
  change state.heap.load ctx.fatPtr + offset + 8 ≤ _ at inside
  refine ⟨⟨Nat.le_add_right _ _, by omega⟩, iadd_eq (by omega)⟩

/-- Both fields are loaded as they are. -/
theorem loadField_eq (but : IntactBut base moved state) {offset : Nat} (member : ctx ∈ state.live)
    (isUnmoved : ctx ∉ moved)
    (inside : (ctx.region state.heap).first + offset + 8 ≤ (ctx.region state.heap).stop)
    (accesses : List HeapAccess) :
    ∃ reads, LoggedHeap.loadField ⟨state.heap, accesses⟩ ctx.fatPtr offset =
        (fieldOf state.heap ctx.fatPtr offset, ⟨state.heap, accesses ++ reads⟩) ∧
      ∀ fatPtr, HeapAccess.freed fatPtr ∉ reads := by
  refine ⟨[.read ctx.fatPtr, .read (state.heap.load ctx.fatPtr + offset)], ?_, ?_⟩
  · simp only [LoggedHeap.loadField, LoggedHeap.load, (field_mem but member isUnmoved inside).2,
      List.append_assoc]
    rfl
  · intro fatPtr isFreed
    rcases List.mem_pair.mp isFreed with same | same <;> cases same

/-- Both fields are stored in the context, and nothing is written beside it. -/
theorem storeFields_spec (but : IntactBut base moved state) (member : ctx ∈ state.live)
    (isUnmoved : ctx ∉ moved)
    (fatInside : (ctx.region state.heap).first + fatOffset + 8 ≤ (ctx.region state.heap).stop)
    (capInside : (ctx.region state.heap).first + capOffset + 8 ≤ (ctx.region state.heap).stop)
    (fields : fatOffset ≠ capOffset) (accesses : List HeapAccess) (fat newCap : Nat) :
    ∃ words, (LoggedHeap.storeField ⟨state.heap, accesses⟩ ctx.fatPtr fat fatOffset).storeField
          ctx.fatPtr newCap capOffset =
        ⟨{ state.heap with words := words }, accesses ++ [.read ctx.fatPtr, .read ctx.fatPtr]⟩ ∧
      AgreeOutside (ctx.region state.heap) state.heap.words words ∧
      fieldOf { state.heap with words := words } ctx.fatPtr fatOffset = fat ∧
      fieldOf { state.heap with words := words } ctx.fatPtr capOffset = newCap := by
  rcases field_mem but member isUnmoved fatInside with ⟨fatMem, fatAddr⟩
  rcases field_mem but member isUnmoved capInside with ⟨capMem, capAddr⟩
  have behind := (but.region_within member isUnmoved).2
  change ctx.fatPtr + 16 ≤ state.heap.load ctx.fatPtr at behind
  have header : ∀ offset value, Function.update state.heap.words
      (state.heap.load ctx.fatPtr + offset) value ctx.fatPtr = state.heap.load ctx.fatPtr :=
    fun offset value => Function.update_of_ne (by omega) _ _
  let withFat := Function.update state.heap.words (state.heap.load ctx.fatPtr + fatOffset) fat
  let words := Function.update withFat (state.heap.load ctx.fatPtr + capOffset) newCap
  have start : words ctx.fatPtr = state.heap.load ctx.fatPtr := by
    change Function.update withFat _ newCap ctx.fatPtr = _
    rw [Function.update_of_ne (by omega)]
    exact header fatOffset fat
  refine ⟨words, ?_, ?_, ?_, ?_⟩
  · have loaded : Heap.load { state.heap with words := withFat } ctx.fatPtr =
        state.heap.load ctx.fatPtr := header fatOffset fat
    have first : LoggedHeap.storeField ⟨state.heap, accesses⟩ ctx.fatPtr fat fatOffset =
        ⟨{ state.heap with words := withFat }, accesses ++ [.read ctx.fatPtr]⟩ := by
      simp only [LoggedHeap.storeField, LoggedHeap.load, LoggedHeap.store, Heap.store, fatAddr]
      rfl
    rw [first]
    simp only [LoggedHeap.storeField, LoggedHeap.load, LoggedHeap.store, Heap.store, loaded, capAddr,
      List.append_assoc]
    rfl
  · exact (AgreeOutside.update fatMem _).trans (AgreeOutside.update capMem _)
  · change words (words ctx.fatPtr + fatOffset) = fat
    rw [start]
    change Function.update withFat _ newCap _ = fat
    rw [Function.update_of_ne (by omega)]
    exact Function.update_self _ _ _
  · change words (words ctx.fatPtr + capOffset) = newCap
    rw [start]
    exact Function.update_self _ _ _

/-- The new fields describe the array that the context held beside them. -/
theorem at_other (describes : Describes moved state ctx array fatOffset capOffset logStride cap)
    {next : BucketState} {added : Allocation} {newCap : Nat} (ctxLive : ctx ∈ next.live)
    (sameRegion : ctx.region next.heap = ctx.region state.heap)
    (addedLive : added ∈ next.live) (addedUnmoved : added ∉ moved) (fresh : ctx ≠ added)
    (isFat : fieldOf next.heap ctx.fatPtr fatOffset = added.fatPtr)
    (isCap : fieldOf next.heap ctx.fatPtr capOffset = newCap)
    (requested : added.size = newCap * 2 ^ logStride)
    (room : (added.region next.heap).first + added.size ≤ (added.region next.heap).stop) :
    Describes moved next ctx added fatOffset capOffset logStride newCap where
  ctxLive := ctxLive
  ctxUnmoved := describes.ctxUnmoved
  arrayLive := addedLive
  arrayUnmoved := addedUnmoved
  apart := fresh
  fatInside := by
    rw [sameRegion]
    exact describes.fatInside
  capInside := by
    rw [sameRegion]
    exact describes.capInside
  fields := describes.fields
  isFat := isFat
  isCap := isCap
  requested := requested
  room := requested ▸ room

end Describes

/-! ## The whole growth -/

/-- The words of some entries make up all of their bytes. -/
theorem stride_words {logStride : Nat} (stride : 3 ≤ logStride) (count : Nat) :
    8 * (count * 2 ^ (logStride - 3)) = count * 2 ^ logStride := by
  rcases Nat.exists_eq_add_of_le stride with ⟨more, rfl⟩
  rw [Nat.add_sub_cancel_left, Nat.pow_add, Nat.mul_left_comm]

/-- Only the array is freed, and nothing in its space is read from there on. -/
def FreedLast (array : Allocation) (accesses : List HeapAccess) : Prop :=
  ∀ before after fatPtr, accesses = before ++ .freed fatPtr :: after →
    fatPtr = array.fatPtr ∧ ∀ addr ∈ array.space, HeapAccess.read addr ∉ after

theorem freedLast_of_unfreed {array : Allocation} {accesses : List HeapAccess}
    (unfreed : ∀ fatPtr, HeapAccess.freed fatPtr ∉ accesses) : FreedLast array accesses := by
  intro before after fatPtr splits
  exact absurd (splits ▸ List.mem_append_right _ List.mem_cons_self) (unfreed fatPtr)

/-- The array is freed once, with reads from elsewhere behind it. -/
theorem freedLast_append {array : Allocation} {reads later : List HeapAccess}
    (unfreed : ∀ fatPtr, HeapAccess.freed fatPtr ∉ reads)
    (elsewhere : ∀ access ∈ later, ∃ addr ∉ array.space, access = .read addr) :
    FreedLast array (reads ++ .freed array.fatPtr :: later) := by
  intro before after fatPtr splits
  have unfreedLater : HeapAccess.freed fatPtr ∉ later := by
    intro member
    rcases elsewhere _ member with ⟨addr, -, isRead⟩
    cases isRead
  rcases (List.append_cons_inj_of_notMem (unfreed fatPtr) unfreedLater).mp splits with
    ⟨-, same, rfl⟩
  cases same
  refine ⟨rfl, fun addr inside member => ?_⟩
  rcases elsewhere _ member with ⟨other, outside, isRead⟩
  cases isRead
  exact outside inside


/-- Entries are copied into an allocation that is live already. -/
theorem copy_step (but : IntactBut base moved state) {array added : Allocation} (chunks : Nat)
    (member : array ∈ state.live) (isUnmoved : array ∉ moved) (also : added ∈ state.live)
    (alsoUnmoved : added ∉ moved) (different : array ≠ added)
    (oldRoom : (array.region state.heap).first + 8 * chunks ≤ (array.region state.heap).stop)
    (newRoom : (added.region state.heap).first + 8 * chunks ≤ (added.region state.heap).stop)
    (accesses : List HeapAccess) :
    ∃ next reads, LoggedHeap.copyEntries ⟨state.heap, accesses⟩ (state.heap.load array.fatPtr)
          (state.heap.load added.fatPtr) chunks = ⟨next.heap, accesses ++ reads⟩ ∧
      (∀ fatPtr, HeapAccess.freed fatPtr ∉ reads) ∧ next.live = state.live ∧
      IntactBut base moved next ∧ added.region next.heap = added.region state.heap ∧
      Keeps state next (· = added) ∧
      ∀ i < chunks, next.heap.words (state.heap.load added.fatPtr + 8 * i) =
        state.heap.words (state.heap.load array.fatPtr + 8 * i) := by
  have oldWithin := (but.region_within member isUnmoved).1
  have newWithin := (but.region_within also alsoUnmoved).1
  have oldFits := but.space_fits member
  have newFits := but.space_fits also
  have apart := but.live_apart member also different
  have oldStops := oldWithin.2
  have newStops := newWithin.2
  have source : Region.Within ⟨(array.region state.heap).first,
      (array.region state.heap).first + 8 * chunks⟩ (array.region state.heap) :=
    ⟨Nat.le_refl _, oldRoom⟩
  have target : Region.Within ⟨(added.region state.heap).first,
      (added.region state.heap).first + 8 * chunks⟩ (added.region state.heap) :=
    ⟨Nat.le_refl _, newRoom⟩
  have disjoint := ((apart.within (source.trans oldWithin)).symm.within (target.trans newWithin)).symm
  rcases copyEntries_spec ⟨state.heap, accesses⟩ (by omega) (by omega) disjoint with
    ⟨words, reads, copies, outside, copied, unfreed⟩
  have agree : AgreeOutside (added.region state.heap) state.heap.words words :=
    fun addr out => outside addr fun inside => out (target.mem inside)
  rcases write_step but also alsoUnmoved agree with ⟨next, nextHeap, nextLive, afterwards, sameRegion, keeps⟩
  refine ⟨next, reads, ?_, unfreed, nextLive, afterwards, sameRegion, keeps, ?_⟩
  · rw [nextHeap]
    exact copies
  · intro i inRange
    rw [nextHeap]
    exact copied i inRange

/-- Both fields are stored in a context that is live. -/
theorem store_step (but : IntactBut base moved state) {ctx : Allocation} {fatOffset capOffset : Nat}
    (member : ctx ∈ state.live) (isUnmoved : ctx ∉ moved)
    (fatInside : (ctx.region state.heap).first + fatOffset + 8 ≤ (ctx.region state.heap).stop)
    (capInside : (ctx.region state.heap).first + capOffset + 8 ≤ (ctx.region state.heap).stop)
    (fields : fatOffset ≠ capOffset) (accesses : List HeapAccess) (fat newCap : Nat) :
    ∃ next, (LoggedHeap.storeField ⟨state.heap, accesses⟩ ctx.fatPtr fat fatOffset).storeField
          ctx.fatPtr newCap capOffset =
        ⟨next.heap, accesses ++ [.read ctx.fatPtr, .read ctx.fatPtr]⟩ ∧
      next.live = state.live ∧ IntactBut base moved next ∧
      ctx.region next.heap = ctx.region state.heap ∧ Keeps state next (· = ctx) ∧
      fieldOf next.heap ctx.fatPtr fatOffset = fat ∧
      fieldOf next.heap ctx.fatPtr capOffset = newCap := by
  rcases Describes.storeFields_spec but member isUnmoved fatInside capInside fields accesses fat newCap with
    ⟨words, stores, agree, isFat, isCap⟩
  rcases write_step but member isUnmoved agree with ⟨next, nextHeap, nextLive, afterwards, sameRegion, keeps⟩
  refine ⟨next, ?_, nextLive, afterwards, sameRegion, keeps, ?_, ?_⟩
  · rw [stores, nextHeap]
  · rw [nextHeap]
    exact isFat
  · rw [nextHeap]
    exact isCap

/-- What a full array is replaced by. -/
theorem Describes.replaced {ctx array : Allocation} {fatOffset capOffset logStride cap : Nat}
    (describes : Describes moved state ctx array fatOffset capOffset logStride cap)
    (but : IntactBut base moved state) (stride : 3 ≤ logStride)
    {nextIndex mmapAddr newFat : Nat} {heap : Heap} (inRange : nextIndex ≤ cap)
    (maps : MAX_CLASS < sizeClass (2 * cap * 2 ^ logStride) →
      state.Maps base ⟨mmapAddr, mmapAddr + mmapSize (2 * cap * 2 ^ logStride)⟩)
    (allocates : state.heap.allocateRaw (2 * cap * 2 ^ logStride) mmapAddr = some (newFat, heap))
    (accesses : List HeapAccess) :
    ∃ next reads, (∀ fatPtr, HeapAccess.freed fatPtr ∉ reads) ∧
      ((((LoggedHeap.copyEntries ⟨heap, accesses⟩ (heap.load array.fatPtr) (heap.load newFat)
          (nextIndex * 2 ^ (logStride - 3))).free array.fatPtr).storeField ctx.fatPtr newFat
          fatOffset).storeField ctx.fatPtr (2 * cap) capOffset) =
        ⟨next.heap, accesses ++ (reads ++ .freed array.fatPtr ::
          [.read ctx.fatPtr, .read ctx.fatPtr])⟩ ∧
      IntactBut base moved next ∧
      Describes moved next ctx ⟨newFat, 2 * cap * 2 ^ logStride⟩ fatOffset capOffset logStride (2 * cap) ∧
      (∀ offset < nextIndex * 2 ^ logStride, 8 ∣ offset →
        next.heap.words (next.heap.load newFat + offset) =
          state.heap.words (state.heap.load array.fatPtr + offset)) ∧
      Keeps state next fun other => other = ctx ∨ other = array := by
  have fits := describes.fits but
  have asked : 2 * cap * 2 ^ logStride = 2 * (cap * 2 ^ logStride) := Nat.mul_assoc _ _ _
  have copies : nextIndex * 2 ^ logStride ≤ cap * 2 ^ logStride := Nat.mul_le_mul_right _ inRange
  rcases allocate_step but (by omega) maps allocates with
    ⟨first, rfl, firstLive, but1, fresh, keeps1⟩
  let added : Allocation := ⟨newFat, 2 * cap * 2 ^ logStride⟩
  have addedUnmoved : added ∉ moved := fun isMoved => fresh added (but.areLive isMoved) rfl
  have ctxFresh : ctx ≠ added := fresh ctx describes.ctxLive
  have arrayFresh : array ≠ added := fresh array describes.arrayLive
  have arrayLive1 := keeps1.live array describes.arrayLive not_false
  have addedLive1 : added ∈ first.live := firstLive ▸ List.mem_cons_self
  have arrayKept1 := keeps1.words array describes.arrayLive not_false
  have arrayRegion1 := arrayKept1.region but describes.arrayLive
  have addedRoom1 : (added.region first.heap).first + 2 * cap * 2 ^ logStride ≤
      (added.region first.heap).stop :=
    but1.region_room addedLive1 addedUnmoved (by change 2 * cap * 2 ^ logStride < _; omega)
  have describedRoom := describes.room
  rcases copy_step but1 (nextIndex * 2 ^ (logStride - 3)) arrayLive1 describes.arrayUnmoved addedLive1
      addedUnmoved arrayFresh
      (by rw [arrayRegion1, stride_words stride]; omega)
      (by rw [stride_words stride]; omega) accesses with
    ⟨second, reads, copied, unfreed, secondLive, but2, addedRegion2, keeps2, entries2⟩
  have keeps12 := keeps1.trans keeps2
  have arrayLive2 : array ∈ second.live := secondLive ▸ arrayLive1
  rcases free_step but2 arrayLive2 describes.arrayUnmoved (describes.noOverflow but) rfl with
    ⟨third, thirdHeap, thirdLive, but3, keeps3⟩
  have addedLive3 : added ∈ third.live :=
    keeps3.live added (secondLive ▸ addedLive1) arrayFresh.symm
  have keeps13 := keeps12.trans keeps3
  have ctxUntouched : ¬ ((False ∨ ctx = added) ∨ ctx = array) := by
    simp only [ctxFresh, describes.apart, or_false, not_false_eq_true]
  have ctxLive3 := keeps13.live ctx describes.ctxLive ctxUntouched
  have ctxRegion3 := (keeps13.words ctx describes.ctxLive ctxUntouched).region but
    describes.ctxLive
  rcases store_step but3 ctxLive3 describes.ctxUnmoved (by rw [ctxRegion3]; exact describes.fatInside)
      (by rw [ctxRegion3]; exact describes.capInside) describes.fields
      (accesses ++ reads ++ [.freed array.fatPtr]) newFat (2 * cap) with
    ⟨next, stores, nextLive, but4, ctxRegion4, keeps4, isFat, isCap⟩
  have addedLive2 : added ∈ second.live := secondLive ▸ addedLive1
  have addedKept3 := keeps3.words added addedLive2 arrayFresh.symm
  have addedKept4 := keeps4.words added addedLive3 ctxFresh.symm
  have addedKept := addedKept3.trans addedKept4
  have addedRegion : added.region next.heap = added.region first.heap :=
    (addedKept.region but2 addedLive2).trans addedRegion2
  refine ⟨next, reads, unfreed, ?_, but4, ?_, ?_, ?_⟩
  · rw [copied, LoggedHeap.free, ← thirdHeap, stores, List.append_assoc, List.append_assoc]
    rfl
  · refine describes.at_other (nextLive ▸ ctxLive3) (ctxRegion4.trans ctxRegion3)
      (nextLive ▸ addedLive3) addedUnmoved ctxFresh isFat isCap rfl ?_
    rw [addedRegion]
    exact addedRoom1
  · intro offset inEntries multiple
    rcases multiple with ⟨i, rfl⟩
    have words := stride_words stride nextIndex
    have fromArray : (array.region first.heap).first + 8 * i ∈ array.space :=
      (but1.region_within arrayLive1 describes.arrayUnmoved).1.mem
        ⟨Nat.le_add_right _ _, by rw [arrayRegion1]; omega⟩
    have toAdded : (added.region first.heap).first + 8 * i ∈ added.space :=
      (but1.region_within addedLive1 addedUnmoved).1.mem ⟨Nat.le_add_right _ _, by omega⟩
    calc next.heap.words (next.heap.load newFat + 8 * i)
        = next.heap.words (first.heap.load newFat + 8 * i) := by
          have starts : next.heap.load newFat = first.heap.load newFat :=
            congrArg Region.first addedRegion
          rw [starts]
      _ = second.heap.words (first.heap.load newFat + 8 * i) := addedKept _ toAdded
      _ = first.heap.words (first.heap.load array.fatPtr + 8 * i) := entries2 i (by omega)
      _ = state.heap.words (first.heap.load array.fatPtr + 8 * i) := arrayKept1 _ fromArray
      _ = state.heap.words (state.heap.load array.fatPtr + 8 * i) := by
          rw [arrayKept1.load but describes.arrayLive]
  · have keeps14 := keeps13.trans keeps4
    have untouched : ∀ other ∈ state.live, ¬ (other = ctx ∨ other = array) →
        ¬ (((False ∨ other = added) ∨ other = array) ∨ other = ctx) := by
      intro other member apart
      have differs : other ≠ added := fresh other member
      rw [not_or] at apart
      simp only [differs, apart.1, apart.2, or_false, not_false_eq_true]
    constructor
    · exact fun other member apart => keeps14.live other member (untouched other member apart)
    · exact fun other member apart => keeps14.words other member (untouched other member apart)

/-- What growing comes to, for an array that is full and for one that is not. -/
theorem growth_spec {ctx array : Allocation} {fatOffset capOffset logStride cap : Nat}
    (but : IntactBut base moved state)
    (describes : Describes moved state ctx array fatOffset capOffset logStride cap)
    (stride : 3 ≤ logStride) {nextIndex mmapAddr fat : Nat} {accesses : List HeapAccess}
    {logged : LoggedHeap} (inRange : nextIndex ≤ cap)
    (maps : MAX_CLASS < sizeClass (2 * cap * 2 ^ logStride) →
      state.Maps base ⟨mmapAddr, mmapAddr + mmapSize (2 * cap * 2 ^ logStride)⟩)
    (grows : LoggedHeap.emitGrowArrayIfFullStrided ⟨state.heap, accesses⟩ ctx.fatPtr fatOffset
      capOffset nextIndex logStride mmapAddr = some (fat, logged)) :
    ∃ next grown newCap news, logged = ⟨next.heap, accesses ++ news⟩ ∧
      IntactBut base moved next ∧
      Describes moved next ctx grown fatOffset capOffset logStride newCap ∧
      fat = grown.fatPtr ∧
      (cap ≤ nextIndex ∧ newCap = 2 * cap ∨
        nextIndex < cap ∧ newCap = cap ∧ next = state ∧ grown = array) ∧
      (∀ offset < nextIndex * 2 ^ logStride, 8 ∣ offset →
        next.heap.words (next.heap.load fat + offset) =
          state.heap.words (state.heap.load array.fatPtr + offset)) ∧
      Keeps state next (fun other => other = ctx ∨ other = array) ∧ FreedLast array news := by
  rcases Describes.loadField_eq but describes.ctxLive describes.ctxUnmoved describes.capInside accesses with
    ⟨capReads, loadsCap, capUnfreed⟩
  rcases Describes.loadField_eq but describes.ctxLive describes.ctxUnmoved describes.fatInside
    (accesses ++ capReads) with ⟨fatReads, loadsFat, fatUnfreed⟩
  rw [describes.isCap] at loadsCap
  rw [describes.isFat] at loadsFat
  simp only [LoggedHeap.emitGrowArrayIfFullStrided, loadsCap, loadsFat] at grows
  by_cases isFull : cap ≤ nextIndex
  · have fits := describes.fits but
    have asked : 2 * cap * 2 ^ logStride = 2 * (cap * 2 ^ logStride) := Nat.mul_assoc _ _ _
    have atLeast : cap ≤ cap * 2 ^ logStride := Nat.le_mul_of_pos_right _ (Nat.two_pow_pos _)
    have doubled : ishl cap 1 = 2 * cap := by
      rw [ishl_eq (by omega)]
      omega
    have bytes : ishl (2 * cap) logStride = 2 * cap * 2 ^ logStride := ishl_eq (by omega)
    have chunks : ishl nextIndex (logStride - 3) = nextIndex * 2 ^ (logStride - 3) := by
      apply ishl_eq
      have words := stride_words stride nextIndex
      have copies := Nat.mul_le_mul_right (2 ^ logStride) inRange
      omega
    rw [if_pos isFull, doubled, bytes, chunks] at grows
    rcases allocates : state.heap.allocateRaw (2 * cap * 2 ^ logStride) mmapAddr with _ | ⟨newFat, heap⟩
    · rw [LoggedHeap.allocateRaw, allocates] at grows
      cases grows
    · rw [LoggedHeap.allocateRaw, allocates] at grows
      rcases Prod.mk.inj (Option.some.inj grows) with ⟨rfl, ends⟩
      rcases describes.replaced but stride inRange maps allocates
          (accesses ++ capReads ++ fatReads ++ [.read array.fatPtr] ++ [.read newFat]) with
        ⟨next, reads, unfreed, replaces, afterwards, described, entries, keeps⟩
      refine ⟨next, _, 2 * cap, capReads ++ fatReads ++ [.read array.fatPtr] ++ [.read newFat] ++
        (reads ++ .freed array.fatPtr :: [.read ctx.fatPtr, .read ctx.fatPtr]), ?_, afterwards,
        described, rfl, .inl ⟨isFull, rfl⟩, entries, keeps, ?_⟩
      · rw [← ends]
        simp only [LoggedHeap.load] at replaces ⊢
        rw [replaces]
        simp only [List.append_assoc]
      · have outside : ctx.fatPtr ∉ array.space :=
          (but.live_apart describes.ctxLive describes.arrayLive describes.apart).notMem
            (but.mem_space describes.ctxLive (Nat.zero_le 16))
        rw [← List.append_assoc]
        apply freedLast_append
        · intro fatPtr
          simp only [List.mem_append, List.mem_singleton, capUnfreed, fatUnfreed, unfreed, reduceCtorEq,
            or_false, not_false_eq_true]
        · intro access member
          rcases List.mem_pair.mp member with rfl | rfl <;> exact ⟨ctx.fatPtr, outside, rfl⟩
  · rw [if_neg isFull] at grows
    cases grows
    refine ⟨state, array, cap, capReads ++ fatReads, ?_, but, describes, rfl,
      .inr ⟨Nat.lt_of_not_le isFull, rfl, rfl, rfl⟩, fun _ _ _ => rfl, ?_, freedLast_of_unfreed ?_⟩
    · rw [List.append_assoc]
    · exact ⟨fun _ member _ => member, fun _ _ _ _ _ => rfl⟩
    · intro fatPtr member
      exact (List.mem_append.mp member).elim (capUnfreed fatPtr) (fatUnfreed fatPtr)

/-- The entries behind a fat pointer, each of the words of its stride. -/
def arrayAt (heap : Heap) (fatPtr logStride cap : Nat) : HeapArray (Fin (2 ^ (logStride - 3)) → Nat) where
  entry index word := heap.words (heap.load fatPtr + (index * 2 ^ logStride + 8 * word))
  cap := cap
  overrun := false

/-- On memory an array grows as the scheduler's array does. -/
theorem growth_refines {ctx array : Allocation} {fatOffset capOffset logStride cap : Nat}
    (but : IntactBut base moved state)
    (describes : Describes moved state ctx array fatOffset capOffset logStride cap)
    (stride : 3 ≤ logStride) {nextIndex : Word} {mmapAddr fat : Nat} {accesses : List HeapAccess}
    {logged : LoggedHeap} (inRange : nextIndex.toNat ≤ cap)
    (maps : MAX_CLASS < sizeClass (2 * cap * 2 ^ logStride) →
      state.Maps base ⟨mmapAddr, mmapAddr + mmapSize (2 * cap * 2 ^ logStride)⟩)
    (grows : LoggedHeap.emitGrowArrayIfFullStrided ⟨state.heap, accesses⟩ ctx.fatPtr fatOffset
      capOffset nextIndex.toNat logStride mmapAddr = some (fat, logged)) :
    ∃ newCap, fieldOf logged.heap ctx.fatPtr capOffset = newCap ∧
      arrayAt logged.heap fat logStride newCap =
        (arrayAt state.heap array.fatPtr logStride cap).emitGrowArrayIfFull nextIndex
          (arrayAt logged.heap fat logStride newCap).entry := by
  rcases growth_spec but describes stride inRange maps grows with
    ⟨next, grown, newCap, news, rfl, -, described, rfl, full | notFull, entries, -, -⟩
  · rcases full with ⟨isFull, rfl⟩
    refine ⟨_, described.isCap, ?_⟩
    unfold HeapArray.emitGrowArrayIfFull
    rw [if_pos (show (arrayAt state.heap array.fatPtr logStride cap).cap ≤ nextIndex.toNat from isFull)]
    unfold arrayAt
    congr
    funext index word
    by_cases below : index < nextIndex.toNat
    · rw [if_pos below]
      have words := stride_words stride 1
      have inEntry : index * 2 ^ logStride + 2 ^ logStride ≤ nextIndex.toNat * 2 ^ logStride := by
        rw [← Nat.succ_mul]
        exact Nat.mul_le_mul_right _ below
      have inWord := word.isLt
      apply entries _ (by omega)
      have strided := stride_words stride index
      omega
    · rw [if_neg below]
  · rcases notFull with ⟨notFull, rfl, rfl, rfl⟩
    exact ⟨_, described.isCap, (HeapArray.grow_of_lt _ _ _ notFull).symm⟩

/-- An array that has room for an entry is described as an array that has room for the next one,
with the entries that it had. -/
theorem growth_keeps_entries {ctx array : Allocation} {fatOffset capOffset logStride cap : Nat}
    (but : IntactBut base moved state)
    (describes : Describes moved state ctx array fatOffset capOffset logStride cap)
    (stride : 3 ≤ logStride) {nextIndex mmapAddr fat : Nat} {accesses : List HeapAccess}
    {logged : LoggedHeap} (inRange : nextIndex ≤ cap) (positive : 0 < cap)
    (maps : MAX_CLASS < sizeClass (2 * cap * 2 ^ logStride) →
      state.Maps base ⟨mmapAddr, mmapAddr + mmapSize (2 * cap * 2 ^ logStride)⟩)
    (grows : LoggedHeap.emitGrowArrayIfFullStrided ⟨state.heap, accesses⟩ ctx.fatPtr fatOffset
      capOffset nextIndex logStride mmapAddr = some (fat, logged)) :
    ∃ next grown newCap news, logged = ⟨next.heap, accesses ++ news⟩ ∧
      IntactBut base moved next ∧
      Describes moved next ctx grown fatOffset capOffset logStride newCap ∧
      fat = grown.fatPtr ∧ nextIndex < newCap ∧
      (∀ offset < nextIndex * 2 ^ logStride, 8 ∣ offset →
        next.heap.words (next.heap.load fat + offset) =
          state.heap.words (state.heap.load array.fatPtr + offset)) ∧
      Keeps state next (fun other => other = ctx ∨ other = array) ∧ FreedLast array news := by
  rcases growth_spec but describes stride inRange maps grows with
    ⟨next, grown, newCap, news, ends, afterwards, described, isFat, grew, entries, keeps, freed⟩
  have larger : nextIndex < newCap := by
    rcases grew with ⟨isFull, rfl⟩ | ⟨notFull, rfl, -⟩ <;> omega
  exact ⟨next, grown, newCap, news, ends, afterwards, described, isFat, larger, entries, keeps,
    freed⟩

/-! ## Arrays of at most two entries -/

def contextHeap : Heap := heapAfter (emptyState.heap.allocateRaw 16 0)

def arrayHeap (cap : Nat) : Heap := heapAfter (contextHeap.allocateRaw (cap * 2 ^ 3) 0)

def describedWords (cap : Nat) : Words :=
  Function.update (Function.update (arrayHeap cap).words 4112 4128) 4120 cap

/-- A context of two fields describes the array of `cap` words behind it, whose chunk holds 7
and 9. -/
def describedHeap (cap : Nat) : Heap :=
  { arrayHeap cap with
    words := Function.update (Function.update (describedWords cap) 4144 7) 4152 9 }

theorem described_small {cap : Nat} (small : cap ≤ 2) : ∃ state,
    IntactBut lowHeap [] state ∧ state.heap = describedHeap cap ∧
      Describes [] state ⟨4096, 16⟩ ⟨4128, cap * 2 ^ 3⟩ 0 8 3 cap := by
  have isClass : ∀ size ≤ 16, sizeClass size = 0 := fun size atMost =>
    Nat.le_zero.mp ((sizeClass_le_iff (by omega) 0).mpr atMost)
  have notHuge : ∀ size ≤ 16, ∀ {P : Prop}, MAX_CLASS < sizeClass size → P := by
    intro size atMost P huge
    rw [isClass size atMost] at huge
    cases huge
  have caps : cap = 0 ∨ cap = 1 ∨ cap = 2 := by omega
  have serves : (contextHeap.allocateRaw (cap * 2 ^ 3) 0).map Prod.fst = some 4128 := by
    rcases caps with rfl | rfl | rfl <;> decide +kernel
  have empty := IntactBut.of_intact (intact_start lowHeap fun _ => 0)
  have servesFirst : emptyState.heap.allocateRaw 16 0 = some (4096, contextHeap) :=
    returned (by decide +kernel)
  rcases allocate_step empty (by decide) (notHuge 16 (by decide)) servesFirst with
    ⟨first, firstHeap, firstLive, but1, -, -⟩
  have servesSecond := returned serves
  rw [← firstHeap] at servesSecond
  rcases allocate_step but1 (by omega) (notHuge _ (by omega)) servesSecond with
    ⟨second, secondHeap, secondLive, but2, -, -⟩
  rw [firstHeap, ← arrayHeap] at secondHeap
  have ctxLive : ⟨4096, 16⟩ ∈ second.live := by
    rw [secondLive, firstLive]
    exact List.mem_cons_of_mem _ List.mem_cons_self
  have arrayLive : ⟨4128, cap * 2 ^ 3⟩ ∈ second.live := secondLive ▸ List.mem_cons_self
  have ctxRegion : Allocation.region second.heap ⟨4096, 16⟩ = ⟨4112, 4128⟩ := by
    rw [secondHeap]
    rcases caps with rfl | rfl | rfl <;> decide +kernel
  have agree : AgreeOutside (Allocation.region second.heap ⟨4096, 16⟩) second.heap.words
      (describedWords cap) := by
    rw [secondHeap] at ctxRegion ⊢
    rw [ctxRegion]
    exact (AgreeOutside.update ⟨by decide, by decide⟩ _).trans
      (AgreeOutside.update ⟨by decide, by decide⟩ _)
  rcases write_step but2 ctxLive List.not_mem_nil agree with
    ⟨third, thirdHeap, thirdLive, but3, -, -⟩
  rw [secondHeap] at thirdHeap
  have arrayRegion : Allocation.region third.heap ⟨4128, cap * 2 ^ 3⟩ = ⟨4144, 4160⟩ := by
    rw [thirdHeap]
    rcases caps with rfl | rfl | rfl <;> decide +kernel
  have entries : AgreeOutside (Allocation.region third.heap ⟨4128, cap * 2 ^ 3⟩) third.heap.words
      (describedHeap cap).words := by
    rw [arrayRegion, thirdHeap]
    exact (AgreeOutside.update ⟨by decide, by decide⟩ _).trans
      (AgreeOutside.update ⟨by decide, by decide⟩ _)
  rcases write_step but3 (thirdLive ▸ arrayLive) List.not_mem_nil entries with
    ⟨fourth, fourthHeap, fourthLive, but4, -, -⟩
  have sameHeap : fourth.heap = describedHeap cap := by
    rw [fourthHeap, thirdHeap]
    simp only [describedHeap]
  have sameLive := fourthLive.trans thirdLive
  refine ⟨fourth, but4, sameHeap, sameLive ▸ ctxLive, List.not_mem_nil, sameLive ▸ arrayLive,
    List.not_mem_nil, ?_, ?_, ?_, by decide, ?_, ?_, rfl, ?_⟩
  · rintro ⟨⟩
  all_goals
    rw [sameHeap]
    rcases caps with rfl | rfl | rfl <;> decide +kernel

/-- An array of no entries is replaced by another of no entries. -/
theorem empty_array_stays_empty : ∃ state fat logged,
    IntactBut lowHeap [] state ∧ Describes [] state ⟨4096, 16⟩ ⟨4128, 0⟩ 0 8 3 0 ∧
      LoggedHeap.emitGrowArrayIfFullStrided ⟨state.heap, []⟩ 4096 0 8 0 3 0 = some (fat, logged) ∧
      ¬ 0 < fieldOf logged.heap 4096 8 := by
  rcases described_small (Nat.zero_le 2) with ⟨state, but, sameHeap, describes⟩
  have grows : (LoggedHeap.emitGrowArrayIfFullStrided ⟨describedHeap 0, []⟩ 4096 0 8 0 3 0).map
      (fun grown => fieldOf grown.2.heap 4096 8) = some 0 := by
    decide +kernel
  rcases Option.map_eq_some_iff.mp grows with ⟨⟨fat, logged⟩, result, isZero⟩
  refine ⟨state, fat, logged, but, describes, ?_, Nat.not_lt.mpr (Nat.le_of_eq isZero)⟩
  rw [sameHeap]
  exact result

/-- A full array of two entries. -/
theorem growth_keeps_entries_two : ∃ state fat logged next grown newCap,
    IntactBut lowHeap [] state ∧
      LoggedHeap.emitGrowArrayIfFullStrided ⟨state.heap, []⟩ 4096 0 8 2 3 0 = some (fat, logged) ∧
      logged.heap = BucketState.heap next ∧
      Describes [] next ⟨4096, 16⟩ grown 0 8 3 newCap ∧ fat = grown.fatPtr ∧ 2 < newCap ∧
      next.heap.words (next.heap.load fat) = 7 ∧ next.heap.words (next.heap.load fat + 8) = 9 := by
  rcases described_small (Nat.le_refl 2) with ⟨state, but, sameHeap, describes⟩
  have grows : (LoggedHeap.emitGrowArrayIfFullStrided ⟨describedHeap 2, []⟩ 4096 0 8 2 3 0).isSome := by
    decide +kernel
  rw [← sameHeap] at grows
  rcases Option.isSome_iff_exists.mp grows with ⟨⟨fat, logged⟩, result⟩
  have small : sizeClass (2 * 2 * 2 ^ 3) ≤ MAX_CLASS := by decide +kernel
  rcases growth_keeps_entries but describes (Nat.le_refl 3) (Nat.le_refl 2) (by decide)
      (fun huge => absurd huge (Nat.not_lt.mpr small)) result with
    ⟨next, grown, newCap, news, ends, -, described, isFat, larger, entries, -⟩
  have first : state.heap.words (state.heap.load 4128 + 0) = 7 := by
    rw [sameHeap]
    decide +kernel
  have second : state.heap.words (state.heap.load 4128 + 8) = 9 := by
    rw [sameHeap]
    decide +kernel
  exact ⟨state, fat, logged, next, grown, newCap, but, result, congrArg LoggedHeap.heap ends,
    described, isFat, larger, (entries 0 (by decide) (by decide)).trans first,
    (entries 8 (by decide) (by decide)).trans second⟩

end LakeNative.Scheduler

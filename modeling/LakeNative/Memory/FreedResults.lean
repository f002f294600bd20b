import LakeNative.Allocators.FreedBuffers
import LakeNative.Arenas.Carving
import LakeNative.Memory.IntegerText

/-! # Freeing what the runtime has returned

The fat pointers that programs get come from the allocator, from `to_string`, from `buf_trim` and
from an arena. Only those whose header still shows its chunk can be freed.
-/

namespace LakeNative.Memory

open LakeNative.Runtime LakeNative.Regions LakeNative.Allocators LakeNative.Arenas

variable {base : HeapRegion} {state : BucketState} {moved : List Allocation} {owner : Allocation}

/-! ## Allocations -/

/-- The length that the allocator gives a fat pointer. -/
def givenSpan (owner : Allocation) : Nat :=
  if owner.isHuge then mmapSize owner.size - 32 else owner.size

/-- The header shows the payload from its start on, at some length. -/
def ShowsSpan (heap : Heap) (owner : Allocation) (span : Nat) : Prop :=
  heap.load owner.fatPtr = owner.payload ∧
    heap.load (owner.fatPtr + 8) = iadd owner.payload span

theorem givenSpan_lt (but : IntactBut base moved state) (member : owner ∈ state.live) :
    givenSpan owner < 2 ^ 64 := by
  rcases but.shadow with ⟨dead, words, intact, -⟩
  have held := intact.held _ member
  unfold givenSpan
  cases isHuge : owner.isHuge with
  | false => exact held.isWord
  | true =>
      have mapFits := (held.huge isHuge).2.2.2.1
      change owner.fatPtr + mmapSize owner.size ≤ 2 ^ 47 at mapFits
      rw [if_pos rfl]
      omega

/-- The allocator returns the whole payload. -/
theorem given_header (but : IntactBut base moved state) (member : owner ∈ state.live)
    (isUnmoved : owner ∉ moved) : ShowsSpan state.heap owner (givenSpan owner) := by
  rcases but.unmoved with ⟨dead, words, intact, -, same⟩
  have inSpace := (same owner member isUnmoved).1
  have first := inSpace _ (intact.mem_space member (Nat.zero_le 16))
  have second := inSpace _ (intact.mem_space member (by decide : 8 ≤ 16))
  have fits := but.space_fits member
  unfold ShowsSpan Allocation.payload givenSpan
  cases isHuge : owner.isHuge with
  | false =>
      rcases but.header member isUnmoved isHuge with ⟨-, starts, ends⟩
      have held := intact.held _ member
      have isWord := held.isWord
      have room : owner.size ≤ classSize owner.bucket := le_classSize isWord
      rw [Allocation.space_small isHuge] at fits
      change owner.fatPtr + 16 + classSize owner.bucket ≤ 2 ^ 47 at fits
      refine ⟨starts, ends.trans ?_⟩
      rw [if_neg Bool.false_ne_true, if_neg Bool.false_ne_true, iadd_eq (by omega)]
  | true =>
      rcases (intact.held _ member).huge isHuge with ⟨starts, ends, nonempty, mapFits, -⟩
      have atLeast := mmapSize_ge nonempty
      change owner.fatPtr + mmapSize owner.size ≤ 2 ^ 47 at mapFits
      rw [if_pos rfl, if_pos rfl]
      refine ⟨first.trans starts, (second.trans ends).trans ?_⟩
      rw [iadd_eq (by omega)]
      omega

theorem given_fits_iff (but : IntactBut base moved state) (member : owner ∈ state.live) :
    SpanFits owner (givenSpan owner) ↔ owner.size < 2 ^ 64 - 31 := by
  rcases but.shadow with ⟨dead, words, intact, -⟩
  have held := intact.held _ member
  have isWord := held.isWord
  unfold SpanFits givenSpan
  cases isHuge : owner.isHuge with
  | false =>
      have small := isHuge
      rw [Allocation.isHuge_eq_false_iff, Allocation.bucket, ← Nat.not_lt, huge_iff isWord] at small
      exact iff_of_true rfl (by omega)
  | true =>
      rcases held.huge isHuge with ⟨-, -, nonempty, mapFits, -⟩
      have atLeast := mmapSize_ge nonempty
      change owner.fatPtr + mmapSize owner.size ≤ 2 ^ 47 at mapFits
      have whole : mmapSize (mmapSize owner.size - 32) = mmapSize owner.size := by
        unfold mmapSize iadd alignDown at *
        omega
      rw [if_pos rfl, if_pos rfl, huge_iff (by omega)]
      have large := isHuge
      rw [Allocation.isHuge_iff, Allocation.bucket, huge_iff isWord] at large
      constructor
      · intro spanFits
        by_contra overflows
        rw [mmapSize_of_overflow isWord (by omega)] at spanFits
        omega
      · intro noOverflow
        have room := mmapSize_room noOverflow nonempty
        exact ⟨by omega, whole⟩

/-- What the allocator has returned, with its header as it was. -/
theorem allocated_freed_iff (but : IntactBut base moved state) (member : owner ∈ state.live)
    (shows : ShowsSpan state.heap owner (givenSpan owner)) :
    FreedSafely base moved state owner (state.heap.free owner.fatPtr) ↔
      owner.size < 2 ^ 64 - 31 := by
  rw [but.freed_safely_iff member (givenSpan_lt but member) shows.1 shows.2,
    given_fits_iff but member]

/-! ## Headers that programs have changed -/

/-- A call writes a word of the header. -/
theorem header_written (but : IntactBut base moved state) (member : owner ∈ state.live)
    {offset : Nat} (inside : offset ≤ 16) (value : Nat) :
    IntactBut base (owner :: moved)
      { state with heap := state.heap.store (owner.fatPtr + offset) value } := by
  have wider : IntactBut base (owner :: moved) state :=
    but.mono (List.subset_cons_self _ _) (List.cons_subset.mpr ⟨member, but.areLive⟩)
  apply wider.write
  intro addr outside _
  apply Function.update_of_ne
  rintro rfl
  exact outside owner List.mem_cons_self (but.mem_space member inside)

/-- What `buf_trim` has given another end. -/
theorem trimmed_freed_iff (but : IntactBut base moved state) (member : owner ∈ state.live)
    {newLen : Nat} (isWord : newLen < 2 ^ 64) {before : Heap}
    (start : before.load owner.fatPtr = owner.payload)
    (shows : ∀ offset ≤ 8, state.heap.load (owner.fatPtr + offset) =
      (before.bufTrim owner.fatPtr newLen).load (owner.fatPtr + offset)) :
    FreedSafely base moved state owner (state.heap.free owner.fatPtr) ↔ SpanFits owner newLen := by
  have startKept : state.heap.load owner.fatPtr = owner.payload := by
    apply (shows 0 (Nat.zero_le 8)).trans
    exact (Function.update_of_ne (by omega) _ _).trans start
  have stop : state.heap.load (owner.fatPtr + 8) = iadd owner.payload newLen := by
    apply (shows 8 (Nat.le_refl 8)).trans
    rw [← start]
    exact Function.update_self _ _ _
  exact but.freed_safely_iff member isWord startKept stop

/-! ## Texts of integers -/

theorem length_numberBytes {n : BitVec 64} {bytes : List UInt8} (isBytes : numberBytes n = some bytes) :
    bytes.length ≤ DIGIT_ROUNDS + 1 := by
  rw [numberBytes] at isBytes
  split at isBytes
  · cases isBytes
    decide
  · split at isBytes
    · rcases Option.map_eq_some_iff.mp isBytes with ⟨digits, isDigits, rfl⟩
      exact Nat.succ_le_succ (length_digitBytes isDigits).2
    · exact Nat.le_succ_of_le (length_digitBytes isBytes).2

/-- The text starts behind the first byte of its buffer. -/
theorem writeNumber_behind {mem later : ByteMem} {dataPtr start : Nat} (fits : dataPtr + 32 ≤ 2 ^ 47)
    {n : BitVec 64} (writes : writeNumber mem dataPtr n = some (start, later)) :
    dataPtr < start ∧ start ≤ dataPtr + 31 := by
  rcases numberBytes_isSome n with ⟨bytes, isBytes⟩
  have short := length_numberBytes isBytes
  unfold DIGIT_ROUNDS at short
  rcases @writeNumber_spec bytes mem dataPtr fits n isBytes with ⟨other, writesHere, endsWith⟩
  rw [writes] at writesHere
  cases writesHere
  omega

/-- A chunk that nobody has keeps its payload behind its fat pointer. -/
theorem start_of_freed (but : IntactBut base moved state) (member : owner ∈ state.live)
    (small : owner.isHuge = false) {result : Heap.Freed × Heap}
    (safely : FreedSafely base moved state owner result) :
    result.2.words owner.fatPtr = owner.fatPtr + 16 := by
  rcases but.shadow with ⟨dead, before, intact, -⟩
  rcases safely.intact.shadow with ⟨later, words, afterwards, same⟩
  have isChunk : ⟨owner.fatPtr, owner.bucket⟩ ∈ state.chunks :=
    ((intact.held owner member).small small).1
  have atStart : words owner.fatPtr = owner.fatPtr + 16 := afterwards.starts _ isChunk
  rw [← atStart]
  apply same
  intro allocation isMoved
  rcases List.mem_filter.mp isMoved with ⟨wasMoved, different⟩
  have apart := but.live_apart member (but.areLive wasMoved) (of_decide_eq_true different).symm
  exact apart.notMem (but.mem_space member (Nat.zero_le 16))

/-- A short header with a later start keeps it on the free list. -/
theorem start_of_free {heap : Heap} {fatPtr first stop : Nat} (behind : fatPtr < first)
    (start : heap.load fatPtr = first) (ends : heap.load (fatPtr + 8) = stop)
    (ordered : first ≤ stop) (short : stop ≤ first + 32) (fits : first < 2 ^ 63) :
    (heap.free fatPtr).2.words fatPtr = first := by
  have span : isub stop first = stop - first := isub_eq ordered (by omega)
  have lowClass : sizeClass (stop - first) ≤ 1 :=
    (sizeClass_le_iff (by omega) 1).mpr (Nat.sub_le_iff_le_add'.mpr short)
  have inRange : sizeClass (stop - first) ≤ MAX_CLASS := Nat.le_trans lowClass (by decide)
  have chunkSize : classSize (sizeClass (stop - first)) ≤ 32 := classSize_mono lowClass
  rw [free_split, start, ends, span, if_pos inRange]
  generalize sizeClass (stop - first) = bucket at chunkSize
  -- No pages of so small a chunk are given back.
  have onlyLinked : heap.pushBlock bucket fatPtr first =
      (heap.store first (heap.freeListHeads bucket)).setHead bucket fatPtr :=
    if_neg fun advised => absurd advised.1 (by omega)
  rw [onlyLinked]
  exact (Function.update_of_ne (Nat.ne_of_lt behind) _ _).trans start

/-- A text in a buffer of 32 bytes, wherever in it the program has put the end. -/
theorem number_not_freed (but : IntactBut base moved state) (member : owner ∈ state.live)
    (ofClass : owner.bucket = 1) {mem later : ByteMem} {first stop : Nat} {n : BitVec 64}
    (writes : writeNumber mem (owner.fatPtr + 16) n = some (first, later))
    (start : state.heap.load owner.fatPtr = first)
    (ends : state.heap.load (owner.fatPtr + 8) = stop) (ordered : first ≤ stop)
    (within : stop ≤ owner.fatPtr + 48) :
    ¬ FreedSafely base moved state owner (state.heap.free owner.fatPtr) := by
  have small : owner.isHuge = false := by
    rw [Allocation.isHuge_eq_false_iff, ofClass]
    decide
  have isSize : classSize 1 = 32 := rfl
  have spaceFits := but.space_fits member
  rw [Allocation.space_small small, ofClass] at spaceFits
  change owner.fatPtr + 16 + classSize 1 ≤ 2 ^ 47 at spaceFits
  rw [isSize] at spaceFits
  have place := writeNumber_behind spaceFits writes
  have kept := start_of_free (Nat.lt_of_le_of_lt (Nat.le_add_right _ 16) place.1) start ends ordered
    (by omega) (by omega)
  intro safely
  rw [start_of_freed but member small safely] at kept
  exact absurd kept (Nat.ne_of_lt place.1)

/-- What `to_string` has returned. -/
theorem text_not_freed (but : IntactBut base moved state) {fatPtr : Nat}
    (member : ⟨fatPtr, 31⟩ ∈ state.live) {mem : ByteMem} {buffer : Buffer 31} {n : BitVec 64}
    {rendered : Rendered} (isBuffer : buffer.start = fatPtr + 16)
    (renders : Runtime.toString mem buffer n = some rendered)
    (start : state.heap.load fatPtr = rendered.start) {stop : Nat}
    (ends : state.heap.load (fatPtr + 8) = stop) (ordered : rendered.start ≤ stop)
    (trimmed : stop ≤ rendered.stop) :
    ¬ FreedSafely base moved state ⟨fatPtr, 31⟩ (state.heap.free fatPtr) := by
  have sized := buffer.sized
  rcases Option.map_eq_some_iff.mp renders with ⟨⟨first, later⟩, writes, rfl⟩
  rw [isBuffer] at writes
  have ofClass : sizeClass 31 = 1 := by decide +kernel
  have within : stop ≤ fatPtr + 48 := Nat.le_trans trimmed (show buffer.stop ≤ _ by omega)
  exact number_not_freed but member ofClass writes start ends ordered within

/-- What `to_string_with_ln` has returned. -/
theorem text_with_ln_not_freed (but : IntactBut base moved state) {fatPtr : Nat}
    (member : ⟨fatPtr, 32⟩ ∈ state.live) {mem : ByteMem} {buffer : Buffer 32} {n : BitVec 64}
    {rendered : Rendered} (isBuffer : buffer.start = fatPtr + 16)
    (renders : toStringWithLn mem buffer n = some rendered)
    (start : state.heap.load fatPtr = rendered.start) {stop : Nat}
    (ends : state.heap.load (fatPtr + 8) = stop) (ordered : rendered.start ≤ stop)
    (trimmed : stop ≤ rendered.stop) :
    ¬ FreedSafely base moved state ⟨fatPtr, 32⟩ (state.heap.free fatPtr) := by
  have sized := buffer.sized
  rcases Option.map_eq_some_iff.mp renders with ⟨⟨first, later⟩, writes, rfl⟩
  rw [isBuffer] at writes
  have ofClass : sizeClass 32 = 1 := by decide +kernel
  have within : stop ≤ fatPtr + 48 := Nat.le_trans trimmed (show buffer.stop ≤ _ by omega)
  exact number_not_freed but member ofClass writes start ends ordered within

/-! ## Parts of an arena -/

/-- `rt_free` makes the given fat pointer the head of a list, which is not that of the chunk
around it. -/
theorem interior_not_freed (small : owner.isHuge = false) {fatPtr : Nat}
    (different : fatPtr ≠ owner.fatPtr) :
    ¬ FreedSafely base moved state owner (state.heap.free fatPtr) := by
  intro safely
  have givesBack := safely.givesBack
  have listed := safely.listed small
  rw [free_split] at givesBack listed
  split at givesBack
  · rename_i inRange
    rw [if_pos inRange] at listed
    have sameBucket := givesBack.2
    rw [sameBucket, Heap.freeListHeads_pushBlock, Function.update_self] at listed
    exact different listed
  · have huge := givesBack.1
    rw [small] at huge
    cases huge

/-- What lies in an arena is no chunk of its own. -/
theorem arena_block_not_freed {arena : Allocation} {shared : ArenaState}
    (isShared : Shared base arena shared) {block : ArenaBlock} (member : block ∈ shared.handed)
    (moved : List Allocation) (state : BucketState) :
    ¬ FreedSafely base moved state arena (state.heap.free block.addr) := by
  rcases isShared.blocks block member with ⟨-, within⟩
  have above : arena.fatPtr + 16 ≤ block.addr := within.1
  exact interior_not_freed isShared.small (by omega)

/-! ## All that programs are given -/

/-- Freeing what the allocator has returned is safe unless its size wrapped around, and freeing
what `buf_trim` was called for is if its length still leads to where it is from. Texts and parts
of arenas can never be freed. -/
theorem results_freed_safely_iff (base : HeapRegion) :
    (∀ {moved state owner}, IntactBut base moved state → owner ∈ state.live →
      (owner ∉ moved → ShowsSpan state.heap owner (givenSpan owner)) ∧
      (ShowsSpan state.heap owner (givenSpan owner) →
        (FreedSafely base moved state owner (state.heap.free owner.fatPtr) ↔
          owner.size < 2 ^ 64 - 31))) ∧
    (∀ {moved state owner newLen before}, IntactBut base moved state → owner ∈ state.live →
      newLen < 2 ^ 64 → Heap.load before owner.fatPtr = owner.payload →
      (∀ offset ≤ 8, state.heap.load (owner.fatPtr + offset) =
        (before.bufTrim owner.fatPtr newLen).load (owner.fatPtr + offset)) →
      (FreedSafely base moved state owner (state.heap.free owner.fatPtr) ↔
        SpanFits owner newLen)) ∧
    (∀ {moved state fatPtr mem rendered stop} {n : BitVec 64} {buffer : Buffer 31},
      IntactBut base moved state → ⟨fatPtr, 31⟩ ∈ state.live → buffer.start = fatPtr + 16 →
      Runtime.toString mem buffer n = some rendered → state.heap.load fatPtr = rendered.start →
      state.heap.load (fatPtr + 8) = stop → rendered.start ≤ stop → stop ≤ rendered.stop →
      ¬ FreedSafely base moved state ⟨fatPtr, 31⟩ (state.heap.free fatPtr)) ∧
    (∀ {moved state fatPtr mem rendered stop} {n : BitVec 64} {buffer : Buffer 32},
      IntactBut base moved state → ⟨fatPtr, 32⟩ ∈ state.live → buffer.start = fatPtr + 16 →
      toStringWithLn mem buffer n = some rendered → state.heap.load fatPtr = rendered.start →
      state.heap.load (fatPtr + 8) = stop → rendered.start ≤ stop → stop ≤ rendered.stop →
      ¬ FreedSafely base moved state ⟨fatPtr, 32⟩ (state.heap.free fatPtr)) ∧
    ∀ {arena shared block}, Shared base arena shared → block ∈ shared.handed →
      ∀ moved state, ¬ FreedSafely base moved state arena (state.heap.free block.addr) := by
  refine ⟨?_, ?_, ?_, ?_, ?_⟩
  · intro moved state owner but member
    exact ⟨given_header but member, allocated_freed_iff but member⟩
  · intro moved state owner newLen before but member isWord start shows
    exact trimmed_freed_iff but member isWord start shows
  · intro moved state fatPtr mem rendered stop n buffer but member isBuffer renders start ends
    exact text_not_freed but member isBuffer renders start ends
  · intro moved state fatPtr mem rendered stop n buffer but member isBuffer renders start ends
    exact text_with_ln_not_freed but member isBuffer renders start ends
  · intro arena shared block isShared member
    exact arena_block_not_freed isShared member

/-- The buffer that the first `to_string` gets. -/
def textHeld : BucketState :=
  emptyState.record ⟨4096, 31⟩ (heapAfter (emptyState.heap.allocateRaw 31 0))

/-- The text of 5 is freed to the list of 16 bytes, from where it is given out with its start in
the middle. -/
theorem text_of_five_not_freed : BucketStep lowHeap emptyState (.allocate 31 4096) textHeld ∧
    ∃ rendered, Runtime.toString ⟨fun _ => 0, []⟩ ⟨⟨4112, 4143, by decide, by decide⟩, rfl⟩ 5 =
        some rendered ∧
      rendered.start = 4142 ∧ rendered.stop = 4143 ∧
      ∀ written, written = textHeld.heap.store 4096 rendered.start →
        (written.free 4096).1 = .pushed 0 ∧ Allocation.bucket ⟨4096, 31⟩ = 1 ∧
        ¬ FreedSafely lowHeap [⟨4096, 31⟩] { textHeld with heap := written } ⟨4096, 31⟩
          (written.free 4096) := by
  have notHuge : ∀ {P : Prop}, MAX_CLASS < sizeClass 31 → P :=
    fun isHuge => absurd isHuge (by decide +kernel)
  have allocates : emptyState.heap.allocateRaw 31 0 = some (4096, _) :=
    returned (by decide +kernel)
  rcases (intact_start lowHeap fun _ => 0).allocate_spec (by decide) notHuge
    allocates with ⟨⟨dead, intact⟩, -⟩
  have held : IntactBut lowHeap [] textHeld := .of_intact intact
  have member : ⟨4096, 31⟩ ∈ textHeld.live := List.mem_cons_self
  let buffer : Buffer 31 := ⟨⟨4112, 4143, by decide, by decide⟩, rfl⟩
  have ends : (Runtime.toString ⟨fun _ => 0, []⟩ buffer 5).map
      (fun rendered => (rendered.start, rendered.stop)) = some (4142, 4143) := by decide +kernel
  rcases Option.map_eq_some_iff.mp ends with ⟨rendered, renders, isPair⟩
  rcases Prod.mk.inj isPair with ⟨isStart, isStop⟩
  refine ⟨.allocate 31 0 4096 (by decide) notHuge allocates, rendered, renders, isStart, isStop, ?_⟩
  rw [isStart]
  rintro written rfl
  have but := header_written held member (Nat.zero_le 16) 4142
  refine ⟨by decide +kernel, by decide +kernel, ?_⟩
  have start : (textHeld.heap.store 4096 4142).load 4096 = rendered.start := isStart.symm
  have stop : (textHeld.heap.store 4096 4142).load 4104 = rendered.stop := by
    rw [isStop]
    decide +kernel
  exact text_not_freed but member rfl renders start stop (by omega) (Nat.le_refl _)

end LakeNative.Memory

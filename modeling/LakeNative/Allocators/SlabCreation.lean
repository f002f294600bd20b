import LakeNative.Allocators.SlabInvariant

/-! # New slabs

The mapping that a slab is cut from, the header and the bitmap that it starts with, and its
place in the list of its class.
-/

namespace LakeNative.Allocators

open LakeNative.Runtime LakeNative.Runtime.SlabLayout LakeNative.Regions LakeNative.LinkedList
open LakeNative.Bitmap

variable {state : SlabState} {heap : SlabHeap} {classIdx slab raw : Nat}

/-! ## The mapping -/

/-- An aligned slab is left of the mapping. -/
theorem mapSlab_spec {slabSize : Nat} (positive : 0 < slabSize) (small : slabSize ≤ 2 ^ 25)
    (fits : raw + 2 * slabSize ≤ 2 ^ 47) :
    ∃ mapped, heap.mapSlab slabSize raw =
        (alignDown (raw + (slabSize - 1)) slabSize, { heap with mapped := mapped }) ∧
      ∀ addr, mapped addr =
        if alignDown (raw + (slabSize - 1)) slabSize ≤ addr ∧
          addr < alignDown (raw + (slabSize - 1)) slabSize + slabSize then true
        else if raw ≤ addr ∧ addr < raw + 2 * slabSize then false
        else heap.mapped addr := by
  have above := lt_alignDown_add (raw + (slabSize - 1)) positive
  have below := alignDown_le (raw + (slabSize - 1)) slabSize
  have doubleSize : ishl slabSize 1 = 2 * slabSize := by
    rw [ishl_eq (by omega)]
    omega
  have rawPlus : iadd raw (slabSize - 1) = raw + (slabSize - 1) := iadd_eq (by omega)
  simp only [SlabHeap.mapSlab, doubleSize, rawPlus]
  generalize alignDown (raw + (slabSize - 1)) slabSize = aligned at above below
  have prefixLen : isub aligned raw = aligned - raw := isub_eq (by omega) (by omega)
  have suffixLen : isub slabSize (aligned - raw) = slabSize - (aligned - raw) :=
    isub_eq (by omega) (by omega)
  have suffixStart : iadd aligned slabSize = aligned + slabSize := iadd_eq (by omega)
  simp only [prefixLen, suffixLen, suffixStart]
  rw [if_pos (by omega : slabSize - (aligned - raw) ≠ 0)]
  by_cases hasPrefix : aligned - raw ≠ 0
  · rw [if_pos hasPrefix]
    refine ⟨_, rfl, fun addr => ?_⟩
    simp only [SlabHeap.mmap, SlabHeap.munmap]
    grind
  · rw [if_neg hasPrefix]
    refine ⟨_, rfl, fun addr => ?_⟩
    simp only [SlabHeap.mmap]
    grind

/-! ## The bitmap -/

/-- The loop stores its word to each word of the bitmap and nothing elsewhere. -/
theorem fill_spec (heap : SlabHeap) (count : Nat)
    (fits : slab + HDR_BITMAP_START + 8 * count < 2 ^ 64) :
    ∃ words, (List.range count).foldl (fun heap widx =>
        heap.store (bitmapWord slab widx) (fillWord classIdx widx)) heap =
          { heap with words := words } ∧
      (∀ widx < count, bitmapOf words slab widx = fillWord classIdx widx) ∧
      ∀ addr, (∀ widx < count, addr ≠ slab + HDR_BITMAP_START + 8 * widx) →
        words addr = heap.words addr := by
  induction count with
  | zero => exact ⟨heap.words, rfl, nofun, fun _ _ => rfl⟩
  | succ count induction =>
      rcases induction (by omega) with ⟨words, isFill, filled, others⟩
      have here : bitmapWord slab count = slab + HDR_BITMAP_START + 8 * count :=
        bitmapWord_eq (by omega)
      refine ⟨Function.update words (slab + HDR_BITMAP_START + 8 * count)
        (fillWord classIdx count), ?_, ?_, ?_⟩
      · rw [List.range_succ, List.foldl_append, isFill, List.foldl_cons, List.foldl_nil, here]
        rfl
      · intro widx inWords
        rw [bitmapOf]
        by_cases same : widx = count
        · rw [same, Function.update_self]
        · rw [Function.update_of_ne (by omega)]
          exact filled widx (by omega)
      · intro addr outside
        rw [Function.update_of_ne (outside count (Nat.lt_succ_self _))]
        exact others addr fun widx inWords => outside widx (by omega)

theorem fillWord_spec (inRange : classIdx ≤ NUM_CLASSES - 1) {widx : Nat}
    (inWords : widx < numWords classIdx) :
    fillWord classIdx widx < 2 ^ 64 ∧ ∀ bit < 64, (fillWord classIdx widx).testBit bit =
      decide (64 * widx + bit < chunksPerSlab classIdx) := by
  have tight : 64 * widx < chunksPerSlab classIdx := by
    unfold numWords at inWords
    omega
  have few : chunksPerSlab classIdx ≤ 2 ^ 25 := by
    rcases geometry classIdx inRange with ⟨-, -, -, chunkRoom, -, -, small⟩
    have atLeast : chunksPerSlab classIdx * 1 ≤ chunksPerSlab classIdx * classSize classIdx :=
      Nat.mul_le_mul_left _ (classSize_pos classIdx)
    omega
  have bits : imul widx 64 = 64 * widx := by
    rw [imul_eq (by omega), Nat.mul_comm]
  have remaining : isub (chunksPerSlab classIdx) (64 * widx) =
      chunksPerSlab classIdx - 64 * widx := isub_eq (by omega) (by omega)
  have allSet : ∀ count, count ≤ 64 → 2 ^ count - 1 < 2 ^ 64 := by
    intro count inWord
    have bounded := Nat.pow_le_pow_right (by decide : 0 < 2) inWord
    have positive := Nat.two_pow_pos count
    omega
  have wordOf : fillWord classIdx widx = 2 ^ min 64 (chunksPerSlab classIdx - 64 * widx) - 1 := by
    simp only [fillWord, bits, remaining]
    split
    · rename_i full
      rw [Nat.min_eq_left full]
    · rename_i partly
      rw [one_shl (by omega), Nat.min_eq_right (by omega)]
  rw [wordOf]
  refine ⟨allSet _ (Nat.min_le_left _ _), fun bit inWord => ?_⟩
  rw [Nat.testBit_two_pow_sub_one, decide_eq_decide]
  omega

/-- All chunks of a filled bitmap are free. -/
theorem freeBits_filled (inRange : classIdx ≤ NUM_CLASSES - 1) {words : Words}
    (filled : ∀ widx < numWords classIdx, bitmapOf words slab widx = fillWord classIdx widx) :
    freeBits words classIdx slab = Finset.range (chunksPerSlab classIdx) := by
  have room := (geometry classIdx inRange).2.1
  ext chunkIdx
  rw [freeBits, mem_marked, Finset.mem_range]
  by_cases inBound : chunkIdx < 64 * numWords classIdx
  · have inWords : chunkIdx / 64 < numWords classIdx := by omega
    have bit := (fillWord_spec inRange inWords).2 (chunkIdx % 64) (Nat.mod_lt _ (by decide))
    rw [Nat.div_add_mod] at bit
    rw [and_iff_right inBound, filled _ inWords, bit, decide_eq_true_iff]
  · exact ⟨fun both => absurd both.1 inBound, fun inSlab => absurd (by omega) inBound⟩

/-! ## The slab -/

/-- The new slab is one whose chunks are all free, and the rest of memory is as it was. -/
theorem createNewSlab_spec (inRange : classIdx ≤ NUM_CLASSES - 1)
    (fresh : Fresh heap ⟨raw, raw + 2 * slabSizeForClass classIdx⟩) :
    ∃ slab words mapped,
      heap.createNewSlab classIdx raw = (slab, { heap with words := words, mapped := mapped }) ∧
      SlabKept { heap with words := words, mapped := mapped } classIdx slab ∧
      (slabRegion classIdx slab).Within ⟨raw, raw + 2 * slabSizeForClass classIdx⟩ ∧
      words (slab + HDR_PREV_SLAB) = 0 ∧
      words (slab + HDR_FREE_COUNT) = chunksPerSlab classIdx ∧
      AgreeOutside (slabMeta classIdx slab) heap.words words ∧
      ∀ addr, heap.mapped addr = true → mapped addr = true := by
  rcases geometry classIdx inRange with ⟨-, -, bitmapRoom, chunkRoom, -, aligned, small⟩
  have fits := fresh.fits
  have isPositive := fresh.positive
  dsimp only at fits isPositive
  dsimp only [HDR_BITMAP_START] at bitmapRoom
  have positive : 0 < slabSizeForClass classIdx := by omega
  rcases @mapSlab_spec heap raw _ positive small fits with ⟨mapped, isMapped, mappedAt⟩
  have above := lt_alignDown_add (raw + (slabSizeForClass classIdx - 1)) positive
  have below := alignDown_le (raw + (slabSizeForClass classIdx - 1)) (slabSizeForClass classIdx)
  have isAligned := Nat.dvd_trans aligned
    (alignDown_dvd (raw + (slabSizeForClass classIdx - 1)) (slabSizeForClass classIdx))
  generalize alignDown (raw + (slabSizeForClass classIdx - 1)) (slabSizeForClass classIdx) = slab
    at above below isAligned isMapped mappedAt
  let headed : SlabHeap := ((({ heap with mapped := mapped }.store (slab + HDR_CLASS_ID)
    classIdx).store (slab + HDR_FREE_COUNT) (chunksPerSlab classIdx)).store
      (slab + HDR_NEXT_SLAB) 0).store (slab + HDR_PREV_SLAB) 0
  have bitmapFits : slab + HDR_BITMAP_START + 8 * numWords classIdx < 2 ^ 64 := by
    dsimp only [HDR_BITMAP_START]
    omega
  rcases @fill_spec classIdx slab headed (numWords classIdx) bitmapFits with
    ⟨words, isFill, filled, others⟩
  have headers : ∀ offset < HDR_BITMAP_START, words (slab + offset) = headed.words (slab + offset) :=
    fun offset inHeader => others _ fun widx _ => by
      dsimp only [HDR_BITMAP_START] at inHeader ⊢
      omega
  have allFree := freeBits_filled inRange filled
  have isCount : words (slab + HDR_FREE_COUNT) = chunksPerSlab classIdx := by
    rw [headers _ (by decide)]
    simp [headed, SlabHeap.store, HDR_PREV_SLAB, HDR_NEXT_SLAB, HDR_FREE_COUNT]
  have within : (slabRegion classIdx slab).Within
      ⟨raw, raw + 2 * slabSizeForClass classIdx⟩ := by
    constructor
    · dsimp only [slabRegion]
      omega
    · dsimp only [slabRegion]
      omega
  refine ⟨slab, words, mapped, ?_, ?_, within, ?_, isCount, ?_, ?_⟩
  · rw [SlabHeap.createNewSlab, isMapped]
    exact congrArg (Prod.mk slab) isFill
  · refine {
      aligned := isAligned
      positive := by omega
      fits := by omega
      mapped := ?_
      classId := ?_
      isWord := ?_
      counted := ?_
      inChunks := ?_ }
    · intro addr inside
      exact (mappedAt addr).trans (if_pos inside)
    · dsimp only
      rw [headers _ (by decide)]
      simp [headed, SlabHeap.store, HDR_PREV_SLAB, HDR_NEXT_SLAB, HDR_FREE_COUNT, HDR_CLASS_ID]
    · intro widx inWords
      dsimp only
      rw [filled widx inWords]
      exact (fillWord_spec inRange inWords).1
    · dsimp only
      rw [allFree, Finset.card_range]
      exact isCount
    · dsimp only
      rw [allFree]
      exact fun chunkIdx => Finset.mem_range.mp
  · rw [headers _ (by decide)]
    simp [headed, SlabHeap.store]
  · intro addr outside
    have notBitmap : ∀ widx < numWords classIdx, addr ≠ slab + HDR_BITMAP_START + 8 * widx := by
      rintro widx inWords rfl
      exact outside (bitmap_mem_meta inRange inWords)
    have notHeader : ∀ offset < HDR_FIXED_BYTES, addr ≠ slab + offset := by
      rintro offset inHeader rfl
      exact outside (mem_meta inRange inHeader)
    rw [others addr notBitmap]
    simp only [headed, SlabHeap.store]
    rw [Function.update_of_ne (notHeader _ (by decide)),
      Function.update_of_ne (notHeader _ (by decide)),
      Function.update_of_ne (notHeader _ (by decide)),
      Function.update_of_ne (notHeader _ (by decide))]
  · intro addr isMapped
    rw [mappedAt]
    split
    · rfl
    · rw [if_neg]
      · exact isMapped
      · intro inside
        have wasUnmapped := fresh.unmapped addr inside
        rw [isMapped] at wasUnmapped
        cases wasUnmapped

/-! ## The list -/

/-- `linkSlab` stores to the next link of the new slab and to the previous link of the old head. -/
theorem linkSlab_spec (heap : SlabHeap) (classIdx slab : Nat) :
    ∃ words, heap.linkSlab classIdx slab = { heap with
        words := words
        slabsHead := Function.update heap.slabsHead classIdx slab
        currentSlab := Function.update heap.currentSlab classIdx slab } ∧
      (heap.slabsHead classIdx + HDR_PREV_SLAB ≠ slab + HDR_NEXT_SLAB →
        words (slab + HDR_NEXT_SLAB) = heap.slabsHead classIdx) ∧
      (heap.slabsHead classIdx ≠ 0 → words (heap.slabsHead classIdx + HDR_PREV_SLAB) = slab) ∧
      ∀ addr, addr ≠ slab + HDR_NEXT_SLAB →
        (heap.slabsHead classIdx ≠ 0 → addr ≠ heap.slabsHead classIdx + HDR_PREV_SLAB) →
        words addr = heap.words addr := by
  by_cases isEmpty : heap.slabsHead classIdx = 0
  · refine ⟨Function.update heap.words (slab + HDR_NEXT_SLAB) (heap.slabsHead classIdx), ?_,
      fun _ => Function.update_self _ _ _, fun nonempty => absurd isEmpty nonempty,
      fun addr notNext _ => Function.update_of_ne notNext _ _⟩
    rw [SlabHeap.linkSlab]
    simp only [isEmpty]
    rfl
  · refine ⟨Function.update (Function.update heap.words (slab + HDR_NEXT_SLAB)
      (heap.slabsHead classIdx)) (heap.slabsHead classIdx + HDR_PREV_SLAB) slab, ?_, ?_,
      fun _ => Function.update_self _ _ _, ?_⟩
    · rw [SlabHeap.linkSlab, if_pos isEmpty]
      rfl
    · intro apart
      rw [Function.update_of_ne apart.symm, Function.update_self]
    · intro addr notNext notPrev
      rw [Function.update_of_ne (notPrev isEmpty), Function.update_of_ne notNext]

theorem mem_added {slabs : Nat → List Nat} {otherIdx other : Nat} :
    other ∈ Function.update slabs classIdx (slab :: slabs classIdx) otherIdx ↔
      (otherIdx = classIdx ∧ other = slab) ∨ other ∈ slabs otherIdx := by
  by_cases same : otherIdx = classIdx
  · rw [same, Function.update_self, List.mem_cons, and_iff_right rfl]
  · rw [Function.update_of_ne same]
    exact ⟨.inr, fun either => either.resolve_left fun both => same both.1⟩

theorem slabRegion_nonempty {otherIdx other : Nat} (inRange : otherIdx ≤ NUM_CLASSES - 1) :
    (slabRegion otherIdx other).first < (slabRegion otherIdx other).stop := by
  have geometry := geometry otherIdx inRange
  dsimp only [slabRegion]
  omega

theorem SlabsIntact.head_mem (intact : SlabsIntact state)
    (nonempty : state.heap.slabsHead classIdx ≠ 0) :
    state.heap.slabsHead classIdx ∈ state.slabs classIdx := by
  rcases (intact.lists classIdx).exists_cons nonempty with ⟨rest, isList, -⟩
  rw [isList]
  exact List.mem_cons_self

/-- What was mapped is not in the mapping that a slab is cut from. -/
theorem SlabsIntact.apart_new (intact : SlabsIntact state) (inRange : classIdx ≤ NUM_CLASSES - 1)
    (fresh : Fresh state.heap ⟨raw, raw + 2 * slabSizeForClass classIdx⟩)
    (within : (slabRegion classIdx slab).Within ⟨raw, raw + 2 * slabSizeForClass classIdx⟩)
    {otherIdx other : Nat} (also : other ∈ state.slabs otherIdx) :
    (slabRegion otherIdx other).Apart (slabRegion classIdx slab) := by
  apply Region.Apart.of_notMem (slabRegion_nonempty (intact.inRange _ _ also))
    (slabRegion_nonempty inRange)
  intro addr inOther inNew
  have wasMapped := (intact.kept _ _ also).mapped addr inOther
  rw [fresh.unmapped addr (within.mem inNew)] at wasMapped
  cases wasMapped

/-- A new slab, apart from the ones of the state, whose header and bitmap are in `created`, is
linked in front of its class's list in `words`. -/
structure Linked (state : SlabState) (classIdx slab : Nat) (created words : Words) : Prop where
  inRange : classIdx ≤ NUM_CLASSES - 1
  apart : ∀ otherIdx, ∀ other ∈ state.slabs otherIdx,
    (slabRegion otherIdx other).Apart (slabRegion classIdx slab)
  agree : AgreeOutside (slabMeta classIdx slab) state.heap.words created
  next : state.heap.slabsHead classIdx + HDR_PREV_SLAB ≠ slab + HDR_NEXT_SLAB →
    words (slab + HDR_NEXT_SLAB) = state.heap.slabsHead classIdx
  prev : state.heap.slabsHead classIdx ≠ 0 →
    words (state.heap.slabsHead classIdx + HDR_PREV_SLAB) = slab
  others : ∀ addr, addr ≠ slab + HDR_NEXT_SLAB →
    (state.heap.slabsHead classIdx ≠ 0 → addr ≠ state.heap.slabsHead classIdx + HDR_PREV_SLAB) →
    words addr = created addr

namespace Linked

variable {created words : Words} {otherIdx other : Nat}

theorem metas_apart (linked : Linked state classIdx slab created words)
    (intact : SlabsIntact state) (also : other ∈ state.slabs otherIdx) :
    (slabMeta otherIdx other).Apart (slabMeta classIdx slab) := by
  have part := (linked.apart _ _ also).within (meta_within (intact.inRange _ _ also))
  exact (part.symm.within (meta_within linked.inRange)).symm

theorem ne_of_mem (linked : Linked state classIdx slab created words) (intact : SlabsIntact state)
    (also : other ∈ state.slabs otherIdx) : other ≠ slab := by
  rintro rfl
  exact (linked.metas_apart intact also).notMem
    (@mem_meta _ _ (intact.inRange _ _ also) 0 (by decide)) (mem_meta linked.inRange (by decide))

/-- Of the older slabs only the back link of the old head is written to. -/
theorem old_words (linked : Linked state classIdx slab created words) (intact : SlabsIntact state)
    (also : other ∈ state.slabs otherIdx) {addr : Nat} (inMeta : addr ∈ slabMeta otherIdx other)
    (notPrev : other = state.heap.slabsHead classIdx → addr ≠ other + HDR_PREV_SLAB) :
    words addr = state.heap.words addr := by
  have apart := linked.metas_apart intact also
  rw [linked.others addr ?_ ?_]
  · exact linked.agree.of_apart apart inMeta
  · rintro rfl
    exact apart.notMem inMeta (mem_meta linked.inRange (by decide))
  · intro isHead isPrev
    by_cases same : other = state.heap.slabsHead classIdx
    · exact notPrev same (isPrev.trans (by rw [same]))
    · have apartHead := intact.apart _ _ also _ _ (intact.head_mem isHead) same
      have inHead := @mem_meta classIdx (state.heap.slabsHead classIdx) linked.inRange
        HDR_PREV_SLAB (by decide)
      rw [← isPrev] at inHead
      exact apartHead.notMem ((meta_within (intact.inRange _ _ also)).mem inMeta)
        ((meta_within linked.inRange).mem inHead)

/-- Of the new slab only the next link is. -/
theorem new_words (linked : Linked state classIdx slab created words) (intact : SlabsIntact state)
    {addr : Nat} (inMeta : addr ∈ slabMeta classIdx slab) (notNext : addr ≠ slab + HDR_NEXT_SLAB) :
    words addr = created addr := by
  refine linked.others addr notNext fun isHead isPrev => ?_
  have inHead := @mem_meta classIdx (state.heap.slabsHead classIdx) linked.inRange HDR_PREV_SLAB
    (by decide)
  rw [← isPrev] at inHead
  exact (linked.metas_apart intact (intact.head_mem isHead)).notMem inHead inMeta

theorem new_header (linked : Linked state classIdx slab created words) (intact : SlabsIntact state)
    {offset : Nat} (inside : offset < HDR_FIXED_BYTES) (notNext : offset ≠ HDR_NEXT_SLAB) :
    words (slab + offset) = created (slab + offset) :=
  linked.new_words intact (mem_meta linked.inRange inside) (by omega)

theorem old_header (linked : Linked state classIdx slab created words) (intact : SlabsIntact state)
    (also : other ∈ state.slabs otherIdx) {offset : Nat} (inside : offset < HDR_FIXED_BYTES)
    (notPrev : offset ≠ HDR_PREV_SLAB) :
    words (other + offset) = state.heap.words (other + offset) :=
  linked.old_words intact also (mem_meta (intact.inRange _ _ also) inside) fun _ => by omega

theorem old_bitmap (linked : Linked state classIdx slab created words) (intact : SlabsIntact state)
    (also : other ∈ state.slabs otherIdx) {widx : Nat} (inWords : widx < numWords otherIdx) :
    bitmapOf words other widx = bitmapOf state.heap.words other widx := by
  refine linked.old_words intact also (bitmap_mem_meta (intact.inRange _ _ also) inWords) fun _ => ?_
  dsimp only [HDR_BITMAP_START, HDR_PREV_SLAB]
  omega

theorem back_link (linked : Linked state classIdx slab created words) (intact : SlabsIntact state)
    (also : other ∈ state.slabs otherIdx) (notHead : other ≠ state.heap.slabsHead classIdx) :
    prevSlab words other = prevSlab state.heap.words other :=
  linked.old_words intact also (mem_meta (intact.inRange _ _ also) (by decide))
    fun same => absurd same notHead

/-- The next link of the new slab does not overlap the back link of the old head. -/
theorem next_link (linked : Linked state classIdx slab created words) (intact : SlabsIntact state)
    (positive : 0 < slab) (aligned : DEFAULT_SLAB_SIZE ∣ slab) :
    nextSlab words slab = state.heap.slabsHead classIdx := by
  refine linked.next fun overlap => ?_
  by_cases isHead : state.heap.slabsHead classIdx = 0
  · have large := Nat.le_of_dvd positive aligned
    dsimp only [DEFAULT_SLAB_SIZE] at large
    dsimp only [HDR_PREV_SLAB, HDR_NEXT_SLAB] at overlap
    omega
  · have inHead := @mem_meta classIdx (state.heap.slabsHead classIdx) linked.inRange HDR_PREV_SLAB
      (by decide)
    rw [overlap] at inHead
    exact (linked.metas_apart intact (intact.head_mem isHead)).notMem inHead
      (mem_meta linked.inRange (by decide))

theorem lists (linked : Linked state classIdx slab created words) (intact : SlabsIntact state)
    (positive : 0 < slab) (aligned : DEFAULT_SLAB_SIZE ∣ slab) (otherIdx : Nat) :
    Chain (nextSlab words) 0 (Function.update state.heap.slabsHead classIdx slab otherIdx)
      (Function.update state.slabs classIdx (slab :: state.slabs classIdx) otherIdx) := by
  have list := (intact.lists otherIdx).congr fun other also =>
    linked.old_header intact also (by decide : HDR_NEXT_SLAB < HDR_FIXED_BYTES) (by decide)
  by_cases same : otherIdx = classIdx
  · subst same
    rw [Function.update_self, Function.update_self]
    exact list.push positive.ne' (linked.next_link intact positive aligned)
  · rw [Function.update_of_ne same, Function.update_of_ne same]
    exact list

theorem backs (linked : Linked state classIdx slab created words) (intact : SlabsIntact state)
    (noPrev : created (slab + HDR_PREV_SLAB) = 0) (otherIdx : Nat) :
    Back (prevSlab words) 0
      (Function.update state.slabs classIdx (slab :: state.slabs classIdx) otherIdx) := by
  by_cases same : otherIdx = classIdx
  · subst same
    have list := intact.lists otherIdx
    rw [Function.update_self]
    refine (intact.backs otherIdx).push
      ((linked.new_header intact (by decide) (by decide)).trans noPrev) ?_ ?_
    · intro head isHead
      rw [list.head_eq head isHead]
      apply linked.prev
      rw [← list.head_eq head isHead]
      exact list.ne_nil (List.mem_of_mem_head? isHead)
    · intro later inTail
      exact linked.back_link intact (List.mem_of_mem_tail inTail) (list.ne_head_of_mem_tail inTail)
  · rw [Function.update_of_ne same]
    refine (intact.backs otherIdx).congr fun other also => linked.back_link intact also fun isHead => ?_
    rcases Decidable.em (state.heap.slabsHead classIdx = 0) with isEmpty | nonempty
    · exact (intact.kept _ _ also).positive.ne' (isHead.trans isEmpty)
    · rw [isHead] at also
      exact same (intact.class_unique also (intact.head_mem nonempty))

/-- The slabs are kept, and the new one is, too. -/
theorem slabs_kept {mapped : Nat → Bool} {slabsHead currentSlab : Nat → Nat}
    (linked : Linked state classIdx slab created words) (intact : SlabsIntact state)
    (newKept : SlabKept { state.heap with words := created, mapped := mapped } classIdx slab)
    (stillMapped : ∀ addr, state.heap.mapped addr = true → mapped addr = true)
    (also : other ∈ Function.update state.slabs classIdx (slab :: state.slabs classIdx) otherIdx) :
    SlabKept ⟨words, mapped, slabsHead, currentSlab⟩ otherIdx other := by
  rcases mem_added.mp also with ⟨rfl, rfl⟩ | earlier
  · refine newKept.congr (linked.new_header intact (by decide) (by decide))
      (linked.new_header intact (by decide) (by decide)) ?_ newKept.mapped
    intro widx inWords
    apply linked.new_words intact (bitmap_mem_meta linked.inRange inWords)
    dsimp only [HDR_BITMAP_START, HDR_NEXT_SLAB]
    omega
  · have kept := intact.kept _ _ earlier
    exact kept.congr (linked.old_header intact earlier (by decide) (by decide))
      (linked.old_header intact earlier (by decide) (by decide))
      (fun widx inWords => linked.old_bitmap intact earlier inWords)
      fun addr inside => stillMapped addr (kept.mapped addr inside)

end Linked

/-- A new slab at the head of its class's list keeps the invariant. -/
theorem SlabsIntact.adds (intact : SlabsIntact state) (inRange : classIdx ≤ NUM_CLASSES - 1)
    (fresh : Fresh state.heap ⟨raw, raw + 2 * slabSizeForClass classIdx⟩) :
    ∃ slab created, state.heap.createNewSlab classIdx raw = (slab, created) ∧
      (created.linkSlab classIdx slab).slabsHead =
        Function.update state.heap.slabsHead classIdx slab ∧
      slab ≠ state.heap.slabsHead classIdx ∧
      (created.linkSlab classIdx slab).load (slab + HDR_FREE_COUNT) ≠ 0 ∧
      SlabsIntact ⟨created.linkSlab classIdx slab, state.live,
        Function.update state.slabs classIdx (slab :: state.slabs classIdx)⟩ := by
  rcases createNewSlab_spec inRange fresh with
    ⟨slab, created, mapped, isCreated, newKept, within, noPrev, isCount, agree, stillMapped⟩
  rcases linkSlab_spec { state.heap with words := created, mapped := mapped } classIdx slab with
    ⟨words, isLinked, next, prev, others⟩
  dsimp only at isLinked next prev others
  have linked : Linked state classIdx slab created words :=
    ⟨inRange, fun _ _ also => intact.apart_new inRange fresh within also, agree, next, prev, others⟩
  refine ⟨slab, _, isCreated, ?_⟩
  rw [isLinked]
  refine ⟨rfl, ?_, ?_, ?_⟩
  · intro same
    exact linked.ne_of_mem intact (intact.head_mem (same ▸ newKept.positive.ne')) same.symm
  · have some := (geometry classIdx inRange).1
    change words (slab + HDR_FREE_COUNT) ≠ 0
    rw [linked.new_header intact (by decide) (by decide), isCount]
    omega
  refine {
    inRange := ?_
    lists := linked.lists intact newKept.positive newKept.aligned
    backs := linked.backs intact noPrev
    current := ?_
    kept := fun _ _ also => linked.slabs_kept intact newKept stillMapped also
    apart := ?_
    live := ?_
    once := intact.once }
  · intro otherIdx other also
    rcases mem_added.mp also with ⟨rfl, -⟩ | earlier
    · exact inRange
    · exact intact.inRange _ _ earlier
  · intro otherIdx
    dsimp only
    by_cases same : otherIdx = classIdx
    · rw [same, Function.update_self, Function.update_self]
      exact .inr List.mem_cons_self
    · rw [Function.update_of_ne same, Function.update_of_ne same]
      exact intact.current otherIdx
  · intro oneIdx one member otherIdx other also distinct
    rcases mem_added.mp member with ⟨rfl, rfl⟩ | earlier
    · rcases mem_added.mp also with ⟨-, rfl⟩ | otherEarlier
      · exact absurd rfl distinct
      · exact (linked.apart _ _ otherEarlier).symm
    · rcases mem_added.mp also with ⟨rfl, rfl⟩ | otherEarlier
      · exact linked.apart _ _ earlier
      · exact intact.apart _ _ earlier _ _ otherEarlier distinct
  · intro chunk isLive
    have kept := intact.live _ isLive
    refine ⟨mem_added.mpr (.inr kept.isSlab), kept.inSlab, ?_, kept.sized⟩
    dsimp only
    rw [@freeBits_congr _ _ state.heap.words]
    · exact kept.notFree
    · exact fun widx inWords => linked.old_bitmap intact kept.isSlab inWords

end LakeNative.Allocators

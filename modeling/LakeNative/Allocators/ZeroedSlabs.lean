import LakeNative.Allocators.BucketSafety
import LakeNative.Allocators.SlabSafety
import LakeNative.Runtime.ZeroedAllocate

/-! # Zeroed memory from the slabs

A slab is cut from new pages, but a chunk that was freed is handed out as it was left. So a
payload reads as zero when no payload of its class was freed with something in it.
-/

namespace LakeNative.Allocators

open LakeNative.Runtime LakeNative.Runtime.SlabLayout LakeNative.Regions LakeNative.LinkedList
open LakeNative.Transitions

variable {state : SlabState} {heap later : SlabHeap} {classIdx slab raw size : Nat} {taken : Taken}

namespace SlabChunk

/-- What a chunk has behind its fat pointer. -/
def room (chunk : SlabChunk) : Region := ⟨chunk.addr + 16, chunk.addr + classSize chunk.classIdx⟩

def payload (chunk : SlabChunk) : Region := ⟨chunk.addr + 16, iadd (chunk.addr + 16) chunk.size⟩

end SlabChunk

/-- The slabs and the mappings that are too large for them. -/
structure SlabCallState where
  slabs : SlabState
  huge : List Allocation

inductive SlabCallEvent where
  | allocate (size fatPtr : Nat) (words : Words)
  | free (chunk : SlabChunk)
  | unmap (allocation : Allocation)
  | write

/-- Calls of `rt_allocate`, with the fat pointer and the memory they leave, calls of `rt_free`
for fat pointers that are as they were returned, and writes to payloads. What the kernel maps
is mapped nowhere else. -/
inductive SlabCall : SlabCallState → SlabCallEvent → SlabCallState → Prop
  | allocate {state : SlabCallState} {heap : SlabHeap} (size fuel raw : Nat) (taken : Taken) :
      size < 2 ^ 64 →
      slabClassIdx size ≤ NUM_CLASSES - 1 →
      Fresh state.slabs.heap ⟨raw, raw + SlabHeap.mmapLength size⟩ →
      (∀ other ∈ state.huge, other.mapping.Apart ⟨raw, raw + SlabHeap.mmapLength size⟩) →
      state.slabs.heap.allocate fuel size raw = some (.chunk taken, heap) →
      SlabCall state (.allocate size taken.chunkAddr heap.words)
        ⟨state.slabs.record ⟨taken.slab, slabClassIdx size, taken.chunkIdx, size⟩ heap, state.huge⟩
  | map {state : SlabCallState} {heap : SlabHeap} (size fuel raw addr : Nat) :
      size < 2 ^ 64 →
      NUM_CLASSES - 1 < slabClassIdx size →
      0 < mmapSize size →
      Fresh state.slabs.heap ⟨raw, raw + SlabHeap.mmapLength size⟩ →
      (∀ other ∈ state.huge, other.mapping.Apart ⟨raw, raw + SlabHeap.mmapLength size⟩) →
      state.slabs.heap.allocate fuel size raw = some (.mapped addr, heap) →
      SlabCall state (.allocate size addr heap.words)
        ⟨{ state.slabs with heap := heap }, ⟨addr, size⟩ :: state.huge⟩
  | free {state : SlabCallState} {next : SlabState} (chunk : SlabChunk) (returned : Returned) :
      SlabStep state.slabs (.free chunk returned) next →
      SlabCall state (.free chunk) { state with slabs := next }
  | unmap {state : SlabCallState} {heap : SlabHeap} (allocation : Allocation) (returned : Returned) :
      allocation ∈ state.huge →
      payloadOf state.slabs.heap.words allocation.fatPtr =
        ⟨allocation.fatPtr + 32, allocation.fatPtr + mmapSize allocation.size⟩ →
      state.slabs.heap.free allocation.fatPtr = (returned, heap) →
      SlabCall state (.unmap allocation)
        ⟨{ state.slabs with heap := heap }, state.huge.erase allocation⟩
  | write {state : SlabCallState} (words : Words) :
      (∀ addr, (∀ chunk ∈ state.slabs.live, addr ∉ chunk.payload) →
        (∀ other ∈ state.huge, addr ∉ other.mapping) → words addr = state.slabs.heap.words addr) →
      SlabCall state .write
        { state with slabs := { state.slabs with heap := { state.slabs.heap with words := words } } }

/-- All of the payload reads as zero. -/
def SlabZeroed (_ : List (Stage SlabCallState SlabCallEvent)) (_ : SlabCallState) :
    SlabCallEvent → Prop
  | .allocate _ fatPtr words => ReadsZero words (payloadOf words fatPtr)
  | _ => True

/-- A chunk of the class is freed with something in its payload. -/
def FreesUsed (classIdx : Nat) (stage : Stage SlabCallState SlabCallEvent) : Prop :=
  match stage.label with
  | .free chunk =>
      chunk.classIdx = classIdx ∧ ¬ ReadsZero stage.state.slabs.heap.words chunk.payload
  | _ => False

/-- No payload of the class that is asked for was freed with something in it, and what is
unmapped was not requested with a size that `huge_block` takes for a small one. -/
def SlabCallOk (past : List (Stage SlabCallState SlabCallEvent)) (_ : SlabCallState) :
    SlabCallEvent → Prop
  | .allocate size _ _ => ∀ stage ∈ past, ¬ FreesUsed (slabClassIdx size) stage
  | .unmap allocation => allocation.size < 2 ^ 64 - 31
  | _ => True

/-! ## What an allocation writes to -/

/-- A chunk is taken from a slab of the class or from one that is cut from the mapping, and the
only words that change are in the headers and bitmaps of these slabs. -/
structure Took (words : Words) (slabs : List Nat) (classIdx raw : Nat) (taken : Taken)
    (later : SlabHeap) : Prop where
  isFrom : taken.slab ∈ slabs ∨
    (slabRegion classIdx taken.slab).Within ⟨raw, raw + 2 * slabSizeForClass classIdx⟩
  agree : ∀ addr, (∀ slab ∈ slabs, addr ∉ slabMeta classIdx slab) →
    addr ∉ slabMeta classIdx taken.slab → later.words addr = words addr

theorem tryAlloc_agree (inRange : classIdx ≤ NUM_CLASSES - 1)
    (fits : slab + slabSizeForClass classIdx ≤ 2 ^ 47)
    (takes : heap.tryAllocFromSlab classIdx slab = some (taken, later)) :
    taken.slab = slab ∧ AgreeOutside (slabMeta classIdx slab) heap.words later.words := by
  rw [SlabHeap.tryAllocFromSlab] at takes
  split at takes
  · rcases Option.map_eq_some_iff.mp takes with ⟨widx, scanned, isTaken⟩
    have inWords := List.mem_range.mp (List.mem_of_find?_eq_some scanned)
    rcases geometry classIdx inRange with ⟨-, -, bitmapRoom, chunkRoom, -⟩
    have waddr : bitmapWord slab widx = slab + HDR_BITMAP_START + 8 * widx := by
      apply bitmapWord_eq
      dsimp only [HDR_BITMAP_START] at bitmapRoom ⊢
      omega
    cases isTaken
    refine ⟨rfl, ?_⟩
    change AgreeOutside _ heap.words (Function.update (Function.update heap.words
      (bitmapWord slab widx) _) (slab + HDR_FREE_COUNT) _)
    rw [waddr]
    exact (AgreeOutside.update (bitmap_mem_meta inRange inWords) _).trans
      (AgreeOutside.update (mem_meta inRange (by decide)) _)
  · cases takes

namespace SlabsIntact

theorem took_from (intact : SlabsIntact state) (member : slab ∈ state.slabs classIdx)
    (takes : state.heap.tryAllocFromSlab classIdx slab = some (taken, later)) :
    Took state.heap.words (state.slabs classIdx) classIdx raw taken later := by
  rcases tryAlloc_agree (intact.inRange _ _ member) (intact.slab_fits member) takes with
    ⟨rfl, agree⟩
  exact ⟨.inl member, fun addr _ outside => agree addr outside⟩

theorem took_new (intact : SlabsIntact state) (inRange : classIdx ≤ NUM_CLASSES - 1)
    (fresh : Fresh state.heap ⟨raw, raw + 2 * slabSizeForClass classIdx⟩)
    (takes : state.heap.allocFromNewSlab classIdx raw = some (taken, later)) :
    Took state.heap.words (state.slabs classIdx) classIdx raw taken later := by
  rcases createNewSlab_spec inRange fresh with
    ⟨slab, created, mapped, isCreated, newKept, within, -, -, agree, -⟩
  rcases linkSlab_spec { state.heap with words := created, mapped := mapped } classIdx slab with
    ⟨words, isLinked, -, -, others⟩
  dsimp only at isLinked others
  rw [SlabHeap.allocFromNewSlab, isCreated] at takes
  dsimp only at takes
  rw [isLinked] at takes
  rcases tryAlloc_agree inRange newKept.fits takes with ⟨rfl, agreeTaken⟩
  refine ⟨.inr within, fun addr notOld notNew => ?_⟩
  rw [agreeTaken addr notNew]
  dsimp only
  rw [others addr, agree addr notNew]
  · rintro rfl
    exact notNew (mem_meta inRange (by decide))
  · -- The old head of the list is one of its slabs.
    intro nonempty
    rcases (intact.lists classIdx).exists_cons nonempty with ⟨rest, isList, -⟩
    have member : state.heap.slabsHead classIdx ∈ state.slabs classIdx :=
      isList ▸ List.mem_cons_self
    rintro rfl
    exact notOld _ member (mem_meta inRange (by decide))

theorem took_list (intact : SlabsIntact state) (inRange : classIdx ≤ NUM_CLASSES - 1)
    (fresh : Fresh state.heap ⟨raw, raw + 2 * slabSizeForClass classIdx⟩) {fuel : Nat}
    (takes : state.heap.allocFromList fuel classIdx raw = some (taken, later)) :
    Took state.heap.words (state.slabs classIdx) classIdx raw taken later := by
  rw [SlabHeap.allocFromList] at takes
  cases walks : state.heap.walk fuel (state.heap.slabsHead classIdx) with
  | none =>
      rw [walks] at takes
      cases takes
  | some found =>
      rw [walks] at takes
      cases found with
      | zero => exact intact.took_new inRange fresh takes
      | succ before =>
          have member := (walk_spec (intact.lists classIdx) walks (Nat.succ_ne_zero _)).1
          have current := intact.set_current member
          rcases Option.or_eq_some_iff.mp takes with fromSlab | ⟨-, fromNew⟩
          · exact current.took_from member fromSlab
          · exact current.took_new inRange ⟨fresh.positive, fresh.aligned, fresh.fits, fresh.unmapped⟩
              fromNew

theorem took_slab (intact : SlabsIntact state) (inRange : classIdx ≤ NUM_CLASSES - 1)
    (fresh : Fresh state.heap ⟨raw, raw + 2 * slabSizeForClass classIdx⟩) {fuel : Nat}
    (takes : state.heap.allocateSlab fuel classIdx raw = some (taken, later)) :
    Took state.heap.words (state.slabs classIdx) classIdx raw taken later := by
  rw [SlabHeap.allocateSlab, if_pos (geometry classIdx inRange).1.ne'] at takes
  rcases intact.current classIdx with isEmpty | isSlab
  · rw [if_neg (not_not_intro isEmpty)] at takes
    exact intact.took_list inRange fresh takes
  · rw [if_pos (intact.kept _ _ isSlab).positive.ne'] at takes
    rcases Option.or_eq_some_iff.mp takes with fromSlab | ⟨-, fromList⟩
    · exact intact.took_from isSlab fromSlab
    · exact intact.took_list inRange fresh fromList

end SlabsIntact

/-! ## Chunks and their rooms -/

/-- A chunk of one of the slabs, live or not. -/
def Placed (state : SlabState) (chunk : SlabChunk) : Prop :=
  chunk.slab ∈ state.slabs chunk.classIdx ∧ chunk.chunkIdx < chunksPerSlab chunk.classIdx

theorem ChunkKept.placed {chunk : SlabChunk} (kept : ChunkKept state chunk) : Placed state chunk :=
  ⟨kept.isSlab, kept.inSlab⟩

def SameChunk (chunk other : SlabChunk) : Prop :=
  chunk.slab = other.slab ∧ chunk.chunkIdx = other.chunkIdx

def Idle (state : SlabState) (chunk : SlabChunk) : Prop :=
  Placed state chunk ∧ ∀ other ∈ state.live, ¬ SameChunk other chunk

theorem SlabChunk.room_mem {chunk : SlabChunk} {addr : Nat} (inRoom : addr ∈ chunk.room) :
    addr ∈ chunk.region ∧ chunk.addr + 16 ≤ addr :=
  ⟨⟨Nat.le_trans (Nat.le_add_right _ _) inRoom.1, inRoom.2⟩, inRoom.1⟩

namespace SlabsIntact

theorem placed_apart (intact : SlabsIntact state) {chunk other : SlabChunk}
    (placed : Placed state chunk) (otherPlaced : Placed state other)
    (different : ¬ SameChunk chunk other) : chunk.region.Apart other.region :=
  intact.regions_apart placed.1 placed.2 otherPlaced.1 otherPlaced.2 fun sameSlab sameIdx =>
    different ⟨sameSlab, sameIdx⟩

theorem placed_within (intact : SlabsIntact state) {chunk : SlabChunk}
    (placed : Placed state chunk) :
    chunk.region.Within (slabRegion chunk.classIdx chunk.slab) :=
  SlabChunk.region_within_slab (intact.inRange _ _ placed.1) placed.2

/-- A payload ends in the chunk, even if its size wraps around. -/
theorem payload_stop (intact : SlabsIntact state) {chunk : SlabChunk}
    (placed : Placed state chunk) (sized : slabClassIdx chunk.size = chunk.classIdx) :
    chunk.payload.stop = chunk.addr + iadd chunk.size 16 ∧
      iadd chunk.size 16 ≤ classSize chunk.classIdx := by
  have within := (intact.placed_within placed).2
  have fits := intact.slab_fits placed.1
  have isWord : iadd chunk.size 16 < 2 ^ 64 := Nat.mod_lt _ (by decide)
  have room := le_classSize isWord
  change iadd chunk.size 16 ≤ classSize (slabClassIdx chunk.size) at room
  rw [sized] at room
  dsimp only [SlabChunk.region, slabRegion] at within
  refine ⟨?_, room⟩
  change iadd (chunk.addr + 16) chunk.size = _
  have shifted : iadd (chunk.addr + 16) chunk.size = (chunk.addr + iadd chunk.size 16) % 2 ^ 64 := by
    unfold iadd
    omega
  rw [shifted, Nat.mod_eq_of_lt (by omega)]

theorem payload_mem (intact : SlabsIntact state) {chunk : SlabChunk}
    (kept : ChunkKept state chunk) {addr : Nat} (inPayload : addr ∈ chunk.payload) :
    addr ∈ chunk.region := by
  rcases intact.payload_stop kept.placed kept.sized with ⟨stops, room⟩
  have below := inPayload.2
  rw [stops] at below
  have above : chunk.addr + 16 ≤ addr := inPayload.1
  exact ⟨by dsimp only [SlabChunk.region]; omega, by dsimp only [SlabChunk.region]; omega⟩

end SlabsIntact

/-- No chunk of the class has anything behind its fat pointer that is not in a live payload. -/
structure SlabsClean (state : SlabState) (classIdx : Nat) : Prop where
  idle : ∀ chunk, chunk.classIdx = classIdx → Idle state chunk →
    ReadsZero state.heap.words chunk.room
  slack : ∀ chunk ∈ state.live, chunk.classIdx = classIdx → ∀ index,
    chunk.payload.stop ≤ chunk.room.first + 8 * index →
    chunk.room.first + 8 * index < chunk.room.stop →
    state.heap.words (chunk.room.first + 8 * index) = 0

/-! ## An allocation -/

section Allocate

variable {fuel : Nat}

/-- What was mapped is not in the new pages. -/
theorem newPages_word {length addr : Nat} (fresh : Fresh heap ⟨raw, raw + length⟩)
    (isMapped : heap.mapped addr = true) : (heap.newPages raw length).words addr = heap.words addr := by
  apply if_neg
  intro inPages
  have wasUnmapped := fresh.unmapped addr inPages
  rw [isMapped] at wasUnmapped
  cases wasUnmapped

theorem SlabsIntact.new_pages (intact : SlabsIntact state) {length : Nat}
    (fresh : Fresh state.heap ⟨raw, raw + length⟩) :
    SlabsIntact { state with heap := state.heap.newPages raw length } := by
  refine intact.frame (fun classIdx slab member addr inMeta => ?_) intact.mapped rfl intact.current
  have inRegion := (meta_within (intact.inRange _ _ member)).mem inMeta
  exact newPages_word fresh (intact.mapped _ _ member addr inRegion)

theorem mem_recorded {chunk : SlabChunk} {otherIdx other : Nat}
    (member : other ∈ (state.record chunk heap).slabs otherIdx) :
    other ∈ state.slabs otherIdx ∨ otherIdx = chunk.classIdx ∧ other = chunk.slab := by
  simp only [SlabState.record] at member
  split at member
  · exact .inl member
  · exact (mem_added.mp member).symm

theorem took_raw (intact : SlabsIntact state) (inRange : slabClassIdx size ≤ NUM_CLASSES - 1)
    (fresh : Fresh state.heap ⟨raw, raw + 2 * slabSizeForClass (slabClassIdx size)⟩)
    (allocates : state.heap.allocateRaw fuel size raw = some (.chunk taken, heap)) :
    ∃ before, Took state.heap.words (state.slabs (slabClassIdx size)) (slabClassIdx size) raw taken
      before ∧ heap = before.writeHdr taken.chunkAddr size := by
  rw [SlabHeap.allocateRaw, if_pos inRange] at allocates
  rcases Option.map_eq_some_iff.mp allocates with ⟨⟨other, before⟩, takes, isResult⟩
  cases isResult
  exact ⟨before, intact.took_slab inRange fresh takes, rfl⟩

/-- The chunk lies in a slab there was or in the new pages, and its fat pointer is the only
thing that is written to the rooms of chunks. -/
theorem allocate_spec (intact : SlabsIntact state) (inRange : slabClassIdx size ≤ NUM_CLASSES - 1)
    (fresh : Fresh state.heap ⟨raw, raw + SlabHeap.mmapLength size⟩) {chunk : SlabChunk}
    (isChunk : chunk = ⟨taken.slab, slabClassIdx size, taken.chunkIdx, size⟩)
    (allocates : state.heap.allocate fuel size raw = some (.chunk taken, heap)) :
    taken.chunkAddr = chunk.addr ∧ SlabsIntact (state.record chunk heap) ∧
      payloadOf heap.words chunk.addr = chunk.payload ∧
      (chunk.slab ∈ state.slabs chunk.classIdx ∨ (slabRegion chunk.classIdx chunk.slab).Within
        ⟨raw, raw + SlabHeap.mmapLength size⟩) ∧
      ∀ other, Placed (state.record chunk heap) other → ∀ addr ∈ other.room,
        heap.words addr = (state.heap.newPages raw (SlabHeap.mmapLength size)).words addr := by
  have paged := intact.new_pages fresh
  have isLength : SlabHeap.mmapLength size = 2 * slabSizeForClass (slabClassIdx size) :=
    if_pos inRange
  have stillFresh : Fresh (state.heap.newPages raw (SlabHeap.mmapLength size))
      ⟨raw, raw + 2 * slabSizeForClass (slabClassIdx size)⟩ :=
    isLength ▸ ⟨fresh.positive, fresh.aligned, fresh.fits, fresh.unmapped⟩
  rcases paged.allocates inRange stillFresh allocates with ⟨isAddr, after⟩
  rcases took_raw paged inRange stillFresh allocates with ⟨before, took, isHeap⟩
  change SlabsIntact (state.record ⟨taken.slab, slabClassIdx size, taken.chunkIdx, size⟩ heap)
    at after
  rw [← isChunk] at after isAddr
  have slabIs : taken.slab = chunk.slab := by rw [isChunk]
  have classIs : slabClassIdx size = chunk.classIdx := by rw [isChunk]
  have sizeIs : size = chunk.size := by rw [isChunk]
  have kept := after.live chunk List.mem_cons_self
  have fits := after.slab_fits kept.isSlab
  have within := (after.placed_within kept.placed).2
  dsimp only [SlabChunk.region, slabRegion] at within
  have positive := classSize_pos chunk.classIdx
  have start : iadd chunk.addr 16 = chunk.addr + 16 := iadd_eq (by omega)
  have isWords : heap.words = Function.update (Function.update before.words chunk.addr
      (chunk.addr + 16)) (chunk.addr + 8) (iadd (chunk.addr + 16) size) := by
    rw [isHeap, isAddr, ← start]
    rfl
  refine ⟨isAddr, after, ?_, ?_, ?_⟩
  · rw [payloadOf, isWords, Function.update_self, Function.update_of_ne (by omega),
      Function.update_self, sizeIs]
    rfl
  · rw [← slabIs, ← classIs, isLength]
    exact took.isFrom
  · intro other placed addr inRoom
    rcases SlabChunk.room_mem inRoom with ⟨inRegion, behind⟩
    -- The fat pointer is before the room of its own chunk and in none of another chunk.
    have notHeader : ∀ offset < 16, addr ≠ chunk.addr + offset := by
      rintro offset inHeader rfl
      by_cases same : SameChunk chunk other
      · have sameClass : chunk.classIdx = other.classIdx :=
          after.class_unique kept.isSlab (same.1 ▸ placed.1)
        have sameAddr : chunk.addr = other.addr := by
          rw [SlabChunk.addr, SlabChunk.addr, same.1, same.2, sameClass]
        omega
      · have apart := after.placed_apart kept.placed placed same
        have room : 16 ≤ classSize chunk.classIdx := classSize_mono (Nat.zero_le _)
        refine apart.notMem ⟨Nat.le_add_right _ _, ?_⟩ inRegion
        dsimp only [SlabChunk.region]
        omega
    have notFirst : addr ≠ chunk.addr := notHeader 0 (by decide)
    rw [isWords, Function.update_of_ne (notHeader 8 (by decide)), Function.update_of_ne notFirst]
    apply took.agree
    · intro slab member inMeta
      have stillSlab : slab ∈ (state.record chunk heap).slabs (slabClassIdx size) := by
        simp only [SlabState.record]
        split
        · exact member
        · exact mem_added.mpr (.inr member)
      exact (after.meta_apart stillSlab placed.1 placed.2).notMem inMeta inRegion
    · rw [slabIs, classIs]
      exact fun inMeta => (after.meta_apart kept.isSlab placed.1 placed.2).notMem inMeta inRegion

/-- The chunk that is handed out of a clean class has nothing behind its fat pointer. -/
theorem allocate_clean (intact : SlabsIntact state)
    (inRange : slabClassIdx size ≤ NUM_CLASSES - 1)
    (fresh : Fresh state.heap ⟨raw, raw + SlabHeap.mmapLength size⟩) {chunk : SlabChunk}
    (isChunk : chunk = ⟨taken.slab, slabClassIdx size, taken.chunkIdx, size⟩)
    (allocates : state.heap.allocate fuel size raw = some (.chunk taken, heap))
    (clean : SlabsClean state classIdx) :
    SlabsClean (state.record chunk heap) classIdx ∧
      (chunk.classIdx = classIdx → ReadsZero heap.words chunk.payload) := by
  rcases allocate_spec intact inRange fresh isChunk allocates with ⟨-, after, -, isFrom, sameWord⟩
  have kept := after.live chunk List.mem_cons_self
  have isNew : ∀ other ∈ state.live, ¬ SameChunk other chunk := by
    intro other isLive same
    have isOther := after.once.2 other (List.mem_cons_of_mem _ isLive) chunk List.mem_cons_self
      same.1 same.2
    exact (List.nodup_cons.mp after.once.1).1 (isOther ▸ isLive)
  have zeroed : ∀ other, Placed (state.record chunk heap) other → other.classIdx = classIdx →
      (∀ earlier ∈ state.live, ¬ SameChunk earlier other) → ReadsZero heap.words other.room := by
    intro other placed sameClass notLive index inRoom
    have isMember : other.room.first + 8 * index ∈ other.room := ⟨Nat.le_add_right _ _, inRoom⟩
    have inRegion := (SlabChunk.room_mem isMember).1
    have inSlab := (after.placed_within placed).mem inRegion
    rw [sameWord other placed _ isMember]
    by_cases isOld : other.slab ∈ state.slabs other.classIdx
    · rw [newPages_word fresh (intact.mapped _ _ isOld _ inSlab)]
      exact clean.idle other sameClass ⟨⟨isOld, placed.2⟩, notLive⟩ index inRoom
    · rcases (mem_recorded placed.1).resolve_left isOld with ⟨ownClass, ownSlab⟩
      rw [ownClass, ownSlab] at isOld inSlab
      exact if_pos ((isFrom.resolve_left isOld).mem inSlab)
  refine ⟨⟨?_, ?_⟩, ?_⟩
  · intro other sameClass isIdle
    exact zeroed other isIdle.1 sameClass fun earlier isLive =>
      isIdle.2 earlier (List.mem_cons_of_mem _ isLive)
  · intro other isLive sameClass index behind inRoom
    rcases List.mem_cons.mp isLive with rfl | earlier
    · exact zeroed other kept.placed sameClass isNew index inRoom
    · have otherKept := after.live other isLive
      have isMember : other.room.first + 8 * index ∈ other.room :=
        ⟨Nat.le_add_right _ _, inRoom⟩
      have isOld := (intact.live other earlier).isSlab
      have inSlab := (after.placed_within otherKept.placed).mem (SlabChunk.room_mem isMember).1
      dsimp only [SlabState.record]
      rw [sameWord other otherKept.placed _ isMember,
        newPages_word fresh (intact.mapped _ _ isOld _ inSlab)]
      exact clean.slack other earlier sameClass index behind inRoom
  · intro sameClass index inPayload
    rcases after.payload_stop kept.placed kept.sized with ⟨stops, room⟩
    apply zeroed chunk kept.placed sameClass isNew index
    rw [stops] at inPayload
    dsimp only [SlabChunk.room, SlabChunk.payload] at inPayload ⊢
    omega

end Allocate

/-! ## The other steps -/

/-- A chunk that is freed empty is as clean as one that was never handed out. -/
theorem free_clean (intact : SlabsIntact state) {chunk : SlabChunk} {returned : Returned}
    {next : SlabState} (step : SlabStep state (.free chunk returned) next)
    (clean : SlabsClean state classIdx)
    (isEmpty : chunk.classIdx = classIdx → ReadsZero state.heap.words chunk.payload) :
    SlabsClean next classIdx := by
  have freed : chunk ∈ state.live ∧ next = { state with
      heap := (state.heap.freeSlab chunk.addr).2, live := state.live.erase chunk } := by
    cases step with
    | freeSlab chunk returned member frees => exact ⟨member, by rw [frees]⟩
    | free chunk returned member start stop frees =>
        rw [intact.free_eq (intact.live _ member) start stop] at frees
        exact ⟨member, by rw [frees]⟩
  rcases freed with ⟨member, rfl⟩
  have kept := intact.live chunk member
  have frees := intact.freeSlab_eq kept
  have sameWord : ∀ other, Placed state other → ∀ addr ∈ other.room,
      (state.heap.freeSlab chunk.addr).2.words addr = state.heap.words addr := by
    intro other placed addr inRoom
    rw [frees]
    refine recounted_agree _ (intact.inRange _ _ kept.isSlab)
      (chunk_word (intact.inRange _ _ kept.isSlab) kept.inSlab) addr fun inMeta => ?_
    have apart := intact.meta_apart kept.isSlab placed.1 placed.2
    exact apart.notMem inMeta (SlabChunk.room_mem inRoom).1
  constructor
  · intro other sameClass isIdle index inRoom
    dsimp only
    rw [sameWord other isIdle.1 _ ⟨Nat.le_add_right _ _, inRoom⟩]
    by_cases same : SameChunk chunk other
    · have sameKind : chunk.classIdx = other.classIdx :=
        intact.class_unique kept.isSlab (same.1 ▸ isIdle.1.1)
      have sameRoom : other.room = chunk.room := by
        rw [SlabChunk.room, SlabChunk.room, SlabChunk.addr, SlabChunk.addr, same.1, same.2, sameKind]
      rw [sameRoom] at inRoom ⊢
      by_cases inPayload : chunk.payload.first + 8 * index < chunk.payload.stop
      · exact isEmpty (sameKind.trans sameClass) index inPayload
      · exact clean.slack chunk member (sameKind.trans sameClass) index (Nat.not_lt.mp inPayload) inRoom
    · refine clean.idle other sameClass ⟨isIdle.1, fun earlier isLive isSame => ?_⟩ index inRoom
      by_cases isFreed : earlier = chunk
      · exact same (isFreed ▸ isSame)
      · exact isIdle.2 earlier ((List.mem_erase_of_ne isFreed).mpr isLive) isSame
  · intro other isLive sameClass index behind inRoom
    have wasLive := List.mem_of_mem_erase isLive
    dsimp only
    rw [sameWord other (intact.live other wasLive).placed _ ⟨Nat.le_add_right _ _, inRoom⟩]
    exact clean.slack other wasLive sameClass index behind inRoom

/-- What changes no room changes no class. -/
theorem SlabsClean.frame (clean : SlabsClean state classIdx) (intact : SlabsIntact state)
    (same : ∀ classIdx, ∀ slab ∈ state.slabs classIdx, ∀ addr ∈ slabRegion classIdx slab,
      later.words addr = state.heap.words addr) :
    SlabsClean { state with heap := later } classIdx := by
  have sameWord : ∀ chunk, Placed state chunk → ∀ addr ∈ chunk.room,
      later.words addr = state.heap.words addr := fun chunk placed addr inRoom =>
    same _ _ placed.1 addr ((intact.placed_within placed).mem (SlabChunk.room_mem inRoom).1)
  constructor
  · intro chunk sameClass isIdle index inRoom
    dsimp only
    rw [sameWord chunk isIdle.1 _ ⟨Nat.le_add_right _ _, inRoom⟩]
    exact clean.idle chunk sameClass isIdle index inRoom
  · intro chunk isLive sameClass index behind inRoom
    dsimp only
    rw [sameWord chunk (intact.live chunk isLive).placed _ ⟨Nat.le_add_right _ _, inRoom⟩]
    exact clean.slack chunk isLive sameClass index behind inRoom

/-- A write to payloads leaves the rest of the rooms as it is. -/
theorem SlabsClean.write (clean : SlabsClean state classIdx) (intact : SlabsIntact state)
    {words : Words}
    (keeps : ∀ otherIdx, ∀ slab ∈ state.slabs otherIdx, ∀ addr ∈ slabRegion otherIdx slab,
      (∀ chunk ∈ state.live, addr ∉ chunk.payload) → words addr = state.heap.words addr) :
    SlabsClean { state with heap := { state.heap with words := words } } classIdx := by
  have sameWord : ∀ chunk, Placed state chunk → ∀ addr ∈ chunk.room,
      (∀ other ∈ state.live, SameChunk other chunk → addr ∉ other.payload) →
        words addr = state.heap.words addr := by
    intro chunk placed addr inRoom notOwn
    have inRegion := (SlabChunk.room_mem inRoom).1
    apply keeps _ _ placed.1 addr ((intact.placed_within placed).mem inRegion)
    intro other isLive inPayload
    by_cases same : SameChunk other chunk
    · exact notOwn other isLive same inPayload
    · have otherKept := intact.live other isLive
      have apart := intact.placed_apart otherKept.placed placed same
      exact apart.notMem (intact.payload_mem otherKept inPayload) inRegion
  constructor
  · intro chunk sameClass isIdle index inRoom
    dsimp only
    rw [sameWord chunk isIdle.1 _ ⟨Nat.le_add_right _ _, inRoom⟩
      fun other isLive same => absurd same (isIdle.2 other isLive)]
    exact clean.idle chunk sameClass isIdle index inRoom
  · intro chunk isLive sameClass index behind inRoom
    dsimp only
    rw [sameWord chunk (intact.live chunk isLive).placed _ ⟨Nat.le_add_right _ _, inRoom⟩]
    · exact clean.slack chunk isLive sameClass index behind inRoom
    · intro other otherLive same inPayload
      rw [intact.once.2 other otherLive chunk isLive same.1 same.2] at inPayload
      exact absurd inPayload.2 (Nat.not_lt.mpr behind)

/-! ## Runs -/

/-- What holds of the slabs and of the mappings beside them. -/
structure CallsKept (past : List (Stage SlabCallState SlabCallEvent)) (state : SlabCallState) :
    Prop where
  intact : SlabsIntact state.slabs
  huge : ∀ allocation ∈ state.huge, allocation.size < 2 ^ 64 ∧
    NUM_CLASSES - 1 < slabClassIdx allocation.size ∧ 0 < mmapSize allocation.size ∧
    allocation.mapping.stop ≤ 2 ^ 47
  apart : ∀ allocation ∈ state.huge, ∀ classIdx, ∀ slab ∈ state.slabs.slabs classIdx,
    allocation.mapping.Apart (slabRegion classIdx slab)
  clean : ∀ classIdx, (∀ stage ∈ past, ¬ FreesUsed classIdx stage) →
    SlabsClean state.slabs classIdx

theorem SlabsIntact.fresh_apart (intact : SlabsIntact state) {mapping : Region}
    (fresh : Fresh state.heap mapping) (nonempty : mapping.first < mapping.stop) :
    ∀ classIdx, ∀ slab ∈ state.slabs classIdx, mapping.Apart (slabRegion classIdx slab) := by
  intro classIdx slab member
  have geometry := geometry classIdx (intact.inRange _ _ member)
  apply Region.Apart.of_notMem nonempty
  · dsimp only [slabRegion]
    omega
  · intro addr inMapping inSlab
    have wasUnmapped := fresh.unmapped addr inMapping
    rw [intact.mapped _ _ member addr inSlab] at wasUnmapped
    cases wasUnmapped

/-- A size that no slab has room for is huge, unless it wraps around. -/
theorem huge_size {size : Nat} (huge : NUM_CLASSES - 1 < slabClassIdx size) :
    2 ^ 24 < size + 16 := by
  have bound := (huge_iff (Nat.mod_lt _ (by decide) : iadd size 16 < 2 ^ 64)).mp huge
  exact Nat.lt_of_lt_of_le bound (Nat.mod_le _ _)

namespace CallsKept

variable {past : List (Stage SlabCallState SlabCallEvent)} {calls : SlabCallState}

theorem map_step (kept : CallsKept past calls) {fuel addr : Nat} (isWord : size < 2 ^ 64)
    (isHuge : NUM_CLASSES - 1 < slabClassIdx size) (nonempty : 0 < mmapSize size)
    (fresh : Fresh calls.slabs.heap ⟨raw, raw + SlabHeap.mmapLength size⟩)
    (allocates : calls.slabs.heap.allocate fuel size raw = some (.mapped addr, heap)) :
    ReadsZero heap.words (payloadOf heap.words addr) ∧
      ∀ event, CallsKept (⟨calls, event⟩ :: past)
        ⟨{ calls.slabs with heap := heap }, ⟨addr, size⟩ :: calls.huge⟩ := by
  have isLength : SlabHeap.mmapLength size = mmapSize size := if_neg (Nat.not_le.mpr isHuge)
  have fits := fresh.fits
  dsimp only at fits
  rw [isLength] at fits fresh
  have atLeast := mmapSize_ge nonempty
  rw [SlabHeap.allocate, SlabHeap.allocateRaw, if_neg (Nat.not_le.mpr isHuge)] at allocates
  cases allocates
  rw [isLength]
  have start : iadd raw 32 = raw + 32 := iadd_eq (by omega)
  have stop : iadd raw (mmapSize size) = raw + mmapSize size := iadd_eq (by omega)
  dsimp only
  rw [start, stop]
  let mapped := (((calls.slabs.heap.newPages raw (mmapSize size)).mmap raw (mmapSize size)).store
    raw (raw + 32)).store (raw + 8) (raw + mmapSize size)
  have outside : ∀ word, word ∉ (⟨raw, raw + mmapSize size⟩ : Region) →
      mapped.words word = calls.slabs.heap.words word := by
    intro word notIn
    have notHere : ∀ offset < mmapSize size, word ≠ raw + offset := by
      rintro offset inMapping rfl
      exact notIn ⟨Nat.le_add_right _ _, by dsimp only; omega⟩
    have notFirst : word ≠ raw := notHere 0 nonempty
    change Function.update (Function.update _ raw _) (raw + 8) _ word = _
    rw [Function.update_of_ne (notHere 8 (by omega)), Function.update_of_ne notFirst]
    exact if_neg notIn
  have apart := kept.intact.fresh_apart fresh (by dsimp only; omega)
  have same : ∀ classIdx, ∀ slab ∈ calls.slabs.slabs classIdx, ∀ word ∈ slabRegion classIdx slab,
      mapped.words word = calls.slabs.heap.words word := fun classIdx slab member word inSlab =>
    outside word ((apart classIdx slab member).symm.notMem inSlab)
  constructor
  · have first : mapped.words raw = raw + 32 := by
      change Function.update (Function.update _ raw _) (raw + 8) _ raw = _
      rw [Function.update_of_ne (by omega), Function.update_self]
    have ends : mapped.words (raw + 8) = raw + mmapSize size := Function.update_self _ _ _
    change ReadsZero mapped.words (payloadOf mapped.words raw)
    intro index inPayload
    dsimp only [payloadOf] at inPayload ⊢
    rw [first] at inPayload ⊢
    rw [ends] at inPayload
    change Function.update (Function.update _ raw _) (raw + 8) _ _ = _
    rw [Function.update_of_ne (by omega), Function.update_of_ne (by omega)]
    exact if_pos ⟨by omega, inPayload⟩
  · intro event
    refine ⟨?_, ?_, ?_, ?_⟩
    · refine kept.intact.frame (fun classIdx slab member word inMeta => ?_)
        (fun classIdx slab member word inSlab => ?_) rfl kept.intact.current
      · have inSlab := (meta_within (kept.intact.inRange _ _ member)).mem inMeta
        exact same classIdx slab member word inSlab
      · change (if raw ≤ word ∧ word < raw + mmapSize size then true
          else calls.slabs.heap.mapped word) = true
        rw [kept.intact.mapped _ _ member word inSlab, ite_self]
    · intro allocation member
      rcases List.mem_cons.mp member with rfl | earlier
      · exact ⟨isWord, isHuge, nonempty, fits⟩
      · exact kept.huge allocation earlier
    · intro allocation member
      rcases List.mem_cons.mp member with rfl | earlier
      · exact apart
      · exact kept.apart allocation earlier
    · intro classIdx notUsed
      exact (kept.clean classIdx fun stage isPast => notUsed stage (List.mem_cons_of_mem _ isPast)).frame
        kept.intact same

/-- A mapping is unmapped whole. -/
theorem unmap_eq (kept : CallsKept past calls) {allocation : Allocation}
    (member : allocation ∈ calls.huge) (small : allocation.size < 2 ^ 64 - 31)
    (isPayload : payloadOf calls.slabs.heap.words allocation.fatPtr =
      ⟨allocation.fatPtr + 32, allocation.fatPtr + mmapSize allocation.size⟩) :
    calls.slabs.heap.free allocation.fatPtr =
      (.unmapped allocation.fatPtr (mmapSize allocation.size),
        calls.slabs.heap.munmap allocation.fatPtr (mmapSize allocation.size)) := by
  rcases kept.huge allocation member with ⟨_, isHuge, nonempty, fits⟩
  have isLarge := huge_size isHuge
  have room := mmapSize_room small nonempty
  dsimp only [Allocation.mapping] at fits
  have starts : calls.slabs.heap.load allocation.fatPtr = allocation.fatPtr + 32 :=
    congrArg Region.first isPayload
  have stops : calls.slabs.heap.load (allocation.fatPtr + 8) =
      allocation.fatPtr + mmapSize allocation.size := congrArg Region.stop isPayload
  have span : isub (allocation.fatPtr + mmapSize allocation.size) (allocation.fatPtr + 32) =
      mmapSize allocation.size - 32 := by
    rw [isub_eq (by omega) (by omega)]
    omega
  have whole : isub (allocation.fatPtr + mmapSize allocation.size) allocation.fatPtr =
      mmapSize allocation.size := by
    rw [isub_eq (Nat.le_add_right _ _) (by omega)]
    omega
  have stillHuge : NUM_CLASSES - 1 < slabClassIdx (mmapSize allocation.size - 32) := by
    have shifted : iadd (mmapSize allocation.size - 32) 16 = mmapSize allocation.size - 32 + 16 :=
      iadd_eq (by omega)
    rw [slabClassIdx, shifted]
    exact (huge_iff (by omega)).mpr (by omega)
  simp only [SlabHeap.free, starts, stops, span, whole]
  exact if_neg (Nat.not_le.mpr stillHuge)

theorem step (kept : CallsKept past calls) {event : SlabCallEvent} {next : SlabCallState}
    (condition : SlabCallOk past calls event) (step : SlabCall calls event next) :
    SlabZeroed past calls event ∧ CallsKept (⟨calls, event⟩ :: past) next := by
  have earlier : ∀ classIdx, (∀ stage ∈ (⟨calls, event⟩ : Stage _ _) :: past,
      ¬ FreesUsed classIdx stage) → SlabsClean calls.slabs classIdx := fun classIdx notUsed =>
    kept.clean classIdx fun stage isPast => notUsed stage (List.mem_cons_of_mem _ isPast)
  cases step with
  | @allocate heap size fuel raw taken isWord inRange fresh others allocates =>
      rcases allocate_spec kept.intact inRange fresh rfl allocates with
        ⟨isAddr, after, isPayload, isFrom, -⟩
      refine ⟨?_, after, kept.huge, ?_, fun classIdx notUsed => ?_⟩
      · change ReadsZero heap.words (payloadOf heap.words taken.chunkAddr)
        rw [isAddr, isPayload]
        exact (allocate_clean kept.intact inRange fresh rfl allocates (kept.clean _ condition)).2 rfl
      · intro allocation member classIdx slab inSlabs
        by_cases isOld : slab ∈ calls.slabs.slabs classIdx
        · exact kept.apart allocation member classIdx slab isOld
        · rcases (mem_recorded inSlabs).resolve_left isOld with ⟨rfl, rfl⟩
          exact ((others allocation member).symm.within (isFrom.resolve_left isOld)).symm
      · exact (allocate_clean kept.intact inRange fresh rfl allocates (earlier classIdx notUsed)).1
  | map size fuel raw addr isWord isHuge nonempty fresh others allocates =>
      rcases kept.map_step isWord isHuge nonempty fresh allocates with ⟨zeroed, after⟩
      exact ⟨zeroed, after _⟩
  | @free next chunk returned frees =>
      have sameSlabs : next.slabs = calls.slabs.slabs := by
        cases frees with
        | freeSlab | free => rfl
      refine ⟨trivial, (slabs_step kept.intact frees).2, kept.huge, ?_, fun classIdx notUsed => ?_⟩
      · dsimp only
        rw [sameSlabs]
        exact kept.apart
      · refine free_clean kept.intact frees (earlier classIdx notUsed) fun sameClass => ?_
        by_contra isUsed
        exact notUsed _ List.mem_cons_self ⟨sameClass, isUsed⟩
  | @unmap heap allocation returned member isPayload frees =>
      rw [kept.unmap_eq member condition isPayload] at frees
      cases frees
      refine ⟨trivial, ?_, ?_, ?_, fun classIdx notUsed => ?_⟩
      · refine kept.intact.frame (fun _ _ _ _ _ => rfl) (fun classIdx slab isSlab addr inSlab => ?_)
          rfl kept.intact.current
        have apart := (kept.apart allocation member classIdx slab isSlab).symm
        have notIn := apart.notMem inSlab
        exact (if_neg notIn).trans (kept.intact.mapped _ _ isSlab addr inSlab)
      · exact fun other isOther => kept.huge other (List.mem_of_mem_erase isOther)
      · exact fun other isOther => kept.apart other (List.mem_of_mem_erase isOther)
      · exact (earlier classIdx notUsed).frame kept.intact fun _ _ _ _ _ => rfl
  | write words keeps =>
      have onSlabs : ∀ classIdx, ∀ slab ∈ calls.slabs.slabs classIdx,
          ∀ addr ∈ slabRegion classIdx slab, (∀ chunk ∈ calls.slabs.live, addr ∉ chunk.payload) →
            words addr = calls.slabs.heap.words addr := by
        intro classIdx slab isSlab addr inSlab notPayload
        refine keeps addr notPayload fun other isOther inMapping => ?_
        exact (kept.apart other isOther classIdx slab isSlab).notMem inMapping inSlab
      refine ⟨trivial, ?_, kept.huge, kept.apart, fun classIdx notUsed => ?_⟩
      · refine kept.intact.frame (fun classIdx slab isSlab addr inMeta => ?_) kept.intact.mapped rfl
          kept.intact.current
        have inSlab := (meta_within (kept.intact.inRange _ _ isSlab)).mem inMeta
        refine onSlabs classIdx slab isSlab addr inSlab fun chunk isLive inPayload => ?_
        have chunkKept := kept.intact.live chunk isLive
        exact (kept.intact.meta_apart_chunk isSlab chunkKept).notMem inMeta
          (kept.intact.payload_mem chunkKept inPayload)
      · exact (earlier classIdx notUsed).write kept.intact onSlabs

end CallsKept

/-- Payloads are zeroed in the runs that free no payload with something in it. -/
theorem slabs_zeroed {words : Words} {history : List (Stage SlabCallState SlabCallEvent)}
    {final : SlabCallState} (run : Run SlabCall ⟨SlabState.start words, []⟩ history final)
    (condition : MeetsPast SlabCallOk history) : MeetsPast SlabZeroed history := by
  suffices both : MeetsPast SlabZeroed history ∧ CallsKept history final from both.1
  induction run with
  | refl =>
      exact ⟨trivial, slabs_start words, nofun, nofun, fun classIdx _ =>
        ⟨fun chunk _ isIdle => (List.not_mem_nil isIdle.1.1).elim, nofun⟩⟩
  | next _ taken induction =>
      rcases induction condition.2 with ⟨before, kept⟩
      rcases kept.step condition.1 taken with ⟨zeroed, after⟩
      exact ⟨⟨zeroed, before⟩, after⟩

end LakeNative.Allocators

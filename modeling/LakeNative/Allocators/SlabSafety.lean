import LakeNative.Allocators.SlabCreation

/-! # Safety of the slab allocator

In every run the count of a slab is that of the free bits, live chunks are apart, lie in
their slabs and are found again when they are freed, and the lists lead to all slabs.
-/

namespace LakeNative.Allocators

open LakeNative.Runtime LakeNative.Runtime.SlabLayout LakeNative.Regions LakeNative.LinkedList
open LakeNative.Transitions

variable {state : SlabState} {heap : SlabHeap} {classIdx raw size : Nat}

structure SlabSafe (state : SlabState) : Prop where
  counted : ∀ classIdx, ∀ slab ∈ state.slabs classIdx,
    state.heap.load (slab + HDR_FREE_COUNT) = (freeBits state.heap.words classIdx slab).card
  apart : state.live.Pairwise fun chunk other => chunk.region.Apart other.region
  inside : ∀ chunk ∈ state.live, chunk.slab ∈ state.slabs chunk.classIdx ∧
    chunk.region.Within ⟨chunk.slab + HDR_BITMAP_START + 8 * numWords chunk.classIdx,
      chunk.slab + slabSizeForClass chunk.classIdx⟩
  mapped : ∀ classIdx, ∀ slab ∈ state.slabs classIdx, ∀ addr ∈ slabRegion classIdx slab,
    state.heap.mapped addr = true
  recovered : ∀ chunk ∈ state.live, (state.heap.freeSlab chunk.addr).1 = chunk.returned
  lists : ∀ classIdx,
    Chain (nextSlab state.heap.words) 0 (state.heap.slabsHead classIdx) (state.slabs classIdx) ∧
      Back (prevSlab state.heap.words) 0 (state.slabs classIdx)
  current : ∀ classIdx, state.heap.currentSlab classIdx = 0 ∨
    state.heap.currentSlab classIdx ∈ state.slabs classIdx

/-- A chunk has the class of its size and the address that its slab and number give it, and
what is freed is the chunk that was allocated. -/
def FreedAsTaken (_ : SlabState) : SlabEvent → Prop
  | .allocate chunk addr => addr = chunk.addr ∧ chunk.classIdx = slabClassIdx chunk.size
  | .free chunk returned => returned = chunk.returned
  | .write => True

theorem SlabsIntact.safe (intact : SlabsIntact state) : SlabSafe state where
  counted classIdx slab member := (intact.kept _ _ member).counted
  apart := intact.once.1.pairwise_of_forall_ne fun _ member _ also different =>
    intact.chunks_apart member also different
  inside chunk member := by
    have kept := intact.live _ member
    have inRange := intact.inRange _ _ kept.isSlab
    have room := (geometry _ inRange).2.2.1
    refine ⟨kept.isSlab, (SlabChunk.region_within inRange kept.inSlab).trans ⟨?_, Nat.le_refl _⟩⟩
    dsimp only
    omega
  mapped := intact.mapped
  recovered chunk member := by rw [intact.freeSlab_eq (intact.live _ member)]
  lists classIdx := ⟨intact.lists classIdx, intact.backs classIdx⟩
  current := intact.current

/-! ## Allocating -/

/-- The walk ends with a slab of the list that has a free chunk, or at the end of the list. -/
theorem walk_spec {head : Nat} {cells : List Nat}
    (chain : Chain (nextSlab heap.words) 0 head cells) {fuel found : Nat}
    (walks : heap.walk fuel head = some found) :
    found ≠ 0 → found ∈ cells ∧ heap.load (found + HDR_FREE_COUNT) ≠ 0 := by
  induction fuel generalizing head cells with
  | zero => cases walks
  | succ fuel induction =>
      rw [SlabHeap.walk] at walks
      split at walks
      · cases walks
        exact fun nonzero => absurd rfl nonzero
      · rename_i isSlab
        rcases chain.exists_cons isSlab with ⟨rest, rfl, later⟩
        split at walks
        · rename_i hasFree
          cases walks
          exact fun _ => ⟨List.mem_cons_self, hasFree⟩
        · intro nonzero
          rcases induction later walks nonzero with ⟨member, hasFree⟩
          exact ⟨List.mem_cons_of_mem _ member, hasFree⟩

/-- With fuel for the whole list the walk comes to its end. -/
theorem walk_ends {head : Nat} {cells : List Nat}
    (chain : Chain (nextSlab heap.words) 0 head cells) {fuel : Nat} (enough : cells.length < fuel) :
    ∃ found, heap.walk fuel head = some found := by
  induction fuel generalizing head cells with
  | zero => cases enough
  | succ fuel induction =>
      rw [SlabHeap.walk]
      split
      · exact ⟨0, rfl⟩
      · rename_i isSlab
        rcases chain.exists_cons isSlab with ⟨rest, rfl, later⟩
        split
        · exact ⟨head, rfl⟩
        · exact induction later (Nat.lt_of_succ_lt_succ enough)

/-- The result is a chunk at its address, with which the invariant holds. -/
def Gave (state : SlabState) (classIdx size : Nat) (result : Option (Taken × SlabHeap)) : Prop :=
  ∃ slab chunkIdx later, result = some (⟨slab, chunkIdx,
      SlabChunk.addr ⟨slab, classIdx, chunkIdx, size⟩⟩, later) ∧
    SlabsIntact (state.record ⟨slab, classIdx, chunkIdx, size⟩ later)

namespace SlabsIntact

theorem gave_from (intact : SlabsIntact state) {slab : Nat} (member : slab ∈ state.slabs classIdx)
    (hasFree : state.heap.load (slab + HDR_FREE_COUNT) ≠ 0) (sized : slabClassIdx size = classIdx) :
    Gave state classIdx size (state.heap.tryAllocFromSlab classIdx slab) := by
  rcases intact.takes member hasFree sized with ⟨chunkIdx, later, -, takes, sameHeads, after⟩
  refine ⟨slab, chunkIdx, later, takes, ?_⟩
  rw [SlabState.record, if_pos (by rw [sameHeads])]
  exact after

theorem gave_new (intact : SlabsIntact state) (inRange : classIdx ≤ NUM_CLASSES - 1)
    (sized : slabClassIdx size = classIdx)
    (fresh : Fresh state.heap ⟨raw, raw + 2 * slabSizeForClass classIdx⟩) :
    Gave state classIdx size (state.heap.allocFromNewSlab classIdx raw) := by
  rcases intact.adds inRange fresh with
    ⟨slab, created, isCreated, isHead, different, hasFree, after⟩
  have member : slab ∈ Function.update state.slabs classIdx (slab :: state.slabs classIdx)
      classIdx := mem_added.mpr (.inl ⟨rfl, rfl⟩)
  rcases after.takes member hasFree sized with ⟨chunkIdx, later, -, takes, sameHeads, given⟩
  refine ⟨slab, chunkIdx, later, ?_, ?_⟩
  · rw [SlabHeap.allocFromNewSlab, isCreated]
    exact takes
  · have moved : later.slabsHead classIdx ≠ state.heap.slabsHead classIdx := by
      rw [sameHeads, isHead, Function.update_self]
      exact different
    rw [SlabState.record, if_neg moved]
    exact given

/-- The walk's slab becomes the current one. -/
theorem set_current (intact : SlabsIntact state) {slab : Nat}
    (member : slab ∈ state.slabs classIdx) :
    SlabsIntact { state with heap := state.heap.setCurrent classIdx slab } := by
  refine intact.frame (fun _ _ _ _ _ => rfl) intact.mapped rfl fun otherIdx => ?_
  by_cases same : otherIdx = classIdx
  · subst same
    have isCurrent : (state.heap.setCurrent otherIdx slab).currentSlab otherIdx = slab :=
      Function.update_self _ _ _
    rw [isCurrent]
    exact .inr member
  · have others : (state.heap.setCurrent classIdx slab).currentSlab otherIdx =
        state.heap.currentSlab otherIdx := Function.update_of_ne same _ _
    rw [others]
    exact intact.current otherIdx

theorem gave_list (intact : SlabsIntact state) (inRange : classIdx ≤ NUM_CLASSES - 1)
    (sized : slabClassIdx size = classIdx)
    (fresh : Fresh state.heap ⟨raw, raw + 2 * slabSizeForClass classIdx⟩) {fuel found : Nat}
    (walks : state.heap.walk fuel (state.heap.slabsHead classIdx) = some found) :
    Gave state classIdx size (state.heap.allocFromList fuel classIdx raw) := by
  rw [SlabHeap.allocFromList, walks]
  cases found with
  | zero => exact intact.gave_new inRange sized fresh
  | succ before =>
      rcases walk_spec (intact.lists classIdx) walks (Nat.succ_ne_zero _) with ⟨member, hasFree⟩
      rcases (intact.set_current member).gave_from member hasFree sized with
        ⟨slab, chunkIdx, later, takes, after⟩
      refine ⟨slab, chunkIdx, later, ?_, after⟩
      change ((state.heap.setCurrent classIdx (before + 1)).tryAllocFromSlab classIdx
        (before + 1)).or _ = _
      rw [takes, Option.some_or]

/-- `rt_allocate_slab` gives a chunk unless its walk does not come to an end. -/
theorem gave_slab (intact : SlabsIntact state) (inRange : classIdx ≤ NUM_CLASSES - 1)
    (sized : slabClassIdx size = classIdx)
    (fresh : Fresh state.heap ⟨raw, raw + 2 * slabSizeForClass classIdx⟩) (fuel : Nat) :
    Gave state classIdx size (state.heap.allocateSlab fuel classIdx raw) ∨
      state.heap.allocateSlab fuel classIdx raw = none ∧
        state.heap.walk fuel (state.heap.slabsHead classIdx) = none := by
  have fromList : Gave state classIdx size (state.heap.allocFromList fuel classIdx raw) ∨
      state.heap.allocFromList fuel classIdx raw = none ∧
        state.heap.walk fuel (state.heap.slabsHead classIdx) = none := by
    cases walks : state.heap.walk fuel (state.heap.slabsHead classIdx) with
    | none => exact .inr ⟨by rw [SlabHeap.allocFromList, walks], rfl⟩
    | some found => exact .inl (intact.gave_list inRange sized fresh walks)
  rw [SlabHeap.allocateSlab, if_pos (geometry classIdx inRange).1.ne']
  rcases intact.current classIdx with isEmpty | isSlab
  · rw [if_neg (not_not_intro isEmpty)]
    exact fromList
  · rw [if_pos (intact.kept _ _ isSlab).positive.ne']
    by_cases hasFree : state.heap.load (state.heap.currentSlab classIdx + HDR_FREE_COUNT) ≠ 0
    · rcases intact.gave_from isSlab hasFree sized with ⟨slab, chunkIdx, later, takes, after⟩
      refine .inl ⟨slab, chunkIdx, later, ?_, after⟩
      rw [takes, Option.some_or]
    · have full : state.heap.tryAllocFromSlab classIdx (state.heap.currentSlab classIdx) = none :=
        if_neg hasFree
      rw [full, Option.none_or]
      exact fromList

/-- The fat pointer is written to the chunk. -/
theorem write_hdr {chunk : SlabChunk} (intact : SlabsIntact (state.record chunk heap)) :
    SlabsIntact (state.record chunk (heap.writeHdr chunk.addr size)) := by
  have room : 16 ≤ classSize chunk.classIdx := classSize_mono (Nat.zero_le _)
  refine intact.write fun addr outside => ?_
  have notHere := outside chunk List.mem_cons_self
  have apart : ∀ offset < 16, addr ≠ chunk.addr + offset := by
    rintro offset inHeader rfl
    apply notHere
    change chunk.addr ≤ chunk.addr + offset ∧
      chunk.addr + offset < chunk.addr + classSize chunk.classIdx
    omega
  have first : addr ≠ chunk.addr := apart 0 (by decide)
  have second := apart 8 (by decide)
  change Function.update (Function.update heap.words chunk.addr _) (chunk.addr + 8) _ addr = _
  rw [Function.update_of_ne second, Function.update_of_ne first]
  rfl

/-- A call of `rt_allocate_raw` with what it returned. -/
theorem allocates (intact : SlabsIntact state) (inRange : slabClassIdx size ≤ NUM_CLASSES - 1)
    (fresh : Fresh state.heap ⟨raw, raw + 2 * slabSizeForClass (slabClassIdx size)⟩) {fuel : Nat}
    {taken : Taken} (allocates : state.heap.allocateRaw fuel size raw = some (.chunk taken, heap)) :
    taken.chunkAddr =
        SlabChunk.addr ⟨taken.slab, slabClassIdx size, taken.chunkIdx, size⟩ ∧
      SlabsIntact (state.record ⟨taken.slab, slabClassIdx size, taken.chunkIdx, size⟩ heap) := by
  rw [SlabHeap.allocateRaw, if_pos inRange] at allocates
  rcases intact.gave_slab inRange rfl fresh fuel with gave | ⟨isNone, -⟩
  · rcases gave with ⟨slab, chunkIdx, later, isGiven, after⟩
    rw [isGiven] at allocates
    cases allocates
    exact ⟨rfl, after.write_hdr⟩
  · rw [isNone] at allocates
    cases allocates

/-! ## Freeing -/

/-- A fat pointer that is as it was returned leads `rt_free` to the chunk's slab. -/
theorem free_eq {chunk : SlabChunk} (intact : SlabsIntact state) (kept : ChunkKept state chunk)
    (start : state.heap.load chunk.addr = iadd chunk.addr 16)
    (stop : state.heap.load (chunk.addr + 8) = iadd (iadd chunk.addr 16) chunk.size) :
    state.heap.free chunk.addr = state.heap.freeSlab chunk.addr := by
  have span : iadd (isub (iadd (iadd chunk.addr 16) chunk.size) (iadd chunk.addr 16)) 16 =
      iadd chunk.size 16 := by
    unfold iadd isub
    omega
  have inRange := intact.inRange _ _ kept.isSlab
  have sameClass : slabClassIdx (isub (iadd (iadd chunk.addr 16) chunk.size)
      (iadd chunk.addr 16)) = chunk.classIdx := by
    rw [slabClassIdx, span]
    exact kept.sized
  simp only [SlabHeap.free, start, stop, sameClass]
  exact if_pos inRange

end SlabsIntact

/-! ## Runs -/

theorem slabs_start (words : Words) : SlabsIntact (SlabState.start words) where
  inRange := nofun
  lists _ := rfl
  backs _ := trivial
  current _ := .inl rfl
  kept := nofun
  apart := nofun
  live := nofun
  once := ⟨List.nodup_nil, nofun⟩

theorem slabs_step {next : SlabState} {event : SlabEvent} (intact : SlabsIntact state)
    (step : SlabStep state event next) : FreedAsTaken state event ∧ SlabsIntact next := by
  have freed : ∀ chunk ∈ state.live, ∀ returned heap,
      state.heap.freeSlab chunk.addr = (returned, heap) → returned = chunk.returned ∧
        SlabsIntact { state with heap := heap, live := state.live.erase chunk } := by
    intro chunk member returned heap frees
    have after := intact.gives member
    have found := intact.freeSlab_eq (intact.live _ member)
    rw [frees] at after found
    exact ⟨(Prod.ext_iff.mp found).1, after⟩
  cases step with
  | allocate size fuel raw taken isWord inRange fresh allocates =>
      rcases intact.allocates inRange fresh allocates with ⟨isAddr, after⟩
      exact ⟨⟨isAddr, rfl⟩, after⟩
  | freeSlab chunk returned member frees => exact freed chunk member _ _ frees
  | free chunk returned member start stop frees =>
      rw [intact.free_eq (intact.live _ member) start stop] at frees
      exact freed chunk member _ _ frees
  | write words keeps => exact ⟨trivial, intact.write keeps⟩

/-- The slab allocator is safe in all of its runs. -/
theorem slab_allocator_safe (words : Words) {history : List (Stage SlabState SlabEvent)}
    {final : SlabState} (run : Run SlabStep (SlabState.start words) history final) :
    Meets FreedAsTaken history ∧ Throughout SlabSafe history final :=
  run.guarantees_of_invariant (slabs_start words)
    (fun _ _ _ intact step => (slabs_step intact step).2)
    (fun _ _ _ intact step => (slabs_step intact step).1) fun _ intact => intact.safe

/-! ## Chunks of 64 KiB -/

theorem class_of_40000 : slabClassIdx 40000 = 12 := by
  have atMost := (sizeClass_le_iff (by decide : 40016 < 2 ^ 64) 12).mpr (by decide)
  have above := (sizeClass_le_iff (by decide : 40016 < 2 ^ 64) 11).not.mpr (by decide)
  exact Nat.le_antisymm atMost (Nat.not_le.mp above)

theorem inRange_40000 : slabClassIdx 40000 ≤ NUM_CLASSES - 1 := by
  rw [class_of_40000]
  decide

/-- The heap after `rt_allocate_raw(40000)` with the chunk at this address. -/
def takenHeap (heap : SlabHeap) (raw chunkAddr : Nat) : SlabHeap :=
  ((heap.allocateSlab 3 12 raw).elim heap Prod.snd).writeHdr chunkAddr 40000

theorem takes_40000 {heap : SlabHeap} {raw chunkAddr : Nat} {taken : Taken}
    (isAddr : taken.chunkAddr = chunkAddr)
    (takes : (heap.allocateSlab 3 12 raw).map Prod.fst = some taken) :
    heap.allocateRaw 3 40000 raw = some (.chunk taken, takenHeap heap raw chunkAddr) := by
  rcases Option.map_eq_some_iff.mp takes with ⟨⟨_, later⟩, isGiven, rfl⟩
  rw [takenHeap, SlabHeap.allocateRaw, class_of_40000, isGiven, ← isAddr]
  rfl

/-- A request for 40000 bytes is a step of a run. -/
theorem step_40000 {state : SlabState} {raw : Nat} {chunk : SlabChunk}
    (isChunk : chunk = ⟨chunk.slab, 12, chunk.chunkIdx, 40000⟩)
    (fresh : Fresh state.heap ⟨raw, raw + 2 ^ 18⟩)
    (takes : (state.heap.allocateSlab 3 12 raw).map Prod.fst =
      some ⟨chunk.slab, chunk.chunkIdx, chunk.addr⟩) :
    SlabStep state (.allocate chunk chunk.addr)
      (state.record chunk (takenHeap state.heap raw chunk.addr)) := by
  have length : 2 * slabSizeForClass (slabClassIdx 40000) = 2 ^ 18 := by
    rw [class_of_40000]
    rfl
  have step := SlabStep.allocate 40000 3 raw ⟨chunk.slab, chunk.chunkIdx, chunk.addr⟩ (by decide)
    inRange_40000 (length ▸ fresh) (takes_40000 rfl takes)
  rw [class_of_40000, ← isChunk] at step
  exact step

def noSlabs : SlabState := .start fun _ => 0

/-- The only chunks of two slabs. -/
def lowChunk : SlabChunk := ⟨2 ^ 46, 12, 0, 40000⟩

def highChunk : SlabChunk := ⟨2 ^ 46 + 2 ^ 20, 12, 0, 40000⟩

/-- The heaps with the one chunk handed out, with both, and with the first one freed. -/
def lowTaken : SlabHeap := takenHeap noSlabs.heap (2 ^ 46) lowChunk.addr

def bothTaken : SlabHeap := takenHeap lowTaken (2 ^ 46 + 2 ^ 20) highChunk.addr

def lowFreed : SlabHeap := (bothTaken.freeSlab lowChunk.addr).2

theorem lowTaken_unmapped {addr : Nat} (above : 2 ^ 46 + 2 ^ 18 ≤ addr) :
    lowTaken.mapped addr = false := by
  have isMapped : lowTaken.mapped = fun addr =>
      if 2 ^ 46 + 2 ^ 17 ≤ addr ∧ addr < 2 ^ 46 + 2 ^ 17 + 2 ^ 17 then false
      else if 2 ^ 46 ≤ addr ∧ addr < 2 ^ 46 + 2 ^ 18 then true else false := rfl
  rw [isMapped]
  dsimp only
  rw [if_neg (by omega), if_neg (by omega)]

theorem lowFreed_unmapped {addr : Nat} (above : 2 ^ 46 + 2 ^ 21 ≤ addr) :
    lowFreed.mapped addr = false := by
  have isMapped : lowFreed.mapped = fun addr =>
      if 2 ^ 46 + 2 ^ 20 + 2 ^ 17 ≤ addr ∧ addr < 2 ^ 46 + 2 ^ 20 + 2 ^ 17 + 2 ^ 17 then false
      else if 2 ^ 46 + 2 ^ 20 ≤ addr ∧ addr < 2 ^ 46 + 2 ^ 20 + 2 ^ 18 then true
      else lowTaken.mapped addr := rfl
  rw [isMapped]
  dsimp only
  rw [if_neg (by omega), if_neg (by omega), lowTaken_unmapped (by omega)]

/-- The chunk of a freed allocation is handed out again beside one that is still held. -/
theorem slab_reuse_safe : ∃ history final,
    Run SlabStep (SlabState.start fun _ => 0) history final ∧ history.length = 4 ∧
      final.live = [lowChunk, highChunk] ∧
      Meets FreedAsTaken history ∧ Throughout SlabSafe history final := by
  let one := noSlabs.record lowChunk lowTaken
  let two := one.record highChunk bothTaken
  have fresh : Fresh noSlabs.heap ⟨2 ^ 46, 2 ^ 46 + 2 ^ 18⟩ :=
    ⟨by decide, by decide, by decide, fun _ _ => rfl⟩
  have first : SlabStep noSlabs (.allocate lowChunk lowChunk.addr) one :=
    step_40000 rfl fresh (by decide +kernel)
  have second : SlabStep one (.allocate highChunk highChunk.addr) two :=
    step_40000 rfl
      ⟨by decide, by decide, by decide, fun _ inMapping =>
        lowTaken_unmapped (Nat.le_trans (by decide) inMapping.1)⟩
      (by decide +kernel)
  have third := @SlabStep.freeSlab two lowFreed lowChunk (bothTaken.freeSlab lowChunk.addr).1
    (by decide) (Prod.eta _).symm
  have fourth := @step_40000 { two with heap := lowFreed, live := two.live.erase lowChunk }
    (2 ^ 46 + 2 ^ 21) lowChunk rfl
    ⟨by decide, by decide, by decide, fun _ inMapping => lowFreed_unmapped inMapping.1⟩
    (by decide +kernel)
  have run := (((Run.refl.next first).next second).next third).next fourth
  exact ⟨_, _, run, rfl, rfl, slab_allocator_safe _ run⟩

end LakeNative.Allocators

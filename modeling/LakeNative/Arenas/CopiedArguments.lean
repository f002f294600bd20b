import LakeNative.Arenas.Recopy

/-! # What the copied arguments hold

Behind a transition each copy is a buffer with the bytes that its argument had before, wherever
the arguments lay in the arena and however many of them there are.
-/

namespace LakeNative.Arenas

open LakeNative.Runtime LakeNative.Regions LakeNative.DenseArray

/-- A live buffer whose first bytes are these. -/
structure Holds (mem : ByteMem) (addr : Nat) (content : List Nat) (start stop : Nat) : Prop where
  live : Live mem addr start stop
  fits : start + content.length ≤ stop
  content : cellsFrom mem.bytes start content.length = content

/-- A block whose header and first bytes are in place. -/
structure Filled (bytes : Nat → Nat) (block : RawBlock) (content : List Nat) : Prop where
  sound : SoundBlock block
  fits : FitsIn block content
  header : cellsFrom bytes block.addr 16 = headerBytes block.start block.stop
  content : cellsFrom bytes block.start content.length = content

theorem Filled.holds {mem : ByteMem} {block : RawBlock} {content : List Nat}
    (isFilled : Filled mem.bytes block content) :
    Holds mem block.addr content block.start block.stop where
  live := Live.of_cells isFilled.sound.inHalf isFilled.sound.ordered isFilled.sound.below
    isFilled.header
  fits := isFilled.fits
  content := isFilled.content

theorem filled_within {block : RawBlock} {content : List Nat} (sound : SoundBlock block)
    (fits : FitsIn block content) : ∀ patch ∈ filled block content, patch.region.Within block.space := by
  intro patch member
  rcases List.mem_append.mp member with allocated | isContent
  · exact allocation_within sound patch allocated
  · rw [List.mem_singleton.mp isContent]
    exact ⟨sound.data.1, Nat.le_trans fits sound.data.2⟩

theorem filled_filled {block : RawBlock} {content : List Nat} (sound : SoundBlock block)
    (fits : FitsIn block content) (bytes : Nat → Nat) :
    Filled (Patch.layAll bytes (filled block content)) block content := by
  rw [filled, layAll_append, layAll_cons, layAll_nil]
  refine ⟨sound, fits, ?_, cellsFrom_lay_self _ ⟨block.start, content⟩⟩
  rw [cellsFrom_lay_apart, headed_allocation]
  apply (sound.beside.symm.within _).symm
  exact ⟨Nat.le_refl _, fits⟩

/-- What is written elsewhere leaves the block. -/
theorem Filled.later {bytes : Nat → Nat} {block : RawBlock} {content : List Nat}
    (isFilled : Filled bytes block content) {patches : List (Patch Nat)}
    (apart : ∀ patch ∈ patches, block.space.Apart patch.region) :
    Filled (Patch.layAll bytes patches) block content := by
  rcases isFilled with ⟨sound, fits, header, content⟩
  refine ⟨sound, fits, ?_, ?_⟩
  · rw [cellsFrom_layAll_apart, header]
    intro patch member
    exact (apart patch member).within sound.header
  · rw [cellsFrom_layAll_apart, content]
    intro patch member
    apply (apart patch member).within
    exact ⟨sound.data.1, Nat.le_trans fits sound.data.2⟩

theorem copies_within {blocks : List RawBlock} {pieces : List (List Nat)}
    (fits : List.Forall₂ FitsIn blocks pieces) (sound : ∀ block ∈ blocks, SoundBlock block) :
    ∀ patch ∈ (List.zipWith filled blocks pieces).flatten,
      ∃ block ∈ blocks, patch.region.Within block.space := by
  induction fits with
  | nil => exact List.forall_mem_nil _
  | @cons block piece blocks pieces fits rest induction =>
      rw [List.forall_mem_cons] at sound
      intro patch member
      rw [List.zipWith_cons_cons, List.flatten_cons] at member
      rcases List.mem_append.mp member with isFirst | isLater
      · exact ⟨block, List.mem_cons_self, filled_within sound.1 fits patch isFirst⟩
      · rcases induction sound.2 patch isLater with ⟨other, isOther, within⟩
        exact ⟨other, List.mem_cons_of_mem _ isOther, within⟩

/-- Copies into blocks that are apart are all in place at the end, whatever else is written
outside the blocks. -/
theorem all_filled {blocks : List RawBlock} {pieces : List (List Nat)}
    (fits : List.Forall₂ FitsIn blocks pieces) (sound : ∀ block ∈ blocks, SoundBlock block)
    (apart : blocks.Pairwise fun block later => block.space.Apart later.space)
    {patches : List (Patch Nat)}
    (elsewhere : ∀ block ∈ blocks, ∀ patch ∈ patches, block.space.Apart patch.region)
    (bytes : Nat → Nat) :
    List.Forall₂
      (Filled (Patch.layAll bytes ((List.zipWith filled blocks pieces).flatten ++ patches)))
      blocks pieces := by
  induction fits generalizing bytes with
  | nil => exact .nil
  | @cons block piece blocks pieces fits rest induction =>
      rw [List.forall_mem_cons] at sound elsewhere
      rcases List.pairwise_cons.mp apart with ⟨first, apart⟩
      rw [List.zipWith_cons_cons, List.flatten_cons, List.append_assoc, layAll_append]
      apply List.Forall₂.cons
      · apply (filled_filled sound.1 fits bytes).later
        intro patch member
        rcases List.mem_append.mp member with isCopy | isLater
        · rcases copies_within rest sound.2 patch isCopy with ⟨other, isOther, within⟩
          exact ((first other isOther).symm.within within).symm
        · exact elsewhere.1 patch isLater
      · exact induction sound.2 apart elsewhere.2 _

/-! ## Transitions -/

variable {heap : ActorHeap} {args : List Nat}

theorem small_contents {scratch : RawBlock} {mem : ByteMem}
    (outside : ∀ arg ∈ args, LiveOutside mem scratch.space arg) :
    ∀ size ∈ (args.map (contentAt mem)).map List.length, size < 2 ^ 48 := by
  intro size member
  rw [List.map_map] at member
  rcases List.mem_map.mp member with ⟨arg, isArg, rfl⟩
  have isLen := (outside arg isArg).length_content
  have below := (outside arg isArg).live.below
  rw [Function.comp_apply]
  omega

/-- Behind a transition that does not trap each copy is a live buffer with the bytes that its
argument had before, the copies are apart from each other, and outside the blocks that it is given
memory is as it was. -/
theorem recopy_copies (ready : Ready heap args) (runs : (heap.recopy args).2.trapped = false) :
    (heap.recopy args).1 = (copyBlocks heap args).map RawBlock.addr ∧
      List.Forall₂ (fun arg block => Holds (heap.recopy args).2.mem block.addr
        (contentAt heap.mem arg) block.start block.stop) args (copyBlocks heap args) ∧
      (copyBlocks heap args).Pairwise (fun block later => block.space.Apart later.space) ∧
      ∀ address, (∀ block ∈ recopyBlocks heap args, address ∉ block.space) →
        (heap.recopy args).2.mem.bytes address = heap.mem.bytes address := by
  rcases exists_scratch runs with ⟨scratch, raw, isRaw⟩
  rcases recopy_spec ready runs with ⟨isCopies, isBytes, inBlocks⟩
  have fits : List.Forall₂ FitsIn (copyBlocks heap args) (args.map (contentAt heap.mem)) := by
    rw [recopyBlocks, isRaw] at inBlocks
    exact (List.forall₂_cons.mp inBlocks).2
  have fresh := ready.fresh
  rw [isRaw] at fresh
  have outside : ∀ arg ∈ args, LiveOutside heap.mem scratch.space arg := by
    intro arg member
    apply ready.live arg member scratch
    rw [isRaw]
    exact List.mem_cons_self
  rcases places_spec fresh.next (small_contents outside) with ⟨blocks, between⟩
  have isBlocks : copyBlocks heap args = places (heap.arena.map Arena.reset) raw
      ((args.map (contentAt heap.mem)).map List.length) := by
    rw [copyBlocks, isRaw]
    rfl
  rw [← isBlocks] at blocks between
  have scratchSound := fresh.blocks scratch List.mem_cons_self
  have isPatches : recopyPatches heap args =
      filled scratch (contents heap.mem args) ++
        ((List.zipWith filled (copyBlocks heap args) (args.map (contentAt heap.mem))).flatten ++
          scratch.freed) := by
    rw [recopyPatches, recopyBlocks, isRaw]
    exact List.append_assoc _ _ _
  have sound : ∀ block ∈ recopyBlocks heap args, SoundBlock block := by
    intro block member
    rw [recopyBlocks, isRaw] at member
    rcases List.mem_cons.mp member with rfl | isCopy
    · exact scratchSound
    · exact (blocks block isCopy).1
  have elsewhere : ∀ block ∈ copyBlocks heap args, ∀ patch ∈ scratch.freed,
      block.space.Apart patch.region := by
    intro block isBlock patch isFreed
    have apart := (blocks block isBlock).2 scratch.space List.mem_cons_self
    exact (apart.within (scratchSound.freed patch isFreed)).symm
  have inPlace := all_filled fits (fun block member => (blocks block member).1) between elsewhere
    (Patch.layAll heap.mem.bytes (filled scratch (contents heap.mem args)))
  rw [← layAll_append, ← isPatches, ← isBytes] at inPlace
  refine ⟨isCopies, ?_, between, ?_⟩
  · rw [List.forall₂_map_right_iff] at inPlace
    apply inPlace.flip.imp
    intro arg block isFilled
    exact Filled.holds isFilled
  · intro address outsideBlocks
    rw [isBytes]
    apply layAll_outside
    intro patch member inPatch
    rcases List.mem_append.mp member with isCopy | isFreed
    · rcases copies_within inBlocks sound patch isCopy with ⟨block, isBlock, within⟩
      exact outsideBlocks block isBlock (within.mem inPatch)
    · rw [isRaw] at isFreed
      apply outsideBlocks scratch
      · rw [recopyBlocks, isRaw]
        exact List.mem_cons_self
      · exact (scratchSound.freed patch isFreed).mem inPatch

/-! ## Room in the arena -/

/-- What a buffer of this size takes of an arena. -/
def blockSize (size : Nat) : Nat := iadd (alignDown (iadd size 7) 8) 16

theorem blockSize_small {size : Nat} (small : size < 2 ^ 48) : blockSize size < 2 ^ 49 := by
  have high := alignDown_le (size + 7) 8
  have padded : iadd size 7 = size + 7 := iadd_eq (by omega)
  have needed : iadd (alignDown (size + 7) 8) 16 = alignDown (size + 7) 8 + 16 := iadd_eq (by omega)
  rw [blockSize, padded, needed]
  omega

/-- Copies that the arena has room for are carved off it, and end behind their bytes. -/
theorem places_of_room {sizes : List Nat} (small : ∀ size ∈ sizes, size < 2 ^ 48) {own : Arena}
    (below : own.stop < 2 ^ 47) (raw : List RawBlock)
    (room : own.bump + (sizes.map blockSize).sum ≤ own.stop) :
    List.Forall₂ (fun size block => block.stop = block.start + size) sizes
      (places (some own) raw sizes) := by
  induction sizes generalizing own with
  | nil => exact .nil
  | cons size sizes induction =>
      rw [List.forall_mem_cons] at small
      rw [List.map_cons, List.sum_cons] at room
      have isNext : iadd own.bump (blockSize size) = own.bump + blockSize size := by
        have bound := blockSize_small small.1
        exact iadd_eq (by omega)
      have carves : own.carve size =
          some (own.bump, { own with bump := own.bump + blockSize size }) := by
        rw [Arena.carve]
        change (if iadd own.bump (blockSize size) ≤ own.stop then
          some (own.bump, { own with bump := iadd own.bump (blockSize size) }) else none) = _
        rw [isNext, if_pos (by omega)]
      have grants : granted (some own) raw size =
          some (carved own.bump (own.bump + blockSize size) size,
            some { own with bump := own.bump + blockSize size }, raw) := by
        unfold granted
        rw [Option.bind_some, carves]
      rw [places_cons grants]
      have left : own.bump + blockSize size + (sizes.map blockSize).sum ≤ own.stop := by omega
      exact .cons rfl (@induction small.2 { own with bump := own.bump + blockSize size } below left)

/-- The arena has room for all copies when it is set back. -/
def HasRoom (heap : ActorHeap) (args : List Nat) : Prop :=
  ∃ own : Arena, heap.arena = some own ∧
    own.reset.bump +
      ((args.map (contentAt heap.mem)).map fun content => blockSize content.length).sum ≤ own.stop

theorem exact_of_room (room : HasRoom heap args) (ready : Ready heap args)
    (runs : (heap.recopy args).2.trapped = false) :
    List.Forall₂ (fun arg block => block.stop = block.start + (contentAt heap.mem arg).length) args
      (copyBlocks heap args) := by
  rcases room with ⟨own, isOwn, fits⟩
  rcases exists_scratch runs with ⟨scratch, raw, isRaw⟩
  have isReset : own.reset ∈ heap.arena.map Arena.reset := by
    rw [isOwn]
    exact rfl
  have below := (ready.fresh.arenaFits own.reset isReset).2
  have sameStop : own.reset.stop = own.stop := by
    rw [Arena.reset]
    split
    · rfl
    · rfl
  have outside : ∀ arg ∈ args, LiveOutside heap.mem scratch.space arg := by
    intro arg member
    apply ready.live arg member scratch
    rw [isRaw]
    exact List.mem_cons_self
  have carved := places_of_room (small_contents outside) below heap.raw.tail (by
    rw [List.map_map, sameStop]
    exact fits)
  rw [copyBlocks, isOwn]
  rw [List.forall₂_map_left_iff, List.forall₂_map_left_iff] at carved
  exact carved

/-- A block of `rt_allocate_raw`. -/
def spare : RawBlock := ⟨1024, 1040, 1056, ⟨1024, 1056⟩, [], []⟩

/-- Two buffers in the arena of an actor, the texts "ab" and "c". -/
def twoBuffers : ActorHeap where
  mem := ⟨Patch.layAll (fun _ => 0)
    [⟨64, headerBytes 80 82 ++ [97, 98]⟩, ⟨88, headerBytes 104 105 ++ [99]⟩], []⟩
  arena := some ⟨112, 256, 64⟩
  raw := [spare]
  trapped := false

theorem liveOutside_of {mem : ByteMem} {region : Region} {addr start stop : Nat}
    (live : Live mem addr start stop) (header : Region.Apart ⟨addr, addr + 16⟩ region)
    (data : Region.Apart ⟨start, stop⟩ region) : LiveOutside mem region addr := by
  rcases live with ⟨inHalf, ordered, below, starts, stops⟩
  rw [← starts, ← stops] at data ordered
  rw [← stops] at below
  exact ⟨⟨inHalf, ordered, below, rfl, rfl⟩, header, data⟩

theorem sound_spare : SoundBlock spare where
  inHalf := by decide
  ordered := by decide
  below := by decide
  header := ⟨by decide, by decide⟩
  data := ⟨by decide, by decide⟩
  beside := .inl (by decide)
  written := List.forall_mem_nil _
  freed := List.forall_mem_nil _

theorem fresh_twoBuffers : Fresh (twoBuffers.arena.map Arena.reset) [spare] [] where
  arenaFits := by
    intro own isOwn
    cases isOwn
    decide
  blocks := by
    rw [List.forall_mem_singleton]
    exact sound_spare
  arenaBlocks := by
    intro own isOwn
    cases isOwn
    rw [List.forall_mem_singleton]
    exact .inl (by decide)
  between := List.pairwise_singleton _ _
  takenArena := List.forall_mem_nil _
  takenBlocks := List.forall_mem_nil _

theorem ready_twoBuffers : Ready twoBuffers [88, 64] where
  fresh := fresh_twoBuffers
  live := by
    rw [List.forall_mem_cons, List.forall_mem_singleton]
    refine ⟨?_, ?_⟩
    · intro block member
      rw [List.mem_singleton.mp member]
      exact liveOutside_of (Live.of_cells (by decide) (by decide : 104 ≤ 105) (by decide)
        (by decide +kernel)) (.inl (by decide)) (.inl (by decide))
    · intro block member
      rw [List.mem_singleton.mp member]
      exact liveOutside_of (Live.of_cells (by decide) (by decide : 80 ≤ 82) (by decide)
        (by decide +kernel)) (.inl (by decide)) (.inl (by decide))

end LakeNative.Arenas

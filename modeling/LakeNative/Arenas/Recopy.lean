import LakeNative.Arenas.Slices

/-! # Copying arguments into a reset arena

What a transition writes while it saves the arguments' bytes and copies them back: the headers
and bytes of the scratch buffer and of the copies, and what the allocator writes to its own
blocks. Nothing else changes.
-/

namespace LakeNative.Arenas

open LakeNative.Runtime LakeNative.Regions LakeNative.DenseArray

/-! ## Words and copies as patches -/

/-- The lowest bytes of a word, the lowest of them first. -/
def lowBytes (value count : Nat) : List Nat := (List.range count).map fun i => value / 256 ^ i % 256

def wordBytes (value : Nat) : List Nat := lowBytes value 8

/-- The two words of a header. -/
def headerBytes (start stop : Nat) : List Nat := wordBytes start ++ wordBytes stop

/-- What a copy of these bytes writes. -/
def bytesAt (bytes : Nat → Nat) (first count : Nat) : List Nat := (cellsFrom bytes first count).map (· % 256)

@[simp] theorem length_lowBytes (value count : Nat) : (lowBytes value count).length = count := by
  rw [lowBytes, List.length_map, List.length_range]

@[simp] theorem length_wordBytes (value : Nat) : (wordBytes value).length = 8 := length_lowBytes value 8

@[simp] theorem length_headerBytes (start stop : Nat) : (headerBytes start stop).length = 16 := by
  rw [headerBytes, List.length_append, length_wordBytes, length_wordBytes]

@[simp] theorem length_bytesAt (bytes : Nat → Nat) (first count : Nat) :
    (bytesAt bytes first count).length = count := by
  rw [bytesAt, List.length_map, length_cellsFrom]

theorem map_mod {bytes : List Nat} (small : ∀ byte ∈ bytes, byte < 256) : bytes.map (· % 256) = bytes := by
  have same : bytes.map (· % 256) = bytes.map id := by
    apply List.map_congr_left
    intro byte member
    exact Nat.mod_eq_of_lt (small byte member)
  rw [same, List.map_id]

theorem lowBytes_lt (value count : Nat) : ∀ byte ∈ lowBytes value count, byte < 256 := by
  intro byte member
  rcases List.mem_map.mp member with ⟨i, -, rfl⟩
  exact Nat.mod_lt _ (by decide)

theorem bytesAt_lt (bytes : Nat → Nat) (first count : Nat) :
    ∀ byte ∈ bytesAt bytes first count, byte < 256 := by
  intro byte member
  rcases List.mem_map.mp member with ⟨value, -, rfl⟩
  exact Nat.mod_lt _ (by decide)

variable {mem : ByteMem} {addr : Nat}

theorem bytes_storeLow (mem : ByteMem) (value : Nat) {count : Nat} (inWord : count ≤ 8)
    (noWrap : addr + count ≤ 2 ^ 64) :
    (mem.storeLoop addr value count).bytes = Patch.lay mem.bytes ⟨addr, lowBytes value count⟩ := by
  funext address
  rw [bytes_storeLoop mem value inWord noWrap]
  by_cases inside : addr ≤ address ∧ address < addr + count
  · rcases Nat.exists_eq_add_of_le inside.1 with ⟨index, rfl⟩
    have inRange : index < (Patch.mk addr (lowBytes value count)).content.length := by
      rw [length_lowBytes]
      omega
    rw [if_pos inside, Nat.add_sub_cancel_left]
    exact ((lay_inside inRange).trans (by simp [lowBytes])).symm
  · rw [if_neg inside, lay_outside]
    rwa [Patch.region, Region.mem_mk, length_lowBytes]

theorem bytes_storeWord (mem : ByteMem) (value : Nat) (noWrap : addr + 8 ≤ 2 ^ 64) :
    (mem.storeWord addr value).bytes = Patch.lay mem.bytes ⟨addr, wordBytes value⟩ :=
  bytes_storeLow mem value (Nat.le_refl 8) noWrap

theorem bytes_writeHeader (heap : ActorHeap) (start stop : Nat) (noWrap : addr + 16 ≤ 2 ^ 64) :
    (heap.writeHeader addr start stop).mem.bytes =
      Patch.lay heap.mem.bytes ⟨addr, headerBytes start stop⟩ := by
  have second : iadd addr 8 = addr + (wordBytes start).length := by
    rw [length_wordBytes, iadd_eq]
    omega
  have secondFits : iadd addr 8 + 8 ≤ 2 ^ 64 := by
    rw [second, length_wordBytes]
    omega
  rw [headerBytes, ← lay_lay, ← second, ← bytes_storeWord _ _ (by omega), ← bytes_storeWord _ _ secondFits]
  rfl

theorem bytes_copy (mem : ByteMem) {dst src len : Nat} (dstFits : dst + len ≤ 2 ^ 64)
    (srcFits : src + len ≤ 2 ^ 64) (apart : Region.Apart ⟨src, src + len⟩ ⟨dst, dst + len⟩) :
    (mem.copyLoop dst src len).bytes = Patch.lay mem.bytes ⟨dst, bytesAt mem.bytes src len⟩ := by
  funext address
  rw [bytes_copyLoop mem dstFits srcFits apart]
  by_cases inside : dst ≤ address ∧ address < dst + len
  · rcases Nat.exists_eq_add_of_le inside.1 with ⟨index, rfl⟩
    have inRange : index < (Patch.mk dst (bytesAt mem.bytes src len)).content.length := by
      rw [length_bytesAt]
      omega
    rw [if_pos inside, Nat.add_sub_cancel_left]
    exact ((lay_inside inRange).trans (by simp [bytesAt, cellsFrom])).symm
  · rw [if_neg inside, lay_outside]
    rwa [Patch.region, Region.mem_mk, length_bytesAt]

/-- The word whose bytes are in memory. -/
theorem word_eq {value : Nat} (held : cellsFrom mem.bytes addr 8 = wordBytes value) (isWord : value < 2 ^ 64)
    (noWrap : addr + 8 ≤ 2 ^ 64) : mem.word addr = value := by
  change (mem.loadBytes addr 8).1 = value
  rw [(loadBytes_eq mem 8 noWrap).1]
  change Nat.ofDigits 256 (cellsFrom mem.bytes addr 8) = value
  rw [held, wordBytes, lowBytes, ofDigits_bytes]
  exact Nat.mod_eq_of_lt isWord

theorem word_same {other : ByteMem} (noWrap : addr + 8 ≤ 2 ^ 64)
    (same : cellsFrom other.bytes addr 8 = cellsFrom mem.bytes addr 8) : other.word addr = mem.word addr := by
  change (other.loadBytes addr 8).1 = (mem.loadBytes addr 8).1
  rw [(loadBytes_eq other 8 noWrap).1, (loadBytes_eq mem 8 noWrap).1]
  exact congrArg (Nat.ofDigits 256) same

/-! ## Headers in memory -/

/-- The fat pointer at an address is that of a live buffer. -/
structure Live (mem : ByteMem) (addr start stop : Nat) : Prop where
  inHalf : addr + 16 ≤ 2 ^ 47
  ordered : start ≤ stop
  below : stop < 2 ^ 47
  starts : mem.word addr = start
  stops : mem.word (addr + 8) = stop

namespace Live

variable {start stop : Nat}

theorem of_cells (inHalf : addr + 16 ≤ 2 ^ 47) (ordered : start ≤ stop) (below : stop < 2 ^ 47)
    (held : cellsFrom mem.bytes addr 16 = headerBytes start stop) : Live mem addr start stop := by
  rw [cellsFrom_add mem.bytes addr 8 8, headerBytes] at held
  have halves := List.append_inj held (by rw [length_cellsFrom, length_wordBytes])
  constructor
  · exact inHalf
  · exact ordered
  · exact below
  · exact word_eq halves.1 (by omega) (by omega)
  · exact word_eq halves.2 (by omega) (by omega)

theorem congr {other : ByteMem} (live : Live mem addr start stop)
    (same : cellsFrom other.bytes addr 16 = cellsFrom mem.bytes addr 16) : Live other addr start stop := by
  rw [cellsFrom_add other.bytes addr 8 8, cellsFrom_add mem.bytes addr 8 8] at same
  have halves := List.append_inj same (by rw [length_cellsFrom, length_cellsFrom])
  have inHalf := live.inHalf
  constructor
  · exact live.inHalf
  · exact live.ordered
  · exact live.below
  · rw [word_same (by omega) halves.1]
    exact live.starts
  · rw [word_same (by omega) halves.2]
    exact live.stops

theorem fatPtrAt (live : Live mem addr start stop) :
    Runtime.fatPtrAt mem addr = some ⟨start, stop, live.ordered, live.below⟩ := by
  have inHalf := live.inHalf
  have second : iadd addr 8 = addr + 8 := iadd_eq (by omega)
  simp only [Runtime.fatPtrAt, second, live.starts, live.stops]
  rw [dif_pos ⟨live.ordered, live.below⟩]

theorem sizeAt {heap : ActorHeap} (live : Live heap.mem addr start stop) :
    heap.sizeAt addr = stop - start := by
  have inHalf := live.inHalf
  have below := live.below
  rw [ActorHeap.sizeAt, iadd_eq (by omega), live.starts, live.stops,
    isub_eq live.ordered (by omega)]

end Live

/-! ## One copy -/

theorem copyBytes_trapped {heap : ActorHeap} (trapped : heap.trapped = true)
    (dst dstOff src srcOff len : Nat) :
    (heap.copyBytes dst dstOff src srcOff len).trapped = true := by
  rw [ActorHeap.copyBytes]
  cases fatPtrAt heap.mem dst with
  | none => rfl
  | some dstFat =>
      cases fatPtrAt heap.mem src with
      | none => rfl
      | some srcFat =>
          rw [ActorHeap.copyBetween]
          cases rtCopyBytes heap.mem dstFat dstOff srcFat srcOff len with
          | returned value mem => exact trapped
          | trapped code mem => rfl

/-- A copy that does not trap stays inside both buffers and writes the bytes that it reads. -/
theorem copyBytes_spec {heap : ActorHeap} {dst dstStart dstStop src srcStart srcStop : Nat}
    (isDst : Live heap.mem dst dstStart dstStop) (isSrc : Live heap.mem src srcStart srcStop)
    (apart : Region.Apart ⟨srcStart, srcStop⟩ ⟨dstStart, dstStop⟩) {dstOff srcOff len : Nat}
    (dstSmall : dstOff < 2 ^ 48) (srcSmall : srcOff < 2 ^ 48) (lenSmall : len < 2 ^ 48)
    (runs : (heap.copyBytes dst dstOff src srcOff len).trapped = false) :
    dstStart + dstOff + len ≤ dstStop ∧ srcStart + srcOff + len ≤ srcStop ∧
      ∃ mem, heap.copyBytes dst dstOff src srcOff len = { heap with mem := mem } ∧
        mem.bytes = Patch.lay heap.mem.bytes
          ⟨dstStart + dstOff, bytesAt heap.mem.bytes (srcStart + srcOff) len⟩ := by
  have dstOrdered := isDst.ordered
  have dstBelow := isDst.below
  have srcOrdered := isSrc.ordered
  have srcBelow := isSrc.below
  have dstFirst : iadd dstStart dstOff = dstStart + dstOff := iadd_eq (by omega)
  have srcFirst : iadd srcStart srcOff = srcStart + srcOff := iadd_eq (by omega)
  have dstBound : iadd (dstStart + dstOff) len = dstStart + dstOff + len := iadd_eq (by omega)
  have srcBound : iadd (srcStart + srcOff) len = srcStart + srcOff + len := iadd_eq (by omega)
  have copies : heap.copyBytes dst dstOff src srcOff len =
      heap.ended (rtCopyBytes heap.mem ⟨dstStart, dstStop, dstOrdered, dstBelow⟩ dstOff
        ⟨srcStart, srcStop, srcOrdered, srcBelow⟩ srcOff len) := by
    rw [ActorHeap.copyBytes, isDst.fatPtrAt, isSrc.fatPtrAt, ActorHeap.copyBetween]
  rw [copies] at runs ⊢
  simp only [rtCopyBytes, FatPtr.inBounds, dstFirst, srcFirst, dstBound, srcBound,
    decide_eq_true_eq] at runs ⊢
  by_cases dstFits : dstStart + dstOff + len ≤ dstStop
  · rw [if_pos dstFits] at runs ⊢
    by_cases srcFits : srcStart + srcOff + len ≤ srcStop
    · rw [if_pos srcFits]
      have pieces : Region.Apart ⟨srcStart + srcOff, srcStart + srcOff + len⟩
          ⟨dstStart + dstOff, dstStart + dstOff + len⟩ := by
        unfold Region.Apart at apart ⊢
        dsimp only at apart ⊢
        omega
      refine ⟨dstFits, srcFits, _, rfl, ?_⟩
      exact bytes_copy heap.mem (by omega) (by omega) pieces
    · rw [if_neg srcFits] at runs
      cases runs
  · rw [if_neg dstFits] at runs
    cases runs

/-! ## Saving the arguments -/

/-- The bytes that a fat pointer points to, as they are copied. -/
def contentAt (mem : ByteMem) (addr : Nat) : List Nat :=
  bytesAt mem.bytes (mem.word addr) (isub (mem.word (iadd addr 8)) (mem.word addr))

/-- A live buffer apart from a region, header and data. -/
structure LiveOutside (mem : ByteMem) (region : Region) (addr : Nat) : Prop where
  live : Live mem addr (mem.word addr) (mem.word (addr + 8))
  header : Region.Apart ⟨addr, addr + 16⟩ region
  data : Region.Apart ⟨mem.word addr, mem.word (addr + 8)⟩ region

/-- Header and data lie apart from one another in the block's space, where all that is written
to the block goes. -/
structure SoundBlock (block : RawBlock) : Prop where
  inHalf : block.addr + 16 ≤ 2 ^ 47
  ordered : block.start ≤ block.stop
  below : block.stop < 2 ^ 47
  header : Region.Within ⟨block.addr, block.addr + 16⟩ block.space
  data : Region.Within ⟨block.start, block.stop⟩ block.space
  beside : Region.Apart ⟨block.addr, block.addr + 16⟩ ⟨block.start, block.stop⟩
  written : ∀ patch ∈ block.written, patch.region.Within block.space
  freed : ∀ patch ∈ block.freed, patch.region.Within block.space

namespace LiveOutside

variable {region : Region} {other : ByteMem}

theorem size_eq (outside : LiveOutside mem region addr) :
    isub (mem.word (iadd addr 8)) (mem.word addr) = mem.word (addr + 8) - mem.word addr := by
  have live := outside.live
  have inHalf := live.inHalf
  have below := live.below
  rw [iadd_eq (by omega), isub_eq live.ordered (by omega)]

theorem length_content (outside : LiveOutside mem region addr) :
    (contentAt mem addr).length = mem.word (addr + 8) - mem.word addr := by
  rw [contentAt, length_bytesAt, outside.size_eq]

/-- Where only the region has changed, the buffer is as it was. -/
theorem cells_same (agree : AgreeOutside region mem.bytes other.bytes) {first stop : Nat}
    (apart : Region.Apart ⟨first, stop⟩ region) :
    cellsFrom other.bytes first (stop - first) = cellsFrom mem.bytes first (stop - first) := by
  apply cellsFrom_congr
  intro address lower upper
  apply agree.of_apart apart
  rw [Region.mem_mk]
  omega

theorem live_same (outside : LiveOutside mem region addr)
    (agree : AgreeOutside region mem.bytes other.bytes) :
    Live other addr (mem.word addr) (mem.word (addr + 8)) := by
  apply outside.live.congr
  have same := cells_same agree outside.header
  rwa [Nat.add_sub_cancel_left] at same

theorem content_same (outside : LiveOutside mem region addr)
    (agree : AgreeOutside region mem.bytes other.bytes) :
    bytesAt other.bytes (mem.word addr) (contentAt mem addr).length = contentAt mem addr := by
  rw [outside.length_content, bytesAt, cells_same agree outside.data, contentAt, bytesAt,
    outside.size_eq]

end LiveOutside

/-- Behind a trap the loop changes nothing about it. -/
theorem saveArg_trapped {scratch : Nat} {args : List (Nat × Nat)} {pass : ActorHeap.Pass}
    (trapped : pass.heap.trapped = true) :
    (args.foldl (ActorHeap.saveArg scratch) pass).heap.trapped = true := by
  induction args generalizing pass with
  | nil => exact trapped
  | cons arg args induction =>
      rw [List.foldl_cons]
      apply induction
      exact copyBytes_trapped trapped _ _ _ _ _

/-- The arguments with the sizes that their headers give. -/
def sized (mem : ByteMem) (args : List Nat) : List (Nat × Nat) :=
  args.map fun arg => (arg, (contentAt mem arg).length)

def contents (mem : ByteMem) (args : List Nat) : List Nat := (args.map (contentAt mem)).flatten

/-- The arguments' bytes arrive one behind the other in the scratch buffer, and nothing else is
written. -/
theorem saveArgs_spec {original : ByteMem} {block : RawBlock} (sound : SoundBlock block)
    {base : Nat → Nat} (agree : AgreeOutside block.space original.bytes base)
    (headed : cellsFrom base block.addr 16 = headerBytes block.start block.stop) {args : List Nat}
    (outside : ∀ arg ∈ args, LiveOutside original block.space arg) {pass : ActorHeap.Pass}
    {saved : List Nat} (isCursor : pass.cursor = saved.length)
    (fits : block.start + saved.length ≤ block.stop)
    (isSaved : pass.heap.mem.bytes = Patch.lay base ⟨block.start, saved⟩)
    (runs : ((sized original args).foldl (ActorHeap.saveArg block.addr) pass).heap.trapped = false) :
    block.start + (saved ++ contents original args).length ≤ block.stop ∧
      ∃ mem, ((sized original args).foldl (ActorHeap.saveArg block.addr) pass).heap =
          { pass.heap with mem := mem } ∧
        mem.bytes = Patch.lay base ⟨block.start, saved ++ contents original args⟩ := by
  induction args generalizing pass saved with
  | nil =>
      have noMore : saved ++ contents original [] = saved := List.append_nil saved
      rw [noMore]
      exact ⟨fits, pass.heap.mem, rfl, isSaved⟩
  | cons arg args induction =>
      rw [List.forall_mem_cons] at outside
      rcases outside with ⟨first, later⟩
      have below := sound.below
      have more : saved ++ contents original (arg :: args) =
          (saved ++ contentAt original arg) ++ contents original args := by
        rw [contents, List.map_cons, List.flatten_cons, List.append_assoc]
        rfl
      have agreeNow : AgreeOutside block.space original.bytes pass.heap.mem.bytes := by
        intro address notIn
        rw [isSaved, lay_outside, agree address notIn]
        intro inPatch
        apply notIn
        apply sound.data.mem
        rw [Patch.region, Region.mem_mk] at inPatch
        exact ⟨inPatch.1, Nat.lt_of_lt_of_le inPatch.2 fits⟩
      have isSrc := first.live_same agreeNow
      have isDst : Live pass.heap.mem block.addr block.start block.stop := by
        apply Live.of_cells sound.inHalf sound.ordered sound.below
        rw [isSaved, cellsFrom_lay_apart, headed]
        apply (sound.beside.symm.within _).symm
        exact ⟨Nat.le_refl _, fits⟩
      have apart : Region.Apart ⟨original.word arg, original.word (arg + 8)⟩
          ⟨block.start, block.stop⟩ := (first.data.symm.within sound.data).symm
      have lenBelow := isSrc.below
      have isLen := first.length_content
      have smallLen : (contentAt original arg).length < 2 ^ 48 := by omega
      have smallOff : pass.cursor < 2 ^ 48 := by omega
      have noTrap : (pass.heap.copyBytes block.addr pass.cursor arg 0
          (contentAt original arg).length).trapped = false := by
        by_contra trapped
        rw [Bool.not_eq_false] at trapped
        have stays := @saveArg_trapped block.addr (sized original args)
          (ActorHeap.saveArg block.addr pass (arg, (contentAt original arg).length)) trapped
        rw [sized, List.map_cons, List.foldl_cons] at runs
        exact Bool.false_ne_true (runs.symm.trans stays)
      rcases copyBytes_spec isDst isSrc apart smallOff (by omega) smallLen noTrap with
        ⟨dstFits, -, mem, copied, written⟩
      rw [isCursor] at written dstFits
      rw [Nat.add_zero, first.content_same agreeNow, isSaved, lay_lay] at written
      rw [more]
      have nextCursor : iadd pass.cursor (contentAt original arg).length =
          (saved ++ contentAt original arg).length := by
        rw [List.length_append, isCursor, iadd_eq]
        omega
      have nextFits : block.start + (saved ++ contentAt original arg).length ≤ block.stop := by
        rw [List.length_append]
        omega
      have onward := @induction later
        (ActorHeap.saveArg block.addr pass (arg, (contentAt original arg).length))
        (saved ++ contentAt original arg) nextCursor nextFits
      have sameHeap : (ActorHeap.saveArg block.addr pass (arg, (contentAt original arg).length)).heap =
          { pass.heap with mem := mem } := copied
      rw [sameHeap] at onward
      exact onward written runs

/-! ## New buffers -/

/-- What is in use lies apart from what the arena has left and from the blocks that
`rt_allocate_raw` will give. -/
structure Fresh (arena : Option Arena) (raw : List RawBlock) (taken : List Region) : Prop where
  arenaFits : ∀ own ∈ arena, own.bump ≤ own.stop ∧ own.stop < 2 ^ 47
  blocks : ∀ block ∈ raw, SoundBlock block
  arenaBlocks : ∀ own ∈ arena, ∀ block ∈ raw, Region.Apart ⟨own.bump, own.stop⟩ block.space
  between : raw.Pairwise fun block later => block.space.Apart later.space
  takenArena : ∀ region ∈ taken, ∀ own ∈ arena, region.Apart ⟨own.bump, own.stop⟩
  takenBlocks : ∀ region ∈ taken, ∀ block ∈ raw, region.Apart block.space

/-- A buffer of the arena as a block. -/
def carved (bump next size : Nat) : RawBlock where
  addr := bump
  start := bump + 16
  stop := bump + 16 + size
  space := ⟨bump, next⟩
  written := []
  freed := []

/-- The block that a request is given, and what is left. -/
def granted (arena : Option Arena) (raw : List RawBlock) (size : Nat) :
    Option (RawBlock × Option Arena × List RawBlock) :=
  match arena.bind (Arena.carve · size) with
  | some (bump, own) => some (carved bump own.bump size, some own, raw)
  | none =>
      match raw with
      | [] => none
      | block :: raw => some (block, arena, raw)

/-- The writes of an allocation: those of the allocator and the header. -/
def allocation (block : RawBlock) : List (Patch Nat) :=
  block.written ++ [⟨block.addr, headerBytes block.start block.stop⟩]

theorem carve_spec {own next : Arena} {size bump : Nat} (small : size < 2 ^ 48)
    (ordered : own.bump ≤ own.stop) (below : own.stop < 2 ^ 47)
    (carves : own.carve size = some (bump, next)) :
    bump = own.bump ∧ next.stop = own.stop ∧
      own.bump + 16 + size ≤ next.bump ∧ next.bump ≤ own.stop := by
  have low := lt_alignDown_add (size + 7) (by decide : 0 < 8)
  have high := alignDown_le (size + 7) 8
  have padded : iadd size 7 = size + 7 := iadd_eq (by omega)
  have needed : iadd (alignDown (size + 7) 8) 16 = alignDown (size + 7) 8 + 16 := iadd_eq (by omega)
  have behind : iadd own.bump (alignDown (size + 7) 8 + 16) =
      own.bump + (alignDown (size + 7) 8 + 16) := iadd_eq (by omega)
  rw [Arena.carve, padded, needed, behind] at carves
  split at carves
  · rename_i fits
    cases carves
    exact ⟨rfl, rfl, by dsimp only; omega, fits⟩
  · cases carves

theorem sound_carved {bump next size : Nat} (inside : bump + 16 + size ≤ next) (below : next < 2 ^ 47) :
    SoundBlock (carved bump next size) := by
  constructor
  · change bump + 16 ≤ 2 ^ 47
    omega
  · exact Nat.le_add_right _ _
  · change bump + 16 + size < 2 ^ 47
    omega
  · constructor
    · exact Nat.le_refl _
    · change bump + 16 ≤ next
      omega
  · constructor
    · change bump ≤ bump + 16
      omega
    · exact inside
  · exact .inl (Nat.le_refl _)
  · exact List.forall_mem_nil _
  · exact List.forall_mem_nil _

/-- Behind the next block of `rt_allocate_raw`, with the block in use. -/
theorem Fresh.next {arena : Option Arena} {raw : List RawBlock} {taken : List Region} {block : RawBlock}
    (fresh : Fresh arena (block :: raw) taken) : Fresh arena raw (block.space :: taken) := by
  have between := List.pairwise_cons.mp fresh.between
  constructor
  · exact fresh.arenaFits
  · intro later member
    exact fresh.blocks later (List.mem_cons_of_mem _ member)
  · intro own isOwn later member
    exact fresh.arenaBlocks own isOwn later (List.mem_cons_of_mem _ member)
  · exact between.2
  · intro region member own isOwn
    rcases List.mem_cons.mp member with rfl | earlier
    · exact (fresh.arenaBlocks own isOwn _ List.mem_cons_self).symm
    · exact fresh.takenArena region earlier own isOwn
  · intro region member later isLater
    rcases List.mem_cons.mp member with rfl | earlier
    · exact between.1 later isLater
    · exact fresh.takenBlocks region earlier later (List.mem_cons_of_mem _ isLater)

/-- A granted block is sound and apart from all that is in use, and what is left stays apart
from both. -/
theorem granted_spec {arena left : Option Arena} {raw others : List RawBlock} {taken : List Region}
    {size : Nat} {block : RawBlock} (fresh : Fresh arena raw taken) (small : size < 2 ^ 48)
    (grants : granted arena raw size = some (block, left, others)) :
    SoundBlock block ∧ (∀ region ∈ taken, region.Apart block.space) ∧
      Fresh left others (block.space :: taken) := by
  unfold granted at grants
  split at grants
  · rename_i bump own carves
    cases grants
    rcases Option.bind_eq_some_iff.mp carves with ⟨whole, isOwn, carves⟩
    have fits := fresh.arenaFits whole isOwn
    rcases carve_spec small fits.1 fits.2 carves with ⟨rfl, stop, inside, within⟩
    have part : Region.Within ⟨own.bump, own.stop⟩ ⟨whole.bump, whole.stop⟩ := by
      rw [stop]
      exact ⟨by dsimp only; omega, Nat.le_refl _⟩
    have front : Region.Within ⟨whole.bump, own.bump⟩ ⟨whole.bump, whole.stop⟩ :=
      ⟨Nat.le_refl _, within⟩
    refine ⟨sound_carved inside (by omega), ?_, ?_⟩
    · intro region member
      exact ((fresh.takenArena region member whole isOwn).symm.within front).symm
    · constructor
      · intro other isOther
        cases isOther
        rw [stop]
        exact ⟨within, fits.2⟩
      · exact fresh.blocks
      · intro other isOther later member
        cases isOther
        exact (fresh.arenaBlocks whole isOwn later member).within part
      · exact fresh.between
      · intro region member other isOther
        cases isOther
        rcases List.mem_cons.mp member with rfl | earlier
        · exact .inl (Nat.le_refl _)
        · exact ((fresh.takenArena region earlier whole isOwn).symm.within part).symm
      · intro region member later isLater
        rcases List.mem_cons.mp member with rfl | earlier
        · exact (fresh.arenaBlocks whole isOwn later isLater).within front
        · exact fresh.takenBlocks region earlier later isLater
  · split at grants
    · cases grants
    · cases grants
      refine ⟨fresh.blocks _ List.mem_cons_self, ?_, fresh.next⟩
      intro region member
      exact fresh.takenBlocks region member _ List.mem_cons_self

/-- An allocation outside the arena gives the next block. -/
theorem allocateRaw_spec {heap : ActorHeap} {block : RawBlock} {others : List RawBlock} {size : Nat}
    (isRaw : heap.raw = block :: others) (sound : SoundBlock block)
    (runs : (heap.allocateRaw size).2.trapped = false) :
    block.start + size ≤ block.stop ∧
      ∃ mem, heap.allocateRaw size = (block.addr, ⟨mem, heap.arena, others, heap.trapped⟩) ∧
        mem.bytes = Patch.layAll heap.mem.bytes (allocation block) := by
  have inHalf := sound.inHalf
  have noWrap : block.addr + 16 ≤ 2 ^ 64 := by omega
  rw [ActorHeap.allocateRaw, isRaw] at runs ⊢
  dsimp only at runs ⊢
  by_cases fits : block.start + size ≤ block.stop
  · rw [if_pos fits]
    refine ⟨fits, _, rfl, ?_⟩
    rw [allocation, layAll_append]
    exact @bytes_writeHeader block.addr
      { heap with raw := others, mem := heap.mem.overwrite block.written } _ _ noWrap
  · rw [if_neg fits] at runs
    cases runs

/-- An allocation that does not trap gives the block that the request is granted. -/
theorem arenaAlloc_spec {heap : ActorHeap} {taken : List Region} {size : Nat}
    (fresh : Fresh heap.arena heap.raw taken) (small : size < 2 ^ 48)
    (runs : (heap.arenaAlloc size).2.trapped = false) :
    ∃ block left others mem, granted heap.arena heap.raw size = some (block, left, others) ∧
      block.start + size ≤ block.stop ∧
      heap.arenaAlloc size = (block.addr, ⟨mem, left, others, heap.trapped⟩) ∧
      mem.bytes = Patch.layAll heap.mem.bytes (allocation block) := by
  cases carves : heap.arena.bind (Arena.carve · size) with
  | some pair =>
      rcases pair with ⟨bump, own⟩
      rcases Option.bind_eq_some_iff.mp carves with ⟨whole, isOwn, isCarved⟩
      have fits := fresh.arenaFits whole isOwn
      rcases carve_spec small fits.1 fits.2 isCarved with ⟨rfl, stop, inside, within⟩
      have first : iadd whole.bump 16 = whole.bump + 16 := iadd_eq (by omega)
      have last : iadd (whole.bump + 16) size = whole.bump + 16 + size := iadd_eq (by omega)
      have allocates : heap.arenaAlloc size = (whole.bump,
          { heap with arena := some own }.writeHeader whole.bump (whole.bump + 16)
            (whole.bump + 16 + size)) := by
        rw [ActorHeap.arenaAlloc, carves]
        dsimp only
        rw [first, last]
      have noWrap : whole.bump + 16 ≤ 2 ^ 64 := by omega
      refine ⟨carved whole.bump own.bump size, some own, heap.raw, _, ?_, Nat.le_refl _, allocates, ?_⟩
      · unfold granted
        rw [carves]
      · exact @bytes_writeHeader whole.bump { heap with arena := some own } _ _ noWrap
  | none =>
      have falls : heap.arenaAlloc size = heap.allocateRaw size := by
        rw [ActorHeap.arenaAlloc, carves]
      rw [falls] at runs ⊢
      cases isRaw : heap.raw with
      | nil =>
          rw [ActorHeap.allocateRaw, isRaw] at runs
          cases runs
      | cons block others =>
          have sound := fresh.blocks block (isRaw ▸ List.mem_cons_self)
          rcases allocateRaw_spec isRaw sound runs with ⟨fits, mem, allocates, isMem⟩
          refine ⟨block, heap.arena, others, mem, ?_, fits, allocates, isMem⟩
          unfold granted
          rw [carves]

/-! ## Copying back -/

/-- The blocks that requests of these sizes are granted, one after the other. -/
def places : Option Arena → List RawBlock → List Nat → List RawBlock
  | _, _, [] => []
  | arena, raw, size :: sizes =>
      match granted arena raw size with
      | some (block, arena, raw) => block :: places arena raw sizes
      | none => []

/-- The content fits into the block. -/
def FitsIn (block : RawBlock) (content : List Nat) : Prop :=
  block.start + content.length ≤ block.stop

/-- The writes of an allocation that is then filled. -/
def filled (block : RawBlock) (content : List Nat) : List (Patch Nat) :=
  allocation block ++ [⟨block.start, content⟩]

/-- The writes of copies of these bytes. -/
def copyPatches (arena : Option Arena) (raw : List RawBlock) (pieces : List (List Nat)) :
    List (Patch Nat) :=
  (List.zipWith filled (places arena raw (pieces.map List.length)) pieces).flatten

theorem places_cons {arena left : Option Arena} {raw others : List RawBlock} {size : Nat}
    {block : RawBlock} (grants : granted arena raw size = some (block, left, others)) (sizes : List Nat) :
    places arena raw (size :: sizes) = block :: places left others sizes := by
  rw [places, grants]

theorem copyPatches_cons {arena left : Option Arena} {raw others : List RawBlock} {piece : List Nat}
    {block : RawBlock} (grants : granted arena raw piece.length = some (block, left, others))
    (pieces : List (List Nat)) :
    copyPatches arena raw (piece :: pieces) = filled block piece ++ copyPatches left others pieces := by
  rw [copyPatches, List.map_cons, places_cons grants, List.zipWith_cons_cons, List.flatten_cons,
    copyPatches]

/-- The copies' blocks are sound and apart from one another and from all that was in use. -/
theorem places_spec {arena : Option Arena} {raw : List RawBlock} {taken : List Region}
    (fresh : Fresh arena raw taken) {sizes : List Nat} (small : ∀ size ∈ sizes, size < 2 ^ 48) :
    (∀ block ∈ places arena raw sizes, SoundBlock block ∧
      ∀ region ∈ taken, region.Apart block.space) ∧
    (places arena raw sizes).Pairwise fun block later => block.space.Apart later.space := by
  induction sizes generalizing arena raw taken with
  | nil => exact ⟨List.forall_mem_nil _, .nil⟩
  | cons size sizes induction =>
      rw [List.forall_mem_cons] at small
      cases grants : granted arena raw size with
      | none =>
          rw [places, grants]
          exact ⟨List.forall_mem_nil _, .nil⟩
      | some result =>
          rcases result with ⟨block, left, others⟩
          rcases granted_spec fresh small.1 grants with ⟨sound, apart, stillFresh⟩
          rcases induction stillFresh small.2 with ⟨later, between⟩
          rw [places_cons grants]
          constructor
          · rw [List.forall_mem_cons]
            refine ⟨⟨sound, apart⟩, ?_⟩
            intro other member
            refine ⟨(later other member).1, ?_⟩
            intro region inUse
            exact (later other member).2 region (List.mem_cons_of_mem _ inUse)
          · rw [List.pairwise_cons]
            refine ⟨?_, between⟩
            intro other member
            exact (later other member).2 block.space List.mem_cons_self

theorem allocation_within {block : RawBlock} (sound : SoundBlock block) :
    ∀ patch ∈ allocation block, patch.region.Within block.space := by
  intro patch member
  rcases List.mem_append.mp member with written | header
  · exact sound.written patch written
  · rw [List.mem_singleton.mp header, Patch.region, length_headerBytes]
    exact sound.header

theorem headed_allocation (bytes : Nat → Nat) (block : RawBlock) :
    cellsFrom (Patch.layAll bytes (allocation block)) block.addr 16 =
      headerBytes block.start block.stop := by
  rw [allocation, layAll_append, layAll_cons, layAll_nil]
  have header := cellsFrom_lay_self (Patch.layAll bytes block.written)
    ⟨block.addr, headerBytes block.start block.stop⟩
  rwa [length_headerBytes] at header

theorem allocateRaw_trapped {heap : ActorHeap} (trapped : heap.trapped = true) (size : Nat) :
    (heap.allocateRaw size).2.trapped = true := by
  unfold ActorHeap.allocateRaw
  split
  · rfl
  · split
    · exact trapped
    · rfl

theorem arenaAlloc_trapped {heap : ActorHeap} (trapped : heap.trapped = true) (size : Nat) :
    (heap.arenaAlloc size).2.trapped = true := by
  unfold ActorHeap.arenaAlloc
  split
  · exact trapped
  · exact allocateRaw_trapped trapped size

theorem restoreArg_trapped {scratch : Nat} {sizes : List Nat} {pass : ActorHeap.Pass}
    (trapped : pass.heap.trapped = true) :
    (sizes.foldl (ActorHeap.restoreArg scratch) pass).heap.trapped = true := by
  induction sizes generalizing pass with
  | nil => exact trapped
  | cons size sizes induction =>
      rw [List.foldl_cons]
      apply induction
      exact copyBytes_trapped (arenaAlloc_trapped trapped _) _ _ _ _ _

/-- A copy of bytes that are in memory is these bytes. -/
theorem bytesAt_held {bytes : Nat → Nat} {first : Nat} {done piece rest : List Nat}
    (small : ∀ byte ∈ piece, byte < 256)
    (held : cellsFrom bytes first (done ++ (piece ++ rest)).length = done ++ (piece ++ rest)) :
    bytesAt bytes (first + done.length) piece.length = piece := by
  have part : cellsFrom bytes (first + done.length) piece.length = piece := by
    rw [@cellsFrom_part _ _ _ (done ++ (piece ++ rest)).length, held,
      List.drop_left' rfl, List.take_left' rfl]
    simp
  rw [bytesAt, part, map_mod small]

/-- The copies arrive in the blocks that their sizes are granted, and nothing else is written. -/
theorem restoreArgs_spec {scratch : RawBlock} (sound : SoundBlock scratch) {all : List Nat}
    (allSmall : ∀ byte ∈ all, byte < 256) (fits : scratch.start + all.length ≤ scratch.stop)
    {pieces : List (List Nat)} {done : List Nat} (isAll : done ++ pieces.flatten = all)
    {pass : ActorHeap.Pass} (isCursor : pass.cursor = done.length) {taken : List Region}
    (fresh : Fresh pass.heap.arena pass.heap.raw taken) (isTaken : scratch.space ∈ taken)
    (headed : cellsFrom pass.heap.mem.bytes scratch.addr 16 = headerBytes scratch.start scratch.stop)
    (held : cellsFrom pass.heap.mem.bytes scratch.start all.length = all)
    (runs : ((pieces.map List.length).foldl (ActorHeap.restoreArg scratch.addr) pass).heap.trapped = false) :
    ((pieces.map List.length).foldl (ActorHeap.restoreArg scratch.addr) pass).copies =
        pass.copies ++ (places pass.heap.arena pass.heap.raw (pieces.map List.length)).map RawBlock.addr ∧
      ((pieces.map List.length).foldl (ActorHeap.restoreArg scratch.addr) pass).heap.mem.bytes =
        Patch.layAll pass.heap.mem.bytes (copyPatches pass.heap.arena pass.heap.raw pieces) ∧
      List.Forall₂ FitsIn (places pass.heap.arena pass.heap.raw (pieces.map List.length)) pieces := by
  induction pieces generalizing done pass taken with
  | nil => exact ⟨(List.append_nil _).symm, rfl, .nil⟩
  | cons piece pieces induction =>
      subst isAll
      rw [List.flatten_cons] at allSmall fits held
      rw [List.map_cons, List.foldl_cons] at runs ⊢
      have scratchBelow := sound.below
      have lengths : (done ++ (piece ++ pieces.flatten)).length =
          done.length + piece.length + pieces.flatten.length := by
        rw [List.length_append, List.length_append, Nat.add_assoc]
      have small : piece.length < 2 ^ 48 := by omega
      have smallOff : pass.cursor < 2 ^ 48 := by omega
      have noTrap : (ActorHeap.restoreArg scratch.addr pass piece.length).heap.trapped = false := by
        by_contra trapped
        rw [Bool.not_eq_false] at trapped
        exact Bool.false_ne_true (runs.symm.trans (restoreArg_trapped trapped))
      have allocates : (pass.heap.arenaAlloc piece.length).2.trapped = false := by
        by_contra trapped
        rw [Bool.not_eq_false] at trapped
        exact Bool.false_ne_true (noTrap.symm.trans (copyBytes_trapped trapped _ _ _ _ _))
      rcases arenaAlloc_spec fresh small allocates with
        ⟨block, left, others, mem, grants, inBlock, isBlock, isMem⟩
      rcases granted_spec fresh small grants with ⟨soundBlock, apart, stillFresh⟩
      have scratchApart := apart scratch.space isTaken
      have unwritten : ∀ patches : List (Patch Nat), (∀ patch ∈ patches, patch.region.Within block.space) →
          ∀ bytes first count, Region.Within ⟨first, first + count⟩ scratch.space →
            cellsFrom (Patch.layAll bytes patches) first count = cellsFrom bytes first count := by
        intro patches within bytes first count inScratch
        apply cellsFrom_layAll_apart
        intro patch member
        exact ((scratchApart.within inScratch).symm.within (within patch member)).symm
      have headerKept : cellsFrom mem.bytes scratch.addr 16 = headerBytes scratch.start scratch.stop := by
        rw [isMem, unwritten _ (allocation_within soundBlock) _ _ _ sound.header, headed]
      have inScratch : Region.Within ⟨scratch.start, scratch.start +
          (done ++ (piece ++ pieces.flatten)).length⟩ scratch.space :=
        ⟨sound.data.1, Nat.le_trans fits sound.data.2⟩
      have heldNow : cellsFrom mem.bytes scratch.start (done ++ (piece ++ pieces.flatten)).length =
          done ++ (piece ++ pieces.flatten) := by
        rw [isMem, unwritten _ (allocation_within soundBlock) _ _ _ inScratch, held]
      have blockHeader : cellsFrom mem.bytes block.addr 16 = headerBytes block.start block.stop := by
        rw [isMem, headed_allocation]
      have isDst : Live mem block.addr block.start block.stop :=
        Live.of_cells soundBlock.inHalf soundBlock.ordered soundBlock.below blockHeader
      have isSrc : Live mem scratch.addr scratch.start scratch.stop :=
        Live.of_cells sound.inHalf sound.ordered sound.below headerKept
      have dataApart : Region.Apart ⟨scratch.start, scratch.stop⟩ ⟨block.start, block.stop⟩ :=
        ((scratchApart.within sound.data).symm.within soundBlock.data).symm
      have isHeap : (ActorHeap.restoreArg scratch.addr pass piece.length).heap =
          (ActorHeap.mk mem left others pass.heap.trapped).copyBytes block.addr 0 scratch.addr
            pass.cursor piece.length := by
        rw [ActorHeap.restoreArg, isBlock]
      have isCopy : (ActorHeap.restoreArg scratch.addr pass piece.length).copies =
          pass.copies ++ [block.addr] := by
        rw [ActorHeap.restoreArg, isBlock]
      rw [isHeap] at noTrap
      rcases @copyBytes_spec ⟨mem, left, others, pass.heap.trapped⟩ _ _ _ _ _ _ isDst isSrc dataApart
        0 pass.cursor piece.length (by omega) smallOff small noTrap with ⟨-, -, copied, isCopied, written⟩
      have pieceSmall : ∀ byte ∈ piece, byte < 256 := by
        intro byte member
        apply allSmall
        exact List.mem_append_right _ (List.mem_append_left _ member)
      have isFilled : copied.bytes = Patch.layAll pass.heap.mem.bytes (filled block piece) := by
        rw [written, Nat.add_zero, isCursor]
        change Patch.lay mem.bytes ⟨block.start, bytesAt mem.bytes _ _⟩ = _
        rw [bytesAt_held pieceSmall heldNow, isMem, filled, layAll_append, layAll_cons, layAll_nil]
      rw [isCopied] at isHeap
      have nextCursor : (ActorHeap.restoreArg scratch.addr pass piece.length).cursor =
          (done ++ piece).length := by
        rw [List.length_append, ← isCursor]
        exact iadd_eq (by omega)
      generalize ActorHeap.restoreArg scratch.addr pass piece.length = next at *
      rcases next with ⟨cursor, heap, copies⟩
      dsimp only at isHeap isCopy nextCursor runs
      subst isHeap isCopy
      have filledWithin : ∀ patch ∈ filled block piece, patch.region.Within block.space := by
        intro patch member
        rcases List.mem_append.mp member with allocated | content
        · exact allocation_within soundBlock patch allocated
        · rw [List.mem_singleton.mp content]
          exact ⟨soundBlock.data.1, Nat.le_trans inBlock soundBlock.data.2⟩
      have headedNext : cellsFrom copied.bytes scratch.addr 16 =
          headerBytes scratch.start scratch.stop := by
        rw [isFilled, unwritten _ filledWithin _ _ _ sound.header, headed]
      have heldNext : cellsFrom copied.bytes scratch.start (done ++ (piece ++ pieces.flatten)).length =
          done ++ (piece ++ pieces.flatten) := by
        rw [isFilled, unwritten _ filledWithin _ _ _ inScratch, held]
      rcases @induction (done ++ piece) (List.append_assoc _ _ _)
        ⟨cursor, ⟨copied, left, others, pass.heap.trapped⟩, pass.copies ++ [block.addr]⟩ nextCursor
        _ stillFresh (List.mem_cons_of_mem _ isTaken) headedNext heldNext runs with
        ⟨copies, bytes, inBlocks⟩
      rw [places_cons grants, copyPatches_cons grants, layAll_append, ← isFilled]
      refine ⟨?_, bytes, .cons inBlock inBlocks⟩
      rw [copies, List.map_cons, List.append_assoc]
      rfl

/-! ## The whole transition -/

/-- What a transition relies on: the arguments that it copies are live, and the blocks that it
will be given are apart from them and from the arena. -/
structure Ready (heap : ActorHeap) (args : List Nat) : Prop where
  fresh : Fresh (heap.arena.map Arena.reset) heap.raw []
  live : ∀ arg ∈ args, ∀ block ∈ heap.raw, LiveOutside heap.mem block.space arg

/-- The blocks of the copies. -/
def copyBlocks (heap : ActorHeap) (args : List Nat) : List RawBlock :=
  places (heap.arena.map Arena.reset) heap.raw.tail
    ((args.map (contentAt heap.mem)).map List.length)

/-- The blocks that a transition is given: the one of the scratch buffer and those of the copies. -/
def recopyBlocks (heap : ActorHeap) (args : List Nat) : List RawBlock :=
  heap.raw.head?.toList ++ copyBlocks heap args

/-- All that a transition writes: to the scratch buffer, to the copies and, when the scratch
buffer is freed, to its block again. -/
def recopyPatches (heap : ActorHeap) (args : List Nat) : List (Patch Nat) :=
  (List.zipWith filled (recopyBlocks heap args)
      (contents heap.mem args :: args.map (contentAt heap.mem))).flatten ++
    (heap.raw.head?.map RawBlock.freed).getD []

theorem bytes_contents_lt (mem : ByteMem) (args : List Nat) : ∀ byte ∈ contents mem args, byte < 256 := by
  intro byte member
  rcases List.mem_flatten.mp member with ⟨piece, isPiece, inPiece⟩
  rcases List.mem_map.mp isPiece with ⟨arg, -, rfl⟩
  rcases List.mem_map.mp inPiece with ⟨value, -, rfl⟩
  exact Nat.mod_lt _ (by decide)

theorem sizeAt_eq (heap : ActorHeap) (arg : Nat) : heap.sizeAt arg = (contentAt heap.mem arg).length := by
  rw [contentAt, length_bytesAt, ActorHeap.sizeAt]

theorem sizes_eq (heap : ActorHeap) (args : List Nat) :
    args.map heap.sizeAt = (args.map (contentAt heap.mem)).map List.length := by
  rw [List.map_map]
  apply List.map_congr_left
  intro arg _
  rw [Function.comp_apply, sizeAt_eq]

theorem zip_sizes (heap : ActorHeap) (args : List Nat) :
    args.zip (args.map heap.sizeAt) = sized heap.mem args := by
  rw [← List.map_prod_left_eq_zip]
  apply List.map_congr_left
  intro arg _
  rw [sizeAt_eq]

/-- The loops of a transition, once the scratch buffer is allocated. -/
theorem recopy_eq {heap after : ActorHeap} {args : List Nat} {scratch : Nat}
    (allocates : heap.allocateRaw ((args.map heap.sizeAt).foldl iadd 0) = (scratch, after)) :
    heap.recopy args =
      ((((args.map (contentAt heap.mem)).map List.length).foldl (ActorHeap.restoreArg scratch)
          ⟨0, ((sized heap.mem args).foldl (ActorHeap.saveArg scratch) ⟨0, after, []⟩).heap.resetArena,
            []⟩).copies,
        { (((args.map (contentAt heap.mem)).map List.length).foldl (ActorHeap.restoreArg scratch)
            ⟨0, ((sized heap.mem args).foldl (ActorHeap.saveArg scratch) ⟨0, after, []⟩).heap.resetArena,
              []⟩).heap with
          mem := (((args.map (contentAt heap.mem)).map List.length).foldl (ActorHeap.restoreArg scratch)
            ⟨0, ((sized heap.mem args).foldl (ActorHeap.saveArg scratch) ⟨0, after, []⟩).heap.resetArena,
              []⟩).heap.mem.overwrite ((heap.raw.head?.map RawBlock.freed).getD []) }) := by
  rw [← sizes_eq, ← zip_sizes, ActorHeap.recopy, allocates]

theorem agree_allocation {block : RawBlock} (sound : SoundBlock block) (bytes : Nat → Nat) :
    AgreeOutside block.space bytes (Patch.layAll bytes (allocation block)) := by
  intro address notIn
  apply layAll_outside
  intro patch member inPatch
  exact notIn ((allocation_within sound patch member).mem inPatch)

theorem loops_run {heap after : ActorHeap} {args : List Nat} {scratch : Nat}
    (allocates : heap.allocateRaw ((args.map heap.sizeAt).foldl iadd 0) = (scratch, after))
    (runs : (heap.recopy args).2.trapped = false) :
    ((sized heap.mem args).foldl (ActorHeap.saveArg scratch) ⟨0, after, []⟩).heap.trapped = false ∧
      after.trapped = false := by
  rw [recopy_eq allocates] at runs
  have saved : ((sized heap.mem args).foldl (ActorHeap.saveArg scratch) ⟨0, after, []⟩).heap.trapped =
      false := by
    by_contra trapped
    rw [Bool.not_eq_false] at trapped
    exact Bool.false_ne_true (runs.symm.trans (restoreArg_trapped trapped))
  refine ⟨saved, ?_⟩
  by_contra trapped
  rw [Bool.not_eq_false] at trapped
  exact Bool.false_ne_true (saved.symm.trans (saveArg_trapped trapped))

/-- A transition that does not trap is given a block for its scratch buffer. -/
theorem exists_scratch {heap : ActorHeap} {args : List Nat}
    (runs : (heap.recopy args).2.trapped = false) : ∃ scratch raw, heap.raw = scratch :: raw := by
  rcases allocates : heap.allocateRaw ((args.map heap.sizeAt).foldl iadd 0) with ⟨addr, after⟩
  have afterRuns := (loops_run allocates runs).2
  cases isRaw : heap.raw with
  | nil =>
      rw [ActorHeap.allocateRaw, isRaw] at allocates
      cases allocates
      cases afterRuns
  | cons scratch raw => exact ⟨scratch, raw, rfl⟩

/-- A transition that does not trap leaves the copies in the blocks that their sizes are granted,
and writes nothing but these patches. -/
theorem recopy_spec {heap : ActorHeap} {args : List Nat} (ready : Ready heap args)
    (runs : (heap.recopy args).2.trapped = false) :
    (heap.recopy args).1 = (copyBlocks heap args).map RawBlock.addr ∧
      (heap.recopy args).2.mem.bytes = Patch.layAll heap.mem.bytes (recopyPatches heap args) ∧
      List.Forall₂ FitsIn (recopyBlocks heap args)
        (contents heap.mem args :: args.map (contentAt heap.mem)) := by
  rcases exists_scratch runs with ⟨scratch, raw, isRaw⟩
  rcases allocates : heap.allocateRaw ((args.map heap.sizeAt).foldl iadd 0) with ⟨addr, after⟩
  rcases loops_run allocates runs with ⟨savedRuns, afterRuns⟩
  rw [recopy_eq allocates] at runs ⊢
  dsimp only at runs ⊢
  have fresh := ready.fresh
  rw [isRaw] at fresh
  have sound := fresh.blocks scratch List.mem_cons_self
  have outside : ∀ arg ∈ args, LiveOutside heap.mem scratch.space arg := by
    intro arg member
    apply ready.live arg member scratch
    rw [isRaw]
    exact List.mem_cons_self
  have isAfter := allocateRaw_spec isRaw sound ((congrArg (·.2.trapped) allocates).trans afterRuns)
  rcases isAfter with ⟨-, mem, isAllocated, isMem⟩
  rw [allocates] at isAllocated
  cases isAllocated
  rcases @saveArgs_spec heap.mem scratch sound _ (agree_allocation sound heap.mem.bytes)
    (headed_allocation heap.mem.bytes scratch) args outside
    ⟨0, ⟨mem, heap.arena, raw, heap.trapped⟩, []⟩ [] rfl sound.ordered
    (by rw [lay_nil]; exact isMem) savedRuns with ⟨fits, savedMem, isSaved, savedBytes⟩
  rw [List.nil_append] at fits savedBytes
  rw [isSaved] at runs ⊢
  have headed : cellsFrom savedMem.bytes scratch.addr 16 = headerBytes scratch.start scratch.stop := by
    rw [savedBytes, cellsFrom_lay_apart, headed_allocation]
    apply (sound.beside.symm.within _).symm
    exact ⟨Nat.le_refl _, fits⟩
  have held : cellsFrom savedMem.bytes scratch.start (contents heap.mem args).length =
      contents heap.mem args := by
    rw [savedBytes]
    exact cellsFrom_lay_self _ ⟨scratch.start, contents heap.mem args⟩
  rcases @restoreArgs_spec scratch sound (contents heap.mem args) (bytes_contents_lt _ _) fits
    (args.map (contentAt heap.mem)) [] rfl
    ⟨0, (ActorHeap.mk savedMem heap.arena raw heap.trapped).resetArena, []⟩ rfl
    [scratch.space] fresh.next List.mem_cons_self headed held runs with ⟨copies, bytes, inBlocks⟩
  rw [copyBlocks, recopyPatches, recopyBlocks, copyBlocks, isRaw]
  refine ⟨copies, ?_, .cons fits inBlocks⟩
  change _ = Patch.layAll heap.mem.bytes
    (filled scratch (contents heap.mem args) ++ copyPatches _ raw _ ++ scratch.freed)
  rw [layAll_append, layAll_append, filled, layAll_append, layAll_cons, layAll_nil, ← savedBytes]
  exact congrArg (Patch.layAll · scratch.freed) bytes

end LakeNative.Arenas

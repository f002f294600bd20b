import LakeNative.Library.Transitions
import LakeNative.Arenas.CopiedArguments

/-! # Buffers as strings

The buffers that an actor holds, over all that it does between its transitions and in them, are
strings of bytes that do not share anything: an access changes the one buffer that it writes to,
and a transition passes on what the chosen buffers hold.
-/

namespace LakeNative.Arenas

open LakeNative.Runtime LakeNative.Regions LakeNative.DenseArray LakeNative.Transitions

/-! ## Strings -/

inductive BufferEvent where
  | supply (raw : List RawBlock)
  | alloc (size : Nat)
  | store (index val size offset : Nat)
  | copy (dst dstOff src srcOff len : Nat)
  | pass (picks : List Nat)
  | reset

/-- What each event does to the strings. What a new one holds is not said, and one that is passed
on may be longer than it was, when the arena is used up. -/
inductive StringStep : List (List Nat) → BufferEvent → List (List Nat) → Prop
  | supply {strings} (raw : List RawBlock) : StringStep strings (.supply raw) strings
  | alloc {strings} {size : Nat} {content : List Nat} :
      size ≤ content.length →
      StringStep strings (.alloc size) (strings ++ [content])
  | store {strings} {index val size offset : Nat} {content : List Nat} :
      strings[index]? = some content →
      offset + size ≤ content.length →
      StringStep strings (.store index val size offset)
        (strings.set index (overwritten content offset (lowBytes val size)))
  | copy {strings} {dst dstOff src srcOff len : Nat} {into source : List Nat} :
      strings[dst]? = some into →
      strings[src]? = some source →
      dstOff + len ≤ into.length →
      srcOff + len ≤ source.length →
      StringStep strings (.copy dst dstOff src srcOff len)
        (strings.set dst (overwritten into dstOff ((source.drop srcOff).take len)))
  | pass {strings next} {picks : List Nat} :
      List.Forall₂ (fun pick content => ∃ before, strings[pick]? = some before ∧ before <+: content)
        picks next →
      StringStep strings (.pass picks) next
  | reset {strings} : StringStep strings .reset []

/-! ## Buffers -/

/-- The heap of an actor and the buffers that it holds. -/
structure Holding where
  heap : ActorHeap
  buffers : List Nat

namespace Holding

def strings (held : Holding) : List (List Nat) := held.buffers.map (contentAt held.heap.mem)

end Holding

/-- What a buffer takes of memory. -/
def spaces (mem : ByteMem) (addr : Nat) : List Region :=
  [⟨addr, addr + 16⟩, ⟨mem.word addr, mem.word (addr + 8)⟩]

def inUse (mem : ByteMem) (buffers : List Nat) : List Region := buffers.flatMap (spaces mem)

/-- What the actor does to its buffers, as long as nothing traps: `rt_allocate_raw` is given new
blocks, a buffer is carved off the arena, words and bytes are written to buffers, and a
transition passes some buffers on or none. Offsets and lengths have at most 48 bits, as the
checks of bounds are right for such. -/
inductive BufferStep : Holding → BufferEvent → Holding → Prop
  | supply {held : Holding} {raw : List RawBlock} :
      Fresh held.heap.arena raw (inUse held.heap.mem held.buffers) →
      Fresh (held.heap.arena.map Arena.reset) raw [] →
      BufferStep held (.supply raw) { held with heap := { held.heap with raw := raw } }
  | alloc {held : Holding} {size : Nat} :
      size < 2 ^ 48 →
      (held.heap.arenaAlloc size).2.trapped = false →
      BufferStep held (.alloc size)
        ⟨(held.heap.arenaAlloc size).2, held.buffers ++ [(held.heap.arenaAlloc size).1]⟩
  | store {held : Holding} {index addr val size offset : Nat} :
      held.buffers[index]? = some addr →
      size ≤ 8 →
      offset < 2 ^ 48 →
      (held.heap.store addr val size offset).trapped = false →
      BufferStep held (.store index val size offset)
        { held with heap := held.heap.store addr val size offset }
  | copy {held : Holding} {dst dstAddr dstOff src srcAddr srcOff len : Nat} :
      dst ≠ src →
      held.buffers[dst]? = some dstAddr →
      held.buffers[src]? = some srcAddr →
      dstOff < 2 ^ 48 →
      srcOff < 2 ^ 48 →
      len < 2 ^ 48 →
      (held.heap.copyBytes dstAddr dstOff srcAddr srcOff len).trapped = false →
      BufferStep held (.copy dst dstOff src srcOff len)
        { held with heap := held.heap.copyBytes dstAddr dstOff srcAddr srcOff len }
  | pass {held : Holding} {picks args : List Nat} :
      picks ≠ [] →
      List.Forall₂ (fun pick arg => held.buffers[pick]? = some arg) picks args →
      (held.heap.recopy args).2.trapped = false →
      BufferStep held (.pass picks) ⟨(held.heap.recopy args).2, (held.heap.recopy args).1⟩
  | reset {held : Holding} : BufferStep held .reset ⟨held.heap.resetArena, []⟩

/-- The buffers are live, and they, what is left of the arena and the blocks of
`rt_allocate_raw` lie apart. -/
structure Kept (held : Holding) : Prop where
  live : ∀ addr ∈ held.buffers,
    Live held.heap.mem addr (held.heap.mem.word addr) (held.heap.mem.word (addr + 8))
  between : (inUse held.heap.mem held.buffers).Pairwise Region.Apart
  fresh : Fresh held.heap.arena held.heap.raw (inUse held.heap.mem held.buffers)
  again : Fresh (held.heap.arena.map Arena.reset) held.heap.raw []

variable {held : Holding} {mem other : ByteMem} {buffers : List Nat}

/-! ## Regions in use -/

theorem Fresh.narrow {arena : Option Arena} {raw : List RawBlock} {taken fewer : List Region}
    (fresh : Fresh arena raw taken) (within : ∀ region ∈ fewer, ∃ outer ∈ taken, region.Within outer) :
    Fresh arena raw fewer where
  arenaFits := fresh.arenaFits
  blocks := fresh.blocks
  arenaBlocks := fresh.arenaBlocks
  between := fresh.between
  takenArena := by
    intro region member own isOwn
    rcases within region member with ⟨outer, isTaken, inside⟩
    exact (fresh.takenArena outer isTaken own isOwn).within inside
  takenBlocks := by
    intro region member block isBlock
    rcases within region member with ⟨outer, isTaken, inside⟩
    exact (fresh.takenBlocks outer isTaken block isBlock).within inside

theorem Fresh.unused {arena : Option Arena} {raw : List RawBlock} {taken : List Region}
    (fresh : Fresh arena raw taken) : Fresh arena raw [] :=
  fresh.narrow (List.forall_mem_nil _)

/-- The header of a buffer is that of its data. -/
theorem spaces_congr {addr : Nat} (noWrap : addr + 16 ≤ 2 ^ 64)
    (same : cellsFrom other.bytes addr 16 = cellsFrom mem.bytes addr 16) :
    spaces other addr = spaces mem addr := by
  rw [cellsFrom_add other.bytes addr 8 8, cellsFrom_add mem.bytes addr 8 8] at same
  have halves := List.append_inj same (by rw [length_cellsFrom, length_cellsFrom])
  rw [spaces, spaces, word_same (by omega) halves.1, word_same (by omega) halves.2]

theorem word_of_live {addr start stop : Nat} (live : Live mem addr start stop) :
    Live mem addr (mem.word addr) (mem.word (addr + 8)) := by
  have starts := live.starts
  have stops := live.stops
  rwa [starts, stops]

/-- What a buffer holds, by where its data is. -/
theorem contentAt_live {addr start stop : Nat} (live : Live mem addr start stop) :
    contentAt mem addr = bytesAt mem.bytes start (stop - start) := by
  have inHalf := live.inHalf
  have ordered := live.ordered
  have below := live.below
  rw [contentAt, iadd_eq (by omega), live.starts, live.stops, isub_eq ordered (by omega)]

theorem length_content_live {addr start stop : Nat} (live : Live mem addr start stop) :
    (contentAt mem addr).length = stop - start := by
  rw [contentAt_live live, length_bytesAt]

theorem contentAt_congr {addr start stop : Nat} (live : Live mem addr start stop)
    (header : cellsFrom other.bytes addr 16 = cellsFrom mem.bytes addr 16)
    (data : cellsFrom other.bytes start (stop - start) = cellsFrom mem.bytes start (stop - start)) :
    contentAt other addr = contentAt mem addr := by
  rw [contentAt_live live, contentAt_live (live.congr header), bytesAt, bytesAt, data]

/-- What a live buffer takes of memory. -/
theorem spaces_live {addr start stop : Nat} (live : Live mem addr start stop) :
    spaces mem addr = [⟨addr, addr + 16⟩, ⟨start, stop⟩] := by
  rw [spaces, live.starts, live.stops]

/-- What is apart from a patch is read as before. -/
theorem cells_lay {region : Region} {patch : Patch Nat} (isMem : other.bytes = Patch.lay mem.bytes patch)
    (apart : region.Apart patch.region) :
    cellsFrom other.bytes region.first (region.stop - region.first) =
      cellsFrom mem.bytes region.first (region.stop - region.first) := by
  rw [isMem]
  by_cases ordered : region.first ≤ region.stop
  · apply cellsFrom_lay_apart
    rwa [Nat.add_sub_cancel' ordered]
  · rw [Nat.sub_eq_zero_of_le (Nat.le_of_not_le ordered)]
    rfl

namespace Kept

variable {index addr start stop : Nat}

theorem live_of (kept : Kept held) (member : addr ∈ held.buffers) :
    ∃ start stop, Live held.heap.mem addr start stop := ⟨_, _, kept.live addr member⟩

/-- Header and data of a buffer lie apart. -/
theorem beside (kept : Kept held) (member : addr ∈ held.buffers)
    (live : Live held.heap.mem addr start stop) : Region.Apart ⟨addr, addr + 16⟩ ⟨start, stop⟩ := by
  have own := (List.pairwise_flatMap.mp kept.between).1 addr member
  rw [spaces_live live] at own
  exact (List.pairwise_cons.mp own).1 _ List.mem_cons_self

/-- Two buffers lie apart. -/
theorem apart (kept : Kept held) {position buffer : Nat} (ne : position ≠ index)
    (atIndex : held.buffers[index]? = some addr) (atPosition : held.buffers[position]? = some buffer) :
    ∀ region ∈ spaces held.heap.mem buffer, ∀ space ∈ spaces held.heap.mem addr,
      region.Apart space := by
  have pairs := List.pairwise_iff_getElem.mp (List.pairwise_flatMap.mp kept.between).2
  rcases List.getElem?_eq_some_iff.mp atIndex with ⟨inRange, rfl⟩
  rcases List.getElem?_eq_some_iff.mp atPosition with ⟨positionInRange, rfl⟩
  intro region isRegion space isSpace
  rcases Nat.lt_or_gt_of_ne ne with before | behind
  · exact pairs position index positionInRange inRange before region isRegion space isSpace
  · exact (pairs index position inRange positionInRange behind space isSpace region isRegion).symm

/-- Memory with the same headers has the same buffers. -/
theorem congr (kept : Kept held) (headers : ∀ addr ∈ held.buffers,
    cellsFrom other.bytes addr 16 = cellsFrom held.heap.mem.bytes addr 16) :
    Kept ⟨{ held.heap with mem := other }, held.buffers⟩ := by
  have same : inUse other held.buffers = inUse held.heap.mem held.buffers := by
    apply List.flatMap_congr
    intro addr member
    have inHalf := (kept.live addr member).inHalf
    exact spaces_congr (by omega) (headers addr member)
  constructor
  · intro addr member
    exact word_of_live ((kept.live addr member).congr (headers addr member))
  · dsimp only
    rw [same]
    exact kept.between
  · dsimp only
    rw [same]
    exact kept.fresh
  · exact kept.again

/-- A write inside a buffer's data leaves all headers as they are. -/
theorem headers_write (kept : Kept held) (atIndex : held.buffers[index]? = some addr)
    (live : Live held.heap.mem addr start stop) {patch : Patch Nat}
    (inData : patch.region.Within ⟨start, stop⟩)
    (isMem : other.bytes = Patch.lay held.heap.mem.bytes patch) :
    ∀ buffer ∈ held.buffers,
      cellsFrom other.bytes buffer 16 = cellsFrom held.heap.mem.bytes buffer 16 := by
  intro buffer member
  rcases List.getElem?_of_mem member with ⟨position, atPosition⟩
  have isApart : Region.Apart ⟨buffer, buffer + 16⟩ ⟨start, stop⟩ := by
    by_cases same : position = index
    · rw [same, atIndex] at atPosition
      cases atPosition
      exact kept.beside member live
    · have pair := kept.apart same atIndex atPosition _ List.mem_cons_self
      rw [spaces_live live] at pair
      exact pair _ (List.mem_cons_of_mem _ List.mem_cons_self)
  rw [isMem]
  apply cellsFrom_lay_apart
  exact (isApart.symm.within inData).symm

/-- It changes what this buffer holds. -/
theorem content_write (live : Live mem addr start stop) {offset : Nat} {piece : List Nat}
    (inside : offset + piece.length ≤ stop - start) (areBytes : ∀ byte ∈ piece, byte < 256)
    (header : cellsFrom other.bytes addr 16 = cellsFrom mem.bytes addr 16)
    (isMem : other.bytes = Patch.lay mem.bytes ⟨start + offset, piece⟩) :
    contentAt other addr = overwritten (contentAt mem addr) offset piece := by
  rw [contentAt_live (live.congr header), contentAt_live live, bytesAt, bytesAt, isMem,
    cellsFrom_lay_within _ inside, overwritten, overwritten, List.map_append, List.map_append,
    List.map_take, List.map_drop, map_mod areBytes]

/-- It leaves what the other buffers hold. -/
theorem content_write_other (kept : Kept held) (atIndex : held.buffers[index]? = some addr)
    (live : Live held.heap.mem addr start stop) {patch : Patch Nat}
    (inData : patch.region.Within ⟨start, stop⟩)
    (isMem : other.bytes = Patch.lay held.heap.mem.bytes patch) {position buffer : Nat}
    (ne : position ≠ index) (atPosition : held.buffers[position]? = some buffer) :
    contentAt other buffer = contentAt held.heap.mem buffer := by
  have member := List.mem_of_getElem? atPosition
  rcases kept.live_of member with ⟨first, last, isLive⟩
  have pair := kept.apart ne atIndex atPosition
  rw [spaces_live live, spaces_live isLive] at pair
  have isApart := pair _ (List.mem_cons_of_mem _ List.mem_cons_self) _
    (List.mem_cons_of_mem _ List.mem_cons_self)
  have outside : Region.Apart ⟨first, last⟩ patch.region := (isApart.symm.within inData).symm
  have same : cellsFrom other.bytes first (last - first) =
      cellsFrom held.heap.mem.bytes first (last - first) :=
    @cells_lay held.heap.mem other ⟨first, last⟩ patch isMem outside
  have header := kept.headers_write atIndex live inData isMem buffer member
  exact contentAt_congr isLive header same

/-- A write inside a buffer's data is one to its string. -/
theorem write (kept : Kept held) (atIndex : held.buffers[index]? = some addr)
    (live : Live held.heap.mem addr start stop) {offset : Nat} {piece : List Nat}
    (inside : offset + piece.length ≤ stop - start) (areBytes : ∀ byte ∈ piece, byte < 256)
    (isMem : other.bytes = Patch.lay held.heap.mem.bytes ⟨start + offset, piece⟩) :
    Kept ⟨{ held.heap with mem := other }, held.buffers⟩ ∧
      Holding.strings ⟨{ held.heap with mem := other }, held.buffers⟩ =
        held.strings.set index (overwritten (contentAt held.heap.mem addr) offset piece) := by
  have ordered := live.ordered
  have inData : (Patch.mk (start + offset) piece).region.Within ⟨start, stop⟩ := by
    constructor
    · exact Nat.le_add_right _ _
    · rw [Patch.region]
      dsimp only
      omega
  have headers := kept.headers_write atIndex live inData isMem
  refine ⟨kept.congr headers, ?_⟩
  apply List.ext_getElem?
  intro position
  rw [Holding.strings, Holding.strings, List.getElem?_set, List.getElem?_map, List.length_map]
  dsimp only
  by_cases same : index = position
  · subst same
    rcases List.getElem?_eq_some_iff.mp atIndex with ⟨inRange, -⟩
    rw [if_pos rfl, if_pos inRange, atIndex, Option.map_some,
      content_write live inside areBytes (headers addr (List.mem_of_getElem? atIndex)) isMem]
  · rw [if_neg same, List.getElem?_map]
    cases atPosition : held.buffers[position]? with
    | none => rw [Option.map_none, Option.map_none]
    | some buffer =>
        rw [Option.map_some, Option.map_some,
          kept.content_write_other atIndex live inData isMem (Ne.symm same) atPosition]

end Kept

/-! ## Stores and copies -/

/-- A store that does not trap stays inside the buffer. -/
theorem store_spec {heap : ActorHeap} {addr start stop : Nat} (live : Live heap.mem addr start stop)
    {val size offset : Nat} (inWord : size ≤ 8) (small : offset < 2 ^ 48)
    (runs : (heap.store addr val size offset).trapped = false) :
    offset + size ≤ stop - start ∧
      ∃ mem, heap.store addr val size offset = { heap with mem := mem } ∧
        mem.bytes = Patch.lay heap.mem.bytes ⟨start + offset, lowBytes val size⟩ := by
  have ordered := live.ordered
  have below := live.below
  have first : iadd start offset = start + offset := iadd_eq (by omega)
  have bound : iadd (start + offset) size = start + offset + size := iadd_eq (by omega)
  have stores : heap.store addr val size offset =
      heap.ended (rtStore heap.mem ⟨start, stop, ordered, below⟩ val size offset) := by
    rw [ActorHeap.store, live.fatPtrAt, ActorHeap.storeThrough]
  rw [stores] at runs ⊢
  simp only [rtStore, FatPtr.inBounds, first, bound, decide_eq_true_eq] at runs ⊢
  by_cases fits : start + offset + size ≤ stop
  · rw [if_pos fits]
    refine ⟨by omega, _, rfl, ?_⟩
    exact bytes_storeLow heap.mem val inWord (by omega)
  · rw [if_neg fits] at runs
    cases runs

namespace Kept

theorem store (kept : Kept held) {index addr val size offset : Nat}
    (atIndex : held.buffers[index]? = some addr) (inWord : size ≤ 8) (small : offset < 2 ^ 48)
    (runs : (held.heap.store addr val size offset).trapped = false) :
    Kept { held with heap := held.heap.store addr val size offset } ∧
      StringStep held.strings (.store index val size offset)
        (Holding.strings { held with heap := held.heap.store addr val size offset }) := by
  rcases kept.live_of (List.mem_of_getElem? atIndex) with ⟨start, stop, live⟩
  rcases store_spec live inWord small runs with ⟨inside, mem, stores, isMem⟩
  have inside' : offset + (lowBytes val size).length ≤ stop - start := by
    rwa [length_lowBytes]
  have written := kept.write atIndex live inside' (lowBytes_lt val size) isMem
  rw [stores]
  refine ⟨written.1, ?_⟩
  rw [written.2]
  apply StringStep.store
  · rw [Holding.strings, List.getElem?_map, atIndex, Option.map_some]
  · rwa [length_content_live live]

theorem copy (kept : Kept held) {dst dstAddr dstOff src srcAddr srcOff len : Nat} (ne : dst ≠ src)
    (atDst : held.buffers[dst]? = some dstAddr) (atSrc : held.buffers[src]? = some srcAddr)
    (dstSmall : dstOff < 2 ^ 48) (srcSmall : srcOff < 2 ^ 48) (lenSmall : len < 2 ^ 48)
    (runs : (held.heap.copyBytes dstAddr dstOff srcAddr srcOff len).trapped = false) :
    Kept { held with heap := held.heap.copyBytes dstAddr dstOff srcAddr srcOff len } ∧
      StringStep held.strings (.copy dst dstOff src srcOff len)
        (Holding.strings { held with heap := held.heap.copyBytes dstAddr dstOff srcAddr srcOff len }) := by
  rcases kept.live_of (List.mem_of_getElem? atDst) with ⟨dstStart, dstStop, isDst⟩
  rcases kept.live_of (List.mem_of_getElem? atSrc) with ⟨srcStart, srcStop, isSrc⟩
  have pair := kept.apart ne.symm atDst atSrc
  rw [spaces_live isDst, spaces_live isSrc] at pair
  have apart : Region.Apart ⟨srcStart, srcStop⟩ ⟨dstStart, dstStop⟩ :=
    pair _ (List.mem_cons_of_mem _ List.mem_cons_self) _ (List.mem_cons_of_mem _ List.mem_cons_self)
  rcases copyBytes_spec isDst isSrc apart dstSmall srcSmall lenSmall runs with
    ⟨dstFits, srcFits, mem, copies, isMem⟩
  have srcOrdered := isSrc.ordered
  have inside : dstOff + (bytesAt held.heap.mem.bytes (srcStart + srcOff) len).length ≤
      dstStop - dstStart := by
    rw [length_bytesAt]
    omega
  have written := kept.write atDst isDst inside (bytesAt_lt _ _ _) isMem
  have piece : bytesAt held.heap.mem.bytes (srcStart + srcOff) len =
      ((contentAt held.heap.mem srcAddr).drop srcOff).take len := by
    have isPart : srcOff + len ≤ srcStop - srcStart := by omega
    rw [contentAt_live isSrc, bytesAt, bytesAt, cellsFrom_part isPart, List.map_take, List.map_drop]
  rw [copies]
  refine ⟨written.1, ?_⟩
  rw [written.2, piece]
  apply StringStep.copy
  · rw [Holding.strings, List.getElem?_map, atDst, Option.map_some]
  · rw [Holding.strings, List.getElem?_map, atSrc, Option.map_some]
  · rw [length_content_live isDst]
    omega
  · rw [length_content_live isSrc]
    omega

end Kept

/-! ## New buffers -/

/-- The blocks that are left when the arena is set back. -/
theorem again_granted {arena left : Option Arena} {raw others : List RawBlock} {taken : List Region}
    {size : Nat} {block : RawBlock} (grants : granted arena raw size = some (block, left, others))
    (fresh : Fresh left others taken) (again : Fresh (arena.map Arena.reset) raw []) :
    Fresh (left.map Arena.reset) others [] := by
  unfold granted at grants
  split at grants
  · rename_i bump own carves
    cases grants
    rcases Option.bind_eq_some_iff.mp carves with ⟨whole, isOwn, isCarved⟩
    cases isOwn
    rw [Option.map_some] at again ⊢
    dsimp only [Arena.carve] at isCarved
    split at isCarved
    · cases isCarved
      by_cases inherited : whole.base = 0
      · rw [Arena.reset, if_pos inherited]
        exact fresh.unused
      · rw [Arena.reset, if_neg inherited] at again ⊢
        exact again
    · cases isCarved
  · split at grants
    · cases grants
    · cases grants
      exact again.next.unused

/-- Blocks as buffers. -/
theorem live_allocated {block : RawBlock} (sound : SoundBlock block) {before : Nat → Nat}
    (isMem : mem.bytes = Patch.layAll before (allocation block)) :
    Live mem block.addr block.start block.stop := by
  apply Live.of_cells sound.inHalf sound.ordered sound.below
  rw [isMem, headed_allocation]

theorem spaces_within {block : RawBlock} (sound : SoundBlock block)
    (live : Live mem block.addr block.start block.stop) :
    ∀ region ∈ spaces mem block.addr, region.Within block.space := by
  rw [spaces_live live, List.forall_mem_cons, List.forall_mem_singleton]
  exact ⟨sound.header, sound.data⟩

theorem spaces_apart {block : RawBlock} (sound : SoundBlock block)
    (live : Live mem block.addr block.start block.stop) :
    (spaces mem block.addr).Pairwise Region.Apart := by
  rw [spaces_live live, List.pairwise_cons, List.forall_mem_singleton]
  exact ⟨sound.beside, List.pairwise_singleton _ _⟩

namespace Kept

theorem alloc (kept : Kept held) {size : Nat} (small : size < 2 ^ 48)
    (runs : (held.heap.arenaAlloc size).2.trapped = false) :
    Kept ⟨(held.heap.arenaAlloc size).2, held.buffers ++ [(held.heap.arenaAlloc size).1]⟩ ∧
      StringStep held.strings (.alloc size)
        (Holding.strings
          ⟨(held.heap.arenaAlloc size).2, held.buffers ++ [(held.heap.arenaAlloc size).1]⟩) := by
  rcases arenaAlloc_spec kept.fresh small runs with
    ⟨block, left, others, mem, grants, fits, allocates, isMem⟩
  rcases granted_spec kept.fresh small grants with ⟨sound, apart, fresh⟩
  have live := live_allocated sound isMem
  have within := allocation_within sound
  have headers : ∀ buffer ∈ held.buffers,
      cellsFrom mem.bytes buffer 16 = cellsFrom held.heap.mem.bytes buffer 16 := by
    intro buffer member
    have isApart := apart ⟨buffer, buffer + 16⟩ (List.mem_flatMap.mpr ⟨buffer, member, List.mem_cons_self⟩)
    rw [isMem]
    apply cellsFrom_layAll_apart
    intro patch isPatch
    exact (isApart.symm.within (within patch isPatch)).symm
  have before := kept.congr headers
  have sameUse : inUse mem held.buffers = inUse held.heap.mem held.buffers := by
    apply List.flatMap_congr
    intro buffer member
    have inHalf := (kept.live buffer member).inHalf
    exact spaces_congr (by omega) (headers buffer member)
  have use : inUse mem (held.buffers ++ [block.addr]) =
      inUse held.heap.mem held.buffers ++ spaces mem block.addr := by
    rw [inUse, List.flatMap_append, List.flatMap_singleton]
    exact congrArg (· ++ _) sameUse
  have same : held.buffers.map (contentAt mem) = held.strings := by
    apply List.map_congr_left
    intro buffer member
    rcases kept.live_of member with ⟨start, stop, isLive⟩
    have used : Region.mk start stop ∈ inUse held.heap.mem held.buffers := by
      apply List.mem_flatMap.mpr
      refine ⟨buffer, member, ?_⟩
      rw [spaces_live isLive]
      exact List.mem_cons_of_mem _ List.mem_cons_self
    have ordered := isLive.ordered
    apply contentAt_congr isLive (headers buffer member)
    rw [isMem]
    apply cellsFrom_layAll_apart
    intro patch isPatch
    rw [Nat.add_sub_cancel' ordered]
    exact ((apart _ used).symm.within (within patch isPatch)).symm
  have next : Holding.strings
      ⟨⟨mem, left, others, held.heap.trapped⟩, held.buffers ++ [block.addr]⟩ =
        held.strings ++ [contentAt mem block.addr] := by
    rw [Holding.strings, List.map_append, List.map_singleton]
    dsimp only
    rw [same]
  rw [allocates]
  refine ⟨?_, ?_⟩
  · constructor
    · intro buffer member
      rcases List.mem_append.mp member with older | newest
      · exact before.live buffer older
      · rw [List.mem_singleton.mp newest]
        exact word_of_live live
    · dsimp only
      rw [use, List.pairwise_append]
      refine ⟨kept.between, spaces_apart sound live, ?_⟩
      intro region isUsed space isSpace
      exact ((apart region isUsed).symm.within (spaces_within sound live space isSpace)).symm
    · dsimp only
      rw [use]
      apply fresh.narrow
      intro region member
      rcases List.mem_append.mp member with older | newest
      · exact ⟨region, List.mem_cons_of_mem _ older, Nat.le_refl _, Nat.le_refl _⟩
      · exact ⟨block.space, List.mem_cons_self, spaces_within sound live region newest⟩
    · exact again_granted grants fresh kept.again
  · dsimp only
    rw [next]
    apply StringStep.alloc
    rw [length_content_live live]
    omega

end Kept

/-! ## What a transition leaves -/

/-- The arena and the blocks of `rt_allocate_raw` behind requests of these sizes. -/
def remaining : Option Arena → List RawBlock → List Nat → Option Arena × List RawBlock
  | arena, raw, [] => (arena, raw)
  | arena, raw, size :: sizes =>
      match granted arena raw size with
      | some (_, arena, raw) => remaining arena raw sizes
      | none => (arena, raw)

theorem remaining_cons {arena left : Option Arena} {raw others : List RawBlock} {size : Nat}
    {block : RawBlock} (grants : granted arena raw size = some (block, left, others)) (sizes : List Nat) :
    remaining arena raw (size :: sizes) = remaining left others sizes := by
  rw [remaining, grants]

theorem reset_reset (arena : Arena) : arena.reset.reset = arena.reset := by
  unfold Arena.reset
  by_cases inherited : arena.base = 0
  · rw [if_pos inherited, if_pos inherited]
  · rw [if_neg inherited]
    exact if_neg inherited

/-- What is left is apart from the blocks that were given. -/
theorem fresh_remaining {arena : Option Arena} {raw : List RawBlock} {taken : List Region}
    (fresh : Fresh arena raw taken) (again : Fresh (arena.map Arena.reset) raw []) {sizes : List Nat}
    (small : ∀ size ∈ sizes, size < 2 ^ 48) :
    Fresh (remaining arena raw sizes).1 (remaining arena raw sizes).2
        ((places arena raw sizes).map RawBlock.space) ∧
      Fresh ((remaining arena raw sizes).1.map Arena.reset) (remaining arena raw sizes).2 [] := by
  suffices all : Fresh (remaining arena raw sizes).1 (remaining arena raw sizes).2
        ((places arena raw sizes).map RawBlock.space ++ taken) ∧
      Fresh ((remaining arena raw sizes).1.map Arena.reset) (remaining arena raw sizes).2 [] by
    refine ⟨all.1.narrow ?_, all.2⟩
    intro region member
    exact ⟨region, List.mem_append_left _ member, Nat.le_refl _, Nat.le_refl _⟩
  induction sizes generalizing arena raw taken with
  | nil => exact ⟨fresh, again⟩
  | cons size sizes induction =>
      rw [List.forall_mem_cons] at small
      cases grants : granted arena raw size with
      | none =>
          rw [remaining, places, grants]
          exact ⟨fresh, again⟩
      | some result =>
          rcases result with ⟨block, left, others⟩
          rcases granted_spec fresh small.1 grants with ⟨-, -, stillFresh⟩
          rcases induction stillFresh (again_granted grants stillFresh again) small.2 with ⟨later, last⟩
          rw [remaining_cons grants, places_cons grants]
          refine ⟨later.narrow ?_, last⟩
          intro region member
          refine ⟨region, ?_, Nat.le_refl _, Nat.le_refl _⟩
          simp only [List.map_cons, List.cons_append, List.mem_cons, List.mem_append] at member ⊢
          tauto

/-- A copy leaves the arena and the blocks of `rt_allocate_raw`. -/
theorem copyBytes_left (heap : ActorHeap) (dst dstOff src srcOff len : Nat) :
    (heap.copyBytes dst dstOff src srcOff len).arena = heap.arena ∧
      (heap.copyBytes dst dstOff src srcOff len).raw = heap.raw := by
  rw [ActorHeap.copyBytes]
  cases fatPtrAt heap.mem dst with
  | none => exact ⟨rfl, rfl⟩
  | some dstFat =>
      cases fatPtrAt heap.mem src with
      | none => exact ⟨rfl, rfl⟩
      | some srcFat =>
          rw [ActorHeap.copyBetween]
          cases rtCopyBytes heap.mem dstFat dstOff srcFat srcOff len with
          | returned value mem => exact ⟨rfl, rfl⟩
          | trapped code mem => exact ⟨rfl, rfl⟩

theorem saveArgs_left (scratch : Nat) (args : List (Nat × Nat)) (pass : ActorHeap.Pass) :
    (args.foldl (ActorHeap.saveArg scratch) pass).heap.arena = pass.heap.arena ∧
      (args.foldl (ActorHeap.saveArg scratch) pass).heap.raw = pass.heap.raw := by
  induction args generalizing pass with
  | nil => exact ⟨rfl, rfl⟩
  | cons arg args induction =>
      rw [List.foldl_cons]
      rcases induction (ActorHeap.saveArg scratch pass arg) with ⟨arena, raw⟩
      have kept := copyBytes_left pass.heap scratch pass.cursor arg.1 0 arg.2
      exact ⟨arena.trans kept.1, raw.trans kept.2⟩

theorem allocateRaw_left {heap : ActorHeap} {size : Nat}
    (runs : (heap.allocateRaw size).2.trapped = false) :
    ∃ block, heap.raw = block :: (heap.allocateRaw size).2.raw ∧
      (heap.allocateRaw size).2.arena = heap.arena := by
  cases isRaw : heap.raw with
  | nil =>
      rw [ActorHeap.allocateRaw, isRaw] at runs
      cases runs
  | cons block others =>
      rw [ActorHeap.allocateRaw, isRaw] at runs ⊢
      dsimp only at runs ⊢
      by_cases fits : block.start + size ≤ block.stop
      · rw [if_pos fits]
        exact ⟨block, rfl, rfl⟩
      · rw [if_neg fits] at runs
        cases runs

theorem arenaAlloc_left {heap : ActorHeap} {size : Nat} (runs : (heap.arenaAlloc size).2.trapped = false) :
    ∃ block, granted heap.arena heap.raw size =
      some (block, (heap.arenaAlloc size).2.arena, (heap.arenaAlloc size).2.raw) := by
  unfold granted
  cases carves : heap.arena.bind (Arena.carve · size) with
  | some pair =>
      rcases pair with ⟨bump, own⟩
      refine ⟨carved bump own.bump size, ?_⟩
      rw [ActorHeap.arenaAlloc, carves]
      rfl
  | none =>
      have falls : heap.arenaAlloc size = heap.allocateRaw size := by
        rw [ActorHeap.arenaAlloc, carves]
      rw [falls] at runs ⊢
      rcases allocateRaw_left runs with ⟨block, isRaw, sameArena⟩
      refine ⟨block, ?_⟩
      rw [sameArena]
      rw [isRaw]

theorem restoreArgs_left {scratch : Nat} {sizes : List Nat} {pass : ActorHeap.Pass}
    (runs : (sizes.foldl (ActorHeap.restoreArg scratch) pass).heap.trapped = false) :
    remaining pass.heap.arena pass.heap.raw sizes =
      ((sizes.foldl (ActorHeap.restoreArg scratch) pass).heap.arena,
        (sizes.foldl (ActorHeap.restoreArg scratch) pass).heap.raw) := by
  induction sizes generalizing pass with
  | nil => rfl
  | cons size sizes induction =>
      rw [List.foldl_cons] at runs ⊢
      have allocates : (pass.heap.arenaAlloc size).2.trapped = false := by
        by_contra trapped
        rw [Bool.not_eq_false] at trapped
        have copied := copyBytes_trapped trapped (pass.heap.arenaAlloc size).1 0 scratch pass.cursor size
        exact Bool.false_ne_true (runs.symm.trans (restoreArg_trapped copied))
      rcases arenaAlloc_left allocates with ⟨block, grants⟩
      have kept := copyBytes_left (pass.heap.arenaAlloc size).2 (pass.heap.arenaAlloc size).1 0 scratch
        pass.cursor size
      rw [remaining_cons grants, ← kept.1, ← kept.2]
      exact induction runs

theorem recopy_left {heap : ActorHeap} {args : List Nat} (runs : (heap.recopy args).2.trapped = false) :
    remaining (heap.arena.map Arena.reset) heap.raw.tail
        ((args.map (contentAt heap.mem)).map List.length) =
      ((heap.recopy args).2.arena, (heap.recopy args).2.raw) := by
  rcases allocates : heap.allocateRaw ((args.map heap.sizeAt).foldl iadd 0) with ⟨scratch, after⟩
  have afterRuns := (loops_run allocates runs).2
  have whole : (heap.allocateRaw ((args.map heap.sizeAt).foldl iadd 0)).2.trapped = false := by
    rw [allocates]
    exact afterRuns
  rcases allocateRaw_left whole with ⟨block, isRaw, sameArena⟩
  rw [allocates] at isRaw sameArena
  dsimp only at isRaw sameArena
  have saved := saveArgs_left scratch (sized heap.mem args) ⟨0, after, []⟩
  rw [recopy_eq allocates] at runs ⊢
  have restored := restoreArgs_left runs
  rw [isRaw, List.tail_cons, ← sameArena, ← restored]
  dsimp only [ActorHeap.resetArena]
  rw [saved.1, saved.2]

/-! ## Transitions -/

/-- The bytes of an argument are the first ones of its copy. -/
theorem content_of_holds {addr arg start stop : Nat} (holds : Holds other addr (contentAt mem arg) start stop) :
    contentAt mem arg <+: contentAt other addr := by
  have fits := holds.fits
  have small : (contentAt mem arg).map (· % 256) = contentAt mem arg := map_mod (bytesAt_lt _ _ _)
  rcases Nat.exists_eq_add_of_le (show (contentAt mem arg).length ≤ stop - start by omega) with
    ⟨rest, isSize⟩
  rw [contentAt_live holds.live, isSize, bytesAt, cellsFrom_add, List.map_append, holds.content, small]
  exact List.prefix_append _ _

namespace Kept

/-- The buffers that are passed on are apart from the blocks that the transition is given. -/
theorem ready (kept : Kept held) {args : List Nat} (areBuffers : ∀ arg ∈ args, arg ∈ held.buffers) :
    Ready held.heap args where
  fresh := kept.again
  live := by
    intro arg isArg block isBlock
    have member := areBuffers arg isArg
    have used : ∀ region ∈ spaces held.heap.mem arg, region.Apart block.space := by
      intro region isRegion
      exact kept.fresh.takenBlocks region (List.mem_flatMap.mpr ⟨arg, member, isRegion⟩) block isBlock
    rw [spaces, List.forall_mem_cons, List.forall_mem_singleton] at used
    exact ⟨kept.live arg member, used.1, used.2⟩

theorem small_sizes (kept : Kept held) {args : List Nat} (areBuffers : ∀ arg ∈ args, arg ∈ held.buffers) :
    ∀ size ∈ (args.map (contentAt held.heap.mem)).map List.length, size < 2 ^ 48 := by
  intro size member
  rw [List.map_map] at member
  rcases List.mem_map.mp member with ⟨arg, isArg, rfl⟩
  rcases kept.live_of (areBuffers arg isArg) with ⟨start, stop, live⟩
  have below := live.below
  rw [Function.comp_apply, length_content_live live]
  omega

/-- Behind a transition the actor holds the copies. -/
theorem passed (kept : Kept held) {args : List Nat} (areBuffers : ∀ arg ∈ args, arg ∈ held.buffers)
    (runs : (held.heap.recopy args).2.trapped = false) :
    Kept ⟨(held.heap.recopy args).2, (held.heap.recopy args).1⟩ := by
  have ready := kept.ready areBuffers
  have small := kept.small_sizes areBuffers
  rcases exists_scratch runs with ⟨scratch, raw, isRaw⟩
  have fresh : Fresh (held.heap.arena.map Arena.reset) held.heap.raw.tail [] := by
    have all := ready.fresh
    rw [isRaw] at all ⊢
    exact all.next.unused
  have again : Fresh ((held.heap.arena.map Arena.reset).map Arena.reset) held.heap.raw.tail [] := by
    rw [Option.map_map, show Arena.reset ∘ Arena.reset = Arena.reset from funext reset_reset]
    exact fresh
  have blocks := (places_spec fresh small).1
  have left := fresh_remaining fresh again small
  rw [recopy_left runs] at left
  rcases recopy_copies ready runs with ⟨copies, hold, between, -⟩
  have live : ∀ block ∈ copyBlocks held.heap args,
      SoundBlock block ∧ Live (held.heap.recopy args).2.mem block.addr block.start block.stop := by
    intro block member
    refine ⟨(blocks block member).1, ?_⟩
    rcases List.getElem_of_mem member with ⟨index, inRange, rfl⟩
    have sameLength := hold.length_eq
    exact ((List.forall₂_iff_get.mp hold).2 index (sameLength ▸ inRange) inRange).live
  constructor
  · dsimp only
    rw [copies, List.forall_mem_map]
    intro block member
    exact word_of_live (live block member).2
  · dsimp only
    rw [copies, inUse, List.flatMap_map, List.pairwise_flatMap]
    constructor
    · intro block member
      exact spaces_apart (live block member).1 (live block member).2
    · apply between.imp_of_mem
      intro block later isBlock isLater apart region isRegion space isSpace
      have within := spaces_within (live block isBlock).1 (live block isBlock).2 region isRegion
      have laterWithin := spaces_within (live later isLater).1 (live later isLater).2 space isSpace
      exact ((apart.within within).symm.within laterWithin).symm
  · apply left.1.narrow
    dsimp only
    rw [copies, inUse, List.flatMap_map]
    intro region member
    rcases List.mem_flatMap.mp member with ⟨block, isBlock, isRegion⟩
    exact ⟨block.space, List.mem_map_of_mem isBlock,
      spaces_within (live block isBlock).1 (live block isBlock).2 region isRegion⟩
  · exact left.2

theorem pass (kept : Kept held) {picks args : List Nat}
    (picked : List.Forall₂ (fun pick arg => held.buffers[pick]? = some arg) picks args)
    (runs : (held.heap.recopy args).2.trapped = false) :
    Kept ⟨(held.heap.recopy args).2, (held.heap.recopy args).1⟩ ∧
      StringStep held.strings (.pass picks)
        (Holding.strings ⟨(held.heap.recopy args).2, (held.heap.recopy args).1⟩) := by
  have areBuffers : ∀ arg ∈ args, arg ∈ held.buffers := by
    intro arg member
    rcases List.getElem_of_mem member with ⟨index, inRange, rfl⟩
    have sameLength := picked.length_eq
    exact List.mem_of_getElem?
      ((List.forall₂_iff_get.mp picked).2 index (sameLength ▸ inRange) inRange)
  refine ⟨kept.passed areBuffers runs, ?_⟩
  rcases recopy_copies (kept.ready areBuffers) runs with ⟨copies, hold, -, -⟩
  have next : Holding.strings ⟨(held.heap.recopy args).2, (held.heap.recopy args).1⟩ =
      (copyBlocks held.heap args).map (contentAt (held.heap.recopy args).2.mem ∘ RawBlock.addr) := by
    rw [Holding.strings, copies, List.map_map]
  apply StringStep.pass
  rw [next, List.forall₂_map_right_iff]
  rcases List.forall₂_iff_get.mp picked with ⟨pickLength, atPicks⟩
  rcases List.forall₂_iff_get.mp hold with ⟨blockLength, areHeld⟩
  refine List.forall₂_iff_get.mpr ⟨pickLength.trans blockLength, fun index inPicks inBlocks => ?_⟩
  have inArgs : index < args.length := pickLength ▸ inPicks
  have isPrefix := content_of_holds (areHeld index inArgs inBlocks)
  refine ⟨contentAt held.heap.mem (args.get ⟨index, inArgs⟩), ?_, ?_⟩
  · rw [Holding.strings, List.getElem?_map, atPicks index inPicks inArgs, Option.map_some]
  · rw [Function.comp_apply]
    exact isPrefix

end Kept

/-! ## Runs -/

theorem buffer_step {held next : Holding} {event : BufferEvent} (kept : Kept held)
    (taken : BufferStep held event next) :
    Kept next ∧ StringStep held.strings event next.strings := by
  cases taken with
  | supply fresh again => exact ⟨⟨kept.live, kept.between, fresh, again⟩, .supply _⟩
  | alloc small runs => exact kept.alloc small runs
  | store atIndex inWord small runs => exact kept.store atIndex inWord small runs
  | copy ne atDst atSrc dstSmall srcSmall lenSmall runs =>
      exact kept.copy ne atDst atSrc dstSmall srcSmall lenSmall runs
  | pass _ picked runs => exact kept.pass picked runs
  | reset =>
      have again := kept.again
      refine ⟨⟨List.forall_mem_nil _, .nil, again, ?_⟩, .reset⟩
      change Fresh ((held.heap.arena.map Arena.reset).map Arena.reset) held.heap.raw []
      rw [Option.map_map, show Arena.reset ∘ Arena.reset = Arena.reset from funext reset_reset]
      exact again

/-- Whatever an actor does to its buffers and however often it passes them on, each holds what a
string of its own would. -/
theorem buffers_refine_strings {start final : Holding} {history : List (Stage Holding BufferEvent)}
    (run : Run BufferStep start history final) (kept : Kept start) :
    Kept final ∧ Run StringStep start.strings
      (history.map fun stage => ⟨stage.state.strings, stage.label⟩) final.strings :=
  run.image Holding.strings kept fun _ _ _ => buffer_step

/-- An actor that holds the texts "ab" and "c". -/
def twoTexts : Holding := ⟨twoBuffers, [64, 88]⟩

theorem kept_twoTexts : Kept twoTexts := by
  have first : Live twoBuffers.mem 64 80 82 :=
    Live.of_cells (by decide) (by decide) (by decide) (by decide +kernel)
  have second : Live twoBuffers.mem 88 104 105 :=
    Live.of_cells (by decide) (by decide) (by decide) (by decide +kernel)
  have use : inUse twoBuffers.mem [64, 88] = [⟨64, 80⟩, ⟨80, 82⟩, ⟨88, 104⟩, ⟨104, 105⟩] := by
    rw [inUse, List.flatMap_cons, List.flatMap_cons, List.flatMap_nil, spaces_live first,
      spaces_live second]
    rfl
  constructor
  · change ∀ addr ∈ [64, 88], Live twoBuffers.mem addr (twoBuffers.mem.word addr)
      (twoBuffers.mem.word (addr + 8))
    rw [List.forall_mem_cons, List.forall_mem_singleton]
    exact ⟨word_of_live first, word_of_live second⟩
  · change (inUse twoBuffers.mem [64, 88]).Pairwise Region.Apart
    rw [use]
    simp [Region.Apart]
  · change Fresh twoBuffers.arena twoBuffers.raw (inUse twoBuffers.mem [64, 88])
    rw [use]
    constructor
    · intro own isOwn
      cases isOwn
      decide
    · exact fresh_twoBuffers.blocks
    · intro own isOwn block isBlock
      cases isOwn
      rw [List.mem_singleton.mp isBlock]
      exact .inl (by decide)
    · exact List.pairwise_singleton _ _
    · intro region member own isOwn
      cases isOwn
      simp only [List.mem_cons, List.not_mem_nil, or_false] at member
      rcases member with rfl | rfl | rfl | rfl <;> exact .inl (by decide)
    · intro region member block isBlock
      rw [List.mem_singleton.mp isBlock]
      simp only [List.mem_cons, List.not_mem_nil, or_false] at member
      rcases member with rfl | rfl | rfl | rfl <;> exact .inl (by decide)
  · exact fresh_twoBuffers

/-- Both are passed on, the second one twice. -/
theorem texts_passed : Run StringStep [[97, 98], [99]] [⟨[[97, 98], [99]], .pass [1, 0, 1]⟩]
    [[99], [97, 98], [99]] := by
  have picked : List.Forall₂ (fun pick arg => twoTexts.buffers[pick]? = some arg) [1, 0, 1] [88, 64, 88] :=
    .cons rfl (.cons rfl (.cons rfl .nil))
  have taken : BufferStep twoTexts (.pass [1, 0, 1])
      ⟨(twoTexts.heap.recopy [88, 64, 88]).2, (twoTexts.heap.recopy [88, 64, 88]).1⟩ :=
    .pass (by decide) picked (by decide +kernel)
  have isStart : twoTexts.strings = [[97, 98], [99]] := by decide +kernel
  have isEnd : Holding.strings ⟨(twoTexts.heap.recopy [88, 64, 88]).2, (twoTexts.heap.recopy [88, 64, 88]).1⟩ =
      [[99], [97, 98], [99]] := by decide +kernel
  have refined := (buffers_refine_strings (.next .refl taken) kept_twoTexts).2
  rwa [List.map_singleton, isStart, isEnd] at refined

end LakeNative.Arenas

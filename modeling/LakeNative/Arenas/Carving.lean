import Mathlib.Data.List.Pairwise
import LakeNative.Allocators.ReleasedPages
import LakeNative.Allocators.LiveMemory
import LakeNative.Runtime.SharedArena

/-! # What is carved off a shared arena

An actor and the machines that it waits for carve their buffers off one arena, in any order. An
arena is a live allocation whose first word is not its start any more, but the cursor.
-/

namespace LakeNative.Arenas

open LakeNative.Runtime LakeNative.Regions LakeNative.Allocators LakeNative.Transitions

/-- What was handed out of an arena: the address of its header, and the size of the payload
behind it. -/
structure ArenaBlock where
  addr : Nat
  size : Nat
  deriving DecidableEq

namespace ArenaBlock

def payload (block : ArenaBlock) : Region := ⟨block.addr + 16, block.addr + 16 + block.size⟩

/-- The header and the payload. -/
def region (block : ArenaBlock) : Region := ⟨block.addr, block.addr + 16 + block.size⟩

theorem payload_within (block : ArenaBlock) : block.payload.Within block.region :=
  ⟨Nat.le_add_right _ _, Nat.le_refl _⟩

theorem header_mem (block : ArenaBlock) {offset : Nat} (inHeader : offset < 16) :
    block.addr + offset ∈ block.region ∧ block.addr + offset ∉ block.payload := by
  constructor
  · rw [region, Region.mem_mk]
    omega
  · rw [payload, Region.mem_mk]
    omega

end ArenaBlock

/-- The allocator, what was handed out of the arena and the `OWNED_ARENA_FAT` of every actor. -/
structure ArenaState where
  bucket : BucketState
  ownedArenaFat : Nat → Nat
  handed : List ArenaBlock

namespace ArenaState

def heap (state : ArenaState) : Heap := state.bucket.heap

/-- The cursor that an actor sees. -/
def cursor (state : ArenaState) (party : Nat) : Nat := state.heap.load (state.ownedArenaFat party)

/-- A new buffer, from the arena or else from the allocator. -/
def record (state : ArenaState) (party size fatPtr : Nat) (heap : Heap) : ArenaState :=
  match state.heap.carve (state.ownedArenaFat party) size with
  | some _ =>
      { state with
        bucket := { state.bucket with heap := heap }
        handed := ⟨fatPtr, size⟩ :: state.handed }
  | none => { state with bucket := state.bucket.record ⟨fatPtr, size⟩ heap }

/-- The heap of a record may have other words. -/
theorem record_words (state : ArenaState) (party size fatPtr : Nat) (heap : Heap) (words : Words) :
    (state.record party size fatPtr heap).heap = heap ∧
      state.record party size fatPtr { heap with words := words } =
        { state.record party size fatPtr heap with
          bucket := { (state.record party size fatPtr heap).bucket with
            heap := { heap with words := words } } } := by
  unfold record
  split
  · exact ⟨rfl, rfl⟩
  · exact ⟨rfl, rfl⟩

/-- With words that programs may write: payloads, and allocations that are not the arena. -/
def Writes (arena : Allocation) (state : ArenaState) (words : Words) : Prop :=
  ∀ addr, (∀ block ∈ state.handed, addr ∉ block.payload) →
    (∀ allocation ∈ state.bucket.live, allocation ≠ arena → addr ∉ allocation.space) →
    words addr = state.heap.words addr

end ArenaState

inductive ArenaEvent where
  | alloc (party size : Nat)
  | copy (party size : Nat)
  | spawn (parent child : Nat)
  | write

/-- Calls of `rt_arena_alloc` and `rt_copy_to_arena` that return, synchronous spawns, and what
programs write in between. -/
inductive ArenaStep (base : HeapRegion) (arena : Allocation) :
    ArenaState → ArenaEvent → ArenaState → Prop
  | alloc {state heap} (party size mmapAddr fatPtr : Nat) :
      size < 2 ^ 62 →
      (MAX_CLASS < sizeClass size →
        state.bucket.Maps base ⟨mmapAddr, mmapAddr + mmapSize size⟩) →
      state.heap.arenaAlloc (state.ownedArenaFat party) size mmapAddr = some (fatPtr, heap) →
      ArenaStep base arena state (.alloc party size) (state.record party size fatPtr heap)
  | copy {state heap} (party srcFat mmapAddr fatPtr : Nat) :
      state.heap.sizeOf srcFat < 2 ^ 62 →
      (MAX_CLASS < sizeClass (state.heap.sizeOf srcFat) →
        state.bucket.Maps base ⟨mmapAddr, mmapAddr + mmapSize (state.heap.sizeOf srcFat)⟩) →
      state.heap.copyToArena srcFat (state.ownedArenaFat party) mmapAddr = some (fatPtr, heap) →
      ArenaStep base arena state (.copy party (state.heap.sizeOf srcFat))
        (state.record party (state.heap.sizeOf srcFat) fatPtr heap)
  | spawn {state} (parent child : Nat) :
      ArenaStep base arena state (.spawn parent child)
        { state with
          ownedArenaFat := Function.update state.ownedArenaFat child (state.ownedArenaFat parent) }
  | write {state} (words : Words) :
      state.Writes arena words →
      ArenaStep base arena state .write
        { state with bucket := state.bucket.withWords words }

/-- The buffers handed out share no memory; their headers and payloads are aligned and lie in
the arena, and the fat pointers have their bounds. All that hold the arena see one cursor. -/
structure ArenaSafe (arena : Allocation) (state : ArenaState) : Prop where
  ends : state.heap.load (arena.fatPtr + 8) = arena.fatPtr + 16 + arena.size
  apart : state.handed.Pairwise fun block other => block.region.Apart other.region
  aligned : ∀ block ∈ state.handed, 8 ∣ block.addr ∧ 8 ∣ block.payload.first
  inside : ∀ block ∈ state.handed,
    block.region.Within ⟨arena.fatPtr + 16, arena.fatPtr + 16 + arena.size⟩
  headers : ∀ block ∈ state.handed, state.heap.load block.addr = block.payload.first ∧
    state.heap.load (block.addr + 8) = block.payload.stop
  shared : ∀ party, state.ownedArenaFat party ≠ 0 →
    state.cursor party = state.heap.load arena.fatPtr

/-- The cursor never goes back, and a call leaves the buffers that there are as they are. When
the arena has no room for the call's buffer, it leaves the cursor too. -/
def ArenaGuarantee (arena : Allocation) (state : ArenaState) (event : ArenaEvent) (next : ArenaState) :
    Prop :=
  state.heap.load arena.fatPtr ≤ next.heap.load arena.fatPtr ∧
    ∀ party size, event = .alloc party size ∨ event = .copy party size →
      (∀ block ∈ state.handed, ∀ addr ∈ block.region,
        next.heap.words addr = state.heap.words addr) ∧
      (state.heap.carve (state.ownedArenaFat party) size = none →
        next.heap.load arena.fatPtr = state.heap.load arena.fatPtr ∧
          next.handed = state.handed)

/-! ## The invariant -/

variable {base : HeapRegion} {arena : Allocation} {state : ArenaState}

/-- The blocks lie apart between the arena's start and the cursor, and the allocator is intact
but for what live memory holds. -/
structure Shared (base : HeapRegion) (arena : Allocation) (state : ArenaState) : Prop where
  but : IntactBut base state.bucket.live state.bucket
  member : arena ∈ state.bucket.live
  small : arena.isHuge = false
  aligned : 8 ∣ arena.fatPtr
  behind : arena.fatPtr + 16 ≤ state.heap.load arena.fatPtr
  room : state.heap.load arena.fatPtr ≤ arena.fatPtr + 16 + arena.size
  cursorAligned : 8 ∣ state.heap.load arena.fatPtr
  ends : state.heap.load (arena.fatPtr + 8) = arena.fatPtr + 16 + arena.size
  parties : ∀ party, state.ownedArenaFat party = 0 ∨ state.ownedArenaFat party = arena.fatPtr
  blocks : ∀ block ∈ state.handed, 8 ∣ block.addr ∧
    block.region.Within ⟨arena.fatPtr + 16, state.heap.load arena.fatPtr⟩
  headers : ∀ block ∈ state.handed, state.heap.load block.addr = block.payload.first ∧
    state.heap.load (block.addr + 8) = block.payload.stop
  apart : state.handed.Pairwise fun block other => block.region.Apart other.region

namespace Shared

theorem arena_fits (shared : Shared base arena state) :
    0 < arena.fatPtr ∧ arena.fatPtr + 16 + arena.size ≤ 2 ^ 47 ∧
      Region.Within ⟨arena.fatPtr, arena.fatPtr + 16 + arena.size⟩ arena.space := by
  rcases shared.but.shadow with ⟨dead, words, intact, -⟩
  have held := intact.held _ shared.member
  have room : arena.size ≤ classSize arena.bucket := le_classSize held.isWord
  have fits := shared.but.space_fits shared.member
  have first := (intact.chunk_within (held.small shared.small).1).1
  have positive := base.positive
  rw [Allocation.space_small shared.small] at fits ⊢
  change arena.fatPtr + 16 + classSize arena.bucket ≤ 2 ^ 47 at fits
  change base.first ≤ arena.fatPtr at first
  refine ⟨by omega, by omega, Nat.le_refl _, ?_⟩
  change arena.fatPtr + 16 + arena.size ≤ arena.fatPtr + 16 + classSize arena.bucket
  omega

theorem header_mem (shared : Shared base arena state) {offset : Nat} (inside : offset ≤ 16) :
    arena.fatPtr + offset ∈ arena.space := shared.but.mem_space shared.member inside

/-- All that holds between the arena's header and the cursor is in the arena's space. -/
theorem block_inside (shared : Shared base arena state) {block : ArenaBlock}
    (member : block ∈ state.handed) {addr : Nat} (inside : addr ∈ block.region) :
    addr ∈ arena.space ∧ arena.fatPtr + 16 ≤ addr := by
  have within := (shared.blocks block member).2
  have room := shared.room
  have isIn := within.mem inside
  rw [Region.mem_mk] at isIn
  refine ⟨shared.arena_fits.2.2.mem ?_, isIn.1⟩
  rw [Region.mem_mk]
  omega

theorem block_apart (shared : Shared base arena state) {block other : ArenaBlock}
    (member : block ∈ state.handed) (also : other ∈ state.handed) (different : block ≠ other) :
    block.region.Apart other.region :=
  have : Std.Symm fun block other : ArenaBlock => block.region.Apart other.region :=
    ⟨fun _ _ => Region.Apart.symm⟩
  shared.apart.forall member also different

theorem safe (shared : Shared base arena state) : ArenaSafe arena state where
  ends := shared.ends
  apart := shared.apart
  aligned block member := by
    have isAligned := (shared.blocks block member).1
    refine ⟨isAligned, ?_⟩
    change 8 ∣ block.addr + 16
    omega
  inside block member :=
    (shared.blocks block member).2.trans ⟨Nat.le_refl _, shared.room⟩
  headers := shared.headers
  shared party holds := by
    rw [ArenaState.cursor, (shared.parties party).resolve_left holds]

/-- Whatever keeps the cursor and the headers keeps the blocks. -/
theorem frame (shared : Shared base arena state) (next : ArenaState)
    (but : IntactBut base next.bucket.live next.bucket) (member : arena ∈ next.bucket.live)
    (parties : next.ownedArenaFat = state.ownedArenaFat) (handed : next.handed = state.handed)
    (arenaKept : ∀ offset < 16,
      next.heap.words (arena.fatPtr + offset) = state.heap.words (arena.fatPtr + offset))
    (kept : ∀ block ∈ state.handed, ∀ offset < 16,
      next.heap.words (block.addr + offset) = state.heap.words (block.addr + offset)) :
    Shared base arena next := by
  have cursor : next.heap.load arena.fatPtr = state.heap.load arena.fatPtr :=
    arenaKept 0 (by decide)
  have headers : ∀ block ∈ state.handed, next.heap.load block.addr = block.payload.first ∧
      next.heap.load (block.addr + 8) = block.payload.stop := by
    intro block isBlock
    rcases shared.headers block isBlock with ⟨first, second⟩
    exact ⟨(kept block isBlock 0 (by decide)).trans first,
      (kept block isBlock 8 (by decide)).trans second⟩
  constructor
  · exact but
  · exact member
  · exact shared.small
  · exact shared.aligned
  · rw [cursor]
    exact shared.behind
  · rw [cursor]
    exact shared.room
  · rw [cursor]
    exact shared.cursorAligned
  · exact (arenaKept 8 (by decide)).trans shared.ends
  · rw [parties]
    exact shared.parties
  · rw [handed, cursor]
    exact shared.blocks
  · rw [handed]
    exact headers
  · rw [handed]
    exact shared.apart

/-! ### Writing -/

/-- Writes to payloads and to allocations that are not the arena change no header and no
cursor. -/
theorem write (shared : Shared base arena state) {words : Words}
    (keeps : state.Writes arena words) :
    Shared base arena { state with bucket := state.bucket.withWords words } ∧
      words arena.fatPtr = state.heap.words arena.fatPtr := by
  have inArena : ∀ addr ∈ arena.space, (∀ block ∈ state.handed, addr ∉ block.payload) →
      words addr = state.heap.words addr := by
    intro addr inside outside
    apply keeps addr outside
    intro allocation isLive different
    exact (shared.but.live_apart shared.member isLive different.symm).notMem inside
  have arenaKept : ∀ offset < 16,
      words (arena.fatPtr + offset) = state.heap.words (arena.fatPtr + offset) := by
    intro offset inHeader
    apply inArena _ (shared.header_mem (by omega))
    intro block isBlock inside
    have behind := (shared.block_inside isBlock (block.payload_within.mem inside)).2
    omega
  have kept : ∀ block ∈ state.handed, ∀ offset < 16,
      words (block.addr + offset) = state.heap.words (block.addr + offset) := by
    intro block isBlock offset inHeader
    rcases block.header_mem inHeader with ⟨inRegion, outside⟩
    apply inArena _ (shared.block_inside isBlock inRegion).1
    intro other isOther inside
    by_cases same : block = other
    · exact outside (same ▸ inside)
    · exact (shared.block_apart isBlock isOther same).notMem inRegion
        (other.payload_within.mem inside)
  have afterwards : IntactBut base state.bucket.live (state.bucket.withWords words) := by
    apply shared.but.write
    intro addr apart _
    apply keeps addr
    · intro block isBlock inside
      exact apart arena shared.member
        (shared.block_inside isBlock (block.payload_within.mem inside)).1
    · exact fun allocation isLive _ => apart allocation isLive
  exact ⟨shared.frame _ afterwards shared.member rfl rfl arenaKept kept,
    arenaKept 0 (by decide)⟩

/-! ### Carving -/

/-- What carving comes to while there is room: a header at the cursor, and the cursor behind the
padded payload. -/
theorem carve_eq (shared : Shared base arena state) {size fatPtr : Nat} {heap : Heap}
    (isSize : size < 2 ^ 62) (carves : state.heap.carve arena.fatPtr size = some (fatPtr, heap)) :
    fatPtr = state.heap.load arena.fatPtr ∧ ∃ newBump,
      heap = ((state.heap.store fatPtr (fatPtr + 16)).store (fatPtr + 8) (fatPtr + 16 + size)).store
        arena.fatPtr newBump ∧
      fatPtr + 16 + size ≤ newBump ∧ newBump ≤ arena.fatPtr + 16 + arena.size ∧ 8 ∣ newBump := by
  rcases shared.arena_fits with ⟨positive, fits, -⟩
  have room := shared.room
  have isAligned := shared.cursorAligned
  have padded : iadd size 7 = size + 7 := iadd_eq (by omega)
  have below := alignDown_le (size + 7) 8
  have above := lt_alignDown_add (size + 7) (by decide : 0 < 8)
  have multiple := alignDown_dvd (size + 7) 8
  have needed : iadd (alignDown (size + 7) 8) 16 = alignDown (size + 7) 8 + 16 := iadd_eq (by omega)
  have bumped : iadd (state.heap.load arena.fatPtr) (alignDown (size + 7) 8 + 16) =
      state.heap.load arena.fatPtr + (alignDown (size + 7) 8 + 16) := iadd_eq (by omega)
  have first : iadd (state.heap.load arena.fatPtr) 16 = state.heap.load arena.fatPtr + 16 :=
    iadd_eq (by omega)
  have second : iadd (state.heap.load arena.fatPtr + 16) size =
      state.heap.load arena.fatPtr + 16 + size := iadd_eq (by omega)
  simp only [Heap.carve, padded, needed, bumped, first, second, shared.ends] at carves
  rw [if_pos (by omega)] at carves
  split at carves
  · cases carves
    exact ⟨rfl, _, rfl, by omega, by omega, by omega⟩
  · cases carves

/-- A carved block lies apart from the others, and none of them changes. -/
theorem carve (shared : Shared base arena state) {size fatPtr : Nat} {heap : Heap}
    (isSize : size < 2 ^ 62) (carves : state.heap.carve arena.fatPtr size = some (fatPtr, heap)) :
    Shared base arena { state with
        bucket := { state.bucket with heap := heap }
        handed := ⟨fatPtr, size⟩ :: state.handed } ∧
      state.heap.load arena.fatPtr ≤ heap.load arena.fatPtr ∧
      ∀ block ∈ state.handed, ∀ addr ∈ block.region, heap.words addr = state.heap.words addr := by
  rcases shared.carve_eq isSize carves with ⟨isCursor, newBump, stores, above, room, isAligned⟩
  have behind := shared.behind
  rcases shared.arena_fits with ⟨-, fits, inSpace⟩
  have startBehind : arena.fatPtr + 16 ≤ fatPtr := by omega
  have forward : state.heap.load arena.fatPtr ≤ newBump := by omega
  have cursorMoved : heap.words arena.fatPtr = newBump := by
    rw [stores]
    exact Function.update_self _ _ _
  have elsewhere : ∀ addr, addr ≠ arena.fatPtr → addr ≠ fatPtr → addr ≠ fatPtr + 8 →
      heap.words addr = state.heap.words addr := by
    intro addr notCursor notStart notEnd
    rw [stores]
    simp only [Heap.words_store, Function.update_of_ne notCursor, Function.update_of_ne notStart,
      Function.update_of_ne notEnd]
  have starts : heap.load fatPtr = fatPtr + 16 := by
    rw [stores, load_store_of_ne _ (by omega), load_store_of_ne _ (by omega)]
    exact Function.update_self _ _ _
  have ends : heap.load (fatPtr + 8) = fatPtr + 16 + size := by
    rw [stores, load_store_of_ne _ (by omega)]
    exact Function.update_self _ _ _
  have inRegion : ∀ block ∈ state.handed, ∀ addr ∈ block.region,
      arena.fatPtr + 16 ≤ addr ∧ addr < fatPtr := by
    intro block isBlock addr inside
    have isIn := (shared.blocks block isBlock).2.mem inside
    rw [Region.mem_mk, ← isCursor] at isIn
    exact isIn
  have unchanged : ∀ block ∈ state.handed, ∀ addr ∈ block.region,
      heap.words addr = state.heap.words addr := by
    intro block isBlock addr inside
    have isIn := inRegion block isBlock addr inside
    exact elsewhere addr (by omega) (by omega) (by omega)
  have afterwards : IntactBut base state.bucket.live (state.bucket.withWords heap.words) := by
    apply shared.but.write
    intro addr outside _
    have apart : addr ∉ arena.space := outside arena shared.member
    apply elsewhere
    · rintro rfl
      exact apart (inSpace.mem (Region.mem_mk.mpr ⟨by omega, by omega⟩))
    · rintro rfl
      exact apart (inSpace.mem (Region.mem_mk.mpr ⟨by omega, by omega⟩))
    · rintro rfl
      exact apart (inSpace.mem (Region.mem_mk.mpr ⟨by omega, by omega⟩))
  have globals : state.bucket.withWords heap.words = { state.bucket with heap := heap } := by
    rw [stores]
    rfl
  have endsKept : heap.words (arena.fatPtr + 8) = arena.fatPtr + 16 + arena.size :=
    (elsewhere _ (by omega) (by omega) (by omega)).trans shared.ends
  refine ⟨?_, by change _ ≤ heap.words arena.fatPtr; omega, unchanged⟩
  exact {
    but := globals ▸ afterwards
    member := shared.member
    small := shared.small
    aligned := shared.aligned
    behind := by
      change _ ≤ heap.words arena.fatPtr
      omega
    room := by
      change heap.words arena.fatPtr ≤ _
      omega
    cursorAligned := by
      change 8 ∣ heap.words arena.fatPtr
      omega
    ends := endsKept
    parties := shared.parties
    blocks := by
      change ∀ block ∈ ⟨fatPtr, size⟩ :: state.handed, 8 ∣ block.addr ∧
        block.region.Within ⟨arena.fatPtr + 16, heap.words arena.fatPtr⟩
      rw [List.forall_mem_cons, cursorMoved]
      constructor
      · exact ⟨isCursor ▸ shared.cursorAligned, startBehind, above⟩
      · intro block isBlock
        rcases shared.blocks block isBlock with ⟨blockAligned, blockWithin⟩
        exact ⟨blockAligned, blockWithin.trans ⟨Nat.le_refl _, forward⟩⟩
    headers := by
      change ∀ block ∈ ⟨fatPtr, size⟩ :: state.handed, heap.load block.addr = block.payload.first ∧
        heap.load (block.addr + 8) = block.payload.stop
      rw [List.forall_mem_cons]
      constructor
      · exact ⟨starts, ends⟩
      · intro block isBlock
        rcases shared.headers block isBlock with ⟨first, second⟩
        exact ⟨(unchanged block isBlock _ (block.header_mem (by decide : 0 < 16)).1).trans first,
          (unchanged block isBlock _ (block.header_mem (by decide : 8 < 16)).1).trans second⟩
    apart := by
      refine List.pairwise_cons.mpr ⟨fun block isBlock => ?_, shared.apart⟩
      have before := (shared.blocks block isBlock).2.2
      rw [← isCursor] at before
      exact .inr before }

/-! ### Falling back -/

/-- What is allocated outside leaves the arena as it is, and has its data outside too. -/
theorem fallback (shared : Shared base arena state) {size mmapAddr fatPtr : Nat} {heap : Heap}
    (isSize : size < 2 ^ 62)
    (maps : MAX_CLASS < sizeClass size →
      state.bucket.Maps base ⟨mmapAddr, mmapAddr + mmapSize size⟩)
    (allocates : state.heap.allocateRaw size mmapAddr = some (fatPtr, heap)) :
    Shared base arena { state with bucket := state.bucket.record ⟨fatPtr, size⟩ heap } ∧
      (⟨fatPtr, size⟩ : Allocation) ≠ arena ∧
      arena.space.Apart (Allocation.space ⟨fatPtr, size⟩) ∧
      (∀ addr ∈ arena.space, heap.words addr = state.heap.words addr) ∧
      heap.load fatPtr + size ≤ 2 ^ 47 ∧
      ∀ addr, alignDown (heap.load fatPtr) 8 ≤ addr → addr < heap.load fatPtr + size →
        addr ∈ Allocation.space ⟨fatPtr, size⟩ := by
  rcases shared.but.allocate (by omega) maps allocates with ⟨allocated, fresh, agree⟩
  let next := state.bucket.record ⟨fatPtr, size⟩ heap
  have isNew : (⟨fatPtr, size⟩ : Allocation) ∈ next.live := List.mem_cons_self
  have isUnmoved : (⟨fatPtr, size⟩ : Allocation) ∉ state.bucket.live := fun member =>
    fresh _ member rfl
  have stays : arena ∈ next.live := List.mem_cons_of_mem _ shared.member
  have different := fresh arena shared.member
  have apart := allocated.live_apart stays isNew different
  have arenaKept : ∀ addr ∈ arena.space, heap.words addr = state.heap.words addr :=
    fun addr inArena => agree.of_apart apart inArena
  have wider : IntactBut base next.live next :=
    allocated.mono (List.subset_cons_self _ _) (List.Subset.refl _)
  rcases allocated.data isNew isUnmoved (show size < 2 ^ 64 - 31 by omega) with ⟨fits, inSpace⟩
  refine ⟨?_, different.symm, apart, arenaKept, fits, inSpace⟩
  apply shared.frame { state with bucket := next } wider stays rfl rfl
  · exact fun offset inHeader => arenaKept _ (shared.header_mem (Nat.le_of_lt inHeader))
  · exact fun block isBlock offset inHeader =>
      arenaKept _ (shared.block_inside isBlock (block.header_mem inHeader).1).1

end Shared

/-! ## Allocating and copying -/

/-- What a call comes to. -/
structure Called (base : HeapRegion) (arena : Allocation) (state next : ArenaState)
    (party size : Nat) : Prop where
  shared : Shared base arena next
  forward : state.heap.load arena.fatPtr ≤ next.heap.load arena.fatPtr
  kept : ∀ block ∈ state.handed, ∀ addr ∈ block.region,
    next.heap.words addr = state.heap.words addr
  exhausted : state.heap.carve (state.ownedArenaFat party) size = none →
    next.heap.load arena.fatPtr = state.heap.load arena.fatPtr ∧ next.handed = state.handed

/-- What an allocation comes to: its data may be written, and is none of the earlier blocks'. -/
structure Allocated (base : HeapRegion) (arena : Allocation) (state next : ArenaState)
    (party size fatPtr : Nat) : Prop extends Called base arena state next party size where
  fits : next.heap.load fatPtr + size < 2 ^ 64
  data : ∀ addr, alignDown (next.heap.load fatPtr) 8 ≤ addr → addr < next.heap.load fatPtr + size →
    ((∃ block ∈ next.handed, addr ∈ block.payload) ∨
      ∃ allocation ∈ next.bucket.live, allocation ≠ arena ∧ addr ∈ allocation.space) ∧
    addr ≠ arena.fatPtr ∧ ∀ block ∈ state.handed, addr ∉ block.region

namespace Shared

theorem carve_none_or (shared : Shared base arena state) {party size fatPtr : Nat} {heap : Heap}
    (carves : state.heap.carve (state.ownedArenaFat party) size = some (fatPtr, heap)) :
    state.ownedArenaFat party = arena.fatPtr := by
  apply (shared.parties party).resolve_left
  intro isZero
  rw [isZero] at carves
  cases carves

/-- `rt_arena_alloc` keeps the invariant. -/
theorem alloc (shared : Shared base arena state) {party size mmapAddr fatPtr : Nat} {heap : Heap}
    (isSize : size < 2 ^ 62)
    (maps : MAX_CLASS < sizeClass size →
      state.bucket.Maps base ⟨mmapAddr, mmapAddr + mmapSize size⟩)
    (allocates : state.heap.arenaAlloc (state.ownedArenaFat party) size mmapAddr =
      some (fatPtr, heap)) :
    Allocated base arena state (state.record party size fatPtr heap) party size fatPtr := by
  unfold Heap.arenaAlloc at allocates
  unfold ArenaState.record
  rcases carved : state.heap.carve (state.ownedArenaFat party) size with _ | ⟨newFat, newHeap⟩
  · rw [carved] at allocates
    rcases shared.fallback isSize maps allocates with
      ⟨afterwards, fresh, apart, kept, fits, inSpace⟩
    have isLive : ⟨fatPtr, size⟩ ∈ (state.bucket.record ⟨fatPtr, size⟩ heap).live :=
      List.mem_cons_self
    have cursorIn : arena.fatPtr ∈ arena.space := shared.header_mem (Nat.zero_le 16)
    have sameCursor := kept _ cursorIn
    have blocksIn : ∀ block ∈ state.handed, ∀ addr ∈ block.region, addr ∈ arena.space :=
      fun block isBlock addr inside => (shared.block_inside isBlock inside).1
    refine ⟨⟨afterwards, Nat.le_of_eq sameCursor.symm,
      fun block isBlock addr inside => kept addr (blocksIn block isBlock addr inside),
      fun _ => ⟨sameCursor, rfl⟩⟩, Nat.lt_of_le_of_lt fits (by decide), ?_⟩
    intro addr above below
    have isIn := inSpace addr above below
    have outside : addr ∉ arena.space := apart.symm.notMem isIn
    refine ⟨.inr ⟨_, isLive, fresh, isIn⟩, ?_, ?_⟩
    · rintro rfl
      exact outside cursorIn
    · exact fun block isBlock inside => outside (blocksIn block isBlock addr inside)
  · rw [carved] at allocates
    cases allocates
    have isArena := shared.carve_none_or carved
    have carves := isArena ▸ carved
    rcases shared.carve isSize carves with ⟨afterwards, forward, kept⟩
    have starts : heap.load fatPtr = fatPtr + 16 := (afterwards.headers _ List.mem_cons_self).1
    rcases afterwards.blocks _ List.mem_cons_self with ⟨isAligned, within⟩
    have behind : arena.fatPtr + 16 ≤ fatPtr := within.1
    have before : fatPtr + 16 + size ≤ heap.load arena.fatPtr := within.2
    have room := afterwards.room
    change heap.load arena.fatPtr ≤ _ at room
    have fits := shared.arena_fits.2.1
    have onWord : alignDown (fatPtr + 16) 8 = fatPtr + 16 := by
      change 8 ∣ fatPtr at isAligned
      unfold alignDown
      omega
    refine ⟨⟨afterwards, forward, kept, ?_⟩, ?_, ?_⟩
    · intro isNone
      rw [carved] at isNone
      cases isNone
    · change heap.load fatPtr + size < 2 ^ 64
      omega
    · change ∀ addr, alignDown (heap.load fatPtr) 8 ≤ addr → addr < heap.load fatPtr + size → _
      rw [starts, onWord]
      intro addr above below
      have inPayload : addr ∈ ArenaBlock.payload ⟨fatPtr, size⟩ := ⟨above, below⟩
      refine ⟨.inl ⟨_, List.mem_cons_self, inPayload⟩, by omega, fun block isBlock inside => ?_⟩
      have apart := (List.pairwise_cons.mp afterwards.apart).1 block isBlock
      exact apart.notMem ((ArenaBlock.payload_within _).mem inPayload) inside

/-- `rt_copy_to_arena` keeps the invariant: it writes to the data that it has allocated. -/
theorem copy (shared : Shared base arena state) {party srcFat mmapAddr fatPtr : Nat} {heap : Heap}
    (isSize : state.heap.sizeOf srcFat < 2 ^ 62)
    (maps : MAX_CLASS < sizeClass (state.heap.sizeOf srcFat) →
      state.bucket.Maps base ⟨mmapAddr, mmapAddr + mmapSize (state.heap.sizeOf srcFat)⟩)
    (copies : state.heap.copyToArena srcFat (state.ownedArenaFat party) mmapAddr =
      some (fatPtr, heap)) :
    Called base arena state (state.record party (state.heap.sizeOf srcFat) fatPtr heap) party
      (state.heap.sizeOf srcFat) := by
  rcases Option.bind_eq_some_iff.mp copies with ⟨⟨dstFat, fresh⟩, allocates, copies⟩
  rcases Option.map_eq_some_iff.mp copies with ⟨copied, copies, same⟩
  cases same
  let size := state.heap.sizeOf srcFat
  let filled := state.record party size fatPtr fresh
  have allocated : Allocated base arena state filled party size fatPtr :=
    shared.alloc isSize maps allocates
  have filledHeap : filled.heap = fresh := (state.record_words party size fatPtr fresh fresh.words).1
  have fits := allocated.fits
  have data := allocated.data
  rw [filledHeap] at fits data
  have noOffset : iadd (fresh.load fatPtr) 0 = fresh.load fatPtr := iadd_eq (by omega)
  simp only [Heap.copyBytes, noOffset] at copies
  split at copies
  · split at copies
    · cases copies
      rcases @Heap.copyLoop_frame fresh _ (iadd (fresh.load srcFat) 0) size (Nat.le_of_lt fits) with
        ⟨words, loops, agree⟩
      have untouched : ∀ addr,
          (alignDown (fresh.load fatPtr) 8 ≤ addr → ¬ addr < fresh.load fatPtr + size) →
          words addr = filled.heap.words addr := by
        intro addr outside
        rw [filledHeap]
        apply agree
        rw [Region.mem_mk, not_and]
        exact outside
      have isNext : state.record party size fatPtr { fresh with words := words } =
          { filled with bucket := filled.bucket.withWords words } := by
        have isRecord := (state.record_words party size fatPtr fresh words).2
        rw [isRecord, BucketState.withWords]
        change _ = { filled with
          bucket := { filled.bucket with heap := { filled.heap with words := words } } }
        rw [filledHeap]
      rw [loops, isNext]
      have sameCursor : words arena.fatPtr = filled.heap.words arena.fatPtr :=
        untouched _ fun above below => (data _ above below).2.1 rfl
      refine ⟨(allocated.shared.write ?_).1, ?_, ?_, ?_⟩
      · intro addr outOfPayloads outOfSpaces
        apply untouched
        intro above below
        rcases (data addr above below).1 with ⟨block, isBlock, inside⟩ |
          ⟨allocation, isLive, different, inside⟩
        · exact outOfPayloads block isBlock inside
        · exact outOfSpaces allocation isLive different inside
      · exact Nat.le_trans allocated.forward (Nat.le_of_eq sameCursor.symm)
      · intro block isBlock addr inside
        refine Eq.trans ?_ (allocated.kept block isBlock addr inside)
        exact untouched addr fun above below => (data addr above below).2.2 block isBlock inside
      · intro isNone
        rcases allocated.exhausted isNone with ⟨cursorKept, sameHanded⟩
        exact ⟨sameCursor.trans cursorKept, sameHanded⟩
    · cases copies
  · cases copies

/-! ### Steps and runs -/

/-- Every step keeps the invariant and the guarantee. -/
theorem step {event : ArenaEvent} {next : ArenaState} (shared : Shared base arena state)
    (step : ArenaStep base arena state event next) :
    Shared base arena next ∧ ArenaGuarantee arena state event next := by
  have ofCall : ∀ {party size}, Called base arena state next party size →
      (event = .alloc party size ∨ event = .copy party size) →
      Shared base arena next ∧ ArenaGuarantee arena state event next := by
    intro party size called isCall
    refine ⟨called.shared, called.forward, fun other otherSize isOther => ?_⟩
    have same : other = party ∧ otherSize = size := by
      rcases isCall with rfl | rfl <;> rcases isOther with isOther | isOther <;> cases isOther <;>
        exact ⟨rfl, rfl⟩
    rw [same.1, same.2]
    exact ⟨called.kept, called.exhausted⟩
  cases step with
  | alloc party size mmapAddr fatPtr isSize maps allocates =>
      exact ofCall (shared.alloc isSize maps allocates).toCalled (.inl rfl)
  | copy party srcFat mmapAddr fatPtr isSize maps copies =>
      exact ofCall (shared.copy isSize maps copies) (.inr rfl)
  | spawn parent child =>
      refine ⟨?_, Nat.le_refl _, by rintro party size (isCall | isCall) <;> cases isCall⟩
      refine { shared with parties := fun party => ?_ }
      by_cases isChild : party = child
      · rw [isChild]
        change Function.update _ _ _ _ = 0 ∨ Function.update _ _ _ _ = _
        rw [Function.update_self]
        exact shared.parties parent
      · change Function.update _ _ _ _ = 0 ∨ Function.update _ _ _ _ = _
        rw [Function.update_of_ne isChild]
        exact shared.parties party
  | write words writes =>
      rcases shared.write writes with ⟨afterwards, sameCursor⟩
      refine ⟨afterwards, Nat.le_of_eq sameCursor.symm, ?_⟩
      rintro party size (isCall | isCall) <;> cases isCall

/-- An arena that nothing was carved off yet. -/
theorem start {bucket : BucketState} {moved : List Allocation} (but : IntactBut base moved bucket)
    (aligned : ChunksAligned bucket) (member : arena ∈ bucket.live) (isUnmoved : arena ∉ moved)
    (small : arena.isHuge = false) {ownedArenaFat : Nat → Nat}
    (parties : ∀ party, ownedArenaFat party = 0 ∨ ownedArenaFat party = arena.fatPtr) :
    Shared base arena ⟨bucket, ownedArenaFat, []⟩ := by
  rcases but.header member isUnmoved small with ⟨isChunk, starts, ends⟩
  have isAligned : 16 ∣ arena.fatPtr := aligned _ isChunk
  exact {
    but := but.mono but.areLive (List.Subset.refl _)
    member := member
    small := small
    aligned := by omega
    behind := Nat.le_of_eq starts.symm
    room := Nat.le_trans (Nat.le_of_eq starts) (Nat.le_add_right _ _)
    cursorAligned := by
      change 8 ∣ bucket.heap.load arena.fatPtr
      omega
    ends := ends
    parties := parties
    blocks := nofun
    headers := nofun
    apart := List.Pairwise.nil }

end Shared

/-- However an actor and those that hold its arena take turns, the blocks carved off it are apart
and in their places, and each call keeps them and moves the one cursor forward. -/
theorem arena_blocks_disjoint {bucket : BucketState} {moved : List Allocation}
    (but : IntactBut base moved bucket) (aligned : ChunksAligned bucket) (member : arena ∈ bucket.live)
    (isUnmoved : arena ∉ moved) (small : arena.isHuge = false) {ownedArenaFat : Nat → Nat}
    (parties : ∀ party, ownedArenaFat party = 0 ∨ ownedArenaFat party = arena.fatPtr)
    {history : List (Stage ArenaState ArenaEvent)} {state : ArenaState}
    (run : Run (ArenaStep base arena) ⟨bucket, ownedArenaFat, []⟩ history state) :
    ArenaSafe arena state ∧ ∀ event next, ArenaStep base arena state event next →
      ArenaGuarantee arena state event next := by
  have shared := (run.invariant (Shared.start but aligned member isUnmoved small parties)
    fun _ _ _ shared step => (shared.step step).1).2
  exact ⟨shared.safe, fun _ _ step => (shared.step step).2⟩

/-- The allocator with one arena in it. -/
def arenaHeld : BucketState :=
  emptyState.record ⟨4096, 65536⟩ (heapAfter (emptyState.heap.allocateRaw 65536 0))

/-- An actor and a machine that it spawned carve ten and twenty bytes. -/
theorem arena_blocks_disjoint_two : ∃ history state,
    Run (ArenaStep lowHeap ⟨4096, 65536⟩) ⟨arenaHeld, Function.update (fun _ => 0) 0 4096, []⟩ history
        state ∧
      state.handed = [⟨4144, 20⟩, ⟨4112, 10⟩] ∧ ArenaSafe ⟨4096, 65536⟩ state := by
  have notHuge : ∀ size ≤ 2 ^ 24, ∀ {P : Prop}, MAX_CLASS < sizeClass size → P :=
    fun size inRange _ isHuge => absurd ((huge_iff (by omega)).mp isHuge) (Nat.not_lt.mpr inRange)
  have allocates : emptyState.heap.allocateRaw 65536 0 = some (4096, _) :=
    returned (by decide +kernel)
  have held : BucketStep lowHeap emptyState (.allocate 65536 4096) arenaHeld :=
    .allocate 65536 0 4096 (by decide) (notHuge _ (by decide)) allocates
  rcases (intact_start lowHeap fun _ => 0).allocate_spec (by decide) (notHuge _ (by decide))
    allocates with ⟨⟨dead, intact⟩, -⟩
  have aligned : ChunksAligned arenaHeld :=
    ChunksAligned.step (fun _ member => absurd member List.not_mem_nil)
      (intact_start lowHeap fun _ => 0) held
  have small : Allocation.isHuge ⟨4096, 65536⟩ = false := by decide +kernel
  let started : ArenaState := ⟨arenaHeld, Function.update (fun _ => 0) 0 4096, []⟩
  let spawned : ArenaState :=
    { started with ownedArenaFat := Function.update started.ownedArenaFat 1 (started.ownedArenaFat 0) }
  let carved : ArenaState := spawned.record 1 10 4112 (heapAfter (spawned.heap.arenaAlloc 4096 10 0))
  have first : ArenaStep lowHeap ⟨4096, 65536⟩ spawned (.alloc 1 10) carved :=
    .alloc 1 10 0 4112 (by decide) (notHuge _ (by decide)) (returned (by decide +kernel))
  have second := @ArenaStep.alloc lowHeap ⟨4096, 65536⟩ carved _ 0 20 0 4144 (by decide)
    (notHuge _ (by decide)) (returned (by decide +kernel))
  have parties : ∀ party, started.ownedArenaFat party = 0 ∨ started.ownedArenaFat party = 4096 := by
    intro party
    by_cases isOwner : party = 0
    · rw [isOwner]
      exact .inr rfl
    · exact .inl (Function.update_of_ne isOwner 4096 fun _ => 0)
  have run := ((Run.refl.next (ArenaStep.spawn 0 1)).next first).next second
  exact ⟨_, _, run, by decide +kernel,
    (arena_blocks_disjoint (.of_intact intact) aligned List.mem_cons_self List.not_mem_nil small
      parties run).1⟩

end LakeNative.Arenas

import LakeNative.Allocators.SlabRequests
import LakeNative.Arenas.Carving

/-! # What a request of an arena comes back with

The rounded size is added to the cursor before the sum is compared with the arena's end, and a
sum that wraps can seem to fit.
-/

namespace LakeNative.Arenas

open LakeNative.Runtime LakeNative.Regions LakeNative.Allocators

variable {base : HeapRegion} {arena : Allocation} {state : ArenaState}

namespace ArenaState

/-- What of the arena was not handed out yet. -/
def rest (state : ArenaState) (arena : Allocation) : Region :=
  ⟨state.heap.load arena.fatPtr, arena.fatPtr + 16 + arena.size⟩

/-- Where the cursor is to be behind a buffer, without a wrap. -/
def behind (state : ArenaState) (arena : Allocation) (size : Nat) : Nat :=
  state.heap.load arena.fatPtr + 16 + (size + 7) / 8 * 8

/-- A carved buffer is met if it has room in what is left of the arena. -/
def CarvedMet (state : ArenaState) (arena : Allocation) (caller : Caller) (size : Nat)
    (result : CallResult Heap) : Prop :=
  ∃ fatPtr after, result = .returned fatPtr after caller ∧
    SizedBlock after size fatPtr (state.rest arena) ((state.rest arena).Within arena.space)
      (state.handed.map ArenaBlock.region ++
        (state.bucket.live.filter (· ≠ arena)).map Allocation.space)

/-- A request is met in the arena, or as one of the allocator. -/
def Met (base : HeapRegion) (state : ArenaState) (arena : Allocation) (party : Nat)
    (caller : Caller) (size : Nat) (answer : Answer) (result : CallResult Heap) : Prop :=
  match state.heap.carve (state.ownedArenaFat party) size with
  | some _ => state.CarvedMet arena caller size result
  | none => BlockMet base state.bucket caller size answer result

/-- The sizes that are served well: those that the arena has room for, and those that go to the
allocator without a wrap. -/
def Served (state : ArenaState) (arena : Allocation) (party size : Nat) (answer : Answer) : Prop :=
  state.ownedArenaFat party ≠ 0 ∧ state.behind arena size ≤ (state.rest arena).stop ∨
    (state.ownedArenaFat party = 0 ∨
      (state.rest arena).stop < state.behind arena size ∧ state.behind arena size < 2 ^ 64) ∧
      SizeServed size answer

end ArenaState

/-- A sum that wraps looks as if it fitted, but for sizes that the allocator wraps too. -/
theorem wrapped_fits {cursor stop size : Nat} (isWord : size < 2 ^ 64) (before : cursor ≤ stop)
    (noWrap : size < 2 ^ 64 - 31) (wraps : 2 ^ 64 ≤ cursor + 16 + (size + 7) / 8 * 8)
    (fits : stop ≤ 2 ^ 47) :
    iadd cursor (iadd (alignDown (iadd size 7) 8) 16) ≤ stop := by
  unfold iadd alignDown
  omega

namespace Shared

/-- The header of what is carved off. -/
theorem carved_header (shared : Shared base arena state) {size fatPtr : Nat} {after : Heap}
    (carves : state.heap.carve arena.fatPtr size = some (fatPtr, after)) :
    fatPtr = state.heap.load arena.fatPtr ∧ after.load fatPtr = fatPtr + 16 ∧
      after.load (fatPtr + 8) = iadd (fatPtr + 16) size := by
  rcases shared.arena_fits with ⟨positive, fits, -⟩
  have behind := shared.behind
  have room := shared.room
  have first : iadd (state.heap.load arena.fatPtr) 16 = state.heap.load arena.fatPtr + 16 :=
    iadd_eq (by omega)
  simp only [Heap.carve, first, shared.ends] at carves
  rw [if_pos (by omega)] at carves
  split at carves
  · cases carves
    refine ⟨rfl, ?_, ?_⟩
    · rw [load_store_of_ne _ (by omega), load_store_of_ne _ (by omega)]
      exact Function.update_self _ _ _
    · rw [load_store_of_ne _ (by omega)]
      exact Function.update_self _ _ _
  · cases carves

/-- Whether the arena is used is decided by the sum that can wrap. -/
theorem carve_none_iff (shared : Shared base arena state) (size : Nat) :
    state.heap.carve arena.fatPtr size = none ↔
      (state.rest arena).stop <
        iadd (state.heap.load arena.fatPtr) (iadd (alignDown (iadd size 7) 8) 16) := by
  have positive := shared.arena_fits.1
  simp only [Heap.carve, shared.ends]
  rw [if_pos (by omega)]
  change _ ↔ arena.fatPtr + 16 + arena.size < _
  split
  · exact iff_of_false (Option.some_ne_none _) (by omega)
  · exact iff_of_true rfl (by omega)

/-- What is left of the arena is apart from what was handed out and from other allocations. -/
theorem rest_apart (shared : Shared base arena state) :
    (state.rest arena).Within arena.space ∧
      ∀ other ∈ state.handed.map ArenaBlock.region ++
          (state.bucket.live.filter (· ≠ arena)).map Allocation.space,
        other.Apart (state.rest arena) := by
  have behind := shared.behind
  have within : (state.rest arena).Within arena.space := by
    refine Region.Within.trans ?_ shared.arena_fits.2.2
    exact ⟨by dsimp only [ArenaState.rest]; omega, Nat.le_refl _⟩
  refine ⟨within, fun other isOther => ?_⟩
  rcases List.mem_append.mp isOther with isBlock | isSpace
  · rcases List.mem_map.mp isBlock with ⟨block, member, rfl⟩
    exact .inl (shared.blocks block member).2.2
  · rcases List.mem_map.mp isSpace with ⟨allocation, member, rfl⟩
    rcases List.mem_filter.mp member with ⟨isLive, different⟩
    have apart := shared.but.live_apart shared.member isLive (of_decide_eq_true different).symm
    exact (apart.within within).symm

/-- A carved buffer is met if the sum does not wrap. -/
theorem carved_met_iff (shared : Shared base arena state) (caller : Caller) {size fatPtr : Nat}
    {after : Heap} (isWord : size < 2 ^ 64)
    (carves : state.heap.carve arena.fatPtr size = some (fatPtr, after)) :
    state.CarvedMet arena caller size (state.heap.merge caller (some (fatPtr, after))) ↔
      state.behind arena size ≤ (state.rest arena).stop := by
  rcases shared.arena_fits with ⟨positive, fits, -⟩
  have behind := shared.behind
  have cursorAligned := shared.cursorAligned
  rcases shared.carved_header carves with ⟨isCursor, starts, ends⟩
  rw [← isCursor] at behind cursorAligned
  have isBehind : state.behind arena size = fatPtr + 16 + (size + 7) / 8 * 8 := by
    rw [ArenaState.behind, ← isCursor]
  have isRest : state.rest arena = ⟨fatPtr, arena.fatPtr + 16 + arena.size⟩ := by
    rw [ArenaState.rest, ← isCursor]
  have isFit : ¬ state.heap.carve arena.fatPtr size = none := by
    rw [carves]
    exact nofun
  rw [shared.carve_none_iff, ← isCursor, isRest, Nat.not_lt] at isFit
  rw [isBehind, isRest]
  dsimp only at isFit ⊢
  constructor
  · rintro ⟨other, heap, isReturned, sized⟩
    have returned : CallResult.returned other heap caller = .returned fatPtr after caller := by
      rw [← isReturned, Heap.merge]
      split
      · rfl
      · rw [Heap.merge, if_neg ‹_›] at isReturned
        cases isReturned
    cases returned
    rw [SizedBlock, starts, ends, isRest] at sized
    have ordered := sized.ordered
    have inside := sized.inside.2
    dsimp only at inside
    unfold iadd alignDown at *
    omega
  · intro inArena
    have isThere : accessible fatPtr = true := by
      rw [accessible, decide_eq_true_iff]
      omega
    have stop : iadd (fatPtr + 16) size = fatPtr + 16 + size := iadd_eq (by omega)
    rcases shared.rest_apart with ⟨within, apart⟩
    refine ⟨fatPtr, after, if_pos isThere, ?_⟩
    rw [isRest] at within apart
    rw [SizedBlock, starts, ends, stop, isRest]
    refine ⟨by omega, by omega, ⟨?_, ?_⟩, within, apart⟩
    · exact Nat.le_add_right _ _
    · dsimp only
      omega

theorem arena_met_iff (shared : Shared base arena state) (caller : Caller) {party size : Nat}
    {answer : Answer} (isWord : size < 2 ^ 64)
    (promised : Promised base state.bucket size answer) :
    state.Met base arena party caller size answer
        (state.heap.rtArenaAlloc caller (state.ownedArenaFat party) size (rtMmap answer)) ↔
      state.Served arena party size answer := by
  have raw := shared.but.raw_met_iff caller isWord promised
  rcases shared.arena_fits with ⟨positive, fits, -⟩
  have room := shared.room
  rcases shared.parties party with isZero | isArena
  · have noArena : state.heap.carve (state.ownedArenaFat party) size = none := by
      rw [isZero]
      rfl
    rw [ArenaState.Met, noArena, Heap.rtArenaAlloc, Heap.arenaAlloc, noArena]
    refine raw.trans ⟨fun served => .inr ⟨.inl isZero, served⟩, ?_⟩
    rintro (⟨holds, -⟩ | ⟨-, served⟩)
    · exact absurd isZero holds
    · exact served
  · rw [ArenaState.Met, ArenaState.Served, Heap.rtArenaAlloc, Heap.arenaAlloc, isArena]
    have holds : arena.fatPtr ≠ 0 := Nat.ne_of_gt positive
    have isStop : (state.rest arena).stop = arena.fatPtr + 16 + arena.size := rfl
    have isBehind : state.behind arena size =
        state.heap.load arena.fatPtr + 16 + (size + 7) / 8 * 8 := rfl
    rcases carved : state.heap.carve arena.fatPtr size with _ | ⟨fatPtr, after⟩
    · have tooLarge := (shared.carve_none_iff size).mp carved
      dsimp only
      refine raw.trans ⟨fun served => ?_, ?_⟩
      · refine .inr ⟨.inr ?_, served⟩
        have noWrap : size < 2 ^ 64 - 31 := by
          rcases served with small | ⟨noWrap, -⟩
          · omega
          · exact noWrap
        by_contra outside
        have wraps : 2 ^ 64 ≤ state.heap.load arena.fatPtr + 16 + (size + 7) / 8 * 8 := by
          by_contra below
          unfold iadd alignDown at tooLarge
          omega
        have seems := wrapped_fits isWord room noWrap wraps fits
        omega
      · rintro (⟨-, inArena⟩ | ⟨-, served⟩)
        · unfold iadd alignDown at tooLarge
          omega
        · exact served
    · dsimp only
      rw [shared.carved_met_iff caller isWord carved]
      constructor
      · exact fun inArena => .inl ⟨holds, inArena⟩
      · rintro (⟨-, inArena⟩ | ⟨isZero | ⟨tooLarge, noWrap⟩, -⟩)
        · exact inArena
        · exact absurd isZero holds
        · have isNone : state.heap.carve arena.fatPtr size = none := by
            rw [shared.carve_none_iff]
            unfold iadd alignDown
            omega
          rw [carved] at isNone
          cases isNone

end Shared

end LakeNative.Arenas

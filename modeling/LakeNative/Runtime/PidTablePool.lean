import LakeNative.Runtime.PidTable

/-! # The pid table as a slot pool

The table and its free stack represent a `SlotPool` whose used slots are those of
the live actors. `assignPid` is the pool's `acquire` and `clearPid` its
`release`.
-/

namespace LakeNative.Runtime

open LakeNative.DenseArray

/-- A live actor as the table knows it: its process context and the pid that
`assign_pid` returned for it. -/
structure Holder where
  procCtx : Word
  ownPid : Word
  deriving DecidableEq

def Holder.slot (holder : Holder) : Word := slotOf holder.ownPid

namespace PidTable

/-- The recycled slots on the stack, the top one last. -/
def freeList (table : PidTable) : List Word :=
  table.freeSlots.slice 0 table.freeSlotsLen.toNat

/-- The table with these live actors stands for this pool, and each live actor's
entry holds its context and the generation its pid was packed from. -/
structure Represents (table : PidTable) (holders : List Holder) (pool : SlotPool) :
    Prop where
  used : (holders.map fun holder => holder.slot.toNat).Perm pool.used
  free : table.freeList.map BitVec.toNat = pool.free
  created : table.pidTableLen.toNat = pool.created + 1
  room : table.pidTableLen.toNat < table.pidTable.cap
  freeRoom : table.freeSlotsLen.toNat < table.freeSlots.cap
  fits : table.FitsHeap
  holds : ∀ holder ∈ holders, (table.pidTable.load holder.slot).procCtx = holder.procCtx
  packed : ∀ holder ∈ holders,
    holder.ownPid = packPid (table.pidTable.load holder.slot).gen holder.slot
  cleared : ∀ slot ∈ table.freeList, (table.pidTable.load slot).procCtx = 0
  null : table.pidTable.entry 0 = ⟨0, 0⟩

theorem init_represents : init.Represents [] .empty where
  used := .nil
  free := rfl
  created := rfl
  room := by decide
  freeRoom := by decide
  fits := by decide
  holds := by simp
  packed := by simp
  cleared := by simp [freeList, init, HeapArray.slice]
  null := rfl

namespace Represents

variable {table : PidTable} {holders : List Holder} {pool : SlotPool}

/-- Every slot number fits the slot half of a pid, since the table lies in the
heap. -/
theorem cap_le (represents : table.Represents holders pool) :
    table.pidTable.cap ≤ 2 ^ 28 := by
  have fits := represents.fits
  simp only [FitsHeap, HEAP_SIZE] at fits
  omega

theorem created_lt (represents : table.Represents holders pool) :
    pool.created + 1 < table.pidTable.cap := by
  rw [← represents.created]
  exact represents.room

theorem slot_used (represents : table.Represents holders pool) {holder : Holder}
    (live : holder ∈ holders) : holder.slot.toNat ∈ pool.used :=
  represents.used.mem_iff.mp (List.mem_map_of_mem live)

theorem slot_range (represents : table.Represents holders pool) {holder : Holder}
    (live : holder ∈ holders) :
    1 ≤ holder.slot.toNat ∧ holder.slot.toNat ≤ pool.created :=
  pool.mem_used_range (represents.slot_used live)

theorem slots_nodup (represents : table.Represents holders pool) :
    (holders.map fun holder => holder.slot.toNat).Nodup :=
  represents.used.nodup_iff.mpr pool.used_nodup

/-- Two live actors never share a slot. -/
theorem eq_of_slot_eq (represents : table.Represents holders pool)
    {holder other : Holder} (live : holder ∈ holders) (otherLive : other ∈ holders)
    (sameSlot : holder.slot = other.slot) : holder = other :=
  List.inj_on_of_nodup_map represents.slots_nodup live otherLive (by rw [sameSlot])

/-- The live and the recycled slots are the pool's slots, as words. -/
theorem slots_perm (represents : table.Represents holders pool) :
    ((holders.map Holder.slot ++ table.freeList).map BitVec.toNat).Perm
      (pool.used ++ pool.free) := by
  rw [List.map_append, represents.free, List.map_map]
  exact represents.used.append_right pool.free

theorem slots_append_nodup (represents : table.Represents holders pool) :
    (holders.map Holder.slot ++ table.freeList).Nodup :=
  List.Nodup.of_map _ (represents.slots_perm.nodup_iff.mpr pool.nodup)

theorem mem_slots (represents : table.Represents holders pool) (slot : Word) :
    slot ∈ holders.map Holder.slot ++ table.freeList ↔
      1 ≤ slot.toNat ∧ slot.toNat < table.pidTableLen.toNat := by
  have asNumbers : slot ∈ holders.map Holder.slot ++ table.freeList ↔
      slot.toNat ∈ pool.used ++ pool.free := by
    rw [← represents.slots_perm.mem_iff]
    refine ⟨List.mem_map_of_mem, fun member => ?_⟩
    rcases List.mem_map.mp member with ⟨other, isSlot, same⟩
    rwa [← BitVec.eq_of_toNat_eq same]
  rw [asNumbers, List.mem_append, pool.mem_used_or_free, represents.created]
  omega

theorem free_range (represents : table.Represents holders pool) {slot : Word}
    (isFree : slot ∈ table.freeList) :
    1 ≤ slot.toNat ∧ slot.toNat ≤ pool.created := by
  apply pool.mem_free_range
  rw [← represents.free]
  exact List.mem_map_of_mem isFree

theorem freeSlotsLen_eq (represents : table.Represents holders pool) :
    table.freeSlotsLen.toNat = pool.free.length := by
  rw [← represents.free]
  simp [freeList]

theorem freeSlotsLen_le (represents : table.Represents holders pool) :
    table.freeSlotsLen.toNat ≤ pool.created := by
  rw [represents.freeSlotsLen_eq]
  exact pool.length_free_le

/-! ## Acquiring a slot -/

/-- `emit_acquire_slot` hands out the pool's slot and leaves its stack and mark. -/
theorem emitAcquireSlot (represents : table.Represents holders pool) :
    table.emitAcquireSlot.1.toNat = pool.acquire.1 ∧
      table.emitAcquireSlot.2.freeList.map BitVec.toNat = pool.acquire.2.free ∧
      table.emitAcquireSlot.2.pidTableLen.toNat = pool.acquire.2.created + 1 := by
  have capBound := represents.cap_le
  have createdBound := represents.created_lt
  have lenEq := represents.created
  have freeLen := represents.freeSlotsLen_eq
  have freeEq := represents.free
  by_cases noneFree : table.freeSlotsLen = 0
  · have emptyFree : pool.free = [] := by
      apply List.length_eq_zero_iff.mp
      rw [← freeLen, noneFree]
      rfl
    have fresh := pool.acquire_fresh emptyFree
    simp only [PidTable.emitAcquireSlot, noneFree, if_true]
    refine ⟨by rw [lenEq, fresh.1], ?_, ?_⟩
    · rw [fresh.2.2.1]
      simp [freeList, HeapArray.slice]
    · rw [fresh.2.2.2, toNat_succ _ (by omega), lenEq]
  · have positive : table.freeSlotsLen.toNat ≠ 0 := toNat_ne_zero noneFree
    have lowered : (table.freeSlotsLen - 1).toNat = table.freeSlotsLen.toNat - 1 :=
      toNat_pred noneFree
    have stack : pool.free =
        (table.freeSlots.slice 0 (table.freeSlotsLen - 1).toNat).map BitVec.toNat ++
          [(table.freeSlots.load (table.freeSlotsLen - 1)).toNat] := by
      rw [← freeEq, freeList, lowered]
      rcases Nat.exists_eq_succ_of_ne_zero positive with ⟨count, countEq⟩
      rw [HeapArray.load, lowered, countEq, HeapArray.slice, cellsFrom_succ]
      simp [HeapArray.slice]
    have recycled := pool.acquire_recycled stack
    simp only [PidTable.emitAcquireSlot, noneFree, if_false]
    refine ⟨recycled.1.symm, ?_, ?_⟩
    · rw [recycled.2.2.1, freeList]
    · rw [recycled.2.2.2, lenEq]

theorem acquired_range (represents : table.Represents holders pool) :
    1 ≤ table.emitAcquireSlot.1.toNat ∧
      table.emitAcquireSlot.1.toNat ≤ pool.created + 1 := by
  rw [represents.emitAcquireSlot.1]
  exact pool.acquire_range

theorem acquired_succ (represents : table.Represents holders pool) :
    (table.emitAcquireSlot.1 + 1).toNat = table.emitAcquireSlot.1.toNat + 1 := by
  have range := represents.acquired_range
  have createdBound := represents.created_lt
  have capBound := represents.cap_le
  exact toNat_succ _ (by omega)

theorem acquired_lt (represents : table.Represents holders pool) :
    table.emitAcquireSlot.1.toNat < 2 ^ 32 := by
  have range := represents.acquired_range
  have createdBound := represents.created_lt
  have capBound := represents.cap_le
  omega

/-- Growing for a new slot moves every entry handed out so far along with it: a
recycled slot never grows the table, a new one is behind all others. -/
theorem assignedFrom_entry (represents : table.Represents holders pool)
    (fresh : Nat → PidEntry) {slot : Nat} (handedOut : slot ≤ pool.created) :
    (table.assignedFrom fresh).entry slot = table.pidTable.entry slot := by
  by_cases below : slot < (table.emitAcquireSlot.1 + 1).toNat
  · exact HeapArray.grow_entry_of_lt _ _ _ below
  · have recycled : table.emitAcquireSlot.1.toNat < pool.created := by
      rw [represents.acquired_succ] at below
      omega
    have createdBound := represents.created_lt
    have fits : (table.emitAcquireSlot.1 + 1).toNat < table.pidTable.cap := by
      rw [represents.acquired_succ]
      omega
    rw [assignedFrom, HeapArray.grow_of_lt _ _ _ fits]

theorem acquired_lt_cap (represents : table.Represents holders pool)
    (fresh : Nat → PidEntry) :
    (table.emitAcquireSlot.1 + 1).toNat < (table.assignedFrom fresh).cap := by
  have createdBound := represents.created_lt
  have range := represents.acquired_range
  apply HeapArray.lt_grow_cap
  · omega
  · rw [represents.acquired_succ]
    omega

/-! ## Assigning a pid -/

theorem slotOf_assignPid (represents : table.Represents holders pool)
    (procCtx : Word) (fresh : Nat → PidEntry) :
    slotOf (table.assignPid procCtx fresh).1 = table.emitAcquireSlot.1 :=
  slotOf_packPid _ _ represents.acquired_lt

theorem assignPid_entry_acquired (table : PidTable) (procCtx : Word)
    (fresh : Nat → PidEntry) :
    (table.assignPid procCtx fresh).2.pidTable.load table.emitAcquireSlot.1 =
      ⟨table.newGen fresh, procCtx⟩ := by
  simp [PidTable.assignPid, HeapArray.load]

theorem assignPid_entry_other (represents : table.Represents holders pool)
    (procCtx : Word) (fresh : Nat → PidEntry) {slot : Nat}
    (handedOut : slot ≤ pool.created) (other : slot ≠ table.emitAcquireSlot.1.toNat) :
    (table.assignPid procCtx fresh).2.pidTable.entry slot = table.pidTable.entry slot := by
  rw [PidTable.assignPid, HeapArray.store_entry, Function.update_of_ne other]
  exact represents.assignedFrom_entry fresh handedOut

theorem acquired_ne_slot (represents : table.Represents holders pool)
    {holder : Holder} (live : holder ∈ holders) :
    holder.slot.toNat ≠ table.emitAcquireSlot.1.toNat := by
  intro same
  apply pool.acquire_notMem_used
  rw [← represents.emitAcquireSlot.1, ← same]
  exact represents.slot_used live

/-- What is still free after acquiring a slot was free before and is another slot. -/
theorem freeList_acquired (represents : table.Represents holders pool) {slot : Word}
    (isFree : slot ∈ table.emitAcquireSlot.2.freeList) :
    slot ∈ table.freeList ∧ slot.toNat ≠ table.emitAcquireSlot.1.toNat := by
  have acquired := represents.emitAcquireSlot
  have stillFree : slot.toNat ∈ pool.acquire.2.free := by
    rw [← acquired.2.1]
    exact List.mem_map_of_mem isFree
  constructor
  · have wasFree := pool.acquire_free_subset stillFree
    rw [← represents.free] at wasFree
    rcases List.mem_map.mp wasFree with ⟨other, member, same⟩
    rwa [← BitVec.eq_of_toNat_eq same]
  · rw [acquired.1]
    intro same
    exact pool.acquire_notMem_free (same ▸ stillFree)

/-- `assign_pid` acquires a slot of the pool for the new actor. -/
theorem assignPid (represents : table.Represents holders pool)
    (procCtx : Word) (fresh : Nat → PidEntry)
    (fits : (table.assignPid procCtx fresh).2.FitsHeap) :
    (table.assignPid procCtx fresh).2.Represents
      (⟨procCtx, (table.assignPid procCtx fresh).1⟩ :: holders) pool.acquire.2 := by
  have acquired := represents.emitAcquireSlot
  have newSlot := represents.slotOf_assignPid procCtx fresh
  have older : ∀ holder ∈ holders,
      (table.assignPid procCtx fresh).2.pidTable.load holder.slot =
        table.pidTable.load holder.slot := fun holder live =>
    represents.assignPid_entry_other procCtx fresh
      (represents.slot_range live).2 (represents.acquired_ne_slot live)
  exact {
    used := by
      rw [pool.acquire_used, List.map_cons, Holder.slot, newSlot, acquired.1]
      exact represents.used.cons _
    free := acquired.2.1
    created := acquired.2.2
    room := by
      have below := represents.acquired_lt_cap fresh
      have capGrows : table.pidTable.cap ≤ (table.assignedFrom fresh).cap :=
        HeapArray.grow_cap_le _ _ _
      have before := represents.created_lt
      change table.emitAcquireSlot.2.pidTableLen.toNat < (table.assignedFrom fresh).cap
      rw [represents.acquired_succ] at below
      rw [acquired.2.2]
      rcases pool.acquire_created with created | reused
      · omega
      · omega
    freeRoom := by
      have lenLe : table.emitAcquireSlot.2.freeSlotsLen.toNat ≤
          table.freeSlotsLen.toNat := by
        unfold PidTable.emitAcquireSlot
        split
        · exact Nat.le_refl _
        · simp only
          rw [toNat_pred (by assumption)]
          omega
      have sameArray : table.emitAcquireSlot.2.freeSlots = table.freeSlots := by
        unfold PidTable.emitAcquireSlot
        split <;> rfl
      change table.emitAcquireSlot.2.freeSlotsLen.toNat <
        table.emitAcquireSlot.2.freeSlots.cap
      rw [sameArray]
      exact Nat.lt_of_le_of_lt lenLe represents.freeRoom
    fits := fits
    holds := by
      intro holder live
      rcases List.mem_cons.mp live with rfl | old
      · rw [Holder.slot, newSlot, assignPid_entry_acquired]
      · rw [older holder old]
        exact represents.holds holder old
    packed := by
      intro holder live
      rcases List.mem_cons.mp live with rfl | old
      · rw [Holder.slot, newSlot, assignPid_entry_acquired]
        rfl
      · rw [older holder old]
        exact represents.packed holder old
    cleared := by
      intro slot isFree
      have wasFree := represents.freeList_acquired isFree
      have range := represents.free_range wasFree.1
      rw [HeapArray.load, represents.assignPid_entry_other procCtx fresh range.2 wasFree.2]
      exact represents.cleared slot wasFree.1
    null := by
      have range := represents.acquired_range
      rw [represents.assignPid_entry_other procCtx fresh (Nat.zero_le _) (by omega)]
      exact represents.null }

/-! ## Clearing a pid -/

theorem slot_ne_zero (represents : table.Represents holders pool) {holder : Holder}
    (live : holder ∈ holders) : holder.slot ≠ 0 := by
  intro zero
  have range := represents.slot_range live
  rw [zero] at range
  exact absurd range.1 (by decide)

/-- Clearing writes one entry, whichever way the branch on slot 0 goes. -/
theorem clearPid_pidTable (table : PidTable) (pid : Word) (fresh : Nat → Word) :
    (table.clearPid pid fresh).pidTable =
      table.pidTable.store (slotOf pid) ⟨(table.pidTable.load (slotOf pid)).gen, 0⟩ := by
  simp only [PidTable.clearPid]
  split <;> rfl

theorem clearPid_pidTableLen (table : PidTable) (pid : Word) (fresh : Nat → Word) :
    (table.clearPid pid fresh).pidTableLen = table.pidTableLen := by
  simp only [PidTable.clearPid]
  split <;> rfl

theorem clearPid_entry_self (table : PidTable) (pid : Word) (fresh : Nat → Word) :
    (table.clearPid pid fresh).pidTable.load (slotOf pid) =
      ⟨(table.pidTable.load (slotOf pid)).gen, 0⟩ := by
  simp [clearPid_pidTable, HeapArray.load]

theorem clearPid_entry_other (table : PidTable) (pid : Word) (fresh : Nat → Word)
    {slot : Nat} (other : slot ≠ (slotOf pid).toNat) :
    (table.clearPid pid fresh).pidTable.entry slot = table.pidTable.entry slot := by
  rw [clearPid_pidTable, HeapArray.store_entry, Function.update_of_ne other]

theorem clearPid_cap (table : PidTable) (pid : Word) (fresh : Nat → Word) :
    (table.clearPid pid fresh).pidTable.cap = table.pidTable.cap := by
  rw [clearPid_pidTable, HeapArray.store_cap]

theorem freeSlotsLen_succ (represents : table.Represents holders pool) :
    (table.freeSlotsLen + 1).toNat = table.freeSlotsLen.toNat + 1 := by
  have lenLe := represents.freeSlotsLen_le
  have createdBound := represents.created_lt
  have capBound := represents.cap_le
  exact toNat_succ _ (by omega)

theorem clearPid_freeSlots (represents : table.Represents holders pool)
    {holder : Holder} (live : holder ∈ holders) (fresh : Nat → Word) :
    (table.clearPid holder.ownPid fresh).freeList = table.freeList ++ [holder.slot] ∧
      (table.clearPid holder.ownPid fresh).freeSlotsLen.toNat <
        (table.clearPid holder.ownPid fresh).freeSlots.cap := by
  have realSlot : slotOf holder.ownPid ≠ 0 := represents.slot_ne_zero live
  have lenSucc := represents.freeSlotsLen_succ
  have room := represents.freeRoom
  simp only [PidTable.clearPid, realSlot, if_false, freeList]
  constructor
  · rw [lenSucc, HeapArray.slice_store_append _ _ _ (by omega),
      HeapArray.slice_grow _ _ _ (by omega)]
    rfl
  · rw [HeapArray.store_cap]
    exact HeapArray.lt_grow_cap _ _ _ (by omega) (by omega)

/-- `clear_pid` of a live actor releases its slot. -/
theorem clearPid (represents : table.Represents holders pool) {holder : Holder}
    (live : holder ∈ holders) (fresh : Nat → Word) :
    (table.clearPid holder.ownPid fresh).Represents (holders.erase holder)
      (pool.release holder.slot.toNat (represents.slot_used live)) := by
  have released := represents.clearPid_freeSlots live fresh
  have erasing := List.perm_cons_erase live
  have otherSlot : ∀ other ∈ holders.erase holder,
      other.slot.toNat ≠ holder.slot.toNat := by
    have nodup := (erasing.map fun holder => holder.slot.toNat).nodup_iff.mp
      represents.slots_nodup
    intro other remaining same
    apply (List.nodup_cons.mp nodup).1
    exact List.mem_map.mpr ⟨other, remaining, same⟩
  have kept : ∀ other ∈ holders.erase holder,
      (table.clearPid holder.ownPid fresh).pidTable.load other.slot =
        table.pidTable.load other.slot := fun other remaining =>
    clearPid_entry_other table _ fresh (otherSlot other remaining)
  exact {
    used := by
      apply (List.perm_cons holder.slot.toNat).mp
      refine (erasing.map fun holder => holder.slot.toNat).symm.trans ?_
      exact represents.used.trans (List.perm_cons_erase (represents.slot_used live))
    free := by
      rw [released.1, List.map_append, represents.free]
      rfl
    created := by
      rw [clearPid_pidTableLen]
      exact represents.created
    room := by
      rw [clearPid_pidTableLen, clearPid_cap]
      exact represents.room
    freeRoom := released.2
    fits := by
      rw [FitsHeap, clearPid_cap]
      exact represents.fits
    holds := by
      intro other remaining
      rw [kept other remaining]
      exact represents.holds other (List.mem_of_mem_erase remaining)
    packed := by
      intro other remaining
      rw [kept other remaining]
      exact represents.packed other (List.mem_of_mem_erase remaining)
    cleared := by
      intro slot isFree
      by_cases same : slot = holder.slot
      · rw [same, Holder.slot, clearPid_entry_self]
      · have wasFree : slot ∈ table.freeList := by
          rw [released.1] at isFree
          simpa [same] using isFree
        rw [HeapArray.load, clearPid_entry_other _ _ _ (by
          intro sameNumber
          exact same (BitVec.eq_of_toNat_eq sameNumber))]
        exact represents.cleared slot wasFree
    null := by
      have range := represents.slot_range live
      rw [clearPid_entry_other _ _ _ (by rw [← Holder.slot]; omega)]
      exact represents.null }

/-! ## Looking a pid up -/

/-- A lookup below the high water mark yields nothing or a live actor in the
slot that the pid names. -/
theorem lookup_cases (represents : table.Represents holders pool) {pid : Word}
    (handedOut : (slotOf pid).toNat < table.pidTableLen.toNat) :
    table.lookupProcCtx pid = 0 ∨
      ∃ holder ∈ holders, holder.slot = slotOf pid ∧
        (table.pidTable.load holder.slot).gen = genOf pid ∧
        table.lookupProcCtx pid = holder.procCtx := by
  by_cases null : (slotOf pid).toNat = 0
  · left
    rw [lookupProcCtx, HeapArray.load, null, represents.null]
    simp
  · have created := represents.created
    have inRange : 1 ≤ (slotOf pid).toNat ∧ (slotOf pid).toNat ≤ pool.created := by
      omega
    rcases pool.mem_used_or_free.mpr inRange with isUsed | isFree
    · have held := represents.used.mem_iff.mpr isUsed
      rcases List.mem_map.mp held with ⟨holder, live, sameNumber⟩
      have sameSlot : holder.slot = slotOf pid := BitVec.eq_of_toNat_eq sameNumber
      by_cases sameGen : (table.pidTable.load holder.slot).gen = genOf pid
      · right
        refine ⟨holder, live, sameSlot, sameGen, ?_⟩
        rw [← represents.holds holder live, lookupProcCtx, ← sameSlot, if_pos sameGen]
      · left
        rw [lookupProcCtx, ← sameSlot, if_neg sameGen]
    · left
      rw [← represents.free] at isFree
      rcases List.mem_map.mp isFree with ⟨slot, free, sameNumber⟩
      have sameSlot : slot = slotOf pid := BitVec.eq_of_toNat_eq sameNumber
      have empty := represents.cleared slot free
      rw [lookupProcCtx, ← sameSlot, empty]
      simp

/-- A live actor's pid resolves to it exactly when its generation still fits the
half of the pid that carries it. -/
theorem lookup_ownPid_iff (represents : table.Represents holders pool)
    {holder : Holder} (live : holder ∈ holders) (nonzero : holder.procCtx ≠ 0) :
    table.lookupProcCtx holder.ownPid = holder.procCtx ↔
      (table.pidTable.load holder.slot).gen.toNat < 2 ^ 32 := by
  have small : holder.slot.toNat < 2 ^ 32 := by
    have range := represents.slot_range live
    have createdBound := represents.created_lt
    have capBound := represents.cap_le
    omega
  rw [← genOf_packPid_eq_iff _ _ small, ← represents.packed holder live,
    lookupProcCtx, ← Holder.slot, represents.holds holder live]
  constructor
  · intro found
    by_contra mismatch
    rw [if_neg mismatch] at found
    exact nonzero found.symm
  · intro matched
    rw [if_pos matched]

end Represents

end PidTable

end LakeNative.Runtime

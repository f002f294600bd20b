import LakeNative.Library.SlotPool
import LakeNative.Runtime.HeapArray

/-! # The generation-tagged pid table

`pid_table`, the stack `free_slots` of recycled slots and the four operations on
them. A pid is `(gen << 32) | slot`; the slot's entry keeps the generation it was
last handed out with.
-/

namespace LakeNative.Runtime

/-! ## Packed pids -/

/-- Mask for the slot half of a packed pid. -/
def SLOT_MASK : Word := 0xFFFFFFFF

def slotOf (pid : Word) : Word := pid &&& SLOT_MASK

def genOf (pid : Word) : Word := pid >>> 32

def packPid (gen slot : Word) : Word := (gen <<< 32) ||| slot

theorem slotOf_toNat (pid : Word) : (slotOf pid).toNat = pid.toNat % 2 ^ 32 := by
  have mask : SLOT_MASK.toNat = 2 ^ 32 - 1 := rfl
  rw [slotOf, BitVec.toNat_and, mask, Nat.and_two_pow_sub_one_eq_mod]

theorem genOf_toNat (pid : Word) : (genOf pid).toNat = pid.toNat / 2 ^ 32 := by
  rw [genOf, BitVec.toNat_ushiftRight, Nat.shiftRight_eq_div_pow]

theorem packPid_toNat (gen slot : Word) (small : slot.toNat < 2 ^ 32) :
    (packPid gen slot).toNat = gen.toNat % 2 ^ 32 * 2 ^ 32 + slot.toNat := by
  have shifted : (gen <<< 32).toNat = (gen.toNat % 2 ^ 32) <<< 32 := by
    rw [BitVec.toNat_shiftLeft, Nat.shiftLeft_eq, Nat.shiftLeft_eq]
    omega
  rw [packPid, BitVec.toNat_or, shifted, ← Nat.shiftLeft_add_eq_or_of_lt small,
    Nat.shiftLeft_eq]

theorem slotOf_packPid (gen slot : Word) (small : slot.toNat < 2 ^ 32) :
    slotOf (packPid gen slot) = slot := by
  apply BitVec.eq_of_toNat_eq
  rw [slotOf_toNat, packPid_toNat gen slot small]
  omega

/-- Only the low half of the generation survives in the pid. -/
theorem genOf_packPid (gen slot : Word) (small : slot.toNat < 2 ^ 32) :
    (genOf (packPid gen slot)).toNat = gen.toNat % 2 ^ 32 := by
  rw [genOf_toNat, packPid_toNat gen slot small]
  omega

theorem genOf_packPid_eq_iff (gen slot : Word) (small : slot.toNat < 2 ^ 32) :
    gen = genOf (packPid gen slot) ↔ gen.toNat < 2 ^ 32 := by
  rw [← BitVec.toNat_inj, genOf_packPid gen slot small]
  omega

theorem packPid_parts (pid : Word) : packPid (genOf pid) (slotOf pid) = pid := by
  apply BitVec.eq_of_toNat_eq
  have slotEq := slotOf_toNat pid
  have genEq := genOf_toNat pid
  have bound := pid.isLt
  rw [packPid_toNat _ _ (by omega), slotEq, genEq]
  omega

/-! ## The table -/

/-- One 16-byte entry of `pid_table`. -/
structure PidEntry where
  gen : Word
  procCtx : Word
  deriving DecidableEq

structure PidTable where
  pidTable : HeapArray PidEntry
  /-- High water mark: the next slot to hand out when `freeSlots` is empty. -/
  pidTableLen : Word
  freeSlots : HeapArray Word
  freeSlotsLen : Word

/-- Starting capacity of `process_arr`, `wait_arr`, `pid_table` and `free_slots`. -/
def INITIAL_QUEUE_CAP : Nat := 4096

namespace PidTable

/-- `ShedulerCtxLayout::init`: the first buffers come from the freshly mapped,
zeroed heap, and slot 0 is reserved for the null pid. -/
def init : PidTable where
  pidTable := .allocated INITIAL_QUEUE_CAP fun _ => ⟨0, 0⟩
  pidTableLen := 1
  freeSlots := .allocated INITIAL_QUEUE_CAP fun _ => 0
  freeSlotsLen := 0

def emitAcquireSlot (table : PidTable) : Word × PidTable :=
  if table.freeSlotsLen = 0 then
    (table.pidTableLen, { table with pidTableLen := table.pidTableLen + 1 })
  else
    let newLen := table.freeSlotsLen - 1
    (table.freeSlots.load newLen, { table with freeSlotsLen := newLen })

/-- The entry a slot's generation is read from: the table grown, if needed, into
a buffer that holds `fresh`. -/
def assignedFrom (table : PidTable) (fresh : Nat → PidEntry) : HeapArray PidEntry :=
  table.pidTable.emitGrowArrayIfFull (table.emitAcquireSlot.1 + 1) fresh

/-- `new_gen` of `assign_pid`. -/
def newGen (table : PidTable) (fresh : Nat → PidEntry) : Word :=
  ((table.assignedFrom fresh).load table.emitAcquireSlot.1).gen + 1

def assignPid (table : PidTable) (procCtx : Word) (fresh : Nat → PidEntry) :
    Word × PidTable :=
  let slot := table.emitAcquireSlot.1
  let newGen := table.newGen fresh
  (packPid newGen slot,
    { table.emitAcquireSlot.2 with
      pidTable := (table.assignedFrom fresh).store slot ⟨newGen, procCtx⟩ })

def lookupProcCtx (table : PidTable) (pid : Word) : Word :=
  let entry := table.pidTable.load (slotOf pid)
  if entry.gen = genOf pid then entry.procCtx else 0

def clearPid (table : PidTable) (pid : Word) (fresh : Nat → Word) : PidTable :=
  let slot := slotOf pid
  let cleared := table.pidTable.store slot ⟨(table.pidTable.load slot).gen, 0⟩
  if slot = 0 then
    { table with pidTable := cleared }
  else
    let newLen := table.freeSlotsLen + 1
    { table with
      pidTable := cleared
      freeSlots :=
        (table.freeSlots.emitGrowArrayIfFull newLen fresh).store table.freeSlotsLen slot
      freeSlotsLen := newLen }

/-- The table's buffer lies in the heap: the allocation that made it succeeded. -/
def FitsHeap (table : PidTable) : Prop :=
  table.pidTable.cap * 16 ≤ HEAP_SIZE

instance (table : PidTable) : Decidable table.FitsHeap :=
  inferInstanceAs (Decidable (_ ≤ _))

end PidTable

end LakeNative.Runtime

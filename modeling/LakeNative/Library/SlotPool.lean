import Mathlib.Data.List.Perm.Basic
import Mathlib.Data.List.Nodup

/-! # Pools of numbered slots

A pool hands out the slots `1, 2, …`. A released slot goes onto a stack and is
handed out again before a new one is created. The partition of the created slots
into used and free ones is a field, so that a pool that lost or doubled a slot
cannot be built.
-/

namespace LakeNative

structure SlotPool where
  used : List Nat
  /-- Released slots; the one released last is at the end. -/
  free : List Nat
  created : Nat
  partition : (used ++ free).Perm (List.range' 1 created)

namespace SlotPool

def empty : SlotPool where
  used := []
  free := []
  created := 0
  partition := by simp

/-- Hand out the slot on top of the stack, or create one. -/
def acquire (pool : SlotPool) : Nat × SlotPool :=
  match top : pool.free.getLast? with
  | none =>
      (pool.created + 1,
        { used := (pool.created + 1) :: pool.used
          free := []
          created := pool.created + 1
          partition := by
            have noFree : pool.free = [] := List.getLast?_eq_none_iff.mp top
            have covered := pool.partition
            rw [noFree] at covered
            rw [List.range'_1_concat, Nat.add_comm 1]
            exact (covered.cons _).trans (List.perm_append_singleton _ _).symm })
  | some slot =>
      (slot,
        { used := slot :: pool.used
          free := pool.free.dropLast
          created := pool.created
          partition := by
            refine List.Perm.trans ?_ pool.partition
            rw [← List.dropLast_append_getLast? slot top]
            apply (List.perm_append_singleton slot _).symm.trans
            simp })

/-- Take a used slot back. -/
def release (pool : SlotPool) (slot : Nat) (isUsed : slot ∈ pool.used) : SlotPool where
  used := pool.used.erase slot
  free := pool.free ++ [slot]
  created := pool.created
  partition := by
    refine List.Perm.trans ?_ pool.partition
    rw [← List.append_assoc]
    apply (List.perm_append_singleton slot _).trans
    exact ((List.perm_cons_erase isUsed).symm.append_right pool.free)

variable (pool : SlotPool)

theorem acquire_fresh (noFree : pool.free = []) :
    pool.acquire.1 = pool.created + 1 ∧
      pool.acquire.2.used = (pool.created + 1) :: pool.used ∧
      pool.acquire.2.free = [] ∧
      pool.acquire.2.created = pool.created + 1 := by
  unfold acquire
  split
  · simp
  · rename_i top
    rw [noFree] at top
    cases top

theorem acquire_recycled {slot : Nat} {rest : List Nat} (stack : pool.free = rest ++ [slot]) :
    pool.acquire.1 = slot ∧
      pool.acquire.2.used = slot :: pool.used ∧
      pool.acquire.2.free = rest ∧
      pool.acquire.2.created = pool.created := by
  unfold acquire
  split
  · rename_i top
    simp [stack] at top
  · rename_i top
    simp only [stack, List.getLast?_append, List.getLast?_singleton, Option.some_or,
      Option.some.injEq] at top
    simp [stack, top]

theorem nodup : (pool.used ++ pool.free).Nodup :=
  pool.partition.nodup_iff.mpr List.nodup_range'

theorem used_nodup : pool.used.Nodup :=
  (List.nodup_append.mp pool.nodup).1

theorem used_disjoint_free : pool.used.Disjoint pool.free :=
  List.disjoint_of_nodup_append pool.nodup

theorem mem_used_or_free {slot : Nat} :
    slot ∈ pool.used ∨ slot ∈ pool.free ↔ 1 ≤ slot ∧ slot ≤ pool.created := by
  rw [← List.mem_append, pool.partition.mem_iff, List.mem_range'_1]
  omega

theorem mem_used_range {slot : Nat} (isUsed : slot ∈ pool.used) :
    1 ≤ slot ∧ slot ≤ pool.created :=
  pool.mem_used_or_free.mp (.inl isUsed)

theorem mem_free_range {slot : Nat} (isFree : slot ∈ pool.free) :
    1 ≤ slot ∧ slot ≤ pool.created :=
  pool.mem_used_or_free.mp (.inr isFree)

theorem length_free_le : pool.free.length ≤ pool.created := by
  have total := pool.partition.length_eq
  simp only [List.length_append, List.length_range'] at total
  omega

/-- Either a new slot is created behind all others or a free one is reused. -/
theorem acquire_created :
    (pool.acquire.1 = pool.created + 1 ∧ pool.acquire.2.created = pool.created + 1) ∨
      (pool.acquire.1 ∈ pool.free ∧ pool.acquire.2.created = pool.created) := by
  rcases List.eq_nil_or_concat pool.free with noFree | ⟨rest, slot, stack⟩
  · have fresh := pool.acquire_fresh noFree
    exact .inl ⟨fresh.1, fresh.2.2.2⟩
  · rw [List.concat_eq_append] at stack
    have recycled := pool.acquire_recycled stack
    exact .inr ⟨by simp [recycled.1, stack], recycled.2.2.2⟩

theorem acquire_used : pool.acquire.2.used = pool.acquire.1 :: pool.used := by
  rcases List.eq_nil_or_concat pool.free with noFree | ⟨rest, slot, stack⟩
  · simp [pool.acquire_fresh noFree]
  · rw [List.concat_eq_append] at stack
    simp [pool.acquire_recycled stack]

theorem acquire_free_subset : pool.acquire.2.free ⊆ pool.free := by
  rcases List.eq_nil_or_concat pool.free with noFree | ⟨rest, slot, stack⟩
  · simp [pool.acquire_fresh noFree]
  · rw [List.concat_eq_append] at stack
    simp [pool.acquire_recycled stack, stack]

/-- The slot handed out was not in use. -/
theorem acquire_notMem_used : pool.acquire.1 ∉ pool.used := by
  have nodup := pool.acquire.2.used_nodup
  rw [pool.acquire_used] at nodup
  exact (List.nodup_cons.mp nodup).1

theorem acquire_notMem_free : pool.acquire.1 ∉ pool.acquire.2.free := by
  apply pool.acquire.2.used_disjoint_free
  simp [pool.acquire_used]

theorem acquire_range :
    1 ≤ pool.acquire.1 ∧ pool.acquire.1 ≤ pool.created + 1 := by
  rcases pool.acquire_created with created | reused
  · omega
  · have range := pool.mem_free_range reused.1
    omega

end SlotPool

end LakeNative

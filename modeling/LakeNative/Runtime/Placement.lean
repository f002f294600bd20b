import Mathlib.Data.List.Count
import LakeNative.Runtime.Queues

/-! # Where the actors sit

Every live actor is runnable, waiting or parked, and is so exactly once. This
file follows that through the operations on the queues.
-/

namespace LakeNative.Runtime

open LakeNative.DenseArray

/-- The actors behind the outstanding submissions; those that park nobody carry 0. -/
def owedActors (outstanding : List Word) : List Word :=
  outstanding.filter fun userData => userData != 0

@[simp] theorem owedActors_zero (outstanding : List Word) :
    owedActors (0 :: outstanding) = owedActors outstanding := rfl

theorem owedActors_cons {actor : Word} (real : actor ≠ 0) (outstanding : List Word) :
    owedActors (actor :: outstanding) = actor :: owedActors outstanding :=
  List.filter_cons_of_pos (bne_iff_ne.mpr real)

theorem owedActors_erase {actor : Word} {outstanding : List Word}
    (owed : actor ∈ outstanding) :
    (owedActors outstanding).Perm (owedActors (actor :: outstanding.erase actor)) :=
  (List.perm_cons_erase owed).filter _

/-- The queues hold each live actor once. The waiting queue holds pids, so the
actors behind it are named by `waiters`. A parked actor knows its position, and
exactly the parked actors have a completion coming. -/
structure Placement (queues : Queues) (actors : Word → Actor) (waiters live : List Word)
    (outstanding : List Word) : Prop where
  nodup : live.Nodup
  placed : (queues.runnable ++ waiters ++ queues.parked).Perm live
  waiting : queues.waiting = waiters.map fun actor => (actors actor).ownPid
  parkedIdx : ∀ (position : Nat) (actor : Word), queues.parked[position]? = some actor →
    (actors actor).ioParkedIdx.toNat = position
  owed : (owedActors outstanding).Perm queues.parked

namespace Placement

variable {queues : Queues} {actors : Word → Actor} {waiters live outstanding : List Word}

theorem count (placement : Placement queues actors waiters live outstanding)
    (actor : Word) :
    queues.runnable.count actor + waiters.count actor + queues.parked.count actor =
      live.count actor := by
  rw [← placement.placed.count_eq actor, List.count_append, List.count_append]

theorem runnable_live (placement : Placement queues actors waiters live outstanding)
    {actor : Word} (member : actor ∈ queues.runnable) : actor ∈ live :=
  placement.placed.subset (by simp [member])

theorem waiter_live (placement : Placement queues actors waiters live outstanding)
    {actor : Word} (member : actor ∈ waiters) : actor ∈ live :=
  placement.placed.subset (by simp [member])

theorem parked_live (placement : Placement queues actors waiters live outstanding)
    {actor : Word} (member : actor ∈ queues.parked) : actor ∈ live :=
  placement.placed.subset (by simp [member])

theorem lengths (placement : Placement queues actors waiters live outstanding) :
    queues.runnable.length + queues.waiting.length + queues.parked.length =
      live.length := by
  have total := placement.placed.length_eq
  rw [List.length_append, List.length_append] at total
  rw [placement.waiting, List.length_map]
  exact total

theorem all_nodup (placement : Placement queues actors waiters live outstanding) :
    (queues.runnable ++ waiters ++ queues.parked).Nodup :=
  placement.placed.nodup_iff.mpr placement.nodup

theorem parked_nodup (placement : Placement queues actors waiters live outstanding) :
    queues.parked.Nodup :=
  (List.nodup_append.mp placement.all_nodup).2.1

/-- A live actor is at one place only. -/
theorem runnable_notMem (placement : Placement queues actors waiters live outstanding)
    {actor : Word} (member : actor ∈ queues.runnable) :
    actor ∉ waiters ∧ actor ∉ queues.parked := by
  have once := placement.count actor
  have atMost := List.nodup_iff_count_le_one.mp placement.nodup actor
  have here := List.count_pos_iff.mpr member
  constructor <;> intro elsewhere <;>
    · have there := List.count_pos_iff.mpr elsewhere
      omega

/-- Only the pids and the parking positions of the actors matter. -/
theorem congr (placement : Placement queues actors waiters live outstanding)
    {others : Word → Actor}
    (sameFields : ∀ actor ∈ live, (others actor).ownPid = (actors actor).ownPid ∧
      (others actor).ioParkedIdx = (actors actor).ioParkedIdx) :
    Placement queues others waiters live outstanding where
  nodup := placement.nodup
  placed := placement.placed
  waiting := by
    rw [placement.waiting]
    exact List.map_congr_left fun actor member =>
      (sameFields actor (placement.waiter_live member)).1.symm
  parkedIdx := by
    intro position actor atPosition
    have member := List.mem_of_getElem? atPosition
    rw [(sameFields actor (placement.parked_live member)).2]
    exact placement.parkedIdx position actor atPosition
  owed := placement.owed

theorem advance (placement : Placement queues actors waiters live outstanding) :
    Placement queues.advance actors waiters live outstanding where
  nodup := placement.nodup
  placed := placement.placed
  waiting := placement.waiting
  parkedIdx := placement.parkedIdx
  owed := placement.owed

/-- A new actor joins the runnable ones. -/
theorem enqueue (placement : Placement queues actors waiters live outstanding)
    {actor : Word} (new : actor ∉ live) :
    Placement (queues.enqueue actor) actors waiters (actor :: live) outstanding where
  nodup := List.nodup_cons.mpr ⟨new, placement.nodup⟩
  placed := by
    apply List.perm_iff_count.mpr
    intro element
    have before := placement.count element
    simp only [Queues.enqueue, List.count_append, List.count_cons, List.count_nil]
    omega
  waiting := placement.waiting
  parkedIdx := placement.parkedIdx
  owed := placement.owed

/-- The current actor dies. -/
theorem removeCurrent (placement : Placement queues actors waiters live outstanding)
    {actor : Word} (current : queues.runnable[queues.cursor]? = some actor) :
    Placement queues.removeCurrent actors waiters (live.erase actor) outstanding where
  nodup := placement.nodup.erase actor
  placed := by
    apply List.perm_iff_count.mpr
    intro element
    have before := placement.count element
    have removed := count_swapPop current element
    have erased := (List.perm_cons_erase
      (placement.runnable_live (List.mem_of_getElem? current))).count_eq element
    simp only [Queues.removeCurrent, List.count_append]
    simp only [List.count_cons, beq_iff_eq] at erased
    omega
  waiting := placement.waiting
  parkedIdx := placement.parkedIdx
  owed := placement.owed

/-- The current actor waits. -/
theorem suspend (placement : Placement queues actors waiters live outstanding)
    {actor : Word} (current : queues.runnable[queues.cursor]? = some actor) :
    Placement (queues.suspend (actors actor).ownPid).removeCurrent actors
      (waiters ++ [actor]) live outstanding where
  nodup := placement.nodup
  placed := by
    apply List.perm_iff_count.mpr
    intro element
    have before := placement.count element
    have removed := count_swapPop current element
    simp only [Queues.removeCurrent, Queues.suspend, List.count_append, List.count_cons,
      List.count_nil, beq_iff_eq]
    omega
  waiting := by
    simp [Queues.removeCurrent, Queues.suspend, placement.waiting]
  parkedIdx := placement.parkedIdx
  owed := placement.owed

/-- A waiting actor becomes runnable. -/
theorem resume (placement : Placement queues actors waiters live outstanding)
    {position : Nat} {actor : Word} (waits : waiters[position]? = some actor) :
    Placement ((queues.resume position).enqueue actor) actors (swapPop waiters position)
      live outstanding where
  nodup := placement.nodup
  placed := by
    apply List.perm_iff_count.mpr
    intro element
    have before := placement.count element
    have removed := count_swapPop waits element
    simp only [Queues.resume, Queues.enqueue, List.count_append, List.count_cons,
      List.count_nil, beq_iff_eq]
    omega
  waiting := by
    simp only [Queues.resume, Queues.enqueue, placement.waiting]
    exact swapPop_map _ _ _
  parkedIdx := placement.parkedIdx
  owed := placement.owed

/-! ## Parking on I/O -/

/-- The current actor parks behind the parked ones and learns its position. -/
theorem park (placement : Placement queues actors waiters live outstanding)
    {actor : Word} (current : queues.runnable[queues.cursor]? = some actor)
    (real : actor ≠ 0) {others : Word → Actor}
    (samePid : ∀ other, (others other).ownPid = (actors other).ownPid)
    (kept : ∀ other, other ≠ actor → others other = actors other)
    (position : (others actor).ioParkedIdx.toNat = queues.parked.length) :
    Placement (queues.park actor) others waiters live (actor :: outstanding) where
  nodup := placement.nodup
  placed := by
    apply List.perm_iff_count.mpr
    intro element
    have before := placement.count element
    have removed := count_swapPop current element
    simp only [Queues.park, List.count_append, List.count_cons, List.count_nil, beq_iff_eq]
    omega
  waiting := by
    simp only [Queues.park, placement.waiting, samePid]
  parkedIdx := by
    intro index other atIndex
    simp only [Queues.park] at atIndex
    by_cases old : index < queues.parked.length
    · rw [List.getElem?_append_left old] at atIndex
      have notParked := (placement.runnable_notMem (List.mem_of_getElem? current)).2
      have different : other ≠ actor := fun same =>
        notParked (same ▸ List.mem_of_getElem? atIndex)
      rw [kept other different]
      exact placement.parkedIdx index other atIndex
    · rw [List.getElem?_append_right (Nat.le_of_not_lt old)] at atIndex
      rcases List.getElem?_eq_some_iff.mp atIndex with ⟨inRange, same⟩
      simp only [List.length_singleton] at inRange
      simp only [List.getElem_singleton] at same
      rw [← same, position]
      omega
  owed := by
    rw [owedActors_cons real]
    exact (placement.owed.cons actor).trans (List.perm_append_singleton actor _).symm

/-- A completion that is still owed belongs to a parked actor. -/
theorem parked_of_owed (placement : Placement queues actors waiters live outstanding)
    {actor : Word} (owed : actor ∈ outstanding) (real : actor ≠ 0) :
    queues.parked[(actors actor).ioParkedIdx.toNat]? = some actor := by
  have member : actor ∈ queues.parked :=
    placement.owed.subset (List.mem_filter.mpr ⟨owed, bne_iff_ne.mpr real⟩)
  rcases List.getElem?_of_mem member with ⟨position, atPosition⟩
  rw [placement.parkedIdx position actor atPosition]
  exact atPosition

/-- A parked actor whose operation completed becomes runnable, and the actor moved
into its position learns the new one. -/
theorem unpark (placement : Placement queues actors waiters live outstanding)
    {actor : Word} (owed : actor ∈ outstanding) (real : actor ≠ 0)
    {position : Nat} (atPosition : queues.parked[position]? = some actor)
    {others : Word → Actor}
    (samePid : ∀ other, (others other).ownPid = (actors other).ownPid)
    (moved : ∀ last, position + 1 < queues.parked.length →
      queues.parked[queues.parked.length - 1]? = some last →
      (others last).ioParkedIdx.toNat = position)
    (kept : ∀ other, queues.parked[queues.parked.length - 1]? ≠ some other →
      (others other).ioParkedIdx = (actors other).ioParkedIdx) :
    Placement (queues.unpark position actor) others waiters live
      (outstanding.erase actor) where
  nodup := placement.nodup
  placed := by
    apply List.perm_iff_count.mpr
    intro element
    have before := placement.count element
    have removed := count_swapPop atPosition element
    simp only [Queues.unpark, List.count_append, List.count_cons, List.count_nil,
      beq_iff_eq]
    omega
  waiting := by
    simp only [Queues.unpark, placement.waiting, samePid]
  parkedIdx := by
    intro index other atIndex
    simp only [Queues.unpark] at atIndex
    rw [getElem?_swapPop] at atIndex
    split at atIndex
    · rename_i inRange
      split at atIndex
      · rename_i atHole
        subst atHole
        exact moved other inRange atIndex
      · have notLast : queues.parked[queues.parked.length - 1]? ≠ some other := by
          intro isLast
          have same := (List.getElem?_inj (by omega) placement.parked_nodup).mp
            (atIndex.trans isLast.symm)
          omega
        rw [kept other notLast]
        exact placement.parkedIdx index other atIndex
    · cases atIndex
  owed := by
    apply List.perm_iff_count.mpr
    intro element
    have removed := count_swapPop atPosition element
    have before := placement.owed.count_eq element
    have erased := (owedActors_erase owed).count_eq element
    rw [owedActors_cons real, List.count_cons] at erased
    simp only [beq_iff_eq] at erased
    simp only [Queues.unpark]
    omega

end Placement

end LakeNative.Runtime

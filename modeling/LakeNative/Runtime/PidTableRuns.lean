import LakeNative.Library.Transitions
import LakeNative.Runtime.PidTablePool

/-! # Runs of the pid table

Every order of spawns, deaths, lookups and table growths. A death clears the pid
of a live actor; what a freshly allocated buffer holds is part of the label.
-/

namespace LakeNative.Runtime

open LakeNative.Transitions

inductive PidEvent where
  | assign (procCtx : Word) (fresh : Nat → PidEntry)
  | clear (holder : Holder) (fresh : Nat → Word)
  | lookup (pid : Word)

/-- The table and the live actors it was told about. -/
structure PidState where
  table : PidTable
  holders : List Holder

def PidState.init : PidState := ⟨.init, []⟩

inductive PidStep : PidState → PidEvent → PidState → Prop
  | assign {table holders} (procCtx : Word) (fresh : Nat → PidEntry) :
      procCtx ≠ 0 →
      (table.assignPid procCtx fresh).2.FitsHeap →
      PidStep ⟨table, holders⟩ (.assign procCtx fresh)
        ⟨(table.assignPid procCtx fresh).2,
          ⟨procCtx, (table.assignPid procCtx fresh).1⟩ :: holders⟩
  | clear {table holders} (holder : Holder) (fresh : Nat → Word) :
      holder ∈ holders →
      PidStep ⟨table, holders⟩ (.clear holder fresh)
        ⟨table.clearPid holder.ownPid fresh, holders.erase holder⟩
  | lookup {table holders} (pid : Word) :
      PidStep ⟨table, holders⟩ (.lookup pid) ⟨table, holders⟩

/-- The generation word that an assignment finds in its slot survives the
increment as a 32-bit number. Only the low half of the incremented word is
packed into the pid, while the table keeps all of it. -/
def GenerationFits (state : PidState) : PidEvent → Prop
  | .assign _ _ =>
      let found := (state.table.pidTable.load state.table.emitAcquireSlot.1).gen
      found.toNat + 1 < 2 ^ 32 ∨ found.toNat + 1 = 2 ^ 64
  | .clear _ _ => True
  | .lookup _ => True

instance (state : PidState) (event : PidEvent) :
    Decidable (GenerationFits state event) :=
  match event with
  | .assign _ _ => inferInstanceAs (Decidable (_ ∨ _))
  | .clear _ _ => inferInstanceAs (Decidable True)
  | .lookup _ => inferInstanceAs (Decidable True)

/-! ## What every state satisfies -/

/-- The table stands for a pool of the live actors' slots. -/
structure PidState.Sound (state : PidState) : Prop where
  represents : ∃ pool, state.table.Represents state.holders pool
  contexts : ∀ holder ∈ state.holders, holder.procCtx ≠ 0

theorem PidState.init_sound : PidState.init.Sound where
  represents := ⟨_, PidTable.init_represents⟩
  contexts := by simp [PidState.init]

theorem PidStep.sound {state next : PidState} {event : PidEvent}
    (sound : state.Sound) (step : PidStep state event next) : next.Sound := by
  rcases sound with ⟨⟨pool, represents⟩, contexts⟩
  cases step with
  | assign procCtx fresh nonzero fits =>
      refine ⟨⟨_, represents.assignPid procCtx fresh fits⟩, ?_⟩
      intro holder live
      rcases List.mem_cons.mp live with rfl | old
      · exact nonzero
      · exact contexts holder old
  | clear holder fresh live =>
      exact ⟨⟨_, represents.clearPid live fresh⟩,
        fun other remaining => contexts other (List.mem_of_mem_erase remaining)⟩
  | lookup => exact ⟨⟨pool, represents⟩, contexts⟩

theorem PidState.sound_of_run {history : List (Stage PidState PidEvent)}
    {final : PidState} (run : Run PidStep .init history final) : final.Sound :=
  (run.invariant init_sound fun _ _ _ sound step => step.sound sound).2

namespace PidTable

/-! ## Stale pids -/

/-- The entry can never again match a pid of this generation: it has moved on,
or holds no actor and can only move on. -/
def Outdated (gen : Word) (entry : PidEntry) : Prop :=
  gen.toNat ≤ entry.gen.toNat ∧ (entry.procCtx = 0 ∨ gen.toNat < entry.gen.toNat)

/-- `pid` was handed out once and its slot can never match it again. -/
structure Stale (table : PidTable) (pid : Word) : Prop where
  real : 1 ≤ (slotOf pid).toNat
  handedOut : (slotOf pid).toNat < table.pidTableLen.toNat
  outdated : Outdated (genOf pid) (table.pidTable.load (slotOf pid))

theorem Stale.lookup {table : PidTable} {pid : Word} (stale : table.Stale pid) :
    table.lookupProcCtx pid = 0 := by
  rcases stale.outdated.2 with empty | newer
  · simp [lookupProcCtx, empty]
  · have mismatch : (table.pidTable.load (slotOf pid)).gen ≠ genOf pid := by
      intro same
      rw [same] at newer
      exact Nat.lt_irrefl _ newer
    simp [lookupProcCtx, mismatch]

/-- Every slot handed out has a generation that a pid can carry. -/
def GenerationsFit (table : PidTable) : Prop :=
  ∀ slot, 1 ≤ slot → slot < table.pidTableLen.toNat →
    (table.pidTable.entry slot).gen.toNat < 2 ^ 32

namespace Represents

variable {table : PidTable} {holders : List Holder} {pool : SlotPool}

/-- The copy made while growing includes the slot's own entry, so an assignment
finds the word that the table held there before. -/
theorem newGen_eq (represents : table.Represents holders pool) (fresh : Nat → PidEntry) :
    table.newGen fresh = (table.pidTable.load table.emitAcquireSlot.1).gen + 1 := by
  rw [newGen, assignedFrom, HeapArray.load, HeapArray.grow_entry_of_lt, HeapArray.load]
  rw [represents.acquired_succ]
  omega

theorem newGen_lt_iff (represents : table.Represents holders pool) (procCtx : Word)
    (fresh : Nat → PidEntry) :
    (table.newGen fresh).toNat < 2 ^ 32 ↔
      GenerationFits ⟨table, holders⟩ (.assign procCtx fresh) := by
  rw [represents.newGen_eq fresh]
  simp only [GenerationFits]
  bv_omega

/-- The mark moves exactly when the acquired slot is a new one. -/
theorem pidTableLen_acquired (represents : table.Represents holders pool) :
    (table.emitAcquireSlot.1.toNat = table.pidTableLen.toNat ∧
        table.emitAcquireSlot.2.pidTableLen.toNat = table.pidTableLen.toNat + 1) ∨
      (table.emitAcquireSlot.1.toNat < table.pidTableLen.toNat ∧
        table.emitAcquireSlot.2.pidTableLen.toNat = table.pidTableLen.toNat) := by
  have acquired := represents.emitAcquireSlot
  have created := represents.created
  rw [acquired.1, acquired.2.2, created]
  rcases pool.acquire_created with fresh | reused
  · omega
  · have range := pool.mem_free_range reused.1
    omega

theorem assignPid_entry_handedOut (represents : table.Represents holders pool)
    (procCtx : Word) (fresh : Nat → PidEntry) {slot : Nat}
    (handedOut : slot < table.pidTableLen.toNat)
    (other : slot ≠ table.emitAcquireSlot.1.toNat) :
    (table.assignPid procCtx fresh).2.pidTable.entry slot = table.pidTable.entry slot := by
  apply represents.assignPid_entry_other procCtx fresh _ other
  have created := represents.created
  omega

theorem generationsFit_assignPid (represents : table.Represents holders pool)
    (fit : table.GenerationsFit) (procCtx : Word) (fresh : Nat → PidEntry)
    (fits : GenerationFits ⟨table, holders⟩ (.assign procCtx fresh)) :
    (table.assignPid procCtx fresh).2.GenerationsFit := by
  intro slot real handedOut
  by_cases assigned : slot = table.emitAcquireSlot.1.toNat
  · subst assigned
    change ((table.assignPid procCtx fresh).2.pidTable.load _).gen.toNat < 2 ^ 32
    rw [assignPid_entry_acquired]
    exact (represents.newGen_lt_iff procCtx fresh).mpr fits
  · have growth := represents.pidTableLen_acquired
    have below : slot < table.pidTableLen.toNat := by
      change slot < table.emitAcquireSlot.2.pidTableLen.toNat at handedOut
      omega
    rw [represents.assignPid_entry_handedOut procCtx fresh below assigned]
    exact fit slot real below

theorem generationsFit_clearPid (fit : table.GenerationsFit) (pid : Word)
    (fresh : Nat → Word) : (table.clearPid pid fresh).GenerationsFit := by
  intro slot real handedOut
  rw [clearPid_pidTableLen] at handedOut
  by_cases cleared : slot = (slotOf pid).toNat
  · subst cleared
    change ((table.clearPid pid fresh).pidTable.load _).gen.toNat < 2 ^ 32
    rw [clearPid_entry_self]
    exact fit _ real handedOut
  · rw [clearPid_entry_other table _ fresh cleared]
    exact fit slot real handedOut

/-- Reusing the slot of a stale pid only raises its generation. -/
theorem stale_assignPid (represents : table.Represents holders pool)
    (fit : table.GenerationsFit) {pid : Word} (stale : table.Stale pid)
    (procCtx : Word) (fresh : Nat → PidEntry) :
    (table.assignPid procCtx fresh).2.Stale pid := by
  have growth := represents.pidTableLen_acquired
  have handedOut := stale.handedOut
  refine ⟨stale.real, ?_, ?_⟩
  · change _ < table.emitAcquireSlot.2.pidTableLen.toNat
    omega
  · by_cases assigned : slotOf pid = table.emitAcquireSlot.1
    · have bounded := fit _ stale.real handedOut
      have older := stale.outdated.1
      rw [HeapArray.load] at older
      have newer : (genOf pid).toNat < (table.newGen fresh).toNat := by
        rw [represents.newGen_eq fresh, ← assigned, HeapArray.load, toNat_succ _ (by omega)]
        omega
      rw [assigned, assignPid_entry_acquired]
      exact ⟨Nat.le_of_lt newer, .inr newer⟩
    · have other : (slotOf pid).toNat ≠ table.emitAcquireSlot.1.toNat := fun same =>
        assigned (BitVec.eq_of_toNat_eq same)
      rw [HeapArray.load,
        represents.assignPid_entry_handedOut procCtx fresh handedOut other]
      exact stale.outdated

theorem stale_clearPid {pid : Word} (stale : table.Stale pid) (other : Word)
    (fresh : Nat → Word) : (table.clearPid other fresh).Stale pid := by
  refine ⟨stale.real, ?_, ?_⟩
  · rw [clearPid_pidTableLen]
    exact stale.handedOut
  · have outdated := stale.outdated
    by_cases cleared : slotOf pid = slotOf other
    · rw [cleared] at outdated ⊢
      rw [clearPid_entry_self]
      exact ⟨outdated.1, .inl rfl⟩
    · have different : (slotOf pid).toNat ≠ (slotOf other).toNat := fun same =>
        cleared (BitVec.eq_of_toNat_eq same)
      rw [HeapArray.load, clearPid_entry_other table _ fresh different]
      exact outdated

/-- Clearing a live actor's pid makes it stale. -/
theorem clearPid_stale (represents : table.Represents holders pool) {holder : Holder}
    (live : holder ∈ holders) (fresh : Nat → Word) :
    (table.clearPid holder.ownPid fresh).Stale holder.ownPid := by
  have range := represents.slot_range live
  have created := represents.created
  have small : holder.slot.toNat < 2 ^ 32 := by
    have createdBound := represents.created_lt
    have capBound := represents.cap_le
    omega
  refine ⟨range.1, ?_, ?_⟩
  · rw [clearPid_pidTableLen, ← Holder.slot]
    omega
  · have packed := genOf_packPid (table.pidTable.load holder.slot).gen holder.slot small
    rw [← represents.packed holder live] at packed
    rw [clearPid_entry_self]
    refine ⟨?_, .inl rfl⟩
    rw [packed]
    exact Nat.mod_le _ _

end Represents

end PidTable

namespace PidStep

variable {state next : PidState} {event : PidEvent}

theorem generationsFit (sound : state.Sound) (fit : state.table.GenerationsFit)
    (fits : GenerationFits state event) (step : PidStep state event next) :
    next.table.GenerationsFit := by
  rcases sound with ⟨⟨pool, represents⟩, -⟩
  cases step with
  | assign procCtx fresh => exact represents.generationsFit_assignPid fit procCtx fresh fits
  | clear holder fresh =>
      exact PidTable.Represents.generationsFit_clearPid fit holder.ownPid fresh
  | lookup => exact fit

theorem stale {pid : Word} (sound : state.Sound) (fit : state.table.GenerationsFit)
    (stale : state.table.Stale pid) (step : PidStep state event next) :
    next.table.Stale pid := by
  rcases sound with ⟨⟨pool, represents⟩, -⟩
  cases step with
  | assign procCtx fresh => exact represents.stale_assignPid fit stale procCtx fresh
  | clear holder fresh =>
      exact PidTable.Represents.stale_clearPid stale holder.ownPid fresh
  | lookup => exact stale

end PidStep

/-- In a run whose generations fit, every pid cleared so far is stale. -/
theorem PidState.cleared_stale {history : List (Stage PidState PidEvent)}
    {final : PidState} (run : Run PidStep .init history final)
    (fits : Meets GenerationFits history) :
    final.table.GenerationsFit ∧
      ∀ stage ∈ history, ∀ holder fresh, stage.label = .clear holder fresh →
        final.table.Stale holder.ownPid := by
  induction run with
  | refl =>
      refine ⟨?_, by simp⟩
      intro slot real handedOut
      have none : PidState.init.table.pidTableLen.toNat = 1 := rfl
      omega
  | next earlier step induction =>
      rcases meets_cons.mp fits with ⟨now, before⟩
      rcases induction before with ⟨fit, stales⟩
      have sound := sound_of_run earlier
      refine ⟨step.generationsFit sound fit now, ?_⟩
      intro stage member holder fresh cleared
      rcases List.mem_cons.mp member with rfl | older
      · subst cleared
        rcases sound with ⟨⟨pool, represents⟩, -⟩
        cases step with
        | clear _ _ live => exact represents.clearPid_stale live fresh
      · exact step.stale sound fit (stales stage older holder fresh cleared)

/-! ## Safety of the table -/

/-- In every reachable state the live slots and the recycled ones are
duplicate-free, disjoint and together exactly the slots below the mark; and while
the generations fit, a cleared pid resolves to nothing in every later state. -/
theorem pidTable_safety {history : List (Stage PidState PidEvent)} {final : PidState}
    (run : Run PidStep .init history final) :
    (final.holders.map Holder.slot ++ final.table.freeList).Nodup ∧
      (∀ slot : Word, slot ∈ final.holders.map Holder.slot ++ final.table.freeList ↔
        1 ≤ slot.toNat ∧ slot.toNat < final.table.pidTableLen.toNat) ∧
      (Meets GenerationFits history →
        ∀ stage ∈ history, ∀ holder fresh, stage.label = .clear holder fresh →
          final.table.lookupProcCtx holder.ownPid = 0) := by
  rcases (PidState.sound_of_run run).represents with ⟨pool, represents⟩
  refine ⟨represents.slots_append_nodup, represents.mem_slots, ?_⟩
  intro fits stage member holder fresh cleared
  exact ((PidState.cleared_stale run fits).2 stage member holder fresh cleared).lookup

/-- A slot is recycled: the second actor gets slot 1 again, and the pid of the
first one no longer resolves. -/
theorem pidTable_safety_recycled :
    let zeroed : Nat → PidEntry := fun _ => ⟨0, 0⟩
    let first := (PidTable.init.assignPid 16 zeroed)
    let cleared := first.2.clearPid first.1 fun _ => 0
    let second := cleared.assignPid 32 zeroed
    slotOf second.1 = slotOf first.1 ∧ second.2.lookupProcCtx first.1 = 0 := by
  intro zeroed first cleared second
  refine ⟨by decide, ?_⟩
  have spawn : PidStep .init (.assign 16 zeroed) ⟨first.2, [⟨16, first.1⟩]⟩ :=
    .assign 16 zeroed (by decide) (by decide)
  have death : PidStep ⟨first.2, [⟨16, first.1⟩]⟩ (.clear ⟨16, first.1⟩ fun _ => 0)
      ⟨cleared, []⟩ := by
    have step := @PidStep.clear first.2 [⟨16, first.1⟩] ⟨16, first.1⟩ (fun _ => 0)
      (List.mem_singleton_self _)
    rwa [List.erase_cons_head] at step
  have respawn : PidStep ⟨cleared, []⟩ (.assign 32 zeroed)
      ⟨second.2, [⟨32, second.1⟩]⟩ :=
    .assign 32 zeroed (by decide) (by decide)
  have run := ((Run.refl.next spawn).next death).next respawn
  have recycled := (pidTable_safety run).2.2
  refine recycled ?_ _ (List.mem_cons_of_mem _ List.mem_cons_self) _ _ rfl
  simp only [meets_cons, meets_nil]
  decide

/-! ## Live pids resolve -/

/-- Every live actor's pid resolves to it. -/
def PidState.Resolves (state : PidState) : Prop :=
  ∀ holder ∈ state.holders, state.table.lookupProcCtx holder.ownPid = holder.procCtx

/-- Whether the pids resolve depends on the generations in the table only. -/
theorem PidState.resolves_iff {table : PidTable} {holders : List Holder}
    {pool : SlotPool} (represents : table.Represents holders pool)
    (contexts : ∀ holder ∈ holders, holder.procCtx ≠ 0) :
    PidState.Resolves ⟨table, holders⟩ ↔
      ∀ holder ∈ holders, (table.pidTable.load holder.slot).gen.toNat < 2 ^ 32 :=
  forall₂_congr fun holder live =>
    represents.lookup_ownPid_iff live (contexts holder live)

/-- From a state where every live pid resolves, a step leads to such a state
exactly when the generation it hands out fits the pid. -/
theorem PidStep.resolves_iff {state next : PidState} {event : PidEvent}
    (sound : state.Sound) (resolves : state.Resolves)
    (step : PidStep state event next) :
    next.Resolves ↔ GenerationFits state event := by
  have soundNext := step.sound sound
  rcases sound with ⟨⟨pool, represents⟩, contexts⟩
  rcases soundNext with ⟨⟨poolNext, representsNext⟩, contextsNext⟩
  have before := (PidState.resolves_iff represents contexts).mp resolves
  rw [PidState.resolves_iff representsNext contextsNext]
  cases step with
  | @assign table holders procCtx fresh nonzero fits =>
      have newSlot := represents.slotOf_assignPid procCtx fresh
      have older : ∀ holder ∈ holders,
          (table.assignPid procCtx fresh).2.pidTable.load holder.slot =
            table.pidTable.load holder.slot := fun holder live =>
        represents.assignPid_entry_other procCtx fresh
          (represents.slot_range live).2 (represents.acquired_ne_slot live)
      rw [← represents.newGen_lt_iff procCtx fresh, List.forall_mem_cons, Holder.slot,
        newSlot, PidTable.Represents.assignPid_entry_acquired]
      refine ⟨And.left, fun fits => ⟨fits, fun holder live => ?_⟩⟩
      rw [older holder live]
      exact before holder live
  | @clear table holders holder fresh live =>
      refine ⟨fun _ => trivial, fun _ other remaining => ?_⟩
      have otherLive := List.mem_of_mem_erase remaining
      by_cases same : other.slot = holder.slot
      · have entry := PidTable.Represents.clearPid_entry_self table holder.ownPid fresh
        rw [same, Holder.slot, entry]
        exact before holder live
      · have different : other.slot.toNat ≠ (slotOf holder.ownPid).toNat := fun number =>
          same (BitVec.eq_of_toNat_eq number)
        rw [HeapArray.load,
          PidTable.Represents.clearPid_entry_other table _ fresh different]
        exact before other otherLive
  | lookup => exact ⟨fun _ => trivial, fun _ => before⟩

/-- Live pids resolve throughout a run exactly when every assignment finds a
generation word that its pid can carry once incremented. -/
theorem live_pids_resolve_iff {history : List (Stage PidState PidEvent)}
    {final : PidState} (run : Run PidStep .init history final) :
    Throughout PidState.Resolves history final ↔ Meets GenerationFits history :=
  run.throughout_iff_meets PidState.init_sound (by simp [PidState.Resolves, PidState.init])
    (fun _ _ _ sound resolves step => step.resolves_iff sound resolves)
    (fun _ _ _ sound _ _ step => step.sound sound)

theorem live_pids_resolve_iff_spawn :
    let spawned := PidTable.init.assignPid 16 fun _ => ⟨0, 0⟩
    Throughout PidState.Resolves
      [⟨.init, PidEvent.assign 16 fun _ => ⟨0, 0⟩⟩] ⟨spawned.2, [⟨16, spawned.1⟩]⟩ := by
  intro spawned
  have spawn : PidStep .init (.assign 16 fun _ => ⟨0, 0⟩) ⟨spawned.2, [⟨16, spawned.1⟩]⟩ :=
    .assign 16 _ (by decide) (by decide)
  apply (live_pids_resolve_iff (Run.refl.next spawn)).mpr
  simp only [meets_cons, meets_nil]
  decide

/-! ## A slot in recycled memory

`rt_allocate_raw` may return a chunk that was freed before with its contents. The
buffer below was filled with text, of which the tail was never given back to the
kernel. -/

/-- What a chunk of 8192 entries holds whose last 192 entries kept the bytes of a
text made of the letter `A`. -/
def recycledChunk (index : Nat) : PidEntry :=
  if 8000 ≤ index then ⟨0x4141414141414141, 0x4141414141414141⟩ else ⟨0, 0⟩

/-- The table after `count` spawns and no death. -/
structure SpawnedOnly (state : PidState) (count : Nat) : Prop where
  len : state.table.pidTableLen.toNat = count + 1
  noFree : state.table.freeSlotsLen = 0
  cap : state.table.pidTable.cap = if count < 4095 then 4096 else 8192
  tail : 4095 ≤ count → state.table.pidTable.entry 8000 = recycledChunk 8000

theorem spawnedOnly_run (count : Nat) (withinTable : count ≤ 7999) :
    ∃ history final, Run PidStep .init history final ∧ SpawnedOnly final count := by
  induction count with
  | zero => exact ⟨[], .init, .refl, rfl, rfl, rfl, by simp⟩
  | succ count induction =>
      rcases induction (by omega) with ⟨history, ⟨table, holders⟩, run, spawned⟩
      rcases spawned with ⟨len, noFree, cap, tail⟩
      simp only at len noFree cap tail
      have acquired : table.emitAcquireSlot =
          (table.pidTableLen, { table with pidTableLen := table.pidTableLen + 1 }) := by
        simp [PidTable.emitAcquireSlot, noFree]
      have lenSucc : (table.pidTableLen + 1).toNat = count + 2 := by
        rw [toNat_succ _ (by omega)]
        omega
      have grows : table.pidTable.cap ≤ count + 2 ↔ count = 4094 := by
        rw [cap]
        split <;> omega
      have grown : (table.assignedFrom recycledChunk).cap =
          if count + 1 < 4095 then 4096 else 8192 := by
        simp only [PidTable.assignedFrom, acquired, HeapArray.emitGrowArrayIfFull, lenSucc,
          grows]
        split
        · simp_all
        · rw [cap]
          split <;> split <;> omega
      have fits : (table.assignPid 16 recycledChunk).2.FitsHeap := by
        change (table.assignedFrom recycledChunk).cap * 16 ≤ HEAP_SIZE
        rw [grown]
        split <;> decide
      refine ⟨_, _, run.next (.assign 16 recycledChunk (by decide) fits), ?_, ?_, grown, ?_⟩
      · simp only [PidTable.assignPid, acquired, lenSucc]
      · simp only [PidTable.assignPid, acquired, noFree]
      · intro reached
        simp only [PidTable.assignPid, HeapArray.store_entry, acquired]
        rw [Function.update_of_ne (by omega)]
        simp only [PidTable.assignedFrom, acquired, HeapArray.emitGrowArrayIfFull, lenSucc,
          grows]
        split
        · exact if_neg (by omega)
        · exact tail (by omega)

/-- The actor spawned into the first slot whose entry kept old bytes is live and
its own pid does not resolve to it. -/
theorem live_pid_lost_in_recycled_memory :
    ¬ ∀ (history : List (Stage PidState PidEvent)) (final : PidState),
      Run PidStep .init history final →
        ∀ holder ∈ final.holders,
          final.table.lookupProcCtx holder.ownPid = holder.procCtx := by
  intro resolves
  rcases spawnedOnly_run 7999 (by decide) with ⟨history, ⟨table, holders⟩, run, spawned⟩
  rcases spawned with ⟨len, noFree, cap, tail⟩
  simp only at len noFree cap tail
  have acquired : table.emitAcquireSlot =
      (table.pidTableLen, { table with pidTableLen := table.pidTableLen + 1 }) := by
    simp [PidTable.emitAcquireSlot, noFree]
  have fits : (table.assignPid 16 recycledChunk).2.FitsHeap := by
    change (table.assignedFrom recycledChunk).cap * 16 ≤ HEAP_SIZE
    have capEq : table.pidTable.cap = 8192 := cap
    have room : (table.pidTableLen + 1).toNat < table.pidTable.cap := by
      rw [toNat_succ _ (by omega)]
      omega
    rw [PidTable.assignedFrom, acquired, HeapArray.grow_of_lt _ _ _ room, capEq]
    decide
  have spawn := @PidStep.assign table holders 16 recycledChunk (by decide) fits
  have fitting := (spawn.resolves_iff (PidState.sound_of_run run)
    (resolves history _ run)).mp (resolves _ _ (run.next spawn))
  have found : table.pidTable.load table.emitAcquireSlot.1 = recycledChunk 8000 := by
    rw [acquired, HeapArray.load, len]
    exact tail (by decide)
  simp only [GenerationFits, found] at fitting
  exact absurd fitting (by decide)

end LakeNative.Runtime

import Mathlib.Data.List.AList
import Mathlib.Data.List.MinMax
import Mathlib.Order.Nat
import LakeNative.Compiler.Unroll

/-! # The table of slots

`BranchState` with its maps: the slots of the names in scope, the types that the names have in
the source, and the registers that the unrolled loop keeps slots in. The other modules need the
slots alone.
-/

namespace LakeNative.Compiler

/-- `Ty` are the types that values have in the compiled code, `Var` its variables. -/
structure SlotTable (Ty Var : Type) where
  vars : AList fun _ : String => Ty × Nat
  lakeTypes : AList fun _ : String => String
  cachedVars : AList fun _ : Nat => Var

namespace SlotTable

variable {Ty Var : Type} {table : SlotTable Ty Var} {name other : String}

/-- `BranchState::default` -/
def empty : SlotTable Ty Var := ⟨∅, ∅, ∅⟩

def get (table : SlotTable Ty Var) (name : String) : Option (Ty × Nat) := table.vars.lookup name

/-- One past the highest slot that a name has. -/
def nextIndex (table : SlotTable Ty Var) : Nat :=
  (table.vars.entries.map fun entry => entry.2.2 + 1).foldr max 0

def len (table : SlotTable Ty Var) : Nat := table.nextIndex

def insert (table : SlotTable Ty Var) (name : String) (ty : Ty) : Nat × SlotTable Ty Var :=
  let idx := table.nextIndex
  (idx, { table with vars := table.vars.insert name (ty, idx) })

def insertWithLakeType (table : SlotTable Ty Var) (name : String) (ty : Ty) (lakeTy : String) :
    Nat × SlotTable Ty Var :=
  let (idx, table) := table.insert name ty
  (idx, { table with lakeTypes := table.lakeTypes.insert name lakeTy })

def cacheSlot (table : SlotTable Ty Var) (slot : Nat) (var : Var) : SlotTable Ty Var :=
  { table with cachedVars := table.cachedVars.insert slot var }

def clearVarCache (table : SlotTable Ty Var) : SlotTable Ty Var := { table with cachedVars := ∅ }

def remove (table : SlotTable Ty Var) (name : String) : SlotTable Ty Var where
  vars := table.vars.erase name
  lakeTypes := table.lakeTypes.erase name
  cachedVars :=
    match table.vars.lookup name with
    | some (_, slot) => table.cachedVars.erase slot
    | none => table.cachedVars

/-- The slot of a name, without its type. -/
def slotOf (table : SlotTable Ty Var) (name : String) : Option Nat := (table.get name).map Prod.snd

/-! ## What the calls do to slots -/

@[simp] theorem slotOf_insert (table : SlotTable Ty Var) (name : String) (ty : Ty) :
    (table.insert name ty).2.slotOf name = some table.len := by
  simp [slotOf, get, insert, len]

theorem slotOf_insert_ne (table : SlotTable Ty Var) (different : other ≠ name) (ty : Ty) :
    (table.insert name ty).2.slotOf other = table.slotOf other := by
  simp [slotOf, get, insert, different]

@[simp] theorem slotOf_remove (table : SlotTable Ty Var) (name : String) :
    (table.remove name).slotOf name = none := by
  simp [slotOf, get, remove]

theorem slotOf_remove_ne (table : SlotTable Ty Var) (different : other ≠ name) :
    (table.remove name).slotOf other = table.slotOf other := by
  simp [slotOf, get, remove, different]

/-- The length is the least bound on the slots in use. -/
theorem len_le_iff (table : SlotTable Ty Var) (bound : Nat) :
    table.len ≤ bound ↔ ∀ name slot, table.slotOf name = some slot → slot < bound := by
  change (table.vars.entries.map fun entry => entry.2.2 + 1).foldr max 0 ≤ bound ↔ _
  constructor
  · intro fits name slot found
    rcases Option.map_eq_some_iff.mp found with ⟨⟨ty, _⟩, isEntry, rfl⟩
    have member := AList.mem_lookup_iff.mp isEntry
    refine Nat.le_trans ?_ fits
    exact List.le_max_of_le' 0 (List.mem_map.mpr ⟨_, member, rfl⟩) (Nat.le_refl _)
  · intro inside
    apply List.max_le_of_forall_le _ bound
    intro index isIndex
    rcases List.mem_map.mp isIndex with ⟨⟨name, ty, slot⟩, member, rfl⟩
    have found := AList.mem_lookup_iff.mpr member
    exact inside name slot (Option.map_eq_some_iff.mpr ⟨(ty, slot), found, rfl⟩)

theorem slot_lt_len {slot : Nat} (found : table.slotOf name = some slot) : slot < table.len :=
  (table.len_le_iff table.len).mp (Nat.le_refl _) name slot found

theorem len_insert (table : SlotTable Ty Var) (name : String) (ty : Ty) :
    (table.insert name ty).2.len = table.len + 1 := by
  apply Nat.le_antisymm
  · apply (len_le_iff _ _).mpr
    intro other slot found
    by_cases same : other = name
    · rw [same, slotOf_insert] at found
      cases found
      exact Nat.lt_succ_self _
    · rw [slotOf_insert_ne table same] at found
      exact Nat.lt_succ_of_lt (slot_lt_len found)
  · exact slot_lt_len (slotOf_insert table name ty)

theorem len_remove_le (table : SlotTable Ty Var) (name : String) :
    (table.remove name).len ≤ table.len := by
  apply (len_le_iff _ _).mpr
  intro other slot found
  by_cases same : other = name
  · rw [same, slotOf_remove] at found
    cases found
  · rw [slotOf_remove_ne table same] at found
    exact slot_lt_len found

end SlotTable

/-! ## Sequences of calls -/

/-- The calls that change the table. -/
inductive SlotCall (Ty Var : Type) where
  | insert (name : String) (ty : Ty)
  | insertWithLakeType (name : String) (ty : Ty) (lakeTy : String)
  | cacheSlot (slot : Nat) (var : Var)
  | clearVarCache
  | remove (name : String)

/-- A table, and the slots that it has handed out with their names, latest first. -/
structure SlotUse (Ty Var : Type) where
  table : SlotTable Ty Var
  handed : List (String × Nat)

namespace SlotUse

variable {Ty Var : Type}

def start : SlotUse Ty Var := ⟨.empty, []⟩

def call (use : SlotUse Ty Var) : SlotCall Ty Var → SlotUse Ty Var
  | .insert name ty =>
      let (slot, table) := use.table.insert name ty
      ⟨table, (name, slot) :: use.handed⟩
  | .insertWithLakeType name ty lakeTy =>
      let (slot, table) := use.table.insertWithLakeType name ty lakeTy
      ⟨table, (name, slot) :: use.handed⟩
  | .cacheSlot slot var => { use with table := use.table.cacheSlot slot var }
  | .clearVarCache => { use with table := use.table.clearVarCache }
  | .remove name => { use with table := use.table.remove name }

end SlotUse

end LakeNative.Compiler

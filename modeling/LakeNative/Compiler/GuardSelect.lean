import Mathlib.Algebra.Group.Int.Defs
import LakeNative.Compiler.Registry
import LakeNative.Compiler.Mphf
import LakeNative.Library.KeyedChoice

/-! # Selection by literal guards

Where several branches have the hash of a call, the code at the call site selects one
by comparing the argument at one position with their literals.
-/

namespace LakeNative.Compiler

open LakeNative.Runtime LakeNative.PerfectHash LakeNative.KeyedChoice

/-! ## Literals -/

/-- The bytes of a string literal, its escape sequences resolved. -/
def unescapeChars : List Char → List UInt8
  | [] => []
  | '\\' :: 'n' :: chars => 0x0A :: unescapeChars chars
  | '\\' :: 't' :: chars => 0x09 :: unescapeChars chars
  | '\\' :: 'r' :: chars => 0x0D :: unescapeChars chars
  | '\\' :: '\\' :: chars => 0x5C :: unescapeChars chars
  | '\\' :: '"' :: chars => 0x22 :: unescapeChars chars
  | '\\' :: char :: chars => 0x5C :: String.utf8EncodeChar char ++ unescapeChars chars
  | char :: chars => String.utf8EncodeChar char ++ unescapeChars chars

def unescape (text : String) : List UInt8 := unescapeChars text.toList

/-- The bytes between the two pointers of the fat pointer at an address. -/
abbrev Memory := Word → List UInt8

def GuardValue.Holds (memory : Memory) (arg : Word) : GuardValue → Prop
  | .int value => arg = value
  | .str text => memory arg = unescape text

namespace BranchInfo

def guardAt (branch : BranchInfo) (pos : Nat) : Option GuardValue := (branch.guards[pos]?).join

/-- The guard of the smallest position. -/
def firstGuard (branch : BranchInfo) : Option GuardValue := branch.guards.findSome? id

/-- Every literal guard equals the argument at its position. -/
def Matches (memory : Memory) (args : Nat → Word) (branch : BranchInfo) : Prop :=
  ∀ pos guard, branch.guardAt pos = some guard → guard.Holds memory (args pos)

end BranchInfo

/-! ## Position and kind -/

def findFirstGuardPos (candidates : List BranchInfo) : Nat :=
  (candidates.findSome? fun branch => branch.guards.findIdx? Option.isSome).getD 0

/-- How many distinct literals the candidates have at a position. -/
def distinctGuards (candidates : List BranchInfo) (pos : Nat) : Nat :=
  (candidates.filterMap fun branch => branch.guardAt pos).dedup.length

/-- The position with the most distinct literals, the leftmost of these. -/
def findBestGuardPos (candidates : List BranchInfo) : Nat :=
  let maxArity := (candidates.map fun branch => branch.guards.length).foldr max 0
  ((List.range maxArity).foldl (fun best pos =>
    if best.2 < distinctGuards candidates pos then (pos, distinctGuards candidates pos) else best)
    (findFirstGuardPos candidates, 0)).1

inductive GuardKind where
  | int
  | str
  deriving DecidableEq

/-- The kind of the first literal that the candidates have at the best position. -/
def guardKind (candidates : List BranchInfo) : Option GuardKind :=
  candidates.findSome? fun branch =>
    match branch.guardAt (findBestGuardPos candidates) with
    | some (.int _) => some .int
    | some (.str _) => some .str
    | none => none

/-- Where no literal is met: the last branch without a key, else the first branch. -/
def defaultId {Key : Type} (key : BranchInfo → Option Key) (candidates : List BranchInfo) : Nat :=
  (((fallback key candidates).or candidates.head?).map BranchInfo.branchId).getD 0

/-! ## Integers -/

/-- Cranelift's `Switch` on a 64-bit value: its entries are integers of 128 bits with
the block that each leads to. It stops the compiler if an entry is set twice or
does not fit the value's type. -/
structure Switch where
  emit : List (Nat × Nat) → Option (Word → Option Nat)
  twice : ∀ entries, ¬ (entries.map Prod.fst).Nodup → emit entries = none
  wide : ∀ entries, (∃ entry ∈ entries, 2 ^ 64 ≤ entry.1) → emit entries = none
  fits : ∀ entries, (entries.map Prod.fst).Nodup → (∀ entry ∈ entries, entry.1 < 2 ^ 64) →
    ∃ table, emit entries = some table ∧ ∀ value, table value = entries.lookup value.toNat

/-- A switch that compares with its entries one after the other. -/
def Switch.linear : Switch where
  emit entries :=
    if (entries.map Prod.fst).Nodup ∧ ∀ entry ∈ entries, entry.1 < 2 ^ 64 then
      some fun value => entries.lookup value.toNat
    else
      none
  twice _ repeated := if_neg fun accepted => repeated accepted.1
  wide _ tooWide := if_neg fun accepted => by
    rcases tooWide with ⟨entry, member, large⟩
    exact absurd (accepted.2 entry member) (Nat.not_lt_of_le large)
  fits _ once narrow := ⟨_, if_pos ⟨once, narrow⟩, fun _ => rfl⟩

/-- `as u128`, which extends the sign. -/
def asU128 (value : Word) : Nat := (value.toInt % 2 ^ 128).toNat

theorem asU128_eq (value : Word) :
    asU128 value = if 0 ≤ value.toInt then value.toNat else value.toNat + (2 ^ 128 - 2 ^ 64) := by
  have below := value.isLt
  rw [asU128, BitVec.toInt_eq_toNat_cond]
  split <;> split <;> omega

theorem asU128_injective {first second : Word} (same : asU128 first = asU128 second) :
    first = second := by
  have firstBelow := first.isLt
  have secondBelow := second.isLt
  apply BitVec.eq_of_toNat_eq
  rw [asU128_eq, asU128_eq] at same
  split at same <;> split at same <;> omega

theorem asU128_lt_iff {value : Word} : asU128 value < 2 ^ 64 ↔ 0 ≤ value.toInt := by
  have below := value.isLt
  rw [asU128_eq]
  split <;> omega

/-- The switch accepts distinct literals that are not negative only. -/
theorem Switch.accepts {switch : Switch} {entries : List (Word × Nat)} {table : Word → Option Nat}
    (accepted : switch.emit (entries.map fun entry => (asU128 entry.1, entry.2)) = some table) :
    (entries.map Prod.fst).Nodup ∧ ∀ entry ∈ entries, 0 ≤ entry.1.toInt := by
  constructor
  · by_contra repeated
    rw [switch.twice] at accepted
    · cases accepted
    · rw [List.map_map]
      exact fun distinct => repeated (List.Nodup.of_map asU128 (by rwa [List.map_map]))
  · intro entry member
    by_contra negative
    rw [switch.wide] at accepted
    · cases accepted
    · refine ⟨_, List.mem_map_of_mem member, ?_⟩
      exact Nat.le_of_not_lt fun small => negative (asU128_lt_iff.mp small)

/-- An accepted switch compares words. -/
theorem Switch.accepted_lookup {switch : Switch} {entries : List (Word × Nat)}
    {table : Word → Option Nat}
    (accepted : switch.emit (entries.map fun entry => (asU128 entry.1, entry.2)) = some table)
    (disc : Word) : table disc = entries.lookup disc := by
  rcases Switch.accepts accepted with ⟨distinct, nonnegative⟩
  have once : ((entries.map fun entry => (asU128 entry.1, entry.2)).map Prod.fst).Nodup := by
    have encoded := distinct.map fun _ _ same => asU128_injective same
    rwa [List.map_map] at encoded ⊢
  have narrow : ∀ entry ∈ entries.map fun entry => (asU128 entry.1, entry.2),
      entry.1 < 2 ^ 64 := by
    intro entry member
    rcases List.mem_map.mp member with ⟨literal, isLiteral, rfl⟩
    exact asU128_lt_iff.mpr (nonnegative literal isLiteral)
  rcases switch.fits _ once narrow with ⟨other, same, compares⟩
  rw [accepted] at same
  cases same
  rw [compares]
  clear accepted compares once narrow distinct
  induction entries with
  | nil => rfl
  | cons entry entries induction =>
      rw [List.forall_mem_cons] at nonnegative
      have number : asU128 entry.1 = entry.1.toNat := by
        rw [asU128_eq, if_pos nonnegative.1]
      rw [List.map_cons, List.lookup_cons, List.lookup_cons, number,
        induction nonnegative.2]
      by_cases equal : disc = entry.1
      · simp [equal]
      · have different : disc.toNat ≠ entry.1.toNat := fun same =>
          equal (BitVec.eq_of_toNat_eq same)
        rw [beq_false_of_ne equal, beq_false_of_ne different]

/-- The literal by which the switch enters a branch. -/
def intKey (branch : BranchInfo) : Option Word :=
  match branch.firstGuard with
  | some (.int value) => some value
  | _ => none

def switchEntries (candidates : List BranchInfo) : List (Nat × Nat) :=
  candidates.filterMap fun branch =>
    (intKey branch).map fun value => (asU128 value, branch.branchId)

/-- Every arm's block leads on with the id of its branch; the default arm is that of
the last branch without an integer. -/
def emitIntGuardSelect (switch : Switch) (candidates : List BranchInfo) : Option (Word → Nat) :=
  (switch.emit (switchEntries candidates)).map fun table disc =>
    (table disc).getD (defaultId intKey candidates)

/-! ## Strings -/

/-- The bytes of a branch's literal at a position. -/
def strKey (pos : Nat) (branch : BranchInfo) : Option (List UInt8) :=
  match branch.guardAt pos with
  | some (.str text) => some (unescape text)
  | _ => none

def isIntGuard : Option GuardValue → Bool
  | some (.int _) => true
  | _ => false

/-- The branches with a string at the position and its bytes. -/
def strBranches (pos : Nat) (candidates : List BranchInfo) : List (List UInt8 × Nat) :=
  candidates.filterMap fun branch =>
    (strKey pos branch).map fun bytes => (bytes, branch.branchId)

def strIndex (mphf : Mphf) (bytes : List UInt8) : Nat := (mphf.lookup (fxhash bytes)).toNat

/-- The code at the call site hashes the argument's bytes, probes the table and compares
hash, length and bytes. -/
def strSelect (pos : Nat) (candidates : List BranchInfo) (mphf : Mphf) (memory : Memory)
    (disc : Word) : Nat :=
  ((probe (strIndex mphf) Prod.fst (strBranches pos candidates) (memory disc)).map
    Prod.snd).getD (defaultId (strKey pos) candidates)

/-- An integer at the position stops the compiler. -/
def emitStrGuardSelect (candidates : List BranchInfo) : Option (Memory → Word → Nat) :=
  let pos := findBestGuardPos candidates
  let branches := strBranches pos candidates
  if candidates.any fun branch => isIntGuard (branch.guardAt pos) then
    none
  else if branches.isEmpty then
    none
  else
    (MphfBuilder.build (branches.map fun entry => fxhash entry.1)).map (strSelect pos candidates)

/-! ## Call sites -/

def emitGuardSelect (switch : Switch) (candidates : List BranchInfo) :
    Option (Memory → Word → Nat) :=
  match guardKind candidates with
  | some .str => emitStrGuardSelect candidates
  | _ => (emitIntGuardSelect switch candidates).map fun select _ disc => select disc

/-- The id that a call stores as `BRANCH_ID`. A single candidate is taken as it is. -/
def selectBranch (switch : Switch) (candidates : List BranchInfo) :
    Option (Memory → (Nat → Word) → Nat) :=
  match candidates with
  | [] => none
  | [only] => some fun _ _ => only.branchId
  | _ => (emitGuardSelect switch candidates).map fun select memory args =>
      select memory (args (findBestGuardPos candidates))

/-- A selection reads the argument at one position only, and none for a single candidate. -/
theorem selectBranch_congr {switch : Switch} {candidates : List BranchInfo}
    {select : Memory → (Nat → Word) → Nat} (selected : selectBranch switch candidates = some select)
    (memory : Memory) {args others : Nat → Word}
    (same : 1 < candidates.length →
      args (findBestGuardPos candidates) = others (findBestGuardPos candidates)) :
    select memory args = select memory others := by
  match candidates with
  | [] => cases selected
  | [only] =>
      cases selected
      rfl
  | first :: second :: candidates =>
      rcases Option.map_eq_some_iff.mp selected with ⟨choose, -, rfl⟩
      exact congrArg (choose memory) (same (by simp))

theorem selectBranch_single {switch : Switch} {only : BranchInfo}
    {select : Memory → (Nat → Word) → Nat} (selected : selectBranch switch [only] = some select)
    (memory : Memory) (args : Nat → Word) : select memory args = only.branchId := by
  cases selected
  rfl

end LakeNative.Compiler

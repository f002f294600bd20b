import LakeNative.Compiler.GuardSelect
import LakeNative.Compiler.MphfCode

/-! # Emitted selection by strings

The tables that `emit_str_guard_select` writes and the machine code that it emits over them:
hash the argument, look the hash up, then compare hash, length and bytes.
-/

namespace LakeNative.Compiler

open LakeNative.Runtime LakeNative.PerfectHash LakeNative.ByteTables

/-- The literals' bytes and branches by the index of their hash. -/
def byIndex (pos : Nat) (candidates : List BranchInfo) (mphf : Mphf) :
    Nat → Option (List UInt8 × Nat) :=
  fillTable (fun entry => strIndex mphf entry.1) (strBranches pos candidates)

section Tables

variable (slots : Nat → Option (List UInt8 × Nat))

/-- The literals one behind the other, up to an index. -/
def literalBlob (count : Nat) : List UInt8 :=
  (List.range count).flatMap fun slot => ((slots slot).map Prod.fst).getD []

def keyOf (slot : Nat) : Nat := ((slots slot).map fun entry => (fxhash entry.1).toNat).getD 0

/-- No length is that of an index without a literal. -/
def lengthOf (slot : Nat) : Nat :=
  ((slots slot).map fun entry => entry.1.length).getD (2 ^ 64 - 1)

def offsetOf (slot : Nat) : Nat :=
  if (slots slot).isSome then (literalBlob slots slot).length else 0

def branchOf (slot : Nat) : Nat := ((slots slot).map Prod.snd).getD (2 ^ 64 - 1)

end Tables

/-- The addresses of the data sections of a call site. -/
structure GuardTables where
  disp : BitVec 64
  keys : BitVec 64
  litMeta : BitVec 64
  litBlob : BitVec 64
  branchIds : BitVec 64

/-- The sections are in memory as the compiler defines them. -/
structure GuardTables.Stored (tables : GuardTables) (byte : ByteAt) (mphf : Mphf)
    (slots : Nat → Option (List UInt8 × Nat)) : Prop where
  disp : Holds byte tables.disp mphf.displacementBytes
  keys : Holds byte tables.keys (table 8 ((List.range mphf.totalKeys).map (keyOf slots)))
  litMeta : Holds byte tables.litMeta (table 8 ((List.range mphf.totalKeys).flatMap fun slot =>
    [offsetOf slots slot, lengthOf slots slot]))
  litBlob : Holds byte tables.litBlob
    (if (literalBlob slots mphf.totalKeys).isEmpty then [0] else literalBlob slots mphf.totalKeys)
  branchIds : Holds byte tables.branchIds
    (table 8 ((List.range mphf.totalKeys).map (branchOf slots)))
  fits : (literalBlob slots mphf.totalKeys).length < 2 ^ 64

/-- The loop that compares the argument's bytes with a literal's, from an index on. -/
def memcmpLoop (byte : ByteAt) (start litStart len i : BitVec 64) : Bool :=
  if i < len then
    if byte (start + i) = byte (litStart + i) then memcmpLoop byte start litStart len (i + 1)
    else false
  else
    true
termination_by len.toNat - i.toNat
decreasing_by
  rename_i inBounds _
  have below := BitVec.lt_def.mp inBounds
  have _fits := len.isLt
  have next : (i + 1).toNat = i.toNat + 1 := by
    rw [BitVec.toNat_add]
    change (i.toNat + 1) % 2 ^ 64 = i.toNat + 1
    omega
  omega

/-- The code behind a call with the address of its argument's fat pointer. -/
def strGuardCode (tables : GuardTables) (mphf : Mphf) (fallbackId : Nat) (byte : ByteAt)
    (disc : BitVec 64) : BitVec 64 :=
  let start := load64 byte disc
  let stop := load64 byte (disc + 8)
  let len := stop - start
  let hash := emitFxhash byte start len
  let mphfHash := emitHashFunction hash mphf.seed
  let index := (emitMphfLookup byte mphf mphfHash tables.disp).setWidth 64
  let storedKey := load64 byte (tables.keys + index * 8)
  let litOffset := load64 byte (tables.litMeta + index * 16)
  let litLen := load64 byte (tables.litMeta + index * 16 + 8)
  if storedKey = hash then
    if litLen = len then
      if memcmpLoop byte start (tables.litBlob + litOffset) len 0 then
        load64 byte (tables.branchIds + index * 8)
      else
        BitVec.ofNat 64 fallbackId
    else
      BitVec.ofNat 64 fallbackId
  else
    BitVec.ofNat 64 fallbackId

/-- The bytes between the two words of the fat pointer at an address. -/
def argumentBytes (byte : ByteAt) (disc : BitVec 64) : List UInt8 :=
  bytesAt byte (load64 byte disc) (load64 byte (disc + 8) - load64 byte disc).toNat

/-! ## What is compared -/

/-- The loop compares the bytes that are left. -/
theorem memcmpLoop_iff (byte : ByteAt) (start litStart len : BitVec 64) (count left : Nat)
    (isLen : count + left = len.toNat) :
    memcmpLoop byte start litStart len (BitVec.ofNat 64 count) = true ↔
      ∀ i, count ≤ i → i < len.toNat →
        byte (start + BitVec.ofNat 64 i) = byte (litStart + BitVec.ofNat 64 i) := by
  have below := len.isLt
  have isCount : (BitVec.ofNat 64 count).toNat = count := by
    rw [BitVec.toNat_ofNat]
    exact Nat.mod_eq_of_lt (by omega)
  induction left generalizing count with
  | zero =>
      have ended : ¬ BitVec.ofNat 64 count < len := by
        rw [BitVec.lt_def, isCount]
        omega
      rw [memcmpLoop, if_neg ended]
      exact iff_of_true rfl fun i low high => by omega
  | succ left induction =>
      have inBounds : BitVec.ofNat 64 count < len := by
        rw [BitVec.lt_def, isCount]
        omega
      have next : BitVec.ofNat 64 count + 1 = BitVec.ofNat 64 (count + 1) := (BitVec.ofNat_add _ _).symm
      have isNext : (BitVec.ofNat 64 (count + 1)).toNat = count + 1 := by
        rw [BitVec.toNat_ofNat]
        exact Nat.mod_eq_of_lt (by omega)
      have later := induction (count + 1) (by omega) isNext
      rw [memcmpLoop, if_pos inBounds, next]
      split
      · rename_i same
        refine later.trans ⟨?_, ?_⟩
        · intro rest i low high
          by_cases isHere : i = count
          · rw [isHere]
            exact same
          · exact rest i (by omega) high
        · exact fun all i low high => all i (by omega) high
      · rename_i different
        refine iff_of_false nofun fun all => different (all count (Nat.le_refl _) (by omega))

theorem bytesAt_eq_iff {byte : ByteAt} {start : BitVec 64} {bytes : List UInt8} :
    bytesAt byte start bytes.length = bytes ↔ Holds byte start bytes := by
  induction bytes generalizing start with
  | nil => exact iff_of_true rfl trivial
  | cons first bytes induction =>
      rw [bytesAt, List.length_cons, List.range_succ_eq_map, List.map_cons, List.map_map,
        List.cons.injEq, Holds, BitVec.add_zero, ← induction]
      have shifted : (List.range bytes.length).map
          ((fun index => byte (start + BitVec.ofNat 64 index)) ∘ Nat.succ) =
          bytesAt byte (start + 1) bytes.length := by
        apply List.map_congr_left
        intro index _
        exact congrArg byte (add_ofNat_succ start index)
      rw [shifted]

end LakeNative.Compiler

import LakeNative.Library.ByteTables
import LakeNative.Compiler.Mphf

/-! # Emitted hashing

The machine code that hashes the bytes of an argument and looks the hash up in the tables of
a perfect hash, as it computes on 64-bit words and bytes of memory.
-/

namespace LakeNative.Compiler

open LakeNative.ByteTables

/-- Memory as emitted code loads from it. -/
abbrev ByteAt := BitVec 64 → UInt8

/-- A load of 64 bits. -/
def load64 (byte : ByteAt) (addr : BitVec 64) : BitVec 64 := BitVec.ofNat 64 (loadLe byte addr 8)

/-- The loop of `emit_fxhash`, with the hash so far and the index of the next byte. -/
def fxhashLoop (byte : ByteAt) (dataPtr dataLen hash i : BitVec 64) : BitVec 64 :=
  if i < dataLen then
    let byteExt := (byte (dataPtr + i)).toBitVec.setWidth 64
    fxhashLoop byte dataPtr dataLen ((hash ^^^ byteExt) * 0x100000001b3) (i + 1)
  else
    hash
termination_by dataLen.toNat - i.toNat
decreasing_by
  rename_i inBounds
  have below := BitVec.lt_def.mp inBounds
  have _fits := dataLen.isLt
  have next : (i + 1).toNat = i.toNat + 1 := by
    rw [BitVec.toNat_add]
    change (i.toNat + 1) % 2 ^ 64 = i.toNat + 1
    omega
  omega

def emitFxhash (byte : ByteAt) (dataPtr dataLen : BitVec 64) : BitVec 64 :=
  fxhashLoop byte dataPtr dataLen 0xcbf29ce484222325 0

def emitHashFunction (key : BitVec 64) (seed : UInt64) : BitVec 64 :=
  let hash := key + seed.toBitVec
  let hash := hash ^^^ (hash >>> 33)
  let hash := hash * 0xff51afd7ed558ccd
  let hash := hash ^^^ (hash >>> 33)
  let hash := hash * 0xc4ceb9fe1a85ec53
  hash ^^^ (hash >>> 33)

/-- The bytes of the displacement table, as the compiler writes them. -/
def Mphf.displacementBytes (mphf : Mphf) : List UInt8 :=
  table 4 ((List.range mphf.numBuckets).map fun id => (mphf.displacements id).toNat)

/-- The index of a hash, the displacements being at an address. -/
def emitMphfLookup (byte : ByteAt) (mphf : Mphf) (hashValue displacementsPtr : BitVec 64) :
    BitVec 32 :=
  let bucketId := hashValue % BitVec.ofNat 64 mphf.numBuckets
  let offset := bucketId * 4
  let displacement32 := BitVec.ofNat 32 (loadLe byte (displacementsPtr + offset) 4)
  let displacement := displacement32.setWidth 64
  let sum := hashValue + displacement
  (sum % BitVec.ofNat 64 mphf.totalKeys).setWidth 32

/-- The bytes of an argument. -/
def bytesAt (byte : ByteAt) (start : BitVec 64) (len : Nat) : List UInt8 :=
  (List.range len).map fun index => byte (start + BitVec.ofNat 64 index)

/-! ## What is computed -/

/-- One round of the loop is one round of the fold. -/
theorem fxhash_concat (data : List UInt8) (last : UInt8) :
    fxhash (data ++ [last]) = (fxhash data ^^^ last.toUInt64) * 0x100000001b3 := by
  rw [fxhash, List.foldl_concat]
  rfl

theorem fxhashLoop_eq (byte : ByteAt) (dataPtr dataLen : BitVec 64) (count left : Nat)
    (isLen : count + left = dataLen.toNat) :
    fxhashLoop byte dataPtr dataLen (fxhash (bytesAt byte dataPtr count)).toBitVec
        (BitVec.ofNat 64 count) =
      (fxhash (bytesAt byte dataPtr dataLen.toNat)).toBitVec := by
  have below := dataLen.isLt
  have isCount : (BitVec.ofNat 64 count).toNat = count := by
    rw [BitVec.toNat_ofNat]
    exact Nat.mod_eq_of_lt (by omega)
  induction left generalizing count with
  | zero =>
      have ended : ¬ BitVec.ofNat 64 count < dataLen := by
        rw [BitVec.lt_def, isCount]
        omega
      rw [fxhashLoop, if_neg ended, ← isLen, Nat.add_zero]
  | succ left induction =>
      have inBounds : BitVec.ofNat 64 count < dataLen := by
        rw [BitVec.lt_def, isCount]
        omega
      have next : BitVec.ofNat 64 count + 1 = BitVec.ofNat 64 (count + 1) := (BitVec.ofNat_add _ _).symm
      have round : ((fxhash (bytesAt byte dataPtr count)).toBitVec ^^^
          (byte (dataPtr + BitVec.ofNat 64 count)).toBitVec.setWidth 64) * 0x100000001b3 =
          (fxhash (bytesAt byte dataPtr (count + 1))).toBitVec := by
        rw [bytesAt, bytesAt, List.range_succ, List.map_append, List.map_singleton, fxhash_concat]
        rfl
      rw [fxhashLoop, if_pos inBounds, next]
      dsimp only
      rw [round]
      apply induction (count + 1) (by omega)
      rw [BitVec.toNat_ofNat]
      exact Nat.mod_eq_of_lt (by omega)

/-- The emitted loop hashes as `fxhash` does. -/
theorem emitFxhash_eq (byte : ByteAt) (dataPtr dataLen : BitVec 64) :
    emitFxhash byte dataPtr dataLen = (fxhash (bytesAt byte dataPtr dataLen.toNat)).toBitVec :=
  fxhashLoop_eq byte dataPtr dataLen 0 dataLen.toNat (Nat.zero_add _)

/-- The emitted lookup reads the table as `Mphf::lookup` does. -/
theorem emitMphfLookup_eq {byte : ByteAt} {mphf : Mphf} {displacementsPtr : BitVec 64}
    (someBuckets : 0 < mphf.numBuckets) (bucketsFit : mphf.numBuckets < 2 ^ 64)
    (keysFit : mphf.totalKeys < 2 ^ 64)
    (stored : Holds byte displacementsPtr mphf.displacementBytes) (key : UInt64) :
    emitMphfLookup byte mphf (emitHashFunction key.toBitVec mphf.seed) displacementsPtr =
      (mphf.lookup key).toBitVec := by
  have isBucket : (emitHashFunction key.toBitVec mphf.seed % BitVec.ofNat 64 mphf.numBuckets).toNat =
      bucketId mphf.seed mphf.numBuckets key := by
    rw [BitVec.toNat_umod, BitVec.toNat_ofNat, Nat.mod_eq_of_lt bucketsFit]
    rfl
  have inTable : bucketId mphf.seed mphf.numBuckets key < mphf.numBuckets := Nat.mod_lt _ someBuckets
  have entry : ((List.range mphf.numBuckets).map fun id => (mphf.displacements id).toNat)[
      bucketId mphf.seed mphf.numBuckets key]? =
      some (mphf.displacements (bucketId mphf.seed mphf.numBuckets key)).toNat := by
    rw [List.getElem?_map, List.getElem?_range inTable]
    rfl
  have offset : (emitHashFunction key.toBitVec mphf.seed % BitVec.ofNat 64 mphf.numBuckets) * 4 =
      BitVec.ofNat 64 (bucketId mphf.seed mphf.numBuckets key * 4) := by
    apply BitVec.eq_of_toNat_eq
    rw [BitVec.toNat_mul, isBucket, BitVec.toNat_ofNat]
    rfl
  have loaded := stored.table_entry entry
  have small := (mphf.displacements (bucketId mphf.seed mphf.numBuckets key)).toNat_lt
  apply BitVec.eq_of_toNat_eq
  unfold emitMphfLookup
  dsimp only
  rw [offset, loaded, BitVec.toNat_setWidth, BitVec.toNat_umod, BitVec.toNat_add,
    BitVec.toNat_setWidth, BitVec.toNat_ofNat, BitVec.toNat_ofNat, Nat.mod_eq_of_lt keysFit]
  change _ = UInt32.toNat (UInt32.ofNat _)
  rw [UInt32.toNat_ofNat', UInt64.toNat_add]
  congr 4
  rw [UInt64.toNat_ofNat']
  omega

end LakeNative.Compiler

import Mathlib.Algebra.Group.Nat.Defs
import Mathlib.Data.List.Sort
import Mathlib.Data.List.Range
import LakeNative.Library.PerfectHash

/-! # Minimal perfect hashing of literals

The compiler sends the FNV hashes of the string literals of a dispatch to the
indices below their number, by buckets and displacements that it searches for.
-/

namespace LakeNative.Compiler

open LakeNative.PerfectHash

def fxhash (data : List UInt8) : UInt64 :=
  data.foldl (fun hash byte => (hash ^^^ byte.toUInt64) * 0x100000001b3) 0xcbf29ce484222325

/-- `hash` of the builder and of `Mphf`. -/
def mphfHash (key seed : UInt64) : UInt64 :=
  let hash := key + seed
  let hash := hash ^^^ (hash >>> 33)
  let hash := hash * 0xff51afd7ed558ccd
  let hash := hash ^^^ (hash >>> 33)
  let hash := hash * 0xc4ceb9fe1a85ec53
  hash ^^^ (hash >>> 33)

structure Mphf where
  seed : UInt64
  displacements : Nat → UInt32
  totalKeys : Nat
  numBuckets : Nat

def bucketId (seed : UInt64) (numBuckets : Nat) (key : UInt64) : Nat :=
  (mphfHash key seed).toNat % numBuckets

def slotIndex (seed : UInt64) (totalKeys : Nat) (key : UInt64) (displacement : Nat) : UInt32 :=
  UInt32.ofNat ((mphfHash key seed + UInt64.ofNat displacement).toNat % totalKeys)

def Mphf.lookup (mphf : Mphf) (key : UInt64) : UInt32 :=
  slotIndex mphf.seed mphf.totalKeys key
    (mphf.displacements (bucketId mphf.seed mphf.numBuckets key)).toNat

namespace MphfBuilder

def buckets (keys : List UInt64) (seed : UInt64) (numBuckets : Nat) (id : Nat) : List UInt64 :=
  keys.filter fun key => bucketId seed numBuckets key = id

/-- The buckets by size, the largest first. -/
def bucketOrder (keys : List UInt64) (seed : UInt64) (numBuckets : Nat) : List Nat :=
  (List.range numBuckets).insertionSort fun id other =>
    (buckets keys seed numBuckets other).length ≤ (buckets keys seed numBuckets id).length

def tryBuild (keys : List UInt64) (seed : UInt64) (numBuckets : Nat) : Option Mphf :=
  match placeBuckets (slotIndex seed keys.length) (keys.length * 500)
      (buckets keys seed numBuckets) .start (bucketOrder keys seed numBuckets) with
  | none => none
  | some placement => some {
      seed := seed
      displacements := fun id => UInt32.ofNat (placement.displacements id)
      totalKeys := keys.length
      numBuckets := numBuckets }

def trySeeds (keys : List UInt64) (seeds numBuckets : Nat) : Option Mphf :=
  (List.range seeds).findSome? fun seed => tryBuild keys (UInt64.ofNat seed) numBuckets

/-- The builder panics where no seed of the four strategies works. -/
def build (keys : List UInt64) : Option Mphf :=
  let n := keys.length
  if keys.isEmpty then
    some ⟨0, fun _ => 0, 0, 0⟩
  else
    ((trySeeds keys 3000 (max (n / 4) 1)).or (trySeeds keys 3000 (max (n / 3) 1))).or
      ((trySeeds keys 5000 (max (n / 2) 1)).or (trySeeds keys 10000 n))

theorem placed_tryBuild {keys : List UInt64} {seed : UInt64} {numBuckets : Nat}
    {placement : Placement UInt32}
    (isPlaced : placeBuckets (slotIndex seed keys.length) (keys.length * 500)
      (buckets keys seed numBuckets) .start (bucketOrder keys seed numBuckets) = some placement) :
    Placed (slotIndex seed keys.length) (keys.length * 500) (buckets keys seed numBuckets)
      ((bucketOrder keys seed numBuckets).reverse ++ []) placement := by
  refine placed_placeBuckets placed_start ?_ isPlaced
  rw [List.append_nil]
  exact (List.perm_insertionSort _ _).nodup_iff.mpr List.nodup_range

theorem mem_bucketOrder {keys : List UInt64} {seed : UInt64} {numBuckets : Nat}
    (nonempty : 0 < numBuckets) (key : UInt64) :
    bucketId seed numBuckets key ∈ (bucketOrder keys seed numBuckets).reverse ++ [] := by
  rw [List.append_nil, List.mem_reverse, bucketOrder, (List.perm_insertionSort _ _).mem_iff,
    List.mem_range]
  exact Nat.mod_lt _ nonempty

/-- Keys that a hash is found for are distinct. -/
theorem tryBuild_nodup {keys : List UInt64} {seed : UInt64} {numBuckets : Nat} {mphf : Mphf}
    (nonempty : 0 < numBuckets) (built : tryBuild keys seed numBuckets = some mphf) :
    keys.Nodup ∧ (keys.length * 500 ≤ 2 ^ 32 → (keys.map mphf.lookup).Nodup) := by
  rw [tryBuild] at built
  split at built
  · cases built
  · rename_i placement isPlaced
    cases built
    have sound := placed_tryBuild isPlaced
    rcases sound.nodup fun key _ => mem_bucketOrder nonempty key with ⟨distinct, apart⟩
    refine ⟨distinct, fun fits => ?_⟩
    convert apart using 3
    rename_i key
    rw [Mphf.lookup]
    have small : placement.displacements (bucketId seed numBuckets key) < 2 ^ 32 := by
      rcases sound.bounded (bucketId seed numBuckets key) with isZero | below
      · omega
      · omega
    rw [UInt32.toNat_ofNat_of_lt' small]

theorem build_of_tryBuild {keys : List UInt64} {mphf : Mphf} (nonempty : keys ≠ [])
    (built : build keys = some mphf) :
    ∃ seed numBuckets, 0 < numBuckets ∧ numBuckets ≤ keys.length ∧
      tryBuild keys seed numBuckets = some mphf := by
  have found : ∀ {seeds numBuckets}, trySeeds keys seeds numBuckets = some mphf →
      ∃ seed, tryBuild keys seed numBuckets = some mphf := by
    intro seeds numBuckets isBuilt
    rcases List.exists_of_findSome?_eq_some isBuilt with ⟨seed, -, isBuilt⟩
    exact ⟨_, isBuilt⟩
  have some : 0 < keys.length := List.length_pos_of_ne_nil nonempty
  rw [build, if_neg (by simpa using nonempty)] at built
  simp only [Option.or_eq_some_iff] at built
  rcases built with (isBuilt | ⟨-, isBuilt⟩) | ⟨-, isBuilt | ⟨-, isBuilt⟩⟩ <;>
    rcases found isBuilt with ⟨seed, isBuilt⟩ <;>
    exact ⟨seed, _, by omega, by omega, isBuilt⟩

theorem build_nodup {keys : List UInt64} {mphf : Mphf} (built : build keys = some mphf) :
    keys.Nodup := by
  by_cases nonempty : keys = []
  · rw [nonempty]
    exact List.nodup_nil
  · rcases build_of_tryBuild nonempty built with ⟨seed, numBuckets, buckets, -, isBuilt⟩
    exact (tryBuild_nodup buckets isBuilt).1

/-- A perfect hash that was built is perfect, as long as no displacement is cut to 32 bits. -/
theorem build_perfect {keys : List UInt64} {mphf : Mphf} (fits : keys.length * 500 ≤ 2 ^ 32)
    (built : build keys = some mphf) : (keys.map mphf.lookup).Nodup := by
  by_cases nonempty : keys = []
  · rw [nonempty]
    exact List.nodup_nil
  · rcases build_of_tryBuild nonempty built with ⟨seed, numBuckets, buckets, -, isBuilt⟩
    exact (tryBuild_nodup buckets isBuilt).2 fits

end MphfBuilder

end LakeNative.Compiler

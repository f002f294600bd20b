import Mathlib.Data.Set.Function
import Mathlib.Order.Interval.Set.Defs
import LakeNative.Compiler.MphfCode

/-! # The perfect hash and its three lookups

The builder, `Mphf::lookup` and the emitted code agree on every key, and the keys that a
hash was built for fill the indices below their number.
-/

namespace LakeNative.Dispatch

open LakeNative.Compiler LakeNative.PerfectHash LakeNative.ByteTables

variable {keys : List UInt64} {mphf : Mphf}

/-! ## Lookups of a hash that was built -/

/-- What the builder found, with the displacements that it then cuts to 32 bits. -/
theorem placement_of_tryBuild {seed : UInt64} {numBuckets : Nat}
    (built : MphfBuilder.tryBuild keys seed numBuckets = some mphf) :
    ∃ placement, placeBuckets (slotIndex seed keys.length) (keys.length * 500)
        (MphfBuilder.buckets keys seed numBuckets) .start
        (MphfBuilder.bucketOrder keys seed numBuckets) = some placement ∧
      mphf = ⟨seed, fun id => UInt32.ofNat (placement.displacements id), keys.length, numBuckets⟩ := by
  rw [MphfBuilder.tryBuild] at built
  split at built
  · cases built
  · rename_i placement isPlaced
    exact ⟨placement, isPlaced, (Option.some.inj built).symm⟩

theorem lookup_lt (fits : mphf.totalKeys < 2 ^ 32) (positive : 0 < mphf.totalKeys) (key : UInt64) :
    (mphf.lookup key).toNat < mphf.totalKeys := by
  have inRange := Nat.mod_lt (mphfHash key mphf.seed + UInt64.ofNat (mphf.displacements
    (bucketId mphf.seed mphf.numBuckets key)).toNat).toNat positive
  rw [Mphf.lookup, slotIndex, UInt32.toNat_ofNat_of_lt' (Nat.lt_trans inRange fits)]
  exact inRange

/-- As many distinct numbers below a bound as there are numbers are all of them. -/
theorem mem_of_nodup_of_lt {numbers : List Nat} (distinct : numbers.Nodup)
    (below : ∀ number ∈ numbers, number < numbers.length) {number : Nat}
    (inRange : number < numbers.length) : number ∈ numbers := by
  have sub : numbers ⊆ List.range numbers.length := fun other member =>
    List.mem_range.mpr (below other member)
  have perm : numbers.Perm (List.range numbers.length) :=
    (List.subperm_of_subset distinct sub).perm_of_length_le (by rw [List.length_range])
  exact perm.mem_iff.mpr (List.mem_range.mpr inRange)

/-- A displacement that fits 32 bits is the one that is looked up. -/
theorem slotIndex_displacement {seed : UInt64} {numBuckets : Nat} {placement : Placement UInt32}
    (bounded : keys.length * 500 < 2 ^ 32)
    (isPlaced : placeBuckets (slotIndex seed keys.length) (keys.length * 500)
      (MphfBuilder.buckets keys seed numBuckets) .start
      (MphfBuilder.bucketOrder keys seed numBuckets) = some placement) (key : UInt64) :
    slotIndex seed keys.length key (placement.displacements (bucketId seed numBuckets key)) =
      Mphf.lookup ⟨seed, fun id => UInt32.ofNat (placement.displacements id), keys.length,
        numBuckets⟩ key := by
  have small : placement.displacements (bucketId seed numBuckets key) < 2 ^ 32 := by
    rcases (MphfBuilder.placed_tryBuild isPlaced).bounded (bucketId seed numBuckets key) with
      isZero | below
    · omega
    · omega
  rw [Mphf.lookup, UInt32.toNat_ofNat_of_lt' small]

/-- A hash that `try_build` returns sends its keys to exactly the indices below their number.
On every key the builder's index, that of `lookup` and that of the emitted code are the same,
and the emitted loop over bytes is `fxhash`. -/
theorem perfect_hash_agrees {seed : UInt64} {numBuckets : Nat} (nonempty : keys ≠ [])
    (bounded : keys.length * 500 < 2 ^ 32) (someBuckets : 0 < numBuckets)
    (tableFits : numBuckets * 4 < 2 ^ 64)
    (built : MphfBuilder.tryBuild keys seed numBuckets = some mphf) :
    keys.Nodup ∧
    Set.BijOn (fun key => (mphf.lookup key).toNat) {key | key ∈ keys} (Set.Iio keys.length) ∧
    (∃ placement, placeBuckets (slotIndex seed keys.length) (keys.length * 500)
        (MphfBuilder.buckets keys seed numBuckets) .start
        (MphfBuilder.bucketOrder keys seed numBuckets) = some placement ∧
      ∀ key, slotIndex seed keys.length key (placement.displacements (bucketId seed numBuckets key)) =
        mphf.lookup key) ∧
    (∀ byte displacementsPtr, Holds byte displacementsPtr mphf.displacementBytes → ∀ key : UInt64,
      emitMphfLookup byte mphf (emitHashFunction key.toBitVec mphf.seed) displacementsPtr =
        (mphf.lookup key).toBitVec) ∧
    ∀ byte dataPtr dataLen, emitFxhash byte dataPtr dataLen =
      (fxhash (bytesAt byte dataPtr dataLen.toNat)).toBitVec := by
  rcases placement_of_tryBuild built with ⟨placement, isPlaced, isMphf⟩
  rcases MphfBuilder.tryBuild_nodup someBuckets built with ⟨distinct, apart⟩
  have positive : 0 < keys.length := List.length_pos_of_ne_nil nonempty
  have isTotal : mphf.totalKeys = keys.length := by rw [isMphf]
  have isBuckets : mphf.numBuckets = numBuckets := by rw [isMphf]
  have inRange : ∀ key, (mphf.lookup key).toNat < keys.length := by
    intro key
    rw [← isTotal]
    exact lookup_lt (by omega) (by omega) key
  have injective : Set.InjOn (fun key => (mphf.lookup key).toNat) {key | key ∈ keys} := by
    intro key member other otherMember same
    exact List.inj_on_of_nodup_map (apart (by omega)) member otherMember (UInt32.toNat_inj.mp same)
  refine ⟨distinct, ⟨fun key _ => inRange key, injective, ?_⟩, ⟨placement, isPlaced, ?_⟩, ?_,
    emitFxhash_eq⟩
  · intro index below
    have indices : (keys.map fun key => (mphf.lookup key).toNat).Nodup :=
      distinct.map_on fun key member other otherMember same => injective member otherMember same
    have found : index ∈ keys.map fun key => (mphf.lookup key).toNat := by
      apply mem_of_nodup_of_lt indices
      · intro number member
        rcases List.mem_map.mp member with ⟨key, -, rfl⟩
        rw [List.length_map]
        exact inRange key
      · rw [List.length_map]
        exact below
    rcases List.mem_map.mp found with ⟨key, member, isIndex⟩
    exact ⟨key, member, isIndex⟩
  · intro key
    rw [isMphf]
    exact slotIndex_displacement bounded isPlaced key
  · intro byte displacementsPtr stored key
    exact emitMphfLookup_eq (by omega) (by omega) (by omega) stored key

/-- Two keys that a hash with one bucket sends to 0 and 1. -/
theorem perfect_hash_pair : ∃ mphf, MphfBuilder.tryBuild [0, 2] 0 1 = some mphf ∧
    Set.BijOn (fun key => (mphf.lookup key).toNat) {key | key ∈ [0, 2]} (Set.Iio 2) := by
  have succeeds : (MphfBuilder.tryBuild [0, 2] 0 1).isSome = true := by decide +kernel
  rcases Option.isSome_iff_exists.mp succeeds with ⟨mphf, built⟩
  exact ⟨mphf, built,
    (perfect_hash_agrees (by decide) (by decide) (by decide) (by decide) built).2.1⟩

/-! ## Sums that do not wrap -/

/-- `Mphf::lookup` in a build with overflow checks: no result where the addition panics. -/
def checkedLookup (mphf : Mphf) (key : UInt64) : Option UInt32 :=
  let displacement := (mphf.displacements (bucketId mphf.seed mphf.numBuckets key)).toNat
  if (mphfHash key mphf.seed).toNat + displacement < 2 ^ 64 then some (mphf.lookup key) else none

theorem checkedLookup_iff {key : UInt64} : checkedLookup mphf key = some (mphf.lookup key) ↔
    (mphfHash key mphf.seed).toNat +
      (mphf.displacements (bucketId mphf.seed mphf.numBuckets key)).toNat < 2 ^ 64 := by
  rw [checkedLookup]
  split
  · exact iff_of_true rfl ‹_›
  · exact iff_of_false nofun ‹_›

/-- For no seed that the builder has is a key's hash as close to 2⁶⁴ as its displacements reach. -/
def ClearOfTop (keys : List UInt64) : Prop :=
  ∀ seed < 10000, ∀ key ∈ keys,
    (mphfHash key (UInt64.ofNat seed)).toNat + keys.length * 500 ≤ 2 ^ 64

/-- With one displacement for all keys, which the builder may find, they have slots of their own. -/
def Separable (keys : List UInt64) (seed : Nat) : Prop :=
  ∃ displacement < keys.length * 500,
    (keys.map fun key => slotIndex (UInt64.ofNat seed) keys.length key displacement).Nodup

/-- All keys' hashes leave different remainders. -/
def Apart (keys : List UInt64) (seed : Nat) : Prop :=
  (keys.map fun key => (mphfHash key (UInt64.ofNat seed)).toNat % keys.length).Nodup

instance (keys : List UInt64) (seed : Nat) : Decidable (Separable keys seed) :=
  inferInstanceAs (Decidable (∃ _, _ ∧ _))

instance (keys : List UInt64) (seed : Nat) : Decidable (Apart keys seed) :=
  inferInstanceAs (Decidable (List.Nodup _))

/-- The displacements that are found are small, and so are their low 32 bits. -/
theorem displacement_le {seed : UInt64} {numBuckets : Nat} (nonempty : keys ≠ [])
    (built : MphfBuilder.tryBuild keys seed numBuckets = some mphf) (id : Nat) :
    (mphf.displacements id).toNat < keys.length * 500 := by
  rcases placement_of_tryBuild built with ⟨placement, isPlaced, rfl⟩
  have positive : 0 < keys.length := List.length_pos_of_ne_nil nonempty
  have cut : (UInt32.ofNat (placement.displacements id)).toNat ≤ placement.displacements id :=
    (Nat.le_of_eq UInt32.toNat_ofNat').trans (Nat.mod_le _ _)
  apply Nat.lt_of_le_of_lt cut
  rcases (MphfBuilder.placed_tryBuild isPlaced).bounded id with isZero | below
  · rw [isZero]
    omega
  · exact below

/-- The seed that is found is one of those that the builder has. -/
theorem seed_of_build (nonempty : keys ≠ []) (built : MphfBuilder.build keys = some mphf) :
    ∃ seed < 10000, ∃ numBuckets,
      MphfBuilder.tryBuild keys (UInt64.ofNat seed) numBuckets = some mphf := by
  have found : ∀ {seeds numBuckets}, seeds ≤ 10000 →
      MphfBuilder.trySeeds keys seeds numBuckets = some mphf →
      ∃ seed < 10000, ∃ numBuckets,
        MphfBuilder.tryBuild keys (UInt64.ofNat seed) numBuckets = some mphf := by
    intro seeds numBuckets few isBuilt
    rcases List.exists_of_findSome?_eq_some isBuilt with ⟨seed, member, isBuilt⟩
    exact ⟨seed, Nat.lt_of_lt_of_le (List.mem_range.mp member) few, numBuckets, isBuilt⟩
  rw [MphfBuilder.build, if_neg (by simpa using nonempty)] at built
  simp only [Option.or_eq_some_iff] at built
  rcases built with (isBuilt | ⟨-, isBuilt⟩) | ⟨-, isBuilt | ⟨-, isBuilt⟩⟩ <;>
    exact found (by decide) isBuilt

/-! ### One bucket -/

/-- All keys in the only bucket. -/
theorem buckets_one (keys : List UInt64) (seed : UInt64) : MphfBuilder.buckets keys seed 1 0 = keys := by
  rw [MphfBuilder.buckets, List.filter_eq_self]
  intro key _
  exact decide_eq_true (Nat.mod_one _)

/-- With one bucket the builder looks for one displacement of all keys. -/
theorem tryBuild_one (nonempty : keys ≠ []) (seed : UInt64) :
    MphfBuilder.tryBuild keys seed 1 =
      ((List.range (keys.length * 500)).find? fun displacement =>
        (keys.map fun key => slotIndex seed keys.length key displacement).Nodup).map fun displacement =>
          ⟨seed, fun id => UInt32.ofNat (Function.update (fun _ => 0) 0 displacement id), keys.length, 1⟩ := by
  have order : MphfBuilder.bucketOrder keys seed 1 = [0] := rfl
  have unused : ∀ displacement,
      Fits (slotIndex seed keys.length) (Placement.start : Placement UInt32).used keys displacement ↔
        (keys.map fun key => slotIndex seed keys.length key displacement).Nodup := by
    intro displacement
    exact and_iff_left fun _ _ => List.not_mem_nil
  have isFull : ¬keys.isEmpty = true := by simpa using nonempty
  rw [MphfBuilder.tryBuild, order, placeBuckets, placeBucket, buckets_one, if_neg isFull]
  simp only [unused]
  cases (List.range (keys.length * 500)).find? fun displacement =>
    decide (keys.map fun key => slotIndex seed keys.length key displacement).Nodup with
  | none => rfl
  | some displacement => rfl

/-- Without a carry, a displacement moves all remainders alike. -/
theorem apart_of_nodup {seed displacement : Nat}
    (fits : ∀ key ∈ keys, (mphfHash key (UInt64.ofNat seed)).toNat + displacement < 2 ^ 64)
    (nodup : (keys.map fun key =>
      slotIndex (UInt64.ofNat seed) keys.length key displacement).Nodup) : Apart keys seed := by
  have moved : (keys.map fun key => slotIndex (UInt64.ofNat seed) keys.length key displacement) =
      (keys.map fun key => (mphfHash key (UInt64.ofNat seed)).toNat % keys.length).map
        fun remainder => UInt32.ofNat ((remainder + displacement) % keys.length) := by
    rw [List.map_map]
    apply List.map_congr_left
    intro key member
    have sum := fits key member
    have isSum : (mphfHash key (UInt64.ofNat seed) + UInt64.ofNat displacement).toNat =
        (mphfHash key (UInt64.ofNat seed)).toNat + displacement := by
      have small : displacement < UInt64.size := Nat.lt_of_le_of_lt (Nat.le_add_left _ _) sum
      rw [UInt64.toNat_add, UInt64.toNat_ofNat_of_lt' small, Nat.mod_eq_of_lt sum]
    rw [slotIndex, isSum, Function.comp_apply, Nat.mod_add_mod]
  rw [moved] at nodup
  exact nodup.of_map _

theorem nodup_of_apart {seed : Nat} (short : keys.length < 2 ^ 32) (apart : Apart keys seed) :
    (keys.map fun key => slotIndex (UInt64.ofNat seed) keys.length key 0).Nodup := by
  rcases Nat.eq_zero_or_pos keys.length with isZero | positive
  · rw [List.length_eq_zero_iff.mp isZero]
    exact List.nodup_nil
  · have cut : (keys.map fun key => slotIndex (UInt64.ofNat seed) keys.length key 0) =
        (keys.map fun key => (mphfHash key (UInt64.ofNat seed)).toNat % keys.length).map UInt32.ofNat := by
      rw [List.map_map]
      apply List.map_congr_left
      intro key _
      rw [slotIndex, Function.comp_apply]
      simp
    rw [cut]
    refine List.Nodup.map_on ?_ apart
    intro remainder member other isOther same
    have below : ∀ number ∈ keys.map fun key =>
        (mphfHash key (UInt64.ofNat seed)).toNat % keys.length, number < 2 ^ 32 := by
      intro number isNumber
      rcases List.mem_map.mp isNumber with ⟨key, -, rfl⟩
      exact Nat.lt_trans (Nat.mod_lt _ positive) short
    have numbers := congrArg UInt32.toNat same
    rwa [UInt32.toNat_ofNat_of_lt' (below _ member), UInt32.toNat_ofNat_of_lt' (below _ isOther)] at numbers

theorem tryBuild_one_none (nonempty : keys ≠ []) {seed : Nat} :
    MphfBuilder.tryBuild keys (UInt64.ofNat seed) 1 = none ↔ ¬ Separable keys seed := by
  rw [tryBuild_one nonempty, Option.map_eq_none_iff, List.find?_eq_none]
  simp [Separable]

/-- The first number for which there is something. -/
theorem findSome_range {α : Type} {find : Nat → Option α} {count number : Nat} {found : α}
    (below : number < count) (isSome : find number = some found)
    (first : ∀ earlier < number, find earlier = none) : (List.range count).findSome? find = some found := by
  have split : List.range count = List.range number ++ number :: List.range' (number + 1) (count - number - 1) := by
    rw [List.range_eq_range', List.range_eq_range', ← List.range'_succ]
    have length : count = number + (count - number - 1 + 1) := by omega
    conv_lhs => rw [length]
    simpa using (@List.range'_append_1 0 number (count - number - 1 + 1)).symm
  rw [split, List.findSome?_append, List.findSome?_eq_none_iff.mpr fun earlier member =>
    first earlier (List.mem_range.mp member), Option.none_or, List.findSome?_cons_of_isSome]
  · exact isSome
  · rw [isSome]
    rfl

/-- The first seed at which one displacement separates a few keys is the one that is found. -/
theorem build_few (nonempty : keys ≠ []) (few : keys.length < 8) {seed : Nat} (tried : seed < 3000)
    (separable : Separable keys seed) (first : ∀ earlier < seed, ¬ Separable keys earlier)
    (built : MphfBuilder.build keys = some mphf) :
    MphfBuilder.tryBuild keys (UInt64.ofNat seed) 1 = some mphf := by
  have oneBucket : max (keys.length / 4) 1 = 1 := by omega
  rcases Option.ne_none_iff_exists'.mp (mt (tryBuild_one_none nonempty).mp (not_not_intro separable)) with
    ⟨found, isFound⟩
  have atSeed : MphfBuilder.trySeeds keys 3000 1 = some found :=
    findSome_range tried isFound fun earlier isEarlier =>
      (tryBuild_one_none nonempty).mpr (first earlier isEarlier)
  rw [MphfBuilder.build, if_neg (by simpa using nonempty)] at built
  rw [oneBucket, atSeed] at built
  rw [isFound]
  exact built

theorem fits_of_clear (nonempty : keys ≠ []) (built : MphfBuilder.build keys = some mphf)
    (clear : ClearOfTop keys) : ∀ key ∈ keys, checkedLookup mphf key = some (mphf.lookup key) := by
  intro key member
  rcases seed_of_build nonempty built with ⟨seed, tried, numBuckets, isBuilt⟩
  have below := displacement_le nonempty isBuilt (bucketId mphf.seed mphf.numBuckets key)
  have hash := clear seed tried key member
  have isSeed : mphf.seed = UInt64.ofNat seed := by
    rcases placement_of_tryBuild isBuilt with ⟨placement, -, rfl⟩
    rfl
  rw [← isSeed] at hash
  exact checkedLookup_iff.mpr (by omega)

/-- The displacement 0 is the first. -/
theorem fits_iff_apart (few : keys.length < 8) {seed : Nat} (nonempty : keys ≠ [])
    (built : MphfBuilder.tryBuild keys (UInt64.ofNat seed) 1 = some mphf) :
    (∀ key ∈ keys, checkedLookup mphf key = some (mphf.lookup key)) ↔ Apart keys seed := by
  rw [tryBuild_one nonempty] at built
  rcases Option.map_eq_some_iff.mp built with ⟨displacement, found, isMphf⟩
  rw [List.find?_range_eq_some] at found
  have nodup := of_decide_eq_true found.1
  have below := List.mem_range.mp found.2.1
  have small : displacement < 2 ^ 32 := by omega
  have isDisplacement : ∀ key, (UInt32.ofNat (Function.update (fun _ => 0) 0 displacement
      (bucketId (UInt64.ofNat seed) 1 key))).toNat = displacement := by
    intro key
    rw [show bucketId (UInt64.ofNat seed) 1 key = 0 from Nat.mod_one _, Function.update_self,
      UInt32.toNat_ofNat_of_lt' small]
  have fits : ∀ key, checkedLookup mphf key = some (mphf.lookup key) ↔
      (mphfHash key (UInt64.ofNat seed)).toNat + displacement < 2 ^ 64 := by
    intro key
    rw [checkedLookup_iff, ← isMphf]
    dsimp only
    rw [isDisplacement]
  simp only [fits]
  constructor
  · exact fun noCarry => apart_of_nodup noCarry nodup
  · intro apart key _
    have isZero : displacement = 0 := by
      by_contra positive
      have earlier := found.2.2 0 (Nat.pos_of_ne_zero positive)
      rw [Bool.not_eq_true', decide_eq_false_iff_not] at earlier
      exact earlier (nodup_of_apart (by omega) apart)
    rw [isZero, Nat.add_zero]
    exact (mphfHash key (UInt64.ofNat seed)).toNat_lt

end LakeNative.Dispatch

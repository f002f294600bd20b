import Mathlib.Data.List.Dedup
import Mathlib.Data.List.MinMax
import LakeNative.Compiler.StrGuardCode
import LakeNative.Dispatch.GuardReading
import LakeNative.Dispatch.PerfectHashing

/-! # Exact selection by strings

The emitted code finds a literal's branch for exactly the literal's bytes. No other bytes are
taken for it, whatever their hash or their index.
-/

namespace LakeNative.Dispatch

open LakeNative.Runtime LakeNative.Compiler LakeNative.PerfectHash LakeNative.ByteTables
  LakeNative.KeyedChoice

variable {candidates : List BranchInfo} {pos : Nat} {mphf : Mphf}

/-! ## The position -/

section Position

/-- The best position found so far is moved to the only one that has literals. -/
theorem best_of_sole {value : Nat → Nat} (sole : ∀ other, other ≠ pos → value other = 0)
    (positions : List Nat) (best : Nat × Nat) (isStart : best.2 = 0 ∨ best = (pos, value pos)) :
    (positions.foldl (fun best other =>
        if best.2 < value other then (other, value other) else best) best) = best ∨
      (positions.foldl (fun best other =>
        if best.2 < value other then (other, value other) else best) best) = (pos, value pos) := by
  induction positions generalizing best with
  | nil => exact .inl rfl
  | cons other positions induction =>
      rw [List.foldl_cons]
      split
      · rename_i better
        have isPos : other = pos := by
          by_contra different
          rw [sole other different] at better
          exact Nat.not_lt_zero _ better
        rw [isPos]
        rcases induction (pos, value pos) (.inr rfl) with same | same
        · exact .inr same
        · exact .inr same
      · exact induction best isStart

theorem foldl_best_of_sole {value : Nat → Nat} (sole : ∀ other, other ≠ pos → value other = 0)
    (positive : 0 < value pos) {positions : List Nat} (member : pos ∈ positions) (first : Nat) :
    (positions.foldl (fun best other =>
      if best.2 < value other then (other, value other) else best) (first, 0)).1 = pos := by
  rcases List.append_of_mem member with ⟨before, behind, rfl⟩
  rw [List.foldl_append, List.foldl_cons]
  have atPos : ∀ best : Nat × Nat, best.2 = 0 ∨ best = (pos, value pos) →
      (if best.2 < value pos then (pos, value pos) else best) = (pos, value pos) := by
    rintro best (isZero | isBest)
    · rw [if_pos (by omega)]
    · rw [isBest, if_neg (Nat.lt_irrefl _)]
  have reached : (if (before.foldl (fun best other =>
      if best.2 < value other then (other, value other) else best) (first, 0)).2 < value pos then
        (pos, value pos) else before.foldl (fun best other =>
      if best.2 < value other then (other, value other) else best) (first, 0)) =
        (pos, value pos) := by
    apply atPos
    rcases best_of_sole sole before (first, 0) (.inl rfl) with same | same
    · rw [same]
      exact .inl rfl
    · exact .inr same
  rw [reached]
  rcases best_of_sole sole behind (pos, value pos) (.inr rfl) with same | same
  · rw [same]
  · rw [same]

/-- Where all literals are at one position, the code compares there. -/
theorem findBestGuardPos_of_sole
    (sole : ∀ branch ∈ candidates, ∀ other, other ≠ pos → branch.guardAt other = none)
    {branch : BranchInfo} (member : branch ∈ candidates) (guarded : (branch.guardAt pos).isSome) :
    findBestGuardPos candidates = pos := by
  have noOther : ∀ other, other ≠ pos → distinctGuards candidates other = 0 := by
    intro other different
    have none : candidates.filterMap (fun branch => branch.guardAt other) = [] := by
      rw [List.filterMap_eq_nil_iff]
      exact fun branch isCandidate => sole branch isCandidate other different
    rw [distinctGuards, none]
    rfl
  have positive : 0 < distinctGuards candidates pos := by
    rcases Option.isSome_iff_exists.mp guarded with ⟨guard, atPos⟩
    have found : guard ∈ (candidates.filterMap fun branch => branch.guardAt pos).dedup :=
      List.mem_dedup.mpr (List.mem_filterMap.mpr ⟨branch, member, atPos⟩)
    exact List.length_pos_of_mem found
  have inArity : pos < (candidates.map fun branch => branch.guards.length).foldr max 0 := by
    have inBranch : pos < branch.guards.length := by
      by_contra beyond
      rw [guardAt_beyond (Nat.le_of_not_lt beyond)] at guarded
      cases guarded
    exact Nat.lt_of_lt_of_le inBranch (List.le_max_of_le' 0
      (List.mem_map_of_mem member) (Nat.le_refl _))
  exact foldl_best_of_sole noOther positive (List.mem_range.mpr inArity) _

end Position

/-! ## The tables -/

section Tables

variable {slots : Nat → Option (List UInt8 × Nat)} {count slot : Nat} {entry : List UInt8 × Nat}

/-- A literal lies in the blob at its offset. -/
theorem literalBlob_split (atSlot : slots slot = some entry) (inRange : slot < count) :
    ∃ behind, literalBlob slots count = literalBlob slots slot ++ entry.1 ++ behind := by
  refine ⟨((List.range (count - slot - 1)).map (slot + 1 + ·)).flatMap fun slot =>
    ((slots slot).map Prod.fst).getD [], ?_⟩
  have isCount : count = slot + 1 + (count - slot - 1) := by omega
  rw [literalBlob, literalBlob]
  conv_lhs => rw [isCount, List.range_add, List.flatMap_append, List.range_succ,
    List.flatMap_append, List.flatMap_singleton, atSlot]
  rfl

theorem getElem?_map_range {value : Nat → Nat} (inRange : slot < count) :
    ((List.range count).map value)[slot]? = some (value slot) := by
  rw [List.getElem?_map, List.getElem?_range inRange]
  rfl

/-- Two numbers for each index, one behind the other. -/
theorem getElem?_pairs (first second : Nat → Nat) (inRange : slot < count) :
    ((List.range count).flatMap fun slot => [first slot, second slot])[2 * slot]? =
        some (first slot) ∧
      ((List.range count).flatMap fun slot => [first slot, second slot])[2 * slot + 1]? =
        some (second slot) := by
  induction count with
  | zero => omega
  | succ count induction =>
      have length : ((List.range count).flatMap fun slot => [first slot, second slot]).length =
          2 * count := by
        rw [List.length_flatMap]
        simp [Nat.mul_comm]
      rw [List.range_succ, List.flatMap_append, List.flatMap_singleton]
      by_cases last : slot = count
      · subst last
        rw [List.getElem?_append_right (by omega), List.getElem?_append_right (by omega), length,
          Nat.sub_self, Nat.add_sub_cancel_left]
        exact ⟨rfl, rfl⟩
      · rw [List.getElem?_append_left (by omega), List.getElem?_append_left (by omega)]
        exact induction (by omega)

end Tables

section Loads

variable {byte : ByteAt} {tables : GuardTables} {slots : Nat → Option (List UInt8 × Nat)}
  {slot : Nat} {entry : List UInt8 × Nat}

/-- An entry of a table of words. -/
theorem load64_entry {addr : BitVec 64} {values : List Nat} {index value : Nat}
    (stored : Holds byte addr (table 8 values)) (atIndex : values[index]? = some value) :
    load64 byte (addr + BitVec.ofNat 64 (index * 8)) = BitVec.ofNat 64 value := by
  rw [load64, stored.table_entry atIndex]
  apply BitVec.eq_of_toNat_eq
  rw [BitVec.toNat_ofNat, BitVec.toNat_ofNat]
  exact Nat.mod_mod _ _

variable (stored : tables.Stored byte mphf slots) (inRange : slot < mphf.totalKeys)
  (atSlot : slots slot = some entry)

include stored inRange atSlot

theorem load_key : load64 byte (tables.keys + BitVec.ofNat 64 (slot * 8)) =
    (fxhash entry.1).toBitVec := by
  rw [load64_entry stored.keys (getElem?_map_range inRange), keyOf, atSlot]
  change BitVec.ofNat 64 (fxhash entry.1).toBitVec.toNat = _
  rw [BitVec.ofNat_toNat, BitVec.setWidth_eq]

theorem load_branchId : load64 byte (tables.branchIds + BitVec.ofNat 64 (slot * 8)) =
    BitVec.ofNat 64 entry.2 := by
  rw [load64_entry stored.branchIds (getElem?_map_range inRange), branchOf, atSlot]
  rfl

theorem load_literal :
    load64 byte (tables.litMeta + BitVec.ofNat 64 (slot * 16)) =
        BitVec.ofNat 64 (literalBlob slots slot).length ∧
      load64 byte (tables.litMeta + BitVec.ofNat 64 (slot * 16) + 8) =
        BitVec.ofNat 64 entry.1.length := by
  have pairs := getElem?_pairs (offsetOf slots) (lengthOf slots) inRange
  have isOffset := load64_entry stored.litMeta pairs.1
  have isLength := load64_entry stored.litMeta pairs.2
  rw [offsetOf, atSlot] at isOffset
  rw [lengthOf, atSlot] at isLength
  have firstWord : 2 * slot * 8 = slot * 16 := by omega
  have secondWord : (2 * slot + 1) * 8 = slot * 16 + 8 := by omega
  rw [firstWord] at isOffset
  rw [secondWord, BitVec.ofNat_add, ← BitVec.add_assoc] at isLength
  exact ⟨isOffset, isLength⟩

/-- The bytes of the literal of an index. -/
theorem holds_literal : Holds byte
    (tables.litBlob + BitVec.ofNat 64 (literalBlob slots slot).length) entry.1 := by
  rcases literalBlob_split atSlot inRange with ⟨behind, isBlob⟩
  have blob := stored.litBlob
  split at blob
  · rename_i isEmpty
    have noBytes : entry.1 = [] := by
      rw [List.isEmpty_iff.mp isEmpty] at isBlob
      have parts := List.append_eq_nil_iff.mp isBlob.symm
      exact (List.append_eq_nil_iff.mp parts.1).2
    rw [noBytes]
    trivial
  · rw [isBlob, List.append_assoc] at blob
    exact (holds_append.mp (holds_append.mp blob).2).1

theorem length_literal : entry.1.length < 2 ^ 64 := by
  rcases literalBlob_split atSlot inRange with ⟨behind, isBlob⟩
  have fits := stored.fits
  rw [isBlob, List.length_append, List.length_append] at fits
  omega

end Loads

/-! ## The selection -/

/-- The hashes of the literals at a position, for which the perfect hash is built. -/
def literalHashes (pos : Nat) (candidates : List BranchInfo) : List UInt64 :=
  (strBranches pos candidates).map fun entry => fxhash entry.1

/-- A perfect hash of some literals, of which the displacements fit the table's 32 bits. -/
structure Hashed (pos : Nat) (candidates : List BranchInfo) (mphf : Mphf) : Prop where
  built : MphfBuilder.build (literalHashes pos candidates) = some mphf
  nonempty : literalHashes pos candidates ≠ []
  bounded : (literalHashes pos candidates).length * 500 < 2 ^ 32

namespace Hashed

variable (hashed : Hashed pos candidates mphf)

include hashed

theorem apart : ((strBranches pos candidates).map fun entry => strIndex mphf entry.1).Nodup := by
  have perfect := MphfBuilder.build_perfect (Nat.le_of_lt hashed.bounded) hashed.built
  rw [literalHashes, List.map_map] at perfect
  have numbers := perfect.map (f := UInt32.toNat) fun _ _ => UInt32.toNat_inj.mp
  rwa [List.map_map] at numbers

/-- As many keys as there are literals, and no more buckets. -/
theorem totals : 0 < mphf.totalKeys ∧ mphf.totalKeys * 500 < 2 ^ 32 ∧ 0 < mphf.numBuckets ∧
    mphf.numBuckets ≤ mphf.totalKeys ∧ (strBranches pos candidates).length = mphf.totalKeys := by
  have bounded := hashed.bounded
  have positive := List.length_pos_of_ne_nil hashed.nonempty
  rcases MphfBuilder.build_of_tryBuild hashed.nonempty hashed.built with
    ⟨seed, numBuckets, someBuckets, fewBuckets, isBuilt⟩
  rcases placement_of_tryBuild isBuilt with ⟨placement, -, rfl⟩
  exact ⟨positive, bounded, someBuckets, fewBuckets, List.length_map _ |>.symm⟩

theorem strIndex_lt (bytes : List UInt8) : strIndex mphf bytes < mphf.totalKeys := by
  have totals := hashed.totals
  exact lookup_lt (by omega) totals.1 (fxhash bytes)

/-- Every index has a literal, that of its own hash. -/
theorem byIndex_isSome {slot : Nat} (inRange : slot < mphf.totalKeys) :
    ∃ entry ∈ strBranches pos candidates, strIndex mphf entry.1 = slot ∧
      byIndex pos candidates mphf slot = some entry := by
  have isLength : ((strBranches pos candidates).map fun entry => strIndex mphf entry.1).length =
      mphf.totalKeys := by
    rw [List.length_map]
    exact hashed.totals.2.2.2.2
  have found : slot ∈ (strBranches pos candidates).map fun entry => strIndex mphf entry.1 := by
    apply mem_of_nodup_of_lt hashed.apart
    · intro number member
      rcases List.mem_map.mp member with ⟨entry, -, rfl⟩
      rw [isLength]
      exact hashed.strIndex_lt entry.1
    · rw [isLength]
      exact inRange
  rcases List.mem_map.mp found with ⟨entry, member, isSlot⟩
  refine ⟨entry, member, isSlot, ?_⟩
  rw [← isSlot]
  exact fillTable_of_nodup hashed.apart member

end Hashed

section Code

variable {byte : ByteAt} {tables : GuardTables}

/-- The emitted index of an argument, as an offset into tables of entries of one width. -/
theorem index_offset (hashed : Hashed pos candidates mphf)
    (stored : tables.Stored byte mphf (byIndex pos candidates mphf)) (disc : BitVec 64)
    (width : Nat) :
    (emitMphfLookup byte mphf (emitHashFunction (emitFxhash byte (load64 byte disc)
        (load64 byte (disc + 8) - load64 byte disc)) mphf.seed) tables.disp).setWidth 64 *
        BitVec.ofNat 64 width =
      BitVec.ofNat 64 (strIndex mphf (argumentBytes byte disc) * width) := by
  have totals := hashed.totals
  rw [emitFxhash_eq, emitMphfLookup_eq totals.2.2.1 (by omega) (by omega) stored.disp]
  apply BitVec.eq_of_toNat_eq
  rw [BitVec.toNat_mul, BitVec.toNat_setWidth, BitVec.toNat_ofNat, BitVec.toNat_ofNat,
    Nat.mul_mod (strIndex _ _)]
  rfl

/-- Hash, length and bytes together decide whether an argument is the literal. -/
theorem compare_literal {litStart : BitVec 64} {literal : List UInt8}
    (holds : Holds byte litStart literal) (short : literal.length < 2 ^ 64)
    (start len hit miss : BitVec 64) :
    (if (fxhash literal).toBitVec = (fxhash (bytesAt byte start len.toNat)).toBitVec then
      if BitVec.ofNat 64 literal.length = len then
        if memcmpLoop byte start litStart len (BitVec.ofNat 64 0) = true then hit else miss
      else miss
    else miss) = if literal = bytesAt byte start len.toNat then hit else miss := by
  have compared := memcmpLoop_iff byte start litStart len 0 _ (Nat.zero_add _)
  have isLength : (bytesAt byte start len.toNat).length = len.toNat := by
    rw [bytesAt, List.length_map, List.length_range]
  by_cases same : literal = bytesAt byte start len.toNat
  · have sameLength : BitVec.ofNat 64 literal.length = len := by
      rw [same, isLength, BitVec.ofNat_toNat, BitVec.setWidth_eq]
    have sameBytes : ∀ i, 0 ≤ i → i < len.toNat →
        byte (start + BitVec.ofNat 64 i) = byte (litStart + BitVec.ofNat 64 i) := by
      intro i _ below
      have inBytes : literal[i]? = some (byte (start + BitVec.ofNat 64 i)) := by
        rw [same, bytesAt, List.getElem?_map, List.getElem?_range below]
        rfl
      exact (holds.getElem inBytes).symm
    have sameHash : (fxhash literal).toBitVec =
        (fxhash (bytesAt byte start len.toNat)).toBitVec := by rw [← same]
    rw [if_pos sameHash, if_pos sameLength, if_pos (compared.mpr sameBytes), if_pos same]
  · rw [if_neg same]
    split
    · split
      · rename_i sameLength
        apply if_neg
        intro isEqual
        apply same
        have lengths : literal.length = len.toNat := by
          rw [← sameLength, BitVec.toNat_ofNat, Nat.mod_eq_of_lt short]
        rw [← bytesAt_eq_iff.mpr holds, lengths]
        apply List.map_congr_left
        intro i member
        exact (compared.mp isEqual i (Nat.zero_le i) (List.mem_range.mp member)).symm
      · rfl
    · rfl

/-- The emitted code compares the literal of the argument's index with the argument. -/
theorem strGuardCode_eq (hashed : Hashed pos candidates mphf)
    (stored : tables.Stored byte mphf (byIndex pos candidates mphf)) (fallbackId : Nat)
    (disc : BitVec 64) :
    strGuardCode tables mphf fallbackId byte disc =
      BitVec.ofNat 64 (((probe (strIndex mphf) Prod.fst (strBranches pos candidates)
        (argumentBytes byte disc)).map Prod.snd).getD fallbackId) := by
  have inRange := hashed.strIndex_lt (argumentBytes byte disc)
  rcases hashed.byIndex_isSome inRange with ⟨entry, member, isSlot, atSlot⟩
  have isKey := load_key stored inRange atSlot
  have isBranch := load_branchId stored inRange atSlot
  have isLiteral := load_literal stored inRange atSlot
  have holds := holds_literal stored inRange atSlot
  have shortLiteral := length_literal stored inRange atSlot
  have isHash := emitFxhash_eq byte (load64 byte disc) (load64 byte (disc + 8) - load64 byte disc)
  have byWords := index_offset hashed stored disc 8
  have byPairs := index_offset hashed stored disc 16
  have probed : probe (strIndex mphf) Prod.fst (strBranches pos candidates)
      (argumentBytes byte disc) = if entry.1 = argumentBytes byte disc then some entry else none := by
    rw [probe]
    change (byIndex pos candidates mphf _).filter _ = _
    rw [atSlot]
    by_cases same : entry.1 = argumentBytes byte disc
    · rw [if_pos same]
      exact Option.filter_some_pos (decide_eq_true same)
    · rw [if_neg same]
      exact Option.filter_some_neg (by simpa using same)
  unfold strGuardCode
  dsimp only
  change (if load64 byte (tables.keys + _ * BitVec.ofNat 64 8) = _ then
    if load64 byte (tables.litMeta + _ * BitVec.ofNat 64 16 + 8) = _ then
      if memcmpLoop byte _ (tables.litBlob + load64 byte (tables.litMeta +
          _ * BitVec.ofNat 64 16)) _ (BitVec.ofNat 64 0) = true then
        load64 byte (tables.branchIds + _ * BitVec.ofNat 64 8) else _ else _ else _) = _
  rw [byWords, byPairs, isKey, isBranch, isLiteral.1, isLiteral.2, isHash, probed]
  have chosen := compare_literal holds shortLiteral (load64 byte disc)
    (load64 byte (disc + 8) - load64 byte disc) (BitVec.ofNat 64 entry.2)
    (BitVec.ofNat 64 fallbackId)
  apply chosen.trans
  change (if entry.1 = argumentBytes byte disc then _ else _) = _
  by_cases same : entry.1 = argumentBytes byte disc
  · rw [if_pos same, if_pos same]
    rfl
  · rw [if_neg same, if_neg same]
    rfl

end Code

/-- Where all literals are strings at one position, the emitted code selects the branch of a
literal for exactly the literal's bytes, and for all other arguments the branch without one. -/
theorem string_guards_exact {last literal : BranchInfo} {text : String}
    (sole : ∀ branch ∈ candidates, ∀ other, other ≠ pos → branch.guardAt other = none)
    (strings : ∀ branch ∈ candidates, isIntGuard (branch.guardAt pos) = false)
    (isCandidate : literal ∈ candidates) (isLiteral : literal.guardAt pos = some (.str text))
    (isFallback : fallback (strKey pos) candidates = some last)
    (ids : (candidates.map BranchInfo.branchId).Nodup)
    (idsFit : ∀ branch ∈ candidates, branch.branchId < 2 ^ 64)
    (built : MphfBuilder.build (literalHashes pos candidates) = some mphf)
    (bounded : (literalHashes pos candidates).length * 500 < 2 ^ 32) :
    findBestGuardPos candidates = pos ∧ (emitStrGuardSelect candidates).isSome ∧
    ∀ byte tables, tables.Stored byte mphf (byIndex pos candidates mphf) → ∀ disc,
      (∀ branch ∈ candidates, ∀ text, branch.guardAt pos = some (.str text) →
        (strGuardCode tables mphf (defaultId (strKey pos) candidates) byte disc =
            BitVec.ofNat 64 branch.branchId ↔ unescape text = argumentBytes byte disc)) ∧
      ((∀ branch ∈ candidates, ∀ text, branch.guardAt pos = some (.str text) →
        unescape text ≠ argumentBytes byte disc) →
        strGuardCode tables mphf (defaultId (strKey pos) candidates) byte disc =
          BitVec.ofNat 64 last.branchId) := by
  have isKey : strKey pos literal = some (unescape text) := by rw [strKey, isLiteral]
  have isEntry : (unescape text, literal.branchId) ∈ strBranches pos candidates :=
    mem_strBranches.mpr ⟨literal, isCandidate, isKey, rfl⟩
  have hashed : Hashed pos candidates mphf := {
    built := built
    nonempty := List.ne_nil_of_mem (List.mem_map_of_mem isEntry)
    bounded := bounded }
  have isPos := findBestGuardPos_of_sole sole isCandidate (isLiteral ▸ rfl)
  have isDefault : defaultId (strKey pos) candidates = last.branchId := by
    rw [defaultId, isFallback]
    rfl
  have lastMember := mem_fallback isFallback
  have sameBranch : ∀ branch ∈ candidates, ∀ other ∈ candidates,
      BitVec.ofNat 64 branch.branchId = BitVec.ofNat 64 other.branchId → branch = other := by
    intro branch member other otherMember same
    apply List.inj_on_of_nodup_map ids member otherMember
    have numbers := congrArg BitVec.toNat same
    rwa [BitVec.toNat_ofNat, BitVec.toNat_ofNat, Nat.mod_eq_of_lt (idsFit branch member),
      Nat.mod_eq_of_lt (idsFit other otherMember)] at numbers
  refine ⟨isPos, ?_, fun byte tables stored disc => ?_⟩
  · have hashes : (candidates.filterMap (strKey pos)).map fxhash = literalHashes pos candidates := by
      rw [← map_strBranches, List.map_map]
      rfl
    apply Option.isSome_iff_exists.mpr
    refine ⟨_, emitStrGuardSelect_some.mpr ⟨?_, ?_, mphf, ?_, rfl⟩⟩
    · rw [isPos]
      exact strings
    · rw [isPos]
      exact List.ne_nil_of_mem isEntry
    · rw [isPos, hashes]
      exact built
  · rw [strGuardCode_eq hashed stored, isDefault]
    constructor
    · intro branch member text atPos
      have isBranchKey : strKey pos branch = some (unescape text) := by rw [strKey, atPos]
      constructor
      · intro selected
        cases found : probe (strIndex mphf) Prod.fst (strBranches pos candidates)
          (argumentBytes byte disc) with
        | none =>
            rw [found] at selected
            have sameId := sameBranch last lastMember.1 branch member selected
            rw [sameId, isBranchKey] at lastMember
            cases lastMember.2
        | some entry =>
            rw [found] at selected
            rcases probe_some found with ⟨isEntry, isBytes⟩
            rcases mem_strBranches.mp isEntry with ⟨other, otherMember, otherKey, isId⟩
            rw [Option.map_some, Option.getD_some, ← isId] at selected
            have sameId := sameBranch other otherMember branch member selected
            rw [sameId, isBranchKey] at otherKey
            rw [← isBytes]
            exact Option.some.inj otherKey
      · intro same
        rw [← same, probe_present hashed.apart member isBranchKey]
        rfl
    · intro noLiteral
      rw [probe_absent]
      · rfl
      · intro found
        rcases List.mem_filterMap.mp found with ⟨branch, member, hasKey⟩
        rw [strKey] at hasKey
        split at hasKey
        · rename_i text atPos
          exact noLiteral branch member text atPos (Option.some.inj hasKey)
        · cases hasKey

/-- `s is { "go" str -> …  t str -> … }`. -/
def goBranches : List BranchInfo := [⟨0, 1, 0, [some (.str "go")]⟩, ⟨0, 1, 1, [none]⟩]

/-- The five sections of `goBranches` one behind the other, then an argument `"go"`. -/
def goMemory : ByteAt := fun addr =>
  (leBytes 4 0 ++ leBytes 8 (fxhash [103, 111]).toNat ++ table 8 [0, 2] ++ [103, 111] ++
    leBytes 8 0 ++ table 8 [100, 102])[addr.toNat]?.getD (if addr.toNat = 100 then 103 else 111)

def goTables : GuardTables where
  disp := 0
  keys := 4
  litMeta := 12
  litBlob := 28
  branchIds := 30

def goHash : Mphf := (MphfBuilder.build (literalHashes 0 goBranches)).getD ⟨0, fun _ => 0, 0, 0⟩

/-- The argument `"go"` selects the first branch. -/
theorem string_guard_go : MphfBuilder.build (literalHashes 0 goBranches) = some goHash ∧
    strGuardCode goTables goHash 1 goMemory 38 = 0 := by
  have succeeds : (MphfBuilder.build (literalHashes 0 goBranches)).isSome = true := by
    decide +kernel
  have built : MphfBuilder.build (literalHashes 0 goBranches) = some goHash := by
    rcases Option.isSome_iff_exists.mp succeeds with ⟨mphf, built⟩
    rw [goHash, built]
    rfl
  have stored : goTables.Stored goMemory goHash (byIndex 0 goBranches goHash) := by
    constructor <;> decide +kernel
  have sole : ∀ branch ∈ goBranches, ∀ other, other ≠ 0 → branch.guardAt other = none := by
    intro branch member other different
    have oneGuard : branch.guards.length = 1 := by
      rcases List.mem_pair.mp member with rfl | rfl <;> rfl
    exact guardAt_beyond (by omega)
  have isLiteral : BranchInfo.guardAt ⟨0, 1, 0, [some (.str "go")]⟩ 0 = some (.str "go") := rfl
  have selects := string_guards_exact sole (by decide) List.mem_cons_self isLiteral rfl (by decide)
    (by decide) built (by decide)
  exact ⟨built, ((selects.2.2 goMemory goTables stored 38).1 _ List.mem_cons_self _ isLiteral).mpr
    (by decide +kernel)⟩

end LakeNative.Dispatch

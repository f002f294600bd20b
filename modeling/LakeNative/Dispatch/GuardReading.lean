import Mathlib.Data.List.Perm.Subperm
import LakeNative.Compiler.GuardSelect

/-! # What a selection reads

Arguments that meet or miss given literals, and the selections of the compiled code as
choices by key.
-/

namespace LakeNative.Dispatch

open LakeNative.Runtime LakeNative.Compiler LakeNative.PerfectHash LakeNative.KeyedChoice

/-! ## Unused words and bytes -/

theorem exists_unused_word (avoid : List Word) (room : avoid.length < 2 ^ 64) :
    ∃ word, word ∉ avoid := by
  by_contra allUsed
  have covered : (List.range (2 ^ 64)).map (BitVec.ofNat 64) ⊆ avoid :=
    fun word _ => by_contra fun unused => allUsed ⟨word, unused⟩
  have distinct : ((List.range (2 ^ 64)).map (BitVec.ofNat 64)).Nodup := by
    apply List.Nodup.map_on _ List.nodup_range
    intro first firstBelow second secondBelow same
    have numbers := congrArg BitVec.toNat same
    rwa [BitVec.toNat_ofNat, BitVec.toNat_ofNat, Nat.mod_eq_of_lt (List.mem_range.mp firstBelow),
      Nat.mod_eq_of_lt (List.mem_range.mp secondBelow)] at numbers
  have enough := (List.subperm_of_subset distinct covered).length_le
  rw [List.length_map, List.length_range] at enough
  omega

theorem exists_unused_words (avoid : List Word) (count : Nat)
    (room : avoid.length + count ≤ 2 ^ 64) :
    ∃ words : List Word, words.length = count ∧ words.Nodup ∧ ∀ word ∈ words, word ∉ avoid := by
  induction count generalizing avoid with
  | zero => exact ⟨[], rfl, List.nodup_nil, nofun⟩
  | succ count induction =>
      rcases exists_unused_word avoid (by omega) with ⟨word, unused⟩
      rcases induction (word :: avoid) (by rw [List.length_cons]; omega) with
        ⟨words, isCount, distinct, allUnused⟩
      refine ⟨word :: words, by rw [List.length_cons, isCount], ?_, ?_⟩
      · exact List.nodup_cons.mpr
          ⟨fun member => allUnused word member List.mem_cons_self, distinct⟩
      · intro other member
        rcases List.mem_cons.mp member with rfl | later
        · exact unused
        · exact fun used => allUnused other later (List.mem_cons_of_mem _ used)

theorem exists_unused_bytes (avoid : List (List UInt8)) : ∃ bytes, bytes ∉ avoid := by
  refine ⟨List.replicate (avoid.flatten.length + 1) 0, fun used => ?_⟩
  have short := (List.sublist_flatten_of_mem used).length_le
  rw [List.length_replicate] at short
  omega

/-! ## The guards of a branch -/

section Guards

variable {branch : BranchInfo} {pos : Nat} {guard : GuardValue}

theorem guardAt_beyond (beyond : branch.guards.length ≤ pos) : branch.guardAt pos = none := by
  rw [BranchInfo.guardAt, List.getElem?_eq_none beyond]
  rfl

theorem guarded_iff :
    branch.isWildcardBranch = false ↔ ∃ pos guard, branch.guardAt pos = some guard := by
  rw [BranchInfo.isWildcardBranch, ← Bool.not_eq_true, List.all_eq_true]
  constructor
  · intro guarded
    push Not at guarded
    rcases guarded with ⟨slot, member, isSome⟩
    rcases List.getElem?_of_mem member with ⟨pos, atPos⟩
    cases slot with
    | none => exact absurd rfl isSome
    | some guard => exact ⟨pos, guard, by rw [BranchInfo.guardAt, atPos]; rfl⟩
  · rintro ⟨pos, guard, atPos⟩ allNone
    rw [BranchInfo.guardAt, Option.join_eq_some_iff] at atPos
    exact absurd (allNone _ (List.mem_of_getElem? atPos)) (by simp)

theorem firstGuard_at (first : branch.firstGuard = some guard) :
    ∃ pos, branch.guardAt pos = some guard := by
  rcases List.exists_of_findSome?_eq_some first with ⟨slot, member, rfl⟩
  rcases List.getElem?_of_mem member with ⟨pos, atPos⟩
  exact ⟨pos, by rw [BranchInfo.guardAt, atPos]; rfl⟩

theorem exists_firstGuard (guarded : branch.isWildcardBranch = false) :
    ∃ guard, branch.firstGuard = some guard := by
  rcases guarded_iff.mp guarded with ⟨pos, guard, atPos⟩
  rw [BranchInfo.guardAt, Option.join_eq_some_iff] at atPos
  apply Option.isSome_iff_exists.mp
  rw [BranchInfo.firstGuard, List.findSome?_isSome_iff]
  exact ⟨_, List.mem_of_getElem? atPos, rfl⟩

/-- The only guard is the first one. -/
theorem guardAt_of_first (sole : ∀ other, other ≠ pos → branch.guardAt other = none)
    (first : branch.firstGuard = some guard) : branch.guardAt pos = some guard := by
  rcases firstGuard_at first with ⟨place, atPlace⟩
  by_cases same : place = pos
  · exact same ▸ atPlace
  · rw [sole place same] at atPlace
    cases atPlace

end Guards

/-! ## Arguments that match -/

def intOf : GuardValue → Option Word
  | .int value => some value
  | .str _ => none

def bytesOf : GuardValue → Option (List UInt8)
  | .int _ => none
  | .str text => some (unescape text)

/-- Every branch has arguments that meet all its literals. Where no integer is asked
for they can avoid given words, and where nothing is asked for be given bytes. -/
theorem exists_match (branch : BranchInfo) (short : branch.guards.length < 2 ^ 63)
    (avoid : List Word) (few : avoid.length < 2 ^ 63) (bytes : List UInt8) :
    ∃ (memory : Memory) (args : Nat → Word), branch.Matches memory args ∧
      ∀ pos, (∀ value, branch.guardAt pos ≠ some (.int value)) →
        args pos ∉ avoid ∧ (branch.guardAt pos = none → memory (args pos) = bytes) := by
  rcases exists_unused_words avoid (branch.guards.length + 1) (by omega) with
    ⟨words, isCount, distinct, unused⟩
  -- One word for every position; all positions beyond the guards share the last.
  let place : Nat → Nat := fun pos => min pos branch.guards.length
  have placeBelow : ∀ pos, place pos < words.length := by
    intro pos
    change min pos branch.guards.length < words.length
    omega
  have guardAt_place : ∀ pos, branch.guardAt (place pos) = branch.guardAt pos := by
    intro pos
    by_cases inside : pos < branch.guards.length
    · exact congrArg branch.guardAt (Nat.min_eq_left (Nat.le_of_lt inside))
    · rw [guardAt_beyond (Nat.le_of_not_lt inside)]
      exact guardAt_beyond (Nat.le_of_eq (Nat.min_eq_right (Nat.le_of_not_lt inside)).symm)
  let memory : Memory := fun word => ((branch.guardAt (words.idxOf word)).bind bytesOf).getD bytes
  let args : Nat → Word := fun pos =>
    ((branch.guardAt pos).bind intOf).getD (words.get ⟨place pos, placeBelow pos⟩)
  have reads : ∀ pos, (∀ value, branch.guardAt pos ≠ some (.int value)) →
      args pos = words.get ⟨place pos, placeBelow pos⟩ ∧
        branch.guardAt (words.idxOf (args pos)) = branch.guardAt pos := by
    intro pos noInt
    have isWord : args pos = words.get ⟨place pos, placeBelow pos⟩ := by
      change ((branch.guardAt pos).bind intOf).getD (words.get ⟨place pos, placeBelow pos⟩) = _
      cases atPos : branch.guardAt pos with
      | none => rfl
      | some guard =>
          cases guard with
          | int value => exact absurd atPos (noInt value)
          | str text => rfl
    refine ⟨isWord, ?_⟩
    rw [isWord, List.get_idxOf distinct]
    exact guardAt_place pos
  refine ⟨memory, args, ?_, ?_⟩
  · intro pos guard atPos
    cases guard with
    | int value =>
        change ((branch.guardAt pos).bind intOf).getD (words.get ⟨place pos, placeBelow pos⟩) = value
        rw [atPos]
        rfl
    | str text =>
        have noInt : ∀ value, branch.guardAt pos ≠ some (.int value) := by
          intro value isInt
          rw [atPos] at isInt
          cases isInt
        change ((branch.guardAt (words.idxOf (args pos))).bind bytesOf).getD bytes = unescape text
        rw [(reads pos noInt).2, atPos]
        rfl
  · intro pos noInt
    constructor
    · rw [(reads pos noInt).1]
      exact unused _ (List.get_mem _ _)
    · intro noGuard
      change ((branch.guardAt (words.idxOf (args pos))).bind bytesOf).getD bytes = bytes
      rw [(reads pos noInt).2, noGuard]
      rfl

/-! ## Arguments that do not match -/

/-- A literal is missed by some word other than a given one. -/
theorem exists_miss (guard : GuardValue) (word : Word) :
    ∃ (other : Word) (bytes : List UInt8), other ≠ word ∧
      ∀ memory : Memory, memory other = bytes → ¬ guard.Holds memory other := by
  cases guard with
  | int value =>
      rcases exists_unused_word [word, value] (by simp) with ⟨other, unused⟩
      rw [List.mem_cons, List.mem_singleton, not_or] at unused
      exact ⟨other, [], unused.1, fun _ _ => unused.2⟩
  | str text =>
      rcases exists_unused_word [word] (by simp) with ⟨other, unused⟩
      rcases exists_unused_bytes [unescape text] with ⟨bytes, different⟩
      refine ⟨other, bytes, fun same => unused (List.mem_singleton.mpr same), ?_⟩
      intro memory isBytes holds
      exact different (List.mem_singleton.mpr (isBytes.symm.trans holds))

/-- One word and its bytes miss a literal of every guarded branch. -/
theorem exists_no_match (candidates : List BranchInfo) (few : candidates.length < 2 ^ 63)
    (avoid : List (List UInt8)) :
    ∃ (word : Word) (bytes : List UInt8), bytes ∉ avoid ∧
      (∀ branch ∈ candidates, branch.firstGuard ≠ some (.int word)) ∧
      ∀ branch ∈ candidates, branch.isWildcardBranch = false →
        ¬ branch.Matches (fun _ => bytes) fun _ => word := by
  let firsts := candidates.filterMap BranchInfo.firstGuard
  have fewWords : (firsts.filterMap intOf).length < 2 ^ 64 :=
    calc
      (firsts.filterMap intOf).length ≤ firsts.length := List.length_filterMap_le _ _
      _ ≤ candidates.length := List.length_filterMap_le _ _
      _ < 2 ^ 64 := by omega
  rcases exists_unused_word _ fewWords with ⟨word, unusedWord⟩
  rcases exists_unused_bytes (firsts.filterMap bytesOf ++ avoid) with ⟨bytes, unusedBytes⟩
  rw [List.mem_append, not_or] at unusedBytes
  have first_mem : ∀ branch ∈ candidates, ∀ guard, branch.firstGuard = some guard →
      guard ∈ firsts := fun branch member guard first =>
    List.mem_filterMap.mpr ⟨branch, member, first⟩
  refine ⟨word, bytes, unusedBytes.2, ?_, ?_⟩
  · intro branch member first
    exact unusedWord (List.mem_filterMap.mpr ⟨_, first_mem branch member _ first, rfl⟩)
  · intro branch member guarded isMatch
    rcases exists_firstGuard guarded with ⟨guard, first⟩
    rcases firstGuard_at first with ⟨pos, atPos⟩
    have holds := isMatch pos guard atPos
    have isFirst := first_mem branch member guard first
    cases guard with
    | int value =>
        exact unusedWord (List.mem_filterMap.mpr ⟨_, isFirst, congrArg some holds.symm⟩)
    | str text =>
        exact unusedBytes.1 (List.mem_filterMap.mpr ⟨_, isFirst, congrArg some holds.symm⟩)

/-! ## Integer selections -/

theorem map_switchEntries (candidates : List BranchInfo) :
    (switchEntries candidates).map Prod.fst = (candidates.filterMap intKey).map asU128 := by
  rw [switchEntries, List.map_filterMap, List.map_filterMap]
  apply List.filterMap_congr
  intro branch _
  rw [Option.map_map]
  rfl

theorem mem_switchEntries {candidates : List BranchInfo} {entry : Nat × Nat}
    (member : entry ∈ switchEntries candidates) :
    ∃ value ∈ candidates.filterMap intKey, entry.1 = asU128 value := by
  have number : entry.1 ∈ (switchEntries candidates).map Prod.fst := List.mem_map_of_mem member
  rw [map_switchEntries] at number
  rcases List.mem_map.mp number with ⟨value, isKey, same⟩
  exact ⟨value, isKey, same.symm⟩

/-- The switch accepts exactly distinct literals that are not negative. -/
theorem switchEntries_accepted {switch : Switch} {candidates : List BranchInfo}
    {table : Word → Option Nat} (accepted : switch.emit (switchEntries candidates) = some table) :
    (candidates.filterMap intKey).Nodup ∧ ∀ value ∈ candidates.filterMap intKey, 0 ≤ value.toInt := by
  constructor
  · by_contra repeated
    rw [switch.twice] at accepted
    · cases accepted
    · rw [map_switchEntries]
      exact fun distinct => repeated (List.Nodup.of_map _ distinct)
  · intro value isKey
    by_contra negative
    rw [switch.wide] at accepted
    · cases accepted
    · have number : asU128 value ∈ (switchEntries candidates).map Prod.fst := by
        rw [map_switchEntries]
        exact List.mem_map_of_mem isKey
      rcases List.mem_map.mp number with ⟨entry, member, same⟩
      refine ⟨entry, member, ?_⟩
      rw [same]
      exact Nat.le_of_not_lt fun small => negative (asU128_lt_iff.mp small)

theorem lookup_switchEntries {candidates : List BranchInfo}
    (nonnegative : ∀ value ∈ candidates.filterMap intKey, 0 ≤ value.toInt) (disc : Word) :
    (switchEntries candidates).lookup disc.toNat =
      (candidates.find? fun branch => intKey branch = some disc).map BranchInfo.branchId := by
  induction candidates with
  | nil => rfl
  | cons branch candidates induction =>
      cases hasKey : intKey branch with
      | none =>
          rw [List.filterMap_cons_none hasKey] at nonnegative
          rw [switchEntries, List.filterMap_cons_none (by rw [hasKey]; rfl),
            List.find?_cons_of_neg (by rw [hasKey]; simp)]
          exact induction nonnegative
      | some value =>
          rw [List.filterMap_cons_some hasKey, List.forall_mem_cons] at nonnegative
          have number : asU128 value = value.toNat := by rw [asU128_eq, if_pos nonnegative.1]
          rw [switchEntries, List.filterMap_cons_some (by rw [hasKey]; rfl), List.lookup_cons,
            number]
          by_cases same : disc = value
          · subst same
            rw [beq_self_eq_true, List.find?_cons_of_pos (by simp [hasKey])]
            rfl
          · have different : (disc.toNat == value.toNat) = false :=
              beq_false_of_ne fun equal => same (BitVec.eq_of_toNat_eq equal)
            rw [different, List.find?_cons_of_neg]
            · exact induction nonnegative.2
            · rw [hasKey]
              simpa using fun equal => same (Eq.symm equal)

theorem emitIntGuardSelect_accepted {switch : Switch} {candidates : List BranchInfo}
    (nonempty : candidates ≠ []) (distinct : (candidates.filterMap intKey).Nodup)
    (nonnegative : ∀ value ∈ candidates.filterMap intKey, 0 ≤ value.toInt) :
    ∃ select, emitIntGuardSelect switch candidates = some select ∧ ∀ disc,
      (choose intKey candidates disc).map BranchInfo.branchId = some (select disc) := by
  have once : ((switchEntries candidates).map Prod.fst).Nodup := by
    rw [map_switchEntries]
    exact distinct.map fun _ _ same => asU128_injective same
  have narrow : ∀ entry ∈ switchEntries candidates, entry.1 < 2 ^ 64 := by
    intro entry member
    rcases mem_switchEntries member with ⟨value, isKey, same⟩
    rw [same]
    exact asU128_lt_iff.mpr (nonnegative value isKey)
  rcases switch.fits _ once narrow with ⟨table, accepted, enters⟩
  rw [emitIntGuardSelect, accepted]
  refine ⟨_, rfl, fun disc => ?_⟩
  change _ = some ((table disc).getD (defaultId intKey candidates))
  rw [enters, lookup_switchEntries nonnegative]
  cases found : candidates.find? fun branch => intKey branch = some disc with
  | some branch =>
      rw [choose, found]
      rfl
  | none =>
      rcases choose_isSome intKey disc nonempty with ⟨branch, chosen⟩
      have isDefault : (fallback intKey candidates).or candidates.head? = some branch := by
        rw [choose, found] at chosen
        exact chosen
      rw [choose, found, isDefault, defaultId, isDefault]
      rfl

/-! ## String selections -/

section Strings

variable {candidates : List BranchInfo} {pos : Nat} {mphf : Mphf}

theorem map_strBranches (pos : Nat) (candidates : List BranchInfo) :
    (strBranches pos candidates).map Prod.fst = candidates.filterMap (strKey pos) := by
  rw [strBranches, List.map_filterMap]
  apply List.filterMap_congr
  intro branch _
  rw [Option.map_map]
  exact Option.map_id_apply

theorem mem_strBranches {entry : List UInt8 × Nat} :
    entry ∈ strBranches pos candidates ↔
      ∃ branch ∈ candidates, strKey pos branch = some entry.1 ∧ branch.branchId = entry.2 := by
  rw [strBranches, List.mem_filterMap]
  constructor
  · rintro ⟨branch, member, isEntry⟩
    rcases Option.map_eq_some_iff.mp isEntry with ⟨bytes, hasKey, rfl⟩
    exact ⟨branch, member, hasKey, rfl⟩
  · rintro ⟨branch, member, hasKey, isId⟩
    exact ⟨branch, member, Option.map_eq_some_iff.mpr ⟨_, hasKey, Prod.ext rfl isId⟩⟩

theorem probe_absent {bytes : List UInt8} (absent : bytes ∉ candidates.filterMap (strKey pos)) :
    probe (strIndex mphf) Prod.fst (strBranches pos candidates) bytes = none := by
  rw [Option.eq_none_iff_forall_not_mem]
  intro entry found
  rcases probe_some found with ⟨member, isBytes⟩
  rw [← map_strBranches] at absent
  exact absent (isBytes ▸ List.mem_map_of_mem member)

theorem probe_present {branch : BranchInfo} {bytes : List UInt8}
    (apart : ((strBranches pos candidates).map fun entry => strIndex mphf entry.1).Nodup)
    (member : branch ∈ candidates) (hasKey : strKey pos branch = some bytes) :
    probe (strIndex mphf) Prod.fst (strBranches pos candidates) bytes =
      some (bytes, branch.branchId) := by
  have isEntry : (bytes, branch.branchId) ∈ strBranches pos candidates :=
    mem_strBranches.mpr ⟨branch, member, hasKey, rfl⟩
  have found := probe_of_nodup (strIndex mphf) Prod.fst apart isEntry
  exact found

theorem nodup_strKey
    (apart : ((strBranches pos candidates).map fun entry => strIndex mphf entry.1).Nodup) :
    (candidates.filterMap (strKey pos)).Nodup := by
  rw [← map_strBranches]
  apply List.Nodup.of_map (strIndex mphf)
  rwa [List.map_map]

theorem strSelect_choose (nonempty : candidates ≠ [])
    (apart : ((strBranches pos candidates).map fun entry => strIndex mphf entry.1).Nodup)
    (memory : Memory) (disc : Word) :
    (choose (strKey pos) candidates (memory disc)).map BranchInfo.branchId =
      some (strSelect pos candidates mphf memory disc) := by
  by_cases isKey : memory disc ∈ candidates.filterMap (strKey pos)
  · rcases List.mem_filterMap.mp isKey with ⟨branch, member, hasKey⟩
    rw [choose_of_key (nodup_strKey apart) member hasKey, strSelect,
      probe_present apart member hasKey]
    rfl
  · rcases choose_isSome (strKey pos) (memory disc) nonempty with ⟨branch, chosen⟩
    have isDefault := choose_of_absent isKey ▸ chosen
    rw [chosen, strSelect, probe_absent isKey, defaultId, isDefault]
    rfl

theorem emitStrGuardSelect_some {select : Memory → Word → Nat} :
    emitStrGuardSelect candidates = some select ↔
      (∀ branch ∈ candidates, isIntGuard (branch.guardAt (findBestGuardPos candidates)) = false) ∧
      strBranches (findBestGuardPos candidates) candidates ≠ [] ∧
      ∃ mphf, MphfBuilder.build ((candidates.filterMap
          (strKey (findBestGuardPos candidates))).map fxhash) = some mphf ∧
        select = strSelect (findBestGuardPos candidates) candidates mphf := by
  have keys : (strBranches (findBestGuardPos candidates) candidates).map
      (fun entry => fxhash entry.1) =
      (candidates.filterMap (strKey (findBestGuardPos candidates))).map fxhash := by
    rw [← map_strBranches, List.map_map]
    rfl
  rw [emitStrGuardSelect, keys]
  constructor
  · intro emitted
    split at emitted
    · cases emitted
    · rename_i noInts
      split at emitted
      · cases emitted
      · rename_i nonempty
        rcases Option.map_eq_some_iff.mp emitted with ⟨mphf, built, same⟩
        refine ⟨?_, by simpa using nonempty, mphf, built, same.symm⟩
        simpa using noInts
  · rintro ⟨noInts, nonempty, mphf, built, rfl⟩
    rw [if_neg (by simpa using noInts), if_neg (by simpa using nonempty), built]
    rfl

end Strings

/-! ## Selections stay among the candidates -/

section Selections

variable {candidates : List BranchInfo}

theorem defaultId_mem {Key : Type} (key : BranchInfo → Option Key) (nonempty : candidates ≠ []) :
    ∃ branch ∈ candidates, branch.branchId = defaultId key candidates := by
  rcases exists_default key nonempty with ⟨branch, member, isDefault⟩
  exact ⟨branch, member, by rw [defaultId, isDefault]; rfl⟩

theorem strSelect_mem (pos : Nat) (mphf : Mphf) (nonempty : candidates ≠ []) (memory : Memory)
    (disc : Word) :
    ∃ branch ∈ candidates, branch.branchId = strSelect pos candidates mphf memory disc := by
  rw [strSelect]
  cases found : probe (strIndex mphf) Prod.fst (strBranches pos candidates) (memory disc) with
  | none => exact defaultId_mem (strKey pos) nonempty
  | some entry =>
      rcases mem_strBranches.mp (probe_some found).1 with ⟨branch, member, -, isId⟩
      exact ⟨branch, member, isId⟩

theorem emitGuardSelect_mem {switch : Switch} {select : Memory → Word → Nat}
    (nonempty : candidates ≠ []) (emitted : emitGuardSelect switch candidates = some select)
    (memory : Memory) (disc : Word) :
    ∃ branch ∈ candidates, branch.branchId = select memory disc := by
  rw [emitGuardSelect] at emitted
  split at emitted
  · rcases emitStrGuardSelect_some.mp emitted with ⟨-, -, mphf, -, rfl⟩
    exact strSelect_mem _ mphf nonempty memory disc
  · rcases Option.map_eq_some_iff.mp emitted with ⟨selectInt, emittedInt, rfl⟩
    rcases Option.map_eq_some_iff.mp emittedInt with ⟨table, accepted, -⟩
    rcases switchEntries_accepted accepted with ⟨distinct, nonnegative⟩
    rcases emitIntGuardSelect_accepted nonempty distinct nonnegative with ⟨same, again, chosen⟩
    cases Option.some.inj (emittedInt.symm.trans again)
    rcases Option.map_eq_some_iff.mp (chosen disc) with ⟨branch, isChosen, isId⟩
    exact ⟨branch, choose_mem isChosen, isId⟩

/-- What runs is one of the branches with the call's hash. -/
theorem selectBranch_mem {switch : Switch} {select : Memory → (Nat → Word) → Nat}
    (selected : selectBranch switch candidates = some select) (memory : Memory)
    (args : Nat → Word) : ∃ branch ∈ candidates, branch.branchId = select memory args := by
  rcases candidates with - | ⟨first, - | ⟨second, rest⟩⟩
  · cases selected
  · cases selected
    exact ⟨first, List.mem_cons_self, rfl⟩
  · rcases Option.map_eq_some_iff.mp selected with ⟨selectWord, emitted, rfl⟩
    exact emitGuardSelect_mem (List.cons_ne_nil _ _) emitted memory _

end Selections

end LakeNative.Dispatch

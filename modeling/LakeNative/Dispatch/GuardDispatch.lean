import LakeNative.Dispatch.GuardReading

/-! # Guard dispatch

Which branch of those with equal parameter types runs. The literals of a branch are
conditions on the arguments at their positions; the compiled code looks at one
position only, so it keeps them for the branches that have no others.
-/

namespace LakeNative.Dispatch

open LakeNative.Runtime LakeNative.Compiler LakeNative.PerfectHash LakeNative.KeyedChoice

/-! ## What guards promise -/

def GuardedMatch (candidates : List BranchInfo) (memory : Memory) (args : Nat → Word) : Prop :=
  ∃ branch ∈ candidates, branch.isWildcardBranch = false ∧ branch.Matches memory args

/-- A branch whose guards all match runs; where there is none, a branch without
guards; where there is none either, no body at all. -/
structure GuardSpec (candidates : List BranchInfo) (memory : Memory) (args : Nat → Word)
    (executed : Option BranchInfo) : Prop where
  matching : GuardedMatch candidates memory args →
    ∃ branch ∈ candidates, branch.isWildcardBranch = false ∧ branch.Matches memory args ∧
      executed = some branch
  unguarded : ¬ GuardedMatch candidates memory args →
    (∃ branch ∈ candidates, branch.isWildcardBranch = true) →
    ∃ branch ∈ candidates, branch.isWildcardBranch = true ∧ executed = some branch
  noBody : ¬ GuardedMatch candidates memory args →
    (¬ ∃ branch ∈ candidates, branch.isWildcardBranch = true) → executed = none

/-- The call compiles, and whatever its arguments are, the branch that the machine's
switch enters is the one promised. -/
def ServesEvery (switch : Switch) (info : MachineInfo) (hash : UInt64) : Prop :=
  ∃ select, selectBranch switch (info.branchesForHash hash) = some select ∧
    ∀ memory args, GuardSpec (info.branchesForHash hash) memory args
      (info.byId (select memory args))

namespace GuardSpec

variable {candidates : List BranchInfo} {memory : Memory} {args : Nat → Word}

/-- A branch with guards only runs if they match. -/
theorem matches_of_guarded {branch : BranchInfo}
    (spec : GuardSpec candidates memory args (some branch))
    (guarded : branch.isWildcardBranch = false) : branch.Matches memory args := by
  by_cases isMatch : GuardedMatch candidates memory args
  · rcases spec.matching isMatch with ⟨other, -, -, otherMatches, same⟩
    cases same
    exact otherMatches
  · by_cases some : ∃ branch ∈ candidates, branch.isWildcardBranch = true
    · rcases spec.unguarded isMatch some with ⟨other, -, otherUnguarded, same⟩
      cases same
      rw [guarded] at otherUnguarded
      cases otherUnguarded
    · cases spec.noBody isMatch some

/-- Where no guards match, what runs has none. -/
theorem unguarded_of_no_match {branch : BranchInfo}
    (spec : GuardSpec candidates memory args (some branch))
    (noMatch : ¬ GuardedMatch candidates memory args) :
    branch.isWildcardBranch = true ∧ ∃ other ∈ candidates, other.isWildcardBranch = true := by
  by_cases some : ∃ branch ∈ candidates, branch.isWildcardBranch = true
  · rcases spec.unguarded noMatch some with ⟨other, -, otherUnguarded, same⟩
    cases same
    exact ⟨otherUnguarded, some⟩
  · cases spec.noBody noMatch some

end GuardSpec

/-! ## Selections by a key -/

section Reading

variable {Key : Type} (candidates : List BranchInfo) (pos : Nat)
  (key : BranchInfo → Option Key) (read : Memory → Word → Key)

/-- A selection reads a key from the argument at one position. Only branches with guards
have keys, and what other positions hold is independent of the key read. -/
structure Reading : Prop where
  guarded : ∀ branch ∈ candidates, ∀ value, key branch = some value →
    branch.isWildcardBranch = false
  decides : ∀ branch ∈ candidates, ∀ value, key branch = some value →
    (∀ other, other ≠ pos → branch.guardAt other = none) →
    ∀ memory args, branch.Matches memory args ↔ read memory (args pos) = value
  independent : ∀ branch ∈ candidates, ∀ value, key branch = some value →
    ∀ other, other ≠ pos → ∀ guard, branch.guardAt other = some guard →
    ∃ (memory : Memory) (args : Nat → Word),
      read memory (args pos) = value ∧ ¬ guard.Holds memory (args other)
  missed : ∃ (memory : Memory) (args : Nat → Word), read memory (args pos) ∉ candidates.filterMap key ∧
    ¬ GuardedMatch candidates memory args

/-- The branches with keys have no other guards, the fallback has none at all, and a
branch that neither has a key nor is unguarded only matches what a key takes. -/
structure SoundChoice : Prop where
  sole : ∀ branch ∈ candidates, (key branch).isSome →
    ∀ other, other ≠ pos → branch.guardAt other = none
  default : ∃ last, fallback key candidates = some last ∧ last.isWildcardBranch = true
  shadowed : ∀ branch ∈ candidates, key branch = none → branch.isWildcardBranch = false →
    ∀ memory args, branch.Matches memory args →
      read memory (args pos) ∈ candidates.filterMap key

variable {candidates pos key read}

/-- A call that meets no key and no guard shows the fallback. -/
theorem fallback_unguarded (reading : Reading candidates pos key read) {memory : Memory}
    {args : Nat → Word} {executed : BranchInfo}
    (spec : GuardSpec candidates memory args (some executed))
    (chosen : (fallback key candidates).or candidates.head? = some executed)
    (noMatch : ¬ GuardedMatch candidates memory args) :
    ∃ last, fallback key candidates = some last ∧ last.isWildcardBranch = true := by
  rcases spec.unguarded_of_no_match noMatch with ⟨unguarded, other, member, otherUnguarded⟩
  have noKey : key other = none := by
    rw [Option.eq_none_iff_forall_not_mem]
    intro value hasKey
    rw [reading.guarded other member value hasKey] at otherUnguarded
    cases otherUnguarded
  rcases fallback_isSome member noKey with ⟨last, isLast⟩
  rw [isLast, Option.some_or] at chosen
  exact ⟨last, isLast, Option.some.inj chosen ▸ unguarded⟩

variable [DecidableEq Key]

theorem guardSpec_of_sound (reading : Reading candidates pos key read)
    (distinct : (candidates.filterMap key).Nodup) (sound : SoundChoice candidates pos key read)
    (memory : Memory) (args : Nat → Word) :
    GuardSpec candidates memory args (choose key candidates (read memory (args pos))) := by
  rcases sound.default with ⟨last, isLast, unguarded⟩
  by_cases isKey : read memory (args pos) ∈ candidates.filterMap key
  · rcases List.mem_filterMap.mp isKey with ⟨branch, member, hasKey⟩
    have guarded := reading.guarded branch member _ hasKey
    have sole := sound.sole branch member (hasKey ▸ rfl)
    have isMatch := (reading.decides branch member _ hasKey sole memory args).mpr rfl
    have guardedMatch : GuardedMatch candidates memory args := ⟨branch, member, guarded, isMatch⟩
    rw [choose_of_key distinct member hasKey]
    exact ⟨fun _ => ⟨branch, member, guarded, isMatch, rfl⟩,
      fun noMatch => absurd guardedMatch noMatch, fun noMatch => absurd guardedMatch noMatch⟩
  · have noMatch : ¬ GuardedMatch candidates memory args := by
      rintro ⟨branch, member, guarded, isMatch⟩
      cases hasKey : key branch with
      | none => exact isKey (sound.shadowed branch member hasKey guarded memory args isMatch)
      | some value =>
          have sole := sound.sole branch member (hasKey ▸ rfl)
          have isValue := (reading.decides branch member value hasKey sole memory args).mp isMatch
          exact isKey (List.mem_filterMap.mpr ⟨branch, member, isValue ▸ hasKey⟩)
    have lastMember := (mem_fallback isLast).1
    rw [choose_of_no_key isKey isLast]
    exact ⟨fun isMatch => absurd isMatch noMatch,
      fun _ _ => ⟨last, lastMember, unguarded, rfl⟩,
      fun _ none => absurd ⟨last, lastMember, unguarded⟩ none⟩

theorem sound_of_guardSpec (reading : Reading candidates pos key read)
    (distinct : (candidates.filterMap key).Nodup) (nonempty : candidates ≠ [])
    (spec : ∀ memory args,
      GuardSpec candidates memory args (choose key candidates (read memory (args pos)))) :
    SoundChoice candidates pos key read := by
  have default : ∃ last, fallback key candidates = some last ∧ last.isWildcardBranch = true := by
    rcases reading.missed with ⟨memory, args, notKey, noMatch⟩
    rcases choose_isSome key (read memory (args pos)) nonempty with ⟨executed, chosen⟩
    have here := spec memory args
    rw [chosen] at here
    rw [choose_of_absent notKey] at chosen
    exact fallback_unguarded reading here chosen noMatch
  refine ⟨?_, default, ?_⟩
  · intro branch member isSome other different
    rcases Option.isSome_iff_exists.mp isSome with ⟨value, hasKey⟩
    rw [Option.eq_none_iff_forall_not_mem]
    intro guard atOther
    rcases reading.independent branch member value hasKey other different guard atOther with
      ⟨memory, args, isValue, misses⟩
    have here := spec memory args
    rw [isValue, choose_of_key distinct member hasKey] at here
    have isMatch := here.matches_of_guarded (reading.guarded branch member value hasKey)
    exact misses (isMatch other guard atOther)
  · intro branch member noKey guarded memory args isMatch
    by_contra notKey
    rcases default with ⟨last, isLast, unguarded⟩
    have here := spec memory args
    rw [choose_of_no_key notKey isLast] at here
    rcases here.matching ⟨branch, member, guarded, isMatch⟩ with ⟨other, -, otherGuarded, -, same⟩
    cases same
    rw [unguarded] at otherGuarded
    cases otherGuarded

/-- The body of a choice is the branch that was chosen. -/
theorem body_of_choose {body : Nat → Option BranchInfo}
    (named : ∀ branch ∈ candidates, body branch.branchId = some branch) {wanted : Key} {id : Nat}
    (chosen : (choose key candidates wanted).map BranchInfo.branchId = some id) :
    body id = choose key candidates wanted := by
  rcases Option.map_eq_some_iff.mp chosen with ⟨branch, isBranch, rfl⟩
  rw [isBranch]
  exact named branch (choose_mem isBranch)

end Reading

/-! ## Integers -/

section Integers

variable {candidates : List BranchInfo} {pos : Nat}

theorem guarded_of_intKey {branch : BranchInfo} {value : Word}
    (hasKey : intKey branch = some value) : branch.firstGuard = some (.int value) := by
  rw [intKey] at hasKey
  split at hasKey
  · rename_i first
    cases hasKey
    exact first
  · cases hasKey

theorem intReading (few : candidates.length < 2 ^ 63) :
    Reading candidates pos intKey fun _ word => word where
  guarded := by
    intro branch member value hasKey
    rcases firstGuard_at (guarded_of_intKey hasKey) with ⟨place, atPlace⟩
    exact guarded_iff.mpr ⟨place, _, atPlace⟩
  decides := by
    intro branch member value hasKey sole memory args
    have atPos := guardAt_of_first sole (guarded_of_intKey hasKey)
    constructor
    · exact fun isMatch => isMatch pos _ atPos
    · intro isValue place guard atPlace
      by_cases same : place = pos
      · subst same
        rw [atPos] at atPlace
        cases atPlace
        exact isValue
      · rw [sole place same] at atPlace
        cases atPlace
  independent := by
    intro branch member value hasKey other different guard atOther
    rcases exists_miss guard value with ⟨word, bytes, apart, misses⟩
    refine ⟨fun _ => bytes, fun place => if place = pos then value else word, if_pos rfl, ?_⟩
    change ¬ guard.Holds _ (if other = pos then value else word)
    rw [if_neg different]
    exact misses _ rfl
  missed := by
    rcases exists_no_match candidates few [] with ⟨word, bytes, -, noFirst, noMatch⟩
    refine ⟨fun _ => bytes, fun _ => word, ?_, ?_⟩
    · intro isKey
      rcases List.mem_filterMap.mp isKey with ⟨branch, member, hasKey⟩
      exact noFirst branch member (guarded_of_intKey hasKey)
    · rintro ⟨branch, member, guarded, isMatch⟩
      exact noMatch branch member guarded isMatch

/-- The integers by which branches are entered are distinct and not negative, and stand at
the position looked at with no other literal beside them; the last of the other
branches is unguarded; the rest of those cannot be reached by a match that no
integer takes. -/
structure IntDispatchable (pos : Nat) (candidates : List BranchInfo) : Prop where
  distinct : (candidates.filterMap intKey).Nodup
  nonnegative : ∀ value ∈ candidates.filterMap intKey, 0 ≤ value.toInt
  sole : ∀ branch ∈ candidates, (intKey branch).isSome →
    ∀ other, other ≠ pos → branch.guardAt other = none
  default : ∃ last, fallback intKey candidates = some last ∧ last.isWildcardBranch = true
  shadowed : ∀ branch ∈ candidates, intKey branch = none → branch.isWildcardBranch = false →
    ∃ value, branch.guardAt pos = some (.int value) ∧ value ∈ candidates.filterMap intKey

theorem IntDispatchable.sound (dispatchable : IntDispatchable pos candidates) :
    SoundChoice candidates pos intKey fun _ word => word where
  sole := dispatchable.sole
  default := dispatchable.default
  shadowed := by
    intro branch member noKey guarded memory args isMatch
    rcases dispatchable.shadowed branch member noKey guarded with ⟨value, atPos, isKey⟩
    have isValue : args pos = value := isMatch pos _ atPos
    exact isValue ▸ isKey

theorem shadowed_of_sound (few : candidates.length < 2 ^ 63)
    (short : ∀ branch ∈ candidates, branch.guards.length < 2 ^ 63)
    (sound : SoundChoice candidates pos intKey fun _ word => word) :
    ∀ branch ∈ candidates, intKey branch = none → branch.isWildcardBranch = false →
      ∃ value, branch.guardAt pos = some (.int value) ∧ value ∈ candidates.filterMap intKey := by
  intro branch member noKey guarded
  have fewKeys : (candidates.filterMap intKey).length < 2 ^ 63 :=
    Nat.lt_of_le_of_lt (List.length_filterMap_le _ _) few
  rcases exists_match branch (short branch member) _ fewKeys [] with
    ⟨memory, args, isMatch, avoids⟩
  have isKey := sound.shadowed branch member noKey guarded memory args isMatch
  by_contra unshadowed
  refine (avoids pos ?_).1 isKey
  intro value atPos
  have isValue : args pos = value := isMatch pos _ atPos
  exact unshadowed ⟨value, atPos, isValue ▸ isKey⟩

theorem int_dispatch_iff (switch : Switch) {body : Nat → Option BranchInfo}
    (named : ∀ branch ∈ candidates, body branch.branchId = some branch)
    (nonempty : candidates ≠ []) (few : candidates.length < 2 ^ 63)
    (short : ∀ branch ∈ candidates, branch.guards.length < 2 ^ 63) :
    (∃ select, emitIntGuardSelect switch candidates = some select ∧ ∀ memory args,
      GuardSpec candidates memory args (body (select (args pos)))) ↔
      IntDispatchable pos candidates := by
  constructor
  · rintro ⟨select, emitted, spec⟩
    rcases Option.map_eq_some_iff.mp emitted with ⟨table, accepted, -⟩
    rcases switchEntries_accepted accepted with ⟨distinct, nonnegative⟩
    rcases emitIntGuardSelect_accepted nonempty distinct nonnegative with ⟨same, again, chosen⟩
    cases Option.some.inj (emitted.symm.trans again)
    have sound := sound_of_guardSpec (intReading few) distinct nonempty fun memory args => by
      rw [← body_of_choose named (chosen (args pos))]
      exact spec memory args
    exact ⟨distinct, nonnegative, sound.sole, sound.default, shadowed_of_sound few short sound⟩
  · intro dispatchable
    rcases emitIntGuardSelect_accepted nonempty dispatchable.distinct dispatchable.nonnegative with
      ⟨select, emitted, chosen⟩
    refine ⟨select, emitted, fun memory args => ?_⟩
    rw [body_of_choose named (chosen (args pos))]
    exact guardSpec_of_sound (intReading few) dispatchable.distinct dispatchable.sound memory args

end Integers

/-! ## Strings -/

section Strings

variable {candidates : List BranchInfo} {pos : Nat}

theorem guardAt_of_strKey {branch : BranchInfo} {bytes : List UInt8}
    (hasKey : strKey pos branch = some bytes) :
    ∃ text, branch.guardAt pos = some (.str text) ∧ unescape text = bytes := by
  rw [strKey] at hasKey
  split at hasKey
  · rename_i text atPos
    exact ⟨text, atPos, Option.some.inj hasKey⟩
  · cases hasKey

theorem strReading (few : candidates.length < 2 ^ 63) :
    Reading candidates pos (strKey pos) fun memory word => memory word where
  guarded := by
    intro branch member bytes hasKey
    rcases guardAt_of_strKey hasKey with ⟨text, atPos, -⟩
    exact guarded_iff.mpr ⟨pos, _, atPos⟩
  decides := by
    intro branch member bytes hasKey sole memory args
    rcases guardAt_of_strKey hasKey with ⟨text, atPos, rfl⟩
    constructor
    · exact fun isMatch => isMatch pos _ atPos
    · intro isText place guard atPlace
      by_cases same : place = pos
      · subst same
        rw [atPos] at atPlace
        cases atPlace
        exact isText
      · rw [sole place same] at atPlace
        cases atPlace
  independent := by
    intro branch member value hasKey other different guard atOther
    rcases exists_miss guard 0 with ⟨word, bytes, apart, misses⟩
    refine ⟨fun place => if place = 0 then value else bytes,
      fun place => if place = pos then 0 else word, ?_, ?_⟩
    · simp
    · change ¬ guard.Holds _ (if other = pos then 0 else word)
      rw [if_neg different]
      exact misses _ (if_neg apart)
  missed := by
    rcases exists_no_match candidates few (candidates.filterMap (strKey pos)) with
      ⟨word, bytes, notKey, -, noMatch⟩
    refine ⟨fun _ => bytes, fun _ => word, notKey, ?_⟩
    rintro ⟨branch, member, guarded, isMatch⟩
    exact noMatch branch member guarded isMatch

/-- The only literal of every guarded branch is a string at the position looked at; some
branch is unguarded; and a hash was found that sends the strings to distinct
indices. -/
structure StrDispatchable (pos : Nat) (candidates : List BranchInfo) : Prop where
  sole : ∀ branch ∈ candidates, branch.isWildcardBranch = false →
    (∃ text, branch.guardAt pos = some (.str text)) ∧
      ∀ other, other ≠ pos → branch.guardAt other = none
  default : ∃ branch ∈ candidates, branch.isWildcardBranch = true
  hashed : ∃ mphf, MphfBuilder.build ((candidates.filterMap (strKey pos)).map fxhash) = some mphf ∧
    ((candidates.filterMap (strKey pos)).map (strIndex mphf)).Nodup

theorem apart_iff {mphf : Mphf} :
    ((candidates.filterMap (strKey pos)).map (strIndex mphf)).Nodup ↔
      ((strBranches pos candidates).map fun entry => strIndex mphf entry.1).Nodup := by
  rw [← map_strBranches, List.map_map]
  rfl

theorem StrDispatchable.sound (dispatchable : StrDispatchable pos candidates) :
    SoundChoice candidates pos (strKey pos) fun memory word => memory word := by
  have noKey : ∀ branch ∈ candidates, strKey pos branch = none →
      branch.isWildcardBranch = true := by
    intro branch member noKey
    by_contra guarded
    rcases (dispatchable.sole branch member (Bool.not_eq_true _ ▸ guarded)).1 with ⟨text, atPos⟩
    rw [strKey, atPos] at noKey
    cases noKey
  constructor
  · intro branch member isSome
    rcases Option.isSome_iff_exists.mp isSome with ⟨bytes, hasKey⟩
    rcases guardAt_of_strKey hasKey with ⟨text, atPos, -⟩
    exact (dispatchable.sole branch member (guarded_iff.mpr ⟨pos, _, atPos⟩)).2
  · rcases dispatchable.default with ⟨branch, member, unguarded⟩
    have isNone : strKey pos branch = none := by
      by_contra isSome
      rcases Option.ne_none_iff_exists'.mp isSome with ⟨bytes, hasKey⟩
      rcases guardAt_of_strKey hasKey with ⟨text, atPos, -⟩
      rw [guarded_iff.mpr ⟨pos, _, atPos⟩] at unguarded
      cases unguarded
    rcases fallback_isSome member isNone with ⟨last, isLast⟩
    rcases mem_fallback isLast with ⟨lastMember, lastNone⟩
    exact ⟨last, isLast, noKey last lastMember lastNone⟩
  · intro branch member isNone guarded
    rw [noKey branch member isNone] at guarded
    cases guarded

/-- A served call finds every literal's branch, so that no literal has lost its place. -/
theorem apart_of_guardSpec {mphf : Mphf} {body : Nat → Option BranchInfo}
    (named : ∀ branch ∈ candidates, body branch.branchId = some branch)
    (nonempty : candidates ≠ []) (few : candidates.length < 2 ^ 63)
    (short : ∀ branch ∈ candidates, branch.guards.length < 2 ^ 63)
    (built : MphfBuilder.build ((candidates.filterMap (strKey pos)).map fxhash) = some mphf)
    (spec : ∀ memory args, GuardSpec candidates memory args
      (body (strSelect pos candidates mphf memory (args pos)))) :
    ((strBranches pos candidates).map fun entry => strIndex mphf entry.1).Nodup := by
  rcases exists_default (strKey pos) nonempty with ⟨default, member, isDefault⟩
  -- A probe that finds nothing runs the default.
  have missing : ∀ memory (args : Nat → Word),
      probe (strIndex mphf) Prod.fst (strBranches pos candidates) (memory (args pos)) = none →
      GuardSpec candidates memory args (some default) := by
    intro memory args absent
    have here := spec memory args
    rwa [strSelect, absent, Option.map_none, Option.getD_none, defaultId, isDefault,
      Option.map_some, Option.getD_some, named default member] at here
  have unguarded : default.isWildcardBranch = true := by
    rcases (strReading few).missed with ⟨memory, args, notKey, noMatch⟩
    exact ((missing memory args (probe_absent notKey)).unguarded_of_no_match noMatch).1
  have distinctBytes : ((strBranches pos candidates).map Prod.fst).Nodup := by
    rw [map_strBranches]
    exact List.Nodup.of_map _ (MphfBuilder.build_nodup built)
  apply nodup_of_fillTable (List.Nodup.of_map _ distinctBytes)
  intro entry isEntry
  rcases mem_strBranches.mp isEntry with ⟨branch, branchMember, hasKey, -⟩
  rcases guardAt_of_strKey hasKey with ⟨text, atPos, isText⟩
  rcases exists_match branch (short branch branchMember) [] (by simp) [] with
    ⟨memory, args, isMatch, -⟩
  have isBytes : memory (args pos) = entry.1 := (isMatch pos _ atPos).trans isText
  have guarded : branch.isWildcardBranch = false := guarded_iff.mpr ⟨pos, _, atPos⟩
  cases found : probe (strIndex mphf) Prod.fst (strBranches pos candidates) entry.1 with
  | none =>
      rcases (missing memory args (isBytes ▸ found)).matching
        ⟨branch, branchMember, guarded, isMatch⟩ with ⟨other, -, otherGuarded, -, same⟩
      cases same
      rw [unguarded] at otherGuarded
      cases otherGuarded
  | some other =>
      rcases probe_some found with ⟨otherMember, sameBytes⟩
      rcases Option.filter_eq_some_iff.mp found with ⟨inTable, -⟩
      rw [List.inj_on_of_nodup_map distinctBytes otherMember isEntry sameBytes] at inTable
      exact inTable

theorem str_dispatch_iff {body : Nat → Option BranchInfo}
    (named : ∀ branch ∈ candidates, body branch.branchId = some branch)
    (nonempty : candidates ≠ []) (few : candidates.length < 2 ^ 63)
    (short : ∀ branch ∈ candidates, branch.guards.length < 2 ^ 63)
    (isPos : findBestGuardPos candidates = pos)
    (keyed : candidates.filterMap (strKey pos) ≠ []) :
    (∃ select, emitStrGuardSelect candidates = some select ∧ ∀ memory args,
      GuardSpec candidates memory args (body (select memory (args pos)))) ↔
      StrDispatchable pos candidates := by
  subst isPos
  constructor
  · rintro ⟨select, emitted, spec⟩
    rcases emitStrGuardSelect_some.mp emitted with ⟨noInts, -, mphf, built, rfl⟩
    have apart := apart_of_guardSpec named nonempty few short built spec
    have sound := sound_of_guardSpec (strReading few) (nodup_strKey apart) nonempty
      fun memory args => by
        rw [← body_of_choose named (strSelect_choose nonempty apart memory _)]
        exact spec memory args
    rcases sound.default with ⟨last, isLast, unguarded⟩
    refine ⟨?_, ⟨last, (mem_fallback isLast).1, unguarded⟩, mphf, built, apart_iff.mpr apart⟩
    intro branch member guarded
    cases hasKey : strKey (findBestGuardPos candidates) branch with
    | some bytes =>
        rcases guardAt_of_strKey hasKey with ⟨text, atPos, -⟩
        exact ⟨⟨text, atPos⟩, sound.sole branch member (hasKey ▸ rfl)⟩
    | none =>
        have noGuard : branch.guardAt (findBestGuardPos candidates) = none := by
          have noInt := noInts branch member
          rw [strKey] at hasKey
          cases atPos : branch.guardAt (findBestGuardPos candidates) with
          | none => rfl
          | some guard =>
              rw [atPos] at noInt hasKey
              cases guard with
              | int value => cases noInt
              | str text => cases hasKey
        rcases exists_unused_bytes
          (candidates.filterMap (strKey (findBestGuardPos candidates))) with ⟨bytes, unused⟩
        rcases exists_match branch (short branch member) [] (by simp) bytes with
          ⟨memory, args, isMatch, free⟩
        have isBytes := (free (findBestGuardPos candidates) (by rw [noGuard]; nofun)).2 noGuard
        have isKey := sound.shadowed branch member hasKey guarded memory args isMatch
        exact absurd (isBytes ▸ isKey) unused
  · intro dispatchable
    rcases dispatchable.hashed with ⟨mphf, built, distinct⟩
    have apart := apart_iff.mp distinct
    have noInts : ∀ branch ∈ candidates,
        isIntGuard (branch.guardAt (findBestGuardPos candidates)) = false := by
      intro branch member
      by_cases guarded : branch.isWildcardBranch = false
      · rcases (dispatchable.sole branch member guarded).1 with ⟨text, atPos⟩
        rw [atPos]
        rfl
      · cases atPos : branch.guardAt (findBestGuardPos candidates) with
        | none => rfl
        | some guard => exact absurd (guarded_iff.mpr ⟨_, guard, atPos⟩) guarded
    have some : strBranches (findBestGuardPos candidates) candidates ≠ [] := by
      intro none
      rw [← map_strBranches, none] at keyed
      exact keyed rfl
    refine ⟨_, emitStrGuardSelect_some.mpr ⟨noInts, some, mphf, built, rfl⟩, ?_⟩
    intro memory args
    rw [body_of_choose named (strSelect_choose nonempty apart memory _)]
    exact guardSpec_of_sound (strReading few) (nodup_strKey apart) dispatchable.sound memory args

end Strings

/-! ## All candidates of a call -/

/-- What the literals of the candidates have to be like for dispatch to keep them. -/
def Dispatchable (candidates : List BranchInfo) : Prop :=
  match guardKind candidates with
  | some .str => StrDispatchable (findBestGuardPos candidates) candidates
  | _ => IntDispatchable (findBestGuardPos candidates) candidates

section Candidates

variable {candidates : List BranchInfo}

theorem Dispatchable.unguarded (dispatchable : Dispatchable candidates) :
    ∃ branch ∈ candidates, branch.isWildcardBranch = true := by
  rw [Dispatchable] at dispatchable
  split at dispatchable
  · exact dispatchable.default
  · rcases dispatchable.default with ⟨last, isLast, unguarded⟩
    exact ⟨last, (mem_fallback isLast).1, unguarded⟩

theorem guardAt_of_unguarded {branch : BranchInfo} (unguarded : branch.isWildcardBranch = true)
    (pos : Nat) : branch.guardAt pos = none := by
  rw [Option.eq_none_iff_forall_not_mem]
  intro guard atPos
  rw [guarded_iff.mpr ⟨pos, guard, atPos⟩] at unguarded
  cases unguarded

/-- Branches without guards need nothing. -/
theorem dispatchable_of_unguarded (nonempty : candidates ≠ [])
    (unguarded : ∀ branch ∈ candidates, branch.isWildcardBranch = true) :
    Dispatchable candidates := by
  have noKind : guardKind candidates = none := by
    rw [guardKind, List.findSome?_eq_none_iff]
    intro branch member
    rw [guardAt_of_unguarded (unguarded branch member)]
  have noKey : ∀ branch ∈ candidates, intKey branch = none := by
    intro branch member
    by_contra isSome
    rcases Option.ne_none_iff_exists'.mp isSome with ⟨value, hasKey⟩
    rcases firstGuard_at (guarded_of_intKey hasKey) with ⟨pos, atPos⟩
    rw [guardAt_of_unguarded (unguarded branch member)] at atPos
    cases atPos
  have noKeys : candidates.filterMap intKey = [] := List.filterMap_eq_nil_iff.mpr noKey
  rw [Dispatchable, noKind]
  constructor
  · rw [noKeys]
    exact List.nodup_nil
  · rw [noKeys]
    nofun
  · intro branch member isSome
    rw [noKey branch member] at isSome
    cases isSome
  · rcases List.exists_mem_of_ne_nil candidates nonempty with ⟨branch, member⟩
    rcases fallback_isSome member (noKey branch member) with ⟨last, isLast⟩
    exact ⟨last, isLast, unguarded last (mem_fallback isLast).1⟩
  · intro branch member _ guarded
    rw [unguarded branch member] at guarded
    cases guarded

/-- A single candidate runs whatever the arguments are. -/
theorem single_dispatch_iff {only : BranchInfo} :
    (∀ memory args, GuardSpec [only] memory args (some only)) ↔ Dispatchable [only] := by
  constructor
  · intro spec
    apply dispatchable_of_unguarded (List.cons_ne_nil _ _)
    rcases exists_no_match [only] (by simp) [] with ⟨word, bytes, -, -, noMatch⟩
    intro branch member
    rw [List.mem_singleton.mp member]
    refine ((spec (fun _ => bytes) fun _ => word).unguarded_of_no_match ?_).1
    rintro ⟨other, otherMember, guarded, isMatch⟩
    exact noMatch other otherMember guarded isMatch
  · intro dispatchable memory args
    rcases dispatchable.unguarded with ⟨branch, member, unguarded⟩
    have isOnly : branch = only := List.mem_singleton.mp member
    rw [isOnly] at unguarded
    have noMatch : ¬ GuardedMatch [only] memory args := by
      rintro ⟨other, otherMember, guarded, -⟩
      rw [List.mem_singleton.mp otherMember, unguarded] at guarded
      cases guarded
    exact ⟨fun isMatch => absurd isMatch noMatch,
      fun _ _ => ⟨only, List.mem_cons_self, unguarded, rfl⟩,
      fun _ none => absurd ⟨only, List.mem_cons_self, unguarded⟩ none⟩

theorem keyed_of_guardKind (isStr : guardKind candidates = some .str) :
    candidates.filterMap (strKey (findBestGuardPos candidates)) ≠ [] := by
  rcases List.exists_of_findSome?_eq_some isStr with ⟨branch, member, isKind⟩
  split at isKind
  · cases isKind
  · rename_i text atPos
    have hasKey : strKey (findBestGuardPos candidates) branch = some (unescape text) := by
      rw [strKey, atPos]
    exact List.ne_nil_of_mem (List.mem_filterMap.mpr ⟨branch, member, hasKey⟩)
  · cases isKind

theorem many_dispatch_iff (switch : Switch) {body : Nat → Option BranchInfo}
    (named : ∀ branch ∈ candidates, body branch.branchId = some branch)
    (nonempty : candidates ≠ []) (few : candidates.length < 2 ^ 63)
    (short : ∀ branch ∈ candidates, branch.guards.length < 2 ^ 63) :
    (∃ select, emitGuardSelect switch candidates = some select ∧ ∀ memory args,
      GuardSpec candidates memory args
        (body (select memory (args (findBestGuardPos candidates))))) ↔
      Dispatchable candidates := by
  rw [Dispatchable, emitGuardSelect]
  cases isKind : guardKind candidates with
  | some kind =>
      cases kind with
      | str =>
          exact str_dispatch_iff named nonempty few short rfl (keyed_of_guardKind isKind)
      | int =>
          rw [← int_dispatch_iff switch named nonempty few short]
          simp [Option.map_eq_some_iff]
  | none =>
      rw [← int_dispatch_iff switch named nonempty few short]
      simp [Option.map_eq_some_iff]

end Candidates

/-- Every call with this hash runs what the guards promise exactly if the literals of its
candidates are dispatchable. -/
theorem guard_dispatch_iff (switch : Switch) (hasher : DefaultHasher) (machine : Machine)
    (hash : UInt64) (called : (indexMachine hasher machine).branchesForHash hash ≠ []) :
    ServesEvery switch (indexMachine hasher machine) hash ↔
      Dispatchable ((indexMachine hasher machine).branchesForHash hash) := by
  have named : ∀ branch ∈ (indexMachine hasher machine).branchesForHash hash,
      (indexMachine hasher machine).byId branch.branchId = some branch :=
    fun branch member => byId_branchesForHash member
  have few := length_branchesForHash_lt hasher machine hash
  have short : ∀ branch ∈ (indexMachine hasher machine).branchesForHash hash,
      branch.guards.length < 2 ^ 63 := fun branch member => length_guards_lt member
  rw [ServesEvery]
  generalize (indexMachine hasher machine).branchesForHash hash = candidates at *
  rcases candidates with - | ⟨first, - | ⟨second, rest⟩⟩
  · exact absurd rfl called
  · rw [← single_dispatch_iff]
    simp [selectBranch, named first List.mem_cons_self]
  · rw [← many_dispatch_iff switch named called few short]
    simp [selectBranch, Option.map_eq_some_iff]

/-- `counter is { 0 i64 -> …  n i64 -> … }`. -/
def counter : Machine where
  branches := [⟨[⟨"0", .plain "i64", .numGuard 0⟩], by decide⟩, ⟨[⟨"n", .plain "i64", .var⟩], by decide⟩]

theorem guard_dispatch_counter : ServesEvery .linear (indexMachine (fun _ => 0) counter) 0 := by
  have isList : (indexMachine (fun _ => 0) counter).branchesForHash 0 =
      [⟨0, 1, 0, [some (.int 0)]⟩, ⟨0, 1, 1, [none]⟩] := rfl
  apply (guard_dispatch_iff .linear (fun _ => 0) counter 0 (by rw [isList]; nofun)).mpr
  rw [isList]
  change IntDispatchable 0 [⟨0, 1, 0, [some (.int 0)]⟩, ⟨0, 1, 1, [none]⟩]
  constructor
  · exact List.nodup_singleton 0
  · intro value isKey
    rw [List.mem_singleton.mp isKey]
    decide
  · intro branch member isSome other different
    rcases List.mem_pair.mp member with rfl | rfl
    · exact guardAt_beyond (Nat.pos_of_ne_zero different)
    · cases isSome
  · exact ⟨_, rfl, rfl⟩
  · intro branch member noKey guarded
    rcases List.mem_pair.mp member with rfl | rfl
    · cases noKey
    · cases guarded

/-- `f is { 1 i64 -> …  2 i64 -> … }`. -/
def oneOrTwo : Machine where
  branches := [⟨[⟨"1", .plain "i64", .numGuard 1⟩], by decide⟩,
    ⟨[⟨"2", .plain "i64", .numGuard 2⟩], by decide⟩]

/-- Called with 7, it runs the branch for 1. -/
theorem unmatched_call_runs_first :
    let info := indexMachine (fun _ => 0) oneOrTwo
    ∃ select, selectBranch .linear (info.branchesForHash 0) = some select ∧
      (info.byId (select (fun _ => []) fun _ => 7)).map BranchInfo.guards = some [some (.int 1)] ∧
      ¬ GuardSpec (info.branchesForHash 0) (fun _ => []) (fun _ => 7)
        (info.byId (select (fun _ => []) fun _ => 7)) := by
  have isList : (indexMachine (fun _ => 0) oneOrTwo).branchesForHash 0 =
      [⟨0, 1, 0, [some (.int 1)]⟩, ⟨0, 1, 1, [some (.int 2)]⟩] := rfl
  refine ⟨_, rfl, rfl, fun spec => ?_⟩
  have noMatch : ¬ GuardedMatch ((indexMachine (fun _ => 0) oneOrTwo).branchesForHash 0)
      (fun _ => []) fun _ => 7 := by
    rintro ⟨branch, member, -, isMatch⟩
    rw [isList] at member
    rcases List.mem_pair.mp member with rfl | rfl
    · have holds : (7 : Word) = 1 := isMatch 0 (.int 1) rfl
      exact absurd holds (by decide)
    · have holds : (7 : Word) = 2 := isMatch 0 (.int 2) rfl
      exact absurd holds (by decide)
  have unguarded : [some (GuardValue.int 1)].all Option.isNone = true :=
    (GuardSpec.unguarded_of_no_match spec noMatch).1
  cases unguarded

end LakeNative.Dispatch

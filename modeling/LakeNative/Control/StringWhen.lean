import LakeNative.Compiler.Derivation

/-! # The arm of a string

Which arm a `when` on a string goes to. The arms are told apart by the hashes of their
texts as written, the discriminant by the hash of its bytes, and no bytes are compared.
-/

namespace LakeNative.Control

open LakeNative.Runtime LakeNative.Compiler LakeNative.PerfectHash

/-! ## The arms of a string -/

/-- A string literal as it is written, its escape sequences unresolved. -/
def literalText : Expr → Option String
  | .string text _ => some text
  | _ => none

def textAt (keys : List Expr) (arm : Nat) : Option String := keys[arm]?.bind literalText

def writtenBytes (text : String) : List UInt8 := text.toUTF8.data.toList

/-- All arms but `_` are string literals. -/
def StringArms (keys : List Expr) : Prop :=
  ∀ key ∈ keys, isWildcardArm key = false → (literalText key).isSome = true

/-- The arm of a literal with these bytes; where no literal has them, the `_` arm, and none
without a `_` arm. -/
def IsArmOf (keys : List Expr) (bytes : List UInt8) (arm : Option Nat) : Prop :=
  (∃ index text, arm = some index ∧ textAt keys index = some text ∧ unescape text = bytes) ∨
    ((∀ index text, textAt keys index = some text → unescape text ≠ bytes) ∧
      arm = (wildcardArms keys).head?)

/-- The hash of the bytes is that of a literal as written only if they are the literal's
bytes, and of some literal if they are the bytes of any. -/
structure HashesTell (keys : List Expr) (bytes : List UInt8) : Prop where
  sound : ∀ index text, textAt keys index = some text →
    fxhash (writtenBytes text) = fxhash bytes → unescape text = bytes
  found : ∀ index text, textAt keys index = some text → unescape text = bytes →
    ∃ other written, textAt keys other = some written ∧
      fxhash (writtenBytes written) = fxhash bytes

variable {keys : List Expr}

theorem isWildcardArm_of_literalText {key : Expr} {text : String}
    (isText : literalText key = some text) : isWildcardArm key = false := by
  cases key with
  | string written ty => rfl
  | _ => cases isText

/-- The `_` arm has no text. -/
theorem textAt_wildcardArm {arm : Nat} (isDefault : (wildcardArms keys).head? = some arm) :
    textAt keys arm = none := by
  rcases List.mem_map.mp (List.mem_of_mem_head? isDefault) with ⟨⟨key, index⟩, isArm, rfl⟩
  rcases List.mem_filter.mp isArm with ⟨inKeys, isWild⟩
  rw [Option.eq_none_iff_forall_not_mem]
  intro text isText
  rcases Option.bind_eq_some_iff.mp isText with ⟨same, atIndex, isLiteral⟩
  rw [List.mem_zipIdx_iff_getElem?.mp inKeys] at atIndex
  cases atIndex
  rw [isWildcardArm_of_literalText isLiteral] at isWild
  cases isWild

theorem hashLit_eq (key : Expr) :
    hashLit key = (literalText key).map fun text => fxhash (writtenBytes text) := by
  cases key <;> rfl

/-- The entries of the perfect hash: the texts' hashes with the indices of their arms. -/
theorem mem_armEntries {entries : List (UInt64 × Nat)}
    (read : armEntries hashLit keys = some entries) {hash : UInt64} {arm : Nat} :
    (hash, arm) ∈ entries ↔
      ∃ text, textAt keys arm = some text ∧ fxhash (writtenBytes text) = hash := by
  have mapped := mapM_eq_some_iff.mp read
  have isEntry : (hash, arm) ∈ entries ↔ some (hash, arm) ∈ entries.map some := by
    rw [List.mem_map_of_injective (Option.some_injective _)]
  rw [isEntry, ← mapped, List.mem_map]
  constructor
  · rintro ⟨⟨key, index⟩, member, isSome⟩
    have atIndex := List.mem_zipIdx_iff_getElem?.mp (List.mem_of_mem_filter member)
    rcases Option.map_eq_some_iff.mp isSome with ⟨value, isHash, same⟩
    cases same
    dsimp only at isHash atIndex
    rw [hashLit_eq] at isHash
    rcases Option.map_eq_some_iff.mp isHash with ⟨text, isText, rfl⟩
    refine ⟨text, ?_, rfl⟩
    rw [textAt, atIndex]
    exact isText
  · rintro ⟨text, isText, rfl⟩
    rcases Option.bind_eq_some_iff.mp isText with ⟨key, atIndex, isLiteral⟩
    refine ⟨(key, arm), List.mem_filter.mpr ⟨List.mem_zipIdx_iff_getElem?.mpr atIndex, ?_⟩, ?_⟩
    · rw [isWildcardArm_of_literalText isLiteral]
      rfl
    · rw [hashLit_eq, isLiteral]
      rfl

theorem getTy_of_stringArms (strings : StringArms keys) {typedArm : Expr}
    (first : keys.find? (fun key => !isWildcardArm key) = some typedArm) :
    getTy typedArm = some .ptr := by
  have typed : isWildcardArm typedArm = false := by simpa using List.find?_some first
  have isText := strings typedArm (List.mem_of_find?_eq_some first) typed
  cases typedArm with
  | string text ty => rfl
  | _ => cases isText

/-- The literal with the hash of the bytes is chosen, and without one the `_` arm. -/
theorem selectArm_strings {literals : Literals} {switch : Switch}
    {select : Memory → Word → Option Nat} (strings : StringArms keys)
    (selected : selectArm literals switch keys = some select) (memory : Memory) (disc : Word) :
    (∀ index text, textAt keys index = some text →
      fxhash (writtenBytes text) = fxhash (memory disc) → select memory disc = some index) ∧
    ((∀ index text, textAt keys index = some text →
      fxhash (writtenBytes text) ≠ fxhash (memory disc)) →
        select memory disc = (wildcardArms keys).head?) := by
  rcases bind_some selected with ⟨typedArm, isFirst, typed⟩
  rcases bind_some typed with ⟨kind, isKind, kinded⟩
  rw [getTy_of_stringArms strings isFirst] at isKind
  cases isKind
  rcases bind_some kinded with ⟨entries, read, hashed⟩
  rcases bind_some hashed with ⟨mphf, built, checked⟩
  dsimp only at checked
  split at checked
  · rename_i perfect
    cases checked
    constructor
    · intro index text isText sameHash
      have isEntry := (mem_armEntries read).mpr ⟨text, isText, sameHash⟩
      have found := probe_of_nodup (fun key => (mphf.lookup key).toNat) Prod.fst perfect.1 isEntry
      dsimp only at found ⊢
      rw [found]
      exact Option.some_or
    · intro absent
      cases found : probe (fun key => (mphf.lookup key).toNat) Prod.fst entries
          (fxhash (memory disc)) with
      | none =>
          dsimp only
          rw [found]
          exact Option.none_or
      | some entry =>
          rcases probe_some found with ⟨isEntry, sameHash⟩
          rcases (mem_armEntries read).mp isEntry with ⟨text, isText, isHash⟩
          exact absurd (isHash.trans sameHash) (absent _ _ isText)
  · cases checked

/-- The arm chosen is the right one exactly where the hashes tell. -/
theorem isArmOf_iff {literals : Literals} {switch : Switch}
    {select : Memory → Word → Option Nat} (strings : StringArms keys)
    (selected : selectArm literals switch keys = some select) (memory : Memory) (disc : Word) :
    IsArmOf keys (memory disc) (select memory disc) ↔ HashesTell keys (memory disc) := by
  rcases selectArm_strings strings selected memory disc with ⟨present, absent⟩
  constructor
  · rintro (⟨index, text, chosen, isText, isBytes⟩ | ⟨noLiteral, chosen⟩)
    · have hashed : ∃ other written, textAt keys other = some written ∧
          fxhash (writtenBytes written) = fxhash (memory disc) := by
        by_contra none
        simp only [not_exists, not_and] at none
        -- Without the hash the `_` arm is chosen, which has no text.
        rw [textAt_wildcardArm ((absent none).symm.trans chosen)] at isText
        cases isText
      refine ⟨fun other written isWritten sameHash => ?_, fun _ _ _ _ => hashed⟩
      have same := (present other written isWritten sameHash).symm.trans chosen
      cases same
      rw [isText] at isWritten
      cases isWritten
      exact isBytes
    · refine ⟨fun other written isWritten sameHash => ?_, fun other written isWritten isBytes =>
        absurd isBytes (noLiteral other written isWritten)⟩
      have isDefault := (present other written isWritten sameHash).symm.trans chosen
      rw [textAt_wildcardArm isDefault.symm] at isWritten
      cases isWritten
  · intro tells
    by_cases hashed : ∃ index text, textAt keys index = some text ∧
        fxhash (writtenBytes text) = fxhash (memory disc)
    · rcases hashed with ⟨index, text, isText, sameHash⟩
      exact .inl ⟨index, text, present index text isText sameHash, isText,
        tells.sound index text isText sameHash⟩
    · simp only [not_exists, not_and] at hashed
      refine .inr ⟨fun index text isText isBytes => ?_, absent hashed⟩
      rcases tells.found index text isText isBytes with ⟨other, written, isWritten, sameHash⟩
      exact hashed other written isWritten sameHash

/-- String arms are no table of constants. -/
theorem no_table_of_stringArms {literals : Literals} {branches : List (Expr × List Expr)}
    (strings : StringArms (branches.map Prod.fst)) : tryBuildKTable literals branches = none := by
  rw [tryBuildKTable]
  split
  · rfl
  · rename_i enough
    rcases branches with _ | ⟨⟨key, body⟩, branches⟩
    · exact absurd (Nat.zero_lt_two) enough
    · have noNumber : ∀ text ty, key ≠ .num text ty := by
        rintro text ty rfl
        exact absurd (strings _ List.mem_cons_self rfl) Bool.false_ne_true
      have noEntry : ∀ count, kTableEntry literals count (key, body) = none := by
        intro count
        cases key with
        | num text ty => exact absurd rfl (noNumber text ty)
        | _ => rfl
      rw [List.mapM_cons, noEntry]
      rfl

section When

variable {W : Type} {rt : RtFuncs W} {ctx : CompilerCtx}

/-- The check of a `when` on a string goes to the arm whose literal has the bytes of the
discriminant, or to the `_` arm or on where none has, exactly if the hashes tell. -/
theorem string_when_iff {id : Nat} {scope : Scope} {cond : Expr}
    {branches : List (Expr × List Expr)} {emitted : Emitted W}
    (strings : StringArms (branches.map Prod.fst))
    (compiled : compileExpr rt ctx id scope (.when cond branches) = some emitted) :
    ∃ disc done arms select, compileExpr rt ctx id scope cond = some disc ∧
      disc.outcome = .continued done ∧
      compileArms rt ctx (done + 1) disc.scope branches = some arms ∧
      (done, whenBlock rt select arms.starts arms.nextId) ∈ emitted.code ∧
      ∀ exec : ExecCtx W,
        IsArmOf (branches.map Prod.fst) (rt.bytes exec.world exec.actor.tempVal)
          (select (rt.bytes exec.world) exec.actor.tempVal) ↔
        HashesTell (branches.map Prod.fst) (rt.bytes exec.world exec.actor.tempVal) := by
  rcases compile_when compiled with ⟨disc, done, -, isDisc, continues,
    ⟨values, table, -⟩ | ⟨-, arms, select, isArms, selected, rfl⟩⟩
  · rw [no_table_of_stringArms strings] at table
    cases table
  · refine ⟨disc, done, arms, select, isDisc, continues, isArms, ?_, fun exec =>
      isArmOf_iff strings selected (rt.bytes exec.world) exec.actor.tempVal⟩
    rw [List.append_assoc, List.append_assoc]
    exact List.mem_append_right _ (List.mem_append_left _ List.mem_cons_self)

end When

/-- The arms of a `when` on the string in the variable `s`. -/
def greetings : List (Expr × List Expr) :=
  [(.string "hi" (.plain "str"), []), (.var "_" .unknown, [])]

theorem stringArms_greetings : StringArms (greetings.map Prod.fst) := by
  intro key member
  rcases List.mem_pair.mp member with rfl | rfl
  · exact fun _ => rfl
  · exact fun typed => absurd typed (by decide)

theorem string_when_greeting :
    ∃ done, ∃ arms : Emitted Unit, ∃ select, ∃ emitted,
      compileExpr RtFuncs.idle .bare 0 ⟨⟨[("s", 0)]⟩, [], 0⟩
        (.when (.var "s" (.plain "str")) greetings) = some emitted ∧
      (done, whenBlock RtFuncs.idle select arms.starts arms.nextId) ∈ emitted.code ∧
      ∀ exec : ExecCtx Unit,
        IsArmOf (greetings.map Prod.fst) (RtFuncs.idle.bytes exec.world exec.actor.tempVal)
          (select (RtFuncs.idle.bytes exec.world) exec.actor.tempVal) ↔
        HashesTell (greetings.map Prod.fst)
          (RtFuncs.idle.bytes exec.world exec.actor.tempVal) := by
  have accepted : (compileExpr RtFuncs.idle .bare 0 ⟨⟨[("s", 0)]⟩, [], 0⟩
      (.when (.var "s" (.plain "str")) greetings)).isSome := by
    decide +kernel
  rcases Option.isSome_iff_exists.mp accepted with ⟨emitted, compiled⟩
  rcases string_when_iff stringArms_greetings compiled with
    ⟨disc, done, arms, select, -, -, -, isCheck, selects⟩
  exact ⟨done, arms, select, emitted, compiled, isCheck, selects⟩

/-- An arm whose literal collides, and a `_` arm. -/
def collidingKeys : List Expr :=
  [.string "8yn0iYCKYHlIj4-BwPqk" (.plain "str"), .var "_" .unknown]

def collidingBytes : List UInt8 := "GReLUrM4wMqfg9yzV3KQ".toUTF8.data.toList

/-- Two strings of one hash: the arm of the one takes the other. -/
theorem colliding_string_taken :
    ∃ select, selectArm CompilerCtx.bare.toLiterals .linear collidingKeys = some select ∧
      select (fun _ => collidingBytes) 0 = some 0 ∧
      ¬ IsArmOf collidingKeys collidingBytes (select (fun _ => collidingBytes) 0) := by
  have chosen : (selectArm CompilerCtx.bare.toLiterals .linear collidingKeys).map
      (fun select => select (fun _ => collidingBytes) 0) = some (some 0) := by
    decide +kernel
  rcases Option.map_eq_some_iff.mp chosen with ⟨select, selected, isFirst⟩
  refine ⟨select, selected, isFirst, ?_⟩
  rw [isFirst]
  rintro (⟨index, text, same, isText, isBytes⟩ | ⟨-, isDefault⟩)
  · cases same
    cases isText
    exact absurd isBytes (by decide +kernel)
  · exact absurd isDefault (by decide)

end LakeNative.Control

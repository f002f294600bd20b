import LakeNative.Control.WaitChoice
import LakeNative.Compiler.GuardSelect

/-! # What a `wait` binds and consumes

The check takes as many words as the handler with the most names binds, for whatever
handler they are, and stores them from the first slot behind the scope of the `wait` on.
Literals and wildcards have no slot.
-/

namespace LakeNative.Control

open LakeNative.Runtime LakeNative.Compiler LakeNative.Ring

variable {W : Type} {rt : RtFuncs W} {ctx : CompilerCtx}

/-- A pattern that binds a variable. -/
def IsNamed (pattern : Pattern) : Prop := pattern.isWildcard = false ∧ pattern.guard = none

namespace WaitSite

variable (site : WaitSite rt ctx)

def waitExpr : WaitExpr := waitAt site.scope site.handlers

/-- The slot that a name has in the body of a handler. -/
def bodySlot (handler : Nat) (name : String) : Option Nat :=
  (scopeAt rt ctx (site.id + 1) (registerHandlers site.scope (collected site.handlers))
    site.handlers handler).bind fun scope => scope.get name

/-- A message with a word for each pattern is queued. -/
def Queued (exec : ExecCtx W) (patterns : List Pattern) : Prop :=
  patterns.length ≤ exec.actor.unread.length

/-- The check consumes the message, every name has the word of its position in the body,
and every literal equals the word of its position. -/
structure Binds (memory : Memory) (exec : ExecCtx W) (handler : Nat) (patterns : List Pattern) :
    Prop where
  head : (site.check exec).1.actor.mailboxHead =
    ringIndex (exec.actor.mailboxHead + BitVec.ofNat 64 patterns.length)
  named : ∀ (pos : Nat) (pattern : Pattern), patterns[pos]? = some pattern → IsNamed pattern →
    ∃ slot, site.bodySlot handler pattern.ident = some slot ∧
      (site.check exec).1.actor.vars slot = exec.actor.messageWord pos
  literals : ∀ (pos : Nat) (pattern : Pattern) (guard : GuardValue),
    patterns[pos]? = some pattern → pattern.guard = some guard →
      guard.Holds memory (exec.actor.messageWord pos)

/-- As many words are taken as there are patterns, each name has the slot that the word of
its position is stored to, and only an integer in front is a literal. -/
structure Fits (handler : Nat) (patterns : List Pattern) : Prop where
  arity : site.waitExpr.dequeueArgCount % MAILBOX_WORDS = patterns.length
  slots : ∀ (pos : Nat) (pattern : Pattern), patterns[pos]? = some pattern → IsNamed pattern →
    ∃ index < site.waitExpr.dequeueArgCount, index % MAILBOX_WORDS = pos ∧
      site.bodySlot handler pattern.ident = some (site.waitExpr.dequeueVarBase + index)
  literals : ∀ (pos : Nat) (pattern : Pattern), patterns[pos]? = some pattern →
    pattern.guard ≠ none → pos = 0 ∧ pattern.guardI64 ≠ none

/-- The dispatch takes some message to the handler. -/
def Reached (handler : Nat) (patterns : List Pattern) : Prop :=
  ∃ exec, Queued exec patterns ∧ site.Selects exec handler

/-! ## The word that is compared -/

/-- The first word, where the check reads one. -/
def discriminant (exec : ExecCtx W) : Word :=
  if site.waitExpr.hasGuards ∧ site.waitExpr.dequeueArgCount ≠ 0 then
    exec.actor.messageWord 0
  else
    0

theorem selects_iff (unfiltered : site.filter = []) {exec : ExecCtx W} {handler : Nat} :
    site.Selects exec handler ↔ exec.actor.mailboxHead ≠ exec.actor.mailboxTail ∧
      site.waitExpr.dispatch (site.discriminant exec) = some handler := by
  have noFolded : site.folded = [] := by
    have isFolded := site.isFolded
    rw [unfiltered] at isFolded
    exact (Option.some.inj isFolded).symm
  have chosen : chosenHandler rt (waitAt site.scope site.handlers) site.dispatch site.folded exec =
      some (site.waitExpr.dispatch (site.discriminant exec)) := by
    rw [chosenHandler, noFolded, emitDispatch_eq site.isDispatch]
    simp only [filterAccepts, discriminant, waitExpr, List.isEmpty_nil, Bool.not_true,
      Bool.or_false, Bool.and_eq_true, decide_eq_true_eq, if_true, Option.map_some]
    congr 3
  rw [Selects, chosen, Option.some.injEq]

theorem guard_waitExpr {handler : Nat} {patterns : List Pattern} {body : List Expr}
    (atIndex : site.handlers[handler]? = some (patterns, body)) :
    ∃ entry, site.waitExpr.handlers[handler]? = some entry ∧
      entry.guardI64 = patterns.head?.bind Pattern.guardI64 := by
  rw [WaitExpr.handlers_eq, waitExpr, waitAt, collected, List.getElem?_map, List.getElem?_map,
    atIndex]
  exact ⟨_, rfl, rfl⟩

theorem check_head {exec : ExecCtx W} {handler : Nat} (selects : site.Selects exec handler) :
    (site.check exec).1.actor.mailboxHead =
      ringIndex (exec.actor.mailboxHead + BitVec.ofNat 64 site.waitExpr.dequeueArgCount) := by
  rw [site.check_selected selects]
  rfl

theorem check_vars {exec : ExecCtx W} {handler : Nat} (selects : site.Selects exec handler)
    (slot : Nat) : (site.check exec).1.actor.vars slot =
      if site.waitExpr.dequeueVarBase ≤ slot ∧
          slot < site.waitExpr.dequeueVarBase + site.waitExpr.dequeueArgCount then
        exec.actor.messageWord (slot - site.waitExpr.dequeueVarBase)
      else
        exec.actor.vars slot := by
  rw [site.check_selected selects]
  rfl

theorem messageWord_mod (actor : Actor) (index : Nat) :
    actor.messageWord (index % MAILBOX_WORDS) = actor.messageWord index := by
  rw [Actor.messageWord, Actor.messageWord, HeapArray.load, HeapArray.load, ringIndex_add_toNat,
    ringIndex_add_toNat, Nat.add_mod_mod]

/-- A handler that fits binds and consumes every message. -/
theorem binds_of_fits (unfiltered : site.filter = []) {handler : Nat} {patterns : List Pattern}
    {body : List Expr} (atIndex : site.handlers[handler]? = some (patterns, body))
    (fits : site.Fits handler patterns) (memory : Memory) {exec : ExecCtx W}
    (selects : site.Selects exec handler) : site.Binds memory exec handler patterns := by
  have chosen := ((site.selects_iff unfiltered).mp selects).2
  rcases site.guard_waitExpr atIndex with ⟨entry, atEntry, isGuard⟩
  refine ⟨?_, ?_, ?_⟩
  · rw [site.check_head selects, ← fits.arity]
    apply BitVec.eq_of_toNat_eq
    rw [ringIndex_add_toNat, ringIndex_add_toNat, Nat.add_mod_mod]
  · intro pos pattern atPos named
    rcases fits.slots pos pattern atPos named with ⟨index, inside, isPos, isSlot⟩
    refine ⟨_, isSlot, ?_⟩
    rw [site.check_vars selects, if_pos (by omega), Nat.add_sub_cancel_left, ← isPos,
      messageWord_mod]
  · intro pos pattern guard atPos isLiteral
    rcases fits.literals pos pattern atPos (by rw [isLiteral]; nofun) with ⟨rfl, isInt⟩
    rcases Option.ne_none_iff_exists'.mp isInt with ⟨value, isValue⟩
    have isFirst : patterns.head?.bind Pattern.guardI64 = some value := by
      rw [List.head?_eq_getElem?, atPos]
      exact isValue
    have same := site.waitExpr.guard_of_dispatch atEntry (isGuard.trans isFirst) chosen
    rw [Pattern.guard, isValue] at isLiteral
    cases isLiteral
    have guarded : site.waitExpr.hasGuards = true :=
      List.any_eq_true.mpr ⟨entry, List.mem_of_getElem? atEntry, by rw [isGuard, isFirst]; rfl⟩
    have counted : site.waitExpr.dequeueArgCount ≠ 0 := by
      intro none
      have arity := fits.arity
      rw [none, Nat.zero_mod] at arity
      have inside := (List.getElem?_eq_some_iff.mp atPos).1
      omega
    rw [discriminant, if_pos ⟨guarded, counted⟩] at same
    exact same

/-! ## Messages that tell the words apart -/

/-- A full mailbox whose words are a first one and its successors by a stride. -/
def probe (exec : ExecCtx W) (first stride : Word) (vars : Nat → Word) : ExecCtx W :=
  { exec with actor := { exec.actor with
      vars := vars
      mailbox := .allocated MAILBOX_WORDS fun index => first + stride * BitVec.ofNat 64 index
      mailboxHead := 0
      mailboxTail := 255 } }

theorem messageWord_probe (exec : ExecCtx W) (first stride : Word) (vars : Nat → Word)
    (index : Nat) : (probe exec first stride vars).actor.messageWord index =
      first + stride * BitVec.ofNat 64 (index % MAILBOX_WORDS) := by
  rw [Actor.messageWord, HeapArray.load, ringIndex_add_toNat]
  change first + stride * BitVec.ofNat 64 ((0 + index) % MAILBOX_WORDS) = _
  rw [Nat.zero_add]

theorem queued_probe {exec : ExecCtx W} {patterns : List Pattern} (queued : Queued exec patterns)
    (first stride : Word) (vars : Nat → Word) :
    Queued (probe exec first stride vars) patterns := by
  have most : exec.actor.unread.length < MAILBOX_WORDS := by
    rw [Actor.unread, length_window]
    exact Nat.mod_lt _ (by decide)
  have all : (probe exec first stride vars).actor.unread.length = 255 := by
    rw [Actor.unread, length_window]
    change ((255 : Word).toNat + MAILBOX_WORDS - (0 : Word).toNat) % MAILBOX_WORDS = 255
    decide
  rw [Queued] at queued ⊢
  rw [MAILBOX_WORDS] at most
  omega

theorem selects_probe (unfiltered : site.filter = []) {exec : ExecCtx W} {handler : Nat}
    (selects : site.Selects exec handler) (stride : Word) (vars : Nat → Word) :
    site.Selects (probe exec (site.discriminant exec) stride vars) handler := by
  rw [site.selects_iff unfiltered] at selects ⊢
  have apart : (0 : Word) ≠ 255 := by decide
  refine ⟨apart, ?_⟩
  have same : site.discriminant (probe exec (site.discriminant exec) stride vars) =
      site.discriminant exec := by
    rw [discriminant, messageWord_probe, Nat.zero_mod]
    split
    · simp
    · rename_i unread
      rw [discriminant, if_neg unread]
  rw [same]
  exact selects.2

theorem probe_injective {exec : ExecCtx W} {first : Word} {vars : Nat → Word} {left right : Nat}
    (same : (probe exec first 1 vars).actor.messageWord left =
      (probe exec first 1 vars).actor.messageWord right) :
    left % MAILBOX_WORDS = right % MAILBOX_WORDS := by
  rw [messageWord_probe, messageWord_probe, BitVec.add_right_inj] at same
  have numbers := congrArg BitVec.toNat same
  have one : (1 : Word).toNat = 1 := rfl
  rw [BitVec.toNat_mul, BitVec.toNat_mul, BitVec.toNat_ofNat, BitVec.toNat_ofNat, one,
    MAILBOX_WORDS] at numbers
  rw [MAILBOX_WORDS]
  omega

/-- A word behind the first one is not the same for every stride. -/
theorem probe_strides {exec : ExecCtx W} {first : Word} {vars : Nat → Word} {pos : Nat}
    (short : pos < MAILBOX_WORDS)
    (same : (probe exec first 1 vars).actor.messageWord pos =
      (probe exec first 2 vars).actor.messageWord pos) : pos = 0 := by
  rw [messageWord_probe, messageWord_probe, BitVec.add_right_inj] at same
  have numbers := congrArg BitVec.toNat same
  have one : (1 : Word).toNat = 1 := rfl
  have two : (2 : Word).toNat = 2 := rfl
  rw [BitVec.toNat_mul, BitVec.toNat_mul, BitVec.toNat_ofNat, one, two,
    Nat.mod_eq_of_lt short] at numbers
  rw [MAILBOX_WORDS] at short
  omega

/-- A handler that is reached and whose messages all are bound fits. -/
theorem fits_of_binds (unfiltered : site.filter = []) {handler : Nat} {patterns : List Pattern}
    (reached : site.Reached handler patterns)
    (binds : ∀ memory exec, Queued exec patterns → site.Selects exec handler →
      site.Binds memory exec handler patterns) : site.Fits handler patterns := by
  rcases reached with ⟨exec, queued, selects⟩
  have short : patterns.length < MAILBOX_WORDS := by
    apply Nat.lt_of_le_of_lt queued
    rw [Actor.unread, length_window]
    exact Nat.mod_lt _ (by decide)
  have probes := fun memory stride vars => binds memory _
    (queued_probe queued (site.discriminant exec) stride vars)
    (site.selects_probe unfiltered selects stride vars)
  have chosen := fun stride vars => site.selects_probe unfiltered selects stride vars
  refine ⟨?_, ?_, ?_⟩
  · have head := (probes (fun _ => []) 1 exec.actor.vars).head
    rw [site.check_head (chosen 1 exec.actor.vars)] at head
    have positions := congrArg BitVec.toNat head
    rw [ringIndex_add_toNat, ringIndex_add_toNat] at positions
    change (0 + _) % _ = (0 + _) % _ at positions
    rwa [Nat.zero_add, Nat.zero_add, Nat.mod_eq_of_lt short] at positions
  · intro pos pattern atPos named
    have within : pos < patterns.length := (List.getElem?_eq_some_iff.mp atPos).1
    let target := (probe exec (site.discriminant exec) 1 exec.actor.vars).actor.messageWord pos
    rcases (probes (fun _ => []) 1 fun _ => target + 1).named pos pattern atPos named with
      ⟨slot, isSlot, isWord⟩
    rw [site.check_vars (chosen 1 fun _ => target + 1)] at isWord
    split at isWord
    · rename_i inside
      refine ⟨slot - site.waitExpr.dequeueVarBase, by omega, ?_, ?_⟩
      · rw [probe_injective isWord, Nat.mod_eq_of_lt (Nat.lt_trans within short)]
      · rw [isSlot, Nat.add_sub_cancel' inside.1]
    · have missed : target + 1 = target := isWord
      exact absurd missed (by simp)
  · intro pos pattern atPos isLiteral
    have within : pos < patterns.length := (List.getElem?_eq_some_iff.mp atPos).1
    rcases Option.ne_none_iff_exists'.mp isLiteral with ⟨guard, isGuard⟩
    have holds := fun memory stride =>
      (probes memory stride exec.actor.vars).literals pos pattern guard atPos isGuard
    rw [Pattern.guard] at isGuard
    cases isInt : pattern.guardI64 with
    | some value =>
        rw [isInt] at isGuard
        cases isGuard
        refine ⟨?_, by simp⟩
        have once : _ = value := holds (fun _ => []) 1
        have twice : _ = value := holds (fun _ => []) 2
        exact probe_strides (Nat.lt_trans within short) (once.trans twice.symm)
    | none =>
        rw [isInt] at isGuard
        rcases Option.map_eq_some_iff.mp isGuard with ⟨text, -, rfl⟩
        have bytes : [] = unescape text := holds (fun _ => []) 1
        have others : [0] = unescape text := holds (fun _ => [0]) 1
        rw [← bytes] at others
        cases others

end WaitSite

/-- Every queued message of a handler is bound and consumed as its patterns say exactly if
the handler is never reached or fits. -/
theorem wait_binding_iff (site : WaitSite rt ctx) (unfiltered : site.filter = []) {handler : Nat} {patterns : List Pattern}
    {body : List Expr} (atIndex : site.handlers[handler]? = some (patterns, body)) :
    (∀ memory exec, WaitSite.Queued exec patterns → site.Selects exec handler →
      site.Binds memory exec handler patterns) ↔
        (site.Reached handler patterns → site.Fits handler patterns) := by
  constructor
  · exact fun binds reached => site.fits_of_binds unfiltered reached binds
  · intro fits memory exec queued selects
    exact site.binds_of_fits unfiltered atIndex (fits ⟨exec, queued, selects⟩) memory selects

/-- The handler `n i64` behind two guards binds its word. -/
theorem last_handler_binds : guardSite.Fits 2 [⟨"n", .plain "i64", .var⟩] ∧
    ∀ (memory : Memory) (exec : ExecCtx Unit),
      WaitSite.Queued exec [⟨"n", .plain "i64", .var⟩] → guardSite.Selects exec 2 →
        guardSite.Binds memory exec 2 [⟨"n", .plain "i64", .var⟩] := by
  have fits : guardSite.Fits 2 [⟨"n", .plain "i64", .var⟩] := by
    refine ⟨by decide, ?_, ?_⟩
    · intro pos pattern atPos _
      rcases List.getElem?_eq_some_iff.mp atPos with ⟨inside, rfl⟩
      rcases Nat.lt_one_iff.mp inside with rfl : pos = 0
      exact ⟨0, by decide, rfl, rfl⟩
    · intro pos pattern atPos isLiteral
      rcases List.getElem?_eq_some_iff.mp atPos with ⟨inside, rfl⟩
      rcases Nat.lt_one_iff.mp inside with rfl : pos = 0
      exact absurd rfl isLiteral
  exact ⟨fits, (wait_binding_iff guardSite rfl rfl).mpr fun _ => fits⟩

/-- `wait { _ n i64 -> { true } }` -/
def skipSite : WaitSite .idle .bare :=
  soleSite [([⟨"_", .unknown, .wildcard⟩, ⟨"n", .plain "i64", .var⟩], [.bool true])] rfl rfl rfl

/-- Of the message `7 5` only the first word is taken, and `n` is bound to it. -/
theorem wildcard_shifts_binding : ∃ exec : ExecCtx Unit,
    exec.actor.unread = [7, 5] ∧
    WaitSite.Queued exec [⟨"_", .unknown, .wildcard⟩, ⟨"n", .plain "i64", .var⟩] ∧
    skipSite.Selects exec 0 ∧ ∀ memory,
      ¬ skipSite.Binds memory exec 0 [⟨"_", .unknown, .wildcard⟩, ⟨"n", .plain "i64", .var⟩] := by
  let exec : ExecCtx Unit := ⟨Actor.zeroed.enqueue [7, 5], fun _ => 0, 0, ()⟩
  have unread : exec.actor.unread = [7, 5] := by decide
  have selects : skipSite.Selects exec 0 := ⟨by decide, rfl⟩
  refine ⟨exec, unread, ?_, selects, fun memory binds => ?_⟩
  · exact (by decide : 2 ≤ exec.actor.unread.length)
  · have taken := binds.head
    rw [skipSite.check_head selects] at taken
    exact absurd taken (by decide)

end LakeNative.Control

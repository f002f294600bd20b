import LakeNative.Compiler.Fragments
import LakeNative.Library.ComparedCode
import LakeNative.Memory.VariableReads

/-! # Blocks that statements share

Pure statements in a row share a block, which all their numbers enter. Such a block may be entered
again at any of them: what it has done already, it does to the same effect. It is compared with
blocks of their own, which keep the last value in `TEMP_VAL`.
-/

namespace LakeNative.Control

open LakeNative.Runtime LakeNative.Compiler LakeNative.NumberedCode LakeNative.Transitions
open LakeNative.Memory

variable {W : Type} {rt : RtFuncs W} {ctx : CompilerCtx}

/-! ## `TEMP_VAL` -/

@[simp] theorem setTemp_self (exec : ExecCtx W) : exec.setTemp exec.actor.tempVal = exec := rfl

@[simp] theorem setTemp_setTemp (exec : ExecCtx W) (word later : Word) :
    (exec.setTemp word).setTemp later = exec.setTemp later := rfl

/-- The block does the same whatever is in `TEMP_VAL`, apart from what it leaves there. -/
def Blind (block : Block W) : Prop :=
  ∀ exec word, ∃ left, block (exec.setTemp word) = ((block exec).1.setTemp left, (block exec).2)

/-- Two blocks do the same, but for `TEMP_VAL`. It is the same in front of them if it is known there,
and behind them then, if it is known. A parked actor finds the result of its request in it. -/
def Carries (before behind : Bool) (merged plain : Block W) : Prop :=
  ∀ exec word, (before = true → word = exec.actor.tempVal) →
    ∃ left, plain (exec.setTemp word) = ((merged exec).1.setTemp left, (merged exec).2) ∧
      (behind = true → (merged exec).2.resume.isSome → (merged exec).2.isPark = false →
        left = (merged exec).1.actor.tempVal)

theorem Carries.blind {behind : Bool} {merged plain : Block W} (carries : Carries false behind merged plain) :
    Blind plain := by
  intro exec word
  rcases carries exec word nofun with ⟨left, isLeft, -⟩
  rcases carries exec exec.actor.tempVal nofun with ⟨own, isOwn, -⟩
  rw [setTemp_self] at isOwn
  exact ⟨left, by rw [isLeft, isOwn, setTemp_setTemp]⟩

/-- A block in both codes that may read `TEMP_VAL` because it is known. -/
theorem carries_known (block : Block W) (behind : Bool) : Carries true behind block block := by
  intro exec word isKnown
  rw [isKnown rfl, setTemp_self]
  exact ⟨(block exec).1.actor.tempVal, rfl, fun _ _ _ => rfl⟩

/-! ## Statements that share a block -/

/-- A statement whose value goes to the slot that it binds or to `TEMP_VAL`. It reads no slot
from its own on. -/
structure Stored where
  binds : Bool
  slot : Nat
  value : Folded
  reads : ∀ other, slot ≤ other → ∀ view word, value (setView view other word) = value view

namespace Stored

/-- The first slot that the statement leaves. -/
def next (stmt : Stored) : Nat := if stmt.binds then stmt.slot + 1 else stmt.slot

theorem slot_le_next (stmt : Stored) : stmt.slot ≤ stmt.next := by
  rw [next]
  split <;> omega

def put (stmt : Stored) (word : Word) (exec : ExecCtx W) : ExecCtx W :=
  if stmt.binds then exec.setVar stmt.slot word else exec.setTemp word

def run (rt : RtFuncs W) (stmt : Stored) : FastOp W := fun exec =>
  (stmt.value (exec.view rt)).map fun word => stmt.put word exec

/-- The value goes through `TEMP_VAL`. -/
def plain (rt : RtFuncs W) (stmt : Stored) : FastOp W := fun exec =>
  (stmt.value (exec.view rt)).map fun word => stmt.put word (exec.setTemp word)

end Stored

def runAll (rt : RtFuncs W) (stmts : List Stored) : FastOp W := fun exec =>
  stmts.foldlM (fun exec stmt => stmt.run rt exec) exec

/-- The block of a joint effect. -/
def fastBlock (op : FastOp W) (next : Nat) : Block W := fun exec =>
  orTrap exec ((op exec).map fun exec => (exec, .goto next))

theorem fastCode_eq (op : FastOp W) (ids : List Nat) (next : Nat) :
    fastCode op ids next = ids.map fun id => (id, fastBlock op next) := rfl

/-- One block for each statement. -/
def plains (rt : RtFuncs W) (id : Nat) : List Stored → Code W
  | [] => []
  | stmt :: stmts => (id, fastBlock (stmt.plain rt) (id + 1)) :: plains rt (id + 1) stmts

theorem runAll_append (before behind : List Stored) (exec : ExecCtx W) :
    runAll rt (before ++ behind) exec = (runAll rt before exec).bind (runAll rt behind) :=
  List.foldlM_append

theorem runAll_cons (stmt : Stored) (stmts : List Stored) (exec : ExecCtx W) :
    runAll rt (stmt :: stmts) exec = (stmt.run rt exec).bind (runAll rt stmts) :=
  List.foldlM_cons

theorem runAll_concat (stmts : List Stored) (stmt : Stored) (exec : ExecCtx W) :
    runAll rt (stmts ++ [stmt]) exec = (runAll rt stmts exec).bind (stmt.run rt) := by
  rw [runAll_append]
  congr 1
  funext exec
  rw [runAll_cons]
  exact Option.bind_fun_some _

theorem plains_append (before behind : List Stored) (id : Nat) :
    (plains rt id (before ++ behind) : Code W) =
      plains rt id before ++ plains rt (id + before.length) behind := by
  induction before generalizing id with
  | nil => rfl
  | cons stmt before induction =>
      rw [List.cons_append, plains, plains, induction, List.length_cons, Nat.add_right_comm,
        Nat.add_assoc]
      rfl

theorem map_fst_plains (stmts : List Stored) (id : Nat) :
    (plains rt id stmts : Code W).map Prod.fst = List.range' id stmts.length := by
  induction stmts generalizing id with
  | nil => rfl
  | cons stmt stmts induction =>
      rw [plains, List.map_cons, induction, List.length_cons, List.range'_succ]

theorem world_of_put (stmt : Stored) (word : Word) (exec : ExecCtx W) :
    (stmt.put word exec).world = exec.world := by
  rw [Stored.put]
  split <;> rfl

theorem world_of_run {stmt : Stored} {exec after : ExecCtx W} (runs : stmt.run rt exec = some after) :
    after.world = exec.world := by
  rcases Option.map_eq_some_iff.mp runs with ⟨word, -, rfl⟩
  exact world_of_put _ _ _

theorem world_of_plain {stmt : Stored} {exec after : ExecCtx W}
    (runs : stmt.plain rt exec = some after) : after.world = exec.world := by
  rcases Option.map_eq_some_iff.mp runs with ⟨word, -, rfl⟩
  exact world_of_put _ _ _

theorem world_of_runAll {stmts : List Stored} {exec after : ExecCtx W}
    (runs : runAll rt stmts exec = some after) : after.world = exec.world := by
  induction stmts generalizing exec with
  | nil => exact congrArg ExecCtx.world (Option.some.inj runs).symm
  | cons stmt stmts induction =>
      rw [runAll_cons] at runs
      rcases bind_some runs with ⟨between, isRun, runs⟩
      exact (induction runs).trans (world_of_run isRun)

/-! ## What a statement does to a state -/

/-- The same but for `TEMP_VAL`, and for what others have done that cannot be loaded. -/
structure Alike (rt : RtFuncs W) (before after : ExecCtx W) : Prop where
  vars : after.actor.vars = before.actor.vars
  ownPid : after.actor.ownPid = before.actor.ownPid
  mailboxHead : after.actor.mailboxHead = before.actor.mailboxHead
  jumpArgs : after.jumpArgs = before.jumpArgs
  branchId : after.branchId = before.branchId
  load : rt.load after.world = rt.load before.world

namespace Alike

variable {before after now : ExecCtx W}

theorem setTemp (exec : ExecCtx W) (word : Word) : Alike rt exec (exec.setTemp word) :=
  ⟨rfl, rfl, rfl, rfl, rfl, rfl⟩

theorem view (alike : Alike rt before after) : after.view rt = before.view rt := by
  rw [ExecCtx.view, ExecCtx.view, alike.vars, alike.ownPid, alike.load]

theorem put (alike : Alike rt before after) (stmt : Stored) (word : Word) :
    Alike rt (stmt.put word before) (stmt.put word (after.setTemp word)) := by
  rw [Stored.put, Stored.put]
  split
  · have vars := congrArg (fun vars : Nat → Word => Function.update vars stmt.slot word) alike.vars
    exact ⟨vars, alike.ownPid, alike.mailboxHead, alike.jumpArgs, alike.branchId, alike.load⟩
  · exact ⟨alike.vars, alike.ownPid, alike.mailboxHead, alike.jumpArgs, alike.branchId, alike.load⟩

/-- Others run, but what can be loaded stays. -/
theorem trans_others {exit : Exit} (alike : Alike rt before after) (others : OthersRan exit after now)
    (load : rt.load now.world = rt.load after.world) : Alike rt before now where
  vars := others.vars.trans alike.vars
  ownPid := others.ownPid.trans alike.ownPid
  mailboxHead := others.mailboxHead.trans alike.mailboxHead
  jumpArgs := others.jumpArgs.trans alike.jumpArgs
  branchId := others.branchId.trans alike.branchId
  load := load.trans alike.load

/-- What others do behind one of the two, they can do behind the other one. -/
theorem others {exit other : Exit} (alike : Alike rt before after) (others : OthersRan exit after now) :
    OthersRan other before (now.setTemp before.actor.tempVal) where
  vars := others.vars.trans alike.vars
  ownPid := others.ownPid.trans alike.ownPid
  mailboxHead := others.mailboxHead.trans alike.mailboxHead
  tempVal _ := rfl
  jumpArgs := others.jumpArgs.trans alike.jumpArgs
  branchId := others.branchId.trans alike.branchId

theorem others_right {exit other : Exit} (alike : Alike rt before after)
    (others : OthersRan exit before now) : OthersRan other after (now.setTemp after.actor.tempVal) where
  vars := others.vars.trans alike.vars.symm
  ownPid := others.ownPid.trans alike.ownPid.symm
  mailboxHead := others.mailboxHead.trans alike.mailboxHead.symm
  tempVal _ := rfl
  jumpArgs := others.jumpArgs.trans alike.jumpArgs.symm
  branchId := others.branchId.trans alike.branchId.symm

/-- A statement does alike whether its value goes through `TEMP_VAL` or not. -/
theorem plain_none (alike : Alike rt before after) {stmt : Stored} :
    stmt.plain rt after = none ↔ stmt.run rt before = none := by
  rw [Stored.plain, Stored.run, alike.view, Option.map_eq_none_iff, Option.map_eq_none_iff]

theorem plain_some (alike : Alike rt before after) {stmt : Stored} {left : ExecCtx W}
    (runs : stmt.run rt before = some left) :
    ∃ right, stmt.plain rt after = some right ∧ Alike rt left right ∧
      (stmt.binds = false → right.actor.tempVal = left.actor.tempVal) := by
  rcases Option.map_eq_some_iff.mp runs with ⟨word, isWord, rfl⟩
  refine ⟨_, by rw [Stored.plain, alike.view, isWord, Option.map_some], alike.put stmt word, ?_⟩
  intro noBinding
  simp [Stored.put, noBinding, ExecCtx.setTemp]

theorem run_some (alike : Alike rt before after) {stmt : Stored} {right : ExecCtx W}
    (runs : stmt.plain rt after = some right) :
    ∃ left, stmt.run rt before = some left ∧ Alike rt left right ∧
      (stmt.binds = false → right.actor.tempVal = left.actor.tempVal) := by
  cases isRun : stmt.run rt before with
  | none =>
      rw [alike.plain_none.mpr isRun] at runs
      cases runs
  | some left =>
      rcases alike.plain_some isRun with ⟨other, isOther, isAlike, same⟩
      rw [runs] at isOther
      cases isOther
      exact ⟨left, rfl, isAlike, same⟩

end Alike

/-! ## What need not be done again -/

/-- The statement's value is where the statement leaves it; `TEMP_VAL` apart. -/
def Held (rt : RtFuncs W) (stmt : Stored) (exec : ExecCtx W) : Prop :=
  ∃ word, stmt.value (exec.view rt) = some word ∧
    (stmt.binds = true → exec.actor.vars stmt.slot = word)

/-- Statements that have been run change nothing but `TEMP_VAL` where they run again. -/
theorem runAll_held {stmts : List Stored} {exec : ExecCtx W} (held : ∀ stmt ∈ stmts, Held rt stmt exec) :
    ∃ word, runAll rt stmts exec = some (exec.setTemp word) := by
  induction stmts generalizing exec with
  | nil => exact ⟨exec.actor.tempVal, rfl⟩
  | cons stmt stmts induction =>
      rcases held stmt List.mem_cons_self with ⟨word, isValue, isVar⟩
      have rest := fun other member => held other (List.mem_cons_of_mem _ member)
      rw [runAll_cons, Stored.run, isValue, Option.map_some, Option.bind_some, Stored.put]
      cases binds : stmt.binds with
      | true =>
          rw [if_pos rfl, ← isVar binds, setVar_self]
          exact induction rest
      | false =>
          rw [if_neg (by decide)]
          have again : ∀ other ∈ stmts, Held rt other (exec.setTemp word) := rest
          exact induction again

/-- One more statement has been run. The slot that it binds is read and bound by none before. -/
theorem held_concat {stmts : List Stored} {stmt : Stored} {exec after now : ExecCtx W} {exit : Exit}
    (held : ∀ earlier ∈ stmts, Held rt earlier exec)
    (sorted : ∀ earlier ∈ stmts, earlier.next ≤ stmt.slot)
    (runs : stmt.plain rt exec = some after) (others : OthersRan exit after now)
    (load : rt.load now.world = rt.load after.world) :
    ∀ earlier ∈ stmts ++ [stmt], Held rt earlier now := by
  rcases Option.map_eq_some_iff.mp runs with ⟨word, isValue, rfl⟩
  have alike : Alike rt (stmt.put word exec) now := ((Alike.setTemp exec exec.actor.tempVal).put stmt
    word).trans_others others load
  have view := alike.view
  have vars := alike.vars
  rw [Stored.put] at view vars
  intro other member
  cases binds : stmt.binds with
  | true =>
      rw [if_pos binds] at view vars
      have isSet : now.view rt = setView (exec.view rt) stmt.slot word := view
      rcases List.mem_append.mp member with isEarlier | isLast
      · have before := sorted other isEarlier
        have bound : other.slot ≤ stmt.slot := Nat.le_trans other.slot_le_next before
        rcases held other isEarlier with ⟨value, isHeld, isVar⟩
        refine ⟨value, by rw [isSet, other.reads _ bound, isHeld], fun otherBinds => ?_⟩
        rw [Stored.next, if_pos otherBinds] at before
        have different : other.slot ≠ stmt.slot := by omega
        rw [vars]
        exact (Function.update_of_ne different _ _).trans (isVar otherBinds)
      · rcases List.mem_singleton.mp isLast with rfl
        refine ⟨word, by rw [isSet, other.reads _ (Nat.le_refl _), isValue], fun _ => ?_⟩
        rw [vars]
        exact Function.update_self _ _ _
  | false =>
      rw [if_neg (by simp [binds])] at view vars
      have same : now.view rt = exec.view rt := view
      rcases List.mem_append.mp member with isEarlier | isLast
      · rcases held other isEarlier with ⟨value, isHeld, isVar⟩
        refine ⟨value, by rw [same, isHeld], fun otherBinds => ?_⟩
        rw [vars]
        exact isVar otherBinds
      · rcases List.mem_singleton.mp isLast with rfl
        exact ⟨word, by rw [same, isValue], fun isBinding => by simp [binds] at isBinding⟩

/-! ## Codes side by side -/

/-- A piece of code: a block and the one that it is compared with, or statements in a row, which
share a block or have blocks of their own. -/
inductive Piece (W : Type) where
  | block (id : Nat) (merged plain : Block W)
  | row (first : Nat) (stmts : List Stored)

namespace Piece

def merged (rt : RtFuncs W) : Piece W → Code W
  | .block id merged _ => [(id, merged)]
  | .row first stmts =>
      fastCode (runAll rt stmts) (List.range' first stmts.length) (first + stmts.length)

def plain (rt : RtFuncs W) : Piece W → Code W
  | .block id _ plain => [(id, plain)]
  | .row first stmts => plains rt first stmts

def numbers : Piece W → List Nat
  | .block id _ _ => [id]
  | .row first stmts => List.range' first stmts.length

/-- The numbers that share the block of the number in front. -/
def Shares (number : Nat) : Piece W → Prop
  | .block _ _ _ => False
  | .row first stmts => first < number ∧ number < first + stmts.length

theorem numbers_merged (piece : Piece W) (rt : RtFuncs W) : (piece.merged rt).map Prod.fst = piece.numbers := by
  cases piece with
  | block => rfl
  | row first stmts =>
      rw [merged, fastCode, List.map_map]
      exact List.map_id' _

theorem numbers_plain (piece : Piece W) (rt : RtFuncs W) : (piece.plain rt).map Prod.fst = piece.numbers := by
  cases piece with
  | block => rfl
  | row first stmts => exact map_fst_plains stmts first

end Piece

/-- What is known at a number, if it is not inside a shared block: that `TEMP_VAL` is not stale, or
nothing. -/
abbrev Marks := Nat → Option Bool

/-- The number is not inside a shared block, and not more is known there. -/
def AtMost (mark : Option Bool) (known : Bool) : Prop :=
  ∃ here, mark = some here ∧ (here = true → known = true)

/-- The number is not inside a shared block, and all that is known there. -/
def AtLeast (mark : Option Bool) (known : Bool) : Prop :=
  ∃ here, mark = some here ∧ (known = true → here = true)

/-- The marks are right for a piece. -/
def Piece.Marked (marks : Marks) : Piece W → Prop
  | .block id merged plain => ∃ before behind, marks id = some before ∧
      Carries before behind merged plain ∧ ∀ next, Leads merged next → AtMost (marks next) behind
  | .row first stmts => stmts.Pairwise (fun earlier later => earlier.next ≤ later.slot) ∧
      (∀ number, first < number → number < first + stmts.length → marks number = none) ∧
      ∀ before last, stmts = before ++ [last] →
        AtMost (marks (first + stmts.length)) (!last.binds)

/-- Two codes in pieces that are marked right. -/
structure SideBySide (rt : RtFuncs W) (marks : Marks) (pieces : List (Piece W)) : Prop where
  marked : ∀ piece ∈ pieces, piece.Marked marks
  distinct : (pieces.flatMap Piece.numbers).Nodup

section Pieces

def mergedCode (rt : RtFuncs W) (pieces : List (Piece W)) : Code W := pieces.flatMap (Piece.merged rt)

def plainCode (rt : RtFuncs W) (pieces : List (Piece W)) : Code W := pieces.flatMap (Piece.plain rt)

def Shared (pieces : List (Piece W)) (number : Nat) : Prop := ∃ piece ∈ pieces, piece.Shares number

variable {marks : Marks} {pieces : List (Piece W)} {number : Nat} {block : Block W}

theorem mem_mergedCode : (number, block) ∈ mergedCode rt pieces ↔
    ∃ piece ∈ pieces, (number, block) ∈ piece.merged rt := List.mem_flatMap

theorem mem_plainCode : (number, block) ∈ plainCode rt pieces ↔
    ∃ piece ∈ pieces, (number, block) ∈ piece.plain rt := List.mem_flatMap

/-- A number is in one piece only. -/
theorem piece_unique (distinct : (pieces.flatMap Piece.numbers).Nodup) {piece other : Piece W}
    (member : piece ∈ pieces) (isOther : other ∈ pieces) (inPiece : number ∈ piece.numbers)
    (inOther : number ∈ other.numbers) : piece = other := by
  by_contra different
  have apart := (List.nodup_flatMap.mp distinct).2
  have symmetric : Std.Symm (Function.onFun List.Disjoint (Piece.numbers (W := W))) :=
    ⟨fun _ _ isDisjoint _ inOther inOne => isDisjoint inOne inOther⟩
  have disjoint := apart.forall member isOther different
  exact disjoint inPiece inOther

theorem mem_numbers_of_plain {piece : Piece W} (member : (number, block) ∈ piece.plain rt) :
    number ∈ piece.numbers := by
  rw [← piece.numbers_plain rt]
  exact List.mem_map_of_mem member

theorem mem_numbers_of_merged {piece : Piece W} (member : (number, block) ∈ piece.merged rt) :
    number ∈ piece.numbers := by
  rw [← piece.numbers_merged rt]
  exact List.mem_map_of_mem member

namespace SideBySide

variable (side : SideBySide rt marks pieces)
include side

/-- Inside a shared block nothing is marked. -/
theorem not_shared {known : Bool} (isMarked : marks number = some known) : ¬ Shared pieces number := by
  rintro ⟨piece, member, shares⟩
  have marked := side.marked piece member
  cases piece with
  | block => exact shares
  | row first stmts =>
      have inside := marked.2.1 number shares.1 shares.2
      rw [inside] at isMarked
      cases isMarked

end SideBySide

/-- A number inside a shared block has the block of the number in front. -/
theorem shared_same (shared : Shared pieces number) : ∃ front block, front + 1 = number ∧
    (front, block) ∈ mergedCode rt pieces ∧ (number, block) ∈ mergedCode rt pieces := by
  rcases shared with ⟨piece, member, shares⟩
  cases piece with
  | block => cases shares
  | row first stmts =>
      have isHere : ∀ id, first ≤ id → id < first + stmts.length →
          (id, fastBlock (runAll rt stmts) (first + stmts.length)) ∈ mergedCode rt pieces := by
        intro id low high
        apply mem_mergedCode.mpr
        refine ⟨_, member, ?_⟩
        rw [Piece.merged, fastCode_eq]
        exact List.mem_map_of_mem (List.mem_range'_1.mpr ⟨low, high⟩)
      have low := shares.1
      have high := shares.2
      exact ⟨number - 1, _, by omega, isHere _ (by omega) (by omega), isHere _ (by omega) high⟩

end Pieces

end LakeNative.Control

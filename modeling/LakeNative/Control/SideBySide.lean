import LakeNative.Control.SharedBlocks

/-! # Codes side by side

What comes of merged code and of code with one block for each statement is the same, as long as
nothing reads a stale `TEMP_VAL`. Inside a shared block the plain code gets ahead, and the merged
one catches up where the shared block ends.
-/

namespace LakeNative.Control

open LakeNative.Runtime LakeNative.Compiler LakeNative.NumberedCode LakeNative.Transitions

variable {W : Type} {rt : RtFuncs W}

/-! ## Runs -/

/-- How a body may be left for good. -/
inductive Ending (W : Type) where
  | entered (exec : ExecCtx W)
  | trapped

/-- The block of a number runs. Where it leads to a number inside a shared block, what can be
loaded has not changed before that runs. -/
def CalmRuns (rt : RtFuncs W) (shared : Nat → Prop) (block : Block W) (current : Point W) (exit : Exit)
    (next : Point W) : Prop :=
  BlockRuns rt block current exit next ∧
    (shared next.blockId → rt.load next.ctx.world = rt.load current.ctx.world)

/-- A body is looked at where it is not inside a shared block, where it enters a branch and
where it traps. A dying actor is done before it can trap. -/
def bodySight (rt : RtFuncs W) (shared : Nat → Prop) : Sight (Block W) (Point W) (Ending W) where
  number := Point.blockId
  watched number := ¬ shared number
  ends block point
    | .entered exec => block point.ctx = (exec, .enter)
    | .trapped => rt.isDying point.ctx.world = false ∧ (block point.ctx).2 = .trap

theorem blockRuns_fast {op : FastOp W} {id next : Nat} {exec : ExecCtx W} {exit : Exit}
    {point : Point W} :
    BlockRuns rt (fastBlock op next) ⟨id, exec⟩ exit point ↔ ∃ after, op exec = some after ∧
      rt.isDying after.world = false ∧ exit = .goto next ∧ point.blockId = next ∧
      OthersRan (.goto next) after point.ctx := by
  constructor
  · intro runs
    cases runs with
    | @block _ target _ ran resumed exit runs alive resumes others =>
        rw [fastBlock] at runs
        cases isOp : op exec with
        | none =>
            rw [isOp] at runs
            cases runs
            cases resumes
        | some after =>
            rw [isOp] at runs
            cases runs
            cases resumes
            exact ⟨ran, rfl, alive, rfl, rfl, others⟩
  · rintro ⟨after, isOp, alive, rfl, rfl, others⟩
    have runs : fastBlock op point.blockId exec = (after, .goto point.blockId) := by
      rw [fastBlock, isOp]
      rfl
    exact .block runs alive rfl others

/-- Such a block does not leave the branch but in a trap. -/
theorem ends_fastBlock {shared : Nat → Prop} {op : FastOp W} {next : Nat} {point : Point W}
    {ending : Ending W} : (bodySight rt shared).ends (fastBlock op next) point ending ↔
      ending = .trapped ∧ op point.ctx = none ∧ rt.isDying point.ctx.world = false := by
  have block : fastBlock op next point.ctx =
      orTrap point.ctx ((op point.ctx).map fun exec => (exec, .goto next)) := rfl
  constructor
  · intro ends
    cases ending with
    | entered exec =>
        have enters : fastBlock op next point.ctx = (exec, .enter) := ends
        rw [block] at enters
        cases isOp : op point.ctx with
        | none =>
            rw [isOp] at enters
            cases enters
        | some after =>
            rw [isOp] at enters
            cases enters
    | trapped =>
        have traps : rt.isDying point.ctx.world = false ∧ (fastBlock op next point.ctx).2 = .trap := ends
        rw [block] at traps
        cases isOp : op point.ctx with
        | none => exact ⟨rfl, rfl, traps.1⟩
        | some after =>
            rw [isOp] at traps
            cases traps.2
  · rintro ⟨rfl, isOp, alive⟩
    refine ⟨alive, ?_⟩
    rw [block, isOp]
    rfl

/-- The two contexts are the same but for `TEMP_VAL`, and the same where it is known. -/
def Fits (known : Bool) (merged plain : ExecCtx W) : Prop :=
  plain = merged.setTemp plain.actor.tempVal ∧
    (known = true → plain.actor.tempVal = merged.actor.tempVal)

section Blocks

variable {before behind : Bool} {merged plain : Block W} {ran resumed now : ExecCtx W} {left : Word}
  {exit : Exit}

/-- What others do behind one block, they can do behind the other one. -/
theorem fits_forth (others : OthersRan exit ran resumed)
    (known : behind = true → exit.isPark = false → left = ran.actor.tempVal) :
    ∃ now, OthersRan exit (ran.setTemp left) now ∧ Fits behind resumed now := by
  cases parks : exit.isPark with
  | true =>
      refine ⟨resumed, ⟨others.vars, others.ownPid, others.mailboxHead, fun notPark => ?_,
        others.jumpArgs, others.branchId⟩, rfl, fun _ => rfl⟩
      rw [parks] at notPark
      cases notPark
  | false =>
      refine ⟨resumed.setTemp left, ⟨others.vars, others.ownPid, others.mailboxHead, fun _ => rfl,
        others.jumpArgs, others.branchId⟩, rfl, fun isKnown => ?_⟩
      exact (known isKnown parks).trans (others.tempVal parks).symm

theorem fits_back (others : OthersRan exit (ran.setTemp left) now)
    (known : behind = true → exit.isPark = false → left = ran.actor.tempVal) :
    ∃ resumed, OthersRan exit ran resumed ∧ Fits behind resumed now := by
  cases parks : exit.isPark with
  | true =>
      refine ⟨now, ⟨others.vars, others.ownPid, others.mailboxHead, fun notPark => ?_,
        others.jumpArgs, others.branchId⟩, rfl, fun _ => rfl⟩
      rw [parks] at notPark
      cases notPark
  | false =>
      refine ⟨now.setTemp ran.actor.tempVal, ⟨others.vars, others.ownPid, others.mailboxHead,
        fun _ => rfl, others.jumpArgs, others.branchId⟩, rfl, fun isKnown => ?_⟩
      exact (others.tempVal parks).trans (known isKnown parks)

/-- A step of one block is one of the other. -/
theorem carries_forth {current next other : Point W} (carries : Carries before behind merged plain)
    (fits : Fits before current.ctx other.ctx) (runs : BlockRuns rt merged current exit next) :
    ∃ reached, BlockRuns rt plain other exit reached ∧ reached.blockId = next.blockId ∧
      Fits behind next.ctx reached.ctx := by
  cases runs with
  | block isRun alive resumes others =>
      rcases carries _ _ fits.2 with ⟨left, isPlain, known⟩
      rw [← fits.1, isRun] at isPlain
      rw [isRun, resumes] at known
      rcases fits_forth others fun isKnown => known isKnown rfl with ⟨now, othersRan, isFit⟩
      exact ⟨⟨_, now⟩, .block isPlain alive resumes othersRan, rfl, isFit⟩

theorem carries_back {current next other : Point W} (carries : Carries before behind merged plain)
    (fits : Fits before current.ctx other.ctx) (runs : BlockRuns rt plain other exit next) :
    ∃ reached, BlockRuns rt merged current exit reached ∧ reached.blockId = next.blockId ∧
      Fits behind reached.ctx next.ctx := by
  cases runs with
  | block isRun alive resumes others =>
      rcases carries _ _ fits.2 with ⟨left, isPlain, known⟩
      rw [← fits.1] at isPlain
      rcases isMerged : merged current.ctx with ⟨ran, leaves⟩
      have same := isRun.symm.trans isPlain
      rw [isMerged] at same known
      cases same
      rw [resumes] at known
      rcases fits_back others fun isKnown => known isKnown rfl with ⟨now, othersRan, isFit⟩
      exact ⟨⟨_, now⟩, .block isMerged alive resumes othersRan, rfl, isFit⟩

end Blocks

/-! ## Side by side -/

/-- Both codes are at a number that is not inside a shared block. -/
structure Level (marks : Marks) (left right : Point W) : Prop where
  number : right.blockId = left.blockId
  fits : ∃ known, marks left.blockId = some known ∧ Fits known left.ctx right.ctx

/-- The plain code is at a statement of a row, and the merged one at the same or an earlier one. It
comes to the same where it runs what is in front. -/
structure Stands (rt : RtFuncs W) (pieces : List (Piece W)) (first : Nat) (before behind : List Stored)
    (left right : Point W) : Prop where
  member : .row first (before ++ behind) ∈ pieces
  low : first ≤ left.blockId
  high : left.blockId ≤ right.blockId
  number : right.blockId = first + before.length
  reached : ∃ ahead, runAll rt before left.ctx = some ahead ∧ Alike rt ahead right.ctx
  alive : rt.isDying left.ctx.world = false ∨ right.ctx.world = left.ctx.world

section Side

variable {marks : Marks} {pieces : List (Piece W)} {first : Nat} {before behind : List Stored}
  {stmt : Stored} {left right next : Point W} {exit : Exit} {block : Block W}

namespace Stands

/-- The statement's own block. -/
theorem mem_plain (stands : Stands rt pieces first before (stmt :: behind) left right) :
    (right.blockId, fastBlock (stmt.plain rt) (right.blockId + 1)) ∈ plainCode rt pieces := by
  apply mem_plainCode.mpr
  refine ⟨_, stands.member, ?_⟩
  rw [stands.number, Piece.plain, plains_append]
  exact List.mem_append_right _ List.mem_cons_self

theorem mem_merged (stands : Stands rt pieces first before (stmt :: behind) left right) :
    (left.blockId, fastBlock (runAll rt (before ++ stmt :: behind))
      (first + (before ++ stmt :: behind).length)) ∈ mergedCode rt pieces := by
  apply mem_mergedCode.mpr
  refine ⟨_, stands.member, ?_⟩
  rw [Piece.merged, fastCode_eq]
  refine List.mem_map_of_mem (List.mem_range'_1.mpr ⟨stands.low, ?_⟩)
  have high := stands.high
  rw [stands.number] at high
  rw [List.length_append, List.length_cons]
  omega

/-- There is no other block at these numbers. -/
theorem only_plain (side : SideBySide rt marks pieces)
    (stands : Stands rt pieces first before (stmt :: behind) left right)
    (member : (right.blockId, block) ∈ plainCode rt pieces) :
    block = fastBlock (stmt.plain rt) (right.blockId + 1) := by
  rcases mem_plainCode.mp member with ⟨piece, isPiece, inPiece⟩
  rcases mem_plainCode.mp stands.mem_plain with ⟨own, isOwn, inOwn⟩
  rcases piece_unique side.distinct isPiece isOwn (mem_numbers_of_plain inPiece)
    (mem_numbers_of_plain inOwn) with rfl
  have once : (piece.plain rt).map Prod.fst |>.Nodup := by
    rw [piece.numbers_plain]
    exact (List.nodup_flatMap.mp side.distinct).1 piece isPiece
  have same := List.inj_on_of_nodup_map once inPiece inOwn rfl
  exact (Prod.mk.inj same).2

theorem only_merged (side : SideBySide rt marks pieces)
    (stands : Stands rt pieces first before (stmt :: behind) left right)
    (member : (left.blockId, block) ∈ mergedCode rt pieces) :
    block = fastBlock (runAll rt (before ++ stmt :: behind))
      (first + (before ++ stmt :: behind).length) := by
  rcases mem_mergedCode.mp member with ⟨piece, isPiece, inPiece⟩
  rcases mem_mergedCode.mp stands.mem_merged with ⟨own, isOwn, inOwn⟩
  rcases piece_unique side.distinct isPiece isOwn (mem_numbers_of_merged inPiece)
    (mem_numbers_of_merged inOwn) with rfl
  have once : (piece.merged rt).map Prod.fst |>.Nodup := by
    rw [piece.numbers_merged]
    exact (List.nodup_flatMap.mp side.distinct).1 piece isPiece
  have same := List.inj_on_of_nodup_map once inPiece inOwn rfl
  exact (Prod.mk.inj same).2

/-- Behind the first statement of a row the plain code is inside the shared block. -/
theorem shared (stands : Stands rt pieces first (stmt :: before) behind left right)
    (more : behind ≠ []) : Shared pieces right.blockId := by
  refine ⟨_, stands.member, ?_⟩
  have length := List.length_pos_iff.mpr more
  rw [Piece.Shares, stands.number, List.length_append, List.length_cons]
  omega

end Stands

theorem shared_of_before (stands : Stands rt pieces first before behind left right)
    (started : before ≠ []) (more : behind ≠ []) : Shared pieces right.blockId := by
  cases before with
  | nil => exact absurd rfl started
  | cons stmt before => exact stands.shared more

/-- The statement runs, and others do. -/
theorem stands_step (stands : Stands rt pieces first before (stmt :: behind) left right)
    {after : ExecCtx W} (isRun : stmt.plain rt right.ctx = some after)
    (alive : rt.isDying after.world = false) {others : ExecCtx W} (number : Nat)
    (isNext : number = right.blockId + 1) (ran : OthersRan exit after others)
    (calm : rt.load others.world = rt.load right.ctx.world) :
    Stands rt pieces first (before ++ [stmt]) behind left ⟨number, others⟩ := by
  rcases stands.reached with ⟨ahead, isAhead, alike⟩
  rcases alike.run_some isRun with ⟨now, isNow, isAlike, -⟩
  have world := world_of_plain isRun
  have high := stands.high
  have here := stands.number
  constructor
  · rw [List.append_assoc]
    exact stands.member
  · exact stands.low
  · change left.blockId ≤ number
    omega
  · change number = first + (before ++ [stmt]).length
    rw [List.length_append, List.length_singleton]
    omega
  · refine ⟨now, ?_, isAlike.trans_others ran (by rw [calm, world])⟩
    rw [runAll_concat, isAhead]
    exact isNow
  · refine .inl ?_
    rcases stands.alive with isAlive | same
    · exact isAlive
    · rwa [← same, ← world]

/-- Behind the last statement the codes are level. -/
theorem level_behind (side : SideBySide rt marks pieces)
    (stands : Stands rt pieces first before [stmt] left right) {after : ExecCtx W}
    (isRun : stmt.plain rt right.ctx = some after) :
    ∃ joint, runAll rt (before ++ [stmt]) left.ctx = some joint ∧ Alike rt joint after ∧
      ∃ known, marks (first + (before ++ [stmt]).length) = some known ∧
        (known = true → after.actor.tempVal = joint.actor.tempVal) := by
  rcases stands.reached with ⟨ahead, isAhead, alike⟩
  rcases alike.run_some isRun with ⟨joint, isJoint, isAlike, same⟩
  have marked := side.marked _ stands.member
  rcases marked.2.2 before stmt rfl with ⟨known, isMarked, atMost⟩
  refine ⟨joint, ?_, isAlike, known, isMarked, fun isKnown => same ?_⟩
  · rw [runAll_concat, isAhead]
    exact isJoint
  · have unbound := atMost isKnown
    cases binds : stmt.binds with
    | true => rw [binds] at unbound; cases unbound
    | false => rfl

end Side

section Simulation

variable {marks : Marks} {pieces : List (Piece W)} {first : Nat} {before behind : List Stored}
  {stmt : Stored} {left right next : Point W} {exit : Exit} {block : Block W}

/-- At a number that is marked there is a block of its own or the first statement of a row. -/
theorem level_cases (side : SideBySide rt marks pieces) (level : Level marks left right) {piece : Piece W}
    (member : piece ∈ pieces) (inPiece : left.blockId ∈ piece.numbers) :
    (∃ merged plain, piece = .block left.blockId merged plain) ∨
      ∃ first stmt stmts, piece = .row first (stmt :: stmts) ∧
        Stands rt pieces first [] (stmt :: stmts) left right := by
  rcases level.fits with ⟨known, isMarked, fits⟩
  cases piece with
  | block id merged plain =>
      rw [List.mem_singleton.mp inPiece]
      exact .inl ⟨merged, plain, rfl⟩
  | row first stmts =>
      have range := List.mem_range'_1.mp inPiece
      have isFirst : left.blockId = first := by
        by_contra different
        exact side.not_shared isMarked ⟨_, member, by omega, range.2⟩
      cases stmts with
      | nil => exact absurd range.2 (Nat.not_lt_of_le range.1)
      | cons stmt stmts =>
          refine .inr ⟨first, stmt, stmts, rfl, member, Nat.le_of_eq isFirst.symm,
            Nat.le_of_eq level.number.symm, level.number.trans isFirst, ⟨left.ctx, rfl, ?_⟩, .inr ?_⟩
          · rw [fits.1]
            exact .setTemp _ _
          · rw [fits.1]
            rfl

/-! ### What the plain code does -/

/-- Where the plain code has got ahead, it is inside a shared block. -/
def Trails (rt : RtFuncs W) (marks : Marks) (pieces : List (Piece W)) (left right : Point W) : Prop :=
  Level marks left right ∨ ∃ first before stmt behind, before ≠ [] ∧
    Stands rt pieces first before (stmt :: behind) left right

theorem stands_follows (side : SideBySide rt marks pieces)
    (stands : Stands rt pieces first before (stmt :: behind) left right)
    (step : CodeStep Point.blockId (CalmRuns rt (Shared pieces)) (plainCode rt pieces) right exit next) :
    ∃ history reached, Run (CodeStep Point.blockId (BlockRuns rt) (mergedCode rt pieces)) left history
      reached ∧ Trails rt marks pieces reached next := by
  rcases step with ⟨block, member, runs, calm⟩
  rcases stands.only_plain side member with rfl
  rcases blockRuns_fast.mp runs with ⟨after, isRun, alive, -, isNext, others⟩
  cases behind with
  | nil =>
      -- The merged code does the whole row.
      rcases level_behind side stands isRun with ⟨joint, isJoint, alike, known, isMarked, same⟩
      have number : next.blockId = first + (before ++ [stmt]).length := by
        rw [isNext, stands.number, List.length_append]
        rfl
      have isAlive : rt.isDying joint.world = false := by
        rw [world_of_runAll isJoint]
        rcases stands.alive with isAlive | sameWorld
        · exact isAlive
        · rwa [← sameWorld, ← world_of_plain isRun]
      refine ⟨_, ⟨next.blockId, next.ctx.setTemp joint.actor.tempVal⟩,
        .next .refl ⟨_, stands.mem_merged, blockRuns_fast.mpr
          ⟨joint, isJoint, isAlive, rfl, number, alike.others others⟩⟩,
        .inl ⟨rfl, known, ?_, rfl, fun isKnown => ?_⟩⟩
      · rw [← isMarked, number]
      · exact (others.tempVal rfl).trans (same isKnown)
  | cons second behind =>
      -- The merged code waits.
      have stop : Shared pieces next.blockId := by
        refine ⟨_, stands.member, ?_⟩
        have number := stands.number
        rw [Piece.Shares, isNext, List.length_append, List.length_cons, List.length_cons]
        omega
      have ahead := stands_step stands isRun alive next.blockId isNext others (calm stop)
      exact ⟨[], left, .refl, .inr ⟨first, before ++ [stmt], second, behind,
        List.append_ne_nil_of_right_ne_nil _ (List.cons_ne_nil _ _), ahead⟩⟩

/-- The merged code follows the plain one. -/
theorem merged_follows (side : SideBySide rt marks pieces) (trails : Trails rt marks pieces left right)
    (step : CodeStep Point.blockId (CalmRuns rt (Shared pieces)) (plainCode rt pieces) right exit next) :
    ∃ history reached, Run (CodeStep Point.blockId (BlockRuns rt) (mergedCode rt pieces)) left history
      reached ∧ Trails rt marks pieces reached next := by
  rcases trails with level | ⟨first, before, stmt, behind, -, stands⟩
  · have taken := step
    rcases step with ⟨block, member, runs, calm⟩
    rcases mem_plainCode.mp member with ⟨piece, isPiece, inPiece⟩
    have inNumbers := mem_numbers_of_plain inPiece
    rw [level.number] at inNumbers
    rcases level_cases side level isPiece inNumbers with ⟨merged, plain, rfl⟩ | ⟨first, stmt, stmts, -, stands⟩
    · rcases side.marked _ isPiece with ⟨before, behind, isMarked, carries, leads⟩
      rcases level.fits with ⟨known, isKnown, fits⟩
      rcases isKnown.symm.trans isMarked
      have isPlain : block = plain := (Prod.mk.inj (List.mem_singleton.mp inPiece)).2
      rw [isPlain] at runs
      rcases carries_back carries fits runs with ⟨reached, isRun, isNumber, isFit⟩
      rcases leads _ (leads_of_blockRuns _ _ _ _ isRun) with ⟨here, isHere, atMost⟩
      exact ⟨_, reached,
        .next .refl ⟨_, mem_mergedCode.mpr ⟨_, isPiece, List.mem_singleton_self _⟩, isRun⟩,
        .inl ⟨isNumber.symm, here, isHere, isFit.1, fun known => isFit.2 (atMost known)⟩⟩
    · exact stands_follows side stands taken
  · exact stands_follows side stands step

/-- The same is seen of both codes, but for `TEMP_VAL`. -/
inductive Sees (related : Point W → Point W → Prop) :
    Point W ⊕ Ending W → Point W ⊕ Ending W → Prop
  | here {point other} (isRelated : related point other) : Sees related (.inl point) (.inl other)
  | entered {exec word} :
      Sees related (.inr (.entered exec)) (.inr (.entered (exec.setTemp word)))
  | trapped : Sees related (.inr .trapped) (.inr .trapped)

theorem Sees.mono {related other : Point W → Point W → Prop} {seen also : Point W ⊕ Ending W}
    (sees : Sees related seen also) (isOther : ∀ point state, related point state → other point state) :
    Sees other seen also := by
  cases sees with
  | here isRelated => exact .here (isOther _ _ isRelated)
  | entered => exact .entered
  | trapped => exact .trapped

/-- Blocks that carry the same leave the branch in the same way. -/
theorem ends_back {known behind : Bool} {merged plain : Block W} (carries : Carries known behind merged plain)
    (fits : Fits known left.ctx right.ctx) {shared : Nat → Prop} {ending : Ending W}
    (ends : (bodySight rt shared).ends plain right ending) :
    ∃ seen, Sees (Level marks) (.inr seen) (.inr ending) ∧ (bodySight rt shared).ends merged left seen := by
  rcases carries left.ctx right.ctx.actor.tempVal fits.2 with ⟨word, isPlain, -⟩
  rw [← fits.1] at isPlain
  cases ending with
  | entered exec =>
      have enters : plain right.ctx = (exec, .enter) := ends
      rcases isMerged : merged left.ctx with ⟨ran, leaves⟩
      rw [isMerged, enters] at isPlain
      cases isPlain
      exact ⟨.entered ran, .entered, isMerged⟩
  | trapped =>
      refine ⟨.trapped, .trapped, ?_, ?_⟩
      · have alive := ends.1
        rw [fits.1] at alive
        exact alive
      · have traps := ends.2
        rw [isPlain] at traps
        exact traps

theorem ends_forth {known behind : Bool} {merged plain : Block W}
    (carries : Carries known behind merged plain) (fits : Fits known left.ctx right.ctx)
    {shared : Nat → Prop} {ending : Ending W} (ends : (bodySight rt shared).ends merged left ending) :
    ∃ seen, Sees (Level marks) (.inr ending) (.inr seen) ∧ (bodySight rt shared).ends plain right seen := by
  rcases carries left.ctx right.ctx.actor.tempVal fits.2 with ⟨word, isPlain, -⟩
  rw [← fits.1] at isPlain
  cases ending with
  | entered exec =>
      have enters : merged left.ctx = (exec, .enter) := ends
      rw [enters] at isPlain
      exact ⟨.entered (exec.setTemp word), .entered, isPlain⟩
  | trapped =>
      refine ⟨.trapped, .trapped, ?_, ?_⟩
      · rw [fits.1]
        exact ends.1
      · rw [isPlain]
        exact ends.2

/-- A statement that traps does so in the shared block. -/
theorem stands_shows (side : SideBySide rt marks pieces)
    (stands : Stands rt pieces first before (stmt :: behind) left right) {ending : Ending W}
    (member : (right.blockId, block) ∈ plainCode rt pieces)
    (ends : (bodySight rt (Shared pieces)).ends block right ending) :
    ∃ seen, Sees (Level marks) (.inr seen) (.inr ending) ∧
      (bodySight rt (Shared pieces)).Shows (mergedCode rt pieces) left (.inr seen) := by
  rcases stands.only_plain side member with rfl
  rcases ends_fastBlock.mp ends with ⟨rfl, isNone, alive⟩
  rcases stands.reached with ⟨ahead, isAhead, alike⟩
  refine ⟨.trapped, .trapped, .ending stands.mem_merged (ends_fastBlock.mpr ⟨rfl, ?_, ?_⟩)⟩
  · rw [runAll_append, isAhead, Option.bind_some, runAll_cons, alike.plain_none.mp isNone]
    rfl
  · rcases stands.alive with isAlive | same
    · exact isAlive
    · rwa [← same]

/-- What the plain code shows, the merged one shows. -/
theorem merged_shows (side : SideBySide rt marks pieces) (trails : Trails rt marks pieces left right)
    {outcome : Point W ⊕ Ending W}
    (shows : (bodySight rt (Shared pieces)).Shows (plainCode rt pieces) right outcome) :
    ∃ seen, Sees (Level marks) seen outcome ∧
      (bodySight rt (Shared pieces)).Shows (mergedCode rt pieces) left seen := by
  cases shows with
  | here seen =>
      rcases trails with level | ⟨first, before, stmt, behind, started, stands⟩
      · refine ⟨.inl left, .here level, .here ?_⟩
        have notShared : ¬ Shared pieces right.blockId := seen
        rwa [level.number] at notShared
      · exact absurd (shared_of_before stands started (List.cons_ne_nil _ _)) seen
  | ending member isEnding =>
      rcases trails with level | ⟨first, before, stmt, behind, -, stands⟩
      · rcases mem_plainCode.mp member with ⟨piece, isPiece, inPiece⟩
        have inNumbers : right.blockId ∈ piece.numbers := mem_numbers_of_plain inPiece
        rw [level.number] at inNumbers
        rcases level_cases side level isPiece inNumbers with ⟨merged, plain, rfl⟩ | ⟨first, stmt, stmts, -, stands⟩
        · rcases side.marked _ isPiece with ⟨before, behind, isMarked, carries, -⟩
          rcases level.fits with ⟨known, isKnown, fits⟩
          rcases isKnown.symm.trans isMarked
          rw [(Prod.mk.inj (List.mem_singleton.mp inPiece)).2] at isEnding
          rcases ends_back carries fits isEnding with ⟨seen, same, ends⟩
          exact ⟨_, same, .ending (mem_mergedCode.mpr ⟨_, isPiece, List.mem_singleton_self _⟩) ends⟩
        · rcases stands_shows side stands member isEnding with ⟨seen, same, shows⟩
          exact ⟨_, same, shows⟩
      · rcases stands_shows side stands member isEnding with ⟨seen, same, shows⟩
        exact ⟨_, same, shows⟩

/-! ### What the merged code does -/

/-- Both codes are at one place, or the merged one is entered inside a shared block in the very
state of the plain one. -/
def Enters (rt : RtFuncs W) (marks : Marks) (pieces : List (Piece W)) (left right : Point W) : Prop :=
  Level marks left right ∨ left = right ∧ ∃ first before stmt behind, before ≠ [] ∧
    Stands rt pieces first before (stmt :: behind) left right

/-- The plain code goes on in the row without a break. -/
theorem row_step (stands : Stands rt pieces first before (stmt :: behind) left right)
    (world : right.ctx.world = left.ctx.world) (alive : rt.isDying left.ctx.world = false)
    {after : ExecCtx W} (isRun : stmt.plain rt right.ctx = some after) :
    ∃ next, CodeStep Point.blockId (CalmRuns rt (Shared pieces)) (plainCode rt pieces) right
        (.goto (right.blockId + 1)) next ∧ next.ctx.world = left.ctx.world ∧
      Stands rt pieces first (before ++ [stmt]) behind left next := by
  have sameWorld := (world_of_plain isRun).trans world
  have isAlive : rt.isDying after.world = false := by
    rw [sameWorld]
    exact alive
  have calm : rt.load after.world = rt.load right.ctx.world := by
    rw [world_of_plain isRun]
  have others : OthersRan (.goto (right.blockId + 1)) after after := .refl _ _
  exact ⟨⟨right.blockId + 1, after⟩, ⟨_, stands.mem_plain,
      blockRuns_fast.mpr ⟨after, isRun, isAlive, rfl, rfl, others⟩, fun _ => calm⟩, sameWorld,
    stands_step stands isRun isAlive _ rfl others calm⟩

/-- It does the rest of the row. -/
theorem row_runs (side : SideBySide rt marks pieces)
    (stands : Stands rt pieces first before (stmt :: behind) left right)
    (world : right.ctx.world = left.ctx.world) (alive : rt.isDying left.ctx.world = false)
    {joint resumed : ExecCtx W} {stop : Nat}
    (runs : runAll rt (before ++ stmt :: behind) left.ctx = some joint)
    (others : OthersRan (.goto stop) joint resumed) :
    ∃ history reached, Run (CodeStep Point.blockId (CalmRuns rt (Shared pieces)) (plainCode rt pieces))
      right history reached ∧
      Level marks ⟨first + (before ++ stmt :: behind).length, resumed⟩ reached := by
  induction behind generalizing before stmt right with
  | nil =>
      rcases stands.reached with ⟨ahead, isAhead, alike⟩
      rw [runAll_concat, isAhead] at runs
      rcases alike.plain_some runs with ⟨after, isRun, -, -⟩
      rcases level_behind side stands isRun with ⟨again, isJoint, isAlike, known, isMarked, same⟩
      rw [runAll_concat, isAhead, Option.bind_some] at isJoint
      rcases Option.some.inj (isJoint.symm.trans runs)
      have number : first + (before ++ [stmt]).length = right.blockId + 1 := by
        rw [stands.number, List.length_append]
        rfl
      have isAlive : rt.isDying after.world = false := by
        rw [world_of_plain isRun, world]
        exact alive
      refine ⟨_, ⟨first + (before ++ [stmt]).length, resumed.setTemp after.actor.tempVal⟩,
        .next .refl ⟨_, stands.mem_plain, blockRuns_fast.mpr
            ⟨after, isRun, isAlive, rfl, number, isAlike.others_right others⟩,
          fun shared => absurd shared (side.not_shared isMarked)⟩,
        rfl, known, isMarked, rfl, fun isKnown => ?_⟩
      exact (same isKnown).trans (others.tempVal rfl).symm
  | cons second behind induction =>
      rcases stands.reached with ⟨ahead, isAhead, alike⟩
      have isSome := runs
      rw [runAll_append, isAhead, Option.bind_some, runAll_cons] at isSome
      rcases bind_some isSome with ⟨one, isOne, -⟩
      rcases alike.plain_some isOne with ⟨after, isRun, -, -⟩
      rcases row_step stands world alive isRun with ⟨next, taken, sameWorld, ahead⟩
      rw [List.append_cons] at runs ⊢
      rcases induction ahead sameWorld runs with ⟨history, reached, run, level⟩
      exact ⟨_, reached, (Run.refl.next taken).append run, level⟩

/-- It traps where the shared block does. -/
theorem row_traps (stands : Stands rt pieces first before (stmt :: behind) left right)
    (world : right.ctx.world = left.ctx.world) (alive : rt.isDying left.ctx.world = false)
    (traps : runAll rt (before ++ stmt :: behind) left.ctx = none) :
    (bodySight rt (Shared pieces)).Comes (CalmRuns rt (Shared pieces)) (plainCode rt pieces) right
      (.inr .trapped) := by
  induction behind generalizing before stmt right with
  | nil =>
      rcases stands.reached with ⟨ahead, isAhead, alike⟩
      rw [runAll_concat, isAhead] at traps
      apply Sight.Shows.comes
      refine .ending stands.mem_plain (ends_fastBlock.mpr ⟨rfl, alike.plain_none.mpr traps, ?_⟩)
      rwa [world]
  | cons second behind induction =>
      cases isRun : stmt.plain rt right.ctx with
      | none =>
          apply Sight.Shows.comes
          refine .ending stands.mem_plain (ends_fastBlock.mpr ⟨rfl, isRun, ?_⟩)
          rwa [world]
      | some after =>
          rcases row_step stands world alive isRun with ⟨next, taken, sameWorld, ahead⟩
          rw [List.append_cons] at traps
          exact (induction ahead sameWorld traps).step taken

/-- The plain code follows the shared block. -/
theorem stands_entered (side : SideBySide rt marks pieces)
    (stands : Stands rt pieces first before (stmt :: behind) left right)
    (world : right.ctx.world = left.ctx.world)
    (step : CodeStep Point.blockId (BlockRuns rt) (mergedCode rt pieces) left exit next) :
    ∃ history reached, Run (CodeStep Point.blockId (CalmRuns rt (Shared pieces)) (plainCode rt pieces))
      right history reached ∧ Level marks next reached := by
  rcases step with ⟨block, member, runs⟩
  rcases stands.only_merged side member with rfl
  rcases blockRuns_fast.mp runs with ⟨joint, isJoint, alive, -, isNext, others⟩
  rw [world_of_runAll isJoint] at alive
  rcases row_runs side stands world alive isJoint others with ⟨history, reached, run, level⟩
  rw [← isNext] at level
  exact ⟨history, reached, run, level⟩

/-- The plain code follows the merged one. -/
theorem plain_follows (side : SideBySide rt marks pieces) (enters : Enters rt marks pieces left right)
    (step : CodeStep Point.blockId (BlockRuns rt) (mergedCode rt pieces) left exit next) :
    ∃ history reached, Run (CodeStep Point.blockId (CalmRuns rt (Shared pieces)) (plainCode rt pieces))
      right history reached ∧ Enters rt marks pieces next reached := by
  rcases enters with level | ⟨rfl, first, before, stmt, behind, -, stands⟩
  · have taken := step
    rcases step with ⟨block, member, runs⟩
    rcases mem_mergedCode.mp member with ⟨piece, isPiece, inPiece⟩
    rcases level_cases side level isPiece (mem_numbers_of_merged inPiece) with
      ⟨merged, plain, rfl⟩ | ⟨first, stmt, stmts, -, stands⟩
    · rcases side.marked _ isPiece with ⟨before, behind, isMarked, carries, leads⟩
      rcases level.fits with ⟨known, isKnown, fits⟩
      rcases isKnown.symm.trans isMarked
      have isMerged : block = merged := (Prod.mk.inj (List.mem_singleton.mp inPiece)).2
      rw [isMerged] at runs
      rcases carries_forth carries fits runs with ⟨reached, isRun, isNumber, isFit⟩
      rcases leads _ (leads_of_blockRuns _ _ _ _ runs) with ⟨here, isHere, atMost⟩
      have here' : ¬ Shared pieces reached.blockId := by
        rw [isNumber]
        exact side.not_shared isHere
      have isBlock : (right.blockId, plain) ∈ plainCode rt pieces := by
        rw [level.number]
        exact mem_plainCode.mpr ⟨_, isPiece, List.mem_singleton_self _⟩
      exact ⟨_, reached, .next .refl ⟨_, isBlock, isRun, fun shared => absurd shared here'⟩,
        .inl ⟨isNumber, here, isHere, isFit.1, fun known => isFit.2 (atMost known)⟩⟩
    · rcases level.fits with ⟨known, -, fits⟩
      have world : right.ctx.world = left.ctx.world := by rw [fits.1]; rfl
      rcases stands_entered side stands world taken with ⟨history, reached, run, level⟩
      exact ⟨history, reached, run, .inl level⟩
  · rcases stands_entered side stands rfl step with ⟨history, reached, run, level⟩
    exact ⟨history, reached, run, .inl level⟩

theorem stands_comes (side : SideBySide rt marks pieces)
    (stands : Stands rt pieces first before (stmt :: behind) left right)
    (world : right.ctx.world = left.ctx.world) {ending : Ending W}
    (member : (left.blockId, block) ∈ mergedCode rt pieces)
    (ends : (bodySight rt (Shared pieces)).ends block left ending) :
    ∃ seen, Sees (Level marks) (.inr ending) (.inr seen) ∧
      (bodySight rt (Shared pieces)).Comes (CalmRuns rt (Shared pieces)) (plainCode rt pieces) right
        (.inr seen) := by
  rcases stands.only_merged side member with rfl
  rcases ends_fastBlock.mp ends with ⟨rfl, isNone, alive⟩
  exact ⟨.trapped, .trapped, row_traps stands world alive isNone⟩

/-- What the merged code shows, the plain one comes to. -/
theorem plain_shows (side : SideBySide rt marks pieces) (enters : Enters rt marks pieces left right)
    {outcome : Point W ⊕ Ending W}
    (shows : (bodySight rt (Shared pieces)).Shows (mergedCode rt pieces) left outcome) :
    ∃ seen, Sees (Level marks) outcome seen ∧
      (bodySight rt (Shared pieces)).Comes (CalmRuns rt (Shared pieces)) (plainCode rt pieces) right
        seen := by
  cases shows with
  | here seen =>
      rcases enters with level | ⟨rfl, first, before, stmt, behind, started, stands⟩
      · refine ⟨.inl right, .here level, Sight.Shows.comes (.here ?_)⟩
        change ¬ Shared pieces right.blockId
        rw [level.number]
        exact seen
      · exact absurd (shared_of_before stands started (List.cons_ne_nil _ _)) seen
  | ending member isEnding =>
      rcases enters with level | ⟨rfl, first, before, stmt, behind, -, stands⟩
      · rcases mem_mergedCode.mp member with ⟨piece, isPiece, inPiece⟩
        have inNumbers : left.blockId ∈ piece.numbers := mem_numbers_of_merged inPiece
        rcases level.fits with ⟨known, isKnown, fits⟩
        rcases level_cases side level isPiece inNumbers with ⟨merged, plain, rfl⟩ | ⟨first, stmt, stmts, -, stands⟩
        · rcases side.marked _ isPiece with ⟨before, behind, isMarked, carries, -⟩
          rcases isKnown.symm.trans isMarked
          rw [(Prod.mk.inj (List.mem_singleton.mp inPiece)).2] at isEnding
          rcases ends_forth carries fits isEnding with ⟨seen, same, ends⟩
          have isBlock : (right.blockId, plain) ∈ plainCode rt pieces := by
            rw [level.number]
            exact mem_plainCode.mpr ⟨_, isPiece, List.mem_singleton_self _⟩
          exact ⟨_, same, Sight.Shows.comes (.ending isBlock ends)⟩
        · have world : right.ctx.world = left.ctx.world := by rw [fits.1]; rfl
          rcases stands_comes side stands world member isEnding with ⟨seen, same, comes⟩
          exact ⟨_, same, comes⟩
      · rcases stands_comes side stands rfl member isEnding with ⟨seen, same, comes⟩
        exact ⟨_, same, comes⟩

/-! ### Where the plain code has come to -/

/-- A row splits at each of its numbers. -/
theorem row_split {stmts : List Stored} {number : Nat} (low : first ≤ number)
    (high : number < first + stmts.length) :
    ∃ before stmt behind, stmts = before ++ stmt :: behind ∧ number = first + before.length := by
  have bound : number - first < stmts.length := by omega
  refine ⟨stmts.take (number - first), stmts[number - first], stmts.drop (number - first + 1), ?_, ?_⟩
  · rw [← List.drop_eq_getElem_cons bound, List.take_append_drop]
  · rw [List.length_take]
    omega

/-- The statements in front of a place in a row have been run. -/
structure Kept (rt : RtFuncs W) (marks : Marks) (pieces : List (Piece W)) (point : Point W) : Prop where
  placed : (∃ known, marks point.blockId = some known) ∨ Shared pieces point.blockId
  held : ∀ first before stmt behind, .row first (before ++ stmt :: behind) ∈ pieces →
    point.blockId = first + before.length → ∀ earlier ∈ before, Held rt earlier point.ctx

/-- Nothing is in front of a marked number. -/
theorem kept_of_marked (side : SideBySide rt marks pieces) {point : Point W} {known : Bool}
    (isMarked : marks point.blockId = some known) : Kept rt marks pieces point where
  placed := .inl ⟨known, isMarked⟩
  held first before stmt behind member number earlier isEarlier := by
    have length := List.length_pos_iff.mpr (List.ne_nil_of_mem isEarlier)
    refine absurd ⟨_, member, ?_⟩ (side.not_shared isMarked)
    rw [Piece.Shares, number, List.length_append, List.length_cons]
    omega

theorem kept_step (side : SideBySide rt marks pieces) (kept : Kept rt marks pieces right)
    (step : CodeStep Point.blockId (CalmRuns rt (Shared pieces)) (plainCode rt pieces) right exit next) :
    Kept rt marks pieces next := by
  rcases step with ⟨block, member, runs, calm⟩
  rcases mem_plainCode.mp member with ⟨piece, isPiece, inPiece⟩
  cases piece with
  | block id merged plain =>
      rcases side.marked _ isPiece with ⟨known, behind, isMarked, carries, leads⟩
      rw [(Prod.mk.inj (List.mem_singleton.mp inPiece)).2] at runs
      rcases carries_back carries ⟨rfl, fun _ => rfl⟩ runs with ⟨reached, isRun, isNumber, -⟩
      rcases leads _ (leads_of_blockRuns _ _ _ _ isRun) with ⟨here, isHere, -⟩
      rw [isNumber] at isHere
      exact kept_of_marked side isHere
  | row first stmts =>
      have range := List.mem_range'_1.mp (mem_numbers_of_plain inPiece)
      rcases row_split range.1 range.2 with ⟨before, stmt, behind, rfl, number⟩
      have isHeld := kept.held first before stmt behind isPiece number
      have stands : Stands rt pieces first before (stmt :: behind) right right := by
        rcases runAll_held isHeld with ⟨word, isAhead⟩
        exact ⟨isPiece, range.1, Nat.le_refl _, number, ⟨_, isAhead, rfl, rfl, rfl, rfl, rfl, rfl⟩, .inr rfl⟩
      rcases stands.only_plain side member with rfl
      rcases blockRuns_fast.mp runs with ⟨after, isRun, -, -, isNext, others⟩
      cases behind with
      | nil =>
          rcases level_behind side stands isRun with ⟨-, -, -, known, isMarked, -⟩
          apply kept_of_marked side
          rw [isNext, number, Nat.add_assoc]
          rw [List.length_append] at isMarked
          exact isMarked
      | cons second behind =>
          have shared : Shared pieces next.blockId := by
            refine ⟨_, isPiece, ?_⟩
            rw [Piece.Shares, isNext, List.length_append, List.length_cons, List.length_cons]
            omega
          refine ⟨.inr shared, ?_⟩
          intro other front mark rest isOther isNumber earlier isEarlier
          have inRow : next.blockId ∈ (Piece.row first (before ++ stmt :: second :: behind) : Piece W).numbers := by
            apply List.mem_range'_1.mpr
            rw [isNext, List.length_append, List.length_cons, List.length_cons]
            omega
          have inOther : next.blockId ∈ (Piece.row other (front ++ mark :: rest) : Piece W).numbers := by
            apply List.mem_range'_1.mpr
            rw [isNumber, List.length_append, List.length_cons]
            omega
          have same := piece_unique side.distinct isPiece isOther inRow inOther
          have sameFirst : first = other := (Piece.row.inj same).1
          have sameRow : (before ++ [stmt]) ++ second :: behind = front ++ mark :: rest := by
            rw [List.append_assoc]
            exact (Piece.row.inj same).2
          have length : (before ++ [stmt]).length = front.length := by
            rw [List.length_append, List.length_singleton]
            omega
          rcases (List.append_inj sameRow length).1 with rfl
          have sorted := (side.marked _ isPiece).1
          have load : rt.load next.ctx.world = rt.load after.world := by
            rw [calm shared, world_of_plain isRun]
          exact held_concat isHeld (fun earlier member => (List.pairwise_append.mp sorted).2.2 earlier member
            stmt List.mem_cons_self) isRun others load earlier isEarlier

/-- Wherever the plain code has come to, the merged one can be entered in the same state. -/
theorem enters_reached (side : SideBySide rt marks pieces) {start reached : Point W} {known : Bool}
    (isMarked : marks start.blockId = some known) {history : List (Stage (Point W) Exit)}
    (run : Run (CodeStep Point.blockId (CalmRuns rt (Shared pieces)) (plainCode rt pieces)) start history
      reached) : Enters rt marks pieces reached reached := by
  have kept : Kept rt marks pieces reached :=
    (run.invariant (kept_of_marked side isMarked) fun _ _ _ kept step => kept_step side kept step).2
  rcases kept.placed with ⟨known, isMarked⟩ | ⟨piece, member, shares⟩
  · exact .inl ⟨rfl, known, isMarked, rfl, fun _ => rfl⟩
  · cases piece with
    | block => cases shares
    | row first stmts =>
        rcases row_split (Nat.le_of_lt shares.1) shares.2 with ⟨before, stmt, behind, rfl, number⟩
        have started : before ≠ [] := by
          rintro rfl
          exact absurd number (Nat.ne_of_gt shares.1)
        rcases runAll_held (kept.held first before stmt behind member number) with ⟨word, isAhead⟩
        exact .inr ⟨rfl, first, before, stmt, behind, started, member, Nat.le_of_lt shares.1,
          Nat.le_refl _, number, ⟨_, isAhead, rfl, rfl, rfl, rfl, rfl, rfl⟩, .inr rfl⟩

/-- Wherever the plain code has come to, and the merged one is entered there, both come to the same. -/
theorem both_come (side : SideBySide rt marks pieces) {start reached : Point W} {known : Bool}
    (isMarked : marks start.blockId = some known) {history : List (Stage (Point W) Exit)}
    (run : Run (CodeStep Point.blockId (CalmRuns rt (Shared pieces)) (plainCode rt pieces)) start history
      reached) :
    (∀ outcome, (bodySight rt (Shared pieces)).Comes (BlockRuns rt) (mergedCode rt pieces) reached outcome →
      ∃ seen, Sees (Level marks) outcome seen ∧
        (bodySight rt (Shared pieces)).Comes (CalmRuns rt (Shared pieces)) (plainCode rt pieces) reached
          seen) ∧
    ∀ outcome, (bodySight rt (Shared pieces)).Comes (CalmRuns rt (Shared pieces)) (plainCode rt pieces)
        reached outcome →
      ∃ seen, Sees (Level marks) seen outcome ∧
        (bodySight rt (Shared pieces)).Comes (BlockRuns rt) (mergedCode rt pieces) reached seen := by
  have enters := enters_reached side isMarked run
  constructor
  · intro outcome comes
    exact comes.simulated (fun _ _ _ related shows => plain_shows side related shows)
      (fun _ _ _ _ related step => plain_follows side related step) enters
  · intro outcome comes
    have trails : Trails rt marks pieces reached reached := enters.imp_right And.right
    let related : Point W → Point W → Prop := fun plain merged => Trails rt marks pieces merged plain
    let same : Point W ⊕ Ending W → Point W ⊕ Ending W → Prop := fun plain merged =>
      Sees (Level marks) merged plain
    have shows : ∀ current state outcome, related current state →
        (bodySight rt (Shared pieces)).Shows (plainCode rt pieces) current outcome →
        ∃ seen, same outcome seen ∧
          (bodySight rt (Shared pieces)).Comes (BlockRuns rt) (mergedCode rt pieces) state seen := by
      intro current state outcome trails shows
      rcases merged_shows side trails shows with ⟨seen, same, isSeen⟩
      exact ⟨seen, same, isSeen.comes⟩
    exact comes.simulated shows (fun _ _ _ _ trails step => merged_follows side trails step) trails

end Simulation

end LakeNative.Control

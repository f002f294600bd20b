import LakeNative.Arenas.CopiedArguments
import LakeNative.Control.FusedSelf

/-! # `self(...)` between branches with string literals

The branch of a `self(...)` is chosen by the bytes of an argument when the arena has been reset
and the copies made. Where the copy is looked at, they are those of the call; where the old pointer
is, they are as long as no copy lies there.
-/

namespace LakeNative.Control

open LakeNative.Runtime LakeNative.Compiler LakeNative.Arenas LakeNative.Regions LakeNative.DenseArray

/-! ## What selections read -/

/-- A selection among strings reads the bytes of one argument. -/
theorem selectBranch_bytes {switch : Switch} {candidates : List BranchInfo}
    {select : Memory → (Nat → Word) → Nat} (selected : selectBranch switch candidates = some select)
    (several : 1 < candidates.length) (guards : guardKind candidates = some .str)
    {memory other : Memory} {args others : Nat → Word}
    (same : other (others (findBestGuardPos candidates)) = memory (args (findBestGuardPos candidates))) :
    select other others = select memory args := by
  match candidates with
  | [] => cases selected
  | [only] => exact absurd several (Nat.lt_irrefl 1)
  | first :: second :: candidates =>
      rcases Option.map_eq_some_iff.mp selected with ⟨choose, isChoice, rfl⟩
      rw [emitGuardSelect, guards] at isChoice
      dsimp only at isChoice
      rw [emitStrGuardSelect] at isChoice
      split at isChoice
      · cases isChoice
      · split at isChoice
        · cases isChoice
        · rcases Option.map_eq_some_iff.mp isChoice with ⟨mphf, -, rfl⟩
          dsimp only
          rw [strSelect, strSelect, same]

/-! ## Bytes in memory -/

/-- Bytes as a string has them. -/
def textOf (content : List Nat) : List UInt8 := content.map UInt8.ofNat

section Text

variable {others : RtFuncs ActorHeap} {heap : ActorHeap} {addr : Word} {start stop : Nat}

theorem load_word (others : RtFuncs ActorHeap) (heap : ActorHeap) (addr : Word) :
    (arenaRt others).load heap 64 addr = BitVec.ofNat 64 (heap.mem.word addr.toNat) := rfl

theorem load_byte (others : RtFuncs ActorHeap) (heap : ActorHeap) (addr : Word) :
    UInt8.ofNat ((arenaRt others).load heap 8 addr).toNat = UInt8.ofNat (heap.mem.bytes addr.toNat) := by
  have loaded : (heap.mem.loadBytes addr.toNat 1).1 = heap.mem.bytes addr.toNat := by
    rw [(loadBytes_eq heap.mem 1 addr.isLt).1]
    simp
  have isLoad : (arenaRt others).load heap 8 addr =
      BitVec.ofNat 64 (heap.mem.loadBytes addr.toNat 1).1 := rfl
  rw [isLoad, loaded, BitVec.toNat_ofNat]
  apply UInt8.toNat_inj.mp
  rw [UInt8.toNat_ofNat', UInt8.toNat_ofNat']
  omega

theorem recopy_arenaRt (others : RtFuncs ActorHeap) (heap : ActorHeap) (args : List Word) :
    (arenaRt others).recopy args heap =
      ((heap.recopy (args.map BitVec.toNat)).1.map (BitVec.ofNat 64),
        (heap.recopy (args.map BitVec.toNat)).2) := rfl

/-- What is read through the fat pointer of a live buffer. -/
theorem bytes_live (live : Live heap.mem addr.toNat start stop) :
    (arenaRt others).bytes heap addr = textOf (Arenas.bytesAt heap.mem.bytes start (stop - start)) := by
  have inHalf := live.inHalf
  have ordered := live.ordered
  have below := live.below
  have second : (addr + 8).toNat = addr.toNat + 8 := by
    rw [BitVec.toNat_add]
    exact Nat.mod_eq_of_lt (by simp; omega)
  have length : (BitVec.ofNat 64 stop - BitVec.ofNat 64 start).toNat = stop - start := by
    simp
    omega
  have first : (BitVec.ofNat 64 start).toNat = start := by
    rw [BitVec.toNat_ofNat]
    omega
  rw [RtFuncs.bytes, load_word, load_word, second, live.starts, live.stops, length, textOf, Arenas.bytesAt,
    cellsFrom, List.map_map, List.map_map, List.range'_eq_map_range, List.map_map]
  apply List.map_congr_left
  intro index inRange
  have within := List.mem_range.mp inRange
  have address : (BitVec.ofNat 64 start + BitVec.ofNat 64 index).toNat = start + index := by
    rw [BitVec.toNat_add, first, BitVec.toNat_ofNat]
    omega
  rw [load_byte, address]
  apply UInt8.toNat_inj.mp
  simp

/-- What is read through a fat pointer that ends behind the bytes it holds. -/
theorem bytes_holds {mem : ByteMem} {first arg : Nat}
    (holds : Holds heap.mem first (contentAt mem arg) start stop)
    (exact : stop = start + (contentAt mem arg).length) :
    (arenaRt others).bytes heap (BitVec.ofNat 64 first) = textOf (contentAt mem arg) := by
  have inHalf := holds.live.inHalf
  have isAddress : (BitVec.ofNat 64 first).toNat = first := by
    rw [BitVec.toNat_ofNat]
    omega
  have live : Live heap.mem (BitVec.ofNat 64 first).toNat start stop := by
    rw [isAddress]
    exact holds.live
  have size : stop - start = (contentAt mem arg).length := by omega
  have small : (contentAt mem arg).map (· % 256) = contentAt mem arg := map_mod (bytesAt_lt _ _ _)
  rw [bytes_live live, size, Arenas.bytesAt, holds.content, small]

end Text

/-! ## Copies by position -/

/-- The copy of a value is found under the value's position. -/
theorem lookup_copy {α β : Type} {related : α → β → Prop} {pairs : List (α × Nat)} {copies : List β}
    (areCopies : List.Forall₂ related (pairs.map Prod.fst) copies) (once : (pairs.map Prod.snd).Nodup)
    {value : α} {pos : Nat} (member : (value, pos) ∈ pairs) :
    ∃ copy, ((pairs.map Prod.snd).zip copies).lookup pos = some copy ∧ related value copy := by
  induction pairs generalizing copies with
  | nil => cases member
  | cons pair pairs induction =>
      rcases List.forall₂_cons_left_iff.mp areCopies with ⟨copy, others, isCopy, rest, rfl⟩
      rw [List.map_cons, List.nodup_cons] at once
      rw [List.map_cons, List.zip_cons_cons, List.lookup_cons]
      rcases List.mem_cons.mp member with rfl | later
      · rw [beq_self_eq_true]
        exact ⟨copy, rfl, isCopy⟩
      · have different : pos ≠ pair.2 := by
          intro same
          apply once.1
          rw [← same]
          exact List.mem_map_of_mem later
        rw [beq_false_of_ne different]
        exact induction rest once.2 later

/-- A call of `self` between branches that string literals tell apart, in a machine whose actors
own their arena. -/
structure GuardedSelf (ctx : CompilerCtx) where
  scope : Scope
  args : List Expr
  candidates : List BranchInfo
  areCandidates : candidates =
    ctx.branchesForHash ctx.currentMachine (hashCallArgs ctx.hasher args scope.lakeTypeOf)
  select : Memory → (Nat → Word) → Nat
  isSelect : selectBranch ctx.switch candidates = some select
  several : 1 < candidates.length
  guards : guardKind candidates = some .str
  owned : ctx.isRetMachine ctx.currentMachine = false

namespace GuardedSelf

variable {ctx : CompilerCtx} (call : GuardedSelf ctx)

def argTypes : List String := exprTypeStrs call.args call.scope.lakeTypeOf

/-- The position of the argument that chooses the branch. -/
def pos : Nat := findBestGuardPos call.candidates

/-- The words that are fat pointers, with their positions. -/
def pointers (values : List Word) : List (Word × Nat) :=
  values.zipIdx.filter fun value => isPointerLikeType (call.argTypes[value.2]?.getD "")

def addresses (values : List Word) : List Nat := (call.pointers values).map fun value => value.1.toNat

theorem mem_pointers {values : List Word} {value : Word} (atPos : values[call.pos]? = some value)
    (isPointer : isPointerLikeType (call.argTypes[call.pos]?.getD "") = true) :
    (value, call.pos) ∈ call.pointers values := by
  rw [pointers, List.mem_filter]
  exact ⟨List.mk_mem_zipIdx_iff_getElem?.mpr atPos, isPointer⟩

theorem nodup_pointers (values : List Word) : ((call.pointers values).map Prod.snd).Nodup := by
  have sublist : ((call.pointers values).map Prod.snd).Sublist (values.zipIdx.map Prod.snd) :=
    List.filter_sublist.map Prod.snd
  apply sublist.nodup
  rw [List.zipIdx_map_snd]
  exact List.nodup_range'

/-- What a transition passes on where one of the words is a fat pointer. -/
theorem passSelf_copies {W : Type} (rt : RtFuncs W) {values : List Word} (world : W)
    (some : call.pointers values ≠ []) :
    passSelf rt ctx ctx.currentMachine call.argTypes values world =
      (values.zipIdx.map fun value => ((((call.pointers values).map Prod.snd).zip
          (rt.recopy ((call.pointers values).map Prod.fst) world).1).lookup value.2).getD value.1,
        (rt.recopy ((call.pointers values).map Prod.fst) world).2) := by
  have arePointers : (values.zipIdx.filter fun value => !ctx.isRetMachine ctx.currentMachine &&
      isPointerLikeType (call.argTypes[value.2]?.getD "")) = call.pointers values := by
    rw [call.owned]
    rfl
  rw [passSelf, arePointers]
  dsimp only
  rw [if_neg (by simpa using some)]

theorem recopy_pointers (others : RtFuncs ActorHeap) (values : List Word) (heap : ActorHeap) :
    (arenaRt others).recopy ((call.pointers values).map Prod.fst) heap =
      ((heap.recopy (call.addresses values)).1.map (BitVec.ofNat 64),
        (heap.recopy (call.addresses values)).2) := by
  rw [recopy_arenaRt, addresses, List.map_map]
  rfl

theorem fusedSelf_branch {W : Type} (rt : RtFuncs W) {folded : List Folded} {exec : ExecCtx W}
    {values : List Word} (evals : evalAll folded (exec.view rt) = some values) :
    (fusedSelfBlock rt ctx call.candidates call.select call.argTypes folded exec).1.branchId =
      call.select
        (rt.bytes (passSelf rt ctx ctx.currentMachine call.argTypes values exec.world).2)
        (exec.setVars
          (passSelf rt ctx ctx.currentMachine call.argTypes values exec.world).1).actor.vars := by
  have notSame : ¬ (call.candidates.length = 1 ∧
      call.candidates.head?.map BranchInfo.branchId = some ctx.currentBranch) := by
    intro same
    have several := call.several
    omega
  rw [fusedSelfBlock, evals]
  change (if _ then _ else _) = _
  rw [if_neg notSame]
  rfl

theorem changeState_branch {W : Type} (rt : RtFuncs W) {base : Nat} {exec : ExecCtx W}
    {values : List Word} (isStaged : exec.staged base (argCount call.candidates) = values) :
    (changeStateBlock rt ctx call.candidates call.select call.argTypes base exec).1.branchId =
      call.select
        (rt.bytes (passSelf rt ctx ctx.currentMachine call.argTypes values exec.world).2)
        fun pos => exec.jumpArgs (base + pos) := by
  rw [← isStaged]
  rfl

/-- A staged word is where it was put. -/
theorem staged_word {W : Type} {exec : ExecCtx W} {base count pos : Nat} {value : Word}
    (atPos : (exec.staged base count)[pos]? = some value) : exec.jumpArgs (base + pos) = value := by
  rcases List.getElem?_eq_some_iff.mp atPos with ⟨inRange, same⟩
  rw [← same]
  simp [ExecCtx.staged]

theorem passSelf_world (others : RtFuncs ActorHeap) {values : List Word} (heap : ActorHeap)
    (some : call.pointers values ≠ []) :
    (passSelf (arenaRt others) ctx ctx.currentMachine call.argTypes values heap).2 =
      (heap.recopy (call.addresses values)).2 := by
  rw [call.passSelf_copies _ _ some, call.recopy_pointers]

variable {others : RtFuncs ActorHeap} {heap : ActorHeap} {values : List Word} {value : Word}

/-- What the transition relies on: the words are fat pointers of live buffers, apart from the blocks
that it is given, and it does not trap. -/
structure Passes (heap : ActorHeap) (values : List Word) : Prop where
  ready : Ready heap (call.addresses values)
  runs : (heap.recopy (call.addresses values)).2.trapped = false

/-- The bytes of an argument before the transition. -/
theorem bytes_before (passes : call.Passes heap values) (member : (value, call.pos) ∈ call.pointers values) :
    (arenaRt others).bytes heap value = textOf (contentAt heap.mem value.toNat) := by
  rcases exists_scratch passes.runs with ⟨scratch, raw, isRaw⟩
  have isAddress : value.toNat ∈ call.addresses values :=
    List.mem_map_of_mem (f := fun value : Word × Nat => value.1.toNat) member
  have outside := passes.ready.live value.toNat isAddress scratch (isRaw ▸ List.mem_cons_self)
  rw [bytes_live outside.live, contentAt, outside.size_eq]

/-- The copy of an argument, behind the transition. -/
theorem bytes_copy (passes : call.Passes heap values) (room : HasRoom heap (call.addresses values))
    (atPos : values[call.pos]? = some value)
    (member : (value, call.pos) ∈ call.pointers values) :
    ∃ copy, (passSelf (arenaRt others) ctx ctx.currentMachine call.argTypes values heap).1[call.pos]? =
        some copy ∧
      (arenaRt others).bytes (heap.recopy (call.addresses values)).2 copy =
        textOf (contentAt heap.mem value.toNat) := by
  rcases recopy_copies passes.ready passes.runs with ⟨areCopies, hold, -, -⟩
  have exact := exact_of_room room passes.ready passes.runs
  have related : List.Forall₂ (fun (word copy : Word) =>
      (arenaRt others).bytes (heap.recopy (call.addresses values)).2 copy =
        textOf (contentAt heap.mem word.toNat)) ((call.pointers values).map Prod.fst)
      ((heap.recopy (call.addresses values)).1.map (BitVec.ofNat 64)) := by
    rw [areCopies, List.map_map, List.forall₂_map_right_iff, List.forall₂_map_left_iff]
    rw [addresses, List.forall₂_map_left_iff] at hold exact
    apply List.Forall₂.mp _ exact hold
    intro word block isExact isHeld
    exact bytes_holds isHeld isExact
  rcases lookup_copy related (call.nodup_pointers values) member with ⟨copy, isCopy, same⟩
  refine ⟨copy, ?_, same⟩
  rw [call.passSelf_copies _ _ (List.ne_nil_of_mem member), call.recopy_pointers]
  rw [List.getElem?_map, List.getElem?_zipIdx, atPos]
  dsimp only [Option.map_some]
  rw [Nat.zero_add, isCopy]
  rfl

/-- An argument that lies apart from all that the transition is given has its bytes still. -/
theorem bytes_apart (passes : call.Passes heap values)
    (apart : ∀ block ∈ recopyBlocks heap (call.addresses values),
      LiveOutside heap.mem block.space value.toNat) :
    (arenaRt others).bytes (heap.recopy (call.addresses values)).2 value =
      textOf (contentAt heap.mem value.toNat) := by
  rcases exists_scratch passes.runs with ⟨scratch, raw, isRaw⟩
  have unchanged := (recopy_copies passes.ready passes.runs).2.2.2
  have isBlock : scratch ∈ recopyBlocks heap (call.addresses values) := by
    rw [recopyBlocks, isRaw]
    exact List.mem_cons_self
  have outside := apart scratch isBlock
  have same : ∀ first stop, (∀ block ∈ recopyBlocks heap (call.addresses values),
      Region.Apart ⟨first, stop⟩ block.space) →
      cellsFrom (heap.recopy (call.addresses values)).2.mem.bytes first (stop - first) =
        cellsFrom heap.mem.bytes first (stop - first) := by
    intro first stop isApart
    apply cellsFrom_congr
    intro address lower upper
    apply unchanged
    intro block member
    apply (isApart block member).notMem
    rw [Region.mem_mk]
    omega
  have sameHeader := same value.toNat (value.toNat + 16) fun block member => (apart block member).header
  rw [Nat.add_sub_cancel_left] at sameHeader
  rw [bytes_live (outside.live.congr sameHeader), Arenas.bytesAt,
    same _ _ fun block member => (apart block member).data, contentAt, Arenas.bytesAt, outside.size_eq]

/-- The fused form chooses the branch by the bytes of the call, and so does the plain form where
none of the blocks that the transition is given lies on the argument. -/
theorem branch_by_call_bytes {folded : List Folded} {base : Nat} {exec : ExecCtx ActorHeap}
    (passes : call.Passes exec.world values) (atPos : values[call.pos]? = some value)
    (isPointer : isPointerLikeType (call.argTypes[call.pos]?.getD "") = true) :
    (evalAll folded (exec.view (arenaRt others)) = some values →
      HasRoom exec.world (call.addresses values) →
      (fusedSelfBlock (arenaRt others) ctx call.candidates call.select call.argTypes folded
        exec).1.branchId = call.select ((arenaRt others).bytes exec.world) fun _ => value) ∧
    (exec.staged base (argCount call.candidates) = values →
      (∀ block ∈ recopyBlocks exec.world (call.addresses values),
        LiveOutside exec.world.mem block.space value.toNat) →
      (changeStateBlock (arenaRt others) ctx call.candidates call.select call.argTypes base
        exec).1.branchId = call.select ((arenaRt others).bytes exec.world) fun _ => value) := by
  have member := call.mem_pointers atPos isPointer
  have before := @bytes_before ctx call others exec.world values value passes member
  have isWorld := call.passSelf_world others exec.world (List.ne_nil_of_mem member)
  constructor
  · intro evals room
    rcases @bytes_copy ctx call others exec.world values value passes room atPos member with
      ⟨copy, isCopy, after⟩
    have written : (exec.setVars (passSelf (arenaRt others) ctx ctx.currentMachine call.argTypes values
        exec.world).1).actor.vars call.pos = copy := by
      rw [ExecCtx.setVars]
      dsimp only
      rw [isCopy]
      rfl
    rw [call.fusedSelf_branch _ evals]
    apply selectBranch_bytes call.isSelect call.several call.guards
    rw [isWorld, before, ← after]
    exact congrArg _ written
  · intro isStaged apart
    have after := @bytes_apart ctx call others exec.world values value passes apart
    rw [call.changeState_branch _ isStaged]
    apply selectBranch_bytes call.isSelect call.several call.guards
    rw [← isStaged] at atPos
    rw [isWorld, before, ← after]
    exact congrArg _ (staged_word atPos)

end GuardedSelf

/-! ## Both forms on one call -/

/-- A runtime that does nothing. -/
def noRt : RtFuncs ActorHeap where
  load _ _ _ := 0
  store _ _ world := world
  isDying _ := false
  string _ world := (0, world)
  arenaAlloc _ world := (0, world)
  call _ _ world := (none, world)
  isOwn _ _ := false
  send _ _ world := world
  spawn _ world := (0, world)
  resetArena world := world
  recopy args world := (args, world)

/-- A machine with the branches `b buf "ab" str` and `b buf s str`. -/
def abMachine : CompilerCtx :=
  { CompilerCtx.bare with
    hasher := fun types => UInt64.ofNat types.length
    machines := fun _ => some ⟨[
      ⟨[⟨"b", .plain "buf", .var⟩, ⟨"s", .plain "str", .strGuard "ab"⟩], by decide⟩,
      ⟨[⟨"b", .plain "buf", .var⟩, ⟨"s", .plain "str", .var⟩], by decide⟩], by decide⟩ }

def abBranches : List BranchInfo := abMachine.branchesForHash "main" 2

theorem isSome_abSelect : (selectBranch .linear abBranches).isSome = true := by decide +kernel

/-- `self(b s)`. -/
def abCall : GuardedSelf abMachine where
  scope := ⟨⟨[("s", 1), ("b", 0)]⟩, [("s", "str"), ("b", "buf")], 0⟩
  args := [.var "b" (.plain "buf"), .var "s" (.plain "str")]
  candidates := abBranches
  areCandidates := rfl
  select := (selectBranch .linear abBranches).get isSome_abSelect
  isSelect := Option.eq_some_of_isSome _
  several := by decide +kernel
  guards := by decide +kernel
  owned := rfl

/-- The actor passes on the two buffers "c" and "ab". -/
def abExec : ExecCtx ActorHeap where
  actor := { Actor.zeroed with vars := fun slot => if slot = 0 then 88 else 64 }
  jumpArgs := fun slot => if slot = 0 then 88 else 64
  branchId := 1
  world := twoBuffers

theorem ab_passes : abCall.Passes abExec.world [88, 64] := by
  have areAddresses : abCall.addresses [88, 64] = [88, 64] := by decide +kernel
  constructor
  · rw [areAddresses]
    exact ready_twoBuffers
  · rw [areAddresses]
    decide +kernel

/-- The fused form takes the branch of the string. In the plain form the copy of the other buffer
lies on it when it is compared. -/
theorem ab_branches :
    (fusedSelfBlock (arenaRt noRt) abMachine abCall.candidates abCall.select abCall.argTypes
      [fun view => some (view.vars 0), fun view => some (view.vars 1)] abExec).1.branchId =
      abCall.select ((arenaRt noRt).bytes abExec.world) (fun _ => 64) ∧
    abCall.select ((arenaRt noRt).bytes abExec.world) (fun _ => 64) = 0 ∧
    (changeStateBlock (arenaRt noRt) abMachine abCall.candidates abCall.select abCall.argTypes 0
      abExec).1.branchId = 1 := by
  have room : HasRoom abExec.world (abCall.addresses [88, 64]) :=
    ⟨⟨112, 256, 64⟩, rfl, by decide +kernel⟩
  refine ⟨?_, by decide +kernel, by decide +kernel⟩
  exact (@GuardedSelf.branch_by_call_bytes _ abCall noRt [88, 64] 64 _ 0 abExec ab_passes
    (by decide +kernel) (by decide +kernel)).1 rfl room

end LakeNative.Control

import LakeNative.Compiler.Fragments
import LakeNative.Compiler.Scoping
import LakeNative.Library.KnownFacts

/-! # Reads of the variables array

A block reads a slot if what it does is another thing for another content of the slot. It
overwrites a slot if that content is lost.
-/

namespace LakeNative.Memory

open LakeNative.Runtime LakeNative.Compiler LakeNative.KnownFacts

variable {W : Type} {rt : RtFuncs W} {ctx : CompilerCtx}

/-! ## Reading and overwriting -/

/-- What a block does but for the choice of a branch, which a `self(...)` makes from the words
that it has written. -/
def chosenAside (result : ExecCtx W × Exit) : ExecCtx W × Exit :=
  ({ result.1 with branchId := 0 }, result.2)

/-- Whatever the slot holds, the block does the same, but for the slot itself. -/
def Unread (block : Block W) (exec : ExecCtx W) (slot : Nat) : Prop :=
  ∀ value, ∃ left, chosenAside (block (exec.setVar slot value)) =
    chosenAside ((block exec).1.setVar slot left, (block exec).2)

def Reads (block : Block W) (exec : ExecCtx W) (slot : Nat) : Prop := ¬ Unread block exec slot

def Overwrites (block : Block W) (exec : ExecCtx W) (slot : Nat) : Prop :=
  ∀ value, block (exec.setVar slot value) = block exec

@[simp] theorem setVar_self (exec : ExecCtx W) (slot : Nat) :
    exec.setVar slot (exec.actor.vars slot) = exec := by
  rw [ExecCtx.setVar, Function.update_eq_self]

@[simp] theorem setVar_setVar (exec : ExecCtx W) (slot : Nat) (value later : Word) :
    (exec.setVar slot value).setVar slot later = exec.setVar slot later := by
  simp only [ExecCtx.setVar, Function.update_idem]

theorem setVar_comm (exec : ExecCtx W) {slot other : Nat} (different : slot ≠ other)
    (value later : Word) :
    (exec.setVar slot value).setVar other later = (exec.setVar other later).setVar slot value := by
  simp only [ExecCtx.setVar]
  rw [Function.update_comm different.symm]

theorem Overwrites.unread {block : Block W} {exec : ExecCtx W} {slot : Nat}
    (overwrites : Overwrites block exec slot) : Unread block exec slot := by
  intro value
  refine ⟨(block exec).1.actor.vars slot, ?_⟩
  rw [overwrites value, setVar_self]

/-- A block that takes the variables as they are. -/
def Passes (block : Block W) : Prop :=
  ∀ exec slot value, block (exec.setVar slot value) = ((block exec).1.setVar slot value, (block exec).2)

theorem Passes.unread {block : Block W} (passes : Passes block) (exec : ExecCtx W) (slot : Nat) :
    Unread block exec slot := fun value => ⟨value, congrArg chosenAside (passes exec slot value)⟩

/-- A slot that a block reads is known to be written and may be read at the block's number. -/
def readAnalysis (may : Nat → Set Nat) : Analysis (Block W) (ExecCtx W) Nat where
  goes block exec next := (block exec).2.resume = some next
  gains block exec := { slot | Overwrites block exec slot }
  sound entry known :=
    ∀ exec slot, (slot ∈ known ∧ slot ∈ may entry.1) ∨ Unread entry.2 exec slot

/-! ## Folded values -/

/-- The view with another content of a slot. -/
def setView (view : View) (slot : Nat) (value : Word) : View :=
  { view with vars := Function.update view.vars slot value }

/-- A value reads only slots that are known and that it may read. -/
def ValueReads (known may : Set Nat) (value : Folded) : Prop :=
  ∀ slot, (slot ∈ known ∧ slot ∈ may) ∨ ∀ view word, value (setView view slot word) = value view

section Fold

variable {literals : Literals} {selfPid : Bool} {state : BranchState} {slot : Nat}

theorem fold_unread : (expr : Expr) → ∀ {value}, foldWithSelf literals selfPid state expr = some value →
    (∀ name ∈ foldReads expr, state.get name ≠ some slot) →
    ∀ view word, value (setView view slot word) = value view
  | .num text ty, value, folds, _ => by
      rw [foldWithSelf] at folds
      cases folds
      exact fun _ _ => rfl
  | .bool truth, value, folds, _ => by
      rw [foldWithSelf] at folds
      cases folds
      exact fun _ _ => rfl
  | .atom name, value, folds, _ => by
      rw [foldWithSelf] at folds
      cases folds
      exact fun _ _ => rfl
  | .var name ty, value, folds, others => by
      by_cases isSelf : name = "self"
      · subst isSelf
        rw [foldWithSelf] at folds
        split at folds
        · cases folds
          exact fun _ _ => rfl
        · cases folds
      · rw [foldWithSelf] at folds
        · rcases Option.map_eq_some_iff.mp folds with ⟨source, found, rfl⟩
          have member : name ∈ foldReads (.var name ty) := by
            rw [foldReads, if_neg isSelf]
            exact List.mem_singleton_self name
          have different : source ≠ slot := fun same => others name member (same ▸ found)
          intro view word
          exact congrArg some (Function.update_of_ne different _ _)
        · exact isSelf
  | .tupleIndex receiver index, value, folds, others => by
      rw [foldWithSelf] at folds
      rcases Option.bind_eq_some_iff.mp folds with ⟨pointer, isPointer, later⟩
      cases later
      have same := fold_unread receiver isPointer others
      intro view word
      simp only [same view word]
      rfl
  | .index receiver index, value, folds, others => by
      rw [foldWithSelf] at folds
      rcases Option.bind_eq_some_iff.mp folds with ⟨pointer, isPointer, later⟩
      rcases Option.bind_eq_some_iff.mp later with ⟨offset, isOffset, last⟩
      cases last
      have same := fold_unread receiver isPointer fun name member =>
        others name (List.mem_append_left _ member)
      have alsoSame := fold_unread index isOffset fun name member =>
        others name (List.mem_append_right _ member)
      intro view word
      simp only [same view word, alsoSame view word]
      rfl
  | .binary op left right, value, folds, others => by
      rw [foldWithSelf] at folds
      rcases Option.bind_eq_some_iff.mp folds with ⟨first, isFirst, later⟩
      rcases Option.bind_eq_some_iff.mp later with ⟨second, isSecond, last⟩
      cases last
      have same := fold_unread left isFirst fun name member =>
        others name (List.mem_append_left _ member)
      have alsoSame := fold_unread right isSecond fun name member =>
        others name (List.mem_append_right _ member)
      intro view word
      simp only [same view word, alsoSame view word]
  | .neg inner, value, folds, others => by
      rw [foldWithSelf] at folds
      rcases Option.bind_eq_some_iff.mp folds with ⟨operand, isOperand, later⟩
      cases later
      have same := fold_unread inner isOperand others
      intro view word
      simp only [same view word]
  | .jump (.var callee ty) (receiver :: index :: rest), value, folds, others => by
      rw [foldWithSelf] at folds
      rcases Option.bind_eq_some_iff.mp folds with ⟨bits, -, folds⟩
      rcases Option.bind_eq_some_iff.mp folds with ⟨pointer, isPointer, later⟩
      rcases Option.bind_eq_some_iff.mp later with ⟨offset, isOffset, last⟩
      cases last
      have same := fold_unread receiver isPointer fun name member =>
        others name (List.mem_append_left _ member)
      have alsoSame := fold_unread index isOffset fun name member =>
        others name (List.mem_append_right _ member)
      intro view word
      simp only [same view word, alsoSame view word]
      rfl
  | .string .., _, folds, _ | .unit, _, folds, _ | .tuple .., _, folds, _ | .letVar .., _, folds, _
  | .when .., _, folds, _ | .wait .., _, folds, _ | .other .., _, folds, _
  | .jump (.var ..) [], _, folds, _ | .jump (.var ..) [_], _, folds, _ | .jump (.num ..) _, _, folds, _
  | .jump (.bool ..) _, _, folds, _ | .jump (.string ..) _, _, folds, _ | .jump .unit _, _, folds, _
  | .jump (.atom ..) _, _, folds, _ | .jump (.tuple ..) _, _, folds, _
  | .jump (.tupleIndex ..) _, _, folds, _ | .jump (.index ..) _, _, folds, _
  | .jump (.binary ..) _, _, folds, _ | .jump (.neg ..) _, _, folds, _
  | .jump (.jump ..) _, _, folds, _ | .jump (.letVar ..) _, _, folds, _
  | .jump (.when ..) _, _, folds, _ | .jump (.wait ..) _, _, folds, _
  | .jump (.other ..) _, _, folds, _ => by
      simp [foldWithSelf] at folds

end Fold

/-! ## Scopes -/

/-- The slots of all bindings that enclose a place are known. -/
def Covers (known : Set Nat) (env : Env) : Prop :=
  ∀ name slot, env.get name = some slot → slot ∈ known

namespace Covers

variable {known more : Set Nat} {env : Env}

theorem mono (covers : Covers known env) (subset : known ⊆ more) : Covers more env :=
  fun name slot found => subset (covers name slot found)

theorem bind (covers : Covers known env) {slot : Nat} (isKnown : slot ∈ known) (name : String) :
    Covers known (env.bind name slot) := by
  intro other found isFound
  rw [Env.get, Env.bind, List.lookup_cons] at isFound
  split at isFound
  · cases isFound
    exact isKnown
  · exact covers other found isFound

end Covers

/-- A folded expression reads what its names have. -/
theorem valueReads_fold {literals : Literals} {selfPid : Bool} {state : BranchState} {expr : Expr}
    {value : Folded} {known may : Set Nat} {env : Env}
    (folds : foldWithSelf literals selfPid state expr = some value)
    (sees : env.sees state (foldReads expr) = true) (covers : Covers known env)
    (refers : ∀ name ∈ foldReads expr, ∀ slot, state.get name = some slot →
      env.get name = some slot → slot ∈ may) :
    ValueReads known may value := by
  intro slot
  by_cases isRead : ∃ name ∈ foldReads expr, state.get name = some slot
  · rcases isRead with ⟨name, member, found⟩
    have same : state.get name = env.get name :=
      eq_of_beq (List.all_eq_true.mp sees name member)
    have encloses : env.get name = some slot := same ▸ found
    exact .inl ⟨covers name slot encloses, refers name member slot found encloses⟩
  · exact .inr (fold_unread expr folds fun name member found => isRead ⟨name, member, found⟩)

theorem evalAll_unread {values : List Folded} {slot : Nat}
    (unread : ∀ value ∈ values, ∀ view word, value (setView view slot word) = value view)
    (view : View) (word : Word) : evalAll values (setView view slot word) = evalAll values view := by
  induction values with
  | nil => rfl
  | cons value values induction =>
      have first := unread value List.mem_cons_self view word
      have rest := induction fun other member => unread other (List.mem_cons_of_mem _ member)
      simp only [evalAll, List.mapM_cons] at rest ⊢
      rw [first, rest]

/-! ## Statements that share a block -/

/-- From slots that are known, those that are known behind. -/
structure FastReads (may known behind : Set Nat) (op : FastOp W) : Prop where
  reads : ∀ exec slot, (slot ∈ known ∧ slot ∈ may) ∨
    ∀ value, ∃ left, op (exec.setVar slot value) = (op exec).map fun after => after.setVar slot left
  gains : ∀ exec, ∀ slot ∈ behind, slot ∈ known ∨
    ∀ value, op (exec.setVar slot value) = op exec

namespace FastReads

variable {may known between behind : Set Nat} {op step : FastOp W}

theorem id (may known : Set Nat) : FastReads may known known (some : FastOp W) where
  reads := fun _ _ => .inr fun value => ⟨value, rfl⟩
  gains := fun _ _ isKnown => .inl isKnown

theorem bind (first : FastReads may known between op) (second : FastReads may between behind step) :
    FastReads may known behind fun exec => (op exec).bind step where
  reads := by
    intro exec slot
    rcases first.reads exec slot with reads | unread
    · exact .inl reads
    · cases result : op exec with
      | none =>
          right
          intro value
          rcases unread value with ⟨left, same⟩
          rw [result] at same
          exact ⟨left, by rw [same]; rfl⟩
      | some middle =>
          rcases second.reads middle slot with ⟨isKnown, mayRead⟩ | alsoUnread
          · rcases first.gains exec slot isKnown with already | overwrites
            · exact .inl ⟨already, mayRead⟩
            · right
              intro value
              rw [overwrites value, result]
              cases last : step middle with
              | none => exact ⟨value, by simp only [Option.bind_some, last]; rfl⟩
              | some after =>
                  refine ⟨after.actor.vars slot, ?_⟩
                  simp only [Option.bind_some, last, Option.map_some, setVar_self]
          · right
            intro value
            rcases unread value with ⟨left, same⟩
            rcases alsoUnread left with ⟨last, alsoSame⟩
            refine ⟨last, ?_⟩
            rw [same, result]
            exact alsoSame
  gains := by
    intro exec slot isBehind
    cases result : op exec with
    | none =>
        rcases first.reads exec slot with reads | unread
        · exact .inl reads.1
        · right
          intro value
          rcases unread value with ⟨left, same⟩
          rw [same, result]
          rfl
    | some middle =>
        have overwritten : (∀ value, op (exec.setVar slot value) = op exec) →
            ∀ value, (op (exec.setVar slot value)).bind step = (some middle).bind step := by
          intro overwrites value
          rw [overwrites value, result]
        rcases second.gains middle slot isBehind with isBetween | overwrites
        · rcases first.gains exec slot isBetween with already | earlier
          · exact .inl already
          · exact .inr (overwritten earlier)
        · rcases first.reads exec slot with reads | unread
          · exact .inl reads.1
          · right
            intro value
            rcases unread value with ⟨left, same⟩
            rw [same, result]
            exact overwrites left

/-- Evaluate to `TEMP_VAL`. -/
theorem temp {value : Folded} (reads : ValueReads known may value) :
    FastReads may known known fun exec : ExecCtx W =>
      (value (exec.view rt)).map fun word => exec.setTemp word where
  reads := by
    intro exec slot
    rcases reads slot with isRead | unread
    · exact .inl isRead
    · right
      intro word
      refine ⟨word, ?_⟩
      have same : value ((exec.setVar slot word).view rt) = value (exec.view rt) :=
        unread (exec.view rt) word
      rw [same, Option.map_map]
      rfl
  gains := fun _ _ isKnown => .inl isKnown

/-- Evaluate to a slot, which is known behind. -/
theorem store {value : Folded} (reads : ValueReads known may value) (target : Nat) :
    FastReads may known (insert target known) fun exec : ExecCtx W =>
      (value (exec.view rt)).map fun word => exec.setVar target word where
  reads := by
    intro exec slot
    rcases reads slot with isRead | unread
    · exact .inl isRead
    · right
      intro word
      have same : value ((exec.setVar slot word).view rt) = value (exec.view rt) :=
        unread (exec.view rt) word
      rw [same]
      cases value (exec.view rt) with
      | none => exact ⟨word, rfl⟩
      | some result =>
          by_cases isTarget : slot = target
          · rw [isTarget]
            exact ⟨result, by simp⟩
          · exact ⟨word, congrArg some (setVar_comm exec isTarget word result)⟩
  gains := by
    intro exec slot isBehind
    rcases isBehind with rfl | isKnown
    · rcases reads slot with isRead | unread
      · exact .inl isRead.1
      · right
        intro word
        have same : value ((exec.setVar slot word).view rt) = value (exec.view rt) :=
          unread (exec.view rt) word
        rw [same]
        simp only [setVar_setVar]
    · exact .inl isKnown

end FastReads

/-! ## Single blocks -/

section Blocks

variable {may : Nat → Set Nat} {known behind : Set Nat} {id : Nat}

/-- A block of one number. -/
theorem passage_block {block : Block W}
    (sound : ∀ exec slot, (slot ∈ known ∧ slot ∈ may id) ∨ Unread block exec slot)
    (gained : ∀ exec next, (block exec).2.resume = some next →
      next = id + 1 ∧ ∀ slot ∈ behind, slot ∈ known ∨ Overwrites block exec slot) :
    (readAnalysis may).Passage id (id + 1) [(id, block)] known behind [] [] := by
  apply Analysis.Passage.block [id] (Nat.le_refl id)
  · intro number member
    rw [List.mem_singleton.mp member]
    exact ⟨Nat.le_refl _, Nat.le_refl _⟩
  · intro number member
    rw [List.mem_singleton.mp member]
    exact sound
  · exact gained

theorem passage_passes {block : Block W} (passes : Passes block) (goes : GoesTo block (id + 1)) :
    (readAnalysis may).Passage id (id + 1) [(id, block)] known known [] [] :=
  passage_block (fun exec slot => .inr (passes.unread exec slot)) fun exec next resumes =>
    ⟨goes exec next resumes, fun _ isKnown => .inl isKnown⟩

theorem passes_stage (slot : Nat) : Passes (stageBlock id slot : Block W) := fun _ _ _ => rfl

theorem passage_stage (id slot : Nat) :
    (readAnalysis may).Passage id (id + 1) [(id, (stageBlock id slot : Block W))] known known [] [] :=
  passage_passes (passes_stage slot) (goesTo_stageBlock id slot)

theorem passes_string {text : String} :
    Passes fun exec : ExecCtx W =>
      ({ exec with world := (rt.string text exec.world).2 }.setTemp (rt.string text exec.world).1,
        Exit.goto (id + 1)) := fun _ _ _ => rfl

theorem withResult_setVar (exec : ExecCtx W) (slot : Nat) (value : Word) (result : Option Word × W) :
    withResult (exec.setVar slot value) result = (withResult exec result).setVar slot value := by
  rcases result with ⟨_ | word, world⟩
  · rfl
  · rfl

theorem passes_rtCall (callee : String) (base count : Nat) :
    Passes (rtCallBlock rt id callee base count) := by
  intro exec slot value
  exact congrArg (·, _) (withResult_setVar exec slot value _)

theorem passage_rtCall (id : Nat) (callee : String) (base count : Nat) :
    (readAnalysis may).Passage id (id + 1) [(id, rtCallBlock rt id callee base count)] known known
      [] [] :=
  passage_passes (passes_rtCall callee base count) (goesTo_rtCallBlock id callee base count)

theorem passes_spawn {machine : String} {candidates : List BranchInfo}
    {select : Memory → (Nat → Word) → Nat} {argTypes : List String} {base : Nat} :
    Passes (spawnBlock rt ctx id machine candidates select argTypes base) := fun _ _ _ => rfl

theorem passes_kTable (values : List Word) (next : Nat) :
    Passes (kTableBlock values next : Block W) := fun _ _ _ => rfl

theorem passes_when (select : Memory → Word → Option Nat) (starts : List Nat) (afterWhen : Nat) :
    Passes (whenBlock rt select starts afterWhen) := fun _ _ _ => rfl

theorem passes_redirect (afterWhen : Nat) : Passes (redirectBlock afterWhen : Block W) :=
  fun _ _ _ => rfl

/-- `TEMP_VAL` is written to the slot. -/
theorem passage_save (slot : Nat) :
    (readAnalysis may).Passage id (id + 1) [(id, (saveBlock id slot : Block W))] known
      (insert slot known) [] [] := by
  have overwrites : ∀ exec : ExecCtx W, Overwrites (saveBlock id slot) exec slot := by
    intro exec value
    rw [saveBlock, setVar_setVar]
    rfl
  apply passage_block
  · intro exec other
    by_cases isSlot : other = slot
    · exact .inr (isSlot ▸ (overwrites exec).unread)
    · right
      intro value
      exact ⟨value, congrArg (fun after => chosenAside (after, _))
        (setVar_comm exec isSlot value exec.actor.tempVal)⟩
  · intro exec next resumes
    refine ⟨(Option.some.inj resumes).symm, ?_⟩
    intro other isBehind
    rcases isBehind with rfl | isKnown
    · exact .inr (overwrites exec)
    · exact .inl isKnown

/-- What an operation reads its block reads. -/
theorem unread_orTrap {change : ExecCtx W → Option (ExecCtx W × Exit)} {exec : ExecCtx W} {slot : Nat}
    (unread : ∀ value, ∃ left, change (exec.setVar slot value) =
      (change exec).map fun result => (result.1.setVar slot left, result.2)) :
    Unread (fun exec => orTrap exec (change exec)) exec slot := by
  intro value
  rcases unread value with ⟨left, same⟩
  dsimp only
  rw [same]
  cases change exec with
  | none => exact ⟨value, rfl⟩
  | some result => exact ⟨left, rfl⟩

/-- Statements in a row. -/
theorem passage_fastCode {first : Nat} (run : List Nat) {op : FastOp W} {mayRun : Set Nat}
    (reads : FastReads mayRun known behind op) (low : first ≤ id)
    (range : ∀ number ∈ run, first ≤ number ∧ number < id)
    (allowed : ∀ number, first ≤ number → number ≤ id → mayRun ⊆ may number) :
    (readAnalysis may).Passage first (id + 1) (fastCode op (run ++ [id]) (id + 1)) known behind
      [] [] := by
  have inside : ∀ number ∈ run ++ [id], first ≤ number ∧ number ≤ id := by
    intro number member
    rcases List.mem_append.mp member with isEarlier | isLast
    · exact ⟨(range number isEarlier).1, (range number isEarlier).2.le⟩
    · rw [List.mem_singleton.mp isLast]
      exact ⟨low, Nat.le_refl _⟩
  apply Analysis.Passage.block (run ++ [id]) low inside
  · intro number member exec slot
    rcases reads.reads exec slot with ⟨isKnown, mayRead⟩ | unread
    · exact .inl ⟨isKnown, allowed number (inside number member).1 (inside number member).2 mayRead⟩
    · right
      apply unread_orTrap
      intro value
      rcases unread value with ⟨left, same⟩
      refine ⟨left, ?_⟩
      rw [same, Option.map_map, Option.map_map]
      rfl
  · intro exec next goes
    refine ⟨goesTo_orTrap exec next goes, ?_⟩
    intro slot isBehind
    rcases reads.gains exec slot isBehind with isKnown | overwrites
    · exact .inl isKnown
    · right
      rcases orTrap_resume goes with ⟨after, isAfter, -⟩
      intro value
      dsimp only
      rw [overwrites value, isAfter]
      rfl

variable (rt) in
/-- Elements of which none reads the slot. -/
theorem storeElems_setVar {elems : List (Folded ⊕ String)} {slot : Nat}
    (unread : ∀ value, .inl value ∈ elems → ∀ view word, value (setView view slot word) = value view)
    (payload : Word) (exec : ExecCtx W) (word : Word) :
    storeElems rt payload elems (exec.setVar slot word) =
      (storeElems rt payload elems exec).map fun after => after.setVar slot word := by
  induction elems generalizing payload exec with
  | nil => rfl
  | cons elem elems induction =>
      have rest := induction fun value member => unread value (List.mem_cons_of_mem _ member)
      cases elem with
      | inl value =>
          have same : value ((exec.setVar slot word).view rt) = value (exec.view rt) :=
            unread value List.mem_cons_self (exec.view rt) word
          rw [storeElems, storeElems, same]
          cases value (exec.view rt) with
          | none => rfl
          | some result =>
              exact rest (payload + 8) { exec with world := rt.store payload result exec.world }
      | inr text =>
          rw [storeElems, storeElems]
          exact rest (payload + 8) { exec with
            world := rt.store payload (rt.string text exec.world).1 (rt.string text exec.world).2 }

/-- Either a value of a list may be read from a slot, or none is. -/
theorem reads_or_unread {known may : Set Nat} {values : List Folded}
    (reads : ∀ value ∈ values, ValueReads known may value) (slot : Nat) :
    (slot ∈ known ∧ slot ∈ may) ∨
      ∀ value ∈ values, ∀ view word, value (setView view slot word) = value view := by
  by_cases isRead : slot ∈ known ∧ slot ∈ may
  · exact .inl isRead
  · exact .inr fun value member => (reads value member slot).resolve_left isRead

theorem passage_tuple {count : Nat} {elems : List (Folded ⊕ String)}
    (reads : ∀ value, .inl value ∈ elems → ValueReads known (may id) value) :
    (readAnalysis may).Passage id (id + 1) [(id, fun exec : ExecCtx W => orTrap exec (do
      let (fatPtr, world) := rt.arenaAlloc (8 * BitVec.ofNat 64 count) exec.world
      let filled ← storeElems rt (rt.load world 64 fatPtr) elems { exec with world := world }
      some (filled.setTemp fatPtr, .goto (id + 1))))] known known [] [] := by
  apply passage_block
  · intro exec slot
    by_cases isRead : slot ∈ known ∧ slot ∈ may id
    · exact .inl isRead
    · right
      apply unread_orTrap
      intro word
      refine ⟨word, ?_⟩
      have same := storeElems_setVar rt
        (fun value member => (reads value member slot).resolve_left isRead)
        (rt.load (rt.arenaAlloc (8 * BitVec.ofNat 64 count) exec.world).2 64
          (rt.arenaAlloc (8 * BitVec.ofNat 64 count) exec.world).1)
        { exec with world := (rt.arenaAlloc (8 * BitVec.ofNat 64 count) exec.world).2 } word
      apply (congrArg (Option.bind · _) same).trans
      dsimp only [bind]
      cases storeElems rt _ elems _ with
      | none => rfl
      | some filled => rfl
  · intro exec next resumes
    rcases orTrap_resume resumes with ⟨after, isAfter, resumes⟩
    rcases bind_some isAfter with ⟨filled, -, result⟩
    cases result
    exact ⟨(Option.some.inj resumes).symm, fun _ isKnown => .inl isKnown⟩

theorem passage_fusedRt {callee : String} {values : List Folded}
    (reads : ∀ value ∈ values, ValueReads known (may id) value) :
    (readAnalysis may).Passage id (id + 1) [(id, fun exec : ExecCtx W => orTrap exec (do
      let values ← evalAll values (exec.view rt)
      some (withResult exec (rt.call callee values exec.world), .goto (id + 1))))] known known
      [] [] := by
  apply passage_block
  · intro exec slot
    rcases reads_or_unread reads slot with isRead | unread
    · exact .inl isRead
    · right
      apply unread_orTrap
      intro word
      refine ⟨word, ?_⟩
      have same : evalAll values ((exec.setVar slot word).view rt) = evalAll values (exec.view rt) :=
        evalAll_unread unread (exec.view rt) word
      rw [same]
      cases evalAll values (exec.view rt) with
      | none => rfl
      | some results => exact congrArg (fun after => some (after, _)) (withResult_setVar exec slot word _)
  · intro exec next resumes
    rcases orTrap_resume resumes with ⟨after, isAfter, resumes⟩
    rcases bind_some isAfter with ⟨results, -, result⟩
    cases result
    exact ⟨(Option.some.inj resumes).symm, fun _ isKnown => .inl isKnown⟩

theorem passage_send {slot base count : Nat} (isKnown : slot ∈ known) (mayRead : slot ∈ may id) :
    (readAnalysis may).Passage id (id + 1) [(id, sendBlock rt id slot base count)] known known [] [] := by
  apply passage_block
  · intro exec other
    by_cases isSlot : other = slot
    · rw [isSlot]
      exact .inl ⟨isKnown, mayRead⟩
    · right
      intro word
      refine ⟨word, ?_⟩
      have same : (exec.setVar other word).actor.vars slot = exec.actor.vars slot :=
        Function.update_of_ne (Ne.symm isSlot) _ _
      rw [sendBlock, sendBlock, same]
      cases isOwn : rt.isOwn (exec.actor.vars slot) exec.world with
      | true =>
          simp only [ExecCtx.setVar, isOwn, if_true]
          rfl
      | false =>
          simp only [ExecCtx.setVar, isOwn, Bool.false_eq_true, if_false]
          rfl
  · intro exec next resumes
    exact ⟨(Option.some.inj resumes).symm, fun _ already => .inl already⟩

theorem setVars_setVar (exec : ExecCtx W) (values : List Word) (slot : Nat) (word : Word) :
    ∃ left, (exec.setVar slot word).setVars values = (exec.setVars values).setVar slot left := by
  by_cases inside : slot < values.length
  · refine ⟨(exec.setVars values).actor.vars slot, ?_⟩
    rw [setVar_self]
    simp only [ExecCtx.setVars, ExecCtx.setVar]
    congr 2
    funext other
    rcases eq_or_ne other slot with rfl | different
    · rw [List.getElem?_eq_getElem inside]
      rfl
    · rw [Function.update_of_ne different]
  · refine ⟨word, ?_⟩
    simp only [ExecCtx.setVars, ExecCtx.setVar]
    congr 2
    funext other
    rcases eq_or_ne other slot with rfl | different
    · rw [List.getElem?_eq_none (Nat.le_of_not_lt inside), Function.update_self,
        Function.update_self]
      rfl
    · rw [Function.update_of_ne different, Function.update_of_ne different]

/-- `self(...)` goes on in another branch. -/
theorem passage_changeState {candidates : List BranchInfo} {select : Memory → (Nat → Word) → Nat}
    {argTypes : List String} {base : Nat} :
    (readAnalysis may).Passage id (id + 1)
      [(id, changeStateBlock rt ctx candidates select argTypes base)] known behind [] [] := by
  apply passage_block
  · intro exec slot
    right
    intro word
    let passed := passSelf rt ctx ctx.currentMachine argTypes
      (exec.staged base (argCount candidates)) exec.world
    rcases setVars_setVar exec passed.1 slot word with ⟨left, same⟩
    refine ⟨left, ?_⟩
    exact congrArg (fun written : ExecCtx W =>
      ({ written with world := passed.2, branchId := 0 }, Exit.enter)) same
  · intro exec next resumes
    cases resumes

/-- `self(...)` of values. -/
theorem passage_fusedSelf {candidates : List BranchInfo} {select : Memory → (Nat → Word) → Nat}
    {argTypes : List String} {values : List Folded}
    (reads : ∀ value ∈ values, ValueReads known (may id) value) :
    (readAnalysis may).Passage id (id + 1)
      [(id, fusedSelfBlock rt ctx candidates select argTypes values)] known behind [] [] := by
  apply passage_block
  · intro exec slot
    rcases reads_or_unread reads slot with isRead | unread
    · exact .inl isRead
    · right
      intro word
      have same : evalAll values ((exec.setVar slot word).view rt) = evalAll values (exec.view rt) :=
        evalAll_unread unread (exec.view rt) word
      rw [fusedSelfBlock, fusedSelfBlock, same]
      cases isValues : evalAll values (exec.view rt) with
      | none => exact ⟨word, rfl⟩
      | some words =>
          let passing := passSelf rt ctx ctx.currentMachine argTypes words exec.world
          rcases setVars_setVar exec passing.1 slot word with ⟨left, written⟩
          refine ⟨left, ?_⟩
          exact congrArg (fun after : ExecCtx W =>
            ({ after with world := passing.2, branchId := 0 }, Exit.enter)) written
  · intro exec next resumes
    exact absurd ⟨exec, resumes⟩ not_leads_fusedSelf

/-! ## Waiting -/

/-- The context behind the dequeue. -/
def dequeued (exec : ExecCtx W) (base count : Nat) : ExecCtx W :=
  { exec with actor := exec.actor.dequeue base count }

theorem dequeued_overwrites (exec : ExecCtx W) {base count slot : Nat} (low : base ≤ slot)
    (high : slot < base + count) (word : Word) :
    dequeued (exec.setVar slot word) base count = dequeued exec base count := by
  simp only [dequeued, ExecCtx.setVar, Actor.dequeue]
  congr 2
  funext index
  split
  · rfl
  · rename_i outside
    have different : index ≠ slot := by
      rintro rfl
      exact outside ⟨low, high⟩
    exact Function.update_of_ne different _ _

theorem dequeued_setVar (exec : ExecCtx W) {base count slot : Nat}
    (outside : ¬ (base ≤ slot ∧ slot < base + count)) (word : Word) :
    dequeued (exec.setVar slot word) base count = (dequeued exec base count).setVar slot word := by
  simp only [dequeued, ExecCtx.setVar, Actor.dequeue]
  congr 2
  funext index
  rcases eq_or_ne index slot with rfl | different
  · rw [if_neg outside, Function.update_self, Function.update_self]
  · rw [Function.update_of_ne different, Function.update_of_ne different]
    rfl

theorem filterHits_unread {filter : List Folded} {slot : Nat}
    (unread : ∀ value ∈ filter, ∀ view word, value (setView view slot word) = value view)
    (view : View) (word disc : Word) :
    filterHits (setView view slot word) disc filter = filterHits view disc filter := by
  induction filter with
  | nil => rfl
  | cons pid filter induction =>
      rw [filterHits, filterHits, unread pid List.mem_cons_self,
        induction fun value member => unread value (List.mem_cons_of_mem _ member)]

theorem filterAccepts_unread {filter : List Folded} {slot : Nat}
    (unread : ∀ value ∈ filter, ∀ view word, value (setView view slot word) = value view)
    (view : View) (word disc : Word) :
    filterAccepts (setView view slot word) disc filter = filterAccepts view disc filter := by
  rw [filterAccepts, filterAccepts, filterHits_unread unread]

section Wait

variable {wait : WaitExpr} {dispatch : Word → Option Nat} {filter : List Folded} {starts : List Nat}

/-- The block behind the check that there is a message. -/
theorem waitBlock_some {exec : ExecCtx W} (some : exec.actor.mailboxHead ≠ exec.actor.mailboxTail) :
    waitBlock rt wait dispatch filter starts id exec =
      orTrap (dequeued exec wait.dequeueVarBase wait.dequeueArgCount)
        ((chosenHandler rt wait dispatch filter exec).map fun handler =>
          (dequeued exec wait.dequeueVarBase wait.dequeueArgCount,
            .goto ((handler.bind fun handler => starts[handler]?).getD id))) :=
  if_neg some

theorem overwrites_wait {exec : ExecCtx W} (some : exec.actor.mailboxHead ≠ exec.actor.mailboxTail)
    {slot : Nat} (low : wait.dequeueVarBase ≤ slot)
    (high : slot < wait.dequeueVarBase + wait.dequeueArgCount) :
    Overwrites (waitBlock rt wait dispatch filter starts id) exec slot := by
  intro word
  have same := dequeued_overwrites exec low high word
  have chosen : chosenHandler rt wait dispatch filter (exec.setVar slot word) =
      chosenHandler rt wait dispatch filter exec := by
    change (filterAccepts ((dequeued (exec.setVar slot word) _ _).view rt) _ filter).map _ = _
    rw [same]
    rfl
  have behind : waitBlock rt wait dispatch filter starts id (exec.setVar slot word) = _ :=
    waitBlock_some some
  rw [behind, waitBlock_some some, same, chosen]

theorem unread_wait (reads : ∀ value ∈ filter, ValueReads known (may id) value) (exec : ExecCtx W)
    (slot : Nat) : (slot ∈ known ∧ slot ∈ may id) ∨
      Unread (waitBlock rt wait dispatch filter starts id) exec slot := by
  rcases reads_or_unread reads slot with isRead | unread
  · exact .inl isRead
  · right
    by_cases empty : exec.actor.mailboxHead = exec.actor.mailboxTail
    · intro word
      refine ⟨word, ?_⟩
      have suspends : waitBlock rt wait dispatch filter starts id exec = (exec, .wait id) :=
        if_pos empty
      rw [suspends]
      exact congrArg chosenAside (if_pos empty)
    · by_cases inside : wait.dequeueVarBase ≤ slot ∧
          slot < wait.dequeueVarBase + wait.dequeueArgCount
      · exact (overwrites_wait empty inside.1 inside.2).unread
      · intro word
        refine ⟨word, ?_⟩
        have same := dequeued_setVar exec inside word
        have chosen : chosenHandler rt wait dispatch filter (exec.setVar slot word) =
            chosenHandler rt wait dispatch filter exec := by
          change (filterAccepts ((dequeued (exec.setVar slot word) _ _).view rt) _ filter).map _ = _
          rw [same]
          exact congrArg (Option.map _) (filterAccepts_unread unread
            ((dequeued exec wait.dequeueVarBase wait.dequeueArgCount).view rt) word _)
        have behind : waitBlock rt wait dispatch filter starts id (exec.setVar slot word) = _ :=
          waitBlock_some empty
        rw [behind, waitBlock_some empty, same, chosen]
        cases chosenHandler rt wait dispatch filter exec with
        | none => rfl
        | some handler => rfl

/-- Behind the check nothing is lost, and in a handler's body the words are known as well. -/
theorem gains_wait {exec : ExecCtx W} {next : Nat}
    (resumes : (waitBlock rt wait dispatch filter starts id exec).2.resume = some next) :
    next = id ∨ next ∈ starts ∧ ∀ slot, wait.dequeueVarBase ≤ slot →
      slot < wait.dequeueVarBase + wait.dequeueArgCount →
      Overwrites (waitBlock rt wait dispatch filter starts id) exec slot := by
  rcases leads_waitBlock ⟨exec, resumes⟩ with isHere | isStart
  · exact .inl isHere
  · by_cases empty : exec.actor.mailboxHead = exec.actor.mailboxTail
    · rw [waitBlock, if_pos empty] at resumes
      exact .inl (Option.some.inj resumes).symm
    · exact .inr ⟨isStart, fun slot low high => overwrites_wait empty low high⟩

end Wait

end Blocks

end LakeNative.Memory

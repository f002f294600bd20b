import LakeNative.Compiler.Nesting
import LakeNative.Compiler.Unroll

/-! # The numbers of a branch's blocks

No two blocks of a branch have the same number, and a block goes on only with a block that
there is, or behind the branch's body, where the actor is done.
-/

namespace LakeNative.Control

open LakeNative.Runtime LakeNative.Compiler LakeNative.NumberedCode LakeNative.Transitions

variable {W : Type} {rt : RtFuncs W} {ctx : CompilerCtx}

/-! ## Numbers that are left open -/

/-- The entries of the switch. -/
def ids (code : Code W) : List Nat := code.map Prod.fst

/-- The numbers that what follows has to give a block: those of the arms that lead behind
their `when`, and the next one, unless a `self(...)` has left the branch. -/
def LeftOpen (emitted : Emitted W) (next : Nat) : Prop :=
  next ∈ emitted.redirects ∨ next = emitted.nextId ∧ ∀ id, emitted.outcome ≠ .stateChange id

def Known (emitted : Emitted W) (next : Nat) : Prop :=
  next ∈ ids emitted.code ∨ LeftOpen emitted next

theorem eq_nextId_of_leftOpen {emitted : Emitted W} {next : Nat} (noRedirects : emitted.redirects = [])
    (leftOpen : LeftOpen emitted next) : next = emitted.nextId := by
  rcases leftOpen with isRedirect | ⟨isNext, -⟩
  · rw [noRedirects] at isRedirect
    exact absurd isRedirect List.not_mem_nil
  · exact isNext

theorem leftOpen_nextId {emitted : Emitted W} {next id : Nat}
    (goesOn : emitted.outcome = .continued next ∨ emitted.outcome = .wait next)
    (same : id = emitted.nextId) : LeftOpen emitted id := by
  refine .inr ⟨same, fun other leaves => ?_⟩
  rw [leaves] at goesOn
  rcases goesOn with goesOn | goesOn <;> cases goesOn

theorem mem_ids_append {before behind : Code W} {id : Nat} :
    id ∈ ids (before ++ behind) ↔ id ∈ ids before ∨ id ∈ ids behind := by
  rw [ids, ids, ids, List.map_append, List.mem_append]

theorem mem_ids_left {before : Code W} (behind : Code W) {id : Nat} (member : id ∈ ids before) :
    id ∈ ids (before ++ behind) := mem_ids_append.mpr (.inl member)

/-! ## Where code starts -/

theorem ids_oneBlock {id : Nat} {emitted : Emitted W} (isOne : OneBlock id emitted) :
    ids emitted.code = [id] := by
  rcases isOne.code with ⟨block, isCode, -⟩
  rw [isCode]
  rfl

theorem ids_fastCode (op : FastOp W) (run : List Nat) (next : Nat) :
    ids (fastCode op run next) = run := by
  rw [ids, fastCode, List.map_map]
  exact List.map_id run

/-- All statements of an open run get the block of the run. -/
theorem run_registered (body : List Expr) {run : List Nat} {op : FastOp W} {id : Nat} {scope : Scope}
    {emitted : Emitted W} (isFast : body.head?.elim false acceptsEntry = true)
    (compiled : compileBody rt ctx run op id scope body = some emitted) :
    ∀ number ∈ run, number ∈ ids emitted.code := by
  induction body generalizing run op id scope emitted with
  | nil => cases isFast
  | cons stmt body induction =>
      have accepts : acceptsEntry stmt = true := isFast
      rw [compileBody, if_pos accepts] at compiled
      rcases bind_some compiled with ⟨⟨step, added⟩, -, result⟩
      dsimp only at result
      intro number member
      split at result
      · rename_i nextFast
        exact induction nextFast result number (List.mem_append_left _ member)
      · rcases bind_some result with ⟨rest, -, result⟩
        cases result
        apply mem_ids_left
        rw [ids_fastCode]
        exact List.mem_append_left _ member

/-- No run of statements is open. -/
def NoRun : Compiler.Task W → Prop
  | .body run _ _ _ _ => run = []
  | _ => True

/-- A statement has a block of its first number. -/
theorem first_registered {id : Nat} {scope : Scope} {stmt : Expr} {emitted : Emitted W}
    (derived : Compiles rt ctx (.expr id scope stmt) emitted) (known : Known emitted id) :
    id ∈ ids emitted.code := by
  rcases known with registered | leftOpen
  · exact registered
  · have isNext := eq_nextId_of_leftOpen (derived.noRedirects nofun) leftOpen
    have takes : id < emitted.nextId := derived.first_lt trivial (Nat.le_refl _)
    omega

theorem first_known {task : Compiler.Task W} {emitted : Emitted W}
    (derived : Compiles rt ctx task emitted) (noRun : NoRun task) : Known emitted task.first := by
  have one : ∀ {id emitted}, OneBlock (W := W) id emitted → id ∈ ids emitted.code := by
    intro id emitted isOne
    rw [ids_oneBlock isOne]
    exact List.mem_singleton_self id
  induction derived with
  | @rule premises task emitted isRule compiled derived known =>
  have stmt : ∀ {id scope stmt value}, (Task.expr id scope stmt, value) ∈ premises →
      id ∈ ids (Emitted.code value) := fun member =>
    first_registered (derived _ member) (known _ member trivial)
  cases isRule with
  | fast isFast => exact .inl (one (oneBlock_pure isFast))
  | tuple isTuple => exact .inl (one (oneBlock_tuple isTuple))
  | fusedSelf isFused => exact .inl (one (oneBlock_fusedSelf isFused))
  | fusedRt isFused => exact .inl (one (oneBlock_fusedRt isFused))
  | string => exact .inl (one (oneBlock_string _ _ _))
  | letOpen | wait _ _ _ _ => exact .inl List.mem_cons_self
  | argsNil | seqNil | armsNil | handlersNil => exact .inr (leftOpen_nextId (.inl rfl) rfl)
  | letTerminal _ | seqLast _ => exact .inl (stmt List.mem_cons_self)
  | letValue _ | kTable _ _ | seqCons _ => exact .inl (mem_ids_left _ (stmt List.mem_cons_self))
  | argsCons _ => exact .inl (mem_ids_left _ (mem_ids_left _ (stmt List.mem_cons_self)))
  | «when» _ _ =>
      exact .inl (mem_ids_left _ (mem_ids_left _ (mem_ids_left _ (stmt List.mem_cons_self))))
  | index _ _ =>
      exact .inl (mem_ids_left _ (mem_ids_left _ (mem_ids_left _ (mem_ids_left _
        (stmt List.mem_cons_self)))))
  | @call id scope _ _ _ staged call called =>
      rcases known _ List.mem_cons_self trivial with registered | leftOpen
      · exact .inl (mem_ids_left _ registered)
      · have isNext : id = staged.nextId :=
          eq_nextId_of_leftOpen ((derived _ List.mem_cons_self).noRedirects (by simp)) leftOpen
        refine .inl (mem_ids_append.mpr (.inr ?_))
        rw [Task.first, isNext]
        exact one (oneBlock_call called)
  | @armsSelf id _ _ _ _ arm next _ leaves =>
      rcases known _ List.mem_cons_self trivial with registered | isRedirect | ⟨-, stays⟩
      · exact .inl (mem_ids_left _ registered)
      · rw [(derived _ List.mem_cons_self).noRedirects (by simp)] at isRedirect
        exact absurd isRedirect List.not_mem_nil
      · exact absurd leaves (stays next)
  | @armsOn id _ _ _ _ arm next _ goesOn =>
      rcases known _ List.mem_cons_self trivial with registered | leftOpen
      · exact .inl (mem_ids_left _ registered)
      · have isNext : id = arm.nextId :=
          eq_nextId_of_leftOpen ((derived _ List.mem_cons_self).noRedirects (by simp)) leftOpen
        have same : arm.nextId = next := goesOn.elim nextId_of_outcome nextId_of_outcome
        refine .inr (.inl ?_)
        rw [Task.first, isNext, same]
        exact List.mem_cons_self
  | @handlersCons id _ _ _ _ first rest =>
      rcases known _ List.mem_cons_self rfl with registered | leftOpen
      · exact .inl (mem_ids_left _ registered)
      · have isNext : id = first.nextId :=
          eq_nextId_of_leftOpen ((derived _ List.mem_cons_self).noRedirects (by simp)) leftOpen
        have behind : Known rest first.nextId :=
          known _ (List.mem_cons_of_mem _ List.mem_cons_self) trivial
        rw [Task.first, isNext]
        exact behind.imp_left fun registered => mem_ids_append.mpr (.inr registered)
  | bodyNil =>
      rcases noRun with rfl : _ = []
      exact .inr (leftOpen_nextId (.inl rfl) rfl)
  | @bodyJoin run op id _ _ body _ _ _ _ nextFast =>
      rcases noRun with rfl : run = []
      exact .inl (run_registered body nextFast (derived _ List.mem_cons_self).compile id
        (List.mem_singleton_self id))
  | @bodyFlush run op id _ _ _ _ _ _ _ =>
      rcases noRun with rfl : run = []
      refine .inl (mem_ids_left _ ?_)
      rw [ids_fastCode]
      exact List.mem_singleton_self id
  | @bodyStmt run _ _ _ _ _ _ _ _ _ =>
      rcases noRun with rfl : run = []
      exact .inl (mem_ids_left _ (stmt List.mem_cons_self))
  | @bodyLast run _ id _ _ _ first _ _ =>
      rcases noRun with rfl : run = []
      have registered : id ∈ ids first.code := stmt List.mem_cons_self
      exact .inl registered

/-! ## Where code leads -/

/-- What is emitted goes on with blocks that it has or with numbers that it leaves open. -/
structure Threaded (emitted : Emitted W) : Prop where
  closed : Closed Leads (LeftOpen emitted) emitted.code
  redirects : emitted.redirects.Nodup
  noBlock : emitted.redirects.Disjoint (ids emitted.code)
  starts : ∀ start ∈ emitted.starts, Known emitted start

/-- The statements of a run have different numbers. -/
def RunNodup : Compiler.Task W → Prop
  | .body run _ _ _ _ => run.Nodup
  | _ => True

namespace Threaded

theorem of_closed {emitted : Emitted W} (closed : Closed Leads (LeftOpen emitted) emitted.code)
    (noStarts : emitted.starts = []) (noRedirects : emitted.redirects = []) : Threaded emitted where
  closed := closed
  redirects := by
    rw [noRedirects]
    exact List.nodup_nil
  noBlock := by
    rw [noRedirects]
    exact List.disjoint_nil_left _
  starts := by
    rw [noStarts]
    nofun

/-- Code in front of what is threaded that goes on with it. -/
theorem after {before : Code W} {rest : Emitted W} {middle : Nat} {exits : Nat → Prop}
    (closed : Closed Leads exits before) (below : ∀ entry ∈ before, entry.1 < middle)
    (threaded : Threaded rest) (laid : Laid middle rest)
    (known : ∀ next, exits next → Known rest next) :
    Threaded { rest with code := before ++ rest.code } where
  closed := closed.append threaded.closed
    (disjoint_numbers below fun entry member => (laid.fragment.inside entry member).1) known
    fun _ => .inr
  redirects := threaded.redirects
  noBlock exit isExit member := by
    rcases mem_ids_append.mp member with isBefore | isRest
    · have range := laid.redirects exit isExit
      rcases List.mem_map.mp isBefore with ⟨entry, isEntry, rfl⟩
      have bound := below entry isEntry
      omega
    · exact threaded.noBlock isExit isRest
  starts start isStart :=
    (threaded.starts start isStart).imp_left fun registered => mem_ids_append.mpr (.inr registered)

theorem withStart {emitted : Emitted W} (threaded : Threaded emitted) {start : Nat}
    (known : Known emitted start) : Threaded { emitted with starts := start :: emitted.starts } where
  closed := threaded.closed
  redirects := threaded.redirects
  noBlock := threaded.noBlock
  starts other member := by
    rcases List.mem_cons.mp member with rfl | later
    · exact known
    · exact threaded.starts other later

theorem withRedirect {emitted : Emitted W} (threaded : Threaded emitted) {exit : Nat}
    (fresh : exit ∉ emitted.redirects) (noBlock : exit ∉ ids emitted.code) :
    Threaded { emitted with redirects := exit :: emitted.redirects } where
  closed := threaded.closed.mono fun _ leftOpen => leftOpen.imp_left (List.mem_cons_of_mem exit)
  redirects := List.nodup_cons.mpr ⟨fresh, threaded.redirects⟩
  noBlock := List.disjoint_cons_left.mpr ⟨noBlock, threaded.noBlock⟩
  starts start isStart := (threaded.starts start isStart).imp_right fun leftOpen =>
    leftOpen.imp_left (List.mem_cons_of_mem exit)

/-- Behind a body that has left its branch, what follows goes on all the same. -/
theorem renamed {emitted : Emitted W} (threaded : Threaded emitted) {next : Nat}
    (same : emitted.nextId = next) : Threaded { emitted with outcome := .continued next } := by
  have stillOpen : ∀ id, LeftOpen emitted id → LeftOpen { emitted with outcome := .continued next } id :=
    fun id leftOpen => leftOpen.imp_right fun isNext => ⟨isNext.1.trans same, nofun⟩
  exact ⟨threaded.closed.mono stillOpen, threaded.redirects, threaded.noBlock,
    fun start isStart => (threaded.starts start isStart).imp_right (stillOpen start)⟩

end Threaded

/-- A statement that goes on leaves the next number open only. -/
theorem closed_of_outcome {task : Compiler.Task W} {emitted : Emitted W}
    (derived : Compiles rt ctx task emitted)
    (notArms : ∀ id scope branches, task ≠ .arms id scope branches) (threaded : Threaded emitted)
    {outcome : StmtOutcome} (isOutcome : emitted.outcome = outcome) :
    Closed Leads (· = outcome.nextAvailable) emitted.code :=
  threaded.closed.mono fun _ leftOpen =>
    (eq_nextId_of_leftOpen (derived.noRedirects notArms) leftOpen).trans
      (nextId_of_outcome isOutcome)

theorem threaded_oneBlock {id : Nat} {emitted : Emitted W} (isOne : OneBlock id emitted)
    (continues : emitted.outcome = .continued (id + 1)) : Threaded emitted := by
  rcases isOne.code with ⟨block, isCode, leads⟩
  refine .of_closed ?_ isOne.noStarts isOne.noRedirects
  rw [isCode]
  exact .single fun next isNext => .inr (leftOpen_nextId (.inl continues)
    ((leads next isNext).trans isOne.nextId.symm))

theorem threaded_noLead {id : Nat} {emitted : Emitted W} (isOne : OneBlock id emitted)
    (stays : ∀ entry ∈ emitted.code, ∀ next, ¬ Leads entry.2 next) : Threaded emitted := by
  refine .of_closed ⟨?_, fun entry member next isNext => absurd isNext (stays entry member next)⟩
    isOne.noStarts isOne.noRedirects
  change (ids emitted.code).Nodup
  rw [ids_oneBlock isOne]
  exact List.nodup_cons.mpr ⟨List.not_mem_nil, List.nodup_nil⟩

theorem threaded_pure {id : Nat} {scope : Scope} {stmt : Expr} {emitted : Emitted W}
    (compiled : compilePure rt ctx id scope stmt = some emitted) : Threaded emitted := by
  apply threaded_oneBlock (oneBlock_pure compiled)
  rcases bind_some compiled with ⟨⟨op, added⟩, -, result⟩
  cases result
  rfl

theorem threaded_tuple {id : Nat} {scope : Scope} {elems : List Expr} {emitted : Emitted W}
    (compiled : compileTuple rt ctx id scope elems = some emitted) : Threaded emitted := by
  apply threaded_oneBlock (oneBlock_tuple compiled)
  rcases bind_some compiled with ⟨folded, -, result⟩
  cases result
  rfl

theorem threaded_fusedRt {id : Nat} {scope : Scope} {callee : String} {args : List Expr}
    {emitted : Emitted W} (compiled : compileFusedRtCall rt ctx id scope callee args = some emitted) :
    Threaded emitted := by
  apply threaded_oneBlock (oneBlock_fusedRt compiled)
  rcases bind_some compiled with ⟨folded, -, result⟩
  cases result
  rfl

theorem threaded_fusedSelf {id : Nat} {scope : Scope} {args : List Expr} {emitted : Emitted W}
    (compiled : compileFusedSelfCall rt ctx id scope args = some emitted) : Threaded emitted := by
  apply threaded_noLead (oneBlock_fusedSelf compiled)
  rcases bind_some compiled with ⟨folded, -, result⟩
  rcases bind_some result with ⟨select, -, result⟩
  cases result
  intro entry member next
  rw [List.mem_singleton.mp member]
  exact not_leads_fusedSelf

/-- The block of a call goes on with the next number, that of a `self(...)` with none. -/
theorem threaded_call {id : Nat} {scope : Scope} {callee : String} {ty : Ty} {args : List Expr}
    {emitted : Emitted W} (compiled : compileCall rt ctx id scope callee ty args = some emitted) :
    Threaded emitted := by
  have isOne := oneBlock_call compiled
  rw [compileCall] at compiled
  split at compiled
  · cases compiled
    exact threaded_oneBlock isOne rfl
  · dsimp only at compiled
    split at compiled
    · cases compiled
      exact threaded_oneBlock isOne rfl
    · rcases bind_some compiled with ⟨select, -, result⟩
      split at result
      · cases result
        apply threaded_noLead isOne
        rintro entry member next ⟨exec, resumes⟩
        rw [List.mem_singleton.mp member] at resumes
        cases resumes
      · cases result
        exact threaded_oneBlock isOne rfl

/-- Code and a block behind it that it goes on with. -/
theorem closed_concat {before : Code W} {block : Block W} {next : Nat} {exits : Nat → Prop}
    (closed : Closed Leads (· = next) before) (below : ∀ entry ∈ before, entry.1 < next)
    (goes : ∀ id, Leads block id → id = next ∨ exits id) :
    Closed Leads exits (before ++ [(next, block)]) := by
  refine closed.append (.single goes) (disjoint_numbers below ?_) (fun id isNext => .inl ?_)
    fun id => .inr
  · intro entry member
    rw [List.mem_singleton.mp member]
  · rw [isNext]
    exact List.mem_singleton_self next

theorem below_concat {before : Code W} {next : Nat} (block : Block W)
    (below : ∀ entry ∈ before, entry.1 < next) :
    ∀ entry ∈ before ++ [(next, block)], entry.1 < next + 1 := by
  intro entry member
  rcases List.mem_append.mp member with isBefore | isLast
  · exact Nat.lt_succ_of_lt (below entry isBefore)
  · rw [List.mem_singleton.mp isLast]
    exact Nat.lt_succ_self next

/-- The block behind the code goes on with the next number. -/
theorem closed_step {before : Code W} {block : Block W} {next : Nat}
    (closed : Closed Leads (· = next) before) (below : ∀ entry ∈ before, entry.1 < next)
    (goes : GoesTo block (next + 1)) : Closed Leads (· = next + 1) (before ++ [(next, block)]) :=
  closed_concat closed below fun id ⟨exec, resumes⟩ => .inr (goes exec id resumes)

theorem closed_redirects {redirects : List Nat} (distinct : redirects.Nodup) (next : Nat) :
    Closed Leads (· = next) (redirects.map fun exit => (exit, (redirectBlock next : Block W))) where
  distinct := by
    rw [List.map_map]
    exact distinct.map fun _ _ same => same
  stays entry member id leads := by
    rcases List.mem_map.mp member with ⟨exit, -, rfl⟩
    rcases leads with ⟨exec, resumes⟩
    exact .inr (Option.some.inj resumes).symm

theorem closed_fastCode (op : FastOp W) {run : List Nat} (distinct : run.Nodup) (next : Nat) :
    Closed Leads (· = next) (fastCode op run next) where
  distinct := by
    change (ids (fastCode op run next)).Nodup
    rw [ids_fastCode]
    exact distinct
  stays entry member id leads := by
    rcases List.mem_map.mp member with ⟨number, -, rfl⟩
    rcases leads with ⟨exec, resumes⟩
    exact .inr (goesTo_orTrap exec id resumes)

/-- The check of a `when`, its arms and what leads behind it. -/
theorem closed_when (rt : RtFuncs W) {done : Nat} {disc arms : Emitted W}
    (closed : Closed Leads (· = done) disc.code) (below : ∀ entry ∈ disc.code, entry.1 < done)
    (bodies : Threaded arms) (laid : Laid (done + 1) arms) (select : Memory → Word → Option Nat) :
    Closed Leads (· = arms.nextId)
      (disc.code ++ [(done, whenBlock rt select arms.starts arms.nextId)] ++ arms.code ++
        arms.redirects.map fun exit => (exit, redirectBlock arms.nextId)) := by
  have isRedirect : ∀ id, id ∈ ids (arms.redirects.map fun exit =>
      (exit, (redirectBlock arms.nextId : Block W))) ↔ id ∈ arms.redirects := by
    intro id
    simp [ids]
  have check : Closed Leads (fun id => id = arms.nextId ∨ id ∈ arms.starts)
      (disc.code ++ [(done, whenBlock rt select arms.starts arms.nextId)]) :=
    closed_concat closed below fun id leads => .inr (leads_whenBlock leads)
  have checked := below_concat (whenBlock rt select arms.starts arms.nextId) below
  have chosen : Closed Leads (fun id => id ∈ arms.redirects ∨ id = arms.nextId)
      (disc.code ++ [(done, whenBlock rt select arms.starts arms.nextId)] ++ arms.code) := by
    refine check.append bodies.closed (disjoint_numbers checked fun entry member =>
      (laid.fragment.inside entry member).1) ?_ fun id isOpen => .inr (isOpen.imp_right And.left)
    rintro id (isNext | isStart)
    · exact .inr (.inr isNext)
    · exact (bodies.starts id isStart).imp_right fun isOpen => isOpen.imp_right And.left
  refine chosen.append (closed_redirects bodies.redirects _) ?_ ?_ fun _ => .inr
  · intro id inFront behind
    have exit := (isRedirect id).mp behind
    rcases mem_ids_append.mp inFront with isCheck | inArms
    · have range := laid.redirects id exit
      rcases List.mem_map.mp isCheck with ⟨entry, isEntry, rfl⟩
      have bound := checked entry isEntry
      omega
    · exact bodies.noBlock exit inArms
  · rintro id (exit | isNext)
    · exact .inl ((isRedirect id).mpr exit)
    · exact .inr isNext

/-- The check of a `wait` and its handlers. -/
theorem closed_wait (rt : RtFuncs W) {id : Nat} {bodies : Emitted W} (wait : WaitExpr)
    (dispatch : Word → Option Nat) (filter : List Folded) (handlers : Threaded bodies) (noRedirects : bodies.redirects = [])
    (laid : Laid (id + 1) bodies) :
    Closed Leads (· = bodies.nextId)
      ([(id, waitBlock rt wait dispatch filter bodies.starts id)] ++ bodies.code) := by
  have check : Closed Leads (· ∈ bodies.starts)
      [(id, waitBlock rt wait dispatch filter bodies.starts id)] :=
    .single fun next leads => leads_waitBlock leads
  refine check.append handlers.closed (disjoint_numbers ?_ fun entry member =>
    (laid.fragment.inside entry member).1) (fun next isStart => ?_)
    fun next leftOpen => .inr (eq_nextId_of_leftOpen noRedirects leftOpen)
  · intro entry member
    rw [List.mem_singleton.mp member]
    exact Nat.lt_succ_self id
  · exact (handlers.starts next isStart).imp_right (eq_nextId_of_leftOpen noRedirects)

/-- The call `rt_load_u8` of an index, with its two arguments. -/
theorem closed_index (rt : RtFuncs W) {atBuf atOffset : Nat} {buf offset : Code W} (base : Nat)
    (bufClosed : Closed Leads (· = atBuf) buf) (bufBelow : ∀ entry ∈ buf, entry.1 < atBuf)
    (offsetClosed : Closed Leads (· = atOffset) offset)
    (offsetRange : ∀ entry ∈ offset, atBuf + 1 ≤ entry.1 ∧ entry.1 < atOffset)
    (ordered : atBuf + 1 ≤ atOffset) (starts : atBuf + 1 ∈ ids offset) :
    Closed Leads (· = atOffset + 2)
      (buf ++ [(atBuf, stageBlock atBuf base)] ++ offset ++
        [(atOffset, stageBlock atOffset (base + 1))] ++
        [(atOffset + 1, rtCallBlock rt (atOffset + 1) "rt_load_u8" base 2)]) := by
  have stagedBuf := closed_step bufClosed bufBelow (goesTo_stageBlock atBuf base)
  have stagedBelow := below_concat (stageBlock atBuf base) bufBelow
  have both : Closed Leads (· = atOffset)
      (buf ++ [(atBuf, (stageBlock atBuf base : Block W))] ++ offset) := by
    refine stagedBuf.append offsetClosed (disjoint_numbers stagedBelow fun entry member =>
      (offsetRange entry member).1) (fun id isNext => .inl ?_) fun _ => .inr
    rw [isNext]
    exact starts
  have bothBelow : ∀ entry ∈ buf ++ [(atBuf, (stageBlock atBuf base : Block W))] ++ offset,
      entry.1 < atOffset := by
    intro entry member
    rcases List.mem_append.mp member with inFront | isOffset
    · exact Nat.lt_of_lt_of_le (stagedBelow entry inFront) ordered
    · exact (offsetRange entry isOffset).2
  have staged := closed_step both bothBelow (goesTo_stageBlock atOffset (base + 1))
  exact closed_step staged (below_concat _ bothBelow) (goesTo_rtCallBlock _ _ _ _)

/-- What the pipeline emits is threaded. -/
theorem threaded {task : Compiler.Task W} {emitted : Emitted W}
    (derived : Compiles rt ctx task emitted) (placed : task.Placed) (runNodup : RunNodup task) :
    Threaded emitted := by
  induction derived with
  | @rule premises task emitted isRule compiled derived induction =>
  have start : NoRun task → Known emitted task.first := first_known (.rule isRule compiled derived)
  have last : ∀ {part other}, premises = [part, other] → other ∈ premises := by
    rintro part other rfl
    exact List.mem_cons_of_mem _ List.mem_cons_self
  have inner : ∀ {part}, part ∈ premises → part.1.Placed := fun member =>
    (isRule.nested derived placed _ member).placed
  have laid : ∀ {part}, part ∈ premises → Laid part.1.first part.2 := fun member =>
    (derived _ member).laid (inner member)
  have below : ∀ {part outcome}, part ∈ premises → part.2.outcome = outcome →
      ∀ entry ∈ part.2.code, entry.1 < outcome.nextAvailable := fun member isOutcome entry isEntry =>
    (((laid member).upTo isOutcome).inside entry isEntry).2
  have stmt : ∀ {part}, part ∈ premises → RunNodup part.1 → Threaded part.2 :=
    fun member => induction _ member (inner member)
  have closed : ∀ {id scope expr value outcome}, (Task.expr id scope expr, value) ∈ premises →
      value.outcome = outcome → Closed Leads (· = outcome.nextAvailable) value.code :=
    fun member => closed_of_outcome (derived _ member) nofun (stmt member trivial)
  cases isRule with
  | fast isFast => exact threaded_pure isFast
  | tuple isTuple => exact threaded_tuple isTuple
  | fusedRt isFused => exact threaded_fusedRt isFused
  | fusedSelf isFused => exact threaded_fusedSelf isFused
  | string => exact threaded_oneBlock (oneBlock_string _ _ _) rfl
  | letOpen =>
      refine .of_closed (.single fun next ⟨exec, resumes⟩ => ?_) rfl rfl
      exact .inr (leftOpen_nextId (.inl rfl) (Option.some.inj resumes).symm)
  | letTerminal _ | seqLast _ => exact stmt List.mem_cons_self trivial
  | letValue continues =>
      exact .of_closed (Closed.mono (closed_step (closed List.mem_cons_self continues)
        (below List.mem_cons_self continues) goesTo_const)
        fun _ same => leftOpen_nextId (.inl rfl) same) rfl rfl
  | kTable continues _ =>
      exact .of_closed (Closed.mono (closed_step (closed List.mem_cons_self continues)
        (below List.mem_cons_self continues) goesTo_const)
        fun _ same => leftOpen_nextId (.inl rfl) same) rfl rfl
  | @call _ _ _ _ _ staged call called =>
      have isOne := oneBlock_call called
      have args := stmt List.mem_cons_self trivial
      have isOpen : ∀ id, LeftOpen staged id → id = staged.nextId := fun _ leftOpen =>
        eq_nextId_of_leftOpen ((derived _ List.mem_cons_self).noRedirects (by simp)) leftOpen
      have behind := Threaded.after (args.closed.mono isOpen)
        (fun entry member => ((laid List.mem_cons_self).fragment.inside entry member).2)
        (threaded_call called) (.of_oneBlock isOne (Nat.le_refl _)) fun id same => .inl (by
          rw [ids_oneBlock isOne, same]
          exact List.mem_singleton_self _)
      exact .of_closed behind.closed isOne.noStarts isOne.noRedirects
  | @index _ scope _ _ _ _ _ _ bufContinues offsetContinues =>
      have second := last rfl
      have offset := (laid second).upTo offsetContinues
      have starts := first_registered (derived _ second) (first_known (derived _ second) trivial)
      have code := closed_index rt scope.jumpArgsBase (closed List.mem_cons_self bufContinues)
        (below List.mem_cons_self bufContinues) (closed second offsetContinues) offset.inside
        offset.ordered starts
      exact .of_closed (code.mono fun _ same => leftOpen_nextId (.inl rfl) same) rfl rfl
  | @«when» _ _ _ _ _ _ _ select continues _ =>
      have second := last rfl
      have code := closed_when rt (closed List.mem_cons_self continues)
        (below List.mem_cons_self continues) (stmt second trivial) (laid second) select
      exact .of_closed (code.mono fun _ same => leftOpen_nextId (.inl rfl) same) rfl rfl
  | @wait _ scope handlers _ _ folded dispatch _ _ _ _ =>
      have code := closed_wait rt (waitAt scope handlers) dispatch folded
        (stmt List.mem_cons_self trivial) ((derived _ List.mem_cons_self).noRedirects (by simp))
        (laid List.mem_cons_self)
      exact .of_closed (code.mono fun _ same => leftOpen_nextId (.inr rfl) same) rfl rfl
  | argsNil | seqNil | armsNil | handlersNil | bodyNil => exact .of_closed .nil rfl rfl
  | @argsCons base _ index _ _ _ _ value next rest continues =>
      have second := last rfl
      have staged := closed_step (closed List.mem_cons_self continues)
        (below List.mem_cons_self continues) (goesTo_stageBlock next (base + index))
      refine .after staged (below_concat _ (below List.mem_cons_self continues)) (stmt second trivial)
        (laid second) fun id same => ?_
      rw [same]
      exact first_known (derived _ second) trivial
  | seqCons continues =>
      have second := last rfl
      refine .after (closed List.mem_cons_self continues) (below List.mem_cons_self continues)
        (stmt second trivial) (laid second) fun id same => ?_
      rw [same]
      exact first_known (derived _ second) trivial
  | @armsSelf id _ _ _ branches arm next rest leaves =>
      have arms := last rfl
      have isArm := derived _ List.mem_cons_self
      have leavesNone : ∀ open', ¬ LeftOpen arm open' := by
        rintro open' (isRedirect | ⟨-, stays⟩)
        · rw [isArm.noRedirects nofun] at isRedirect
          exact absurd isRedirect List.not_mem_nil
        · exact stays next leaves
      have whole := Threaded.after (stmt List.mem_cons_self trivial).closed
        (below List.mem_cons_self leaves) (stmt arms trivial) ?_
        fun open' isOpen => absurd isOpen (leavesNone open')
      · exact whole.withStart (start trivial)
      · apply (derived _ arms).laysOut next
        change next ≤ if branches.isEmpty then next else next + 1
        split <;> omega
  | @armsOn id _ _ _ _ arm next rest goesOn =>
      have arms := last rfl
      have isArm := derived _ List.mem_cons_self
      have same : arm.nextId = next := goesOn.elim nextId_of_outcome nextId_of_outcome
      have isOpen : ∀ {open'}, LeftOpen arm open' → open' = next := fun leftOpen =>
        (eq_nextId_of_leftOpen (isArm.noRedirects nofun) leftOpen).trans same
      have behind : Laid (next + 1) rest := laid arms
      have fresh : Threaded { rest with redirects := next :: rest.redirects } := by
        refine (stmt arms trivial).withRedirect ?_ ?_
        · intro member
          have range := behind.redirects next member
          omega
        · intro member
          rcases List.mem_map.mp member with ⟨entry, isEntry, same⟩
          have range := behind.fragment.inside entry isEntry
          omega
      have bodyBelow : ∀ entry ∈ arm.code, entry.1 < next := by
        rw [← same]
        exact fun entry member => ((laid List.mem_cons_self).fragment.inside entry member).2
      have whole := Threaded.after (stmt List.mem_cons_self trivial).closed bodyBelow fresh
        (((derived _ arms).laysOut next (Nat.le_succ next)).withRedirect (Nat.le_refl next)
          behind.fragment.ordered) fun open' leftOpen => .inr (.inl (by
            rw [isOpen leftOpen]
            exact List.mem_cons_self))
      exact whole.withStart (start trivial)
  | @handlersCons id _ _ _ _ first rest =>
      have handlers := last rfl
      have isFirst := derived _ List.mem_cons_self
      have behind := first_known (derived _ handlers) trivial
      have isOpen : ∀ {next}, LeftOpen first next → Known rest next := by
        intro next leftOpen
        rw [eq_nextId_of_leftOpen (isFirst.noRedirects nofun) leftOpen]
        exact behind
      have whole := Threaded.after (stmt List.mem_cons_self List.nodup_nil).closed
        (fun entry member => ((laid List.mem_cons_self).fragment.inside entry member).2)
        (stmt handlers trivial) (laid handlers) fun _ => isOpen
      exact whole.withStart (start trivial)
  | @bodyJoin run _ id _ _ _ _ _ _ _ _ =>
      refine stmt List.mem_cons_self (List.nodup_append.mpr ⟨runNodup, by simp, ?_⟩)
      intro earlier isEarlier last isLast
      rw [List.mem_singleton.mp isLast]
      exact Nat.ne_of_lt (placed.2 earlier isEarlier).2
  | @bodyFlush run op id _ _ _ step _ rest _ =>
      have distinct : (run ++ [id]).Nodup := by
        refine List.nodup_append.mpr ⟨runNodup, by simp, ?_⟩
        intro earlier isEarlier last isLast
        rw [List.mem_singleton.mp isLast]
        exact Nat.ne_of_lt (placed.2 earlier isEarlier).2
      refine .after (closed_fastCode _ distinct (id + 1)) ?_ (stmt List.mem_cons_self List.nodup_nil)
        (laid List.mem_cons_self) fun next same => ?_
      · exact fun entry member => ((fragment_fastCode placed.1 placed.2).inside entry member).2
      · rw [same]
        exact first_known (derived _ List.mem_cons_self) rfl
  | bodyStmt continues =>
      have second := last rfl
      refine .after (closed List.mem_cons_self continues) (below List.mem_cons_self continues)
        (stmt second List.nodup_nil) (laid second) fun id same => ?_
      rw [same]
      exact first_known (derived _ second) rfl
  | bodyLast terminal =>
      exact (stmt List.mem_cons_self trivial).renamed
        (terminal.elim nextId_of_outcome nextId_of_outcome)

/-! ## Branches -/

/-- A block can pass the number to `quantum_continue`, or store it to be entered again with
behind a stop code. -/
def Passes (block : Block W) (next : Nat) : Prop :=
  Leads block next ∨ next = 0 ∧ ∃ exec, (block exec).2 = .enter

/-- The blocks of a branch, unrolled or not. -/
theorem closed_branch {unrollFactor : Nat} {patterns : List Pattern} {body : List Expr}
    {emitted : Emitted W} (compiled : compileBranch rt ctx unrollFactor patterns body = some emitted) :
    Closed Leads (· = emitted.nextId) emitted.code ∧ (0 ∈ ids emitted.code ∨ 0 = emitted.nextId) ∧
      ∀ entry ∈ emitted.code, entry.1 < emitted.nextId := by
  rw [compileBranch] at compiled
  split at compiled
  · rename_i info unrolled
    rcases bind_some compiled with ⟨⟨iterations, state⟩, -, result⟩
    rcases bind_some result with ⟨exit, isExit, result⟩
    cases result
    have derived := compiles_seq info.exitBody isExit
    have seq := threaded derived (Nat.le_refl 1) trivial
    have laid : Laid 1 exit := derived.laid (Nat.le_refl 1)
    have isOpen : ∀ {next}, LeftOpen exit next → next = exit.nextId :=
      eq_nextId_of_leftOpen (derived.noRedirects nofun)
    have loop : Closed Leads (· = 1) [(0, chunkBlock rt info patterns.length iterations)] :=
      .single fun next => leads_chunkBlock
    have loopBelow : ∀ entry ∈ [(0, chunkBlock rt info patterns.length iterations)], entry.1 < 1 := by
      intro entry member
      rw [List.mem_singleton.mp member]
      exact Nat.one_pos
    have apart := disjoint_numbers loopBelow fun entry member => (laid.fragment.inside entry member).1
    refine ⟨loop.append seq.closed apart ?_ fun next leftOpen => .inr (isOpen leftOpen),
      .inl List.mem_cons_self, ?_⟩
    · rintro next rfl
      exact (first_known derived trivial).imp_right isOpen
    · intro entry member
      rcases List.mem_cons.mp member with rfl | inExit
      · exact laid.fragment.ordered
      · exact (laid.fragment.inside entry inExit).2
  · have derived := compiles_body body compiled
    have whole := threaded derived (placed_body _ _ _ _) List.nodup_nil
    have isOpen : ∀ {next}, LeftOpen emitted next → next = emitted.nextId :=
      eq_nextId_of_leftOpen (derived.noRedirects nofun)
    exact ⟨whole.closed.mono fun _ => isOpen, (first_known derived rfl).imp_right isOpen,
      fun entry member => ((derived.laid (placed_body _ _ _ _)).fragment.inside entry member).2⟩

/-- No two blocks of a branch have one number, every number that a block passes on has a block or
is the one behind the body, and so an actor in the branch is always at a block or behind the
body. -/
theorem block_ids {unrollFactor : Nat} {patterns : List Pattern} {body : List Expr}
    {emitted : Emitted W} (compiled : compileBranch rt ctx unrollFactor patterns body = some emitted) :
    (ids emitted.code).Nodup ∧ emitted.nextId ∉ ids emitted.code ∧
      (∀ entry ∈ emitted.code, ∀ next, Passes entry.2 next →
        next ∈ ids emitted.code ∨ next = emitted.nextId) ∧
      ∀ (start : Point W), start.blockId = 0 → ∀ history final,
        Run (BlockStep rt emitted.code) start history final →
        final.blockId ∈ ids emitted.code ∨ final.blockId = emitted.nextId := by
  rcases closed_branch compiled with ⟨closed, zero, below⟩
  have stays : ∀ entry ∈ emitted.code, ∀ next, Passes entry.2 next →
      next ∈ ids emitted.code ∨ next = emitted.nextId := by
    rintro entry member next (leads | ⟨rfl, -⟩)
    · exact closed.stays entry member next leads
    · exact zero
  refine ⟨closed.distinct, ?_, stays, ?_⟩
  · intro registered
    rcases List.mem_map.mp registered with ⟨entry, member, same⟩
    have bound := below entry member
    omega
  · intro start isStart history final run
    cases run with
    | refl =>
        rw [isStart]
        exact zero
    | next _ taken =>
        rcases taken with ⟨block, member, ran⟩
        cases ran with
        | @block _ _ ctx _ _ _ runs _ resumes _ =>
            refine stays _ member _ (.inl ⟨ctx, ?_⟩)
            change (block ctx).2.resume = some _
            rw [runs]
            exact resumes

/-- A `let` of a `when` with an empty arm and one that is a `wait`, and a tuple. -/
def nestedBody : List Expr :=
  [.letVar "x" (.plain "i64") (some (.when (.bool true)
      [(.bool true, []), (.bool false, [.wait [([], [.tuple []])] []])])),
    .tuple []]

theorem block_ids_nested : ∃ emitted : Emitted Unit,
    compileBranch RtFuncs.idle CompilerCtx.bare 1 [] nestedBody = some emitted ∧
    ids emitted.code = [0, 1, 3, 4, 2, 5, 6, 7] ∧ (ids emitted.code).Nodup ∧
    emitted.nextId ∉ ids emitted.code := by
  have numbers : (compileBranch RtFuncs.idle CompilerCtx.bare 1 [] nestedBody).map
      (fun emitted => ids emitted.code) = some [0, 1, 3, 4, 2, 5, 6, 7] := by
    decide +kernel
  rcases Option.map_eq_some_iff.mp numbers with ⟨emitted, compiled, isIds⟩
  rcases block_ids compiled with ⟨distinct, isEnd, -⟩
  exact ⟨emitted, compiled, isIds, distinct, isEnd⟩

end LakeNative.Control

import LakeNative.Compiler.Fragments

/-! # Statements inside statements

A call of the pipeline inside a derivation, at any depth, has its blocks in a range of
numbers of its own: there the whole code has these blocks and no others.
-/

namespace LakeNative.Compiler

open LakeNative.Runtime LakeNative.NumberedCode

variable {W : Type} {rt : RtFuncs W} {ctx : CompilerCtx}

/-- The first number that the blocks of a task can have. -/
def Task.first : Task W → Nat
  | .expr id _ _ | .args _ _ _ id _ _ | .seq id _ _ | .arms id _ _ | .handlers id _ _ => id
  | .body run _ id _ _ => run.head?.getD id

/-- Its open run of statements, if any, lies in front of the rest. -/
def Task.Placed (task : Task W) : Prop := task.From task.first

/-- The inner call has its blocks in the range of the outer one. Arms leave out the
blocks that lead behind their `when`. -/
structure Nested (outer inner : Task W × Emitted W) : Prop where
  placed : inner.1.Placed
  low : outer.1.first ≤ inner.1.first
  high : inner.2.nextId ≤ outer.2.nextId
  included : ∀ entry ∈ inner.2.code, entry ∈ outer.2.code
  only : ∀ entry ∈ outer.2.code, inner.1.first ≤ entry.1 → entry.1 < inner.2.nextId →
    entry ∈ inner.2.code ∨ entry.1 ∈ inner.2.redirects
  redirects : ∀ exit ∈ outer.2.redirects, inner.1.first ≤ exit → exit < inner.2.nextId →
    exit ∈ inner.2.redirects

namespace Nested

variable {outer middle inner : Task W × Emitted W}

theorem refl (placed : inner.1.Placed) : Nested inner inner where
  placed := placed
  low := Nat.le_refl _
  high := Nat.le_refl _
  included _ member := member
  only _ member _ _ := .inl member
  redirects _ member _ _ := member

theorem trans (nested : Nested outer middle) (deeper : Nested middle inner) :
    Nested outer inner where
  placed := deeper.placed
  low := Nat.le_trans nested.low deeper.low
  high := Nat.le_trans deeper.high nested.high
  included entry member := nested.included entry (deeper.included entry member)
  only entry member isLow isHigh := by
    have inMiddle := nested.only entry member (Nat.le_trans deeper.low isLow)
      (Nat.lt_of_lt_of_le isHigh deeper.high)
    rcases inMiddle with isBlock | isExit
    · exact deeper.only entry isBlock isLow isHigh
    · exact .inr (deeper.redirects entry.1 isExit isLow isHigh)
  redirects exit member isLow isHigh :=
    deeper.redirects exit (nested.redirects exit member (Nat.le_trans deeper.low isLow)
      (Nat.lt_of_lt_of_le isHigh deeper.high)) isLow isHigh

theorem embeds (nested : Nested outer inner) (closed : inner.2.redirects = []) :
    Embeds outer.2.code inner.1.first inner.2.nextId inner.2.code := by
  intro entry isLow isHigh
  constructor
  · intro member
    rcases nested.only entry member isLow isHigh with isBlock | isExit
    · exact isBlock
    · rw [closed] at isExit
      exact absurd isExit List.not_mem_nil
  · exact nested.included entry

end Nested

theorem Compiles.laid {task : Task W} {emitted : Emitted W} (compiled : Compiles rt ctx task emitted)
    (placed : task.Placed) : Laid task.first emitted :=
  compiled.laysOut task.first placed

/-- The only call that another one makes. -/
theorem nested_one {outer inner : Task W × Emitted W} (before : Code W) {behind : Code W}
    (placed : inner.1.Placed) (isCode : outer.2.code = before ++ inner.2.code ++ behind)
    (earlier : ∀ entry ∈ before, entry.1 < inner.1.first)
    (later : ∀ entry ∈ behind, inner.2.nextId ≤ entry.1)
    (low : outer.1.first ≤ inner.1.first) (high : inner.2.nextId ≤ outer.2.nextId)
    (redirects : outer.2.redirects ⊆ inner.2.redirects) :
    ∀ premise ∈ [inner], Nested outer premise := by
  intro premise member
  rcases List.mem_singleton.mp member with rfl
  refine ⟨placed, low, high, ?_, ?_, fun exit isExit _ _ => redirects isExit⟩
  · intro entry isBlock
    rw [isCode]
    exact List.mem_append_left _ (List.mem_append_right _ isBlock)
  · intro entry isBlock isLow isHigh
    rw [isCode] at isBlock
    rcases List.mem_append.mp isBlock with isFront | isBehind
    · rcases List.mem_append.mp isFront with isBefore | isInner
      · exact absurd (earlier entry isBefore) (Nat.not_lt_of_le isLow)
      · exact .inl isInner
    · exact absurd (later entry isBehind) (Nat.not_le_of_lt isHigh)

/-- Two calls that another one makes, one behind the other. -/
theorem nested_two {outer first second : Task W × Emitted W} (middle : Code W) {behind : Code W}
    (placed : first.1.Placed) (alsoPlaced : second.1.Placed)
    (isCode : outer.2.code = first.2.code ++ middle ++ second.2.code ++ behind)
    (laid : Laid first.1.first first.2) (alsoLaid : Laid second.1.first second.2)
    (forward : first.2.nextId ≤ second.1.first)
    (isMiddle : ∀ entry ∈ middle, first.2.nextId ≤ entry.1 ∧ entry.1 < second.1.first)
    (isBehind : ∀ entry ∈ behind, second.2.nextId ≤ entry.1 ∨ entry.1 ∈ second.2.redirects)
    (low : outer.1.first ≤ first.1.first) (high : second.2.nextId ≤ outer.2.nextId)
    (redirects : ∀ exit ∈ outer.2.redirects,
      (first.2.nextId ≤ exit ∧ exit < second.1.first) ∨ exit ∈ second.2.redirects) :
    ∀ premise ∈ [first, second], Nested outer premise := by
  have ordered := laid.fragment.ordered
  have alsoOrdered := alsoLaid.fragment.ordered
  intro premise member
  rcases List.mem_pair.mp member with rfl | rfl
  · refine ⟨placed, low, by omega, ?_, ?_, ?_⟩
    · intro entry isBlock
      rw [isCode]
      exact List.mem_append_left _ (List.mem_append_left _ (List.mem_append_left _ isBlock))
    · intro entry isBlock isLow isHigh
      rw [isCode, List.mem_append, List.mem_append, List.mem_append] at isBlock
      rcases isBlock with ((isFirst | inMiddle) | isSecond) | isLast
      · exact .inl isFirst
      · have range := isMiddle entry inMiddle
        omega
      · have range := alsoLaid.fragment.inside entry isSecond
        omega
      · rcases isBehind entry isLast with above | isExit
        · omega
        · have range := alsoLaid.redirects entry.1 isExit
          omega
    · intro exit isExit isLow isHigh
      rcases redirects exit isExit with above | isLater
      · omega
      · have range := alsoLaid.redirects exit isLater
        omega
  · refine ⟨alsoPlaced, by omega, high, ?_, ?_, ?_⟩
    · intro entry isBlock
      rw [isCode]
      exact List.mem_append_left _ (List.mem_append_right _ isBlock)
    · intro entry isBlock isLow isHigh
      rw [isCode, List.mem_append, List.mem_append, List.mem_append] at isBlock
      rcases isBlock with ((isFirst | inMiddle) | isSecond) | isLast
      · have range := laid.fragment.inside entry isFirst
        omega
      · have range := isMiddle entry inMiddle
        omega
      · exact .inl isSecond
      · rcases isBehind entry isLast with above | isExit
        · omega
        · exact .inr isExit
    · intro exit isExit isLow isHigh
      rcases redirects exit isExit with above | isLater
      · omega
      · exact isLater

theorem placed_body (op : FastOp W) (id : Nat) (scope : Scope) (body : List Expr) :
    (Task.body [] op id scope body).Placed := ⟨Nat.le_refl _, nofun⟩

theorem first_concat (run : List Nat) (op step : FastOp W) (id : Nat) (scope added : Scope)
    (stmts body : List Expr) :
    (Task.body (run ++ [id]) step (id + 1) added body).first =
      (Task.body run op id scope stmts).first := by
  cases run with
  | nil => rfl
  | cons number run => rfl

/-- The calls that a call makes have their blocks in its range. -/
theorem Rule.nested {premises : List (Task W × Emitted W)} {task : Task W} {emitted : Emitted W}
    (isRule : Rule rt ctx premises task emitted)
    (derived : ∀ premise ∈ premises, Compiles rt ctx premise.1 premise.2) (placed : task.Placed) :
    ∀ premise ∈ premises, Nested (task, emitted) premise := by
  have low : task.first ≤ task.first := Nat.le_refl _
  cases isRule with
  | fast _ | letOpen | string | tuple _ | fusedSelf _ | fusedRt _ | argsNil | seqNil | armsNil
  | handlersNil | bodyNil => nofun
  | @letValue _ _ _ _ _ value next continues =>
      have same : value.nextId = next := nextId_of_outcome continues
      refine nested_one [] (Nat.le_refl _) rfl nofun ?_ low ?_ (List.nil_subset _)
      · simp [same]
      · change value.nextId ≤ next + 1
        omega
  | letTerminal _ | seqLast _ =>
      exact nested_one [] (Nat.le_refl _) (List.append_nil _).symm nofun
        (fun _ member => absurd member List.not_mem_nil) low (Nat.le_refl _) (List.Subset.refl _)
  | call called =>
      have one := oneBlock_call called
      have call := Laid.of_oneBlock one (Nat.le_refl _)
      refine nested_one [] (Nat.le_refl _) rfl nofun
        (fun entry member => (call.fragment.inside entry member).1) low call.fragment.ordered ?_
      change List.Subset (Emitted.redirects _) _
      rw [one.noRedirects]
      exact List.nil_subset _
  | @index id scope _ _ buf atBuf offset atOffset bufContinues offsetContinues =>
      have laid : Laid id buf := (derived _ List.mem_cons_self).laid (Nat.le_refl _)
      have alsoLaid : Laid (atBuf + 1) offset :=
        (derived _ (List.mem_cons_of_mem _ List.mem_cons_self)).laid (Nat.le_refl _)
      have bufEnd : buf.nextId = atBuf := nextId_of_outcome bufContinues
      have offsetEnd : offset.nextId = atOffset := nextId_of_outcome offsetContinues
      refine nested_two _ (Nat.le_refl _) (Nat.le_refl _) (List.append_assoc _ _ _) laid alsoLaid
        (Nat.le_trans (Nat.le_of_eq bufEnd) (Nat.le_succ _)) ?_ ?_ low ?_ nofun
      · simp [bufEnd, Task.first]
      · simp [offsetEnd]
      · change offset.nextId ≤ atOffset + 2
        omega
  | @kTable _ _ _ _ disc done values continues _ =>
      have same : disc.nextId = done := nextId_of_outcome continues
      refine nested_one [] (Nat.le_refl _) rfl nofun ?_ low ?_ (List.nil_subset _)
      · simp [same]
      · change disc.nextId ≤ done + 1
        omega
  | @«when» id _ _ _ disc done arms _ continues _ =>
      have same : disc.nextId = done := nextId_of_outcome continues
      have laid : Laid id disc := (derived _ List.mem_cons_self).laid (Nat.le_refl _)
      have alsoLaid : Laid (done + 1) arms :=
        (derived _ (List.mem_cons_of_mem _ List.mem_cons_self)).laid (Nat.le_refl _)
      refine nested_two _ (Nat.le_refl _) (Nat.le_refl _) rfl laid alsoLaid
        (Nat.le_trans (Nat.le_of_eq same) (Nat.le_succ _)) ?_ ?_ low (Nat.le_refl _) nofun
      · simp [same, Task.first]
      · intro entry member
        rcases List.mem_map.mp member with ⟨exit, isExit, rfl⟩
        exact .inr isExit
  | @wait id _ _ _ bodies _ _ _ _ _ _ =>
      have alsoLaid : Laid (id + 1) bodies := (derived _ List.mem_cons_self).laid (Nat.le_refl _)
      refine nested_one _ (Nat.le_refl _) (List.append_nil _).symm ?_
        (fun _ member => absurd member List.not_mem_nil) (Nat.le_succ _) (Nat.le_refl _)
        (List.nil_subset _)
      simp [Task.first]
  | @argsCons _ _ _ id _ _ _ value next rest continues =>
      have same : value.nextId = next := nextId_of_outcome continues
      have laid : Laid id value := (derived _ List.mem_cons_self).laid (Nat.le_refl _)
      have alsoLaid : Laid (next + 1) rest :=
        (derived _ (List.mem_cons_of_mem _ List.mem_cons_self)).laid (Nat.le_refl _)
      refine nested_two _ (Nat.le_refl _) (Nat.le_refl _) (List.append_nil _).symm laid alsoLaid
        (Nat.le_trans (Nat.le_of_eq same) (Nat.le_succ _)) ?_
        (fun _ member => absurd member List.not_mem_nil) low (Nat.le_refl _) fun _ => .inr
      simp [same, Task.first]
  | @seqCons id _ _ _ value next rest continues =>
      have same : value.nextId = next := nextId_of_outcome continues
      have laid : Laid id value := (derived _ List.mem_cons_self).laid (Nat.le_refl _)
      have alsoLaid : Laid next rest :=
        (derived _ (List.mem_cons_of_mem _ List.mem_cons_self)).laid (Nat.le_refl _)
      exact nested_two [] (Nat.le_refl _) (Nat.le_refl _) (by simp) laid alsoLaid
        (Nat.le_of_eq same) nofun (fun _ member => absurd member List.not_mem_nil) low
        (Nat.le_refl _) fun _ => .inr
  | @armsSelf id _ _ _ branches arm next rest leaves =>
      have same : arm.nextId = next := nextId_of_outcome leaves
      have laid : Laid id arm := (derived _ List.mem_cons_self).laid (Nat.le_refl _)
      have alsoLaid : Laid (if branches.isEmpty then next else next + 1) rest :=
        (derived _ (List.mem_cons_of_mem _ List.mem_cons_self)).laid (Nat.le_refl _)
      refine nested_two [] (Nat.le_refl _) (Nat.le_refl _) (by simp) laid alsoLaid
        ?_ nofun (fun _ member => absurd member List.not_mem_nil) low (Nat.le_refl _) fun _ => .inr
      change arm.nextId ≤ if branches.isEmpty then next else next + 1
      split <;> omega
  | @armsOn id _ _ _ _ arm next rest goesOn =>
      have same : arm.nextId = next := goesOn.elim nextId_of_outcome nextId_of_outcome
      have laid : Laid id arm := (derived _ List.mem_cons_self).laid (Nat.le_refl _)
      have alsoLaid : Laid (next + 1) rest :=
        (derived _ (List.mem_cons_of_mem _ List.mem_cons_self)).laid (Nat.le_refl _)
      refine nested_two [] (Nat.le_refl _) (Nat.le_refl _) (by simp) laid alsoLaid
        (Nat.le_trans (Nat.le_of_eq same) (Nat.le_succ _)) nofun
        (fun _ member => absurd member List.not_mem_nil) low (Nat.le_refl _) ?_
      intro exit member
      rcases List.mem_cons.mp member with rfl | later
      · exact .inl ⟨Nat.le_of_eq same, Nat.lt_succ_self _⟩
      · exact .inr later
  | @handlersCons id _ _ _ _ value rest =>
      have laid : Laid id value := (derived _ List.mem_cons_self).laid (placed_body _ _ _ _)
      have alsoLaid : Laid value.nextId rest :=
        (derived _ (List.mem_cons_of_mem _ List.mem_cons_self)).laid (Nat.le_refl _)
      exact nested_two [] (placed_body _ _ _ _) (Nat.le_refl _) (by simp) laid alsoLaid
        (Nat.le_refl _) nofun (fun _ member => absurd member List.not_mem_nil) low
        (Nat.le_refl _) fun _ => .inr
  | @bodyJoin run op id scope stmt body step added _ _ _ =>
      have same := first_concat run op (fun exec => (op exec).bind step) id scope added
        (stmt :: body) body
      have behind : (Task.body (run ++ [id]) (fun exec => (op exec).bind step) (id + 1) added
          body).Placed := by
        rw [Task.Placed, same]
        refine ⟨Nat.le_succ_of_le placed.1, fun earlier member => ?_⟩
        rcases List.mem_append.mp member with isEarlier | isLast
        · have range := placed.2 earlier isEarlier
          omega
        · rw [List.mem_singleton.mp isLast]
          exact ⟨placed.1, Nat.lt_succ_self _⟩
      exact nested_one [] behind (List.append_nil _).symm nofun
        (fun _ member => absurd member List.not_mem_nil) (Nat.le_of_eq same.symm) (Nat.le_refl _)
        (List.Subset.refl _)
  | @bodyFlush run _ id _ _ _ _ _ _ _ =>
      refine nested_one _ (placed_body _ _ _ _) (List.append_nil _).symm ?_
        (fun _ member => absurd member List.not_mem_nil) (Nat.le_succ_of_le placed.1)
        (Nat.le_refl _) (List.Subset.refl _)
      intro entry member
      exact ((fragment_fastCode placed.1 placed.2).inside entry member).2
  | @bodyStmt run _ id _ _ _ value next rest continues =>
      have same : value.nextId = next := nextId_of_outcome continues
      have laid : Laid id value := (derived _ List.mem_cons_self).laid (Nat.le_refl _)
      have alsoLaid : Laid next rest :=
        (derived _ (List.mem_cons_of_mem _ List.mem_cons_self)).laid (placed_body _ _ _ _)
      exact nested_two [] (Nat.le_refl _) (placed_body _ _ _ _) (by simp) laid alsoLaid
        (Nat.le_of_eq same) nofun (fun _ member => absurd member List.not_mem_nil) placed.1
        (Nat.le_refl _) fun _ => .inr
  | @bodyLast _ _ _ _ _ _ value next terminal =>
      have same : value.nextId = next := terminal.elim nextId_of_outcome nextId_of_outcome
      exact nested_one [] (Nat.le_refl _) (List.append_nil _).symm nofun
        (fun _ member => absurd member List.not_mem_nil) placed.1 (Nat.le_of_eq same)
        (List.Subset.refl _)

/-- A call that is made inside another one, at any depth. -/
inductive Inside (rt : RtFuncs W) (ctx : CompilerCtx) (inner : Task W × Emitted W) :
    Task W × Emitted W → Prop where
  | here (derived : Compiles rt ctx inner.1 inner.2) : Inside rt ctx inner inner
  | deeper {premises task emitted premise} (isRule : Rule rt ctx premises task emitted)
      (compiled : task.compile rt ctx = some emitted)
      (derived : ∀ premise ∈ premises, Compiles rt ctx premise.1 premise.2)
      (member : premise ∈ premises) (inside : Inside rt ctx inner premise) :
      Inside rt ctx inner (task, emitted)

namespace Inside

variable {outer middle inner : Task W × Emitted W}

theorem compiles (inside : Inside rt ctx inner outer) : Compiles rt ctx inner.1 inner.2 := by
  induction inside with
  | here derived => exact derived
  | deeper _ _ _ _ _ induction => exact induction

theorem trans (inside : Inside rt ctx middle outer) (deeper : Inside rt ctx inner middle) :
    Inside rt ctx inner outer := by
  induction inside with
  | here _ => exact deeper
  | deeper isRule compiled derived member _ induction =>
      exact .deeper isRule compiled derived member induction

theorem nested (inside : Inside rt ctx inner outer) (placed : outer.1.Placed) :
    Nested outer inner := by
  induction inside with
  | here _ => exact .refl placed
  | deeper isRule _ derived member _ induction =>
      have one := isRule.nested derived placed _ member
      exact one.trans (induction one.placed)

end Inside

/-! ## What every call emits -/

/-- Only arms leave numbers to lead behind their `when`. -/
theorem Compiles.noRedirects {task : Task W} {emitted : Emitted W}
    (derived : Compiles rt ctx task emitted)
    (notArms : ∀ id scope branches, task ≠ .arms id scope branches) : emitted.redirects = [] := by
  induction derived with
  | rule isRule _ _ induction =>
      cases isRule with
      | fast compiled => exact (oneBlock_pure compiled).noRedirects
      | tuple compiled => exact (oneBlock_tuple compiled).noRedirects
      | fusedSelf compiled => exact (oneBlock_fusedSelf compiled).noRedirects
      | fusedRt compiled => exact (oneBlock_fusedRt compiled).noRedirects
      | call called => exact (oneBlock_call called).noRedirects
      | letOpen | letValue _ | string | index _ _ | kTable _ _ | «when» _ _ | wait _ _ _ _ | argsNil
      | seqNil | handlersNil | bodyNil => rfl
      | armsNil | armsSelf _ | armsOn _ => exact absurd rfl (notArms _ _ _)
      | letTerminal _ | seqLast _ | bodyJoin _ _ | bodyFlush _ | bodyLast _ =>
          exact induction _ List.mem_cons_self nofun
      | argsCons _ | seqCons _ | handlersCons | bodyStmt _ =>
          exact induction _ (List.mem_cons_of_mem _ List.mem_cons_self) nofun

/-- A statement, or a list with one. -/
def Task.HasStmt : Task W → Prop
  | .expr _ _ _ => True
  | .seq _ _ stmts | .body _ _ _ _ stmts => stmts ≠ []
  | _ => False

theorem Compiles.code_ne_nil {task : Task W} {emitted : Emitted W}
    (derived : Compiles rt ctx task emitted) (hasStmt : task.HasStmt) : emitted.code ≠ [] := by
  have one : ∀ {id emitted}, OneBlock (W := W) id emitted → emitted.code ≠ [] := by
    intro id emitted isOne
    rcases isOne.code with ⟨block, isCode, -⟩
    rw [isCode]
    exact List.cons_ne_nil _ _
  induction derived with
  | rule isRule _ _ induction =>
      cases isRule with
      | fast compiled => exact one (oneBlock_pure compiled)
      | tuple compiled => exact one (oneBlock_tuple compiled)
      | fusedSelf compiled => exact one (oneBlock_fusedSelf compiled)
      | fusedRt compiled => exact one (oneBlock_fusedRt compiled)
      | call called => exact List.append_ne_nil_of_right_ne_nil _ (one (oneBlock_call called))
      | string => exact one (oneBlock_string _ _ _)
      | letOpen | letValue _ | index _ _ | kTable _ _ | «when» _ _ | wait _ _ _ _ => simp
      | argsNil | armsNil | handlersNil | argsCons _ | armsSelf _ | armsOn _ | handlersCons =>
          exact hasStmt.elim
      | seqNil | bodyNil => exact absurd rfl hasStmt
      | letTerminal _ | seqLast _ | bodyLast _ => exact induction _ List.mem_cons_self trivial
      | seqCons _ | bodyStmt _ =>
          exact List.append_ne_nil_of_left_ne_nil (induction _ List.mem_cons_self trivial) _
      | @bodyJoin _ _ _ _ _ body _ _ _ _ nextFast =>
          apply induction _ List.mem_cons_self
          rintro rfl
          cases nextFast
      | bodyFlush _ => simp [fastCode]

/-- A statement takes a number. -/
theorem Compiles.first_lt {task : Task W} {emitted : Emitted W}
    (derived : Compiles rt ctx task emitted) (hasStmt : task.HasStmt) (placed : task.Placed) :
    task.first < emitted.nextId := by
  rcases List.exists_mem_of_ne_nil _ (derived.code_ne_nil hasStmt) with ⟨entry, member⟩
  have range := (derived.laid placed).fragment.inside entry member
  omega

end LakeNative.Compiler

import LakeNative.Compiler.Nesting

/-! # Where statements are entered

Control comes into the blocks of a statement through its first number only. Arms and handlers
have a number of their own for each of their bodies.
-/

namespace LakeNative.Compiler

open LakeNative.Runtime LakeNative.NumberedCode

variable {W : Type} {rt : RtFuncs W} {ctx : CompilerCtx}

/-- The number is outside the call's range, or one that the call is entered at. -/
def EnteredAt (inner : Task W × Emitted W) (next : Nat) : Prop :=
  next ≤ inner.1.first ∨ inner.2.nextId ≤ next ∨ next ∈ inner.2.starts

/-- The other blocks of the outer call lead to the inner one only where it is entered. -/
structure Entered (outer inner : Task W × Emitted W) : Prop where
  leads : ∀ entry ∈ outer.2.code, entry ∉ inner.2.code → ∀ next, Leads entry.2 next →
    EnteredAt inner next
  starts : ∀ start ∈ outer.2.starts, EnteredAt inner start

namespace Entered

variable {outer middle inner : Task W × Emitted W}

theorem refl (inner : Task W × Emitted W) : Entered inner inner where
  leads _ member other := absurd member other
  starts _ member := .inr (.inr member)

theorem trans (entered : Entered outer middle) (deeper : Entered middle inner)
    (nested : Nested middle inner) : Entered outer inner := by
  have through : ∀ next, EnteredAt middle next → EnteredAt inner next := by
    rintro next (isLow | isHigh | isStart)
    · exact .inl (Nat.le_trans isLow nested.low)
    · exact .inr (.inl (Nat.le_trans nested.high isHigh))
    · exact deeper.starts next isStart
  refine ⟨fun entry member other next leads => ?_, fun start isStart =>
    through start (entered.starts start isStart)⟩
  by_cases inMiddle : entry ∈ middle.2.code
  · exact deeper.leads entry inMiddle other next leads
  · exact through next (entered.leads entry member inMiddle next leads)

end Entered

theorem eq_of_leads {block : Block W} {target next : Nat} (goes : GoesTo block target)
    (leads : Leads block next) : next = target := by
  rcases leads with ⟨exec, resumes⟩
  exact goes exec next resumes

/-- The blocks around the only call that another one makes. -/
theorem entered_one {outer inner : Task W × Emitted W} (before : Code W) {behind : Code W}
    (isCode : outer.2.code = before ++ inner.2.code ++ behind)
    (beforeLeads : ∀ entry ∈ before, ∀ next, Leads entry.2 next → EnteredAt inner next)
    (behindLeads : ∀ entry ∈ behind, ∀ next, Leads entry.2 next → EnteredAt inner next)
    (starts : ∀ start ∈ outer.2.starts, EnteredAt inner start) :
    ∀ premise ∈ [inner], Entered outer premise := by
  intro premise member
  rcases List.mem_singleton.mp member with rfl
  refine ⟨fun entry isBlock other => ?_, starts⟩
  rw [isCode, List.mem_append, List.mem_append] at isBlock
  rcases isBlock with (isBefore | isInner) | isBehind
  · exact beforeLeads entry isBefore
  · exact absurd isInner other
  · exact behindLeads entry isBehind

/-- The blocks around two calls that another one makes, one behind the other. -/
theorem entered_two {outer first second : Task W × Emitted W} (middle : Code W) {behind : Code W}
    (isCode : outer.2.code = first.2.code ++ middle ++ second.2.code ++ behind)
    (laid : Laid first.1.first first.2) (alsoLaid : Laid second.1.first second.2)
    (forward : first.2.nextId ≤ second.1.first)
    (middleLeads : ∀ entry ∈ middle, ∀ next, Leads entry.2 next →
      first.2.nextId ≤ next ∧ EnteredAt second next)
    (behindLeads : ∀ entry ∈ behind, ∀ next, Leads entry.2 next →
      first.2.nextId ≤ next ∧ EnteredAt second next)
    (starts : ∀ start ∈ outer.2.starts, EnteredAt first start ∧ EnteredAt second start) :
    ∀ premise ∈ [first, second], Entered outer premise := by
  intro premise member
  rcases List.mem_pair.mp member with rfl | rfl
  · refine ⟨fun entry isBlock other next leads => ?_, fun start isStart => (starts start isStart).1⟩
    refine .inr (.inl ?_)
    rw [isCode, List.mem_append, List.mem_append, List.mem_append] at isBlock
    rcases isBlock with ((isFirst | inMiddle) | isSecond) | isLast
    · exact absurd isFirst other
    · exact (middleLeads entry inMiddle next leads).1
    · exact Nat.le_trans forward (alsoLaid.fragment.stays entry isSecond next leads).1
    · exact (behindLeads entry isLast next leads).1
  · refine ⟨fun entry isBlock other next leads => ?_, fun start isStart => (starts start isStart).2⟩
    rw [isCode, List.mem_append, List.mem_append, List.mem_append] at isBlock
    rcases isBlock with ((isFirst | inMiddle) | isSecond) | isLast
    · exact .inl (Nat.le_trans (laid.fragment.stays entry isFirst next leads).2 forward)
    · exact (middleLeads entry inMiddle next leads).2
    · exact absurd isSecond other
    · exact (behindLeads entry isLast next leads).2

/-- The starts of what comes second, and of what has the first as one body more. -/
theorem enteredAt_starts {first second : Task W × Emitted W} (alsoLaid : Laid second.1.first second.2)
    (forward : first.2.nextId ≤ second.1.first) :
    ∀ start ∈ second.2.starts, EnteredAt first start ∧ EnteredAt second start := by
  intro start isStart
  have range := alsoLaid.starts start isStart
  exact ⟨.inr (.inl (Nat.le_trans forward range.1)), .inr (.inr isStart)⟩

theorem enteredAt_starts_cons {first second : Task W × Emitted W} (laid : Laid first.1.first first.2)
    (alsoLaid : Laid second.1.first second.2) (forward : first.2.nextId ≤ second.1.first) :
    ∀ start ∈ first.1.first :: second.2.starts, EnteredAt first start ∧ EnteredAt second start := by
  intro start isStart
  rcases List.mem_cons.mp isStart with rfl | later
  · exact ⟨.inl (Nat.le_refl _), .inl (Nat.le_trans laid.fragment.ordered forward)⟩
  · exact enteredAt_starts alsoLaid forward start later

theorem leads_redirects {redirects : List Nat} {afterWhen : Nat} :
    ∀ entry ∈ redirects.map fun exit => (exit, (redirectBlock afterWhen : Block W)),
      ∀ next, Leads entry.2 next → next = afterWhen := by
  rintro entry member next ⟨exec, resumes⟩
  rcases List.mem_map.mp member with ⟨exit, -, rfl⟩
  exact (Option.some.inj resumes).symm

/-- A block that always goes on with one number. -/
theorem leads_single {id target : Nat} {block : Block W} (goes : GoesTo block target) :
    ∀ entry ∈ [(id, block)], ∀ next, Leads entry.2 next → next = target := by
  intro entry member next leads
  rcases List.mem_singleton.mp member with rfl
  exact eq_of_leads goes leads

theorem Rule.entered {premises : List (Task W × Emitted W)} {task : Task W} {emitted : Emitted W}
    (isRule : Rule rt ctx premises task emitted)
    (derived : ∀ premise ∈ premises, Compiles rt ctx premise.1 premise.2) (placed : task.Placed) :
    ∀ premise ∈ premises, Entered (task, emitted) premise := by
  have nested := isRule.nested derived placed
  have laid : ∀ premise ∈ premises, Laid premise.1.first premise.2 := fun premise member =>
    (derived premise member).laid (nested premise member).placed
  cases isRule with
  | fast _ | letOpen | string | tuple _ | fusedSelf _ | fusedRt _ | argsNil | seqNil | armsNil
  | handlersNil | bodyNil => nofun
  | letTerminal _ | seqLast _ | bodyJoin _ _ | bodyLast _ =>
      exact entered_one [] (List.append_nil _).symm (List.forall_mem_nil _) (List.forall_mem_nil _)
        fun _ isStart => .inr (.inr isStart)
  | @letValue _ _ _ _ _ value next continues =>
      have same : value.nextId = next := nextId_of_outcome continues
      refine entered_one [] rfl (List.forall_mem_nil _) ?_ nofun
      intro entry member target leads
      rw [leads_single goesTo_const entry member target leads]
      exact .inr (.inl (Nat.le_trans (Nat.le_of_eq same) (Nat.le_succ next)))
  | @call _ _ _ _ _ staged call called =>
      have one := oneBlock_call called
      rcases one.code with ⟨block, isCode, goes⟩
      refine entered_one [] rfl (List.forall_mem_nil _) ?_ ?_
      · intro entry member target leads
        rw [isCode] at member
        rcases List.mem_singleton.mp member with rfl
        rw [goes target leads]
        exact .inr (.inl (Nat.le_succ _))
      · intro start isStart
        change start ∈ call.starts at isStart
        rw [one.noStarts] at isStart
        cases isStart
  | @index id scope _ _ buf atBuf offset atOffset bufContinues offsetContinues =>
      have bufEnd : buf.nextId = atBuf := nextId_of_outcome bufContinues
      have offsetEnd : offset.nextId = atOffset := nextId_of_outcome offsetContinues
      have bufLaid : Laid id buf := laid _ List.mem_cons_self
      have offsetLaid : Laid (atBuf + 1) offset := laid _ (List.mem_cons_of_mem _ List.mem_cons_self)
      have forward := offsetLaid.fragment.ordered
      refine entered_two _ (List.append_assoc _ _ _) bufLaid offsetLaid
        (Nat.le_trans (Nat.le_of_eq bufEnd) (Nat.le_succ _)) ?_ ?_ nofun
      · intro entry member target leads
        rw [leads_single (goesTo_stageBlock _ _) entry member target leads, bufEnd]
        exact ⟨Nat.le_succ _, .inl (Nat.le_refl _)⟩
      · intro entry member target leads
        have above : atOffset + 1 ≤ target := by
          rcases List.mem_append.mp member with isStage | isCall
          · exact Nat.le_of_eq (leads_single (goesTo_stageBlock _ _) entry isStage target leads).symm
          · rw [leads_single (goesTo_rtCallBlock _ _ _ _) entry isCall target leads]
            exact Nat.le_succ _
        have behindBuf : buf.nextId ≤ target := by omega
        have behindOffset : offset.nextId ≤ target := by omega
        exact ⟨behindBuf, .inr (.inl behindOffset)⟩
  | @kTable _ _ _ _ disc done values continues _ =>
      have same : disc.nextId = done := nextId_of_outcome continues
      refine entered_one [] rfl (List.forall_mem_nil _) ?_ nofun
      intro entry member target leads
      rw [leads_single goesTo_const entry member target leads]
      exact .inr (.inl (Nat.le_trans (Nat.le_of_eq same) (Nat.le_succ done)))
  | @«when» id _ _ _ disc done arms _ continues _ =>
      have same : disc.nextId = done := nextId_of_outcome continues
      have discLaid : Laid id disc := laid _ List.mem_cons_self
      have armsLaid : Laid (done + 1) arms := laid _ (List.mem_cons_of_mem _ List.mem_cons_self)
      have forward : disc.nextId ≤ done + 1 := Nat.le_trans (Nat.le_of_eq same) (Nat.le_succ done)
      have behind : disc.nextId ≤ arms.nextId := Nat.le_trans forward armsLaid.fragment.ordered
      refine entered_two _ rfl discLaid armsLaid forward ?_ ?_ nofun
      · intro entry member target leads
        rcases List.mem_singleton.mp member with rfl
        rcases leads_whenBlock leads with rfl | isStart
        · exact ⟨behind, .inr (.inl (Nat.le_refl _))⟩
        · have range := armsLaid.starts target isStart
          exact ⟨Nat.le_trans forward range.1, .inr (.inr isStart)⟩
      · intro entry member target leads
        rw [leads_redirects entry member target leads]
        exact ⟨behind, .inr (.inl (Nat.le_refl _))⟩
  | @wait id _ _ _ bodies _ _ _ _ _ _ =>
      refine entered_one _ (List.append_nil _).symm ?_ (List.forall_mem_nil _) nofun
      intro entry member target leads
      rcases List.mem_singleton.mp member with rfl
      rcases leads_waitBlock leads with rfl | isStart
      · exact .inl (Nat.le_succ _)
      · exact .inr (.inr isStart)
  | @argsCons _ _ _ id _ _ _ value next rest continues =>
      have same : value.nextId = next := nextId_of_outcome continues
      have valueLaid : Laid id value := laid _ List.mem_cons_self
      have restLaid : Laid (next + 1) rest := laid _ (List.mem_cons_of_mem _ List.mem_cons_self)
      have forward : value.nextId ≤ next + 1 := Nat.le_trans (Nat.le_of_eq same) (Nat.le_succ next)
      refine entered_two _ (List.append_nil _).symm valueLaid restLaid forward ?_
        (List.forall_mem_nil _)
        (enteredAt_starts (laid _ (List.mem_cons_of_mem _ List.mem_cons_self)) forward)
      intro entry member target leads
      rw [leads_single (goesTo_stageBlock _ _) entry member target leads]
      exact ⟨forward, .inl (Nat.le_refl _)⟩
  | @seqCons id _ _ _ value next rest continues =>
      have forward : value.nextId ≤ next := Nat.le_of_eq (nextId_of_outcome continues)
      have restLaid : Laid next rest := laid _ (List.mem_cons_of_mem _ List.mem_cons_self)
      exact entered_two [] (by simp) (laid _ List.mem_cons_self) restLaid forward
        (List.forall_mem_nil _) (List.forall_mem_nil _)
        (enteredAt_starts (laid _ (List.mem_cons_of_mem _ List.mem_cons_self)) forward)
  | @bodyStmt run _ id _ _ _ value next rest continues =>
      have forward : value.nextId ≤ next := Nat.le_of_eq (nextId_of_outcome continues)
      have restLaid : Laid next rest := laid _ (List.mem_cons_of_mem _ List.mem_cons_self)
      exact entered_two [] (by simp) (laid _ List.mem_cons_self) restLaid forward
        (List.forall_mem_nil _) (List.forall_mem_nil _)
        (enteredAt_starts (laid _ (List.mem_cons_of_mem _ List.mem_cons_self)) forward)
  | @armsSelf id _ _ _ branches arm next rest leaves =>
      have same : arm.nextId = next := nextId_of_outcome leaves
      have restLaid : Laid (if branches.isEmpty then next else next + 1) rest :=
        laid _ (List.mem_cons_of_mem _ List.mem_cons_self)
      have forward : arm.nextId ≤ if branches.isEmpty then next else next + 1 := by
        split <;> omega
      exact entered_two [] (by simp) (laid _ List.mem_cons_self) restLaid forward
        (List.forall_mem_nil _) (List.forall_mem_nil _) (enteredAt_starts_cons
          (laid _ List.mem_cons_self) (laid _ (List.mem_cons_of_mem _ List.mem_cons_self)) forward)
  | @armsOn id _ _ _ _ arm next rest goesOn =>
      have same : arm.nextId = next := goesOn.elim nextId_of_outcome nextId_of_outcome
      have restLaid : Laid (next + 1) rest := laid _ (List.mem_cons_of_mem _ List.mem_cons_self)
      have forward : arm.nextId ≤ next + 1 := Nat.le_trans (Nat.le_of_eq same) (Nat.le_succ next)
      exact entered_two [] (by simp) (laid _ List.mem_cons_self) restLaid forward
        (List.forall_mem_nil _) (List.forall_mem_nil _) (enteredAt_starts_cons
          (laid _ List.mem_cons_self) (laid _ (List.mem_cons_of_mem _ List.mem_cons_self)) forward)
  | @handlersCons id _ _ _ _ value rest =>
      have restLaid : Laid value.nextId rest := laid _ (List.mem_cons_of_mem _ List.mem_cons_self)
      exact entered_two [] (by simp) (laid _ List.mem_cons_self) restLaid (Nat.le_refl _)
        (List.forall_mem_nil _) (List.forall_mem_nil _) (enteredAt_starts_cons
          (laid _ List.mem_cons_self) (laid _ (List.mem_cons_of_mem _ List.mem_cons_self))
          (Nat.le_refl _))
  | @bodyFlush run op id _ _ _ step _ rest _ =>
      refine entered_one _ (List.append_nil _).symm ?_ (List.forall_mem_nil _) fun _ isStart => .inr (.inr isStart)
      rintro entry member target ⟨exec, resumes⟩
      rcases List.mem_map.mp member with ⟨number, -, rfl⟩
      have isNext : target = id + 1 :=
        @goesTo_orTrap _ (fun exec => (op exec).bind step) _ exec target resumes
      exact .inl (Nat.le_of_eq isNext)

theorem Inside.entered {outer inner : Task W × Emitted W} (inside : Inside rt ctx inner outer)
    (placed : outer.1.Placed) : Entered outer inner := by
  induction inside with
  | here _ => exact .refl _
  | deeper isRule _ derived member deeper induction =>
      have one := isRule.nested derived placed _ member
      exact (isRule.entered derived placed _ member).trans (induction one.placed)
        (deeper.nested one.placed)

end LakeNative.Compiler

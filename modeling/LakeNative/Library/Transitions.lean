import Mathlib.Data.List.Basic

/-! # Labelled transition systems and their runs

A system is a relation between a state, a label and the next state. A run keeps
its whole history, latest stage first, so that a statement about a run can speak
of every state the run went through and of every step it took.
-/

namespace LakeNative.Transitions

universe u v v'

/-- One step of a history: the state the step was taken in and its label. -/
structure Stage (σ : Type u) (ε : Type v) where
  state : σ
  label : ε

/-- `Run step start history final`: the system goes from `start` to `final`
through the stages of `history`, whose head is the latest one. -/
inductive Run (step : σ → ε → σ → Prop) (start : σ) : List (Stage σ ε) → σ → Prop
  | refl : Run step start [] start
  | next {history middle label final} :
      Run step start history middle →
      step middle label final →
      Run step start (⟨middle, label⟩ :: history) final

/-- Every step of the history was taken in a state that `condition` allows. -/
def Meets (condition : σ → ε → Prop) (history : List (Stage σ ε)) : Prop :=
  ∀ stage ∈ history, condition stage.state stage.label

/-- Every step was taken in a state and after a history that `condition` allows. -/
def MeetsPast (condition : List (Stage σ ε) → σ → ε → Prop) : List (Stage σ ε) → Prop
  | [] => True
  | stage :: past => condition past stage.state stage.label ∧ MeetsPast condition past

/-- `property` holds in every state of the run, the final one included. -/
def Throughout (property : σ → Prop) (history : List (Stage σ ε)) (final : σ) : Prop :=
  (∀ stage ∈ history, property stage.state) ∧ property final

@[simp] theorem meets_nil (condition : σ → ε → Prop) : Meets condition [] := by
  simp [Meets]

@[simp] theorem meets_cons {condition : σ → ε → Prop} {stage : Stage σ ε}
    {history : List (Stage σ ε)} :
    Meets condition (stage :: history) ↔
      condition stage.state stage.label ∧ Meets condition history := by
  simp [Meets]

@[simp] theorem throughout_nil {property : σ → Prop} {final : σ} :
    Throughout property ([] : List (Stage σ ε)) final ↔ property final := by
  simp [Throughout]

theorem throughout_cons {property : σ → Prop} {stage : Stage σ ε}
    {history : List (Stage σ ε)} {final : σ} :
    Throughout property (stage :: history) final ↔
      Throughout property history stage.state ∧ property final := by
  constructor
  · rintro ⟨before, after⟩
    exact ⟨⟨fun earlier member => before earlier (by simp [member]),
      before stage (by simp)⟩, after⟩
  · rintro ⟨⟨before, middle⟩, after⟩
    refine ⟨fun earlier member => ?_, after⟩
    rcases List.mem_cons.mp member with rfl | older
    · exact middle
    · exact before earlier older

namespace Run

variable {step : σ → ε → σ → Prop} {start middle final : σ}
  {history later : List (Stage σ ε)}

/-- A property of the start that every step preserves holds throughout. -/
theorem invariant {property : σ → Prop}
    (run : Run step start history final)
    (initially : property start)
    (preserved : ∀ current label next,
      property current → step current label next → property next) :
    Throughout property history final := by
  induction run with
  | refl => simpa using initially
  | next _ taken induction =>
      exact throughout_cons.mpr ⟨induction, preserved _ _ _ induction.2 taken⟩

/-- The invariant rule for runs whose steps all meet a condition. -/
theorem invariant_of_meets {property : σ → Prop} {condition : σ → ε → Prop}
    (run : Run step start history final)
    (meets : Meets condition history)
    (initially : property start)
    (preserved : ∀ current label next, property current → condition current label →
      step current label next → property next) :
    Throughout property history final := by
  induction run with
  | refl => simpa using initially
  | next _ taken induction =>
      rcases meets_cons.mp meets with ⟨now, earlier⟩
      have before := induction earlier
      exact throughout_cons.mpr ⟨before, preserved _ _ _ before.2 now taken⟩

/-- A run whose steps preserve a property is good throughout, and its steps do what they
guarantee, if that follows from the property. -/
theorem guarantees_of_invariant {property good : σ → Prop} {guarantee : σ → ε → Prop}
    (run : Run step start history final)
    (initially : property start)
    (preserved : ∀ current label next,
      property current → step current label next → property next)
    (guaranteed : ∀ current label next,
      property current → step current label next → guarantee current label)
    (isGood : ∀ state, property state → good state) :
    Meets guarantee history ∧ Throughout good history final := by
  suffices all : (Meets guarantee history ∧ Throughout good history final) ∧ property final from
    all.1
  induction run with
  | refl => exact ⟨⟨meets_nil _, throughout_nil.mpr (isGood _ initially)⟩, initially⟩
  | next _ taken induction =>
      rcases induction with ⟨⟨earlier, before⟩, held⟩
      have after := preserved _ _ _ held taken
      exact ⟨⟨meets_cons.mpr ⟨guaranteed _ _ _ held taken, earlier⟩,
        throughout_cons.mpr ⟨before, isGood _ after⟩⟩, after⟩

/-- When the steps of a run all meet a condition on the past, a property of the past
and the state that such steps preserve yields what they are to guarantee. -/
theorem meetsPast_of_invariant {property : List (Stage σ ε) → σ → Prop}
    {condition guarantee : List (Stage σ ε) → σ → ε → Prop}
    (run : Run step start history final)
    (meets : MeetsPast condition history)
    (initially : property [] start)
    (preserved : ∀ past current label next, property past current →
      condition past current label → step current label next →
      property (⟨current, label⟩ :: past) next)
    (guaranteed : ∀ past current label next, property past current →
      step current label next → guarantee past current label) :
    MeetsPast guarantee history ∧ property history final := by
  induction run with
  | refl => exact ⟨trivial, initially⟩
  | next _ taken induction =>
      rcases meets with ⟨now, earlier⟩
      rcases induction earlier with ⟨before, held⟩
      exact ⟨⟨guaranteed _ _ _ _ held taken, before⟩, preserved _ _ _ _ held now taken⟩

/-- A run is good throughout and its steps do what they guarantee exactly when they
all meet a condition, if that is so of each step out of a good state. The `support`
is what stays true while the run is good. -/
theorem guarantees_iff_meets {support good : σ → Prop} {guarantee condition : σ → ε → Prop}
    (run : Run step start history final)
    (supported : support start)
    (initially : good start)
    (exact_step : ∀ current label next, support current → good current →
      step current label next → (guarantee current label ∧ good next ↔ condition current label))
    (preserved : ∀ current label next, support current → good current →
      condition current label → step current label next → support next) :
    Meets guarantee history ∧ Throughout good history final ↔ Meets condition history := by
  suffices both : (Meets guarantee history ∧ Throughout good history final ↔
        Meets condition history) ∧
      (Meets condition history → support final) from both.1
  induction run with
  | refl => simp [initially, supported]
  | @next history middle label final _ taken induction =>
      rcases induction with ⟨equivalent, supports⟩
      constructor
      · rw [throughout_cons, meets_cons, meets_cons]
        constructor
        · rintro ⟨⟨done, earlier⟩, before, after⟩
          have met := equivalent.mp ⟨earlier, before⟩
          exact ⟨(exact_step _ _ _ (supports met) before.2 taken).mp ⟨done, after⟩, met⟩
        · rintro ⟨now, met⟩
          rcases equivalent.mpr met with ⟨earlier, before⟩
          rcases (exact_step _ _ _ (supports met) before.2 taken).mpr now with ⟨done, after⟩
          exact ⟨⟨done, earlier⟩, before, after⟩
      · intro meets
        rcases meets_cons.mp meets with ⟨now, met⟩
        exact preserved _ _ _ (supports met) (equivalent.mpr met).2.2 now taken

/-- The same for the states alone. -/
theorem throughout_iff_meets {support good : σ → Prop} {condition : σ → ε → Prop}
    (run : Run step start history final)
    (supported : support start)
    (initially : good start)
    (exact_step : ∀ current label next, support current → good current →
      step current label next → (good next ↔ condition current label))
    (preserved : ∀ current label next, support current → good current →
      condition current label → step current label next → support next) :
    Throughout good history final ↔ Meets condition history := by
  have both := @guarantees_iff_meets _ _ step start final history support good
    (fun _ _ => True) condition run supported initially
    (fun _ _ _ supported good taken => by
      rw [true_and]
      exact exact_step _ _ _ supported good taken)
    preserved
  rw [← both]
  exact (and_iff_right fun _ _ => trivial).symm

/-- A run whose steps meet a condition is a run of the restricted system. -/
theorem restrict {condition : σ → ε → Prop} (run : Run step start history final)
    (meets : Meets condition history) :
    Run (fun current label next => step current label next ∧ condition current label)
      start history final := by
  induction run with
  | refl => exact .refl
  | next _ taken induction =>
      rcases meets_cons.mp meets with ⟨now, earlier⟩
      exact (induction earlier).next ⟨taken, now⟩

/-- A run is one of every system that has its steps. -/
theorem mono {other : σ → ε → σ → Prop} (run : Run step start history final)
    (more : ∀ current label next, step current label next → other current label next) :
    Run other start history final := by
  induction run with
  | refl => exact .refl
  | next _ taken induction => exact induction.next (more _ _ _ taken)

/-- A run whose states are good is seen, through what its states stand for, as a run of the system
that each step out of a good state refines. -/
theorem image {τ : Type v'} {property : σ → Prop} {abstract : τ → ε → τ → Prop} (content : σ → τ)
    (run : Run step start history final)
    (initially : property start)
    (refines : ∀ current label next, property current → step current label next →
      property next ∧ abstract (content current) label (content next)) :
    property final ∧ Run abstract (content start)
      (history.map fun stage => ⟨content stage.state, stage.label⟩) (content final) := by
  induction run with
  | refl => exact ⟨initially, .refl⟩
  | next _ taken induction =>
      have after := refines _ _ _ induction.1 taken
      exact ⟨after.1, induction.2.next after.2⟩

/-- Two runs that meet in a state compose. -/
theorem append (first : Run step start history middle)
    (second : Run step middle later final) :
    Run step start (later ++ history) final := by
  induction second with
  | refl => exact first
  | next _ taken induction => exact induction.next taken

end Run

end LakeNative.Transitions

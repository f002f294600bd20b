import LakeNative.Library.NumberedCode

/-! # Two codes for one purpose

Codes with the same numbers are compared by what is seen of them: the states at the numbers that
are watched and the ways in which their blocks end the code. A simulation carries over what is
seen. One step of a code may be any number of steps of the other.
-/

namespace LakeNative.NumberedCode

open LakeNative.Transitions

universe u v w x

/-- What is seen of code: the states at some numbers, and how blocks end the code. -/
structure Sight (Block : Type u) (σ : Type v) (ω : Type x) where
  number : σ → Nat
  watched : Nat → Prop
  ends : Block → σ → ω → Prop

variable {Block : Type u} {σ : Type v} {ε : Type w} {ω : Type x}
  {code other : List (Nat × Block)}

namespace Sight

variable (sight : Sight Block σ ω)

/-- What is seen in a state. -/
inductive Shows (code : List (Nat × Block)) (state : σ) : σ ⊕ ω → Prop
  | here (seen : sight.watched (sight.number state)) : Shows code state (.inl state)
  | ending {block ending} (member : (sight.number state, block) ∈ code)
      (isEnding : sight.ends block state ending) : Shows code state (.inr ending)

/-- What is seen at the end of some run. -/
def Comes (runs : Block → σ → ε → σ → Prop) (code : List (Nat × Block)) (start : σ)
    (outcome : σ ⊕ ω) : Prop :=
  ∃ history final, Run (CodeStep sight.number runs code) start history final ∧
    sight.Shows code final outcome

variable {sight} {runs otherRuns : Block → σ → ε → σ → Prop} {start next : σ} {outcome : σ ⊕ ω}
  {history : List (Stage σ ε)}

theorem Shows.comes (shows : sight.Shows code start outcome) : sight.Comes runs code start outcome :=
  ⟨[], start, .refl, shows⟩

/-- What is seen behind a run is seen in front of it. -/
theorem Comes.before (comes : sight.Comes runs code next outcome)
    (run : Run (CodeStep sight.number runs code) start history next) :
    sight.Comes runs code start outcome := by
  rcases comes with ⟨later, final, behind, shows⟩
  exact ⟨later ++ history, final, run.append behind, shows⟩

theorem Comes.step {label : ε} (comes : sight.Comes runs code next outcome)
    (taken : CodeStep sight.number runs code start label next) : sight.Comes runs code start outcome :=
  comes.before (Run.refl.next taken)

/-- If the other code follows every step, it shows what corresponds to what the code shows. -/
theorem Comes.simulated {related : σ → σ → Prop} {same : σ ⊕ ω → σ ⊕ ω → Prop}
    (comes : sight.Comes runs code start outcome)
    (shows : ∀ current state outcome, related current state → sight.Shows code current outcome →
      ∃ seen, same outcome seen ∧ sight.Comes otherRuns other state seen)
    (steps : ∀ current state label next, related current state →
      CodeStep sight.number runs code current label next →
      ∃ history reached, Run (CodeStep sight.number otherRuns other) state history reached ∧
        related next reached)
    {state : σ} (isRelated : related start state) :
    ∃ seen, same outcome seen ∧ sight.Comes otherRuns other state seen := by
  rcases comes with ⟨history, final, run, isShown⟩
  have follows : ∃ past reached, Run (CodeStep sight.number otherRuns other) state past reached ∧
      related final reached := by
    clear isShown
    induction run with
    | refl => exact ⟨[], state, .refl, isRelated⟩
    | next _ taken induction =>
        rcases induction with ⟨past, reached, run, stillRelated⟩
        rcases steps _ _ _ _ stillRelated taken with ⟨later, next, run', isNext⟩
        exact ⟨later ++ past, next, run.append run', isNext⟩
  rcases follows with ⟨past, reached, otherRun, stillRelated⟩
  rcases shows _ _ _ stillRelated isShown with ⟨seen, isSame, comes⟩
  exact ⟨seen, isSame, comes.before otherRun⟩

end Sight

end LakeNative.NumberedCode

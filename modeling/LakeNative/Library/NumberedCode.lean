import Mathlib.Data.List.Nodup
import LakeNative.Library.Transitions

/-! # Code with numbered blocks

A compiler that numbers its blocks one after the other emits fragments: blocks whose
numbers lie in a range and that lead on within it or to the first number behind it.
-/

namespace LakeNative.NumberedCode

open LakeNative.Transitions

universe u v w

variable {Block : Type u} (leads : Block → Nat → Prop)

/-- Blocks with numbers from `first` up to `stop` that lead nowhere else, except to
`stop` itself. -/
structure Fragment (first stop : Nat) (code : List (Nat × Block)) : Prop where
  ordered : first ≤ stop
  inside : ∀ entry ∈ code, first ≤ entry.1 ∧ entry.1 < stop
  stays : ∀ entry ∈ code, ∀ next, leads entry.2 next → first ≤ next ∧ next ≤ stop

/-- Blocks with numbers of their own that lead only to each other and to some exits. -/
structure Closed (exits : Nat → Prop) (code : List (Nat × Block)) : Prop where
  distinct : (code.map Prod.fst).Nodup
  stays : ∀ entry ∈ code, ∀ next, leads entry.2 next → next ∈ code.map Prod.fst ∨ exits next

/-- In the numbers of the range, the whole code has the blocks of the part only. -/
def Embeds (whole : List (Nat × Block)) (first stop : Nat) (part : List (Nat × Block)) : Prop :=
  ∀ entry : Nat × Block, first ≤ entry.1 → entry.1 < stop → (entry ∈ whole ↔ entry ∈ part)

variable {leads} {first middle stop : Nat} {code before behind whole part : List (Nat × Block)}

namespace Fragment

theorem nil (ordered : first ≤ stop) : Fragment leads first stop [] where
  ordered := ordered
  inside := nofun
  stays := nofun

theorem single {id : Nat} {block : Block} (low : first ≤ id) (high : id < stop)
    (stays : ∀ next, leads block next → first ≤ next ∧ next ≤ stop) :
    Fragment leads first stop [(id, block)] where
  ordered := Nat.le_of_lt (Nat.lt_of_le_of_lt low high)
  inside entry member := by
    rw [List.mem_singleton.mp member]
    exact ⟨low, high⟩
  stays entry member := by
    rw [List.mem_singleton.mp member]
    exact stays

/-- A fragment is one of every larger range. -/
theorem widen (fragment : Fragment leads first stop code) {low high : Nat} (lower : low ≤ first)
    (higher : stop ≤ high) : Fragment leads low high code where
  ordered := Nat.le_trans lower (Nat.le_trans fragment.ordered higher)
  inside entry member := by
    have range := fragment.inside entry member
    omega
  stays entry member next isNext := by
    have range := fragment.stays entry member next isNext
    omega

/-- Two fragments of one range are one. -/
theorem union (left : Fragment leads first stop before) (right : Fragment leads first stop behind) :
    Fragment leads first stop (before ++ behind) where
  ordered := left.ordered
  inside entry member := by
    rcases List.mem_append.mp member with isLeft | isRight
    · exact left.inside entry isLeft
    · exact right.inside entry isRight
  stays entry member := by
    rcases List.mem_append.mp member with isLeft | isRight
    · exact left.stays entry isLeft
    · exact right.stays entry isRight

/-- Two fragments one behind the other. -/
theorem append (left : Fragment leads first middle before)
    (right : Fragment leads middle stop behind) :
    Fragment leads first stop (before ++ behind) :=
  (left.widen (Nat.le_refl _) right.ordered).union (right.widen left.ordered (Nat.le_refl _))

end Fragment

namespace Embeds

theorem refl (first stop : Nat) (code : List (Nat × Block)) : Embeds code first stop code :=
  fun _ _ _ => Iff.rfl

/-- The range of a part has the part's blocks if all others lie outside. -/
theorem of_append (earlier : ∀ entry ∈ before, entry.1 < first ∨ stop ≤ entry.1)
    (later : ∀ entry ∈ behind, entry.1 < first ∨ stop ≤ entry.1) :
    Embeds (before ++ part ++ behind) first stop part := by
  intro entry low high
  rw [List.mem_append, List.mem_append]
  constructor
  · rintro ((isEarlier | isPart) | isLater)
    · have outside := earlier entry isEarlier
      omega
    · exact isPart
    · have outside := later entry isLater
      omega
  · exact fun isPart => .inl (.inr isPart)

theorem trans (outer : Embeds whole first stop code) {low high : Nat}
    (inner : Embeds code low high part) (lower : first ≤ low) (higher : high ≤ stop) :
    Embeds whole low high part := by
  intro entry isLow isHigh
  rw [outer entry (by omega) (by omega)]
  exact inner entry isLow isHigh

end Embeds

/-! ## Closed code -/

namespace Closed

variable {exits others left right : Nat → Prop}

theorem nil : Closed leads exits [] where
  distinct := List.nodup_nil
  stays := nofun

theorem single {id : Nat} {block : Block} (stays : ∀ next, leads block next → next = id ∨ exits next) :
    Closed leads exits [(id, block)] where
  distinct := List.nodup_singleton id
  stays entry member next isNext := by
    rw [List.mem_singleton.mp member] at isNext
    exact (stays next isNext).imp_left fun same => List.mem_singleton.mpr same

theorem mono (closed : Closed leads exits code) (more : ∀ next, exits next → others next) :
    Closed leads others code where
  distinct := closed.distinct
  stays entry member next isNext := (closed.stays entry member next isNext).imp_right (more next)

/-- The exits of two parts with other numbers lead to the other part or out. -/
theorem append (closed : Closed leads left before) (alsoClosed : Closed leads right behind)
    (apart : (before.map Prod.fst).Disjoint (behind.map Prod.fst))
    (leftExits : ∀ next, left next → next ∈ behind.map Prod.fst ∨ exits next)
    (rightExits : ∀ next, right next → next ∈ before.map Prod.fst ∨ exits next) :
    Closed leads exits (before ++ behind) where
  distinct := by
    rw [List.map_append]
    exact closed.distinct.append alsoClosed.distinct apart
  stays entry member next isNext := by
    rw [List.map_append, List.mem_append]
    rcases List.mem_append.mp member with isLeft | isRight
    · rcases closed.stays entry isLeft next isNext with inside | leaves
      · exact .inl (.inl inside)
      · exact (leftExits next leaves).imp_left .inr
    · rcases alsoClosed.stays entry isRight next isNext with inside | leaves
      · exact .inl (.inr inside)
      · exact (rightExits next leaves).imp_left .inl

end Closed

/-- Code below a number and code from it on have other numbers. -/
theorem disjoint_numbers (below : ∀ entry ∈ before, entry.1 < middle)
    (above : ∀ entry ∈ behind, middle ≤ entry.1) :
    (before.map Prod.fst).Disjoint (behind.map Prod.fst) := by
  intro id inBefore inBehind
  rcases List.mem_map.mp inBefore with ⟨entry, member, rfl⟩
  rcases List.mem_map.mp inBehind with ⟨other, isOther, same⟩
  have low := below entry member
  have high := above other isOther
  omega

/-! ## Runs -/

section Runs

variable {σ : Type v} {ε : Type w} (number : σ → Nat) (runs : Block → σ → ε → σ → Prop)

/-- Run the block of the state's number. -/
def CodeStep (code : List (Nat × Block)) (current : σ) (label : ε) (next : σ) : Prop :=
  ∃ block, (number current, block) ∈ code ∧ runs block current label next

variable {number runs} {start final : σ} {history : List (Stage σ ε)}

theorem Embeds.step_iff (embeds : Embeds whole first stop part) {current next : σ} {label : ε}
    (low : first ≤ number current) (high : number current < stop) :
    CodeStep number runs whole current label next ↔
      CodeStep number runs part current label next := by
  constructor
  · rintro ⟨block, member, taken⟩
    exact ⟨block, (embeds _ low high).mp member, taken⟩
  · rintro ⟨block, member, taken⟩
    exact ⟨block, (embeds _ low high).mpr member, taken⟩

/-- A run of a fragment stays in its range. -/
theorem Fragment.run_inside (fragment : Fragment leads first stop part)
    (follows : ∀ block current label next, runs block current label next → leads block (number next))
    (run : Run (CodeStep number runs part) start history final)
    (startsLow : first ≤ number start) (startsHigh : number start ≤ stop) :
    first ≤ number final ∧ number final ≤ stop := by
  cases run with
  | refl => exact ⟨startsLow, startsHigh⟩
  | next _ taken =>
      rcases taken with ⟨block, member, taken⟩
      exact fragment.stays _ member _ (follows _ _ _ _ taken)

/-- A run of a fragment is one of all code that has the fragment. -/
theorem Fragment.run_of_part (fragment : Fragment leads first stop part)
    (embeds : Embeds whole first stop part)
    (run : Run (CodeStep number runs part) start history final) :
    Run (CodeStep number runs whole) start history final ∧
      ∀ stage ∈ history, first ≤ number stage.state ∧ number stage.state < stop := by
  induction run with
  | refl => exact ⟨.refl, nofun⟩
  | @next _ middle _ _ _ taken induction =>
      have inside : first ≤ number middle ∧ number middle < stop := by
        rcases taken with ⟨block, member, -⟩
        exact fragment.inside _ member
      refine ⟨induction.1.next ((embeds.step_iff inside.1 inside.2).mpr taken), ?_⟩
      intro stage member
      rcases List.mem_cons.mp member with rfl | earlier
      · exact inside
      · exact induction.2 stage earlier

/-- A run that starts in a fragment is still in it, or it has come through the fragment's end. -/
theorem Fragment.run_either (fragment : Fragment leads first stop part)
    (embeds : Embeds whole first stop part)
    (follows : ∀ block current label next, runs block current label next → leads block (number next))
    (startsLow : first ≤ number start) (startsHigh : number start ≤ stop)
    (run : Run (CodeStep number runs whole) start history final) :
    (Run (CodeStep number runs part) start history final ∧ number final ≤ stop) ∨
      ∃ later within middle, history = later ++ within ∧
        Run (CodeStep number runs part) start within middle ∧ number middle = stop ∧
        Run (CodeStep number runs whole) middle later final := by
  induction run with
  | refl => exact .inl ⟨.refl, startsHigh⟩
  | @next history current label final _ taken induction =>
      rcases induction with ⟨inPart, high⟩ | ⟨later, within, middle, split, inPart, atStop, after⟩
      · by_cases atStop : number current = stop
        · exact .inr ⟨_, _, current, rfl, inPart, atStop, .next .refl taken⟩
        · have inside := fragment.run_inside follows inPart startsLow startsHigh
          have run := inPart.next
            ((embeds.step_iff inside.1 (Nat.lt_of_le_of_ne high atStop)).mp taken)
          exact .inl ⟨run, (fragment.run_inside follows run startsLow startsHigh).2⟩
      · exact .inr ⟨_, _, middle, by rw [split, List.cons_append], inPart, atStop, after.next taken⟩

/-- A run that starts in a fragment and ends behind it has come through the fragment's end. -/
theorem Fragment.run_through (fragment : Fragment leads first stop part)
    (embeds : Embeds whole first stop part)
    (follows : ∀ block current label next, runs block current label next → leads block (number next))
    (startsLow : first ≤ number start) (startsHigh : number start ≤ stop)
    (run : Run (CodeStep number runs whole) start history final) (behind : stop ≤ number final) :
    ∃ later within middle, history = later ++ within ∧
      Run (CodeStep number runs part) start within middle ∧ number middle = stop ∧
      Run (CodeStep number runs whole) middle later final := by
  rcases fragment.run_either embeds follows startsLow startsHigh run with ⟨inPart, high⟩ | through
  · exact ⟨[], history, final, rfl, inPart, Nat.le_antisymm high behind, .refl⟩
  · exact through

/-- Nothing runs behind the last number of a fragment. -/
theorem Fragment.run_nil (fragment : Fragment leads first stop part)
    (run : Run (CodeStep number runs part) start history final) (atStop : number start = stop) :
    history = [] ∧ final = start := by
  induction run with
  | refl => exact ⟨rfl, rfl⟩
  | next _ taken induction =>
      rcases induction with ⟨-, rfl⟩
      rcases taken with ⟨block, member, -⟩
      exact absurd atStop (Nat.ne_of_lt (fragment.inside _ member).2)

/-- A run of all code that starts in a fragment is a run of the fragment, as long as it has
not come to a number that the fragment's end is sure to be. -/
theorem Fragment.run_part (fragment : Fragment leads first stop part)
    (embeds : Embeds whole first stop part)
    (follows : ∀ block current label next, runs block current label next → leads block (number next))
    {exit : Nat}
    (ends : ∀ history final, Run (CodeStep number runs part) start history final →
      number final = stop → stop = exit)
    (startsLow : first ≤ number start) (startsHigh : number start ≤ stop)
    (run : Run (CodeStep number runs whole) start history final)
    (avoids : ∀ stage ∈ history, number stage.state ≠ exit) :
    Run (CodeStep number runs part) start history final := by
  induction run with
  | refl => exact .refl
  | @next history middle label final _ taken induction =>
      have before := induction fun stage member => avoids stage (List.mem_cons_of_mem _ member)
      have inside := fragment.run_inside follows before startsLow startsHigh
      have notExit : number middle ≠ exit := avoids _ List.mem_cons_self
      have notStop : number middle ≠ stop := fun atStop =>
        notExit (atStop.trans (ends _ _ before atStop))
      exact before.next ((embeds.step_iff inside.1 (by omega)).mp taken)

end Runs

end LakeNative.NumberedCode

import LakeNative.Library.NumberedCode

/-! # How runs of a fragment end

A run of a fragment that comes to an end has fallen out behind it, or it has come to a block
that leads nowhere. Either way it is put together from runs of the parts.
-/

namespace LakeNative.NumberedCode

open LakeNative.Transitions

universe u v w x

variable {Block : Type u} {σ : Type v} {ε : Type w} {ρ : Type x}

/-- A run is behind the fragment, or a block has halted it with a result. -/
inductive End (σ : Type v) (ρ : Type x) where
  | falls (final : σ)
  | halts (result : ρ)

section Ends

variable (number : σ → Nat) (runs : Block → σ → ε → σ → Prop) (halts : Block → σ → ρ → Prop)

/-- From a state the code comes to this end. -/
inductive Ends (code : List (Nat × Block)) (stop : Nat) : σ → End σ ρ → Prop where
  | falls {final} (atStop : number final = stop) : Ends code stop final (.falls final)
  | halts {current block result} (member : (number current, block) ∈ code)
      (isHalt : halts block current result) : Ends code stop current (.halts result)
  | step {current label next ending} (taken : CodeStep number runs code current label next)
      (later : Ends code stop next ending) : Ends code stop current ending

end Ends

variable {number : σ → Nat} {runs : Block → σ → ε → σ → Prop} {halts : Block → σ → ρ → Prop}
  {leads : Block → Nat → Prop} {first middle stop : Nat} {whole part front behind : List (Nat × Block)}
  {start current : σ} {ending : End σ ρ}

/-- What a run comes to ends as the run's state does. -/
theorem Ends.of_run {history : List (Stage σ ε)}
    (run : Run (CodeStep number runs whole) start history current)
    (ends : Ends number runs halts whole stop current ending) :
    Ends number runs halts whole stop start ending := by
  induction run with
  | refl => exact ends
  | next _ taken induction => exact induction (.step taken ends)

/-- What runs through a part comes to the part's end, if it does not halt in it. -/
theorem Ends.through (ends : Ends number runs halts whole stop start ending)
    (fragment : Fragment leads first middle part) (embeds : Embeds whole first middle part)
    (follows : ∀ block current label next, runs block current label next → leads block (number next))
    (startsLow : first ≤ number start) (startsHigh : number start ≤ middle) (behind : middle ≤ stop) :
    (∃ result, ending = .halts result ∧
        Ends number runs halts part middle start (.halts result)) ∨
      ∃ after, Ends number runs halts part middle start (.falls after) ∧ number after = middle ∧
        Ends number runs halts whole stop after ending := by
  induction ends with
  | falls atStop =>
      have atEnd := Nat.le_antisymm startsHigh (Nat.le_trans behind (Nat.le_of_eq atStop.symm))
      exact .inr ⟨_, .falls atEnd, atEnd, .falls atStop⟩
  | halts member isHalt =>
      rcases Nat.lt_or_eq_of_le startsHigh with inside | atEnd
      · exact .inl ⟨_, rfl, .halts ((embeds _ startsLow inside).mp member) isHalt⟩
      · exact .inr ⟨_, .falls atEnd, atEnd, .halts member isHalt⟩
  | step taken later induction =>
      rcases Nat.lt_or_eq_of_le startsHigh with inside | atEnd
      · have inPart := (embeds.step_iff startsLow inside).mp taken
        rcases inPart with ⟨block, member, ran⟩
        have range := fragment.stays _ member _ (follows _ _ _ _ ran)
        rcases induction range.1 range.2 with ⟨result, isResult, ends⟩ | ⟨after, ends, atEnd, onward⟩
        · exact .inl ⟨result, isResult, .step ⟨block, member, ran⟩ ends⟩
        · exact .inr ⟨after, .step ⟨block, member, ran⟩ ends, atEnd, onward⟩
      · exact .inr ⟨_, .falls atEnd, atEnd, .step taken later⟩

/-- From behind some code on, that code does not matter. -/
theorem Ends.suffix (ends : Ends number runs halts (front ++ behind) stop start ending)
    (below : ∀ entry ∈ front, entry.1 < middle) (isBehind : Fragment leads middle stop behind)
    (follows : ∀ block current label next, runs block current label next → leads block (number next))
    (late : middle ≤ number start) : Ends number runs halts behind stop start ending := by
  have isMember : ∀ {entry : Nat × Block}, entry ∈ front ++ behind → middle ≤ entry.1 →
      entry ∈ behind := by
    intro entry member above
    rcases List.mem_append.mp member with isFront | isLast
    · exact absurd (below entry isFront) (Nat.not_lt_of_le above)
    · exact isLast
  induction ends with
  | falls atStop => exact .falls atStop
  | halts member isHalt => exact .halts (isMember member late) isHalt
  | step taken later induction =>
      rcases taken with ⟨block, member, ran⟩
      have inLast := isMember member late
      have range := isBehind.stays _ inLast _ (follows _ _ _ _ ran)
      exact .step ⟨block, inLast, ran⟩ (induction range.1)

/-- A run of two fragments halts in the first one, or it goes on in the second one. -/
theorem Ends.append (ends : Ends number runs halts (front ++ behind) stop start ending)
    (inFront : Fragment leads first middle front) (isBehind : Fragment leads middle stop behind)
    (follows : ∀ block current label next, runs block current label next → leads block (number next))
    (startsLow : first ≤ number start) (startsHigh : number start ≤ middle) :
    (∃ result, ending = .halts result ∧
        Ends number runs halts front middle start (.halts result)) ∨
      ∃ after, Ends number runs halts front middle start (.falls after) ∧ number after = middle ∧
        Ends number runs halts behind stop after ending := by
  have embeds : Embeds (front ++ behind) first middle front :=
    @Embeds.of_append _ first middle [] behind front (List.forall_mem_nil _)
      fun entry member => .inr (isBehind.inside entry member).1
  rcases ends.through inFront embeds follows startsLow startsHigh isBehind.ordered with
    halted | ⟨after, ends, atEnd, onward⟩
  · exact .inl halted
  · exact .inr ⟨after, ends, atEnd, onward.suffix (fun entry member => (inFront.inside entry member).2)
      isBehind follows (Nat.le_of_eq atEnd.symm)⟩

/-- A run that is at its end goes no further. -/
theorem Ends.done (ends : Ends number runs halts part stop start ending)
    (fragment : Fragment leads first stop part) (atStop : number start = stop) :
    ending = .falls start := by
  cases ends with
  | falls _ => rfl
  | halts member _ => exact absurd atStop (Nat.ne_of_lt (fragment.inside _ member).2)
  | step taken _ =>
      rcases taken with ⟨block, member, -⟩
      exact absurd atStop (Nat.ne_of_lt (fragment.inside _ member).2)

/-- A run that is not at its end takes the block of its number first. -/
theorem Ends.head {block : Block} (ends : Ends number runs halts whole stop start ending)
    (only : ∀ other, (number start, other) ∈ whole → other = block) (before : number start ≠ stop) :
    (∃ result, ending = .halts result ∧ halts block start result) ∨
      ∃ label next, runs block start label next ∧ Ends number runs halts whole stop next ending := by
  cases ends with
  | falls atStop => exact absurd atStop before
  | halts member isHalt =>
      rw [only _ member] at isHalt
      exact .inl ⟨_, rfl, isHalt⟩
  | step taken later =>
      rcases taken with ⟨other, member, ran⟩
      rw [only other member] at ran
      exact .inr ⟨_, _, ran, later⟩

end LakeNative.NumberedCode

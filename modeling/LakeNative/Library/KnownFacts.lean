import Mathlib.Data.Set.Basic
import LakeNative.Library.NumberedCode

/-! # Facts that are known at the numbers of code

Blocks gain facts, which nothing takes away. At every number there are some that are known:
a block that leads to the number has gained them, or they are known at the block's own number.
Code in which this is so can be put together from parts in the ranges of their numbers.
-/

namespace LakeNative.KnownFacts

open LakeNative.NumberedCode LakeNative.Transitions

universe u v w x y

/-- What is to be known of blocks: with which number each goes on in a state, the facts that it
gains there, and whether it may be where certain facts are known. -/
structure Analysis (Block : Type u) (State : Type v) (Fact : Type w) where
  goes : Block → State → Nat → Prop
  gains : Block → State → Set Fact
  sound : Nat × Block → Set Fact → Prop

variable {Block : Type u} {State : Type v} {Fact : Type w}

namespace Analysis

variable (analysis : Analysis Block State Fact)

def Leads (block : Block) (next : Nat) : Prop := ∃ state, analysis.goes block state next

/-- The block may be at its number and gains what is known where it leads to. -/
structure Keeps (known : Nat → Set Fact) (entry : Nat × Block) : Prop where
  sound : analysis.sound entry (known entry.1)
  gained : ∀ state next, analysis.goes entry.2 state next →
    known next ⊆ known entry.1 ∪ analysis.gains entry.2 state

/-- Code for the numbers from `first` up to `stop`, with what is known before and behind it.
Bodies in it may be entered at their starts as well, with what is known before, and have ends
behind which all that is still known. -/
structure Passage (first stop : Nat) (code : List (Nat × Block)) (before behind : Set Fact)
    (starts ends : List Nat) : Prop where
  fragment : Fragment analysis.Leads first stop code
  startsInside : ∀ start ∈ starts, first ≤ start ∧ start ≤ stop
  endsInside : ∀ exit ∈ ends, first ≤ exit ∧ exit < stop
  isKnown : ∃ known : Nat → Set Fact, (∀ entry ∈ code, analysis.Keeps known entry) ∧
    known first ⊆ before ∧ behind ⊆ known stop ∧
    (∀ start ∈ starts, known start ⊆ before) ∧ ∀ exit ∈ ends, before ⊆ known exit

variable {analysis} {known other : Nat → Set Fact}

/-- Only the facts at the block's number and at those that it leads to matter. -/
theorem Keeps.congr {entry : Nat × Block} (keeps : analysis.Keeps known entry)
    (here : other entry.1 = known entry.1)
    (there : ∀ next, analysis.Leads entry.2 next → other next ⊆ known next) :
    analysis.Keeps other entry where
  sound := by
    rw [here]
    exact keeps.sound
  gained := by
    intro state next goes
    rw [here]
    exact (there next ⟨state, goes⟩).trans (keeps.gained state next goes)

/-- What one part knows at its numbers, and the other one at those from `later` on. -/
def glue (later : Nat) (known other : Nat → Set Fact) (number : Nat) : Set Fact :=
  if number < later then known number else other number

theorem glue_of_lt {later number : Nat} (low : number < later) :
    glue later known other number = known number := if_pos low

theorem glue_of_le {later number : Nat} (high : later ≤ number) :
    glue later known other number = other number := if_neg (Nat.not_lt_of_le high)

/-- Two parts with ranges one behind the other. -/
theorem keeps_glue {first middle later stop : Nat} {code rest : List (Nat × Block)}
    (left : Fragment analysis.Leads first middle code)
    (right : Fragment analysis.Leads later stop rest) (apart : middle ≤ later)
    (keeps : ∀ entry ∈ code, analysis.Keeps known entry)
    (alsoKeeps : ∀ entry ∈ rest, analysis.Keeps other entry)
    (joins : other later ⊆ known middle) :
    ∀ entry ∈ code ++ rest, analysis.Keeps (glue later known other) entry := by
  intro entry member
  rcases List.mem_append.mp member with inCode | inRest
  · apply (keeps entry inCode).congr
    · exact glue_of_lt ((left.inside entry inCode).2.trans_le apart)
    · intro next leads
      have below := (left.stays entry inCode next leads).2
      rcases Nat.lt_or_ge next later with low | high
      · exact (glue_of_lt low).subset
      · rcases Nat.le_antisymm apart (high.trans below) with rfl : middle = later
        rcases Nat.le_antisymm below high with rfl : next = middle
        rw [glue_of_le (Nat.le_refl _)]
        exact joins
  · apply (alsoKeeps entry inRest).congr
    · exact glue_of_le (right.inside entry inRest).1
    · intro next leads
      exact (glue_of_le (right.stays entry inRest next leads).1).subset

end Analysis

namespace Analysis.Passage

variable {analysis : Analysis Block State Fact} {first middle later stop : Nat}
  {code rest : List (Nat × Block)} {before between behind facts : Set Fact}
  {starts ends : List Nat}

theorem nil (facts : Set Fact) (number : Nat) :
    analysis.Passage number number [] facts facts [] [] where
  fragment := .nil (Nat.le_refl _)
  startsInside := nofun
  endsInside := nofun
  isKnown := ⟨fun _ => facts, nofun, subset_rfl, subset_rfl, nofun, nofun⟩

/-- One block, which may have several numbers. -/
theorem block {id : Nat} {block : Block} (ids : List Nat) (low : first ≤ id)
    (range : ∀ number ∈ ids, first ≤ number ∧ number ≤ id)
    (sound : ∀ number ∈ ids, analysis.sound (number, block) before)
    (gained : ∀ state next, analysis.goes block state next →
      next = id + 1 ∧ behind ⊆ before ∪ analysis.gains block state) :
    analysis.Passage first (id + 1) (ids.map fun number => (number, block)) before behind [] [] where
  fragment := {
    ordered := Nat.le_succ_of_le low
    inside := by
      intro entry member
      rcases List.mem_map.mp member with ⟨number, isId, rfl⟩
      exact ⟨(range number isId).1, Nat.lt_succ_of_le (range number isId).2⟩
    stays := by
      intro entry member next leads
      rcases List.mem_map.mp member with ⟨number, isId, rfl⟩
      rcases leads with ⟨state, goes⟩
      rw [(gained state next goes).1]
      exact ⟨Nat.le_succ_of_le low, Nat.le_refl _⟩ }
  startsInside := nofun
  endsInside := nofun
  isKnown := by
    let known := glue (id + 1) (fun _ => before) fun _ => behind
    have atId : ∀ number, number ≤ id → known number = before := fun number isLow =>
      glue_of_lt (Nat.lt_succ_of_le isLow)
    have atNext : known (id + 1) = behind := glue_of_le (Nat.le_refl _)
    refine ⟨known, ?_, (atId first low).subset, atNext.superset, nofun, nofun⟩
    intro entry member
    rcases List.mem_map.mp member with ⟨number, isId, rfl⟩
    have here := atId number (range number isId).2
    constructor
    · dsimp only
      rw [here]
      exact sound number isId
    · intro state next goes
      rcases gained state next goes with ⟨rfl, gains⟩
      dsimp only
      rw [here, atNext]
      exact gains

/-- More may be known before, less behind. -/
theorem weaken (passage : analysis.Passage first stop code before between [] []) {more less : Set Fact}
    (isMore : before ⊆ more) (isLess : less ⊆ between) :
    analysis.Passage first stop code more less [] [] where
  fragment := passage.fragment
  startsInside := nofun
  endsInside := nofun
  isKnown := by
    rcases passage.isKnown with ⟨known, keeps, enters, leaves, -, -⟩
    exact ⟨known, keeps, enters.trans isMore, isLess.trans leaves, nofun, nofun⟩

/-- One part behind the other. -/
theorem append (left : analysis.Passage first middle code before between [] [])
    (right : analysis.Passage middle stop rest between behind [] []) :
    analysis.Passage first stop (code ++ rest) before behind [] [] where
  fragment := left.fragment.append right.fragment
  startsInside := nofun
  endsInside := nofun
  isKnown := by
    rcases left.isKnown with ⟨known, keeps, enters, leaves, -, -⟩
    rcases right.isKnown with ⟨other, alsoKeeps, joins, behindAll, -, -⟩
    refine ⟨glue middle known other, keeps_glue left.fragment right.fragment (Nat.le_refl _) keeps
      alsoKeeps (joins.trans leaves), ?_, ?_, nofun, nofun⟩
    · rcases Nat.lt_or_ge first middle with low | high
      · rw [glue_of_lt low]
        exact enters
      · rcases Nat.le_antisymm left.fragment.ordered high with rfl : first = middle
        rw [glue_of_le (Nat.le_refl _)]
        exact (joins.trans leaves).trans enters
    · rw [glue_of_le right.fragment.ordered]
      exact behindAll

/-- A body in front of others, all entered with the same facts. The number behind the body may
be its end. -/
theorem beside (left : analysis.Passage first middle code facts facts [] [])
    (right : analysis.Passage later stop rest facts facts starts ends) (apart : middle ≤ later)
    (exits : List Nat) (behindBody : ∀ exit ∈ exits, exit = middle ∧ middle < later) :
    analysis.Passage first stop (code ++ rest) facts facts (first :: starts) (exits ++ ends) := by
  have ordered := left.fragment.ordered
  have alsoOrdered := right.fragment.ordered
  rcases left.isKnown with ⟨known, keeps, enters, leaves, -, -⟩
  rcases right.isKnown with ⟨other, alsoKeeps, joins, behindAll, starting, ending⟩
  have entered : glue later known other first ⊆ facts := by
    rcases Nat.lt_or_ge first later with low | high
    · rw [glue_of_lt low]
      exact enters
    · rcases Nat.le_antisymm (ordered.trans apart) high with rfl : first = later
      rw [glue_of_le (Nat.le_refl _)]
      exact joins
  constructor
  · exact (left.fragment.widen (Nat.le_refl _) apart).append right.fragment
  · intro start member
    rcases List.mem_cons.mp member with rfl | isLater
    · omega
    · have range := right.startsInside start isLater
      omega
  · intro exit member
    rcases List.mem_append.mp member with isBehind | isLater
    · have range := behindBody exit isBehind
      omega
    · have range := right.endsInside exit isLater
      omega
  · refine ⟨glue later known other, keeps_glue left.fragment right.fragment apart keeps
      alsoKeeps (joins.trans leaves), entered, ?_, ?_, ?_⟩
    · rw [glue_of_le alsoOrdered]
      exact behindAll
    · intro start member
      rcases List.mem_cons.mp member with rfl | isLater
      · exact entered
      · rw [glue_of_le (right.startsInside start isLater).1]
        exact starting start isLater
    · intro exit member
      rcases List.mem_append.mp member with isBehind | isLater
      · rcases behindBody exit isBehind with ⟨rfl, low⟩
        rw [glue_of_lt low]
        exact leaves
      · rw [glue_of_le (right.endsInside exit isLater).1]
        exact ending exit isLater

/-- A block that goes to one of the bodies behind it, to itself or to the number behind all. From
the ends of the bodies one more block leads there. -/
theorem choice {id : Nat} {block : Block} (last : Block) (bodies : analysis.Passage (id + 1) stop code facts facts starts ends)
    (fewer : before ⊆ facts) (sound : analysis.sound (id, block) before)
    (gained : ∀ state next, analysis.goes block state next → next = id ∨ next = stop ∨
      next ∈ starts ∧ facts ⊆ before ∪ analysis.gains block state)
    (soundLast : ∀ number known, analysis.sound (number, last) known)
    (leaves : ∀ state next, analysis.goes last state next → next = stop) :
    analysis.Passage id stop ([(id, block)] ++ code ++ ends.map fun exit => (exit, last)) before before
      [] [] := by
  have ordered := bodies.fragment.ordered
  rcases bodies.isKnown with ⟨other, keeps, enters, behindAll, starting, ending⟩
  -- Only the bodies know more.
  let known : Nat → Set Fact := fun number =>
    if number = id ∨ number = stop then before else other number
  have atId : known id = before := if_pos (.inl rfl)
  have atStop : known stop = before := if_pos (.inr rfl)
  have inside : ∀ number, id < number → number < stop → known number = other number :=
    fun number low high => if_neg (by omega)
  have less : ∀ number, id < number → number ≤ stop → known number ⊆ other number := by
    intro number low high
    rcases Nat.lt_or_ge number stop with isInside | beyond
    · exact (inside number low isInside).subset
    · rcases Nat.le_antisymm high beyond with rfl : number = stop
      rw [atStop]
      exact fewer.trans behindAll
  have check : Fragment analysis.Leads id stop [(id, block)] := by
    apply Fragment.single (Nat.le_refl _) ordered
    intro next leads
    rcases leads with ⟨state, goes⟩
    rcases gained state next goes with rfl | rfl | ⟨isStart, -⟩
    · omega
    · omega
    · have range := bodies.startsInside next isStart
      omega
  have lasts : Fragment analysis.Leads id stop (ends.map fun exit => (exit, last)) := by
    constructor
    · omega
    · intro entry member
      rcases List.mem_map.mp member with ⟨exit, isEnd, rfl⟩
      have range := bodies.endsInside exit isEnd
      dsimp only
      omega
    · intro entry member next leads
      rcases List.mem_map.mp member with ⟨exit, isEnd, rfl⟩
      rcases leads with ⟨state, goes⟩
      rw [leaves state next goes]
      omega
  refine ⟨(check.union (bodies.fragment.widen (Nat.le_succ id) (Nat.le_refl _))).union lasts, nofun,
    nofun, known, ?_, atId.subset, atStop.superset, nofun, nofun⟩
  intro entry member
  rcases List.mem_append.mp member with early | isLast
  · rcases List.mem_append.mp early with isCheck | inBodies
    · rw [List.mem_singleton.mp isCheck]
      constructor
      · dsimp only
        rw [atId]
        exact sound
      · intro state next goes
        dsimp only
        rw [atId]
        rcases gained state next goes with rfl | rfl | ⟨isStart, gains⟩
        · rw [atId]
          exact Set.subset_union_left
        · rw [atStop]
          exact Set.subset_union_left
        · have range := bodies.startsInside next isStart
          exact ((less next range.1 range.2).trans (starting next isStart)).trans gains
    · have range := bodies.fragment.inside entry inBodies
      apply (keeps entry inBodies).congr (inside entry.1 range.1 range.2)
      intro next leads
      have stays := bodies.fragment.stays entry inBodies next leads
      exact less next stays.1 stays.2
  · rcases List.mem_map.mp isLast with ⟨exit, isEnd, rfl⟩
    have range := bodies.endsInside exit isEnd
    constructor
    · exact soundLast exit _
    · intro state next goes
      rw [leaves state next goes, atStop]
      dsimp only
      rw [inside exit range.1 range.2]
      exact (fewer.trans (ending exit isEnd)).trans Set.subset_union_left

/-! ## Runs -/

section Runs

variable {σ : Type x} {ε : Type y} {number : σ → Nat} {runs : Block → σ → ε → σ → Prop}
  {view : σ → State} {start final : σ} {history : List (Stage σ ε)}

/-- In a run from the first number, a block may be where only such facts are known as were known
before or gained by an earlier step. -/
theorem run_sound (passage : analysis.Passage first stop code before behind [] [])
    (follows : ∀ block current label next, runs block current label next →
      analysis.goes block (view current) (number next))
    (run : Run (CodeStep number runs code) start history final) (startsFirst : number start = first) :
    ∃ facts : Set Fact, (∀ block, (number final, block) ∈ code → analysis.sound (number final, block) facts) ∧
      ∀ fact ∈ facts, fact ∈ before ∨ ∃ stage ∈ history, ∃ block,
        (number stage.state, block) ∈ code ∧ fact ∈ analysis.gains block (view stage.state) := by
  rcases passage.isKnown with ⟨known, keeps, enters, -, -, -⟩
  refine ⟨known (number final), fun block member => (keeps _ member).sound, ?_⟩
  induction run with
  | refl =>
      rw [startsFirst]
      exact fun fact isKnown => .inl (enters isKnown)
  | next _ taken induction =>
      intro fact isKnown
      rcases taken with ⟨block, member, taken⟩
      have goes := follows _ _ _ _ taken
      rcases (keeps _ member).gained _ _ goes isKnown with already | gained
      · rcases induction fact already with early | ⟨stage, isStage, gains⟩
        · exact .inl early
        · exact .inr ⟨stage, List.mem_cons_of_mem _ isStage, gains⟩
      · exact .inr ⟨_, List.mem_cons_self, block, member, gained⟩

end Runs

end Analysis.Passage

end LakeNative.KnownFacts

import LakeNative.Control.SharedBlocks

/-! # Paired code

Pairs of code are put together from parts, as the pipeline puts together what it emits, and so are
the marks that say where `TEMP_VAL` is not stale.
-/

namespace LakeNative.Control

open LakeNative.Runtime LakeNative.Compiler LakeNative.NumberedCode

variable {W : Type} {rt : RtFuncs W} {marks other : Marks} {first middle later stop : Nat}

/-! ## Marks -/

theorem atMost_some {here known : Bool} (less : here = true → known = true) : AtMost (some here) known :=
  ⟨here, rfl, less⟩

theorem atLeast_some {here known : Bool} (more : known = true → here = true) :
    AtLeast (some here) known := ⟨here, rfl, more⟩

theorem AtMost.mono {mark : Option Bool} {known more : Bool} (atMost : AtMost mark known)
    (isMore : known = true → more = true) : AtMost mark more := by
  rcases atMost with ⟨here, isMark, less⟩
  exact ⟨here, isMark, fun isHere => isMore (less isHere)⟩

/-- What is known behind one part may be known in front of the next one. -/
theorem AtMost.of_between {mark between : Option Bool} {middle known : Bool}
    (atMost : AtMost mark middle) (atLeast : AtLeast between middle) (bounded : AtMost between known) :
    AtMost mark known := by
  rcases atLeast with ⟨here, isHere, more⟩
  rcases bounded with ⟨same, isSame, less⟩
  cases isHere.symm.trans isSame
  exact atMost.mono fun isMiddle => less (more isMiddle)

/-- The marks of a piece matter at its own numbers and at those that it leads to. -/
theorem Piece.Marked.congr (rt : RtFuncs W) {piece : Piece W} (marked : piece.Marked marks)
    (inside : ∀ number ∈ piece.numbers, first ≤ number ∧ number < stop)
    (stays : ∀ entry ∈ piece.merged rt, ∀ next, Leads entry.2 next → first ≤ next ∧ next ≤ stop)
    (same : ∀ number, first ≤ number → number < stop → other number = marks number)
    (atStop : ∀ known, AtMost (marks stop) known → AtMost (other stop) known) :
    piece.Marked other := by
  have there : ∀ next known, first ≤ next → next ≤ stop → AtMost (marks next) known →
      AtMost (other next) known := by
    intro next known low high atMost
    rcases Nat.lt_or_ge next stop with isInside | beyond
    · rwa [same next low isInside]
    · rcases Nat.le_antisymm high beyond with rfl
      exact atStop known atMost
  cases piece with
  | block id merged plain =>
      rcases marked with ⟨before, behind, isMarked, carries, leads⟩
      have here := inside id (List.mem_singleton_self _)
      refine ⟨before, behind, by rw [same id here.1 here.2, isMarked], carries, fun next isNext => ?_⟩
      have range := stays _ (List.mem_singleton_self _) next isNext
      exact there next behind range.1 range.2 (leads next isNext)
  | row start stmts =>
      have here : ∀ number, start ≤ number → number < start + stmts.length →
          first ≤ number ∧ number < stop := fun number low high =>
        inside number (List.mem_range'_1.mpr ⟨low, high⟩)
      rcases marked with ⟨sorted, shared, atEnd⟩
      refine ⟨sorted, fun number low high => ?_, fun front last isRow => ?_⟩
      · have range := here number (Nat.le_of_lt low) high
        rw [same number range.1 range.2]
        exact shared number low high
      · have length : stmts.length = front.length + 1 := by
          rw [isRow, List.length_append]
          rfl
        have range := here (start + front.length) (by omega) (by omega)
        exact there _ _ (by omega) (by omega) (atEnd front last isRow)

/-- All pieces of a fragment. -/
theorem marked_fragment {pieces : List (Piece W)} (marked : ∀ piece ∈ pieces, piece.Marked marks)
    (fragment : Fragment Leads first stop (mergedCode rt pieces))
    (same : ∀ number, first ≤ number → number < stop → other number = marks number)
    (atStop : ∀ known, AtMost (marks stop) known → AtMost (other stop) known) :
    ∀ piece ∈ pieces, piece.Marked other := by
  intro piece member
  have isPart : ∀ entry ∈ piece.merged rt, entry ∈ mergedCode rt pieces := fun entry isEntry =>
    List.mem_flatMap.mpr ⟨piece, member, isEntry⟩
  apply (marked piece member).congr rt ?_ ?_ same atStop
  · intro number isNumber
    rw [← piece.numbers_merged rt] at isNumber
    rcases List.mem_map.mp isNumber with ⟨entry, isEntry, rfl⟩
    exact fragment.inside entry (isPart entry isEntry)
  · exact fun entry isEntry => fragment.stays entry (isPart entry isEntry)

/-! ## Bodies -/

/-- Two codes for the numbers from `first` up to `stop`, marked. At most `front` is known in front of
them and at least `behind` behind them. Bodies in them are also entered at their starts, where at
most `entry` is known, and left at their ends. -/
def Bodies (rt : RtFuncs W) (first stop : Nat) (front entry behind : Bool) (starts ends : List Nat)
    (merged plain : Code W) : Prop :=
  ∃ pieces marks, merged = mergedCode rt pieces ∧ plain = plainCode rt pieces ∧
    (∀ piece ∈ pieces, piece.Marked marks) ∧ AtMost (marks first) front ∧
    AtLeast (marks stop) behind ∧ (∀ start ∈ starts, AtMost (marks start) entry) ∧
    ∀ exit ∈ ends, AtLeast (marks exit) behind

/-- Code that is entered in front only. -/
abbrev Paired (rt : RtFuncs W) (first stop : Nat) (front behind : Bool) (merged plain : Code W) : Prop :=
  Bodies rt first stop front true behind [] [] merged plain

variable {front entry between behind : Bool} {starts ends : List Nat} {merged plain left right : Code W}

theorem mergedCode_append (pieces more : List (Piece W)) :
    mergedCode rt (pieces ++ more) = mergedCode rt pieces ++ mergedCode rt more :=
  List.flatMap_append

theorem plainCode_append (pieces more : List (Piece W)) :
    plainCode rt (pieces ++ more) = plainCode rt pieces ++ plainCode rt more :=
  List.flatMap_append

/-- One block behind each end. -/
theorem mergedCode_ends (ends : List Nat) (block : Block W) :
    mergedCode rt (ends.map fun exit => Piece.block exit block block) =
      ends.map fun exit => (exit, block) := by
  rw [mergedCode, List.flatMap_map]
  exact List.flatMap_pure_eq_map _ _

theorem plainCode_ends (ends : List Nat) (block : Block W) :
    plainCode rt (ends.map fun exit => Piece.block exit block block) =
      ends.map fun exit => (exit, block) := by
  rw [plainCode, List.flatMap_map]
  exact List.flatMap_pure_eq_map _ _

namespace Bodies

theorem nil (id : Nat) (known entry : Bool) : Bodies rt id id known entry known [] [] [] [] :=
  ⟨[], fun _ => some known, rfl, rfl, List.forall_mem_nil _, atMost_some fun isKnown => isKnown,
    atLeast_some fun isKnown => isKnown,
    List.forall_mem_nil _, List.forall_mem_nil _⟩

/-- One block in each. -/
theorem single {id : Nat} {block own : Block W} (carries : Carries front behind block own)
    (goes : ∀ next, Leads block next → next = id + 1) :
    Paired rt id (id + 1) front behind [(id, block)] [(id, own)] := by
  let marks : Marks := fun number => if number = id then some front else some behind
  have here : marks id = some front := if_pos rfl
  have there : marks (id + 1) = some behind := if_neg (Nat.succ_ne_self id)
  refine ⟨[.block id block own], marks, rfl, rfl, ?_, ?_, ?_, List.forall_mem_nil _, List.forall_mem_nil _⟩
  · intro piece member
    rw [List.mem_singleton.mp member]
    refine ⟨front, behind, here, carries, fun next leads => ?_⟩
    rw [goes next leads, there]
    exact atMost_some fun isKnown => isKnown
  · rw [here]
    exact atMost_some fun isKnown => isKnown
  · rw [there]
    exact atLeast_some fun isKnown => isKnown

/-- What one part marks at its numbers, and the other one at those from a number on. -/
def glue (later : Nat) (marks other : Marks) : Marks := fun number =>
  if number < later then marks number else other number

theorem glue_of_lt {number : Nat} (low : number < later) : glue later marks other number = marks number :=
  if_pos low

theorem glue_of_le {number : Nat} (high : later ≤ number) : glue later marks other number = other number :=
  if_neg (Nat.not_lt_of_le high)

/-- One part behind the other, with bodies in the second one. -/
theorem append (leftPart : Paired rt first middle front between merged plain)
    (rightPart : Bodies rt middle stop between entry behind starts ends left right)
    (leftFragment : Fragment Leads first middle merged) (rightFragment : Fragment Leads middle stop left)
    (startsIn : ∀ start ∈ starts, middle ≤ start) (endsIn : ∀ exit ∈ ends, middle ≤ exit) :
    Bodies rt first stop front entry behind starts ends (merged ++ left) (plain ++ right) := by
  rcases leftPart with ⟨pieces, marks, rfl, rfl, marked, atFirst, atMiddle, -, -⟩
  rcases rightPart with ⟨more, other, rfl, rfl, alsoMarked, atNext, atStop, atStarts, atEnds⟩
  have above : ∀ number, middle ≤ number → glue middle marks other number = other number :=
    fun number => glue_of_le
  refine ⟨pieces ++ more, glue middle marks other, (mergedCode_append _ _).symm,
    (plainCode_append _ _).symm, ?_, ?_, ?_, ?_, ?_⟩
  · intro piece member
    rcases List.mem_append.mp member with isLeft | isRight
    · apply marked_fragment marked leftFragment (fun number _ high => glue_of_lt high) ?_ piece isLeft
      intro known bounded
      rw [above middle (Nat.le_refl _)]
      exact atNext.of_between atMiddle bounded
    · apply marked_fragment alsoMarked rightFragment (fun number low _ => above number low) ?_ piece isRight
      intro known bounded
      rwa [above stop rightFragment.ordered]
  · rcases Nat.lt_or_ge first middle with low | high
    · rwa [glue_of_lt low]
    · rcases Nat.le_antisymm leftFragment.ordered high with rfl
      rw [above first (Nat.le_refl _)]
      exact atNext.of_between atMiddle atFirst
  · rwa [above stop rightFragment.ordered]
  · intro start member
    rw [above start (startsIn start member)]
    exact atStarts start member
  · intro exit member
    rw [above exit (endsIn exit member)]
    exact atEnds exit member

/-- Code without bodies behind it. -/
theorem followed (leftPart : Paired rt first middle front between merged plain)
    (rightPart : Paired rt middle stop between behind left right)
    (leftFragment : Fragment Leads first middle merged) (rightFragment : Fragment Leads middle stop left) :
    Paired rt first stop front behind (merged ++ left) (plain ++ right) :=
  leftPart.append rightPart leftFragment rightFragment (List.forall_mem_nil _) (List.forall_mem_nil _)

/-- Statements in a row. `TEMP_VAL` is stale behind a binding. -/
theorem row {stmts before : List Stored} {last : Stored} (isRow : stmts = before ++ [last])
    (sorted : stmts.Pairwise fun earlier later => earlier.next ≤ later.slot) (front : Bool) :
    Paired rt first (first + stmts.length) front (!last.binds)
      (fastCode (runAll rt stmts) (List.range' first stmts.length) (first + stmts.length))
      (plains rt first stmts) := by
  have length : stmts.length = before.length + 1 := by
    rw [isRow, List.length_append]
    rfl
  let marks : Marks := fun number =>
    if number = first then some front else if number = first + stmts.length then some (!last.binds) else none
  have atFirst : marks first = some front := if_pos rfl
  have atStop : marks (first + stmts.length) = some (!last.binds) := by
    have behind : first + stmts.length ≠ first := by omega
    exact (if_neg behind).trans (if_pos rfl)
  refine ⟨[.row first stmts], marks, (List.append_nil _).symm, (List.append_nil _).symm, ?_, ?_, ?_,
    List.forall_mem_nil _, List.forall_mem_nil _⟩
  · intro piece member
    rw [List.mem_singleton.mp member]
    refine ⟨sorted, fun number low high => ?_, fun front final isFinal => ?_⟩
    · exact (if_neg (Nat.ne_of_gt low)).trans (if_neg (Nat.ne_of_lt high))
    · have same : final = last := by
        have ends := isFinal.symm.trans isRow
        exact (List.append_inj' ends rfl).2 |> List.singleton_inj.mp
      rw [atStop, same]
      exact atMost_some fun isKnown => isKnown
  · rw [atFirst]
    exact atMost_some fun isKnown => isKnown
  · rw [atStop]
    exact atLeast_some fun isKnown => isKnown

/-- The body of an arm in front of others. The number behind it may be its end. -/
theorem arm {known : Bool} (body : Paired rt first middle true known merged plain)
    (rest : Bodies rt later stop true true behind starts ends left right) (apart : middle < later)
    (bodyFragment : Fragment Leads first middle merged) (restFragment : Fragment Leads later stop left)
    (startsIn : ∀ start ∈ starts, later ≤ start) (endsIn : ∀ exit ∈ ends, later ≤ exit)
    (exits : List Nat) (atExits : ∀ exit ∈ exits, exit = middle) :
    Bodies rt first stop true true (known && behind) (first :: starts) (exits ++ ends) (merged ++ left)
      (plain ++ right) := by
  rcases body with ⟨pieces, marks, rfl, rfl, marked, atFirst, atMiddle, -, -⟩
  rcases rest with ⟨more, other, rfl, rfl, alsoMarked, -, atStop, atStarts, atEnds⟩
  have above : ∀ number, later ≤ number → glue later marks other number = other number :=
    fun number => glue_of_le
  have below : ∀ number, number ≤ middle → glue later marks other number = marks number :=
    fun number low => glue_of_lt (Nat.lt_of_le_of_lt low apart)
  have atFirst' : AtMost (glue later marks other first) true := by
    rwa [below first bodyFragment.ordered]
  have fewer : ∀ {mark}, AtLeast mark behind → AtLeast mark (known && behind) := by
    rintro mark ⟨here, isHere, less⟩
    exact ⟨here, isHere, fun both => less (Bool.and_eq_true_iff.mp both).2⟩
  refine ⟨pieces ++ more, glue later marks other, (mergedCode_append _ _).symm,
    (plainCode_append _ _).symm, ?_, atFirst', ?_, ?_, ?_⟩
  · intro piece member
    rcases List.mem_append.mp member with isLeft | isRight
    · apply marked_fragment marked bodyFragment (fun number _ high => below number (Nat.le_of_lt high)) ?_
        piece isLeft
      intro bound bounded
      rwa [below middle (Nat.le_refl _)]
    · apply marked_fragment alsoMarked restFragment (fun number low _ => above number low) ?_ piece isRight
      intro bound bounded
      rwa [above stop restFragment.ordered]
  · rw [above stop restFragment.ordered]
    exact fewer atStop
  · intro start member
    rcases List.mem_cons.mp member with rfl | isLater
    · exact atFirst'
    · rw [above start (startsIn start isLater)]
      exact atStarts start isLater
  · intro exit member
    rcases List.mem_append.mp member with isExit | isLater
    · rw [atExits exit isExit, below middle (Nat.le_refl _)]
      rcases atMiddle with ⟨here, isHere, less⟩
      exact ⟨here, isHere, fun both => less (Bool.and_eq_true_iff.mp both).1⟩
    · rw [above exit (endsIn exit isLater)]
      exact fewer (atEnds exit isLater)

/-- The body of a handler in front of others, which it goes on with. -/
theorem handler {flow known : Bool} (body : Paired rt first middle (entry && flow) known merged plain)
    (rest : Bodies rt middle stop known entry behind starts [] left right)
    (bodyFragment : Fragment Leads first middle merged) (restFragment : Fragment Leads middle stop left)
    (startsIn : ∀ start ∈ starts, middle ≤ start) :
    Bodies rt first stop flow entry behind (first :: starts) [] (merged ++ left) (plain ++ right) := by
  rcases append body rest bodyFragment restFragment startsIn (List.forall_mem_nil _) with
    ⟨pieces, marks, isMerged, isPlain, marked, atFirst, atStop, atStarts, atEnds⟩
  refine ⟨pieces, marks, isMerged, isPlain, marked, ?_, atStop, ?_, atEnds⟩
  · exact atFirst.mono fun both => (Bool.and_eq_true_iff.mp both).2
  · intro start member
    rcases List.mem_cons.mp member with rfl | isLater
    · exact atFirst.mono fun both => (Bool.and_eq_true_iff.mp both).1
    · exact atStarts start isLater

/-- A choice of bodies, which reads `TEMP_VAL`. From their ends one more block leads behind all. -/
theorem choice {done : Nat} {check last : Block W}
    (bodies : Bodies rt (done + 1) stop true true behind starts ends left right)
    (fragment : Fragment Leads (done + 1) stop left)
    (endsIn : ∀ exit ∈ ends, done + 1 ≤ exit ∧ exit < stop)
    (leads : ∀ next, Leads check next → next = stop ∨ next ∈ starts)
    (startsIn : ∀ start ∈ starts, done + 1 ≤ start)
    (carries : ∀ known, Carries known known last last) (goes : ∀ next, Leads last next → next = stop) :
    Paired rt done stop true behind ([(done, check)] ++ left ++ ends.map fun exit => (exit, last))
      ([(done, check)] ++ right ++ ends.map fun exit => (exit, last)) := by
  rcases bodies with ⟨pieces, other, rfl, rfl, marked, -, atStop, atStarts, atEnds⟩
  have ordered := fragment.ordered
  let marks : Marks := fun number =>
    if number = done then some true else if number = stop then some behind else other number
  have atDone : marks done = some true := if_pos rfl
  have here : marks stop = some behind := by
    have different : stop ≠ done := by omega
    exact (if_neg different).trans (if_pos rfl)
  have inside : ∀ number, done + 1 ≤ number → number < stop → marks number = other number := by
    intro number low high
    have different : number ≠ done := by omega
    exact (if_neg different).trans (if_neg (Nat.ne_of_lt high))
  have atMost : ∀ start ∈ starts, AtMost (marks start) true := by
    intro start member
    by_cases isStop : start = stop
    · rw [isStop, here]
      exact atMost_some fun _ => rfl
    · have low := startsIn start member
      have different : start ≠ done := by omega
      have same : marks start = other start := (if_neg different).trans (if_neg isStop)
      rw [same]
      exact atStarts start member
  refine ⟨.block done check check :: (pieces ++ ends.map fun exit => .block exit last last), marks, ?_, ?_,
    ?_, ?_, ?_, List.forall_mem_nil _, List.forall_mem_nil _⟩
  · change _ = [(done, check)] ++ mergedCode rt (pieces ++ _)
    rw [mergedCode_append, mergedCode_ends, List.append_assoc]
  · change _ = [(done, check)] ++ plainCode rt (pieces ++ _)
    rw [plainCode_append, plainCode_ends, List.append_assoc]
  · intro piece member
    rcases List.mem_cons.mp member with rfl | isLater
    · refine ⟨true, true, atDone, carries_known check true, fun next isNext => ?_⟩
      rcases leads next isNext with rfl | isStart
      · rw [here]
        exact atMost_some fun _ => rfl
      · exact atMost next isStart
    · rcases List.mem_append.mp isLater with isPiece | isLast
      · apply marked_fragment marked fragment inside ?_ piece isPiece
        intro known bounded
        rw [here]
        exact AtMost.of_between (atMost_some fun isKnown => isKnown) atStop bounded
      · rcases List.mem_map.mp isLast with ⟨exit, isExit, rfl⟩
        have range := endsIn exit isExit
        rcases atEnds exit isExit with ⟨known, isKnown, less⟩
        refine ⟨known, known, ?_, carries known, fun next isNext => ?_⟩
        · rw [inside exit range.1 range.2, isKnown]
        · rw [goes next isNext, here]
          exact atMost_some less
  · rw [atDone]
    exact atMost_some fun isKnown => isKnown
  · rw [here]
    exact atLeast_some fun isKnown => isKnown

/-- A `wait` and the bodies of its handlers. -/
theorem wait {id : Nat} {check : Block W}
    (bodies : Bodies rt (id + 1) stop true entry behind starts [] left right)
    (fragment : Fragment Leads (id + 1) stop left)
    (leads : ∀ next, Leads check next → next = id ∨ next ∈ starts)
    (startsIn : ∀ start ∈ starts, id + 1 ≤ start) (carries : Carries entry entry check check) :
    Paired rt id stop entry behind ([(id, check)] ++ left) ([(id, check)] ++ right) := by
  rcases bodies with ⟨pieces, other, rfl, rfl, marked, -, atStop, atStarts, -⟩
  have ordered := fragment.ordered
  let marks := glue (id + 1) (fun _ => some entry) other
  have here : marks id = some entry := glue_of_lt (Nat.lt_succ_self id)
  have above : ∀ number, id + 1 ≤ number → marks number = other number := fun number => glue_of_le
  refine ⟨.block id check check :: pieces, marks, rfl, rfl, ?_, ?_, ?_, List.forall_mem_nil _,
    List.forall_mem_nil _⟩
  · intro piece member
    rcases List.mem_cons.mp member with rfl | isPiece
    · refine ⟨entry, entry, here, carries, fun next isNext => ?_⟩
      rcases leads next isNext with rfl | isStart
      · rw [here]
        exact atMost_some fun isKnown => isKnown
      · rw [above next (startsIn next isStart)]
        exact atStarts next isStart
    · apply marked_fragment marked fragment (fun number low _ => above number low) ?_ piece isPiece
      intro known bounded
      rwa [above stop ordered]
  · rw [here]
    exact atMost_some fun isKnown => isKnown
  · rwa [above stop ordered]

end Bodies

end LakeNative.Control

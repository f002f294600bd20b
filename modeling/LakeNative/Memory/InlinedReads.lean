import LakeNative.Control.FusedSelf
import LakeNative.Memory.BoundsChecks

/-! # Reads that are folded

A read that is folded into its block is not checked against the end of the pointer, as the
call of the runtime's function is. It gives the same value wherever the check passes.
-/

namespace LakeNative.Memory

open LakeNative.Runtime LakeNative.Compiler

/-! ## Reads with checks -/

/-- `rt_load_u*` of so many bits: the word at the start of a fat pointer's payload and an
offset, if the pointer does not end before it. -/
def View.checkedLoadAt (view : View) (bits : Nat) (fatPtr offset : Word) : Option Word := do
  let start ← view.load 64 fatPtr
  let stop ← view.load 64 (fatPtr + 8)
  let accessPtr := start + offset
  if accessPtr + BitVec.ofNat 64 (bits / 8) ≤ stop then view.load bits accessPtr else none

/-- An expression evaluated with calls of the runtime's functions in the place of the reads
that `fold_with_self` emits. -/
def foldChecked (literals : Literals) (selfPid : Bool) (state : BranchState) :
    Expr → Option Folded
  | .tupleIndex receiver index => do
      let pointer ← foldChecked literals selfPid state receiver
      some fun view => do
        let pointer ← pointer view
        view.loadAt 64 pointer (8 * BitVec.ofNat 64 index)
  | .index receiver index => do
      let pointer ← foldChecked literals selfPid state receiver
      let offset ← foldChecked literals selfPid state index
      some fun view => do
        let pointer ← pointer view
        let offset ← offset view
        View.checkedLoadAt view 8 pointer offset
  | .binary op left right => do
      let left ← foldChecked literals selfPid state left
      let right ← foldChecked literals selfPid state right
      some fun view => do
        let left ← left view
        let right ← right view
        op.eval left right
  | .neg inner => do
      let inner ← foldChecked literals selfPid state inner
      some fun view => (inner view).map Neg.neg
  | .jump (.var callee _) (pointer :: offset :: _) => do
      let bits ← rtLoadSize callee
      let pointer ← foldChecked literals selfPid state pointer
      let offset ← foldChecked literals selfPid state offset
      some fun view => do
        let pointer ← pointer view
        let offset ← offset view
        View.checkedLoadAt view bits pointer offset
  | expr => foldWithSelf literals selfPid state expr

/-! ## What can go wrong -/

section

variable (literals : Literals) (selfPid : Bool) (state : BranchState) (view : View)

/-- The value of an expression in memory, where no read asks for the end of a buffer. -/
def valueOf : Expr → Option Word
  | .num text _ => some ((literals.parseInt text).getD 0)
  | .bool value => some (if value then 1 else 0)
  | .atom name => some (literals.atomId name)
  | .var "self" _ => if selfPid then some view.ownPid else none
  | .var name _ => (state.get name).map view.vars
  | .tupleIndex receiver index => do
      view.loadAt 64 (← valueOf receiver) (8 * BitVec.ofNat 64 index)
  | .index receiver index => do view.loadAt 8 (← valueOf receiver) (← valueOf index)
  | .binary op left right => do op.eval (← valueOf left) (← valueOf right)
  | .neg inner => (valueOf inner).map Neg.neg
  | .jump (.var callee _) (pointer :: offset :: _) => do
      view.loadAt (← rtLoadSize callee) (← valueOf pointer) (← valueOf offset)
  | _ => none

/-- A read of so many bits stays within its fat pointer. -/
def Inside (bits : Nat) (pointer offset : Expr) : Prop :=
  ∀ fatPtr index start, valueOf literals selfPid state view pointer = some fatPtr →
    valueOf literals selfPid state view offset = some index →
    view.load 64 fatPtr = some start →
    ∃ stop, view.load 64 (fatPtr + 8) = some stop ∧
      start + index + BitVec.ofNat 64 (bits / 8) ≤ stop

/-- A read of so many bits is made where no memory is mapped. -/
def Faults (bits : Nat) (pointer offset : Expr) : Prop :=
  ∃ fatPtr index, valueOf literals selfPid state view pointer = some fatPtr ∧
    valueOf literals selfPid state view offset = some index ∧
    view.loadAt bits fatPtr index = none

/-- Every read with a check stays within its fat pointer. -/
def ReadsInside : Expr → Prop
  | .tupleIndex inner _ | .neg inner => ReadsInside inner
  | .binary _ left right => ReadsInside left ∧ ReadsInside right
  | .index receiver index =>
      (ReadsInside receiver ∧ ReadsInside index) ∧
        Inside literals selfPid state view 8 receiver index
  | .jump (.var callee _) (pointer :: offset :: _) =>
      (ReadsInside pointer ∧ ReadsInside offset) ∧
        Inside literals selfPid state view ((rtLoadSize callee).getD 0) pointer offset
  | _ => True

/-- A division traps, or a read is made where no memory is mapped. -/
def Stops : Expr → Prop
  | .tupleIndex receiver index =>
      Stops receiver ∨ ∃ fatPtr, valueOf literals selfPid state view receiver = some fatPtr ∧
        view.loadAt 64 fatPtr (8 * BitVec.ofNat 64 index) = none
  | .neg inner => Stops inner
  | .binary op left right =>
      (Stops left ∨ Stops right) ∨ ∃ first second,
        valueOf literals selfPid state view left = some first ∧
        valueOf literals selfPid state view right = some second ∧ op.eval first second = none
  | .index receiver index =>
      (Stops receiver ∨ Stops index) ∨ Faults literals selfPid state view 8 receiver index
  | .jump (.var callee _) (pointer :: offset :: _) =>
      (Stops pointer ∨ Stops offset) ∨
        Faults literals selfPid state view ((rtLoadSize callee).getD 0) pointer offset
  | _ => False

end

/-! ## Agreement -/

variable {literals : Literals} {selfPid : Bool} {state : BranchState} {view : View}

/-- The inlined code gives the value in memory. -/
theorem inlined_value {expr : Expr} {inlined : Folded}
    (folds : foldWithSelf literals selfPid state expr = some inlined) (view : View) :
    inlined view = valueOf literals selfPid state view expr := by
  fun_induction foldWithSelf literals selfPid state expr generalizing inlined with
  | case1 | case2 | case3 =>
      cases folds
      simp only [valueOf]
  | case4 ty supplied =>
      cases folds
      rw [valueOf, if_pos supplied]
  | case5 | case12 => cases folds
  | case6 name ty notSelf =>
      rcases Option.map_eq_some_iff.mp folds with ⟨slot, isSlot, rfl⟩
      rw [valueOf, isSlot]
      · rfl
      · exact notSelf
  | case7 receiver index induction =>
      rcases bind_some folds with ⟨pointer, isPointer, result⟩
      cases result
      rw [valueOf, ← induction isPointer]
  | case8 receiver index first second =>
      rcases bind_some folds with ⟨pointer, isPointer, result⟩
      rcases bind_some result with ⟨offset, isOffset, result⟩
      cases result
      rw [valueOf, ← first isPointer, ← second isOffset]
  | case9 op left right first second =>
      rcases bind_some folds with ⟨leftValue, isLeft, result⟩
      rcases bind_some result with ⟨rightValue, isRight, result⟩
      cases result
      rw [valueOf, ← first isLeft, ← second isRight]
  | case10 inner induction =>
      rcases bind_some folds with ⟨value, isValue, result⟩
      cases result
      rw [valueOf, ← induction isValue]
  | case11 callee ty pointer offset others first second =>
      rcases bind_some folds with ⟨bits, isBits, result⟩
      rcases bind_some result with ⟨pointerValue, isPointer, result⟩
      rcases bind_some result with ⟨offsetValue, isOffset, result⟩
      cases result
      rw [valueOf, ← first isPointer, ← second isOffset, isBits]
      rfl

theorem checkedLoadAt_eq_some {bits : Nat} {fatPtr offset value : Word} :
    View.checkedLoadAt view bits fatPtr offset = some value ↔
      view.loadAt bits fatPtr offset = some value ∧
        ∀ start, view.load 64 fatPtr = some start → ∃ stop, view.load 64 (fatPtr + 8) = some stop ∧
          start + offset + BitVec.ofNat 64 (bits / 8) ≤ stop := by
  simp only [View.checkedLoadAt, View.loadAt, Option.bind_eq_bind, Option.bind_eq_some_iff]
  constructor
  · rintro ⟨start, isStart, stop, isStop, isValue⟩
    split at isValue
    · refine ⟨⟨start, isStart, isValue⟩, fun other isOther => ⟨stop, isStop, ?_⟩⟩
      rw [isStart] at isOther
      cases isOther
      assumption
    · cases isValue
  · rintro ⟨⟨start, isStart, isValue⟩, inside⟩
    rcases inside start isStart with ⟨stop, isStop, fits⟩
    exact ⟨start, isStart, stop, isStop, (if_pos fits).trans isValue⟩

/-- What an expression comes to with checks, in a view. -/
def Agrees (literals : Literals) (selfPid : Bool) (state : BranchState) (view : View)
    (expr : Expr) (checked : Folded) : Prop :=
  ∀ value, checked view = some value ↔
    valueOf literals selfPid state view expr = some value ∧
      ReadsInside literals selfPid state view expr

/-- A read of two agreeing operands. -/
theorem read_agrees {pointer offset : Expr} {checkedPtr checkedOff : Folded} (bits : Nat)
    (first : Agrees literals selfPid state view pointer checkedPtr)
    (second : Agrees literals selfPid state view offset checkedOff) (value : Word) :
    ((checkedPtr view).bind fun fatPtr => (checkedOff view).bind fun index =>
        View.checkedLoadAt view bits fatPtr index) = some value ↔
      ((valueOf literals selfPid state view pointer).bind fun fatPtr =>
        (valueOf literals selfPid state view offset).bind fun index =>
          view.loadAt bits fatPtr index) = some value ∧
      (ReadsInside literals selfPid state view pointer ∧
        ReadsInside literals selfPid state view offset) ∧
        Inside literals selfPid state view bits pointer offset := by
  simp only [Option.bind_eq_some_iff, first _, second _, checkedLoadAt_eq_some, Inside]
  constructor
  · rintro ⟨fatPtr, ⟨isPtr, insideFirst⟩, index, ⟨isOff, insideSecond⟩, isValue, inside⟩
    refine ⟨⟨fatPtr, isPtr, index, isOff, isValue⟩, ⟨insideFirst, insideSecond⟩, ?_⟩
    intro otherPtr otherOff start samePtr sameOff isStart
    rw [isPtr] at samePtr
    rw [isOff] at sameOff
    cases samePtr
    cases sameOff
    exact inside start isStart
  · rintro ⟨⟨fatPtr, isPtr, index, isOff, isValue⟩, ⟨insideFirst, insideSecond⟩, inside⟩
    exact ⟨fatPtr, ⟨isPtr, insideFirst⟩, index, ⟨isOff, insideSecond⟩, isValue,
      fun start => inside _ _ start isPtr isOff⟩

/-- What has no reads in it is the same with checks. -/
theorem leaf_agrees {expr : Expr} {inlined : Folded}
    (folds : foldWithSelf literals selfPid state expr = some inlined)
    (same : foldChecked literals selfPid state expr = foldWithSelf literals selfPid state expr)
    (inside : ∀ view, ReadsInside literals selfPid state view expr) :
    ∃ checked, foldChecked literals selfPid state expr = some checked ∧
      ∀ view, Agrees literals selfPid state view expr checked := by
  refine ⟨inlined, same.trans folds, fun view value => ?_⟩
  rw [inlined_value folds]
  exact (and_iff_left (inside view)).symm

/-- What is folded has a value with checks exactly if its reads stay inside and it has that value
in memory. -/
theorem checked_agrees {expr : Expr} {inlined : Folded}
    (folds : foldWithSelf literals selfPid state expr = some inlined) :
    ∃ checked, foldChecked literals selfPid state expr = some checked ∧
      ∀ view, Agrees literals selfPid state view expr checked := by
  have whole := folds
  fun_induction foldWithSelf literals selfPid state expr generalizing inlined with
  | case1 | case2 | case3 => exact leaf_agrees whole (by rw [foldChecked] <;> simp) fun _ => trivial
  | case4 ty supplied =>
      have isFolded : foldWithSelf literals selfPid state (.var "self" ty) = some inlined := by
        rw [foldWithSelf, if_pos supplied]
        exact whole
      exact leaf_agrees isFolded (by rw [foldChecked] <;> simp) fun _ => trivial
  | case5 | case12 => cases folds
  | case6 name ty notSelf =>
      have isFolded : foldWithSelf literals selfPid state (.var name ty) = some inlined := by
        rw [foldWithSelf]
        · exact whole
        · exact notSelf
      exact leaf_agrees isFolded (by rw [foldChecked] <;> simp) fun _ => trivial
  | case7 receiver index induction =>
      rcases bind_some folds with ⟨pointer, isPointer, result⟩
      rcases induction isPointer isPointer with ⟨checked, isChecked, agrees⟩
      refine ⟨_, by rw [foldChecked, isChecked]; rfl, fun view value => ?_⟩
      simp only [Option.bind_eq_bind, Option.bind_eq_some_iff, agrees view _, ReadsInside, valueOf]
      constructor
      · rintro ⟨fatPtr, ⟨isPtr, inside⟩, isValue⟩
        exact ⟨⟨fatPtr, isPtr, isValue⟩, inside⟩
      · rintro ⟨⟨fatPtr, isPtr, isValue⟩, inside⟩
        exact ⟨fatPtr, ⟨isPtr, inside⟩, isValue⟩
  | case8 receiver index first second =>
      rcases bind_some folds with ⟨pointer, isPointer, result⟩
      rcases bind_some result with ⟨offset, isOffset, result⟩
      rcases first isPointer isPointer with ⟨checkedPtr, isCheckedPtr, agreesPtr⟩
      rcases second isOffset isOffset with ⟨checkedOff, isCheckedOff, agreesOff⟩
      refine ⟨_, by rw [foldChecked, isCheckedPtr, isCheckedOff]; rfl, fun view value => ?_⟩
      rw [ReadsInside, valueOf]
      exact read_agrees 8 (agreesPtr view) (agreesOff view) value
  | case9 op left right first second =>
      rcases bind_some folds with ⟨leftValue, isLeft, result⟩
      rcases bind_some result with ⟨rightValue, isRight, result⟩
      rcases first isLeft isLeft with ⟨checkedLeft, isCheckedLeft, agreesLeft⟩
      rcases second isRight isRight with ⟨checkedRight, isCheckedRight, agreesRight⟩
      refine ⟨_, by rw [foldChecked, isCheckedLeft, isCheckedRight]; rfl, fun view value => ?_⟩
      simp only [Option.bind_eq_bind, Option.bind_eq_some_iff, agreesLeft view _,
        agreesRight view _, ReadsInside, valueOf]
      constructor
      · rintro ⟨left, ⟨isLeft, insideLeft⟩, right, ⟨isRight, insideRight⟩, isValue⟩
        exact ⟨⟨left, isLeft, right, isRight, isValue⟩, insideLeft, insideRight⟩
      · rintro ⟨⟨left, isLeft, right, isRight, isValue⟩, insideLeft, insideRight⟩
        exact ⟨left, ⟨isLeft, insideLeft⟩, right, ⟨isRight, insideRight⟩, isValue⟩
  | case10 inner induction =>
      rcases bind_some folds with ⟨value, isValue, result⟩
      rcases induction isValue isValue with ⟨checked, isChecked, agrees⟩
      refine ⟨_, by rw [foldChecked, isChecked]; rfl, fun view value => ?_⟩
      simp only [Option.map_eq_some_iff, agrees view _, ReadsInside, valueOf]
      constructor
      · rintro ⟨inner, ⟨isInner, inside⟩, isValue⟩
        exact ⟨⟨inner, isInner, isValue⟩, inside⟩
      · rintro ⟨⟨inner, isInner, isValue⟩, inside⟩
        exact ⟨inner, ⟨isInner, inside⟩, isValue⟩
  | case11 callee ty pointer offset others first second =>
      rcases bind_some folds with ⟨bits, isBits, result⟩
      rcases bind_some result with ⟨pointerValue, isPointer, result⟩
      rcases bind_some result with ⟨offsetValue, isOffset, result⟩
      rcases first isPointer isPointer with ⟨checkedPtr, isCheckedPtr, agreesPtr⟩
      rcases second isOffset isOffset with ⟨checkedOff, isCheckedOff, agreesOff⟩
      refine ⟨_, by rw [foldChecked, isBits, isCheckedPtr, isCheckedOff]; rfl, fun view value => ?_⟩
      rw [ReadsInside, valueOf, isBits]
      exact read_agrees bits (agreesPtr view) (agreesOff view) value

/-! ## Where the program ends -/

/-- Two operands and what is done with them have no result exactly if one of the three has none. -/
theorem bind_eq_none {left right : Option Word} {result : Word → Word → Option Word} :
    (left.bind fun first => right.bind fun second => result first second) = none ↔
      (left = none ∨ right = none) ∨
        ∃ first second, left = some first ∧ right = some second ∧ result first second = none := by
  cases left <;> cases right <;> simp

/-- An expression has no value in memory exactly if it stops the program. -/
theorem valueOf_eq_none {expr : Expr} {inlined : Folded}
    (folds : foldWithSelf literals selfPid state expr = some inlined) (view : View) :
    valueOf literals selfPid state view expr = none ↔ Stops literals selfPid state view expr := by
  fun_induction foldWithSelf literals selfPid state expr generalizing inlined with
  | case1 | case2 | case3 => simp [valueOf, Stops]
  | case4 ty supplied => simp [valueOf, Stops, supplied]
  | case5 | case12 => cases folds
  | case6 name ty notSelf =>
      rcases Option.map_eq_some_iff.mp folds with ⟨slot, isSlot, -⟩
      simp [valueOf, Stops, isSlot]
  | case7 receiver index induction =>
      rcases bind_some folds with ⟨pointer, isPointer, -⟩
      rw [valueOf, Stops, ← induction isPointer]
      cases valueOf literals selfPid state view receiver <;> simp
  | case8 receiver index first second =>
      rcases bind_some folds with ⟨pointer, isPointer, result⟩
      rcases bind_some result with ⟨offset, isOffset, -⟩
      rw [valueOf, Stops, ← first isPointer, ← second isOffset]
      exact bind_eq_none
  | case9 op left right first second =>
      rcases bind_some folds with ⟨leftValue, isLeft, result⟩
      rcases bind_some result with ⟨rightValue, isRight, -⟩
      rw [valueOf, Stops, ← first isLeft, ← second isRight]
      exact bind_eq_none
  | case10 inner induction =>
      rcases bind_some folds with ⟨value, isValue, -⟩
      rw [valueOf, Stops, ← induction isValue, Option.map_eq_none_iff]
  | case11 callee ty pointer offset others first second =>
      rcases bind_some folds with ⟨bits, isBits, result⟩
      rcases bind_some result with ⟨pointerValue, isPointer, result⟩
      rcases bind_some result with ⟨offsetValue, isOffset, -⟩
      rw [valueOf, Stops, ← first isPointer, ← second isOffset, isBits]
      exact bind_eq_none

/-! ## The runtime's loads -/

/-- Loads of the bytes of a memory. -/
def byteLoad (mem : ByteMem) (bits : Nat) (addr : Word) : Option Word :=
  some (BitVec.ofNat 64 (mem.loadBytes addr.toNat (bits / 8)).1)

def LoadWidth.bits (width : LoadWidth) : Nat := 8 * width.size

/-- The value of a call that has not trapped. -/
def returnedWord : Runtime.Outcome → Option Word
  | .returned value _ => some (BitVec.ofNat 64 value)
  | .trapped _ _ => none

/-- A checked read is the call of the runtime's function on the pointer of that header. -/
theorem checkedLoadAt_eq_rtLoad (width : LoadWidth) (mem : ByteMem) {view : View}
    (loads : view.load = byteLoad mem) (fatPtr : FatPtr) (header offset start stop : Word)
    (loadsStart : view.load 64 header = some start) (isStart : start.toNat = fatPtr.start)
    (loadsStop : view.load 64 (header + 8) = some stop) (isStop : stop.toNat = fatPtr.stop) :
    View.checkedLoadAt view (LoadWidth.bits width) header offset =
      returnedWord (rtLoad width mem fatPtr offset.toNat) := by
  have bytes : LoadWidth.bits width / 8 = width.size := Nat.mul_div_cancel_left _ (by decide)
  have small : width.size < 2 ^ 64 := by cases width <;> decide
  have access : (start + offset).toNat = iadd fatPtr.start offset.toNat := by
    rw [BitVec.toNat_add, isStart, iadd]
  have accessEnd : (start + offset + BitVec.ofNat 64 width.size).toNat =
      iadd (iadd fatPtr.start offset.toNat) width.size := by
    rw [BitVec.toNat_add, access, BitVec.toNat_ofNat, Nat.mod_eq_of_lt small]
    rfl
  have check : start + offset + BitVec.ofNat 64 width.size ≤ stop ↔
      fatPtr.inBounds offset.toNat width.size = true := by
    rw [BitVec.le_def, accessEnd, isStop, FatPtr.inBounds, decide_eq_true_iff]
  rw [View.checkedLoadAt, rtLoad, bytes, loadsStart, loadsStop]
  simp only [Option.bind_eq_bind, Option.bind_some]
  by_cases passes : fatPtr.inBounds offset.toNat width.size = true
  · rw [if_pos (check.mpr passes), if_pos passes, loads, byteLoad, access, bytes]
    rfl
  · rw [if_neg (fun inside => passes (check.mp inside)), if_neg passes]
    rfl

/-! ## Folded expressions -/

/-- The inlined code agrees with the checked calls exactly if every read stays within its fat
pointer, or the program ends in the expression anyway. -/
theorem inlined_reads_iff {expr : Expr} {inlined : Folded}
    (folds : foldWithSelf literals selfPid state expr = some inlined) :
    ∃ checked, foldChecked literals selfPid state expr = some checked ∧ ∀ view,
      (inlined view = checked view ↔
        ReadsInside literals selfPid state view expr ∨ Stops literals selfPid state view expr) := by
  rcases checked_agrees folds with ⟨checked, isChecked, agrees⟩
  refine ⟨checked, isChecked, fun view => ?_⟩
  rw [inlined_value folds, ← valueOf_eq_none folds]
  constructor
  · intro same
    cases isValue : valueOf literals selfPid state view expr with
    | none => exact .inr rfl
    | some value =>
        rw [isValue] at same
        exact .inl ((agrees view value).mp same.symm).2
  · intro allowed
    apply Option.ext
    intro value
    rw [agrees view]
    rcases allowed with inside | stops
    · exact (and_iff_left inside).symm
    · simp [stops]

/-- The literals `0` and `9`. -/
def zeroAndNine : Literals where
  parseInt text := if text = "0" then some 0 else if text = "9" then some 9 else none
  hasher _ := 0

/-- A variable with a pointer to the eight bytes from 4096 on, in a page of memory. -/
def eightBytes : View where
  vars _ := 64
  ownPid := 0
  load bits addr :=
    if addr = 64 then some 4096 else if addr = 72 then some 4104
    else if 4096 ≤ addr ∧ addr < 8192 ∧ bits = 8 then some 7 else none

def byteAt (index : String) : Expr :=
  .index (.var "buf" (.plain "buf")) (.num index (.plain "i64"))

/-- The inlined code reads behind the end of the pointer, where the call traps. -/
theorem read_behind_end : isPure (byteAt "9") = true ∧ ∃ inlined checked,
    foldWithSelf zeroAndNine false ⟨[("buf", 0)]⟩ (byteAt "9") = some inlined ∧
    foldChecked zeroAndNine false ⟨[("buf", 0)]⟩ (byteAt "9") = some checked ∧
    inlined eightBytes = some 7 ∧ checked eightBytes = none :=
  ⟨rfl, _, _, rfl, rfl, by decide, by decide⟩

theorem read_inside : ∃ inlined checked,
    foldWithSelf zeroAndNine false ⟨[("buf", 0)]⟩ (byteAt "0") = some inlined ∧
    foldChecked zeroAndNine false ⟨[("buf", 0)]⟩ (byteAt "0") = some checked ∧
    inlined eightBytes = some 7 ∧ inlined eightBytes = checked eightBytes := by
  have folds : ∃ inlined, foldWithSelf zeroAndNine false ⟨[("buf", 0)]⟩ (byteAt "0") =
      some inlined ∧ inlined eightBytes = some 7 := ⟨_, rfl, by decide⟩
  rcases folds with ⟨inlined, folds, isSeven⟩
  rcases inlined_reads_iff folds with ⟨checked, isChecked, agrees⟩
  refine ⟨inlined, checked, folds, isChecked, isSeven, (agrees eightBytes).mpr ?_⟩
  refine .inl ⟨⟨trivial, trivial⟩, ?_⟩
  intro fatPtr index start isPtr isIndex isStart
  cases isPtr
  cases isIndex
  cases isStart
  exact ⟨4104, by decide, by decide⟩

end LakeNative.Memory

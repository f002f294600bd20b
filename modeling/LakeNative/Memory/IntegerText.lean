import Std.Data.String.ToInt
import LakeNative.Arenas.Slices
import LakeNative.Runtime.Strings

/-! # The text of an integer

The digit loop writes the digits of a number that is not negative. The one negative number
whose negation is negative again has other characters for digits.
-/

namespace LakeNative.Memory

open LakeNative.Runtime LakeNative.Regions LakeNative.Arenas

/-- The characters of a text, one byte each. -/
def ascii (text : List Char) : List UInt8 := text.map fun char => UInt8.ofNat char.toNat

/-- The bytes that the digit loop writes, first one first. -/
def digitBytes (val : BitVec 64) : Nat → Option (List UInt8)
  | 0 => none
  | rounds + 1 =>
      let digit := UInt8.ofNat (val.srem 10 + 48).toNat
      let nextVal := val.sdiv 10
      if nextVal = 0 then some [digit] else (digitBytes nextVal rounds).map (· ++ [digit])

/-- The bytes of the number's text. -/
def numberBytes (n : BitVec 64) : Option (List UInt8) :=
  if n = 0 then
    some [48]
  else if n.slt 0 then
    (digitBytes (-n) DIGIT_ROUNDS).map (45 :: ·)
  else
    digitBytes n DIGIT_ROUNDS

/-! ## The digits -/

theorem srem_ten {val : BitVec 64} (positive : val.toNat < 2 ^ 63) :
    (val.srem 10).toNat = val.toNat % 10 := by
  have sign : val.msb = false := BitVec.msb_eq_false_iff_two_mul_lt.mpr (by omega)
  rw [BitVec.srem_eq, sign]
  exact BitVec.toNat_umod

theorem sdiv_ten {val : BitVec 64} (positive : val.toNat < 2 ^ 63) :
    (val.sdiv 10).toNat = val.toNat / 10 := by
  have sign : val.msb = false := BitVec.msb_eq_false_iff_two_mul_lt.mpr (by omega)
  rw [BitVec.sdiv_eq, sign]
  exact BitVec.toNat_udiv

theorem sdiv_ten_eq_zero {val : BitVec 64} (positive : val.toNat < 2 ^ 63) :
    val.sdiv 10 = 0 ↔ val.toNat < 10 := by
  rw [← BitVec.toNat_inj, sdiv_ten positive]
  change val.toNat / 10 = 0 ↔ _
  omega

theorem digitChar_toNat : ∀ digit < 10, (Nat.digitChar digit).toNat = digit + 48 := by decide

/-- The character of the last digit. -/
theorem last_digit {val : BitVec 64} (positive : val.toNat < 2 ^ 63) :
    UInt8.ofNat (val.srem 10 + 48).toNat = UInt8.ofNat (Nat.digitChar (val.toNat % 10)).toNat := by
  have small := Nat.mod_lt val.toNat (by decide : 0 < 10)
  have constant : (48 : BitVec 64).toNat = 48 := rfl
  rw [digitChar_toNat _ small, BitVec.toNat_add, srem_ten positive, constant,
    Nat.mod_eq_of_lt (by omega)]

/-- The digits of a number that is not negative are its decimal ones. -/
theorem digitBytes_eq {val : BitVec 64} (positive : val.toNat < 2 ^ 63) {rounds : Nat}
    (enough : val.toNat < 10 ^ (rounds + 1)) :
    digitBytes val (rounds + 1) = some (ascii (Nat.toDigits 10 val.toNat)) := by
  induction rounds generalizing val with
  | zero =>
      have single : val.toNat < 10 := enough
      rw [digitBytes, if_pos ((sdiv_ten_eq_zero positive).mpr single), last_digit positive,
        Nat.toDigits_of_lt_base single, Nat.mod_eq_of_lt single]
      rfl
  | succ rounds induction =>
      rw [digitBytes, last_digit positive]
      by_cases single : val.toNat < 10
      · rw [if_pos ((sdiv_ten_eq_zero positive).mpr single), Nat.toDigits_of_lt_base single,
          Nat.mod_eq_of_lt single]
        rfl
      · have quotient := sdiv_ten positive
        have shorter : (val.sdiv 10).toNat < 10 ^ (rounds + 1) := by
          rw [quotient]
          rw [Nat.pow_succ] at enough
          exact Nat.div_lt_of_lt_mul (by omega)
        have later := induction (by omega) shorter
        rw [if_neg fun isZero => single ((sdiv_ten_eq_zero positive).mp isZero), later,
          Nat.toDigits_of_base_le (by decide) (Nat.le_of_not_lt single), quotient]
        rw [Option.map_some, ascii, ascii, List.map_append]
        rfl

theorem length_digitBytes {val : BitVec 64} {rounds : Nat} {bytes : List UInt8}
    (isBytes : digitBytes val rounds = some bytes) : 0 < bytes.length ∧ bytes.length ≤ rounds := by
  induction rounds generalizing val bytes with
  | zero => cases isBytes
  | succ rounds induction =>
      rw [digitBytes] at isBytes
      split at isBytes
      · cases isBytes
        exact ⟨Nat.one_pos, Nat.le_add_left 1 rounds⟩
      · rcases Option.map_eq_some_iff.mp isBytes with ⟨earlier, isEarlier, rfl⟩
        have bounds := induction isEarlier
        rw [List.length_append, List.length_singleton]
        omega

/-- The least integer. -/
abbrev intMin : BitVec 64 := BitVec.intMin 64

theorem toList_repr_neg {magnitude : Nat} (positive : 0 < magnitude) :
    (-(magnitude : Int)).repr.toList = '-' :: Nat.toDigits 10 magnitude := by
  rcases Nat.exists_eq_add_of_lt positive with ⟨before, rfl⟩
  rw [Nat.zero_add]
  change (Int.negSucc before).repr.toList = _
  rw [Int.repr, String.toList_append, Nat.toList_repr]
  rfl

theorem toInt_of_not_slt {n : BitVec 64} (notNeg : n.slt 0 = false) :
    n.toInt = n.toNat ∧ n.toNat < 2 ^ 63 := by
  have isWord := n.isLt
  rw [BitVec.slt_eq_decide, decide_eq_false_iff_not] at notNeg
  change ¬ n.toInt < 0 at notNeg
  rw [BitVec.toInt_eq_toNat_cond] at notNeg ⊢
  split at notNeg
  · rename_i small
    rw [if_pos small]
    exact ⟨rfl, by omega⟩
  · omega

theorem toInt_of_slt {n : BitVec 64} (isNeg : n.slt 0 = true) (notMin : n ≠ intMin) :
    n.toInt = -((-n).toNat : Int) ∧ 0 < (-n).toNat ∧ (-n).toNat < 2 ^ 63 := by
  have isWord := n.isLt
  have different : n.toNat ≠ 2 ^ 63 := fun same => notMin (BitVec.toNat_inj.mp same)
  rw [BitVec.slt_eq_decide, decide_eq_true_iff] at isNeg
  change n.toInt < 0 at isNeg
  rw [BitVec.toInt_eq_toNat_cond] at isNeg ⊢
  rw [BitVec.toNat_neg]
  split at isNeg
  · omega
  · rename_i large
    rw [if_neg large]
    omega

/-- The text of every integer but the least one is its canonical decimal representation. -/
theorem numberBytes_eq {n : BitVec 64} (notMin : n ≠ intMin) :
    numberBytes n = some (ascii n.toInt.repr.toList) := by
  by_cases isZero : n = 0
  · rw [isZero]
    decide
  · rw [numberBytes, if_neg isZero]
    cases isNeg : n.slt 0 with
    | false =>
        rcases toInt_of_not_slt isNeg with ⟨value, positive⟩
        have digits := @digitBytes_eq n positive 19 (by omega)
        rw [if_neg Bool.false_ne_true, DIGIT_ROUNDS, digits, value, ← Nat.toList_repr]
        rfl
    | true =>
        rcases toInt_of_slt isNeg notMin with ⟨value, nonzero, positive⟩
        have digits := @digitBytes_eq (-n) positive 19 (by omega)
        rw [if_pos rfl, DIGIT_ROUNDS, digits, value, toList_repr_neg nonzero]
        rfl

theorem numberBytes_intMin : numberBytes intMin = some (ascii "-'..--).0-*(+,))+(0(".toList) := by
  decide

/-! ## The buffer -/

variable {mem middle later : ByteMem} {first : Nat} {bytes front : List UInt8}

/-- From one memory to the other some bytes were written from an address on, and nothing else
was accessed. -/
structure Wrote (mem later : ByteMem) (first : Nat) (bytes : List UInt8) : Prop where
  there : later.slice first bytes.length = bytes
  outside : AgreeOutside ⟨first, first + bytes.length⟩ mem.bytes later.bytes
  touched : ∀ addr ∈ later.touched,
    addr ∈ mem.touched ∨ addr ∈ Region.mk first (first + bytes.length)

theorem wrote_storeByte (mem : ByteMem) (addr value : Nat) :
    Wrote mem (mem.storeByte addr value) addr [UInt8.ofNat value] where
  there := by
    change [UInt8.ofNat (Function.update mem.bytes addr (value % 256) (addr + 0))] = _
    rw [Nat.add_zero, Function.update_self, UInt8.ofNat_mod_size]
  outside := AgreeOutside.update (Region.mem_mk.mpr ⟨Nat.le_refl _, Nat.lt_succ_self _⟩) _
  touched addrs member := by
    rcases List.mem_cons.mp member with rfl | before
    · exact .inr (Region.mem_mk.mpr ⟨Nat.le_refl _, Nat.lt_succ_self _⟩)
    · exact .inl before

/-- Bytes are written in front of others. -/
theorem Wrote.before (behind : Wrote mem middle (first + front.length) bytes)
    (wrote : Wrote middle later first front) : Wrote mem later first (front ++ bytes) where
  there := by
    rw [List.length_append, slice_add, wrote.there, ← behind.there, length_slice]
    congr 1
    apply slice_congr
    intro i inRange
    apply wrote.outside
    rw [Region.mem_mk]
    omega
  outside addr outside := by
    rw [Region.mem_mk, List.length_append] at outside
    rw [wrote.outside, behind.outside]
    · rw [Region.mem_mk]
      omega
    · rw [Region.mem_mk]
      omega
  touched addr member := by
    rw [Region.mem_mk, List.length_append]
    rcases wrote.touched addr member with earlier | inFront
    · rcases behind.touched addr earlier with before | isBehind
      · exact .inl before
      · rw [Region.mem_mk] at isBehind
        exact .inr (by omega)
    · rw [Region.mem_mk] at inFront
      exact .inr (by omega)

theorem digitLoop_wrote {val : BitVec 64} {rounds wp : Nat}
    (isBytes : digitBytes val rounds = some bytes) (room : bytes.length ≤ wp) (isWord : wp < 2 ^ 64) :
    ∃ later, digitLoop mem wp val rounds = some (wp - bytes.length, later) ∧
      Wrote mem later (wp + 1 - bytes.length) bytes := by
  induction rounds generalizing mem val wp bytes with
  | zero => cases isBytes
  | succ rounds induction =>
      have stored := wrote_storeByte mem wp (val.srem 10 + 48).toNat
      have before : isub wp 1 = wp - 1 := by
        have nonempty := (length_digitBytes isBytes).1
        exact isub_eq (by omega) isWord
      rw [digitBytes] at isBytes
      rw [digitLoop, before]
      by_cases last : val.sdiv 10 = 0
      · rw [if_pos last] at isBytes ⊢
        cases isBytes
        exact ⟨_, rfl, stored⟩
      · rw [if_neg last] at isBytes ⊢
        rcases Option.map_eq_some_iff.mp isBytes with ⟨earlier, isEarlier, rfl⟩
        rw [List.length_append, List.length_singleton] at room ⊢
        have nonempty := (length_digitBytes isEarlier).1
        have loop : ∃ later,
            digitLoop (mem.storeByte wp (val.srem 10 + 48).toNat) (wp - 1) (val.sdiv 10) rounds =
              some (wp - 1 - earlier.length, later) ∧
            Wrote (mem.storeByte wp (val.srem 10 + 48).toNat) later (wp - 1 + 1 - earlier.length)
              earlier := induction isEarlier (by omega) (by omega)
        rcases loop with ⟨later, loops, wrote⟩
        have start : wp - 1 + 1 - earlier.length = wp + 1 - (earlier.length + 1) := by omega
        have stop : wp = wp + 1 - (earlier.length + 1) + earlier.length := by omega
        rw [start] at wrote
        refine ⟨later, ?_, Wrote.before ?_ wrote⟩
        · rw [loops, Nat.sub_sub, Nat.add_comm 1]
        · rw [← stop]
          exact stored

/-- The text lies at the end of a region that holds all that was written. -/
structure EndsWith (mem later : ByteMem) (region : Region) (bytes : List UInt8) : Prop where
  room : bytes.length + region.first ≤ region.stop
  text : later.slice (region.stop - bytes.length) bytes.length = bytes
  outside : AgreeOutside region mem.bytes later.bytes
  touched : ∀ addr ∈ later.touched, addr ∈ mem.touched ∨ addr ∈ region

/-- Something may be written in front of the text. -/
theorem Wrote.endsWith {region : Region} (wrote : Wrote mem later first (front ++ bytes))
    (ends : first + (front ++ bytes).length = region.stop) (inside : region.first ≤ first) :
    EndsWith mem later region bytes := by
  have within : (Region.mk first (first + (front ++ bytes).length)).Within region :=
    ⟨inside, Nat.le_of_eq ends⟩
  have sum : (front ++ bytes).length = front.length + bytes.length := List.length_append
  refine ⟨by omega, ?_, ?_, ?_⟩
  · have whole := wrote.there
    rw [sum, slice_add] at whole
    have start : region.stop - bytes.length = first + front.length := by omega
    rw [start]
    exact (List.append_inj whole (length_slice _ _ _)).2
  · intro addr outside
    exact wrote.outside addr fun member => outside (within.mem member)
  · intro addr member
    exact (wrote.touched addr member).imp_right within.mem

/-- The digits and a minus sign before them. -/
theorem signed_wrote {val : BitVec 64} {wp : Nat} (isBytes : digitBytes val DIGIT_ROUNDS = some bytes)
    (room : bytes.length ≤ wp) (isWord : wp < 2 ^ 64) :
    ∃ later, digitLoop mem wp val DIGIT_ROUNDS = some (wp - bytes.length, later) ∧
      Wrote mem (later.storeByte (wp - bytes.length) 45) (wp - bytes.length) (45 :: bytes) := by
  rcases @digitLoop_wrote mem bytes val DIGIT_ROUNDS wp isBytes room isWord with ⟨later, loops, wrote⟩
  have behind : wp + 1 - bytes.length = wp - bytes.length + 1 := by omega
  rw [behind] at wrote
  exact ⟨later, loops, Wrote.before wrote (wrote_storeByte later (wp - bytes.length) 45)⟩

/-- The text of the number ends with byte 30 of its buffer. -/
theorem writeNumber_spec (mem : ByteMem) {dataPtr : Nat} (fits : dataPtr + 32 ≤ 2 ^ 47) {n : BitVec 64}
    (isBytes : numberBytes n = some bytes) :
    ∃ later, writeNumber mem dataPtr n = some (dataPtr + 31 - bytes.length, later) ∧
      EndsWith mem later ⟨dataPtr, dataPtr + 31⟩ bytes := by
  have start : iadd dataPtr 30 = dataPtr + 30 := iadd_eq (by omega)
  rw [writeNumber, start]
  rw [numberBytes] at isBytes
  by_cases isZero : n = 0
  · rw [if_pos isZero] at isBytes ⊢
    cases isBytes
    refine ⟨_, rfl, ?_⟩
    have wrote : Wrote mem _ _ ([] ++ [48]) := wrote_storeByte mem (dataPtr + 30) 48
    exact wrote.endsWith rfl (Nat.le_add_right _ _)
  · rw [if_neg isZero] at isBytes ⊢
    cases isNeg : n.slt 0 with
    | false =>
        rw [isNeg, if_neg Bool.false_ne_true] at isBytes
        have length := (length_digitBytes isBytes).2
        unfold DIGIT_ROUNDS at length
        rcases @signed_wrote mem bytes n (dataPtr + 30) isBytes (by omega) (by omega) with
          ⟨later, loops, wrote⟩
        have next : isub (iadd (dataPtr + 30 - bytes.length) 1) 0 = dataPtr + 31 - bytes.length := by
          rw [iadd_eq (by omega), isub_eq (by omega) (by omega)]
          omega
        refine ⟨later.storeByte (dataPtr + 30 - bytes.length) 45, ?_, ?_⟩
        · change ((digitLoop mem (dataPtr + 30) n DIGIT_ROUNDS).map _) = _
          rw [loops, Option.map_some, ← next]
          rfl
        · have ends : dataPtr + 30 - bytes.length + ([45] ++ bytes).length = dataPtr + 31 := by
            rw [List.singleton_append, List.length_cons]
            omega
          apply @Wrote.endsWith mem _ _ bytes [45] ⟨dataPtr, dataPtr + 31⟩ wrote ends
          dsimp only
          omega
    | true =>
        rw [isNeg, if_pos rfl] at isBytes
        rcases Option.map_eq_some_iff.mp isBytes with ⟨digits, isDigits, rfl⟩
        have length := (length_digitBytes isDigits).2
        unfold DIGIT_ROUNDS at length
        rcases @signed_wrote mem digits (-n) (dataPtr + 30) isDigits (by omega) (by omega) with
          ⟨later, loops, wrote⟩
        have next : isub (iadd (dataPtr + 30 - digits.length) 1) 1 =
            dataPtr + 31 - (45 :: digits).length := by
          rw [iadd_eq (by omega), isub_eq (by omega) (by omega), List.length_cons]
          omega
        refine ⟨later.storeByte (dataPtr + 30 - digits.length) 45, ?_, ?_⟩
        · change ((digitLoop mem (dataPtr + 30) (-n) DIGIT_ROUNDS).map _) = _
          rw [loops, Option.map_some, ← next]
          rfl
        · have ends : dataPtr + 30 - digits.length + ([] ++ 45 :: digits).length = dataPtr + 31 := by
            rw [List.nil_append, List.length_cons]
            omega
          apply @Wrote.endsWith mem _ _ (45 :: digits) [] ⟨dataPtr, dataPtr + 31⟩ wrote ends
          dsimp only
          omega

/-! ## The two functions -/

/-- The fat pointer delimits the text at the end of its buffer, and nothing was accessed
outside. -/
structure Renders (mem : ByteMem) (buffer : FatPtr) (text : List UInt8) (rendered : Rendered) :
    Prop where
  stop : rendered.stop = buffer.stop
  inside : buffer.start ≤ rendered.start ∧ rendered.start ≤ rendered.stop
  text : rendered.mem.slice rendered.start (rendered.stop - rendered.start) = text
  outside : AgreeOutside ⟨buffer.start, buffer.stop⟩ mem.bytes rendered.mem.bytes
  touched : ∀ addr ∈ rendered.mem.touched,
    addr ∈ mem.touched ∨ addr ∈ Region.mk buffer.start buffer.stop

theorem EndsWith.renders {buffer : FatPtr}
    (endsWith : EndsWith mem later ⟨buffer.start, buffer.stop⟩ bytes) :
    Renders mem buffer bytes ⟨buffer.stop - bytes.length, buffer.stop, later⟩ := by
  have room := endsWith.room
  dsimp only at room
  refine ⟨rfl, ⟨?_, Nat.sub_le _ _⟩, ?_, endsWith.outside, endsWith.touched⟩
  · dsimp only
    omega
  · have length : buffer.stop - (buffer.stop - bytes.length) = bytes.length := by omega
    dsimp only
    rw [length]
    exact endsWith.text

theorem toString_renders (mem : ByteMem) (buffer : Buffer 31) {n : BitVec 64}
    (isBytes : numberBytes n = some bytes) :
    ∃ rendered, Runtime.toString mem buffer n = some rendered ∧
      Renders mem buffer.toFatPtr bytes rendered := by
  have fits := buffer.fits
  have sized := buffer.sized
  rcases @writeNumber_spec bytes mem buffer.start (by omega) n isBytes with ⟨later, writes, endsWith⟩
  rw [← sized] at writes endsWith
  refine ⟨_, ?_, endsWith.renders⟩
  rw [Runtime.toString, writes]
  rfl

theorem toStringWithLn_renders (mem : ByteMem) (buffer : Buffer 32) {n : BitVec 64}
    (isBytes : numberBytes n = some bytes) :
    ∃ rendered, toStringWithLn mem buffer n = some rendered ∧
      Renders mem buffer.toFatPtr (bytes ++ [10]) rendered := by
  have fits := buffer.fits
  have sized := buffer.sized
  have newline : iadd buffer.start 31 = buffer.start + 31 := iadd_eq (by omega)
  let withLn := mem.storeByte (buffer.start + 31) 10
  rcases @writeNumber_spec bytes withLn buffer.start (by omega) n isBytes with
    ⟨later, writes, endsWith⟩
  have room := endsWith.room
  dsimp only at room
  refine ⟨⟨buffer.start + 31 - bytes.length, buffer.stop, later⟩, ?_, ?_⟩
  · rw [toStringWithLn, newline, writes]
    rfl
  · refine ⟨rfl, ⟨?_, ?_⟩, ?_, ?_, ?_⟩
    · dsimp only
      omega
    · dsimp only
      omega
    · have length : buffer.stop - (buffer.start + 31 - bytes.length) = bytes.length + 1 := by omega
      have stop : buffer.start + 31 - bytes.length + bytes.length = buffer.start + 31 := by omega
      have kept : later.bytes (buffer.start + 31) = 10 := by
        rw [endsWith.outside]
        · exact Function.update_self _ _ _
        · rw [Region.mem_mk]
          omega
      dsimp only
      rw [length, slice_add, endsWith.text, stop]
      change bytes ++ [UInt8.ofNat (later.bytes (buffer.start + 31 + 0))] = _
      rw [Nat.add_zero, kept]
      rfl
    · intro addr outside
      rw [Region.mem_mk] at outside
      rw [endsWith.outside]
      · exact Function.update_of_ne (by omega) _ _
      · rw [Region.mem_mk]
        omega
    · intro addr member
      rw [Region.mem_mk]
      rcases endsWith.touched addr member with before | inText
      · rcases List.mem_cons.mp before with rfl | earlier
        · exact .inr (by omega)
        · exact .inl earlier
      · rw [Region.mem_mk] at inText
        exact .inr (by omega)

/-! ## Which integers come out right -/

theorem chars_ascii {text : List Char} (small : ∀ char ∈ text, char.toNat < 256) :
    (ascii text).map (fun byte => Char.ofNat byte.toNat) = text := by
  rw [ascii, List.map_map]
  refine (List.map_congr_left fun char member => ?_).trans (List.map_id text)
  change Char.ofNat (UInt8.ofNat char.toNat).toNat = char
  rw [UInt8.toNat_ofNat', Nat.mod_eq_of_lt (small char member), Char.ofNat_toNat]

theorem digit_small {char : Char} (isDigit : char.isDigit = true) : char.toNat < 256 := by
  rw [Char.isDigit, Bool.and_eq_true, decide_eq_true_iff, decide_eq_true_iff] at isDigit
  exact Nat.lt_of_le_of_lt isDigit.2 (by decide)

theorem repr_small (value : Int) : ∀ char ∈ value.repr.toList, char.toNat < 256 := by
  have digits : ∀ magnitude : Nat, ∀ char ∈ magnitude.repr.toList, char.toNat < 256 := by
    intro magnitude char member
    rw [Nat.toList_repr] at member
    exact digit_small (Nat.isDigit_of_mem_toDigits (by decide) (by decide) member)
  intro char member
  cases value with
  | ofNat magnitude => exact digits magnitude char member
  | negSucc before =>
      rw [Int.repr, String.toList_append] at member
      rcases List.mem_append.mp member with isSign | isDigit
      · rw [List.mem_singleton.mp isSign]
        decide
      · exact digits _ char isDigit

/-- The integer that a text is read as. -/
def parsed (bytes : List UInt8) : Option Int :=
  (String.ofList (bytes.map fun byte => Char.ofNat byte.toNat)).toInt?

theorem parsed_repr (value : Int) : parsed (ascii value.repr.toList) = some value := by
  rw [parsed, chars_ascii (repr_small value), String.ofList_toList, Int.toInt?_repr]

theorem numberBytes_isSome (n : BitVec 64) : ∃ bytes, numberBytes n = some bytes := by
  by_cases isMin : n = intMin
  · exact ⟨_, isMin ▸ numberBytes_intMin⟩
  · exact ⟨_, numberBytes_eq isMin⟩

/-- Both functions return the canonical decimal text of every integer but the least one. -/
theorem to_string_canonical_iff (mem : ByteMem) (buffer : Buffer 31) (lnBuffer : Buffer 32)
    (n : BitVec 64) :
    (∃ rendered withLn, Runtime.toString mem buffer n = some rendered ∧
      toStringWithLn mem lnBuffer n = some withLn ∧
      Renders mem buffer.toFatPtr (ascii n.toInt.repr.toList) rendered ∧
      Renders mem lnBuffer.toFatPtr (ascii n.toInt.repr.toList ++ [10]) withLn ∧
      parsed (rendered.mem.slice rendered.start (rendered.stop - rendered.start)) =
        some n.toInt) ↔
      n ≠ BitVec.intMin 64 := by
  constructor
  · rintro ⟨rendered, withLn, renders, -, isText, -, -⟩ rfl
    rcases toString_renders mem buffer numberBytes_intMin with ⟨other, also, otherText⟩
    rw [renders] at also
    cases also
    have same := isText.text.symm.trans otherText.text
    exact absurd same (by decide)
  · intro notMin
    have isBytes := numberBytes_eq notMin
    rcases toString_renders mem buffer isBytes with ⟨rendered, renders, isText⟩
    rcases toStringWithLn_renders mem lnBuffer isBytes with ⟨withLn, rendersLn, isTextLn⟩
    refine ⟨rendered, withLn, renders, rendersLn, isText, isTextLn, ?_⟩
    rw [isText.text]
    exact parsed_repr _

/-- For -2⁶³ the characters after the minus sign are no digits. -/
theorem to_string_least : ∃ (mem : ByteMem) (buffer : Buffer 31) (rendered : Rendered),
    Runtime.toString mem buffer (BitVec.intMin 64) = some rendered ∧
      rendered.mem.slice rendered.start (rendered.stop - rendered.start) =
        ascii "-'..--).0-*(+,))+(0(".toList ∧
      (BitVec.intMin 64).toInt.repr = "-9223372036854775808" := by
  let buffer : Buffer 31 := ⟨⟨4096, 4127, by decide, by decide⟩, rfl⟩
  rcases toString_renders ⟨fun _ => 0, []⟩ buffer numberBytes_intMin with ⟨rendered, renders, isText⟩
  exact ⟨_, buffer, rendered, renders, isText.text, by decide⟩

end LakeNative.Memory

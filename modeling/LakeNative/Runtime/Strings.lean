import LakeNative.Runtime.FatPtr

/-! # Integers as text

`to_string` and `to_string_with_ln`. Both write the digits from the back of a buffer and then
set the start of its fat pointer to the first character.
-/

namespace LakeNative.Runtime

/-- What `rt_allocate_raw` returns for a size: a fat pointer to so many bytes. -/
structure Buffer (size : Nat) extends FatPtr where
  sized : stop = start + size

/-- The fat pointer that is returned, and memory. -/
structure Rendered where
  start : Nat
  stop : Nat
  mem : ByteMem

/-- More rounds than any integer has digits. -/
def DIGIT_ROUNDS : Nat := 20

/-- `digit_loop`: the last digit goes to `wp`, the others before it. -/
def digitLoop (mem : ByteMem) (wp : Nat) (val : BitVec 64) : Nat → Option (Nat × ByteMem)
  | 0 => none
  | rounds + 1 =>
      let digit := val.srem 10 + 48
      let written := mem.storeByte wp digit.toNat
      let nextWp := isub wp 1
      let nextVal := val.sdiv 10
      if nextVal = 0 then some (nextWp, written) else digitLoop written nextWp nextVal rounds

/-- The text of the number up to byte 30 of the buffer. A minus sign is always written, and
the start skips it unless the number is negative. -/
def writeNumber (mem : ByteMem) (dataPtr : Nat) (n : BitVec 64) : Option (Nat × ByteMem) :=
  let wpStart := iadd dataPtr 30
  if n = 0 then
    some (wpStart, mem.storeByte wpStart 48)
  else
    let isNeg := n.slt 0
    let absN := if isNeg then -n else n
    (digitLoop mem wpStart absN DIGIT_ROUNDS).map fun (wp, mem) =>
      (isub (iadd wp 1) isNeg.toNat, mem.storeByte wp 45)

def toString (mem : ByteMem) (buffer : Buffer 31) (n : BitVec 64) : Option Rendered :=
  (writeNumber mem buffer.start n).map fun (start, mem) => ⟨start, buffer.stop, mem⟩

/-- The newline is the last byte of the buffer. -/
def toStringWithLn (mem : ByteMem) (buffer : Buffer 32) (n : BitVec 64) : Option Rendered :=
  (writeNumber (mem.storeByte (iadd buffer.start 31) 10) buffer.start n).map fun (start, mem) =>
    ⟨start, buffer.stop, mem⟩

end LakeNative.Runtime

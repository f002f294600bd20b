import LakeNative.Runtime.Memory

/-! # Access through fat pointers

`rt_load_u8` to `rt_load_u64`, `rt_store` and `rt_copy_bytes`. Each checks the range it is
to access against the end of the pointer and traps when the check fails.
-/

namespace LakeNative.Runtime

open LakeNative.Regions

/-- Memory by its bytes, and the addresses that were accessed, latest first. -/
structure ByteMem where
  bytes : Nat → Nat
  touched : List Nat

/-- The header of a live fat pointer: the address of the first byte of the data and the one
past its last byte, which lies in the lower half of the address space. -/
structure FatPtr where
  start : Nat
  stop : Nat
  ordered : start ≤ stop
  fits : stop < 2 ^ 47

/-- What a call comes to: its result, or the code that it traps with. -/
inductive Outcome where
  | returned (value : Nat) (mem : ByteMem)
  | trapped (code : Nat) (mem : ByteMem)

namespace Outcome

def mem : Outcome → ByteMem
  | returned _ mem => mem
  | trapped _ mem => mem

def hasTrapped : Outcome → Bool
  | returned _ _ => false
  | trapped _ _ => true

end Outcome

/-- The shift amount is taken modulo the width. -/
def ushr (word amount : Nat) : Nat := word >>> (amount % 64)

namespace ByteMem

def loadByte (mem : ByteMem) (addr : Nat) : Nat × ByteMem :=
  (mem.bytes addr, { mem with touched := addr :: mem.touched })

def storeByte (mem : ByteMem) (addr value : Nat) : ByteMem where
  bytes := Function.update mem.bytes addr (value % 256)
  touched := addr :: mem.touched

/-- A little-endian load of some bytes. -/
def loadBytes (mem : ByteMem) (addr : Nat) : Nat → Nat × ByteMem
  | 0 => (0, mem)
  | count + 1 =>
      let (low, mem) := mem.loadBytes addr count
      let (byte, mem) := mem.loadByte (iadd addr count)
      (low + byte * 256 ^ count, mem)

/-- The loop of `rt_store`. -/
def storeLoop (mem : ByteMem) (accessPtr val size : Nat) : ByteMem :=
  (List.range size).foldl
    (fun mem i => mem.storeByte (iadd accessPtr i) (ushr val (imul i 8))) mem

/-- The loop of `rt_copy_bytes`. -/
def copyLoop (mem : ByteMem) (dstAccessBase srcAccessBase len : Nat) : ByteMem :=
  (List.range len).foldl (fun mem i =>
    let (byte, mem) := mem.loadByte (iadd srcAccessBase i)
    mem.storeByte (iadd dstAccessBase i) byte) mem

end ByteMem

/-- `start + offset + size <= end`, with the additions of 64-bit words. -/
def FatPtr.inBounds (fatPtr : FatPtr) (offset size : Nat) : Bool :=
  iadd (iadd fatPtr.start offset) size ≤ fatPtr.stop

inductive LoadWidth where
  | u8 | u16 | u32 | u64

def LoadWidth.size : LoadWidth → Nat
  | u8 => 1
  | u16 => 2
  | u32 => 4
  | u64 => 8

def rtLoad (width : LoadWidth) (mem : ByteMem) (fatPtr : FatPtr) (offset : Nat) : Outcome :=
  if fatPtr.inBounds offset width.size then
    let (value, mem) := mem.loadBytes (iadd fatPtr.start offset) width.size
    .returned value mem
  else
    .trapped 32 mem

def rtStore (mem : ByteMem) (fatPtr : FatPtr) (val size offset : Nat) : Outcome :=
  if fatPtr.inBounds offset size then
    .returned 0 (mem.storeLoop (iadd fatPtr.start offset) val size)
  else
    .trapped 32 mem

def rtCopyBytes (mem : ByteMem) (dstFat : FatPtr) (dstOff : Nat) (srcFat : FatPtr)
    (srcOff len : Nat) : Outcome :=
  if dstFat.inBounds dstOff len then
    if srcFat.inBounds srcOff len then
      .returned 0 (mem.copyLoop (iadd dstFat.start dstOff) (iadd srcFat.start srcOff) len)
    else
      .trapped 34 mem
  else
    .trapped 33 mem

/-! ## The addresses that are accessed -/

namespace ByteMem

variable {mem : ByteMem} {accessed : Nat}

theorem touched_loadBytes {addr count : Nat}
    (member : accessed ∈ (mem.loadBytes addr count).2.touched) :
    accessed ∈ mem.touched ∨ ∃ i < count, accessed = iadd addr i := by
  induction count with
  | zero => exact .inl member
  | succ count induction =>
      rcases List.mem_cons.mp member with last | earlier
      · exact .inr ⟨count, Nat.lt_succ_self _, last⟩
      · rcases induction earlier with before | ⟨i, inRange, isAddr⟩
        · exact .inl before
        · exact .inr ⟨i, Nat.lt_succ_of_lt inRange, isAddr⟩

/-- A loop over the offsets of a range accesses what its rounds access. -/
theorem touched_loop {round : ByteMem → Nat → ByteMem} {bases : List Nat}
    (rounds : ∀ mem i, ∀ accessed ∈ (round mem i).touched,
      accessed ∈ mem.touched ∨ ∃ base ∈ bases, accessed = iadd base i)
    {count : Nat} (member : accessed ∈ ((List.range count).foldl round mem).touched) :
    accessed ∈ mem.touched ∨ ∃ base ∈ bases, ∃ i < count, accessed = iadd base i := by
  induction count with
  | zero => exact .inl member
  | succ count induction =>
      rw [List.range_succ, List.foldl_append] at member
      rcases rounds _ _ _ member with earlier | ⟨base, isBase, isAddr⟩
      · rcases induction earlier with before | ⟨base, isBase, i, inRange, isAddr⟩
        · exact .inl before
        · exact .inr ⟨base, isBase, i, Nat.lt_succ_of_lt inRange, isAddr⟩
      · exact .inr ⟨base, isBase, count, Nat.lt_succ_self _, isAddr⟩

theorem touched_storeLoop {accessPtr val size : Nat}
    (member : accessed ∈ (mem.storeLoop accessPtr val size).touched) :
    accessed ∈ mem.touched ∨ ∃ base ∈ [accessPtr], ∃ i < size, accessed = iadd base i := by
  refine touched_loop (fun mem i accessed isIn => ?_) member
  rcases List.mem_cons.mp isIn with here | before
  · exact .inr ⟨accessPtr, List.mem_cons_self, here⟩
  · exact .inl before

theorem touched_copyLoop {dstAccessBase srcAccessBase len : Nat}
    (member : accessed ∈ (mem.copyLoop dstAccessBase srcAccessBase len).touched) :
    accessed ∈ mem.touched ∨
      ∃ base ∈ [dstAccessBase, srcAccessBase], ∃ i < len, accessed = iadd base i := by
  refine touched_loop (fun mem i accessed isIn => ?_) member
  rcases List.mem_cons.mp isIn with stored | earlier
  · exact .inr ⟨dstAccessBase, List.mem_cons_self, stored⟩
  · rcases List.mem_cons.mp earlier with loaded | before
    · exact .inr ⟨srcAccessBase, List.mem_cons_of_mem _ List.mem_cons_self, loaded⟩
    · exact .inl before

end ByteMem

end LakeNative.Runtime

import LakeNative.Runtime.BucketAllocator
import LakeNative.Runtime.FatPtr

/-! # Allocating from an arena

`rt_arena_alloc` and `rt_copy_to_arena` on the words of memory. The cursor of an arena is the
first word of its fat pointer, which all parties that share the arena hold.
-/

namespace LakeNative.Runtime.Heap

open LakeNative.Regions

/-! ## Bytes -/

/-- A byte of the word that it lies in. -/
def byte (heap : Heap) (addr : Nat) : Nat := heap.load (alignDown addr 8) / 256 ^ (addr % 8) % 256

def setByte (heap : Heap) (addr value : Nat) : Heap :=
  let word := heap.load (alignDown addr 8)
  let place := 256 ^ (addr % 8)
  heap.store (alignDown addr 8) (word - word / place % 256 * place + value % 256 * place)

/-- The loop of `rt_copy_bytes`. -/
def copyLoop (heap : Heap) (dstAccessBase srcAccessBase len : Nat) : Heap :=
  (List.range len).foldl (fun heap i =>
    heap.setByte (iadd dstAccessBase i) (heap.byte (iadd srcAccessBase i))) heap

/-- `rt_copy_bytes`; there is no result when it traps. -/
def copyBytes (heap : Heap) (dstFat dstOff srcFat srcOff len : Nat) : Option Heap :=
  let dstAccessBase := iadd (heap.load dstFat) dstOff
  let srcAccessBase := iadd (heap.load srcFat) srcOff
  if iadd dstAccessBase len ≤ heap.load (dstFat + 8) then
    if iadd srcAccessBase len ≤ heap.load (srcFat + 8) then
      some (heap.copyLoop dstAccessBase srcAccessBase len)
    else
      none
  else
    none

/-! ## The arena -/

/-- What both functions do with an arena that has room: the header goes to the cursor, and the
cursor behind the padded payload. -/
def carve (heap : Heap) (arenaFat userSize : Nat) : Option (Nat × Heap) :=
  if arenaFat ≠ 0 then
    let bump := heap.load arenaFat
    let arenaEnd := heap.load (arenaFat + 8)
    let alignedSize := alignDown (iadd userSize 7) 8
    let needed := iadd alignedSize 16
    let newBump := iadd bump needed
    if newBump ≤ arenaEnd then
      let payloadStart := iadd bump 16
      let payloadEnd := iadd payloadStart userSize
      some (bump, ((heap.store bump payloadStart).store (bump + 8) payloadEnd).store arenaFat newBump)
    else
      none
  else
    none

/-- `rt_arena_alloc`, with the arena of the running actor. -/
def arenaAlloc (heap : Heap) (arenaFat userSize mmapAddr : Nat) : Option (Nat × Heap) :=
  match heap.carve arenaFat userSize with
  | some carved => some carved
  | none => heap.allocateRaw userSize mmapAddr

/-- The size that a header gives. -/
def sizeOf (heap : Heap) (fatPtr : Nat) : Nat := isub (heap.load (fatPtr + 8)) (heap.load fatPtr)

/-- `rt_copy_to_arena`, with the arena of the target. -/
def copyToArena (heap : Heap) (srcFat targetArenaFat mmapAddr : Nat) : Option (Nat × Heap) :=
  let size := heap.sizeOf srcFat
  (heap.arenaAlloc targetArenaFat size mmapAddr).bind fun (dstFat, heap) =>
    (heap.copyBytes dstFat 0 srcFat 0 size).map fun heap => (dstFat, heap)

/-! ## Bytes in words -/

theorem byte_store_of_ne (heap : Heap) {addr word value : Nat} (apart : alignDown addr 8 ≠ word) :
    (heap.store word value).byte addr = heap.byte addr := by
  have kept : (heap.store word value).load (alignDown addr 8) = heap.load (alignDown addr 8) :=
    Function.update_of_ne apart _ _
  rw [byte, kept, byte]

/-- The digits of a number that is given by one digit, what is below it and what is above it. -/
theorem digit_of_parts {low middle high place : Nat} (lowFits : low < 256 ^ place)
    (isByte : middle < 256) (other : Nat) :
    (low + 256 ^ place * (middle + 256 * high)) / 256 ^ other % 256 =
      if other = place then middle
      else if other < place then low / 256 ^ other % 256
      else high / 256 ^ (other - place - 1) % 256 := by
  by_cases same : other = place
  · rw [if_pos same, same, Nat.add_mul_div_left _ _ (Nat.pow_pos (by decide)),
      Nat.div_eq_of_lt lowFits]
    omega
  · rw [if_neg same]
    by_cases below : other < place
    · rcases Nat.exists_eq_add_of_lt below with ⟨rest, rfl⟩
      rw [if_pos below, Nat.pow_succ, Nat.pow_add, Nat.mul_assoc, Nat.mul_assoc,
        Nat.add_mul_div_left _ _ (Nat.pow_pos (by decide)), Nat.mul_left_comm,
        Nat.add_mul_mod_self_left]
    · rcases Nat.exists_eq_add_of_lt (by omega : place < other) with ⟨rest, rfl⟩
      have covered : (low + 256 ^ place * (middle + 256 * high)) / 256 ^ (place + 1) = high := by
        rw [Nat.pow_succ, ← Nat.div_div_eq_div_mul, Nat.add_mul_div_left _ _ (Nat.pow_pos (by decide)),
          Nat.div_eq_of_lt lowFits]
        omega
      rw [if_neg below, show place + rest + 1 = place + 1 + rest by omega, Nat.pow_add,
        ← Nat.div_div_eq_div_mul, covered]
      congr 3
      omega

/-- A digit of a number is replaced, and the others stay. -/
theorem digit_replaced {word value place : Nat} (isByte : value < 256) (other : Nat) :
    (word - word / 256 ^ place % 256 * 256 ^ place + value * 256 ^ place) / 256 ^ other % 256 =
      if other = place then value else word / 256 ^ other % 256 := by
  have positive : 0 < 256 ^ place := Nat.pow_pos (by decide)
  let low := word % 256 ^ place
  let middle := word / 256 ^ place % 256
  let high := word / 256 ^ place / 256
  have lowFits : low < 256 ^ place := Nat.mod_lt _ positive
  have middleFits : middle < 256 := Nat.mod_lt _ (by decide)
  have upper : word / 256 ^ place = middle + 256 * high := (Nat.mod_add_div _ _).symm
  have parts : word = low + 256 ^ place * (middle + 256 * high) := by
    rw [← upper]
    exact (Nat.mod_add_div _ _).symm
  have replaced : word - middle * 256 ^ place + value * 256 ^ place =
      low + 256 ^ place * (value + 256 * high) := by
    rw [Nat.mul_comm middle, Nat.mul_comm value, Nat.mul_add] at *
    omega
  change (word - middle * 256 ^ place + value * 256 ^ place) / 256 ^ other % 256 = _
  rw [replaced, digit_of_parts lowFits isByte]
  by_cases same : other = place
  · rw [if_pos same, if_pos same]
  · rw [if_neg same, if_neg same]
    conv => rhs; rw [parts]
    rw [digit_of_parts lowFits middleFits, if_neg same]

theorem byte_setByte (heap : Heap) (addr value other : Nat) :
    (heap.setByte addr value).byte other = if other = addr then value % 256 else heap.byte other := by
  by_cases sameWord : alignDown other 8 = alignDown addr 8
  · have samePlace : other % 8 = addr % 8 ↔ other = addr := by
      unfold alignDown at sameWord
      omega
    have stored : ∀ word, (heap.store (alignDown addr 8) word).load (alignDown other 8) = word := by
      intro word
      rw [sameWord]
      exact Function.update_self _ _ _
    rw [setByte, byte, stored, digit_replaced (Nat.mod_lt _ (by decide)), byte, sameWord]
    exact if_congr samePlace rfl rfl
  · have different : other ≠ addr := by
      rintro rfl
      exact sameWord rfl
    rw [setByte, byte_store_of_ne _ sameWord, if_neg different]

/-- On words the loop copies the bytes that it copies on bytes. -/
theorem byte_copyLoop (heap : Heap) (touched : List Nat) (dst src len : Nat) :
    (heap.copyLoop dst src len).byte = (ByteMem.copyLoop ⟨heap.byte, touched⟩ dst src len).bytes := by
  induction len with
  | zero => rfl
  | succ len induction =>
      rw [copyLoop, ByteMem.copyLoop, List.range_succ, List.foldl_append, List.foldl_append]
      change ((heap.copyLoop dst src len).setByte (iadd dst len)
          ((heap.copyLoop dst src len).byte (iadd src len))).byte =
        Function.update (ByteMem.copyLoop ⟨heap.byte, touched⟩ dst src len).bytes (iadd dst len)
          ((ByteMem.copyLoop ⟨heap.byte, touched⟩ dst src len).bytes (iadd src len) % 256)
      funext addr
      rw [byte_setByte, induction, Function.update_apply]

/-- A copy on words has the outcome that it has on bytes. -/
theorem copyBytes_refines (heap : Heap) {dst src : FatPtr} {dstFat srcFat : Nat}
    (dstStarts : heap.load dstFat = dst.start) (dstStops : heap.load (dstFat + 8) = dst.stop)
    (srcStarts : heap.load srcFat = src.start) (srcStops : heap.load (srcFat + 8) = src.stop)
    (dstOff srcOff len : Nat) :
    match heap.copyBytes dstFat dstOff srcFat srcOff len with
    | some copied => ∃ mem, rtCopyBytes ⟨heap.byte, []⟩ dst dstOff src srcOff len = .returned 0 mem ∧
        copied.byte = mem.bytes
    | none => (rtCopyBytes ⟨heap.byte, []⟩ dst dstOff src srcOff len).hasTrapped := by
  simp only [copyBytes, rtCopyBytes, FatPtr.inBounds, dstStarts, dstStops, srcStarts, srcStops,
    decide_eq_true_eq]
  by_cases dstFits : iadd (iadd dst.start dstOff) len ≤ dst.stop
  · by_cases srcFits : iadd (iadd src.start srcOff) len ≤ src.stop
    · rw [if_pos dstFits, if_pos srcFits, if_pos dstFits, if_pos srcFits]
      exact ⟨_, rfl, byte_copyLoop heap [] _ _ len⟩
    · rw [if_pos dstFits, if_neg srcFits, if_pos dstFits, if_neg srcFits]
      rfl
  · rw [if_neg dstFits, if_neg dstFits]
    rfl

/-- A copy writes to the words that its target lies in. -/
theorem copyLoop_frame (heap : Heap) {dst src len : Nat} (noWrap : dst + len ≤ 2 ^ 64) :
    ∃ words, heap.copyLoop dst src len = { heap with words := words } ∧
      AgreeOutside ⟨alignDown dst 8, dst + len⟩ heap.words words := by
  induction len with
  | zero => exact ⟨heap.words, rfl, fun _ _ => rfl⟩
  | succ len induction =>
      rcases induction (by omega) with ⟨words, copies, outside⟩
      have target : alignDown (iadd dst len) 8 ∈ Region.mk (alignDown dst 8) (dst + (len + 1)) := by
        rw [iadd_eq (by omega), Region.mem_mk]
        unfold alignDown
        omega
      have wider : AgreeOutside ⟨alignDown dst 8, dst + (len + 1)⟩ heap.words words := by
        intro addr out
        rw [Region.mem_mk] at out
        apply outside
        rw [Region.mem_mk]
        omega
      rw [copyLoop, List.range_succ, List.foldl_append, ← copyLoop, copies]
      exact ⟨_, rfl, wider.trans (AgreeOutside.update target _)⟩

end LakeNative.Runtime.Heap

import LakeNative.Arenas.Slices
import LakeNative.Memory.BoundsChecks

/-! # What loads, stores and copies do

Any sequence of accesses inside their buffers leaves in each byte what the last store or copy
to it put there, and a load composes the bytes that it finds.
-/

namespace LakeNative.Memory

open LakeNative.Runtime LakeNative.Regions LakeNative.Arenas

/-- The first address of the range. -/
def Part.first (part : Part) : Nat := part.fatPtr.start + part.offset

instance (part : Part) : Decidable part.Inside :=
  inferInstanceAs (Decidable (part.sum ≤ part.fatPtr.stop))

def Part.range (part : Part) : Region := ⟨part.first, part.first + part.size⟩

namespace MemCall

/-- The call keeps to its buffers, stores no more than a word has, and copies between ranges
that share no byte. -/
def Valid : MemCall → Prop
  | load width fatPtr offset => Part.Inside ⟨fatPtr, offset, width.size⟩
  | store fatPtr _ size offset => Part.Inside ⟨fatPtr, offset, size⟩ ∧ size ≤ 8
  | copy dstFat dstOff srcFat srcOff len =>
      Part.Inside ⟨dstFat, dstOff, len⟩ ∧ Part.Inside ⟨srcFat, srcOff, len⟩ ∧
        (Part.range ⟨srcFat, srcOff, len⟩).Apart (Part.range ⟨dstFat, dstOff, len⟩)

/-- What the bytes are after the call: its own in its range, and the earlier ones elsewhere. -/
def written (bytes : Nat → Nat) : MemCall → Nat → Nat
  | load _ _ _, address => bytes address
  | store fatPtr val size offset, address =>
      let part : Part := ⟨fatPtr, offset, size⟩
      if address ∈ part.range then val / 256 ^ (address - part.first) % 256 else bytes address
  | copy dstFat dstOff srcFat srcOff len, address =>
      let dst : Part := ⟨dstFat, dstOff, len⟩
      let src : Part := ⟨srcFat, srcOff, len⟩
      if address ∈ dst.range then bytes (src.first + (address - dst.first)) else bytes address

/-- One call after the other. -/
def runAll (mem : ByteMem) (calls : List MemCall) : ByteMem :=
  calls.foldl (fun mem call => (call.run mem).mem) mem

def writtenAll (bytes : Nat → Nat) (calls : List MemCall) : Nat → Nat :=
  calls.foldl written bytes

end MemCall

open MemCall

def AreBytes (mem : ByteMem) : Prop := ∀ address, mem.bytes address < 256

/-- The little-endian composition of the bytes of a range. -/
def composed (bytes : Nat → Nat) (part : Part) : Nat :=
  Nat.ofDigits 256 ((List.range part.size).map fun i => bytes (part.first + i))

variable {mem : ByteMem}

/-! ## One access -/

theorem Part.Inside.noWrap {part : Part} (inside : part.Inside) :
    part.first + part.size < 2 ^ 47 ∧ iadd part.fatPtr.start part.offset = part.first := by
  have fits := part.fatPtr.fits
  unfold Part.Inside Part.sum at inside
  constructor
  · unfold Part.first
    omega
  · exact iadd_eq (by omega)

theorem Part.Inside.inBounds {part : Part} (inside : part.Inside) :
    part.fatPtr.inBounds part.offset part.size = true := by
  have fits := part.fatPtr.fits
  rw [inBounds_iff]
  exact Nat.le_trans (Nat.mod_le _ _) inside

theorem rtLoad_composed {width : LoadWidth} {fatPtr : FatPtr} {offset : Nat}
    (inside : Part.Inside ⟨fatPtr, offset, width.size⟩) :
    ∃ later, rtLoad width mem fatPtr offset =
        .returned (composed mem.bytes ⟨fatPtr, offset, width.size⟩) later ∧
      later.bytes = mem.bytes := by
  rcases inside.noWrap with ⟨noWrap, address⟩
  rcases loadBytes_eq mem width.size (Nat.le_of_lt (Nat.lt_trans noWrap (by decide))) with
    ⟨value, unchanged⟩
  refine ⟨(mem.loadBytes _ width.size).2, ?_, unchanged⟩
  have passes := inside.inBounds
  dsimp only at passes address
  rw [rtLoad, if_pos passes, address, composed, ← value]

theorem rtStore_written {fatPtr : FatPtr} {val size offset : Nat}
    (inside : Part.Inside ⟨fatPtr, offset, size⟩) (inWord : size ≤ 8) :
    ∃ later, rtStore mem fatPtr val size offset = .returned 0 later ∧
      later.bytes = written mem.bytes (.store fatPtr val size offset) := by
  rcases inside.noWrap with ⟨noWrap, address⟩
  have passes := inside.inBounds
  dsimp only at passes address noWrap
  rw [rtStore, if_pos passes, address]
  refine ⟨_, rfl, ?_⟩
  funext byte
  exact bytes_storeLoop mem val inWord (by omega) byte

theorem rtCopyBytes_written (areBytes : AreBytes mem) {dstFat srcFat : FatPtr}
    {dstOff srcOff len : Nat} (dstInside : Part.Inside ⟨dstFat, dstOff, len⟩)
    (srcInside : Part.Inside ⟨srcFat, srcOff, len⟩)
    (apart : (Part.range ⟨srcFat, srcOff, len⟩).Apart (Part.range ⟨dstFat, dstOff, len⟩)) :
    ∃ later, rtCopyBytes mem dstFat dstOff srcFat srcOff len = .returned 0 later ∧
      later.bytes = written mem.bytes (.copy dstFat dstOff srcFat srcOff len) := by
  rcases dstInside.noWrap with ⟨dstNoWrap, dstAddress⟩
  rcases srcInside.noWrap with ⟨srcNoWrap, srcAddress⟩
  have dstPasses := dstInside.inBounds
  have srcPasses := srcInside.inBounds
  dsimp only at dstPasses srcPasses dstAddress srcAddress dstNoWrap srcNoWrap
  rw [rtCopyBytes, if_pos dstPasses, if_pos srcPasses, dstAddress, srcAddress]
  refine ⟨_, rfl, ?_⟩
  funext byte
  have bytes := @bytes_copyLoop mem (Part.first ⟨dstFat, dstOff, len⟩) (Part.first ⟨srcFat, srcOff, len⟩)
    len (by omega) (by omega) apart byte
  rw [bytes, Nat.mod_eq_of_lt (areBytes _)]
  rfl

/-- A valid call returns, and writes what it is to write. -/
theorem run_written (areBytes : AreBytes mem) {call : MemCall} (valid : call.Valid) :
    (call.run mem).hasTrapped = false ∧ (call.run mem).mem.bytes = call.written mem.bytes := by
  cases call with
  | load width fatPtr offset =>
      rcases @rtLoad_composed mem _ _ _ valid with ⟨later, returns, unchanged⟩
      rw [MemCall.run, returns]
      exact ⟨rfl, unchanged⟩
  | store fatPtr val size offset =>
      rcases @rtStore_written mem _ val _ _ valid.1 valid.2 with ⟨later, returns, bytes⟩
      rw [MemCall.run, returns]
      exact ⟨rfl, bytes⟩
  | copy dstFat dstOff srcFat srcOff len =>
      rcases valid with ⟨dstInside, srcInside, apart⟩
      rcases rtCopyBytes_written areBytes dstInside srcInside apart with ⟨later, returns, bytes⟩
      rw [MemCall.run, returns]
      exact ⟨rfl, bytes⟩

theorem written_lt {bytes : Nat → Nat} (areBytes : ∀ address, bytes address < 256) (call : MemCall)
    (address : Nat) : call.written bytes address < 256 := by
  cases call with
  | load width fatPtr offset => exact areBytes address
  | store fatPtr val size offset =>
      dsimp only [MemCall.written]
      split
      · exact Nat.mod_lt _ (by decide)
      · exact areBytes address
  | copy dstFat dstOff srcFat srcOff len =>
      dsimp only [MemCall.written]
      split
      · exact areBytes _
      · exact areBytes address

theorem run_areBytes (areBytes : AreBytes mem) {call : MemCall} (valid : call.Valid) :
    AreBytes (call.run mem).mem := by
  intro address
  rw [(run_written areBytes valid).2]
  exact written_lt areBytes call address

/-! ## Any number of accesses -/

theorem runAll_written (areBytes : AreBytes mem) {calls : List MemCall}
    (valid : ∀ call ∈ calls, call.Valid) :
    (runAll mem calls).bytes = writtenAll mem.bytes calls ∧ AreBytes (runAll mem calls) := by
  induction calls generalizing mem with
  | nil => exact ⟨rfl, areBytes⟩
  | cons call calls induction =>
      have first := valid call List.mem_cons_self
      have bytes := (run_written areBytes first).2
      rcases induction (run_areBytes areBytes first)
        fun later member => valid later (List.mem_cons_of_mem _ member) with ⟨rest, areBytes⟩
      refine ⟨?_, areBytes⟩
      rw [runAll, List.foldl_cons, ← runAll, rest, bytes]
      rfl

/-- The same offset is loaded as it was stored. -/
theorem load_stored (width : LoadWidth) {fatPtr : FatPtr} (val : Nat) {offset : Nat}
    (inside : Part.Inside ⟨fatPtr, offset, width.size⟩) :
    ∃ stored later, rtStore mem fatPtr val width.size offset = .returned 0 stored ∧
      rtLoad width stored fatPtr offset = .returned (val % 2 ^ (8 * width.size)) later ∧
      AgreeOutside (Part.range ⟨fatPtr, offset, width.size⟩) mem.bytes stored.bytes := by
  have inWord : width.size ≤ 8 := by
    cases width <;> decide
  rcases @rtStore_written mem _ val _ _ inside inWord with ⟨stored, stores, bytes⟩
  rcases @rtLoad_composed stored _ _ _ inside with ⟨later, loads, -⟩
  refine ⟨stored, later, stores, ?_, ?_⟩
  · have value : composed stored.bytes ⟨fatPtr, offset, width.size⟩ = val % 2 ^ (8 * width.size) := by
      rw [Nat.pow_mul, composed, ← ofDigits_bytes]
      congr 1
      apply List.map_congr_left
      intro i member
      have inRange := List.mem_range.mp member
      dsimp only at inRange
      rw [bytes, written, if_pos, Nat.add_sub_cancel_left]
      rw [Part.range, Region.mem_mk]
      dsimp only
      omega
    rw [loads, value]
  · intro address outside
    rw [bytes]
    exact if_neg outside

theorem copied_bytes (areBytes : AreBytes mem) {dstFat srcFat : FatPtr} {dstOff srcOff len : Nat}
    (valid : MemCall.Valid (.copy dstFat dstOff srcFat srcOff len)) :
    ∃ copied, rtCopyBytes mem dstFat dstOff srcFat srcOff len = .returned 0 copied ∧
      (∀ k < len, copied.bytes (Part.first ⟨dstFat, dstOff, len⟩ + k) =
        mem.bytes (Part.first ⟨srcFat, srcOff, len⟩ + k)) ∧
      AgreeOutside (Part.range ⟨dstFat, dstOff, len⟩) mem.bytes copied.bytes := by
  rcases valid with ⟨dstInside, srcInside, apart⟩
  rcases rtCopyBytes_written areBytes dstInside srcInside apart with ⟨copied, returns, bytes⟩
  refine ⟨copied, returns, ?_, ?_⟩
  · intro k inRange
    rw [bytes, written, if_pos, Nat.add_sub_cancel_left]
    rw [Part.range, Region.mem_mk]
    dsimp only
    omega
  · intro address outside
    rw [bytes]
    exact if_neg outside

/-- After any accesses each byte is what was last written to it. From there a load composes
such bytes, a store is loaded again and a copy has the bytes of its source, and neither
changes another byte. -/
theorem accesses_read_last_written {mem : ByteMem} (areBytes : AreBytes mem) {calls : List MemCall}
    (valid : ∀ call ∈ calls, call.Valid) :
    (runAll mem calls).bytes = writtenAll mem.bytes calls ∧
      (∀ (width : LoadWidth) (fatPtr : FatPtr) (offset : Nat),
        Part.Inside ⟨fatPtr, offset, width.size⟩ →
          ∃ later, rtLoad width (runAll mem calls) fatPtr offset =
            .returned (composed (writtenAll mem.bytes calls) ⟨fatPtr, offset, width.size⟩) later) ∧
      (∀ (width : LoadWidth) (fatPtr : FatPtr) (val offset : Nat),
        Part.Inside ⟨fatPtr, offset, width.size⟩ →
          ∃ stored later,
            rtStore (runAll mem calls) fatPtr val width.size offset = .returned 0 stored ∧
            rtLoad width stored fatPtr offset = .returned (val % 2 ^ (8 * width.size)) later ∧
            AgreeOutside (Part.range ⟨fatPtr, offset, width.size⟩) (runAll mem calls).bytes
              stored.bytes) ∧
      ∀ (dstFat : FatPtr) (dstOff : Nat) (srcFat : FatPtr) (srcOff len : Nat),
        MemCall.Valid (.copy dstFat dstOff srcFat srcOff len) →
          ∃ copied,
            rtCopyBytes (runAll mem calls) dstFat dstOff srcFat srcOff len = .returned 0 copied ∧
            (∀ k < len, copied.bytes (Part.first ⟨dstFat, dstOff, len⟩ + k) =
              (runAll mem calls).bytes (Part.first ⟨srcFat, srcOff, len⟩ + k)) ∧
            AgreeOutside (Part.range ⟨dstFat, dstOff, len⟩) (runAll mem calls).bytes
              copied.bytes := by
  rcases runAll_written areBytes valid with ⟨bytes, stillBytes⟩
  refine ⟨bytes, ?_, ?_, ?_⟩
  · intro width fatPtr offset inside
    rcases @rtLoad_composed (runAll mem calls) _ _ _ inside with ⟨later, loads, -⟩
    rw [bytes] at loads
    exact ⟨later, loads⟩
  · intro width fatPtr val offset inside
    exact load_stored width val inside
  · intro dstFat dstOff srcFat srcOff len valid
    exact copied_bytes stillBytes valid

/-- A byte is stored into a stored word; the word is loaded with it. -/
theorem accesses_read_last_written_mixed : ∃ (mem : ByteMem) (fatPtr : FatPtr) (later : ByteMem),
    rtLoad .u32 (runAll mem [.store fatPtr 0x01020304 4 8, .store fatPtr 0xff 1 9]) fatPtr 8 =
      .returned 0x0102ff04 later := by
  let fatPtr : FatPtr := ⟨4096, 4128, by decide, by decide⟩
  let calls : List MemCall := [.store fatPtr 0x01020304 4 8, .store fatPtr 0xff 1 9]
  have valid : ∀ call ∈ calls, call.Valid := by
    intro call member
    rcases List.mem_pair.mp member with rfl | rfl
    · exact ⟨by decide, by decide⟩
    · exact ⟨by decide, by decide⟩
  have areBytes : AreBytes ⟨fun _ => 0, []⟩ := fun _ => Nat.zero_lt_succ 255
  rcases (accesses_read_last_written areBytes valid).2.1 .u32 fatPtr 8 (by decide) with ⟨later, loads⟩
  have value : composed (writtenAll (fun _ => 0) calls) ⟨fatPtr, 8, LoadWidth.u32.size⟩ =
      0x0102ff04 := by decide
  rw [value] at loads
  exact ⟨_, fatPtr, later, loads⟩

end LakeNative.Memory

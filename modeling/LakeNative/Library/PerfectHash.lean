import Mathlib.Data.List.Induction
import Mathlib.Data.List.Nodup
import Mathlib.Logic.Function.Basic

/-! # Perfect hashing by displacement

Keys fall into buckets. Every bucket gets a displacement that moves its keys to
slots of their own, which no bucket placed before has taken. A table filled by such
slots finds each entry with one probe and one comparison.
-/

namespace LakeNative.PerfectHash

variable {Key Slot Entry : Type}

/-! ## Placements -/

section Placed

variable (slot : Key → Nat → Slot) (limit : Nat)

structure Placement (Slot : Type) where
  used : List Slot
  displacements : Nat → Nat

def Placement.start : Placement Slot where
  used := []
  displacements := fun _ => 0

/-- Where the keys of a bucket are. -/
def slotsOf (buckets : Nat → List Key) (placement : Placement Slot) (id : Nat) : List Slot :=
  (buckets id).map fun key => slot key (placement.displacements id)

/-- The buckets that are placed have distinct slots, marked as used. -/
structure Placed (buckets : Nat → List Key) (placed : List Nat) (placement : Placement Slot) :
    Prop where
  distinct : ∀ id ∈ placed, (slotsOf slot buckets placement id).Nodup
  marked : ∀ id ∈ placed, ∀ taken ∈ slotsOf slot buckets placement id, taken ∈ placement.used
  apart : ∀ id ∈ placed, ∀ other ∈ placed, id ≠ other →
    ∀ taken ∈ slotsOf slot buckets placement id, taken ∉ slotsOf slot buckets placement other
  bounded : ∀ id, placement.displacements id = 0 ∨ placement.displacements id < limit

variable {slot limit} {buckets : Nat → List Key}

theorem placed_start : Placed slot limit buckets [] (Placement.start : Placement Slot) where
  distinct := nofun
  marked := nofun
  apart := nofun
  bounded := fun _ => .inl rfl

variable (slot limit) in
/-- One bucket is placed: its slots are distinct, unused before and marked now. -/
structure Extends (buckets : Nat → List Key) (id : Nat) (placement next : Placement Slot) : Prop where
  distinct : (slotsOf slot buckets next id).Nodup
  unused : ∀ taken ∈ slotsOf slot buckets next id, taken ∉ placement.used
  marked : ∀ taken, taken ∈ placement.used ∨ taken ∈ slotsOf slot buckets next id →
    taken ∈ next.used
  kept : ∀ other, other ≠ id → next.displacements other = placement.displacements other
  bounded : next.displacements id = placement.displacements id ∨ next.displacements id < limit

theorem Placed.extend {placed : List Nat} {placement next : Placement Slot} {id : Nat}
    (sound : Placed slot limit buckets placed placement) (fresh : id ∉ placed)
    (extended : Extends slot limit buckets id placement next) :
    Placed slot limit buckets (id :: placed) next := by
  have kept : ∀ other ∈ placed,
      slotsOf slot buckets next other = slotsOf slot buckets placement other := by
    intro other earlier
    rw [slotsOf, extended.kept other fun same => fresh (same ▸ earlier)]
    rfl
  have unmarked : ∀ other ∈ placed, ∀ taken ∈ slotsOf slot buckets next other,
      taken ∉ slotsOf slot buckets next id := by
    intro other earlier taken isTaken alsoTaken
    rw [kept other earlier] at isTaken
    exact extended.unused taken alsoTaken (sound.marked other earlier taken isTaken)
  constructor
  · intro other member
    rcases List.mem_cons.mp member with rfl | earlier
    · exact extended.distinct
    · rw [kept other earlier]
      exact sound.distinct other earlier
  · intro other member taken isTaken
    rcases List.mem_cons.mp member with rfl | earlier
    · exact extended.marked taken (.inr isTaken)
    · rw [kept other earlier] at isTaken
      exact extended.marked taken (.inl (sound.marked other earlier taken isTaken))
  · intro first firstMember second secondMember different taken isTaken
    rcases List.mem_cons.mp firstMember with rfl | firstEarlier
    · rcases List.mem_cons.mp secondMember with rfl | secondEarlier
      · exact absurd rfl different
      · exact fun alsoTaken => unmarked second secondEarlier taken alsoTaken isTaken
    · rcases List.mem_cons.mp secondMember with rfl | secondEarlier
      · exact unmarked first firstEarlier taken isTaken
      · rw [kept first firstEarlier] at isTaken
        rw [kept second secondEarlier]
        exact sound.apart first firstEarlier second secondEarlier different taken isTaken
  · intro other
    by_cases same : other = id
    · subst same
      rcases extended.bounded with isKept | below
      · rw [isKept]
        exact sound.bounded other
      · exact .inr below
    · rw [extended.kept other same]
      exact sound.bounded other

/-- All keys whose buckets are placed have slots of their own. -/
theorem Placed.nodup [DecidableEq Key] {keys : List Key} {bucketOf : Key → Nat}
    {placed : List Nat} {placement : Placement Slot}
    (sound : Placed slot limit (fun id => keys.filter fun key => bucketOf key = id) placed placement)
    (covered : ∀ key ∈ keys, bucketOf key ∈ placed) :
    keys.Nodup ∧ (keys.map fun key => slot key (placement.displacements (bucketOf key))).Nodup := by
  have inBucket : ∀ key ∈ keys, key ∈ keys.filter fun other => bucketOf other = bucketOf key :=
    fun key member => List.mem_filter.mpr ⟨member, decide_eq_true rfl⟩
  have distinct : keys.Nodup := by
    rw [List.nodup_iff_count_le_one]
    intro key
    by_cases member : key ∈ keys
    · have bucketNodup := List.Nodup.of_map _ (sound.distinct _ (covered key member))
      calc
        keys.count key =
            (keys.filter fun other => bucketOf other = bucketOf key).count key :=
          (List.count_filter (by simp)).symm
        _ ≤ 1 := List.nodup_iff_count_le_one.mp bucketNodup key
    · rw [List.count_eq_zero_of_not_mem member]
      exact Nat.zero_le 1
  refine ⟨distinct, List.Nodup.map_on ?_ distinct⟩
  intro key member other otherMember same
  by_cases sameBucket : bucketOf key = bucketOf other
  · have injective := List.inj_on_of_nodup_map (sound.distinct _ (covered key member))
    refine injective (inBucket key member) ?_ ?_
    · exact List.mem_filter.mpr ⟨otherMember, decide_eq_true sameBucket.symm⟩
    · rw [same, sameBucket]
  · refine absurd ?_ (sound.apart _ (covered key member) _ (covered other otherMember) sameBucket
      _ (List.mem_map_of_mem (inBucket key member)))
    rw [same]
    exact List.mem_map_of_mem (inBucket other otherMember)

end Placed

/-! ## Placing buckets -/

section Place

variable [DecidableEq Slot] (slot : Key → Nat → Slot) (limit : Nat)

def Fits (used : List Slot) (bucket : List Key) (displacement : Nat) : Prop :=
  (bucket.map fun key => slot key displacement).Nodup ∧
    ∀ key ∈ bucket, slot key displacement ∉ used

instance (used : List Slot) (bucket : List Key) (displacement : Nat) :
    Decidable (Fits slot used bucket displacement) :=
  inferInstanceAs (Decidable (_ ∧ _))

/-- The smallest displacement below the limit that fits; an empty bucket needs none. -/
def placeBucket (placement : Placement Slot) (id : Nat) (bucket : List Key) :
    Option (Placement Slot) :=
  if bucket.isEmpty then
    some placement
  else
    match (List.range limit).find? (fun displacement => Fits slot placement.used bucket displacement) with
    | none => none
    | some displacement => some {
        used := placement.used ++ bucket.map fun key => slot key displacement
        displacements := Function.update placement.displacements id displacement }

def placeBuckets (buckets : Nat → List Key) (placement : Placement Slot) :
    List Nat → Option (Placement Slot)
  | [] => some placement
  | id :: order =>
      match placeBucket slot limit placement id (buckets id) with
      | none => none
      | some next => placeBuckets buckets next order

variable {slot limit} {buckets : Nat → List Key}

theorem extends_placeBucket {placement next : Placement Slot} {id : Nat}
    (isNext : placeBucket slot limit placement id (buckets id) = some next) :
    Extends slot limit buckets id placement next := by
  rw [placeBucket] at isNext
  split at isNext
  · rename_i isEmpty
    cases isNext
    have none : slotsOf slot buckets placement id = [] := by
      rw [slotsOf, List.isEmpty_iff.mp isEmpty]
      rfl
    constructor
    · rw [none]
      exact List.nodup_nil
    · rw [none]
      nofun
    · rw [none]
      exact fun taken marked => marked.resolve_right nofun
    · exact fun other different => rfl
    · exact .inl rfl
  · split at isNext
    · cases isNext
    · rename_i displacement found
      cases isNext
      have fits : Fits slot placement.used (buckets id) displacement := by
        simpa using List.find?_some found
      have below := List.mem_range.mp (List.mem_of_find?_eq_some found)
      have here : slotsOf slot buckets
          ⟨placement.used ++ (buckets id).map fun key => slot key displacement,
            Function.update placement.displacements id displacement⟩ id =
          (buckets id).map fun key => slot key displacement := by
        simp only [slotsOf, Function.update_self]
      constructor
      · rw [here]
        exact fits.1
      · rw [here]
        intro taken isTaken
        rcases List.mem_map.mp isTaken with ⟨key, inBucket, rfl⟩
        exact fits.2 key inBucket
      · rw [here]
        exact fun taken => List.mem_append.mpr
      · exact fun other different => Function.update_of_ne different _ _
      · right
        change Function.update placement.displacements id displacement id < limit
        simpa using below

theorem placed_placeBuckets {order placed : List Nat} {placement final : Placement Slot}
    (sound : Placed slot limit buckets placed placement) (fresh : (order ++ placed).Nodup)
    (isFinal : placeBuckets slot limit buckets placement order = some final) :
    Placed slot limit buckets (order.reverse ++ placed) final := by
  induction order generalizing placed placement with
  | nil =>
      cases isFinal
      exact sound
  | cons id order induction =>
      rw [placeBuckets] at isFinal
      rw [List.cons_append, List.nodup_cons] at fresh
      split at isFinal
      · cases isFinal
      · rename_i next isNext
        have absent : id ∉ placed := fun member => fresh.1 (List.mem_append_right _ member)
        have reordered : (order ++ id :: placed).Nodup :=
          List.nodup_middle.mpr (List.nodup_cons.mpr fresh)
        have later := induction (sound.extend absent (extends_placeBucket isNext)) reordered isFinal
        rwa [List.reverse_cons, List.append_assoc, List.singleton_append]

end Place

/-! ## Probing a table -/

section Table

variable [DecidableEq Key] {slotOf : Entry → Nat} {entries : List Entry}

/-- The entries by slot; a later entry replaces an earlier one. -/
def fillTable (slotOf : Entry → Nat) (entries : List Entry) : Nat → Option Entry :=
  entries.foldl (fun table entry => Function.update table (slotOf entry) (some entry))
    fun _ => none

/-- The entry in the key's slot, if it has the key. -/
def probe (index : Key → Nat) (keyOf : Entry → Key) (entries : List Entry) (key : Key) :
    Option Entry :=
  (fillTable (fun entry => index (keyOf entry)) entries (index key)).filter fun entry =>
    keyOf entry = key

theorem fillTable_concat (entry : Entry) (slot : Nat) :
    fillTable slotOf (entries ++ [entry]) slot =
      if slot = slotOf entry then some entry else fillTable slotOf entries slot := by
  rw [fillTable, List.foldl_concat]
  exact Function.update_apply _ _ _ _

theorem mem_of_fillTable {slot : Nat} {entry : Entry}
    (found : fillTable slotOf entries slot = some entry) : entry ∈ entries := by
  induction entries using List.reverseRecOn with
  | nil => cases found
  | append_singleton entries last induction =>
      rw [fillTable_concat] at found
      split at found
      · cases found
        exact List.mem_append_right _ List.mem_cons_self
      · exact List.mem_append_left _ (induction found)

theorem fillTable_of_nodup (distinct : (entries.map slotOf).Nodup) {entry : Entry}
    (member : entry ∈ entries) : fillTable slotOf entries (slotOf entry) = some entry := by
  induction entries using List.reverseRecOn with
  | nil => exact absurd member List.not_mem_nil
  | append_singleton entries last induction =>
      rw [List.map_append, List.map_singleton, List.nodup_append] at distinct
      rcases distinct with ⟨before, -, apart⟩
      rw [fillTable_concat]
      rcases List.mem_append.mp member with earlier | isLast
      · rw [if_neg (apart _ (List.mem_map_of_mem earlier) _ List.mem_cons_self)]
        exact induction before earlier
      · rw [List.mem_singleton.mp isLast, if_pos rfl]

/-- A table that finds all its entries has them in distinct slots. -/
theorem nodup_of_fillTable (distinct : entries.Nodup)
    (found : ∀ entry ∈ entries, fillTable slotOf entries (slotOf entry) = some entry) :
    (entries.map slotOf).Nodup := by
  apply List.Nodup.map_on _ distinct
  intro entry member other otherMember same
  have both := found entry member
  rw [same, found other otherMember] at both
  exact (Option.some.inj both).symm

variable {index : Key → Nat} {keyOf : Entry → Key}

theorem probe_some {key : Key} {entry : Entry} (found : probe index keyOf entries key = some entry) :
    entry ∈ entries ∧ keyOf entry = key := by
  rcases Option.filter_eq_some_iff.mp found with ⟨inTable, same⟩
  exact ⟨mem_of_fillTable inTable, of_decide_eq_true same⟩

theorem probe_of_nodup (index : Key → Nat) (keyOf : Entry → Key)
    (distinct : (entries.map fun entry => index (keyOf entry)).Nodup)
    {entry : Entry} (member : entry ∈ entries) :
    probe index keyOf entries (keyOf entry) = some entry :=
  Option.filter_eq_some_iff.mpr ⟨fillTable_of_nodup distinct member, decide_eq_true rfl⟩

end Table

end LakeNative.PerfectHash

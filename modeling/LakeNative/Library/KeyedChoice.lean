import Mathlib.Data.List.Nodup
import Mathlib.Data.List.Pairwise

/-! # Choosing by key

Some items of a list carry a key. A wanted key chooses the item that carries it, else
the last item without a key, else the first item at all.
-/

namespace LakeNative.KeyedChoice

variable {Item Key : Type}

/-- The last item without a key. -/
def fallback (key : Item → Option Key) (items : List Item) : Option Item :=
  (items.filter fun item => (key item).isNone).getLast?

def choose [DecidableEq Key] (key : Item → Option Key) (items : List Item) (wanted : Key) : Option Item :=
  match items.find? fun item => key item = some wanted with
  | some item => some item
  | none => (fallback key items).or items.head?

variable {key : Item → Option Key} {items : List Item} {wanted : Key} {item : Item}

theorem mem_fallback (found : fallback key items = some item) : item ∈ items ∧ key item = none := by
  rcases List.mem_filter.mp (List.mem_of_getLast? found) with ⟨member, isNone⟩
  exact ⟨member, Option.isNone_iff_eq_none.mp isNone⟩

theorem fallback_isSome (member : item ∈ items) (noKey : key item = none) :
    ∃ last, fallback key items = some last := by
  have filtered : item ∈ items.filter fun item => (key item).isNone :=
    List.mem_filter.mpr ⟨member, Option.isNone_iff_eq_none.mpr noKey⟩
  exact Option.isSome_iff_exists.mp (List.getLast?_isSome.mpr (List.ne_nil_of_mem filtered))

theorem exists_default (key : Item → Option Key) (nonempty : items ≠ []) :
    ∃ item ∈ items, (fallback key items).or items.head? = some item := by
  have isSome : ((fallback key items).or items.head?).isSome := by
    rw [Option.isSome_or, List.isSome_head?.mpr nonempty, Bool.or_true]
  rcases Option.isSome_iff_exists.mp isSome with ⟨item, isDefault⟩
  refine ⟨item, ?_, isDefault⟩
  rcases Option.or_eq_some_iff.mp isDefault with isLast | ⟨-, isFirst⟩
  · exact (mem_fallback isLast).1
  · exact List.mem_of_mem_head? isFirst

/-- Where keys are distinct, no two items carry the same. -/
theorem eq_of_key (distinct : (items.filterMap key).Nodup) {other : Item} (member : item ∈ items)
    (otherMember : other ∈ items) (hasKey : key item = some wanted)
    (otherKey : key other = some wanted) : item = other := by
  by_contra different
  have apart := List.pairwise_filterMap.mp distinct
  have symmetric : Std.Symm fun first second : Item =>
      ∀ value, key first = some value → ∀ same, key second = some same → value ≠ same :=
    ⟨fun _ _ distinct value isValue same isSame => (distinct same isSame value isValue).symm⟩
  exact apart.forall member otherMember different wanted hasKey wanted otherKey rfl

variable [DecidableEq Key]

theorem choose_mem (chosen : choose key items wanted = some item) : item ∈ items := by
  rw [choose] at chosen
  split at chosen
  · rename_i found
    cases chosen
    exact List.mem_of_find?_eq_some found
  · rename_i notFound
    have nonempty : items ≠ [] := by
      rintro rfl
      cases chosen
    rcases exists_default key nonempty with ⟨default, member, isDefault⟩
    rw [isDefault] at chosen
    exact Option.some.inj chosen ▸ member

theorem choose_isSome (key : Item → Option Key) (wanted : Key) (nonempty : items ≠ []) :
    ∃ item, choose key items wanted = some item := by
  rw [choose]
  split
  · exact ⟨_, rfl⟩
  · rcases exists_default key nonempty with ⟨default, -, isDefault⟩
    exact ⟨default, isDefault⟩

theorem choose_of_key (distinct : (items.filterMap key).Nodup) (member : item ∈ items)
    (hasKey : key item = some wanted) : choose key items wanted = some item := by
  rw [choose]
  split
  · rename_i other found
    have isWanted : key other = some wanted := by simpa using List.find?_some found
    rw [eq_of_key distinct (List.mem_of_find?_eq_some found) member isWanted hasKey]
  · rename_i notFound
    exact absurd (decide_eq_true hasKey) (List.find?_eq_none.mp notFound item member)

/-- A key that no item carries chooses the fallback, if there is one. -/
theorem choose_of_absent (absent : wanted ∉ items.filterMap key) :
    choose key items wanted = (fallback key items).or items.head? := by
  have notFound : items.find? (fun item => key item = some wanted) = none := by
    rw [List.find?_eq_none]
    intro other member isWanted
    exact absent (List.mem_filterMap.mpr ⟨other, member, of_decide_eq_true isWanted⟩)
  rw [choose, notFound]

theorem choose_of_no_key (absent : wanted ∉ items.filterMap key)
    (isLast : fallback key items = some item) : choose key items wanted = some item := by
  rw [choose_of_absent absent, isLast]
  rfl

/-- Where keys are distinct, a key's value is the one that it is listed with. -/
theorem lookup_eq_some_iff_mem {Value : Type} {entries : List (Key × Value)}
    (distinct : (entries.map Prod.fst).Nodup) {value : Value} :
    entries.lookup wanted = some value ↔ (wanted, value) ∈ entries := by
  induction entries with
  | nil => exact iff_of_false nofun List.not_mem_nil
  | cons entry entries induction =>
      rw [List.map_cons, List.nodup_cons] at distinct
      rw [List.lookup_cons, List.mem_cons]
      by_cases isFirst : wanted = entry.1
      · have absent : (wanted, value) ∉ entries := fun member =>
          distinct.1 (isFirst ▸ List.mem_map_of_mem member)
        rw [isFirst, beq_self_eq_true]
        constructor
        · rintro same
          cases same
          exact .inl rfl
        · rintro (same | later)
          · rw [← same]
          · exact absurd (isFirst ▸ later) absent
      · rw [beq_false_of_ne isFirst]
        refine (induction distinct.2).trans ⟨.inr, fun member => member.resolve_left ?_⟩
        rintro rfl
        exact isFirst rfl

end LakeNative.KeyedChoice

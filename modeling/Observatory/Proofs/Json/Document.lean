import Observatory.ArrayIndex
import Observatory.Json.Basic

/-!
# Documents

The values that a program holds have two properties that the type of values does not show:
every object is a dictionary, and no array is longer than there are positions.

* `Json.Proper`: both properties, at every depth; `Json.proper_arr`, `Json.proper_obj`;
* `Document`: a value that is proper;
* `Json.partsInduction`: induction over the parts of a value.
-/

namespace Observatory

/-- A value under a key is smaller than the list of fields that has it. -/
theorem Dict.sizeOf_lt_of_mem {α : Type} [SizeOf α] {fields : List (String × α)}
    {p : String × α} (h : p ∈ fields) : sizeOf p.2 < sizeOf fields := by
  obtain ⟨key, v⟩ := p
  have hlt := List.sizeOf_lt_of_mem h
  have hpair : sizeOf v < sizeOf (key, v) := by
    rw [Prod.mk.sizeOf_spec]
    omega
  exact Nat.lt_trans hpair hlt

namespace Json

/-- Induction over the parts of a value: the hypothesis is there for every item of an array and for
    every value of an object, however it is reached. -/
@[elab_as_elim]
theorem partsInduction {motive : Json → Prop}
    (scalar : ∀ s, motive (.scalar s))
    (arr : ∀ items, (∀ v ∈ items, motive v) → motive (.arr items))
    (obj : ∀ fields, (∀ p ∈ fields, motive p.2) → motive (.obj fields))
    (v : Json) : motive v :=
  match v with
  | .scalar s => scalar s
  | .arr items => arr items fun v _ => partsInduction scalar arr obj v
  | .obj fields => obj fields fun p _ => partsInduction scalar arr obj p.2
  termination_by sizeOf v
  -- A part of a value stands in one of its lists, and so it is smaller.
  decreasing_by
  · have hlt := List.sizeOf_lt_of_mem ‹_ ∈ items›
    simp only [Json.arr.sizeOf_spec]
    omega
  · have hlt := Dict.sizeOf_lt_of_mem ‹_ ∈ fields›
    simp only [Json.obj.sizeOf_spec]
    omega

mutual

/-- No array in the value is longer than `ArrayIndex.limit`, so every item has a position that can
    be written. -/
def Bounded : Json → Prop
  | .scalar _ => True
  | .arr items => items.length ≤ ArrayIndex.limit ∧ BoundedItems items
  | .obj fields => BoundedFields fields

/-- `Bounded` for the items of an array. -/
def BoundedItems : List Json → Prop
  | [] => True
  | v :: rest => Bounded v ∧ BoundedItems rest

/-- `Bounded` for the values of an object. -/
def BoundedFields : List (String × Json) → Prop
  | [] => True
  | (_, v) :: rest => Bounded v ∧ BoundedFields rest

end

/-- Every object in the value is a dictionary with its keys in order, and every item of an array
    has a position.  The type `Json` shows neither. -/
def Proper (v : Json) : Prop := v.Sorted ∧ v.Bounded

/-- `SortedItems` is `Sorted` of every item. -/
theorem sortedItems_iff {items : List Json} : SortedItems items ↔ ∀ v ∈ items, Sorted v := by
  induction items with
  | nil => simp [SortedItems]
  | cons v rest ih => simp [SortedItems, ih]

/-- `SortedFields` is `Sorted` of every value. -/
theorem sortedFields_iff {fields : List (String × Json)} :
    SortedFields fields ↔ ∀ p ∈ fields, Sorted p.2 := by
  induction fields with
  | nil => simp [SortedFields]
  | cons p rest ih => simp [SortedFields, ih]

/-- `BoundedItems` is `Bounded` of every item. -/
theorem boundedItems_iff {items : List Json} : BoundedItems items ↔ ∀ v ∈ items, Bounded v := by
  induction items with
  | nil => simp [BoundedItems]
  | cons v rest ih => simp [BoundedItems, ih]

/-- `BoundedFields` is `Bounded` of every value. -/
theorem boundedFields_iff {fields : List (String × Json)} :
    BoundedFields fields ↔ ∀ p ∈ fields, Bounded p.2 := by
  induction fields with
  | nil => simp [BoundedFields]
  | cons p rest ih => simp [BoundedFields, ih]

/-- Every scalar is `Proper`. -/
theorem proper_scalar (s : Scalar) : Proper (.scalar s) := by
  simp [Proper, Sorted, Bounded]

/-- An array is `Proper` if it is not longer than `ArrayIndex.limit` and its items are `Proper`. -/
theorem proper_arr {items : List Json} :
    Proper (.arr items) ↔ items.length ≤ ArrayIndex.limit ∧ ∀ v ∈ items, Proper v := by
  simp only [Proper, Sorted, Bounded, sortedItems_iff, boundedItems_iff]
  constructor
  · rintro ⟨hs, hl, hb⟩
    exact ⟨hl, fun v hv => ⟨hs v hv, hb v hv⟩⟩
  · rintro ⟨hl, h⟩
    exact ⟨fun v hv => (h v hv).1, hl, fun v hv => (h v hv).2⟩

/-- An object is `Proper` if it is a `Sorted` dictionary and its values are `Proper`. -/
theorem proper_obj {fields : List (String × Json)} :
    Proper (.obj fields) ↔ Dict.Sorted fields ∧ ∀ p ∈ fields, Proper p.2 := by
  simp only [Proper, Sorted, Bounded, sortedFields_iff, boundedFields_iff]
  constructor
  · rintro ⟨⟨hd, hs⟩, hb⟩
    exact ⟨hd, fun p hp => ⟨hs p hp, hb p hp⟩⟩
  · rintro ⟨hd, h⟩
    exact ⟨⟨hd, fun p hp => (h p hp).1⟩, fun p hp => (h p hp).2⟩

/-- The value `v` beneath objects with one field each, which lead to it along the path. -/
def nest : List String → Json → Json
  | [], v => v
  | key :: rest, v => .obj [(key, nest rest v)]

/-- `nest` keeps a value `Proper`, as an object with one field is always in order. -/
theorem proper_nest {v : Json} (hv : v.Proper) (path : List String) : (nest path v).Proper := by
  induction path with
  | nil => exact hv
  | cons key rest ih =>
    rw [nest, proper_obj]
    constructor
    · exact List.pairwise_singleton _ _
    · intro p hp
      rw [List.mem_singleton.1 hp]
      exact ih

end Json

/-- A value that the program can hold, together with the proof that it is `Proper`. -/
structure Document where
  json : Json
  proper : json.Proper

/-- A scalar as a `Document`. -/
def Document.ofScalar (s : Scalar) : Document := ⟨.scalar s, Json.proper_scalar s⟩

end Observatory

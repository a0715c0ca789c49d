import Observatory.Proofs.Store.Edit
import Observatory.Store.Cursor

/-!
# What a reader may see of a tree

Filtering a value, spelling out a tree and recording its stamps go through the parts that a
whitelist lets pass, in the same way.  Each of the three is a `Dict.select` on the children of
an object and a `map` on the items of an array.

* `Node.view`: the value that a reader may see, with `Node.view_object`, `Node.view_array`;
* `Cursor.materializeChildren_eq`, `Cursor.materializeItems_eq`: what is spelled out;
* `Cursor.get?_props_object`, `Cursor.get?_props_array`: what is recorded of the parts.
-/

namespace Observatory

/-! ### Filters -/

namespace Whitelist

/-- The rule that `child?` finds for a key is never `nothing`: a key that is kept back has no
    rule. -/
theorem ne_nothing_of_child? {w rule : Whitelist} {key : String} (h : w.child? key = some rule) :
    rule ≠ nothing := by
  rintro rfl
  cases w with
  | all => cases h
  | nothing => cases h
  | fields rules =>
    rw [child?] at h
    split at h
    · cases h
    · next hne => exact hne h

/-- Items of an array are recorded by the rule of the array, except under `nothing`. -/
theorem itemRule?_of_ne {w : Whitelist} (hw : w ≠ nothing) : Cursor.itemRule? w = some w := by
  cases w with
  | nothing => exact absurd rfl hw
  | all => rfl
  | fields rules => rfl

/-- `filter` lets every scalar pass, whatever the whitelist. -/
theorem filter_scalar (w : Whitelist) (s : Scalar) : w.filter (.scalar s) = .scalar s := by
  cases w <;> rfl

theorem filterItems_eq (w : Whitelist) (items : List Json) :
    filterItems w items = items.map w.filter := by
  induction items with
  | nil => rfl
  | cons v rest ih => rw [filterItems, ih, List.map_cons]

/-- `filter` lets every item of an array pass, itself filtered by the same whitelist. -/
theorem filter_arr (w : Whitelist) (items : List Json) :
    w.filter (.arr items) = .arr (items.map w.filter) := by
  cases w with
  | all =>
    have hid : items.map (filter all) = items := by
      -- Under `all` every item is left as it is.
      have heach : ∀ v ∈ items, filter all v = id v := by
        intro v _
        unfold filter
        rfl
      rw [List.map_congr_left heach, List.map_id]
    rw [hid, filter]
  | nothing =>
    rw [filter, filterItems_eq]
    intro h
    cases h
  | fields rules =>
    rw [filter, filterItems_eq]
    intro h
    cases h

/-- `filterFields` is the selection of those fields whose key has a rule, each filtered by that
    rule. -/
theorem filterFields_eq (w : Whitelist) (fields : List (String × Json)) :
    filterFields w fields =
      Dict.select (fun key v => (w.child? key).map fun rule => rule.filter v) fields := by
  induction fields with
  | nil => rfl
  | cons p rest ih =>
    obtain ⟨key, v⟩ := p
    rw [filterFields, Dict.select_cons, ← ih]
    cases w.child? key <;> rfl

/-- `filter` of an object is that selection of its fields, for every whitelist.  Under `all` it
    keeps the object as it is. -/
theorem filter_obj (w : Whitelist) (fields : List (String × Json)) :
    w.filter (.obj fields) =
      .obj (Dict.select (fun key v => (w.child? key).map fun rule => rule.filter v) fields) := by
  cases w with
  | all =>
    -- Under `all` every key passes, with `all` as its rule.
    have hid : Dict.select (fun key v => (all.child? key).map fun rule => rule.filter v) fields =
        fields := by
      induction fields with
      | nil => rfl
      | cons p rest ih =>
        obtain ⟨key, v⟩ := p
        rw [Dict.select_cons, ih, child?_all, Option.map_some, Option.map_some, filter]
        rfl
    rw [hid, filter]
  | nothing =>
    rw [filter, filterFields_eq]
    intro h
    cases h
  | fields rules =>
    rw [filter, filterFields_eq]
    intro h
    cases h

end Whitelist

/-! ### Views of a tree -/

namespace Node

/-- The value that a reader with the whitelist `w` may see of a tree. -/
def view (w : Whitelist) (n : Node) : Json := w.filter n.toJson

/-- The fields that a reader may see of an object with these children. -/
def viewChildren (w : Whitelist) (children : Dict Node) : Dict Json :=
  Dict.select (fun key n => (w.child? key).map fun rule => n.view rule) children

theorem toFields_eq (children : List (String × Node)) :
    toFields children = Dict.mapValues toJson children := by
  induction children with
  | nil => rfl
  | cons p rest ih =>
    obtain ⟨k, n⟩ := p
    rw [toFields, ih]
    rfl

theorem toItems_eq (items : List Node) : toItems items = items.map toJson := by
  induction items with
  | nil => rfl
  | cons n rest ih => rw [toItems, ih, List.map_cons]

@[simp] theorem view_scalar (w : Whitelist) (s : Stamp) (a : Scalar) :
    (scalar s a).view w = .scalar a := w.filter_scalar a

/-- `view` of an object has the children whose key has a rule. -/
@[simp] theorem view_object (w : Whitelist) (s : Stamp) (children : Dict Node) :
    (object s children).view w = .obj (viewChildren w children) := by
  rw [view, toJson, toFields_eq, Whitelist.filter_obj, Dict.mapValues_eq_select,
    Dict.select_select]
  rfl

/-- `view` of an array has every item. -/
@[simp] theorem view_array (w : Whitelist) (s : Stamp) (items : List Node) :
    (array s items).view w = .arr (items.map (view w)) := by
  rw [view, toJson, toItems_eq, Whitelist.filter_arr, List.map_map]
  rfl

/-- Under a key a reader sees the view of the child by the rule for the key, if there are both. -/
theorem get?_viewChildren {children : Dict Node} (hd : Dict.Sorted children) (w : Whitelist)
    (key : String) : Dict.get? (viewChildren w children) key =
      (Dict.get? children key).bind fun n => (w.child? key).map fun rule => n.view rule :=
  Dict.get?_select hd.nodup_keys _ key

end Node

namespace Cursor

/-! ### Trees spelled out -/

/-- `materializeChildren` is the same selection as that of `filter_obj`, on the children of an
    object. -/
theorem materializeChildren_eq (w : Whitelist) (children : List (String × Node)) :
    materializeChildren w children =
      Dict.select (fun key n => (w.child? key).map fun rule => materialize rule n) children := by
  induction children with
  | nil => rfl
  | cons p rest ih =>
    obtain ⟨key, n⟩ := p
    rw [materializeChildren, Dict.select_cons, ← ih]
    cases w.child? key <;> rfl

theorem materializeItems_eq (w : Whitelist) (items : List Node) :
    materializeItems w items = items.map (materialize w) := by
  induction items with
  | nil => rfl
  | cons n rest ih => rw [materializeItems, ih, List.map_cons]

/-! ### Recorded stamps -/

@[simp] theorem stamp_mk (s : Option Stamp) (ps : Dict Cursor) : (mk s ps).stamp = s := rfl

@[simp] theorem props_mk (s : Option Stamp) (ps : Dict Cursor) : (mk s ps).props = ps := rfl

/-- `capture w n` records the stamp of `n`. -/
@[simp] theorem stamp_capture (w : Whitelist) (n : Node) : (capture w n).stamp = some n.stamp := by
  cases n with
  | scalar s v => rfl
  | object s children => rfl
  | array s items =>
    unfold capture
    cases itemRule? w <;> rfl

/-- `captureChildren` is the same selection as that of `filter_obj`, on the children of an
    object. -/
theorem captureChildren_eq (w : Whitelist) (children : List (String × Node)) :
    captureChildren w children =
      Dict.select (fun key n => (w.child? key).map fun rule => capture rule n) children := by
  induction children with
  | nil => rfl
  | cons p rest ih =>
    obtain ⟨key, n⟩ := p
    rw [captureChildren, Dict.select_cons, ← ih]
    cases w.child? key <;> rfl

/-- `captureItems` records every item, under the spelling of its position. -/
theorem captureItems_eq (w : Whitelist) (i : Nat) (items : List Node) :
    captureItems w i items = Node.numbered i (items.map (capture w)) := by
  induction items generalizing i with
  | nil => rfl
  | cons n rest ih => rw [captureItems, ih, List.map_cons, Node.numbered]

/-- The record of the node at a place, which is `unseen` if there is no node. -/
def recordOf (w : Whitelist) : Option Node → Cursor
  | none => unseen
  | some n => capture w n

/-- Under a key that passes, the capture of an object has the record of the child there, or none if
    there is no child. -/
theorem get?_props_object {children : Dict Node} (hd : Dict.Sorted children) {w rule : Whitelist}
    (s : Stamp) {key : String} (hr : w.child? key = some rule) :
    (Dict.get? (capture w (.object s children)).props key).getD unseen =
      recordOf rule (Dict.get? children key) := by
  rw [capture, props_mk, captureChildren_eq, Dict.get?_select hd.nodup_keys, hr]
  cases Dict.get? children key <;> rfl

/-- The capture of an array has the captures of its items, under the spellings of their
    positions. -/
theorem capture_array {w : Whitelist} (hw : w ≠ .nothing) (s : Stamp) (items : List Node) :
    capture w (.array s items) =
      mk (some s) (Dict.ofPairs (Node.numbered 0 (items.map (capture w)))) := by
  rw [capture, Whitelist.itemRule?_of_ne hw]
  exact congrArg (fun ps => mk (some s) (Dict.ofPairs ps)) (captureItems_eq w 0 items)

/-- Under the spelling of a position, the capture of an array has the record of the item there, or
    none if there is no item. -/
theorem get?_props_array {w : Whitelist} (hw : w ≠ .nothing) (s : Stamp) (items : List Node)
    (i : Nat) : (Dict.get? (capture w (.array s items)).props (ArrayIndex.text i)).getD unseen =
      recordOf w items[i]? := by
  rw [capture_array hw, props_mk, Dict.get?_ofPairs (Node.nodup_keys_numbered 0 _),
    Node.get?_numbered, List.getElem?_map]
  cases items[i]? <;> rfl

end Cursor

end Observatory

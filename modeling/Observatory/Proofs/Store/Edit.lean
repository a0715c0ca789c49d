import Observatory.Proofs.ArrayIndex
import Observatory.Proofs.Json.Document
import Observatory.Store.Edit

/-!
# What one change does to a versioned tree

Giving a value, removing and marking are three recursions along a path.  They have one
effect in common: at the end of the path a node is new or marked, along the path the nodes
learn of a change beneath, and everything else stays.

* `Node.Edit`: that effect, as a relation between the node that stood at a place and the one
  that stands there now;
* `Node.edit_assign`, `Node.edit_setAt`, `Node.edit_removeAt`, `Node.edit_touchAt`: every
  change has it;
* `Node.Regular`: objects are dictionaries, arrays have positions for all their items, and no
  part is stamped later than what holds it; `Node.Edit.regular`: a change keeps that.
-/

namespace Observatory

namespace Node

/-! ### Nodes and lists of nodes -/

/-- Induction over the parts of a node: the hypothesis is there for every child of an object and
    every item of an array. -/
@[elab_as_elim]
theorem partsInduction {motive : Node → Prop}
    (scalar : ∀ s v, motive (.scalar s v))
    (object : ∀ s children, (∀ p ∈ children, motive p.2) → motive (.object s children))
    (array : ∀ s items, (∀ n ∈ items, motive n) → motive (.array s items))
    (n : Node) : motive n :=
  match n with
  | .scalar s v => scalar s v
  | .object s children => object s children fun p _ => partsInduction scalar object array p.2
  | .array s items => array s items fun n _ => partsInduction scalar object array n
  termination_by sizeOf n
  -- A part of a node stands in one of its lists, and so it is smaller.
  decreasing_by
  · have hlt := Dict.sizeOf_lt_of_mem ‹_ ∈ children›
    simp only [Node.object.sizeOf_spec]
    omega
  · have hlt := List.sizeOf_lt_of_mem ‹_ ∈ items›
    simp only [Node.array.sizeOf_spec]
    omega

theorem buildItems_eq (serial : Nat) (items : List Json) :
    buildItems serial items = items.map (build serial) := by
  induction items with
  | nil => rfl
  | cons v rest ih => rw [buildItems, ih, List.map_cons]

theorem buildFields_eq (serial : Nat) (fields : List (String × Json)) :
    buildFields serial fields = Dict.mapValues (build serial) fields := by
  induction fields with
  | nil => rfl
  | cons p rest ih =>
    obtain ⟨k, v⟩ := p
    rw [buildFields, ih]
    rfl

/-- The objects that `buildPath` makes along a path are those of `build` for the nested value. -/
theorem buildPath_eq (serial : Nat) (v : Json) (path : List String) :
    buildPath serial v path = build serial (Json.nest path v) := by
  induction path with
  | nil => rfl
  | cons key rest ih => rw [buildPath, Json.nest, build, buildFields, buildFields, ih]

/-- `build serial v` has the serial that it is made at. -/
@[simp] theorem serial_build (serial : Nat) (v : Json) : (build serial v).serial = serial := by
  cases v <;> rfl

/-- Nothing in `build serial v` is stamped later than its root. -/
@[simp] theorem childSerial_build (serial : Nat) (v : Json) :
    (build serial v).childSerial = serial := by
  cases v <;> rfl

@[simp] theorem serial_renew (n : Node) (serial : Nat) : (n.renew serial).serial = serial := by
  cases n <;> rfl

/-- What stands at a place after it was given the value `v`: a new node if there was none, else
    what `assign` makes of the old one, or the old one itself if it has the value already. -/
def given (serial : Nat) (old : Option Node) (v : Json) : Node :=
  match old with
  | none => build serial v
  | some n => (assign serial v n).getD n

/-- `assignFields` makes one child for every field, whatever other children there were, and each
    child is `given` its value. -/
theorem assignFields_fst (serial : Nat) (children : Dict Node) (fields : List (String × Json)) :
    (assignFields serial children fields).1 =
      fields.map fun p => (p.1, given serial (Dict.get? children p.1) p.2) := by
  induction fields with
  | nil => rfl
  | cons p rest ih =>
    obtain ⟨k, v⟩ := p
    rw [assignFields, List.map_cons, ← ih]
    cases hk : Dict.get? children k with
    | none => simp [given]
    | some child =>
      cases ha : assign serial v child with
      | none => simp [given, ha]
      | some next => simp [given, ha]

/-- `assignItems` makes one item for every value, and the item at each position is `given` its
    value. -/
theorem getElem?_assignItems (serial : Nat) (items : List Node) (values : List Json) (i : Nat) :
    (assignItems serial items values).1[i]? = values[i]?.map (given serial items[i]?) := by
  induction values generalizing items i with
  | nil => cases items <;> simp [assignItems]
  | cons v rest ih =>
    cases items with
    | nil =>
      rw [assignItems, buildItems_eq]
      cases i with
      | zero => simp [given]
      | succ i => simp; rfl
    | cons item items =>
      unfold assignItems
      cases i with
      | zero =>
        cases ha : assign serial v item with
        | none => simp [given, ha]
        | some next => simp [given, ha]
      | succ i =>
        -- Whether or not the first item changes, the others are told by the induction.
        have hrest := ih items i
        cases ha : assign serial v item with
        | none => simpa using hrest
        | some next => simpa using hrest

/-- `assignItems` makes as many items as there are values. -/
theorem length_assignItems (serial : Nat) (items : List Node) (values : List Json) :
    (assignItems serial items values).1.length = values.length := by
  induction values generalizing items with
  | nil => cases items <;> simp [assignItems]
  | cons v rest ih =>
    cases items with
    | nil => simp [assignItems, buildItems_eq]
    | cons item items =>
      have hrest := ih items
      unfold assignItems
      cases ha : assign serial v item with
      | none => simpa using hrest
      | some next => simpa using hrest

/-! ### The effect of a change -/

/-- `Edit serial old new`: a change made at `serial` puts `new` where `old` stood, if anything did.
    A node that is passed on the way keeps its own serial and bubbles its child serial, and its
    parts are related in the same manner. -/
inductive Edit (serial : Nat) : Option Node → Node → Prop
  | kept (n : Node) : Edit serial (some n) n
  | built {old : Option Node} {v : Json} (hv : v.Proper) : Edit serial old (build serial v)
  | scalar (s : Stamp) (a b : Scalar) :
      Edit serial (some (.scalar s a)) (.scalar (s.renew serial) b)
  | renewed (n : Node) : Edit serial (some n) (n.renew serial)
  | taken (s : Stamp) (items : List Node) (i : Nat) :
      Edit serial (some (.array s items)) (.array (s.renew serial) (items.eraseIdx i))
  | object {s : Stamp} {children next : Dict Node}
      (hs : Dict.Sorted children → Dict.Sorted next)
      (h : ∀ key n, Dict.get? next key = some n → Edit serial (Dict.get? children key) n) :
      Edit serial (some (.object s children)) (.object (s.bubble serial) next)
  | array {s : Stamp} {items next : List Node}
      (hl : items.length ≤ ArrayIndex.limit → next.length ≤ ArrayIndex.limit)
      (h : ∀ (i : Nat) (n : Node), next[i]? = some n → Edit serial items[i]? n) :
      Edit serial (some (.array s items)) (.array (s.bubble serial) next)

/-- An `Edit` of one child makes one of its object. -/
theorem Edit.child {serial : Nat} {s : Stamp} {children : Dict Node} {key : String} {n : Node}
    (h : Edit serial (Dict.get? children key) n) :
    Edit serial (some (.object s children))
      (.object (s.bubble serial) (children.insert key n)) := by
  refine .object (fun hs => Dict.sorted_insert hs key n) ?_
  intro k m hm
  rw [Dict.get?_insert] at hm
  split at hm
  · next hk =>
    cases hm
    exact hk ▸ h
  · exact hm ▸ .kept m

/-- Taking a child out of an object is an `Edit` of the object: the children that are left are
    kept. -/
theorem Edit.erase {serial : Nat} (s : Stamp) (children : Dict Node) (key : String) :
    Edit serial (some (.object s children)) (.object (s.bubble serial) (children.erase key)) := by
  refine .object (fun hs => Dict.sorted_erase hs key) ?_
  intro k m hm
  rw [Dict.get?_erase] at hm
  split at hm
  · cases hm
  · exact hm ▸ .kept m

/-- An `Edit` of one item makes one of its array. -/
theorem Edit.item {serial : Nat} {s : Stamp} {items : List Node} {i : Nat} {n : Node}
    (h : Edit serial items[i]? n) :
    Edit serial (some (.array s items)) (.array (s.bubble serial) (items.set i n)) := by
  refine .array (fun hl => by rwa [List.length_set]) ?_
  intro j m hm
  rw [List.getElem?_set] at hm
  split at hm
  · next hj =>
    split at hm
    · cases hm
      exact hj ▸ h
    · cases hm
  · exact hm ▸ .kept m

/-- Appending a new item to an array is an `Edit` of the array, if there is a position for the
    item. -/
theorem Edit.append {serial : Nat} {s : Stamp} {items : List Node} {v : Json} (hv : v.Proper)
    (hroom : items.length < ArrayIndex.limit) :
    Edit serial (some (.array s items))
      (.array (s.bubble serial) (items ++ [build serial v])) := by
  refine .array (fun _ => ?_) ?_
  · rw [List.length_append, List.length_singleton]
    omega
  · intro j m hm
    rw [List.getElem?_append] at hm
    split at hm
    · exact hm ▸ .kept m
    · -- Behind the old items there is only the new one.
      rw [List.getElem?_singleton] at hm
      split at hm
      · cases hm
        exact .built hv
      · cases hm

/-- If `assign` of a value is an `Edit` wherever it changes something, then so is giving the value
    to any place. -/
theorem edit_given {serial : Nat} {v : Json} (hv : v.Proper)
    (h : ∀ n n', assign serial v n = some n' → Edit serial (some n) n') (old : Option Node) :
    Edit serial old (given serial old v) := by
  cases old with
  | none => exact .built hv
  | some n =>
    -- A node that has the value already is kept.
    cases ha : assign serial v n with
    | none =>
      rw [given, ha]
      exact .kept n
    | some n' =>
      rw [given, ha]
      exact h n n' ha

/-- `assign` of fields to an object is an `Edit` if `assign` of each field is. -/
theorem edit_assign_obj {serial : Nat} {fields : List (String × Json)} {s : Stamp}
    {children : Dict Node} {n' : Node} (hv : (Json.obj fields).Proper)
    (hfield : ∀ p ∈ fields, ∀ n n', assign serial p.2 n = some n' → Edit serial (some n) n')
    (h : assign serial (.obj fields) (.object s children) = some n') :
    Edit serial (some (.object s children)) n' := by
  obtain ⟨hd, hp⟩ := Json.proper_obj.1 hv
  unfold assign at h
  simp only at h
  split at h
  · cases h
    rw [assignFields_fst]
    have hkeys : (Dict.keys (fields.map fun p =>
        (p.1, given serial (Dict.get? children p.1) p.2))).Pairwise (· < ·) := by
      rw [Dict.keys_mapEntries fun key v => given serial (Dict.get? children key) v]
      exact Dict.sorted_iff_keys.1 hd
    refine .object (fun _ => Dict.sorted_iff_keys.2 hkeys) ?_
    intro key m hm
    -- Every child that stands there now was given the value of its field.
    rw [Dict.get?_mapEntries fun key v => given serial (Dict.get? children key) v] at hm
    obtain ⟨w, hw, rfl⟩ := Option.map_eq_some_iff.1 hm
    have hmem : (key, w) ∈ fields := Dict.mem_of_get? hw
    exact edit_given (hp _ hmem) (hfield _ hmem) _
  · cases h

/-- `assign` of items to an array is an `Edit` if `assign` of each item is. -/
theorem edit_assign_arr {serial : Nat} {values : List Json} {s : Stamp} {items : List Node}
    {n' : Node} (hv : (Json.arr values).Proper)
    (hitem : ∀ v ∈ values, ∀ n n', assign serial v n = some n' → Edit serial (some n) n')
    (h : assign serial (.arr values) (.array s items) = some n') :
    Edit serial (some (.array s items)) n' := by
  obtain ⟨hl, hp⟩ := Json.proper_arr.1 hv
  unfold assign at h
  simp only at h
  split at h
  · cases h
    refine .array (fun _ => by rwa [length_assignItems]) ?_
    intro i m hm
    -- Each item was given the value at its position, whatever was there before.
    rw [getElem?_assignItems] at hm
    obtain ⟨w, hw, rfl⟩ := Option.map_eq_some_iff.1 hm
    have hmem : w ∈ values := List.mem_of_getElem? hw
    exact edit_given (hp _ hmem) (hitem _ hmem) _
  · cases h

/-- `assign` is an `Edit` wherever it changes something. -/
theorem edit_assign {serial : Nat} {v : Json} (hv : v.Proper) {n n' : Node}
    (h : assign serial v n = some n') : Edit serial (some n) n' := by
  -- A node of another kind is built anew.
  induction v using Json.partsInduction generalizing n n' with
  | scalar a =>
    cases n with
    | scalar s b =>
      unfold assign at h
      split at h
      · cases h
      · cases h
        exact .scalar s b a
    | object s children =>
      cases h
      exact .built hv
    | array s items =>
      cases h
      exact .built hv
  | obj fields ih =>
    cases n with
    | scalar s b =>
      cases h
      exact .built hv
    | array s items =>
      cases h
      exact .built hv
    | object s children =>
      have hp := (Json.proper_obj.1 hv).2
      exact edit_assign_obj hv (fun p hmem n n' => ih p hmem (hp p hmem)) h
  | arr values ih =>
    cases n with
    | scalar s b =>
      cases h
      exact .built hv
    | object s children =>
      cases h
      exact .built hv
    | array s items =>
      have hp := (Json.proper_arr.1 hv).2
      exact edit_assign_arr hv (fun v hmem n n' => ih v hmem (hp v hmem)) h

/-- `setAt` is an `Edit` of the whole tree wherever it changes something. -/
theorem edit_setAt {serial : Nat} {v : Json} (hv : v.Proper) {path : List String} {n n' : Node}
    (h : setAt serial v path n = .ok (some n')) : Edit serial (some n) n' := by
  induction path generalizing n n' with
  -- At the end of the path the value is assigned to the node there.
  | nil => exact edit_assign hv (Except.ok.inj h)
  | cons key rest ih =>
    have hbuilt : (Json.nest rest v).Proper := Json.proper_nest hv rest
    cases n with
    | scalar s b =>
      -- A scalar in the way gives place to the objects of the path.
      cases h
      have hpath : Node.object (.fresh serial) [(key, buildPath serial v rest)] =
          build serial (Json.nest (key :: rest) v) := buildPath_eq serial v (key :: rest)
      rw [hpath]
      exact .built (Json.proper_nest hv (key :: rest))
    -- A missing child is built with the rest of the path, another one is changed further down.
    | object s children =>
      unfold setAt at h
      cases hk : Dict.get? children key with
      | none =>
        rw [hk] at h
        cases h
        rw [buildPath_eq]
        exact Edit.child (.built hbuilt)
      | some child =>
        rw [hk] at h
        dsimp only at h
        split at h
        · cases h
        · cases h
        · next hc =>
          cases h
          exact Edit.child (hk ▸ ih hc)
    | array s items =>
      unfold setAt at h
      cases hp : ArrayIndex.parse? key with
      | none => simp [hp] at h
      | some i =>
        simp only [hp] at h
        cases hi : items[i]? with
        | some item =>
          rw [hi] at h
          dsimp only at h
          split at h
          · cases h
          · cases h
          · next hc =>
            cases h
            exact Edit.item (hi ▸ ih hc)
        | none =>
          rw [hi] at h
          dsimp only at h
          split at h
          · next hlen =>
            cases h
            -- The position just behind the last item is one, so there is room for the item.
            have hroom : items.length < ArrayIndex.limit := hlen ▸ ArrayIndex.lt_limit_of_parse? hp
            rw [buildPath_eq]
            exact Edit.append hbuilt hroom
          · cases h

/-- `removeAt` is an `Edit` of the whole tree wherever it removes something. -/
theorem edit_removeAt {serial : Nat} {path : List String} {n n' : Node}
    (h : removeAt serial path n = .ok (some n')) : Edit serial (some n) n' := by
  induction path generalizing n n' with
  | nil => cases h
  | cons key rest ih =>
    cases n with
    | scalar s b => cases h
    | object s children =>
      unfold removeAt at h
      cases hk : Dict.get? children key with
      | none => simp [hk] at h
      | some child =>
        rw [hk] at h
        dsimp only at h
        split at h
        · -- The path ends here, otherwise the removal is further down.
          cases h
          exact .erase s children key
        · split at h
          · cases h
          · cases h
          · next hc =>
            cases h
            exact Edit.child (hk ▸ ih hc)
    | array s items =>
      unfold removeAt at h
      cases hp : ArrayIndex.parse? key with
      | none => simp [hp] at h
      | some i =>
        simp only [hp] at h
        cases hi : items[i]? with
        | none => simp [hi] at h
        | some item =>
          rw [hi] at h
          dsimp only at h
          split at h
          · cases h
            exact .taken s items i
          · split at h
            · cases h
            · cases h
            · next hc =>
              cases h
              exact Edit.item (hi ▸ ih hc)

/-- `touchAt` is an `Edit` of the whole tree wherever its path leads to a node. -/
theorem edit_touchAt {serial : Nat} {path : List String} {n n' : Node}
    (h : touchAt serial path n = some n') : Edit serial (some n) n' := by
  -- Along the path; every node on the way holds the edit of its part.
  induction path generalizing n n' with
  | nil =>
    cases h
    exact .renewed n
  | cons key rest ih =>
    cases n with
    | scalar s b => cases h
    | object s children =>
      unfold touchAt at h
      cases hk : Dict.get? children key with
      | none => simp [hk] at h
      | some child =>
        rw [hk] at h
        obtain ⟨next, hc, rfl⟩ := Option.map_eq_some_iff.1 h
        exact Edit.child (hk ▸ ih hc)
    | array s items =>
      unfold touchAt at h
      cases hp : ArrayIndex.parse? key with
      | none => simp [hp] at h
      | some i =>
        simp only [hp] at h
        cases hi : items[i]? with
        | none => simp [hi] at h
        | some item =>
          rw [hi] at h
          obtain ⟨next, hc, rfl⟩ := Option.map_eq_some_iff.1 h
          exact Edit.item (hi ▸ ih hc)

/-! ### Regular trees -/

mutual

/-- Objects are dictionaries, arrays have positions for all their items, and the child serial of a
    node is not behind its own serial or the child serial of anything beneath. -/
def Regular : Node → Prop
  | .scalar s _ => s.childSerial = s.serial
  | .object s children =>
    s.serial ≤ s.childSerial ∧ Dict.Sorted children ∧ RegularChildren s.childSerial children
  | .array s items =>
    s.serial ≤ s.childSerial ∧ items.length ≤ ArrayIndex.limit ∧ RegularItems s.childSerial items

/-- `Regular` for the children of an object, with child serials of at most `bound`. -/
def RegularChildren (bound : Nat) : List (String × Node) → Prop
  | [] => True
  | (_, n) :: rest => (n.childSerial ≤ bound ∧ Regular n) ∧ RegularChildren bound rest

/-- `Regular` for the items of an array, with child serials of at most `bound`. -/
def RegularItems (bound : Nat) : List Node → Prop
  | [] => True
  | n :: rest => (n.childSerial ≤ bound ∧ Regular n) ∧ RegularItems bound rest

end

/-- A `Regular` node in which nothing is stamped later than `bound`. -/
def RegularTo (bound : Nat) (n : Node) : Prop := n.childSerial ≤ bound ∧ n.Regular

theorem regularChildren_iff {bound : Nat} {children : List (String × Node)} :
    RegularChildren bound children ↔ ∀ p ∈ children, p.2.RegularTo bound := by
  induction children with
  | nil => simp [RegularChildren]
  | cons p rest ih => simp [RegularChildren, RegularTo, ih]

theorem regularItems_iff {bound : Nat} {items : List Node} :
    RegularItems bound items ↔ ∀ n ∈ items, n.RegularTo bound := by
  induction items with
  | nil => simp [RegularItems]
  | cons n rest ih => simp [RegularItems, RegularTo, ih]

/-- `Regular` of an object, by what it has under its keys. -/
theorem regular_object {s : Stamp} {children : Dict Node} :
    Regular (.object s children) ↔ s.serial ≤ s.childSerial ∧ Dict.Sorted children ∧
      ∀ key n, Dict.get? children key = some n → n.RegularTo s.childSerial := by
  rw [Regular, regularChildren_iff]
  refine and_congr_right fun _ => and_congr_right fun hd => ?_
  constructor
  · intro h key n hn
    exact h _ (Dict.mem_of_get? hn)
  · intro h p hp
    exact h p.1 p.2 (Dict.get?_of_mem hd.nodup_keys hp)

/-- `Regular` of an array, by what it has at its positions. -/
theorem regular_array {s : Stamp} {items : List Node} :
    Regular (.array s items) ↔ s.serial ≤ s.childSerial ∧ items.length ≤ ArrayIndex.limit ∧
      ∀ (i : Nat) (n : Node), items[i]? = some n → n.RegularTo s.childSerial := by
  rw [Regular, regularItems_iff]
  refine and_congr_right fun _ => and_congr_right fun _ => ?_
  constructor
  · intro h i n hn
    exact h n (List.mem_of_getElem? hn)
  · intro h n hn
    obtain ⟨i, hi⟩ := List.getElem?_of_mem hn
    exact h i n hi

/-- `RegularTo` holds for every later bound. -/
theorem RegularTo.mono {b c : Nat} {n : Node} (h : n.RegularTo b) (hbc : b ≤ c) :
    n.RegularTo c := ⟨Nat.le_trans h.1 hbc, h.2⟩

/-- If an object is `RegularTo bound`, then so are its children. -/
theorem RegularTo.child {bound : Nat} {s : Stamp} {children : Dict Node}
    (h : (object s children).RegularTo bound) : s.childSerial ≤ bound ∧
      ∀ key n, Dict.get? children key = some n → n.RegularTo bound := by
  have hle : s.childSerial ≤ bound := h.1
  exact ⟨hle, fun key n hk => ((regular_object.1 h.2).2.2 key n hk).mono hle⟩

/-- If an array is `RegularTo bound`, then so are its items. -/
theorem RegularTo.item {bound : Nat} {s : Stamp} {items : List Node}
    (h : (array s items).RegularTo bound) : s.childSerial ≤ bound ∧
      ∀ (i : Nat) (n : Node), items[i]? = some n → n.RegularTo bound := by
  have hle : s.childSerial ≤ bound := h.1
  exact ⟨hle, fun i n hi => ((regular_array.1 h.2).2.2 i n hi).mono hle⟩

/-- The serial of a `Regular` node is at most its child serial. -/
theorem Regular.serial_le {n : Node} (h : n.Regular) : n.serial ≤ n.childSerial := by
  cases n with
  | scalar s v => exact Nat.le_of_eq (Eq.symm h)
  | object s children => exact h.1
  | array s items => exact h.1

/-- The serial of a node that is `RegularTo bound` is at most `bound`. -/
theorem RegularTo.serial_le {bound : Nat} {n : Node} (h : n.RegularTo bound) :
    n.serial ≤ bound := Nat.le_trans h.2.serial_le h.1

/-- What `child?` finds in a node that is `RegularTo bound` is so as well. -/
theorem RegularTo.child? {bound : Nat} {n m : Node} (h : n.RegularTo bound) {key : String}
    (hm : n.child? key = some m) : m.RegularTo bound := by
  cases n with
  | scalar s v => cases hm
  | object s children => exact h.child.2 key m hm
  | array s items =>
    obtain ⟨i, -, hi⟩ := Option.bind_eq_some_iff.1 hm
    exact h.item.2 i m hi

/-- What `descendant?` finds in a node that is `RegularTo bound` is so as well. -/
theorem RegularTo.descendant? {bound : Nat} {n m : Node} (h : n.RegularTo bound)
    {path : List String} (hm : n.descendant? path = some m) : m.RegularTo bound := by
  induction path generalizing n with
  | nil =>
    cases hm
    exact h
  | cons key rest ih =>
    obtain ⟨c, hc, hm⟩ := Option.bind_eq_some_iff.1 hm
    exact ih (h.child? hc) hm

/-- `build serial v` is `RegularTo serial` for every `Proper` value. -/
theorem regularTo_build {v : Json} (hv : v.Proper) (serial : Nat) :
    (build serial v).RegularTo serial := by
  refine ⟨Nat.le_of_eq (childSerial_build serial v), ?_⟩
  -- All nodes that are built have the serial of the build, so no part is later than its node.
  induction v using Json.partsInduction with
  | scalar a => rfl
  | obj fields ih =>
    obtain ⟨hd, hp⟩ := Json.proper_obj.1 hv
    rw [build, buildFields_eq, regular_object]
    refine ⟨Nat.le_refl _, Dict.sorted_mapValues hd _, ?_⟩
    intro key n hn
    rw [Dict.get?_mapValues] at hn
    obtain ⟨w, hw, rfl⟩ := Option.map_eq_some_iff.1 hn
    have hmem : (key, w) ∈ fields := Dict.mem_of_get? hw
    exact ⟨Nat.le_of_eq (childSerial_build serial w), ih _ hmem (hp _ hmem)⟩
  | arr items ih =>
    obtain ⟨hl, hp⟩ := Json.proper_arr.1 hv
    rw [build, buildItems_eq, regular_array]
    refine ⟨Nat.le_refl _, by rwa [List.length_map], ?_⟩
    intro i n hn
    rw [List.getElem?_map] at hn
    obtain ⟨w, hw, rfl⟩ := Option.map_eq_some_iff.1 hn
    have hmem : w ∈ items := List.mem_of_getElem? hw
    exact ⟨Nat.le_of_eq (childSerial_build serial w), ih _ hmem (hp _ hmem)⟩

/-- Replacing the value of a scalar and renewing its stamp keeps it `RegularTo serial`. -/
theorem RegularTo.renew_scalar {serial : Nat} {s : Stamp} {a : Scalar}
    (h : (scalar s a).RegularTo serial) (b : Scalar) :
    (scalar (s.renew serial) b).RegularTo serial := by
  have hmax : (s.renew serial).childSerial = serial := Nat.max_eq_right h.1
  exact ⟨Nat.le_of_eq hmax, hmax⟩

/-- Renewing the stamp of a node keeps it `RegularTo serial`, as the child serial is raised with
    the serial. -/
theorem RegularTo.renew {serial : Nat} {n : Node} (h : n.RegularTo serial) :
    (n.renew serial).RegularTo serial := by
  obtain ⟨hn, hr⟩ := h
  cases n with
  | scalar s v => exact RegularTo.renew_scalar ⟨hn, hr⟩ v
  | object s children =>
    obtain ⟨-, hd, hc⟩ := regular_object.1 hr
    -- The child serial was not later than the serial, so now it is the same.
    have hmax : (s.renew serial).childSerial = serial := Nat.max_eq_right hn
    show (object (s.renew serial) children).RegularTo serial
    refine ⟨Nat.le_of_eq hmax, regular_object.2 ⟨Nat.le_of_eq hmax.symm, hd, ?_⟩⟩
    intro key m hm
    rw [hmax]
    exact (hc key m hm).mono hn
  | array s items =>
    obtain ⟨-, hl, hc⟩ := regular_array.1 hr
    have hmax : (s.renew serial).childSerial = serial := Nat.max_eq_right hn
    show (array (s.renew serial) items).RegularTo serial
    refine ⟨Nat.le_of_eq hmax, regular_array.2 ⟨Nat.le_of_eq hmax.symm, hl, ?_⟩⟩
    intro i m hm
    rw [hmax]
    exact (hc i m hm).mono hn

/-- **A change keeps the tree regular.**  If `Edit serial old new` and what stood before was
    `RegularTo serial`, then `new` is.  The bound is the serial of the change, since the passed
    nodes bubble to it. -/
theorem Edit.regular {serial : Nat} {old : Option Node} {new : Node} (h : Edit serial old new)
    (hold : ∀ n, old = some n → n.RegularTo serial) : new.RegularTo serial := by
  induction h with
  | kept n => exact hold n rfl
  | built hv => exact regularTo_build hv serial
  | scalar s a b => exact (hold _ rfl).renew_scalar b
  | renewed n => exact (hold n rfl).renew
  | taken s items i =>
    have hsub := List.eraseIdx_sublist items i
    obtain ⟨hn, hr⟩ := (hold _ rfl).renew
    obtain ⟨hle, hl, hc⟩ := regular_array.1 hr
    refine ⟨hn, regular_array.2 ⟨hle, Nat.le_trans hsub.length_le hl, ?_⟩⟩
    intro j m hm
    -- What is left was there before, at another position perhaps.
    obtain ⟨k, hk⟩ := List.getElem?_of_mem (hsub.subset (List.mem_of_getElem? hm))
    exact hc k m hk
  -- A passed node bubbles to `serial`, which bounds its old parts and by the induction the new
  -- ones.
  | @object s children next hs h ih =>
    obtain ⟨hn, hr⟩ := hold _ rfl
    obtain ⟨hle, hd, hc⟩ := regular_object.1 hr
    have hmax : (s.bubble serial).childSerial = serial := Nat.max_eq_right hn
    refine ⟨Nat.le_of_eq hmax, regular_object.2 ⟨?_, hs hd, ?_⟩⟩
    · exact Nat.le_trans hle (Nat.le_max_left _ _)
    · intro key m hm
      rw [hmax]
      exact ih key m hm fun n e => (hc key n e).mono hn
  | @array s items next hl h ih =>
    obtain ⟨hn, hr⟩ := hold _ rfl
    obtain ⟨hle, hd, hc⟩ := regular_array.1 hr
    have hmax : (s.bubble serial).childSerial = serial := Nat.max_eq_right hn
    refine ⟨Nat.le_of_eq hmax, regular_array.2 ⟨?_, hl hd, ?_⟩⟩
    · exact Nat.le_trans hle (Nat.le_max_left _ _)
    · intro i m hm
      rw [hmax]
      exact ih i m hm fun n e => (hc i n e).mono hn

end Node

end Observatory

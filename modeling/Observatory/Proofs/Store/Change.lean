import Observatory.Proofs.Store.Run

/-!
# The three changes as one

Giving a value, removing and marking walk down a path in the same way and differ at its end
only.  Read as one change, they have one equation for each kind of node: what becomes of the
part that the path leads to, all other parts being kept.

* `Node.given_object`, `Node.given_array`: the parts of a node that was given a value;
* `Node.Change`, `Node.Change.attempt`, `Node.Change.apply`: a change, what it comes to, and
  the tree that it leaves;
* `Node.Change.put`: what it leaves at a place, where a node stands or nothing;
* `Node.Change.apply_object`, `Node.Change.apply_array`: one step down the path;
* `Store.Op.change?`, `Store.root_run`: the tree after a request.
-/

namespace Observatory

namespace Node

/-! ### Given values -/

/-- `assignFields` reports no change exactly if every field has a child with its value already. -/
theorem assignFields_snd {serial : Nat} {children : Dict Node} {fields : List (String × Json)} :
    (assignFields serial children fields).2 = false ↔ ∀ p ∈ fields, ∃ child,
      Dict.get? children p.1 = some child ∧ assign serial p.2 child = none := by
  induction fields with
  | nil => simp [assignFields]
  | cons p rest ih =>
    obtain ⟨k, v⟩ := p
    rw [assignFields, List.forall_mem_cons, ← ih]
    cases hk : Dict.get? children k with
    | none => simp
    | some child =>
      cases ha : assign serial v child with
      | none => simp [ha]
      | some next => simp [ha]

/-- `assignItems` reports no change exactly if there are as many items as values, each with its
    value already. -/
theorem assignItems_snd {serial : Nat} {items : List Node} {values : List Json} :
    (assignItems serial items values).2 = false ↔ items.length = values.length ∧
      ∀ (i : Nat) (v : Json), values[i]? = some v →
        ∀ item, items[i]? = some item → assign serial v item = none := by
  induction values generalizing items with
  | nil => cases items <;> simp [assignItems]
  | cons v rest ih =>
    cases items with
    | nil => simp [assignItems]
    | cons item items =>
      unfold assignItems
      -- A change is reported as soon as one item changes, or where one of the two lists ends
      -- before the other.
      constructor
      · intro h
        cases ha : assign serial v item with
        | some next => simp [ha] at h
        | none =>
          have htail : (assignItems serial items rest).2 = false := by simpa [ha] using h
          obtain ⟨hl, heach⟩ := ih.1 htail
          refine ⟨congrArg (· + 1) hl, ?_⟩
          intro i u hu m hm
          cases i with
          | zero =>
            cases hu
            cases hm
            exact ha
          | succ i => exact heach i u hu m hm
      · rintro ⟨hl, heach⟩
        have ha : assign serial v item = none := heach 0 v rfl item rfl
        have htail : (assignItems serial items rest).2 = false :=
          ih.2 ⟨Nat.succ.inj hl, fun i => heach (i + 1)⟩
        simpa [ha] using htail

/-- An object that is `given` fields is an object with the same serial and one child for every
    field, which is given the value of the field. -/
theorem given_object (serial : Nat) (s : Stamp) (children : Dict Node)
    (fields : List (String × Json)) : ∃ (s' : Stamp) (next : Dict Node),
      given serial (some (object s children)) (.obj fields) = object s' next ∧
      s'.serial = s.serial ∧ ∀ key, Dict.get? next key =
        (Dict.get? fields key).map (given serial (Dict.get? children key)) := by
  rw [given]
  unfold assign
  dsimp only
  split
  · refine ⟨_, _, rfl, rfl, fun key => ?_⟩
    rw [assignFields_fst]
    exact Dict.get?_mapEntries (fun k v => given serial (Dict.get? children k) v) fields key
  · next hsame =>
    -- Nothing is new, changed or gone, so the children are those that the fields ask for.
    obtain ⟨hfields, hgone⟩ : (assignFields serial children fields).2 = false ∧
        children.any (fun c => !Dict.contains fields c.1) = false := by simpa using hsame
    refine ⟨s, children, rfl, rfl, fun key => ?_⟩
    cases hf : Dict.get? fields key with
    | some v =>
      obtain ⟨child, hc, ha⟩ := assignFields_snd.1 hfields _ (Dict.mem_of_get? hf)
      dsimp only at hc ha
      rw [hc, Option.map_some, given, ha]
      rfl
    | none =>
      cases hc : Dict.get? children key with
      | none => rfl
      | some child =>
        have hkept := List.any_eq_false.1 hgone _ (Dict.mem_of_get? hc)
        simp [Dict.contains, hf] at hkept

/-- An array that is `given` values is an array with the same serial and one item for every value,
    which is given it. -/
theorem given_array (serial : Nat) (s : Stamp) (items : List Node) (values : List Json) :
    ∃ (s' : Stamp) (next : List Node),
      given serial (some (array s items)) (.arr values) = array s' next ∧
      s'.serial = s.serial ∧ ∀ i : Nat, next[i]? = values[i]?.map (given serial items[i]?) := by
  rw [given]
  unfold assign
  dsimp only
  split
  · exact ⟨_, _, rfl, rfl, getElem?_assignItems serial items values⟩
  · -- If no item changes and there are as many as before, the array is left as it is.
    next hsame =>
    obtain ⟨hl, heach⟩ := assignItems_snd.1 (Bool.not_eq_true _ ▸ hsame)
    refine ⟨s, items, rfl, rfl, fun i => ?_⟩
    cases hv : values[i]? with
    | some v =>
      have hlt : i < items.length := by
        have := (List.getElem?_eq_some_iff.1 hv).1
        omega
      have hi : items[i]? = some items[i] := List.getElem?_eq_getElem hlt
      rw [hi, Option.map_some, given, heach i v hv _ hi]
      rfl
    | none =>
      have hle := List.getElem?_eq_none_iff.1 hv
      exact List.getElem?_eq_none_iff.2 (by omega)

/-! ### Changes of one place -/

/-- A change that is made at the end of a path. -/
inductive Change where
  | set (v : Json)
  | remove
  | touch

/-- The tree after an attempt to change it: an error or an attempt that came to nothing
    leaves it. -/
def adopt (n : Node) : Except StoreError (Option Node) → Node
  | .error _ => n
  | .ok none => n
  | .ok (some next) => next

namespace Change

/-- What a change at the end of a path comes to: an error, nothing, or a new tree. -/
def attempt (c : Change) (serial : Nat) (path : List String) (n : Node) :
    Except StoreError (Option Node) :=
  match c with
  | set v => setAt serial v path n
  | remove => removeAt serial path n
  | touch => .ok (touchAt serial path n)

/-- The tree after a change at the end of a path. -/
def apply (c : Change) (serial : Nat) (path : List String) (n : Node) : Node :=
  n.adopt (c.attempt serial path n)

/-- Whether the change takes away what stands at the end of a path.  Only `remove` does, where its
    path ends. -/
def takesAway : Change → List String → Bool
  | remove, [] => true
  | _, _ => false

/-- What a change leaves at a place, where a node stands or nothing, if `path` is the rest of its
    path from there. -/
def put (c : Change) (serial : Nat) (path : List String) : Option Node → Option Node
  | some n => if c.takesAway path then none else some (c.apply serial path n)
  | none =>
    match c with
    | set v => some (build serial (Json.nest path v))
    | _ => none

/-- If a change takes away what stands at the end of a path, then it is `remove` and the path is
    empty. -/
theorem eq_remove_of_takesAway {c : Change} {path : List String} (h : c.takesAway path = true) :
    c = remove ∧ path = [] := by
  unfold takesAway at h
  split at h
  · exact ⟨rfl, rfl⟩
  · cases h

/-- Where a node stands and is not taken away, `put` leaves what `apply` makes of it. -/
theorem put_some (c : Change) {serial : Nat} {path : List String} (h : c.takesAway path = false)
    (n : Node) : c.put serial path (some n) = some (c.apply serial path n) := by
  rw [put, h]
  rfl

/-- The items of an array after a change beneath it, if no item is taken away. -/
def items (c : Change) (serial : Nat) (key : String) (rest : List String) (xs : List Node) :
    List Node :=
  match ArrayIndex.parse? key with
  | none => xs
  | some i =>
    if i < xs.length then xs.modify i (c.apply serial rest)
    -- There is room for an item right behind the last one only.
    else if i = xs.length then xs ++ (c.put serial rest none).toList
    else xs

/-- What a change of a part comes to for the node that has the part under `key`. -/
def pass (key : String) (hold : Node → Node) :
    Except StoreError (Option Node) → Except StoreError (Option Node)
  | .error e => .error (e.under key)
  | .ok none => .ok none
  | .ok (some next) => .ok (some (hold next))

section Attempt

variable {c : Change} {serial : Nat} {key : String} {rest : List String} {s : Stamp}

/-- An attempt beneath a child is an attempt on the child, passed on by the object. -/
theorem attempt_child {children : Dict Node} {child : Node}
    (hk : Dict.get? children key = some child) (ht : c.takesAway rest = false) :
    c.attempt serial (key :: rest) (object s children) =
      pass key (fun next => object (s.bubble serial) (children.insert key next))
        (c.attempt serial rest child) := by
  cases c with
  | set v =>
    show setAt serial v (key :: rest) (object s children) = pass key _ (setAt serial v rest child)
    simp only [setAt, hk]
    rcases setAt serial v rest child with e | _ | next <;> rfl
  | remove =>
    -- The child itself is not taken away, so the removal goes on beneath it.
    have hrest : rest.isEmpty = false := by
      cases rest with
      | nil => cases ht
      | cons => rfl
    show removeAt serial (key :: rest) (object s children) = pass key _ (removeAt serial rest child)
    simp only [removeAt, hk, hrest, Bool.false_eq_true, if_false]
    rcases removeAt serial rest child with e | _ | next <;> rfl
  | touch =>
    show Except.ok (touchAt serial (key :: rest) (object s children)) =
      pass key _ (.ok (touchAt serial rest child))
    simp only [touchAt, hk]
    cases touchAt serial rest child <;> rfl

/-- An attempt under a key that an object does not have puts a new child there, if the change puts
    anything. -/
theorem attempt_no_child {children : Dict Node} (hk : Dict.get? children key = none) :
    c.attempt serial (key :: rest) (object s children) =
      .ok ((c.put serial rest none).map fun n =>
        object (s.bubble serial) (children.insert key n)) := by
  -- Only `set` makes anything where nothing is; `remove` and `touch` have nothing to change.
  cases c with
  | set v =>
    show setAt serial v (key :: rest) (object s children) = _
    simp only [setAt, hk, buildPath_eq]
    rfl
  | remove =>
    show removeAt serial (key :: rest) (object s children) = _
    simp only [removeAt, hk]
    rfl
  | touch =>
    show Except.ok (touchAt serial (key :: rest) (object s children)) = _
    simp only [touchAt, hk]
    rfl

/-- To `remove` a child erases its key and bubbles the stamp of the object. -/
theorem attempt_remove_child {children : Dict Node} {child : Node}
    (hk : Dict.get? children key = some child) :
    remove.attempt serial [key] (object s children) =
      .ok (some (object (s.bubble serial) (children.erase key))) := by
  show removeAt serial [key] (object s children) = _
  simp [removeAt, hk]

/-- An attempt beneath an item is an attempt on the item, passed on by the array. -/
theorem attempt_item {items : List Node} {i : Nat} {item : Node}
    (hp : ArrayIndex.parse? key = some i) (hi : items[i]? = some item)
    (ht : c.takesAway rest = false) :
    c.attempt serial (key :: rest) (array s items) =
      pass key (fun next => array (s.bubble serial) (items.set i next))
        (c.attempt serial rest item) := by
  cases c with
  | set v =>
    show setAt serial v (key :: rest) (array s items) = pass key _ (setAt serial v rest item)
    simp only [setAt, hp, hi]
    rcases setAt serial v rest item with e | _ | next <;> rfl
  | remove =>
    -- As for a child, the item itself is not taken away.
    have hrest : rest.isEmpty = false := by
      cases rest with
      | nil => cases ht
      | cons => rfl
    show removeAt serial (key :: rest) (array s items) = pass key _ (removeAt serial rest item)
    simp only [removeAt, hp, hi, hrest, Bool.false_eq_true, if_false]
    rcases removeAt serial rest item with e | _ | next <;> rfl
  | touch =>
    show Except.ok (touchAt serial (key :: rest) (array s items)) =
      pass key _ (.ok (touchAt serial rest item))
    simp only [touchAt, hp, hi]
    cases touchAt serial rest item <;> rfl

/-- To `remove` an item takes it out of the list and renews the stamp of the array. -/
theorem attempt_remove_item {items : List Node} {i : Nat} {item : Node}
    (hp : ArrayIndex.parse? key = some i) (hi : items[i]? = some item) :
    remove.attempt serial [key] (array s items) =
      .ok (some (array (s.renew serial) (items.eraseIdx i))) := by
  show removeAt serial [key] (array s items) = _
  simp [removeAt, hp, hi]

/-- `apply` under a key that is no position leaves an array alone. -/
theorem apply_no_position {items : List Node} (hp : ArrayIndex.parse? key = none) :
    c.apply serial (key :: rest) (array s items) = array s items := by
  cases c with
  | set v =>
    show (array s items).adopt (setAt serial v (key :: rest) (array s items)) = _
    simp only [setAt, hp]
    rfl
  | remove =>
    show (array s items).adopt (removeAt serial (key :: rest) (array s items)) = _
    simp only [removeAt, hp]
    rfl
  | touch =>
    show (array s items).adopt (.ok (touchAt serial (key :: rest) (array s items))) = _
    simp only [touchAt, hp]
    rfl

/-- `apply` at a position without an item appends one if the position is that of the end and the
    change puts anything. -/
theorem apply_no_item {items : List Node} {i : Nat} (hp : ArrayIndex.parse? key = some i)
    (hi : items[i]? = none) : ∃ s' : Stamp, s'.serial = s.serial ∧
      c.apply serial (key :: rest) (array s items) = array s'
        (if i = items.length then items ++ (c.put serial rest none).toList else items) := by
  -- Only `set` puts anything, and only at the end; any other position is refused.
  cases c with
  | set v =>
    show ∃ s' : Stamp, s'.serial = s.serial ∧
      (array s items).adopt (setAt serial v (key :: rest) (array s items)) = _
    simp only [setAt, hp, hi, buildPath_eq]
    split
    · exact ⟨s.bubble serial, rfl, rfl⟩
    · exact ⟨s, rfl, rfl⟩
  | remove =>
    refine ⟨s, rfl, ?_⟩
    show (array s items).adopt (removeAt serial (key :: rest) (array s items)) = _
    simp only [removeAt, hp, hi, put, Option.toList_none, List.append_nil, ite_self]
    rfl
  | touch =>
    refine ⟨s, rfl, ?_⟩
    show (array s items).adopt (.ok (touchAt serial (key :: rest) (array s items))) = _
    simp only [touchAt, hp, hi, put, Option.toList_none, List.append_nil, ite_self]
    rfl

end Attempt

/-! ### One step down the path -/

section Apply

variable (c : Change) (serial : Nat) (key : String) (rest : List String)

@[simp] theorem apply_set_nil (v : Json) (n : Node) :
    (set v).apply serial [] n = given serial (some n) v := by
  show n.adopt (.ok (assign serial v n)) = (assign serial v n).getD n
  cases assign serial v n <;> rfl

/-- `apply` beneath a scalar puts something new in its place, if the change puts anything. -/
theorem apply_scalar (s : Stamp) (a : Scalar) : c.apply serial (key :: rest) (scalar s a) =
    (c.put serial (key :: rest) none).getD (scalar s a) := by
  cases c with
  | set v => exact buildPath_eq serial v (key :: rest)
  | remove => rfl
  | touch => rfl

/-- `apply` beneath an object changes what is under one key, by `put`, and keeps the serial of the
    object and all other children. -/
theorem apply_object (s : Stamp) (children : Dict Node) :
    ∃ (s' : Stamp) (next : Dict Node),
      c.apply serial (key :: rest) (object s children) = object s' next ∧ s'.serial = s.serial ∧
      ∀ k, Dict.get? next k =
        if key = k then c.put serial rest (Dict.get? children key) else Dict.get? children k := by
  have hkept : ∀ k, Dict.get? children k =
      if key = k then Dict.get? children key else Dict.get? children k := by
    intro k
    split
    · next h => rw [h]
    · rfl
  have hinsert := Dict.get?_insert children key
  cases hk : Dict.get? children key with
  | none =>
    rw [apply, attempt_no_child hk]
    cases c.put serial rest none with
    | none => exact ⟨s, children, rfl, rfl, hk ▸ hkept⟩
    | some n => exact ⟨_, _, rfl, rfl, hinsert n⟩
  | some child =>
    -- A child is erased only where a removal ends, and replaced otherwise.
    cases ht : c.takesAway rest with
    | true =>
      obtain ⟨rfl, rfl⟩ := eq_remove_of_takesAway ht
      rw [apply, attempt_remove_child hk]
      exact ⟨_, _, rfl, rfl, Dict.get?_erase children key⟩
    | false =>
      rw [c.put_some ht, apply, attempt_child hk ht, apply]
      rw [hk] at hkept
      rcases c.attempt serial rest child with e | _ | next
      · exact ⟨s, children, rfl, rfl, hkept⟩
      · exact ⟨s, children, rfl, rfl, hkept⟩
      · exact ⟨_, _, rfl, rfl, hinsert next⟩

variable {c rest}

/-- `apply` beneath an array, if no item is taken away, keeps the serial of the array and leaves it
    with `Change.items`. -/
theorem apply_array (ht : c.takesAway rest = false) (s : Stamp) (xs : List Node) :
    ∃ s' : Stamp, s'.serial = s.serial ∧
      c.apply serial (key :: rest) (array s xs) = array s' (c.items serial key rest xs) := by
  unfold items
  cases hp : ArrayIndex.parse? key with
  | none => exact ⟨s, rfl, apply_no_position hp⟩
  | some i =>
    dsimp only
    cases hi : xs[i]? with
    | none =>
      rw [if_neg (Nat.not_lt.2 (List.getElem?_eq_none_iff.1 hi))]
      exact apply_no_item hp hi
    | some item =>
      obtain ⟨hlt, hget⟩ := List.getElem?_eq_some_iff.1 hi
      have hkept : xs.set i item = xs := by rw [← hget, List.set_getElem_self]
      -- `Change.items` modifies the item in place, which is to set it to what the change makes of
      -- it.
      have hmodify : xs.modify i (c.apply serial rest) = xs.set i (c.apply serial rest item) := by
        rw [List.modify_eq_set, hi]
        rfl
      rw [if_pos hlt, hmodify, apply, attempt_item hp hi ht, apply]
      rcases c.attempt serial rest item with e | _ | next
      · exact ⟨s, rfl, congrArg (array s) hkept.symm⟩
      · exact ⟨s, rfl, congrArg (array s) hkept.symm⟩
      · exact ⟨s.bubble serial, rfl, rfl⟩

/-- `remove` of an item renews the stamp of the array and moves the items behind it; without an
    item it does nothing. -/
theorem apply_remove_item (s : Stamp) (xs : List Node) :
    remove.apply serial [key] (array s xs) =
      match (ArrayIndex.parse? key).filter (· < xs.length) with
      | some i => array (s.renew serial) (xs.eraseIdx i)
      | none => array s xs := by
  -- The key is no position, or one behind the end, or that of an item.
  cases hp : ArrayIndex.parse? key with
  | none => exact apply_no_position hp
  | some i =>
    cases hi : xs[i]? with
    | none =>
      have hle := List.getElem?_eq_none_iff.1 hi
      rw [Option.filter_some, if_neg (by simpa using hle)]
      show (array s xs).adopt (removeAt serial [key] (array s xs)) = _
      simp only [removeAt, hp, hi]
      rfl
    | some item =>
      obtain ⟨hlt, -⟩ := List.getElem?_eq_some_iff.1 hi
      rw [Option.filter_some, if_pos (by simpa using hlt), apply, attempt_remove_item hp hi]
      rfl

end Apply

end Change

/-- `touchAt` marks nothing if the path leads to no node. -/
theorem touchAt_eq_none {serial : Nat} {path : List String} {n : Node}
    (h : n.descendant? path = none) : touchAt serial path n = none := by
  -- Along the path, until the first key that leads nowhere.
  induction path generalizing n with
  | nil => cases h
  | cons key rest ih =>
    rw [descendant?] at h
    cases n with
    | scalar s a => rfl
    | object s children =>
      rw [child?] at h
      cases hk : Dict.get? children key with
      | none => simp [touchAt, hk]
      | some child =>
        rw [hk] at h
        simp [touchAt, hk, ih h]
    | array s items =>
      rw [child?] at h
      cases hp : ArrayIndex.parse? key with
      | none => simp [touchAt, hp]
      | some i =>
        rw [hp, Option.bind_some] at h
        cases hi : items[i]? with
        | none => simp [touchAt, hp, hi]
        | some item =>
          rw [hi] at h
          simp [touchAt, hp, hi, ih h]

end Node

/-! ### Requests -/

namespace Store

/-- The change of the tree that a request asks for, with its path. -/
def Op.change? : Op → Option (Node.Change × List String)
  | set path value => some (.set value.json, path)
  | remove path => some (.remove, path)
  | touch path => some (.touch, path)
  | _ => none

theorem root_adopt (s : Store) (outcome : Except StoreError (Option Node)) :
    (s.adopt outcome).2.root = s.root.adopt outcome := by
  rcases outcome with e | _ | next <;> rfl

theorem root_set (s : Store) (path : List String) (v : Json) :
    (s.set path v).2.root = (Node.Change.set v).apply s.openTick.1 path s.root := by
  show (s.openTick.2.adopt (s.openTick.2.root.setAt s.openTick.1 v path)).2.root = _
  rw [root_adopt, root_openTick]
  rfl

theorem root_remove (s : Store) (path : List String) :
    (s.remove path).2.root = Node.Change.remove.apply s.openTick.1 path s.root := by
  cases path with
  | nil => rfl
  | cons key rest =>
    show (s.openTick.2.adopt (s.openTick.2.root.removeAt s.openTick.1 (key :: rest))).2.root = _
    rw [root_adopt, root_openTick]
    rfl

theorem root_touch (s : Store) (path : List String) :
    (s.touch path).2.root = Node.Change.touch.apply s.openTick.1 path s.root := by
  -- An attempt that finds no node is one that leaves the root.
  have hadopt : Node.Change.touch.apply s.openTick.1 path s.root =
      (s.root.touchAt s.openTick.1 path).getD s.root := by
    show s.root.adopt (.ok (s.root.touchAt s.openTick.1 path)) = _
    cases s.root.touchAt s.openTick.1 path <;> rfl
  rw [hadopt, touch]
  split
  · show (s.openTick.2.root.touchAt s.openTick.1 path).getD s.openTick.2.root = _
    rw [root_openTick]
  · next h =>
    have hnone : s.root.descendant? path = none := by
      rw [contains, node?] at h
      simpa using h
    rw [Node.touchAt_eq_none hnone]
    rfl

/-- The tree after a request is that of `Change.apply` at the serial of `openTick`, if the request
    asks for a change, and else the same. -/
theorem root_run (s : Store) (op : Op) : (op.run s).root =
    match op.change? with
    | some (c, path) => c.apply s.openTick.1 path s.root
    | none => s.root := by
  cases op with
  | set path v => exact s.root_set path v.json
  | remove path => exact s.root_remove path
  | touch path => exact s.root_touch path
  | endTick => rfl
  | closeTick => rfl
  | draw => rfl
  | snapshot w => rfl
  | diff w cursor => rfl

end Store

end Observatory

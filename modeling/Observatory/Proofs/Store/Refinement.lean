import Observatory.Proofs.Store.Plain
import Observatory.Proofs.Store.Serials
import Observatory.Proofs.Store.View

/-!
# A store as a plain value

With its stamps forgotten, a store is a JSON value, and its requests are the changes of that
value along a path.  Neither serials nor ticks have any influence on it.

* `Node.toJson_build`, `Node.same_given`: the value of a tree that was given a value;
* `Node.plain_attempt`: a change beneath a part is a change beneath its value;
* `Node.plain_setAt`, `Node.plain_removeAt`, `Node.plain_touchAt`: what the changes come to;
* `Store.Refines`: what the requests come to, and what is read after them;
* `Store.refines_runAll`: so it is for every store, in every run.
-/

namespace Observatory

namespace Node

/-! ### Values of trees -/

theorem toJson_object (s : Stamp) (children : Dict Node) :
    (object s children).toJson = .obj (Dict.mapValues toJson children) := by
  rw [toJson, toFields_eq]

theorem toJson_array (s : Stamp) (items : List Node) :
    (array s items).toJson = .arr (items.map toJson) := by
  rw [toJson, toItems_eq]

/-- `Json.part?` of the value of a node is the value of `child?`. -/
theorem toJson_child? (n : Node) (key : String) :
    n.toJson.part? key = (n.child? key).map toJson := by
  cases n with
  | scalar s a => rfl
  | object s children =>
    rw [toJson_object]
    exact Dict.get?_mapValues toJson children key
  | array s items =>
    rw [toJson_array, Json.part?, child?]
    cases ArrayIndex.parse? key with
    | none => rfl
    | some i => exact List.getElem?_map

/-- `Json.at?` of the value of a node is the value of `descendant?`. -/
theorem toJson_descendant? (n : Node) (path : List String) :
    n.toJson.at? path = (n.descendant? path).map toJson := by
  induction path generalizing n with
  | nil => rfl
  | cons key rest ih =>
    rw [Json.at?, descendant?, toJson_child?]
    cases n.child? key with
    | none => rfl
    | some c => exact ih c

/-- `build serial v` has the value `v`. -/
theorem toJson_build (serial : Nat) (v : Json) : (build serial v).toJson = v := by
  induction v using Json.partsInduction with
  | scalar a => rfl
  | arr items ih =>
    have hitems : (items.map (build serial)).map toJson = items := by
      rw [List.map_map]
      exact (List.map_congr_left (g := id) ih).trans (List.map_id _)
    rw [build, buildItems_eq, toJson_array, hitems]
  | obj fields ih =>
    have hfields : Dict.mapValues toJson (Dict.mapValues (build serial) fields) = fields := by
      rw [Dict.mapValues, Dict.mapValues, List.map_map]
      refine (List.map_congr_left (g := id) fun p hp => ?_).trans (List.map_id _)
      exact congrArg (Prod.mk p.1) (ih p hp)
    rw [build, buildFields_eq, toJson_object, hfields]

section Given

variable {serial : Nat}

/-- `given` keeps a tree `RegularTo` the serial of the change. -/
theorem regularTo_given {v : Json} (hv : v.Proper) {old : Option Node}
    (hold : ∀ n, old = some n → n.RegularTo serial) : (given serial old v).RegularTo serial :=
  (edit_given hv (fun _ _ h => edit_assign hv h) old).regular hold

theorem same_build (serial : Nat) (v : Json) : (build serial v).toJson.same v = true := by
  rw [toJson_build]
  exact Json.same_refl v

/-- An array that is `given` values has the same values afterwards if each item has. -/
theorem same_given_array {values : List Json} {s : Stamp} {items : List Node}
    (h : ∀ (i : Nat) u, values[i]? = some u → (given serial items[i]? u).toJson.same u = true) :
    (given serial (some (array s items)) (.arr values)).toJson.same (.arr values) = true := by
  obtain ⟨s', next, hnext, -, hitem⟩ := given_array serial s items values
  rw [hnext, toJson_array]
  refine Json.sameItems_iff.2 fun i => ?_
  rw [List.getElem?_map, hitem]
  cases hi : values[i]? with
  | none => exact .nothing
  | some u => exact .values (h i u hi)

/-- An object that is `given` fields has the same fields afterwards if each child has. -/
theorem same_given_object {fields : Dict Json} {s : Stamp} {children : Dict Node}
    (hd : Dict.Sorted fields)
    (hregular : (given serial (some (object s children)) (.obj fields)).Regular)
    (h : ∀ key u, Dict.get? fields key = some u →
      (given serial (Dict.get? children key) u).toJson.same u = true) :
    (given serial (some (object s children)) (.obj fields)).toJson.same (.obj fields) = true := by
  obtain ⟨s', next, hnext, -, hchild⟩ := given_object serial s children fields
  rw [hnext] at hregular ⊢
  have hsorted : Dict.Sorted next := (regular_object.1 hregular).2.1
  rw [toJson_object]
  refine Json.sameFields_of_get? (Dict.sorted_mapValues hsorted _) hd fun key => ?_
  rw [Dict.get?_mapValues, hchild]
  cases hk : Dict.get? fields key with
  | none => exact .nothing
  | some u => exact .values (h key u hk)

/-- What is `given` a value has it afterwards, up to `Json.same`: a scalar that was the same
    already is left as it is, even if it is another zero. -/
theorem same_given {v : Json} (hv : v.Proper) {old : Option Node}
    (hold : ∀ n, old = some n → n.RegularTo serial) :
    (given serial old v).toJson.same v = true := by
  induction v using Json.partsInduction generalizing old with
  | scalar a =>
    cases old with
    | none => exact same_build serial _
    | some n =>
      cases n with
      | object s children => exact same_build serial _
      | array s items => exact same_build serial _
      | scalar s b =>
        rw [given]
        unfold assign
        split
        · next h => exact h
        · exact Json.same_refl (.scalar a)
  | arr values ih =>
    cases old with
    | none => exact same_build serial _
    | some n =>
      cases n with
      | scalar s b => exact same_build serial _
      | object s children => exact same_build serial _
      | array s items =>
        refine same_given_array fun i u hi => ?_
        have hu : u ∈ values := List.mem_of_getElem? hi
        exact ih u hu ((Json.proper_arr.1 hv).2 u hu) ((hold _ rfl).item.2 i)
  -- An object stays one only if it is given fields; the other nodes are built anew.
  | obj fields ih =>
    cases old with
    | none => exact same_build serial _
    | some n =>
      cases n with
      | scalar s b => exact same_build serial _
      | array s items => exact same_build serial _
      | object s children =>
        obtain ⟨hd, hp⟩ := Json.proper_obj.1 hv
        refine same_given_object hd (regularTo_given hv hold).2 fun key u hk => ?_
        have hu : (key, u) ∈ fields := Dict.mem_of_get? hk
        exact ih _ hu (hp _ hu) ((hold _ rfl).child.2 key)

end Given

/-! ### Values of changed trees -/

/-- The value of a tree after an attempt to change it. -/
def plain (n : Node) (outcome : Except StoreError (Option Node)) : Except StoreError Json :=
  outcome.map fun o => (o.getD n).toJson

section Plain

variable {serial : Nat} {key : String} {s : Stamp}

theorem write_object (s : Stamp) (children : Dict Node) (key : String) (next : Node) (s' : Stamp) :
    (object s children).toJson.write key next.toJson =
      .ok (object s' (Dict.insert children key next)).toJson := by
  rw [toJson_object, toJson_object, Dict.mapValues_insert]
  rfl

theorem write_array {items : List Node} {i : Nat} {item : Node}
    (hp : ArrayIndex.parse? key = some i) (hi : items[i]? = some item) (s : Stamp) (next : Node)
    (s' : Stamp) :
    (array s items).toJson.write key next.toJson = .ok (array s' (items.set i next)).toJson := by
  have hlt : i < (items.map toJson).length := by
    rw [List.length_map]
    exact (List.getElem?_eq_some_iff.1 hi).1
  rw [toJson_array, toJson_array, List.map_set]
  simp only [Json.write, hp, if_pos hlt]

/-- If the node writes its part as `Json.write` does, then passing on a change of the part is a
    change of its value. -/
theorem plain_pass {n child : Node} {hold : Node → Node}
    (hself : n.toJson.write key child.toJson = .ok n.toJson)
    (hnext : ∀ next, n.toJson.write key next.toJson = .ok (hold next).toJson)
    (outcome : Except StoreError (Option Node)) :
    n.plain (Change.pass key hold outcome) =
      ((child.plain outcome).mapError (.under key)).bind fun u => n.toJson.write key u := by
  rcases outcome with e | _ | next
  · rfl
  · exact hself.symm
  · exact (hnext next).symm

/-- Writing the value of a part into its own place changes nothing. -/
theorem write_self {n child : Node} (hn : n.Regular) (hc : n.child? key = some child) :
    n.toJson.write key child.toJson = .ok n.toJson := by
  cases n with
  | scalar s a => cases hc
  | object s children =>
    rw [write_object s children key child s, Dict.insert_eq_self (regular_object.1 hn).2.1 hc]
  | array s items =>
    obtain ⟨i, hp, hi⟩ := Option.bind_eq_some_iff.1 hc
    obtain ⟨hlt, hget⟩ := List.getElem?_eq_some_iff.1 hi
    rw [write_array hp hi s child s, ← hget, List.set_getElem_self]

/-- An attempt beneath a part is, as to values, an attempt on the value of the part, written into
    the value of the node. -/
theorem plain_attempt {c : Change} {rest : List String} {n child : Node} (hn : n.Regular)
    (hc : n.child? key = some child) (ht : c.takesAway rest = false) :
    n.plain (c.attempt serial (key :: rest) n) =
      ((child.plain (c.attempt serial rest child)).mapError (.under key)).bind fun u =>
        n.toJson.write key u := by
  have hself := write_self hn hc
  cases n with
  | scalar s a => cases hc
  | object s children =>
    rw [Change.attempt_child hc ht]
    exact plain_pass hself (fun next => write_object s children key next (s.bubble serial)) _
  | array s items =>
    obtain ⟨i, hp, hi⟩ := Option.bind_eq_some_iff.1 hc
    rw [Change.attempt_item hp hi ht]
    exact plain_pass hself (fun next => write_array hp hi s next (s.bubble serial)) _

/-- Setting under a key without a part writes the nested value there. -/
theorem plain_setAt_new {v : Json} {rest : List String} {n : Node} (hc : n.child? key = none) :
    n.plain (setAt serial v (key :: rest) n) = n.toJson.write key (Json.nest rest v) := by
  have hnest : Json.nest rest v = (buildPath serial v rest).toJson := by
    rw [buildPath_eq, toJson_build]
  rw [hnest]
  -- A scalar becomes an object, an object gets a key, and an array an item if the position is that
  -- of its end.
  cases n with
  | scalar s a => exact (write_object s [] key _ (.fresh serial)).symm
  | object s children =>
    have hk : Dict.get? children key = none := hc
    rw [write_object s children key _ (s.bubble serial)]
    simp only [setAt, hk]
    rfl
  | array s items =>
    rw [toJson_array, Json.write, List.length_map]
    cases hp : ArrayIndex.parse? key with
    | none =>
      simp only [setAt, hp]
      rfl
    | some i =>
      rw [child?, hp, Option.bind_some] at hc
      have hle := List.getElem?_eq_none_iff.1 hc
      simp only [setAt, hp, hc, if_neg (Nat.not_lt.2 hle)]
      split
      · simp [plain, Except.map, toJson_array]
      · rfl

/-- `setAt` is `Json.put` as to values, of the value or of one that is the same. -/
theorem plain_setAt {v : Json} (hv : v.Proper) (path : List String) {n : Node}
    (hn : n.RegularTo serial) : ∃ u, u.same v = true ∧
      n.plain (setAt serial v path n) = Json.put u path n.toJson := by
  -- Along the path, as long as there is a part; from there on the value is nested.
  induction path generalizing n with
  | nil =>
    have hold : ∀ m, some n = some m → m.RegularTo serial := by
      intro m hm
      cases hm
      exact hn
    exact ⟨(given serial (some n) v).toJson, same_given hv hold, rfl⟩
  | cons key rest ih =>
    have hpart := toJson_child? n key
    cases hc : n.child? key with
    | none =>
      rw [hc] at hpart
      refine ⟨v, Json.same_refl v, ?_⟩
      rw [plain_setAt_new hc, Json.put_of_part?_none hpart]
    | some c =>
      rw [hc] at hpart
      obtain ⟨u, hu, hput⟩ := ih (hn.child? hc)
      refine ⟨u, hu, ?_⟩
      rw [Json.put_of_part?_some hpart, ← hput]
      exact plain_attempt (c := .set v) hn.2 hc rfl

/-- `removeAt` drops what is under a key if the path ends there, and does nothing if there is no
    part. -/
theorem plain_removeAt_drop {rest : List String} {n : Node}
    (h : rest = [] ∨ n.child? key = none) :
    n.plain (removeAt serial (key :: rest) n) = n.toJson.drop key := by
  cases n with
  | scalar s a => rfl
  | object s children =>
    rw [toJson_object, Json.drop, ← Dict.mapValues_erase]
    cases hk : Dict.get? children key with
    | none =>
      simp only [removeAt, hk]
      rw [Dict.erase_eq_self hk, ← toJson_object s]
      rfl
    | some child =>
      obtain rfl : rest = [] := h.resolve_right fun hnone => by cases hk.symm.trans hnone
      simp [removeAt, hk, plain, Except.map, toJson_object]
  | array s items =>
    rw [toJson_array, Json.drop]
    cases hp : ArrayIndex.parse? key with
    | none =>
      simp only [removeAt, hp]
      rfl
    | some i =>
      -- To erase from the values of the items is to erase from the items.
      have herase : (items.map toJson).eraseIdx i = (items.eraseIdx i).map toJson := by
        refine List.ext_getElem? fun j => ?_
        rw [List.getElem?_eraseIdx, List.getElem?_map, List.getElem?_map, List.getElem?_map,
          List.getElem?_eraseIdx]
        split <;> rfl
      cases hi : items[i]? with
      | none =>
        simp only [removeAt, hp, hi]
        rw [herase, List.eraseIdx_of_length_le (List.getElem?_eq_none_iff.1 hi), ← toJson_array s]
        rfl
      | some item =>
        have hc : (array s items).child? key = some item := by
          rw [child?, hp]
          exact hi
        obtain rfl : rest = [] := h.resolve_right fun hnone => by cases hc.symm.trans hnone
        simp [removeAt, hp, hi, plain, Except.map, toJson_array, herase]

/-- `removeAt` is `Json.cut` as to values. -/
theorem plain_removeAt (path : List String) {n : Node} (hn : n.RegularTo serial) :
    n.plain (removeAt serial path n) = Json.cut path n.toJson := by
  induction path generalizing n with
  | nil => rfl
  | cons key rest ih =>
    rw [Json.cut, toJson_child?]
    cases hc : n.child? key with
    | none => exact plain_removeAt_drop (.inr hc)
    | some c =>
      dsimp only [Option.map_some]
      cases rest with
      | nil => exact plain_removeAt_drop (.inl rfl)
      | cons k rest =>
        rw [← ih (hn.child? hc)]
        exact plain_attempt (c := .remove) hn.2 hc rfl

/-- `touchAt` changes no value. -/
theorem plain_touchAt (path : List String) {n : Node} (hn : n.RegularTo serial) :
    n.plain (.ok (touchAt serial path n)) = .ok n.toJson := by
  induction path generalizing n with
  | nil => cases n <;> rfl
  | cons key rest ih =>
    cases hc : n.child? key with
    | none =>
      have hnone : n.descendant? (key :: rest) = none := by rw [descendant?, hc, Option.bind_none]
      rw [touchAt_eq_none hnone]
      rfl
    | some c =>
      have hpart : c.plain (.ok (touchAt serial rest c)) = .ok c.toJson := ih (hn.child? hc)
      refine (plain_attempt (c := .touch) hn.2 hc rfl).trans ?_
      rw [Change.attempt, hpart]
      exact write_self hn.2 hc

end Plain

end Node

namespace Store

/-! ### Requests -/

/-- The value of a store after a change, or why the change was refused. -/
def plain (r : Outcome × Store) : Except StoreError Json := r.1.map fun _ => r.2.value

/-- The requests of a store are changes of its value: of nothing else in the store does it depend
    what that value is after them. -/
structure Refines (s : Store) : Prop where
  /-- Setting puts the value at the end of the path. -/
  set : ∀ path (v : Document),
    Json.SameOutcome (plain (s.set path v.json)) (Json.put v.json path s.value)
  /-- Removing cuts off what is at the end of the path. -/
  remove : ∀ path, plain (s.remove path) = Json.cut path s.value
  /-- Marking changes no value. -/
  touch : ∀ path, (s.touch path).2.value = s.value
  /-- A set that is refused changes nothing. -/
  set_refused : ∀ path (v : Document) e, (s.set path v.json).1 = .error e →
    (s.set path v.json).2.value = s.value
  /-- A removal that is refused changes nothing. -/
  remove_refused : ∀ path e, (s.remove path).1 = .error e → (s.remove path).2.value = s.value
  /-- Stores with equal values have equal values after the same request. -/
  alone : ∀ (clock : Clock) (ops : List Op), s.value.same ((start clock).runAll ops).value →
    ∀ op : Op, (op.run s).value.same (op.run ((start clock).runAll ops)).value
  /-- A value that was set is read at its place. -/
  written : ∀ path (v : Document) b, (s.set path v.json).1 = .ok b →
    Json.SameAt ((s.set path v.json).2.get? path) (some v.json)
  /-- Where the path of the value neither leads nor passes, everything reads as before. -/
  apart : ∀ path (v : Document) b, (s.set path v.json).1 = .ok b →
    ∀ q, ¬ s.value.spelled q <+: s.value.spelled path →
      ¬ s.value.spelled path <+: s.value.spelled q → (s.set path v.json).2.get? q = s.get? q

section Refines

variable {s : Store} {path : List String} {v : Document}

theorem get?_eq (s : Store) (path : List String) : s.get? path = s.value.at? path :=
  (Node.toJson_descendant? s.root path).symm

theorem plain_adopt (s : Store) (outcome : Except StoreError (Option Node)) :
    plain (s.adopt outcome) = s.root.plain outcome := by
  rcases outcome with e | _ | next <;> rfl

/-- `adopt` leaves the value alone if the change failed. -/
theorem value_adopt_error {outcome : Except StoreError (Option Node)} {e : StoreError}
    (h : (s.adopt outcome).1 = .error e) : (s.adopt outcome).2.value = s.value := by
  rcases outcome with e | _ | next
  · rfl
  · cases h
  · cases h

theorem value_openTick (s : Store) : s.openTick.2.value = s.value :=
  congrArg Node.toJson s.root_openTick

/-- In a `Valid` store `set` puts the value, or one that is the same, at the end of the path, or
    fails with the error of `Json.put`. -/
theorem Valid.plain_set (hs : s.Valid) (path : List String) (v : Document) :
    ∃ u, u.same v.json = true ∧ plain (s.set path v.json) = Json.put u path s.value := by
  obtain ⟨u, hu, hput⟩ := Node.plain_setAt v.proper path hs.regularTo_openTick
  refine ⟨u, hu, ?_⟩
  show plain (s.openTick.2.adopt (s.openTick.2.root.setAt s.openTick.1 v.json path)) = _
  rw [plain_adopt, root_openTick, hput]
  rfl

/-- In a `Valid` store `remove` is `Json.cut` of the value, errors included. -/
theorem Valid.plain_remove (hs : s.Valid) (path : List String) :
    plain (s.remove path) = Json.cut path s.value := by
  cases path with
  | nil => rfl
  | cons key rest =>
    show plain (s.openTick.2.adopt (s.openTick.2.root.removeAt s.openTick.1 (key :: rest))) = _
    rw [plain_adopt, root_openTick, Node.plain_removeAt _ hs.regularTo_openTick]
    rfl

/-- In a `Valid` store `touch` changes no value. -/
theorem Valid.value_touch (hs : s.Valid) (path : List String) :
    (s.touch path).2.value = s.value := by
  have hplain := Node.plain_touchAt path hs.regularTo_openTick
  rw [touch]
  split
  · show ((s.openTick.2.root.touchAt s.openTick.1 path).getD s.openTick.2.root).toJson = _
    rw [root_openTick]
    exact Except.ok.inj hplain
  · rfl

/-- A `set` that fails leaves the value alone. -/
theorem value_set_error {e : StoreError} (h : (s.set path v.json).1 = .error e) :
    (s.set path v.json).2.value = s.value :=
  (value_adopt_error h).trans s.value_openTick

/-- A `remove` that fails leaves the value alone. -/
theorem value_remove_error {e : StoreError} (h : (s.remove path).1 = .error e) :
    (s.remove path).2.value = s.value := by
  cases path with
  | nil => rfl
  | cons key rest => exact (value_adopt_error h).trans s.value_openTick

/-- If two requests have the same outcome, and leave the value alone when they fail, then values
    that were the same stay so. -/
theorem same_of_sameOutcome {t : Store} {r r' : Outcome × Store}
    (h : Json.SameOutcome (plain r) (plain r')) (hst : s.value.same t.value = true)
    (hr : ∀ e, r.1 = .error e → r.2.value = s.value)
    (hr' : ∀ e, r'.1 = .error e → r'.2.value = t.value) : r.2.value.same r'.2.value = true := by
  obtain ⟨a, s'⟩ := r
  obtain ⟨b, t'⟩ := r'
  -- Both requests fail or neither does.
  cases a with
  | error e =>
    cases b with
    | ok y => cases h
    | error e' =>
      have hs' : s'.value = s.value := hr e rfl
      have ht' : t'.value = t.value := hr' e' rfl
      show s'.value.same t'.value = true
      rw [hs', ht']
      exact hst
  | ok x =>
    cases b with
    | error e' => cases h
    | ok y =>
      cases h with
      | ok h => exact h

/-- Valid stores with the same value have the same value after the same request, whatever their
    serials and ticks. -/
theorem Valid.same_run (hs : s.Valid) {t : Store} (ht : t.Valid)
    (h : s.value.same t.value = true) (op : Op) :
    (op.run s).value.same (op.run t).value = true := by
  cases op with
  | set path v =>
    -- Both set a value that is the same as `v`, so the two are the same as well.
    obtain ⟨u, hu, hput⟩ := hs.plain_set path v
    obtain ⟨u', hu', hput'⟩ := ht.plain_set path v
    refine same_of_sameOutcome ?_ h (fun e => value_set_error) (fun e => value_set_error)
    rw [hput, hput']
    exact Json.sameOutcome_put (Json.same_trans hu (Json.same_symm hu')) path h
  | remove path =>
    refine same_of_sameOutcome ?_ h (fun e => value_remove_error) (fun e => value_remove_error)
    rw [hs.plain_remove, ht.plain_remove]
    exact Json.sameOutcome_cut path h
  | touch path =>
    rw [Op.run, Op.run, hs.value_touch, ht.value_touch]
    exact h
  | _ => exact h

/-- If `set` succeeds, then `Json.put` does, with the value of the store afterwards. -/
theorem Valid.put_of_set (hs : s.Valid) {b : Bool} (h : (s.set path v.json).1 = .ok b) :
    ∃ u, u.same v.json = true ∧
      Json.put u path s.value = .ok (s.set path v.json).2.value := by
  obtain ⟨u, hu, hput⟩ := hs.plain_set path v
  refine ⟨u, hu, ?_⟩
  rw [← hput, plain, h]
  rfl

/-- A `Valid` store satisfies `Refines`. -/
theorem Valid.refines (hs : s.Valid) : s.Refines where
  set := by
    intro path v
    obtain ⟨u, hu, hput⟩ := hs.plain_set path v
    rw [hput]
    exact Json.sameOutcome_put hu path (Json.same_refl _)
  remove := hs.plain_remove
  touch := hs.value_touch
  set_refused := fun path v e h => value_set_error h
  remove_refused := fun path e h => value_remove_error h
  -- Any other store that a run comes to has the same values, whatever its stamps.
  alone := by
    intro clock ops h op
    exact hs.same_run (later_runAll (valid_start clock) ops).valid h op
  written := by
    intro path v b h
    obtain ⟨u, hu, hput⟩ := hs.put_of_set h
    rw [get?_eq, Json.at?_put_self hput]
    exact .values hu
  apart := by
    intro path v b h q hq hp
    obtain ⟨u, -, hput⟩ := hs.put_of_set h
    rw [get?_eq, get?_eq, Json.at?_put_apart hput hq hp]

end Refines

/-- **A store refines its plain value.**  After any requests, on any clock, `set`, `remove` and
    `touch` do to the value of the store what `Json.put` and `Json.cut` do, with the same errors;
    what was set is read back and everything apart from it reads as before; and no serial or tick
    has any influence on it. -/
theorem refines_runAll (clock : Clock) (ops : List Op) : ((start clock).runAll ops).Refines :=
  (later_runAll (valid_start clock) ops).valid.refines

end Store

end Observatory

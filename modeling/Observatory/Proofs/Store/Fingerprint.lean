import Observatory.Proofs.Store.Serials

/-!
# Equal stamps

A reader that compares stamps takes a node with the stamp that it saw for the node that it saw.
This is right as long as the node stays where it is: whatever a change puts at a path either
stood there before or carries the serial of the change, and serials do not come back once a
reader has looked.  It is wrong when an item is removed from an array: the items behind it move
down, each with the stamp that it had, and nothing tells the one that comes to a position from
the one that was there.

* `Node.moves`: whether a removal brings another item to a position on the way along a path;
* `Node.Change.traced`: what a change puts at a path;
* `Store.Steady`: requests that bring no other item to a position on the way;
* `Store.eq_of_stamp_eq`: equal stamps mean equal nodes, if the requests in between were steady;
* `Store.stamp_eq_of_moved`: equal stamps of two items that are different.
-/

namespace Observatory

namespace Node

/-- Whether removing what stands at the first path brings another item of an array to a position on
    the way along the second one. -/
def moves : List String → List String → Node → Bool
  | key :: rest, k :: path, object _ children =>
    key = k && (Dict.get? children key).any (moves rest path)
  | key :: rest, k :: path, array _ xs =>
    match ArrayIndex.parse? key, ArrayIndex.parse? k with
    | some i, some j =>
      -- The item that goes leaves its position and all behind it to others.
      if rest.isEmpty then i ≤ j && j + 1 < xs.length
      else i = j && xs[i]?.any (moves rest path)
    | _, _ => false
  | _, _, _ => false

theorem moves_here {key k : String} {path : List String} {s : Stamp} {xs : List Node} {i j : Nat}
    (hi : ArrayIndex.parse? key = some i) (hj : ArrayIndex.parse? k = some j) (hle : i ≤ j)
    (hlt : j + 1 < xs.length) : moves [key] (k :: path) (array s xs) = true := by
  simp [moves, hi, hj, hle, hlt]

theorem moves_child {key : String} {rest path : List String} {s : Stamp} {children : Dict Node}
    {child : Node} (hk : Dict.get? children key = some child) (h : moves rest path child = true) :
    moves (key :: rest) (key :: path) (object s children) = true := by
  simp [moves, hk, h]

theorem moves_item {key k : String} {rest path : List String} {s : Stamp} {xs : List Node} {i : Nat}
    {item : Node} (hi : ArrayIndex.parse? key = some i) (hk : ArrayIndex.parse? k = some i)
    (hx : xs[i]? = some item) (h : moves rest path item = true) :
    moves (key :: rest) (k :: path) (array s xs) = true := by
  cases rest with
  | nil => cases item <;> cases h
  | cons => simp [moves, hi, hk, hx, h]

section Traced

variable {serial : Nat} {m : Node}

/-- Everything in `build serial v` has `serial` as its child serial. -/
theorem childSerial_of_build {v : Json} {path : List String}
    (h : (build serial v).descendant? path = some m) : m.childSerial = serial := by
  have hmarked : Marked serial none m := marked_build h
  rcases hmarked.beneath with he | ⟨_, _, hnone, _⟩
  · exact he
  · cases hnone

/-- A part of a node that was `given` a value is a part of a new tree, or was itself given a part
    of the value. -/
theorem child?_given {v : Json} (hv : v.Proper) {n c : Node} {key : String}
    (hc : (given serial (some n) v).child? key = some c) :
    (build serial v).child? key = some c ∨
      ∃ u, u.Proper ∧ c = given serial (n.child? key) u := by
  -- Where the kinds differ the tree is built anew; where they agree the parts are given theirs.
  cases v with
  | scalar b =>
    cases n with
    | scalar s a =>
      exfalso
      rw [given, assign] at hc
      split at hc <;> cases hc
    | object s children => cases hc
    | array s items => cases hc
  | obj fields =>
    cases n with
    | object s children =>
      obtain ⟨s', next, hgiven, -, hnext⟩ := given_object serial s children fields
      rw [hgiven, child?, hnext] at hc
      obtain ⟨u, hu, rfl⟩ := Option.map_eq_some_iff.1 hc
      exact .inr ⟨u, (Json.proper_obj.1 hv).2 _ (Dict.mem_of_get? hu), rfl⟩
    | scalar s a => exact .inl hc
    | array s items => exact .inl hc
  | arr values =>
    cases n with
    | array s items =>
      obtain ⟨s', next, hgiven, -, hnext⟩ := given_array serial s items values
      rw [hgiven, child?] at hc
      obtain ⟨i, hi, hc⟩ := Option.bind_eq_some_iff.1 hc
      rw [hnext] at hc
      obtain ⟨u, hu, rfl⟩ := Option.map_eq_some_iff.1 hc
      refine .inr ⟨u, (Json.proper_arr.1 hv).2 u (List.mem_of_getElem? hu), ?_⟩
      rw [child?, hi]
      rfl
    | scalar s a => exact .inl hc
    | object s children => exact .inl hc

/-- What is found along a path in a place that was `given` a value stood there before, or has the
    serial of the change as its child serial. -/
theorem traced_given {v : Json} (hv : v.Proper) {old : Option Node}
    (hold : ∀ n, old = some n → n.RegularTo serial) {path : List String}
    (hm : (given serial old v).descendant? path = some m) :
    m.childSerial = serial ∨ old.bind (·.descendant? path) = some m := by
  induction path generalizing v old with
  | nil =>
    cases hm
    cases old with
    | none => exact .inl (childSerial_build serial v)
    | some n =>
      have hedit : Edit serial (some n) (given serial (some n) v) := by
        rw [← Change.apply_set_nil]
        exact edit_apply (fun w hw => by cases hw; exact hv) [] n
      rcases hedit.childSerial_eq (hold n rfl) with he | he
      · exact .inr (congrArg some he.symm)
      · exact .inl he
  | cons key rest ih =>
    cases old with
    | none => exact .inl (childSerial_of_build hm)
    | some n =>
      obtain ⟨c, hc, hrest⟩ := Option.bind_eq_some_iff.1 hm
      -- The part was built, and all of it has the serial, or it was given a value and the path
      -- goes on in it.
      rcases child?_given hv hc with hbuilt | ⟨u, hu, rfl⟩
      · have hm' : (build serial v).descendant? (key :: rest) = some m := by
          rw [descendant?, hbuilt]
          exact hrest
        exact .inl (childSerial_of_build hm')
      · exact ih hu (fun _ hn => (hold n rfl).child? hn) hrest

/-- What is found along a path after a change of the whole tree stood there before, or has the
    serial of the change as its child serial. -/
theorem Change.traced_nil {c : Change} (hc : ∀ v, c = .set v → v.Proper) {n : Node}
    (hn : n.RegularTo serial) {path : List String}
    (hm : (c.apply serial [] n).descendant? path = some m) :
    m.childSerial = serial ∨ n.descendant? path = some m := by
  cases c with
  | set v =>
    rw [Change.apply_set_nil] at hm
    have hold : ∀ o, some n = some o → o.RegularTo serial := by
      rintro o ⟨⟩
      exact hn
    exact traced_given (hc v rfl) hold hm
  | remove => exact .inr hm
  | touch =>
    change (n.renew serial).descendant? path = some m at hm
    cases path with
    | nil =>
      cases hm
      refine .inl ?_
      have hmax : max n.childSerial serial = serial := Nat.max_eq_right hn.1
      cases n <;> exact hmax
    | cons key rest =>
      -- The parts of a node that is marked are as they were.
      have hchild : (n.renew serial).child? key = n.child? key := by cases n <;> rfl
      rw [descendant?, hchild] at hm
      exact .inr hm

/-- Everything in what a change puts where nothing was has its serial as child serial. -/
theorem Change.childSerial_of_put_none {c : Change} {rest path : List String} {n : Node}
    (hput : c.put serial rest none = some n) (hm : n.descendant? path = some m) :
    m.childSerial = serial := by
  cases c with
  | set v =>
    cases hput
    exact childSerial_of_build hm
  | remove => cases hput
  | touch => cases hput

/-- After the removal of an item, what is at a position of the array was there before, or `moves`
    holds for every path through the position. -/
theorem Change.child?_remove_item {key k : String} {s : Stamp} {xs : List Node} {part : Node}
    (h : (Change.remove.apply serial [key] (array s xs)).child? k = some part) :
    (array s xs).child? k = some part ∨
      ∀ path, moves [key] (k :: path) (array s xs) = true := by
  rw [apply_remove_item] at h
  split at h
  · next i hi =>
    obtain ⟨hkey, -⟩ := Option.filter_eq_some_iff.1 hi
    obtain ⟨j, hj, hpart⟩ := Option.bind_eq_some_iff.1 h
    -- In front of the item nothing moves, and behind it everything does.
    rw [List.getElem?_eraseIdx] at hpart
    split at hpart
    · refine .inl ?_
      rw [child?, hj]
      exact hpart
    · next hge =>
      have hlt := (List.getElem?_eq_some_iff.1 hpart).1
      exact .inr fun path => moves_here hkey hj (Nat.le_of_not_lt hge) hlt
  · exact .inl h

/-- After a change that takes no item away, what is at a position of the array was there before, or
    is new, or is the item that the change went through. -/
theorem Change.child?_apply_array {c : Change} {key k : String} {rest : List String} {s : Stamp}
    {xs : List Node} {part : Node} (ht : c.takesAway rest = false)
    (h : (c.apply serial (key :: rest) (array s xs)).child? k = some part) :
    (array s xs).child? k = some part ∨ c.put serial rest none = some part ∨
      ∃ i item, ArrayIndex.parse? key = some i ∧ ArrayIndex.parse? k = some i ∧
        xs[i]? = some item ∧ c.apply serial rest item = part := by
  obtain ⟨s', -, happly⟩ := apply_array serial key ht s xs
  rw [happly, child?] at h
  obtain ⟨j, hj, hpart⟩ := Option.bind_eq_some_iff.1 h
  -- Positions that the change does not reach have the item of before.
  have hsame : xs[j]? = some part → (array s xs).child? k = some part := by
    intro hx
    rw [child?, hj]
    exact hx
  unfold items at hpart
  split at hpart
  · exact .inl (hsame hpart)
  · next i hi =>
    split at hpart
    · by_cases hij : i = j
      · subst hij
        rw [List.getElem?_modify_eq] at hpart
        obtain ⟨item, hx, he⟩ := Option.map_eq_some_iff.1 hpart
        exact .inr (.inr ⟨i, item, hi, hj, hx, he⟩)
      · rw [List.getElem?_modify_ne _ _ hij] at hpart
        exact .inl (hsame hpart)
    · split at hpart
      · rw [List.getElem?_append] at hpart
        split at hpart
        · exact .inl (hsame hpart)
        · exact .inr (.inl (Option.mem_toList.1 (List.mem_of_getElem? hpart)))
      · exact .inl (hsame hpart)

/-- What is found along a path after a change stood there before, or has the serial of the change
    as its child serial, or the change is a removal that `moves` another item to a position on the
    way. -/
theorem Change.traced {c : Change} (hc : ∀ v, c = .set v → v.Proper) {changed path : List String}
    {n : Node} (hn : n.RegularTo serial)
    (hm : (c.apply serial changed n).descendant? path = some m) :
    m.childSerial = serial ∨ n.descendant? path = some m ∨
      c = .remove ∧ moves changed path n = true := by
  induction changed generalizing path n with
  | nil => exact (traced_nil hc hn hm).imp_right Or.inl
  | cons key rest ih =>
    cases path with
    | nil =>
      cases hm
      rcases (edit_apply hc (key :: rest) n).childSerial_eq hn with he | he
      · exact .inr (.inl (congrArg some he.symm))
      · exact .inl he
    -- The path takes one step with the change, or turns away from it at this node.
    | cons k path =>
      obtain ⟨part, hpart, hrest⟩ := Option.bind_eq_some_iff.1 hm
      -- What is under another key or position is as it was.
      have hsame : n.child? k = some part → m.childSerial = serial ∨
          n.descendant? (k :: path) = some m ∨ c = .remove ∧
            moves (key :: rest) (k :: path) n = true := by
        intro h
        refine .inr (.inl ?_)
        rw [descendant?, h]
        exact hrest
      cases n with
      | scalar s a =>
        rw [apply_scalar] at hpart
        cases hput : c.put serial (key :: rest) none with
        | none =>
          rw [hput] at hpart
          exact hsame hpart
        | some built =>
          rw [hput] at hpart
          have hm' : built.descendant? (k :: path) = some m := by
            rw [descendant?, show built.child? k = some part from hpart]
            exact hrest
          exact .inl (childSerial_of_put_none hput hm')
      | object s children =>
        obtain ⟨s', next, happly, -, hnext⟩ := c.apply_object serial key rest s children
        rw [happly, child?, hnext] at hpart
        split at hpart
        · next hk =>
          subst hk
          cases hchild : Dict.get? children key with
          | none =>
            rw [hchild] at hpart
            exact .inl (childSerial_of_put_none hpart hrest)
          | some child =>
            rw [hchild] at hpart
            have ht : c.takesAway rest = false := by
              rw [← Bool.not_eq_true]
              intro ht
              rw [put, if_pos ht] at hpart
              cases hpart
            rw [c.put_some ht] at hpart
            cases hpart
            rcases ih (hn.child.2 key child hchild) hrest with he | he | ⟨he, hmoves⟩
            · exact .inl he
            · refine .inr (.inl ?_)
              rw [descendant?, child?, hchild]
              exact he
            · exact .inr (.inr ⟨he, moves_child hchild hmoves⟩)
        · exact hsame hpart
      -- Only in an array can another node come to the place, by the removal of an item.
      | array s xs =>
        cases ht : c.takesAway rest with
        | true =>
          obtain ⟨rfl, rfl⟩ := eq_remove_of_takesAway ht
          rcases child?_remove_item hpart with h | h
          · exact hsame h
          · exact .inr (.inr ⟨rfl, h path⟩)
        | false =>
          rcases child?_apply_array ht hpart with h | hput | ⟨i, item, hi, hk, hx, rfl⟩
          · exact hsame h
          · exact .inl (childSerial_of_put_none hput hrest)
          · rcases ih (hn.item.2 i item hx) hrest with he | he | ⟨he, hmoves⟩
            · exact .inl he
            · refine .inr (.inl ?_)
              rw [descendant?, child?, hk, Option.bind_some, hx]
              exact he
            · exact .inr (.inr ⟨he, moves_item hi hk hx hmoves⟩)

end Traced

end Node

namespace Store

/-- Whether a request brings another item of an array to a position on the way along a path.  Only
    a removal can. -/
def Op.moves (s : Store) (path : List String) : Op → Bool
  | remove removed => Node.moves removed path s.root
  | _ => false

/-- No request of the run brings another item to a position on the way along the path, when it is
    made. -/
def Steady (path : List String) (s : Store) : List Op → Prop
  | [] => True
  | op :: rest => op.moves s path = false ∧ Steady path (op.run s) rest

section Runs

variable {s : Store} {path : List String} {m : Node}

/-- `Change.traced` for a request: what is found along the path stood there before or has the
    serial of the tick, if the request moves nothing on the way. -/
theorem traced_run (hs : s.Valid) {op : Op} (hop : op.moves s path = false)
    (hm : (op.run s).node? path = some m) :
    m.childSerial = s.openTick.1 ∨ s.node? path = some m := by
  rw [node?, root_run] at hm
  -- Only a removal can move anything, and this one does not, by hypothesis.
  cases op with
  | set changed v =>
    have hc : ∀ w, Node.Change.set v.json = .set w → w.Proper := by
      rintro _ ⟨⟩
      exact v.proper
    rcases Node.Change.traced hc hs.regularTo_openTick hm with he | he | ⟨he, -⟩
    · exact .inl he
    · exact .inr he
    · cases he
  | remove removed =>
    have hc : ∀ w, Node.Change.remove = .set w → w.Proper := by
      rintro _ ⟨⟩
    rcases Node.Change.traced hc hs.regularTo_openTick hm with he | he | ⟨-, hmoves⟩
    · exact .inl he
    · exact .inr he
    · exact absurd (hop.symm.trans hmoves) Bool.false_ne_true
  | touch touched =>
    have hc : ∀ w, Node.Change.touch = .set w → w.Proper := by
      rintro _ ⟨⟩
    rcases Node.Change.traced hc hs.regularTo_openTick hm with he | he | ⟨he, -⟩
    · exact .inl he
    · exact .inr he
    · cases he
  | _ => exact .inr hm

/-- The next change is stamped later than what is `Past`. -/
theorem Past.lt_openTick {seen : Nat} (h : s.Past seen) : seen < s.openTick.1 := by
  unfold openTick
  split
  · next t ht => exact h.tick t ht
  · exact Nat.lt_succ_of_le h.clock

/-- What is found along the path after `Steady` requests stood there before, or has a child serial
    later than what was `Past` then. -/
theorem traced_runAll (hs : s.Valid) {seen : Nat} (hp : s.Past seen) {ops : List Op}
    (h : Steady path s ops) (hm : (s.runAll ops).node? path = some m) :
    seen < m.childSerial ∨ s.node? path = some m := by
  induction ops generalizing s with
  | nil => exact .inr hm
  | cons op rest ih =>
    obtain ⟨hop, hrest⟩ := h
    have hl := later_run hs op
    rcases ih hl.valid (hl.past seen hp) hrest hm with hlt | hnode
    · exact .inl hlt
    · rcases traced_run hs hop hnode with he | hold
      · exact .inl (he ▸ hp.lt_openTick)
      · exact .inr hold

/-- **Equal stamps mean equal nodes**, as long as nothing moves.  Let the tick be closed at some
    moment of a run, and let the requests after it be `Steady` along a path.  If there is a node at
    the path then and later, with the same stamp, then it is the same node, with all that is
    beneath it. -/
theorem eq_of_stamp_eq (clock : Clock) (before after : List Op) (path : List String) {n m : Node}
    (hclosed : ((start clock).runAll before).tick = none)
    (hsteady : Steady path ((start clock).runAll before) after)
    (hn : ((start clock).runAll before).node? path = some n)
    (hm : (((start clock).runAll before).runAll after).node? path = some m)
    (he : n.stamp = m.stamp) : n = m := by
  have hs : ((start clock).runAll before).Valid := (later_runAll (valid_start clock) before).valid
  rcases traced_runAll hs (past_of_tick_none hclosed) hsteady hm with hlt | hnode
  · -- A later stamp is not the one that was there.
    have hle : n.childSerial ≤ _ := (hs.root.descendant? hn).1
    have hserial : n.childSerial = m.childSerial := congrArg Stamp.childSerial he
    omega
  · exact Option.some.inj (hn.symm.trans hnode)

end Runs

/-- A list of two texts. -/
def pair : Document where
  json := .arr [.str "x", .str "y"]
  proper := by
    refine Json.proper_arr.2 ⟨by decide, ?_⟩
    intro v hv
    rcases List.mem_cons.1 hv with rfl | hv
    · exact Json.proper_scalar _
    · cases List.mem_singleton.1 hv
      exact Json.proper_scalar _

/-- `eq_of_stamp_eq` for the first of two texts, when the second one is removed. -/
theorem eq_of_stamp_eq_pair :
    ((start {}).runAll [.set ["a"] pair, .closeTick]).tick = none ∧
    Steady ["a", "0"] ((start {}).runAll [.set ["a"] pair, .closeTick]) [.remove ["a", "1"]] ∧
    ∃ n m, ((start {}).runAll [.set ["a"] pair, .closeTick]).node? ["a", "0"] = some n ∧
      (((start {}).runAll [.set ["a"] pair, .closeTick]).runAll [.remove ["a", "1"]]).node?
        ["a", "0"] = some m ∧ n.stamp = m.stamp ∧ n = m := by
  have hsteady : Steady ["a", "0"] ((start {}).runAll [.set ["a"] pair, .closeTick])
      [.remove ["a", "1"]] := ⟨by decide, trivial⟩
  exact ⟨rfl, hsteady, _, _, rfl, rfl, rfl, eq_of_stamp_eq {} _ _ _ rfl hsteady rfl rfl rfl⟩

/-- Without `Steady` it fails: if the first of two texts is removed, the second one takes its place
    with the same stamp, though both moments have the tick closed. -/
theorem stamp_eq_of_moved :
    ((start {}).runAll [.set ["a"] pair, .closeTick]).tick = none ∧
    ((start {}).runAll [.set ["a"] pair, .closeTick, .remove ["a", "0"], .closeTick]).tick = none ∧
    ∃ n m, ((start {}).runAll [.set ["a"] pair, .closeTick]).node? ["a", "0"] = some n ∧
      ((start {}).runAll [.set ["a"] pair, .closeTick, .remove ["a", "0"], .closeTick]).node?
        ["a", "0"] = some m ∧ n.stamp = m.stamp ∧ n.toJson ≠ m.toJson := by
  refine ⟨rfl, rfl, _, _, rfl, rfl, rfl, ?_⟩
  intro h
  injection h with h
  injection h with h
  exact absurd h (by decide)

end Store

end Observatory

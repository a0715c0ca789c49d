import Observatory.Proofs.Store.Advance
import Observatory.Proofs.Store.Alike

/-!
# Hidden changes, and what a reader is told

A change is hidden from a reader if its path goes beneath a key that the whitelist keeps back.
It leaves the tree like itself, and what a reader is told depends on nothing that trees that
are alike do not share.

* `Node.ruleAt`, `Node.Hidden`: the rule that a path leads to, and the paths beneath a key that
  it rejects;
* `Node.alike_hidden`: a hidden change leaves a tree like itself;
* `Cursor.materialize_alike`: trees that are alike are spelled out alike;
* `Cursor.told_alike`: and a reader who saw them alike is told the same of them.
-/

namespace Observatory

namespace Node

/-! ### Hidden paths -/

/-- The rule that a path leads to from a node with the rule `w`.  The key of an object goes on to
    the rule for the key, and the position of an item keeps the rule of the array. -/
def ruleAt : Whitelist → Node → List String → Whitelist
  | w, _, [] => w
  | w, n, key :: rest =>
    let rule := (Cursor.partRule? w n key).getD .nothing
    match n.child? key with
    | some c => ruleAt rule c rest
    | none => rule

/-- The path leads to an object, goes on with a key that the rule there rejects, and ends there or
    anywhere beneath. -/
def Hidden (w : Whitelist) (n : Node) (path : List String) : Prop :=
  ∃ q k r s children, path = q ++ k :: r ∧ n.descendant? q = some (.object s children) ∧
    (ruleAt w n q).accepts k = false

theorem getD_partRule?_array (w : Whitelist) (s : Stamp) (items : List Node) (key : String) :
    (Cursor.partRule? w (array s items) key).getD .nothing = w := by
  cases w <;> rfl

/-- A change at or beneath a rejected key of an object leaves the object `Alike` itself. -/
theorem alike_rejected (a : Nat) (c : Change) (t : Nat) {w : Whitelist} {k : String}
    (hk : w.accepts k = false) (r : List String) (s : Stamp) (children : Dict Node) :
    Alike a a w (some (object s children)) (some (c.apply t (k :: r) (object s children))) := by
  obtain ⟨s', next, happly, hs, hget⟩ := c.apply_object t k r s children
  rw [happly]
  refine .object (by rw [hs]) fun key rule hr => ?_
  have hne : k ≠ key := by
    rintro rfl
    rw [Whitelist.accepts, hr] at hk
    cases hk
  rw [hget, if_neg hne]
  exact .refl a rule _

/-- A change at or beneath a rejected key of the object at a path leaves the whole tree `Alike`
    itself. -/
theorem alike_beneath (a : Nat) (c : Change) (t : Nat) (k : String) (r : List String)
    {q : List String} {w : Whitelist} {n : Node} {s : Stamp} {children : Dict Node}
    (hq : n.descendant? q = some (object s children)) (hk : (ruleAt w n q).accepts k = false) :
    Alike a a w (some n) (some (c.apply t (q ++ k :: r) n)) := by
  induction q generalizing n w with
  | nil =>
    cases hq
    exact alike_rejected a c t hk r s children
  | cons key q ih =>
    rw [descendant?] at hq
    obtain ⟨m, hm, hpath⟩ := Option.bind_eq_some_iff.1 hq
    rw [ruleAt, hm] at hk
    have hmore : c.takesAway (q ++ k :: r) = false := by
      cases c <;> cases q <;> rfl
    cases n with
    | scalar s' v => cases hm
    | object s' cs =>
      obtain ⟨s'', next, happly, hs, hget⟩ := c.apply_object t key (q ++ k :: r) s' cs
      show Alike a a w _ (some (c.apply t (key :: (q ++ k :: r)) _))
      rw [happly]
      refine .object (by rw [hs]) fun key' rule hr => ?_
      rw [hget]
      split
      · next he =>
        -- The child on the path passes, so the rule goes on with the rule for it.
        subst he
        have hchild : Dict.get? cs key = some m := hm
        rw [hchild, c.put_some hmore]
        rw [Cursor.partRule?_object, hr] at hk
        exact ih hpath hk
      · exact .refl a rule _
    | array s' xs =>
      rw [getD_partRule?_array] at hk
      obtain ⟨s'', hs, happly⟩ := c.apply_array t key hmore s' xs
      show Alike a a w _ (some (c.apply t (key :: (q ++ k :: r)) _))
      rw [happly]
      refine .array (by rw [hs]) fun j => ?_
      obtain ⟨i, hp, hi⟩ := Option.bind_eq_some_iff.1 hm
      have hlt := (List.getElem?_eq_some_iff.1 hi).1
      rw [Change.items, hp]
      dsimp only
      rw [if_pos hlt, List.getElem?_modify]
      by_cases hj : i = j
      · subst hj
        rw [hi]
        simpa using ih hpath hk
      · simpa [hj] using Alike.refl a w xs[j]?

/-- A `Hidden` change leaves the tree `Alike` itself, whenever the look was and whatever the serial
    of the change is. -/
theorem alike_hidden {w : Whitelist} {n : Node} {path : List String} (h : Hidden w n path)
    (a : Nat) (c : Change) (t : Nat) : Alike a a w (some n) (some (c.apply t path n)) := by
  obtain ⟨q, k, r, s, children, rfl, hq, hk⟩ := h
  exact alike_beneath a c t k r hq hk

end Node

namespace Cursor

open Node (Alike Since)

/-! ### Trees spelled out -/

/-- Trees that are `Alike` are spelled out to the same difference. -/
theorem materialize_alike {a b : Nat} {w : Whitelist} {o p : Option Node} (h : Alike a b w o p)
    (ho : ∀ n, o = some n → n.Regular) (hp : ∀ n, p = some n → n.Regular) :
    o.map (materialize w) = p.map (materialize w) := by
  -- Only the stamps differ, and those are not spelled out.
  induction h with
  | nowhere => rfl
  | scalar hf => rfl
  | @object w s t cs ds hf h ih =>
    obtain ⟨-, hcs, hc⟩ := Node.regular_object.1 (ho _ rfl)
    obtain ⟨-, hds, hd⟩ := Node.regular_object.1 (hp _ rfl)
    have hchildren : materializeChildren w cs = materializeChildren w ds := by
      rw [materializeChildren_eq, materializeChildren_eq]
      refine Dict.ext (Dict.sorted_select hcs _) (Dict.sorted_select hds _) fun key => ?_
      rw [Dict.get?_select hcs.nodup_keys, Dict.get?_select hds.nodup_keys]
      cases hr : w.child? key with
      | none => simp
      | some rule =>
        have hmap := ih key rule hr (fun n hn => (hc key n hn).2) (fun n hn => (hd key n hn).2)
        have hbind : ∀ o : Option Node, (o.bind fun n => (some rule).map fun r =>
            materialize r n) = o.map (materialize rule) := by
          intro o
          cases o <;> rfl
        rw [hbind, hbind, hmap]
    rw [Option.map_some, Option.map_some, materialize, materialize, hchildren]
  | @array w s t xs ys hf h ih =>
    obtain ⟨-, -, hx⟩ := Node.regular_array.1 (ho _ rfl)
    obtain ⟨-, -, hy⟩ := Node.regular_array.1 (hp _ rfl)
    have hitems : materializeItems w xs = materializeItems w ys := by
      rw [materializeItems_eq, materializeItems_eq]
      refine List.ext_getElem? fun i => ?_
      rw [List.getElem?_map, List.getElem?_map]
      exact ih i (fun n hn => (hx i n hn).2) (fun n hn => (hy i n hn).2)
    rw [Option.map_some, Option.map_some, materialize, materialize, hitems]

/-! ### What a reader is told of a place -/

/-- What a reader who saw `old` at a place is told of what stands there now: a difference or none,
    if there is a node. -/
def told (w : Whitelist) (old new : Option Node) : Option (Option Diff) :=
  new.map fun n => (advance w n (recordOf w old)).2

/-- `changes` of `Sorted` moves are `Sorted`. -/
theorem sorted_changes {parts : Dict Progress} (h : Dict.Sorted parts) :
    Dict.Sorted (changes parts) := by
  rw [changes_eq]
  exact Dict.sorted_select h _

/-- `changes` has no other keys than the moves. -/
theorem keys_changes_subset {parts : Dict Progress} {key : String}
    (h : key ∈ Dict.keys (changes parts)) : key ∈ Dict.keys parts := by
  rw [changes_eq] at h
  exact (Dict.keys_select_sublist _ _).subset h

/-- The change under a key is what the reader is told of the child there, by the rule for the
    key. -/
theorem get?_changes_childMoves {w : Whitelist} {children next : Dict Node}
    (hnew : Dict.Sorted next) (key : String) :
    Dict.get? (changes (childMoves w children next)) key = (w.child? key).bind fun rule =>
      (told rule (Dict.get? children key) (Dict.get? next key)).join := by
  rw [changes_eq, Dict.get?_select (sorted_childMoves hnew).nodup_keys, get?_childMoves hnew]
  cases Dict.get? next key <;> cases w.child? key <;> rfl

/-- `itemMoves` is `Sorted`. -/
theorem sorted_itemMoves (w : Whitelist) (s : Stamp) (items next : List Node) :
    Dict.Sorted (itemMoves w s items next) := Dict.sorted_ofPairs _

/-- The change under the spelling of a position is what the reader is told of the item there. -/
theorem get?_changes_itemMoves {w : Whitelist} (hw : w ≠ .nothing) (s : Stamp)
    (items next : List Node) (i : Nat) :
    Dict.get? (changes (itemMoves w s items next)) (ArrayIndex.text i) =
      (told w items[i]? next[i]?).join := by
  rw [changes_eq, Dict.get?_select (sorted_itemMoves w s items next).nodup_keys, get?_itemMoves hw,
    told]
  cases next[i]? <;> rfl

/-- If the same is told at every position of two arrays, then they give the same changes. -/
theorem changes_itemMoves_ext {w : Whitelist} (hw : w ≠ .nothing) {s t : Stamp}
    {xs xs' ys ys' : List Node} (h : ∀ i : Nat, told w xs[i]? xs'[i]? = told w ys[i]? ys'[i]?) :
    changes (itemMoves w s xs xs') = changes (itemMoves w t ys ys') := by
  refine Dict.ext (sorted_changes (sorted_itemMoves w s xs xs'))
    (sorted_changes (sorted_itemMoves w t ys ys')) fun key => ?_
  by_cases hkey : ∃ i, key = ArrayIndex.text i
  · obtain ⟨i, rfl⟩ := hkey
    rw [get?_changes_itemMoves hw, get?_changes_itemMoves hw, h]
  · -- The keys of an array are positions.
    have hnone : ∀ (s : Stamp) (xs xs' : List Node),
        Dict.get? (changes (itemMoves w s xs xs')) key = none := by
      intro s xs xs'
      refine Dict.get?_eq_none_iff.2 fun hmem => ?_
      obtain ⟨i, hi, -⟩ := mem_keys_itemMoves (keys_changes_subset hmem)
      exact hkey ⟨i, hi⟩
    rw [hnone, hnone]

/-! ### Trees that were not renewed -/

/-- The reader saw `old` at the place when the clock stood at `seen`, and `new` has come of it by
    changes `Since seen`. -/
structure Came (seen : Nat) (old new : Option Node) : Prop where
  covered : ∀ n, old = some n → n.RegularTo seen
  since : ∀ n, new = some n → Since seen old n
  regular : ∀ n, new = some n → n.Regular

section Came

variable {seen : Nat} {w : Whitelist} {old : Option Node}

/-- A tree that was renewed since the look is spelled out to the reader, whatever it saw. -/
theorem advance_renewed {new : Node} (h : Came seen old (some new)) (hlt : seen < new.serial) :
    (advance w new (recordOf w old)).2 = some (materialize w new) := by
  cases old with
  | none => rw [recordOf, advance_unseen]
  | some n =>
    -- The old tree was not stamped later than `seen`, and the new one was.
    have hle : n.serial ≤ seen := (h.covered n rfl).serial_le
    have hne : new.serial ≠ n.serial := by omega
    rw [recordOf, advance_of_serial_ne (stamp_capture w n) hne]

/-- Of a scalar that was not renewed since the look nothing is told. -/
theorem advance_settled_scalar {s : Stamp} {v : Scalar} (h : Came seen old (some (.scalar s v)))
    (hle : s.serial ≤ seen) : (advance w (.scalar s v) (recordOf w old)).2 = none := by
  cases h.since _ rfl with
  | same => rw [recordOf, advance_of_stamp_eq (stamp_capture w _)]
  | renewed hlt => exact absurd hlt (Nat.not_lt.2 hle)

/-- Of a place that is what it was nothing is told. -/
theorem told_self (w : Whitelist) (o : Option Node) : (told w o o).join = none := by
  cases o with
  | none => rfl
  | some n =>
    show (advance w n (recordOf w (some n))).2 = none
    rw [recordOf, advance_of_stamp_eq (stamp_capture w n)]

/-- Going through children that are what they were gives no difference. -/
theorem gather_childMoves_self {s : Stamp} {children : Dict Node} (hd : Dict.Sorted children) :
    (gather s (childMoves w children children)
      (removedKeys w (.object s children) (recordOf w (some (.object s children))).props)).2 =
        none := by
  have hchanges : changes (childMoves w children children) = [] := by
    refine Dict.ext (sorted_changes (sorted_childMoves hd)) Dict.sorted_nil fun key => ?_
    rw [get?_changes_childMoves hd]
    cases w.child? key with
    | none => rfl
    | some rule => exact told_self rule _
  -- No key was removed, as the keys are those of the same children.
  have hremoved : removedKeys w (.object s children)
      (recordOf w (some (.object s children))).props = [] := by
    refine List.eq_nil_iff_forall_not_mem.2 fun key hkey => ?_
    obtain ⟨hsome, hnone⟩ := (mem_removedKeys_object hd hd).1 hkey
    rw [hnone] at hsome
    cases hsome
  rw [gather_snd, hchanges, hremoved]
  rfl

/-- Going through items that are what they were gives no difference. -/
theorem gather_itemMoves_self (hw : w ≠ .nothing) {s : Stamp} {items : List Node}
    (hl : items.length ≤ ArrayIndex.limit) :
    (gather s (itemMoves w s items items)
      (removedKeys w (.array s items) (recordOf w (some (.array s items))).props)).2 = none := by
  have hchanges : changes (itemMoves w s items items) = [] := by
    refine List.eq_nil_iff_forall_not_mem.2 fun p hp => ?_
    have hget := Dict.get?_of_mem (sorted_changes (sorted_itemMoves w s items items)).nodup_keys hp
    obtain ⟨i, hi, -⟩ := mem_keys_itemMoves (keys_changes_subset (List.mem_map_of_mem hp))
    rw [hi, get?_changes_itemMoves hw, told_self] at hget
    cases hget
  -- A removed key would be a position behind the end and in front of it.
  have hremoved : removedKeys w (.array s items) (recordOf w (some (.array s items))).props =
      [] := by
    refine List.eq_nil_iff_forall_not_mem.2 fun key hkey => ?_
    obtain ⟨i, -, hge, hlt⟩ := (mem_removedKeys_array hw hl hl).1 hkey
    omega
  rw [gather_snd, hchanges, hremoved]
  rfl

/-- Of an object that was not renewed since the look, the reader is told what going through its
    children gives.  If the object is passed over because its stamp is known, then going through
    the children would give nothing either. -/
theorem advance_settled_object {s' : Stamp} {next : Dict Node}
    (h : Came seen old (some (.object s' next))) (hle : s'.serial ≤ seen) :
    ∃ s children, old = some (.object s children) ∧ Dict.Sorted children ∧
      (∀ key, Came seen (Dict.get? children key) (Dict.get? next key)) ∧
      (advance w (.object s' next) (recordOf w old)).2 =
        (gather s' (childMoves w children next)
          (removedKeys w (.object s' next) (recordOf w old).props)).2 := by
  obtain ⟨-, hnew, hchild⟩ := Node.regular_object.1 (h.regular _ rfl)
  -- What was not renewed is the node of the look, or the same object with a change beneath.
  cases h.since _ rfl with
  | renewed hlt => exact absurd hlt (Nat.not_lt.2 hle)
  | same =>
    refine ⟨s', next, rfl, hnew, fun key => ⟨(h.covered _ rfl).child.2 key,
      fun n hn => hn ▸ .same n, fun n hn => (hchild key n hn).2⟩, ?_⟩
    rw [gather_childMoves_self hnew, recordOf, advance_of_stamp_eq (stamp_capture w _)]
  | @object s _ children _ hs hc hsince =>
    obtain ⟨hb, hcovered⟩ := (h.covered _ rfl).child
    have hold : Dict.Sorted children := (Node.regular_object.1 (h.covered _ rfl).2).2.1
    have hstamp : (recordOf w (some (.object s children))).stamp = some s := rfl
    have hne : s'.childSerial ≠ s.childSerial := Nat.ne_of_gt (Nat.lt_of_le_of_lt hb hc)
    refine ⟨s, children, rfl, hold, fun key => ⟨hcovered key, hsince key,
      fun n hn => (hchild key n hn).2⟩, ?_⟩
    rw [advance_object hstamp hs hne, advanceChildren_recordOf hold]

/-- Of an array that was not renewed since the look, the reader is told what going through its
    items gives, also if the array is passed over. -/
theorem advance_settled_array (hw : w ≠ .nothing) {s' : Stamp} {next : List Node}
    (h : Came seen old (some (.array s' next))) (hle : s'.serial ≤ seen) :
    ∃ s items, old = some (.array s items) ∧ (∀ i : Nat, Came seen items[i]? next[i]?) ∧
      (advance w (.array s' next) (recordOf w old)).2 =
        (gather s' (itemMoves w s items next)
          (removedKeys w (.array s' next) (recordOf w old).props)).2 := by
  obtain ⟨-, hnew, hitem⟩ := Node.regular_array.1 (h.regular _ rfl)
  -- As for objects: the same array, or one with a change beneath.
  cases h.since _ rfl with
  | renewed hlt => exact absurd hlt (Nat.not_lt.2 hle)
  | same =>
    refine ⟨s', next, rfl, fun i => ⟨(h.covered _ rfl).item.2 i,
      fun n hn => hn ▸ .same n, fun n hn => (hitem i n hn).2⟩, ?_⟩
    rw [gather_itemMoves_self hw hnew, recordOf, advance_of_stamp_eq (stamp_capture w _)]
  | @array s _ items _ hs hc hsince =>
    obtain ⟨hb, hcovered⟩ := (h.covered _ rfl).item
    have hstamp : (recordOf w (some (.array s items))).stamp = some s :=
      stamp_capture w (.array s items)
    have hne : s'.childSerial ≠ s.childSerial := Nat.ne_of_gt (Nat.lt_of_le_of_lt hb hc)
    refine ⟨s, items, rfl, fun i => ⟨hcovered i, hsince i, fun n hn => (hitem i n hn).2⟩, ?_⟩
    rw [advance_array hw hstamp hs hne]
    rfl

end Came

/-! ### Two trees that are alike -/

/-- The removed keys of an object depend only on which keys with a rule had a child and which have
    one now. -/
theorem removedKeys_alike_object {w : Whitelist} (s s' t t' : Stamp) {cs cs' ds ds' : Dict Node}
    (hcs : Dict.Sorted cs) (hds : Dict.Sorted ds)
    (hold : ∀ key rule, w.child? key = some rule →
      (Dict.get? cs key).isSome = (Dict.get? ds key).isSome)
    (hnew : ∀ key rule, w.child? key = some rule →
      (Dict.get? cs' key).isSome = (Dict.get? ds' key).isSome) :
    removedKeys w (.object s' cs') (recordOf w (some (.object s cs))).props =
      removedKeys w (.object t' ds') (recordOf w (some (.object t ds))).props := by
  -- The record keeps the children that have a rule, whatever their stamps.
  have hkeys : Dict.keys (recordOf w (some (.object s cs))).props =
      Dict.keys (recordOf w (some (.object t ds))).props := by
    rw [recordOf, recordOf, capture, capture, props_mk, props_mk, captureChildren_eq,
      captureChildren_eq]
    refine Dict.keys_eq_of_isSome (Dict.sorted_select hcs _) (Dict.sorted_select hds _) ?_
    intro key
    rw [Dict.get?_select hcs.nodup_keys, Dict.get?_select hds.nodup_keys]
    cases hr : w.child? key with
    | none => simp
    | some rule =>
      have hsome := hold key rule hr
      cases hc : Dict.get? cs key <;> cases hd : Dict.get? ds key <;> simp [hc, hd] at hsome ⊢
  rw [removedKeys, removedKeys, hkeys]
  refine List.filter_congr fun key _ => ?_
  rw [partRule?_object, partRule?_object]
  cases hr : w.child? key with
  | none => simp
  | some rule => simp only [Node.child?, hnew key rule hr]

/-- The removed keys of an array depend only on how many items there were and how many there
    are. -/
theorem removedKeys_alike_array {w : Whitelist} (hw : w ≠ .nothing) (s s' t t' : Stamp)
    {xs xs' ys ys' : List Node} (hold : xs.length = ys.length) (hnew : xs'.length = ys'.length) :
    removedKeys w (.array s' xs') (recordOf w (some (.array s xs))).props =
      removedKeys w (.array t' ys') (recordOf w (some (.array t ys))).props := by
  -- The record keeps one part for every position.
  have hkeys : Dict.keys (recordOf w (some (.array s xs))).props =
      Dict.keys (recordOf w (some (.array t ys))).props := by
    rw [recordOf, recordOf, capture_array hw, capture_array hw, props_mk, props_mk]
    refine Dict.keys_eq_of_isSome (Dict.sorted_ofPairs _) (Dict.sorted_ofPairs _) fun key => ?_
    rw [Bool.eq_iff_iff, Dict.isSome_get?_iff, Dict.isSome_get?_iff,
      Dict.mem_keys_ofPairs (Node.nodup_keys_numbered 0 _),
      Dict.mem_keys_ofPairs (Node.nodup_keys_numbered 0 _), Node.mem_keys_numbered,
      Node.mem_keys_numbered, List.length_map, List.length_map, hold]
  rw [removedKeys, removedKeys, hkeys]
  refine List.filter_congr fun key _ => ?_
  rw [partRule?_array, partRule?_array, Node.child?, Node.child?]
  cases ArrayIndex.parse? key with
  | none => rfl
  | some i =>
    have hitem : xs'[i]?.isSome = ys'[i]?.isSome := by
      rw [Bool.eq_iff_iff, Option.isSome_iff_ne_none, Option.isSome_iff_ne_none, ne_eq, ne_eq,
        List.getElem?_eq_none_iff, List.getElem?_eq_none_iff, hnew]
    simp only [Option.bind_some, hitem]

section Told

variable {a b : Nat} {w : Whitelist} {o p : Option Node}

/-- Of two trees that are `Alike` and were both renewed the same is told, whatever was seen
    before. -/
theorem told_renewed {m n : Node} (h : Alike a b w (some m) (some n)) (hm : Came a o (some m))
    (hn : Came b p (some n)) (ha : a < m.serial) (hb : b < n.serial) :
    told w o (some m) = told w p (some n) := by
  have hmaterial := materialize_alike h hm.regular hn.regular
  rw [told, told, Option.map_some, Option.map_some, advance_renewed hm ha, advance_renewed hn hb]
  exact congrArg some hmaterial

/-- Of two objects that are `Alike`, and have come from two that were, the same is told if it is so
    of all children with a rule. -/
theorem told_object {s t : Stamp} {cs ds : Dict Node}
    (hold : Alike a b w o p) (h : Alike a b w (some (.object s cs)) (some (.object t ds)))
    (hm : Came a o (some (.object s cs))) (hn : Came b p (some (.object t ds)))
    (hchild : ∀ key rule o p, w.child? key = some rule → Alike a b rule o p →
      Came a o (Dict.get? cs key) → Came b p (Dict.get? ds key) →
      told rule o (Dict.get? cs key) = told rule p (Dict.get? ds key)) :
    told w o (some (.object s cs)) = told w p (some (.object t ds)) := by
  by_cases ha : a < s.serial
  · cases h with
    | object hf hc => exact told_renewed (.object hf hc) hm hn ha (hf.1 ha)
  · cases h with
    | object hf hc =>
      have hb : ¬ b < t.serial := fun hb => ha (hf.2 hb)
      obtain ⟨s₀, cs₀, rfl, hcs₀, hcame, hcs⟩ :=
        advance_settled_object (w := w) hm (Nat.not_lt.1 ha)
      obtain ⟨t₀, ds₀, rfl, hds₀, hcame', hds⟩ :=
        advance_settled_object (w := w) hn (Nat.not_lt.1 hb)
      cases hold with
      | object hf₀ hc₀ =>
        -- What is told is put together from the removed keys and the changes of the children: both
        -- are equal.
        have hremoved := removedKeys_alike_object s₀ s t₀ t hcs₀ hds₀
          (fun key rule hr => (hc₀ key rule hr).isSome_eq)
          (fun key rule hr => (hc key rule hr).isSome_eq)
        have hsorted := (Node.regular_object.1 (hm.regular _ rfl)).2.1
        have hsorted' := (Node.regular_object.1 (hn.regular _ rfl)).2.1
        have hchanges : changes (childMoves w cs₀ cs) = changes (childMoves w ds₀ ds) := by
          refine Dict.ext (sorted_changes (sorted_childMoves hsorted))
            (sorted_changes (sorted_childMoves hsorted')) fun key => ?_
          rw [get?_changes_childMoves hsorted, get?_changes_childMoves hsorted']
          cases hr : w.child? key with
          | none => rfl
          | some rule =>
            have htold := hchild key rule _ _ hr (hc₀ key rule hr) (hcame key) (hcame' key)
            exact congrArg Option.join htold
        rw [told, told, Option.map_some, Option.map_some, hcs, hds, gather_snd, gather_snd,
          hchanges, hremoved]

/-- Of two arrays that are `Alike`, and have come from two that were, the same is told if it is so
    of all items. -/
theorem told_array (hw : w ≠ .nothing) {s t : Stamp} {xs ys : List Node}
    (hold : Alike a b w o p) (h : Alike a b w (some (.array s xs)) (some (.array t ys)))
    (hm : Came a o (some (.array s xs))) (hn : Came b p (some (.array t ys)))
    (hitem : ∀ (i : Nat) o p, Alike a b w o p → Came a o xs[i]? → Came b p ys[i]? →
      told w o xs[i]? = told w p ys[i]?) :
    told w o (some (.array s xs)) = told w p (some (.array t ys)) := by
  by_cases ha : a < s.serial
  · cases h with
    | array hf hc => exact told_renewed (.array hf hc) hm hn ha (hf.1 ha)
  · cases h with
    | array hf hc =>
      -- The two sides agree on whether the array was renewed since the look.
      have hb : ¬ b < t.serial := fun hb => ha (hf.2 hb)
      obtain ⟨s₀, xs₀, rfl, hcame, hxs⟩ := advance_settled_array hw hm (Nat.not_lt.1 ha)
      obtain ⟨t₀, ys₀, rfl, hcame', hys⟩ := advance_settled_array hw hn (Nat.not_lt.1 hb)
      cases hold with
      | array hf₀ hc₀ =>
        have hremoved := removedKeys_alike_array hw s₀ s t₀ t
          (Node.length_eq_of_alike hc₀) (Node.length_eq_of_alike hc)
        have hchanges : changes (itemMoves w s₀ xs₀ xs) = changes (itemMoves w t₀ ys₀ ys) :=
          changes_itemMoves_ext hw fun i => hitem i _ _ (hc₀ i) (hcame i) (hcame' i)
        rw [told, told, Option.map_some, Option.map_some, hxs, hys, gather_snd, gather_snd,
          hchanges, hremoved]

/-- **A reader is told the same of trees that are alike.**  If two places are `Alike`, and have
    come from two that were `Alike` for the looks, then the difference is the same at both, or
    there is none at both. -/
theorem told_alike (hw : w ≠ .nothing) {x y : Option Node} (h : Alike a b w x y)
    (hold : Alike a b w o p) (hx : Came a o x) (hy : Came b p y) : told w o x = told w p y := by
  -- Along the trees of now; those of the looks are left open and come down with them.
  induction h generalizing o p with
  | nowhere => rfl
  | @scalar w s t v hf =>
    by_cases ha : a < s.serial
    · exact told_renewed (.scalar hf) hx hy ha (hf.1 ha)
    · have hb : ¬ b < t.serial := fun hb => ha (hf.2 hb)
      rw [told, told, Option.map_some, Option.map_some,
        advance_settled_scalar hx (Nat.not_lt.1 ha), advance_settled_scalar hy (Nat.not_lt.1 hb)]
  | object hf h ih =>
    refine told_object hold (.object hf h) hx hy ?_
    intro key rule o p hr hold hx hy
    exact ih key rule hr (Whitelist.ne_nothing_of_child? hr) hold hx hy
  | array hf h ih =>
    refine told_array hw hold (.array hf h) hx hy ?_
    intro i o p hold hx hy
    exact ih i hw hold hx hy

end Told

end Cursor

end Observatory

import Observatory.Proofs.Diff.Apply
import Observatory.Proofs.Store.Since
import Observatory.Proofs.Store.View

/-!
# Moving a cursor

A cursor is moved along the stamps alone: a node stamped anew is captured again, a node with
a change beneath is gone through part by part, and any other node is passed over.  If the
cursor was captured from a tree, and the present tree has come from it by later changes, then
this is as good as capturing the present tree, and the difference on the way leads from what
the reader saw of the old tree to what it may see of the present one.

* `Cursor.advance_object`, `Cursor.advance_array`: the move part by part;
* `Cursor.apply_materialize`: a tree spelled out, applied to anything, is its view;
* `Cursor.advance_recordOf`: the statement above, for a place where a node stood or nothing.
-/

namespace Observatory

namespace Cursor

/-! ### One step of the move -/

/-- A cursor that has recorded nothing gets the capture of the node and the node spelled out by
    `materialize`. -/
theorem advance_unseen (w : Whitelist) (n : Node) :
    advance w n unseen = (capture w n, some (materialize w n)) := by
  cases n <;> rfl

/-- If the recorded serial is not that of the node, then the node is captured and spelled out
    anew. -/
theorem advance_of_serial_ne {w : Whitelist} {n : Node} {c : Cursor} {seen : Stamp}
    (hc : c.stamp = some seen) (hs : n.serial ≠ seen.serial) :
    advance w n c = (capture w n, some (materialize w n)) := by
  rw [advance.eq_def]
  dsimp only
  rw [hc]
  exact if_pos hs

/-- If both recorded serials are those of the node, then the cursor stays and there is no
    difference. -/
theorem advance_of_stamp_eq {w : Whitelist} {n : Node} {c : Cursor}
    (hc : c.stamp = some n.stamp) : advance w n c = (c, none) := by
  rw [advance.eq_def]
  dsimp only
  rw [hc]
  dsimp only
  have hchild : n.childSerial = n.stamp.childSerial := rfl
  rw [if_neg fun h => h rfl, if_pos hchild]

/-- If only the child serial of an object differs from the recorded one, then its children are gone
    through one by one. -/
theorem advance_object {w : Whitelist} {s seen : Stamp} {children : Dict Node} {c : Cursor}
    (hc : c.stamp = some seen) (hs : s.serial = seen.serial)
    (hcs : s.childSerial ≠ seen.childSerial) :
    advance w (.object s children) c = gather s (advanceChildren w c.props children)
      (removedKeys w (.object s children) c.props) := by
  rw [advance.eq_def]
  dsimp only
  rw [hc]
  dsimp only
  rw [if_neg fun h => h hs]
  exact if_neg hcs

/-- If only the child serial of an array differs from the recorded one, then its items are gone
    through one by one.  Under `nothing` they would be passed over. -/
theorem advance_array {w : Whitelist} (hw : w ≠ .nothing) {s seen : Stamp} {items : List Node}
    {c : Cursor} (hc : c.stamp = some seen) (hs : s.serial = seen.serial)
    (hcs : s.childSerial ≠ seen.childSerial) :
    advance w (.array s items) c = gather s (Dict.ofPairs (advanceItems w c.props 0 items))
      (removedKeys w (.array s items) c.props) := by
  rw [advance.eq_def]
  dsimp only
  rw [hc]
  dsimp only
  rw [if_neg fun h => h hs, Whitelist.itemRule?_of_ne hw]
  exact if_neg hcs

/-- `advanceChildren` selects the children whose key has a rule, and moves the recorded cursor of
    each, or `unseen` if there is none. -/
theorem advanceChildren_eq (w : Whitelist) (props : Dict Cursor) (children : List (String × Node)) :
    advanceChildren w props children = Dict.select (fun key n => (w.child? key).map fun rule =>
      advance rule n ((Dict.get? props key).getD unseen)) children := by
  induction children with
  | nil => rfl
  | cons p rest ih =>
    obtain ⟨key, n⟩ := p
    rw [advanceChildren, Dict.select_cons, ← ih]
    cases w.child? key <;> rfl

/-- `advanceItems` has under the spelling of a position the move of the item there. -/
theorem get?_advanceItems (w : Whitelist) (props : Dict Cursor) (items : List Node) (i : Nat) :
    Dict.get? (advanceItems w props 0 items) (ArrayIndex.text i) = items[i]?.map fun n =>
      advance w n ((Dict.get? props (ArrayIndex.text i)).getD unseen) := by
  -- The items are counted from zero, but from elsewhere in the induction.
  have h : ∀ k j, Dict.get? (advanceItems w props k items) (ArrayIndex.text (k + j)) =
      items[j]?.map fun n =>
        advance w n ((Dict.get? props (ArrayIndex.text (k + j))).getD unseen) := by
    induction items with
    | nil => exact fun k j => rfl
    | cons n rest ih =>
      intro k j
      rw [advanceItems, Dict.get?_cons]
      cases j with
      | zero =>
        rw [Nat.add_zero, if_pos rfl]
        rfl
      | succ j =>
        have hne : ArrayIndex.text k ≠ ArrayIndex.text (k + (j + 1)) := by
          intro e
          have hkj : k = k + (j + 1) := ArrayIndex.text_injective e
          omega
        have hshift : k + (j + 1) = k + 1 + j := by omega
        rw [if_neg hne, List.getElem?_cons_succ, hshift]
        exact ih (k + 1) j
  have hzero := h 0 i
  rwa [Nat.zero_add] at hzero

/-- The keys of `advanceItems` are the spellings of the positions. -/
theorem keys_advanceItems (w : Whitelist) (props : Dict Cursor) (i : Nat) (items : List Node) :
    Dict.keys (advanceItems w props i items) = Dict.keys (Node.numbered i items) := by
  induction items generalizing i with
  | nil => rfl
  | cons n rest ih => exact congrArg _ (ih (i + 1))

/-- If every item is captured by its move, then the new records of `advanceItems` are the captures
    of the items. -/
theorem mapValues_advanceItems {w : Whitelist} {props : Dict Cursor} {items : List Node} (k : Nat)
    (h : ∀ (i : Nat) (n : Node), items[i]? = some n →
      (advance w n ((Dict.get? props (ArrayIndex.text (k + i))).getD unseen)).1 = capture w n) :
    Dict.mapValues (fun p : Progress => p.1) (advanceItems w props k items) =
      Node.numbered k (items.map (capture w)) := by
  induction items generalizing k with
  | nil => rfl
  | cons n rest ih =>
    have hhead := h 0 n rfl
    -- Positions are counted from `k` on, so those of the rest are shifted by one.
    have htail := ih (k + 1) fun i m hm => by
      have hnext := h (i + 1) m hm
      have hshift : k + (i + 1) = k + 1 + i := by omega
      rwa [hshift] at hnext
    rw [Nat.add_zero] at hhead
    rw [advanceItems, List.map_cons, Node.numbered, ← htail, ← hhead]
    rfl

theorem records_eq (parts : List (String × Progress)) :
    records parts = Dict.mapValues (fun p => p.1) parts := rfl

theorem changes_eq (parts : List (String × Progress)) :
    changes parts = Dict.select (fun _ p => p.2) parts := rfl

theorem partRule?_object (w : Whitelist) (s : Stamp) (children : Dict Node) (key : String) :
    partRule? w (.object s children) key = w.child? key := rfl

theorem partRule?_array (w : Whitelist) (s : Stamp) (items : List Node) (key : String) :
    partRule? w (.array s items) key = itemRule? w := rfl

/-- `removedKeys` has the keys that are recorded but do not lead to a part that the reader
    may see. -/
theorem mem_removedKeys {w : Whitelist} {n : Node} {props : Dict Cursor} {key : String} :
    key ∈ removedKeys w n props ↔ key ∈ Dict.keys props ∧
      ¬((n.child? key).isSome ∧ (partRule? w n key).isSome) := by
  rw [removedKeys, List.mem_filter, Bool.not_eq_true', ← Bool.not_eq_true, Bool.and_eq_true]

/-- For a cursor that records an object, `removedKeys` has the keys that the reader saw in the old
    children and does not see in the new ones. -/
theorem mem_removedKeys_object {w : Whitelist} {s s' : Stamp} {children next : Dict Node}
    (hold : Dict.Sorted children) (hnew : Dict.Sorted next) {key : String} :
    key ∈ removedKeys w (.object s' next) (recordOf w (some (.object s children))).props ↔
      (Dict.get? (Node.viewChildren w children) key).isSome ∧
        Dict.get? (Node.viewChildren w next) key = none := by
  rw [mem_removedKeys, Node.get?_viewChildren hold, Node.get?_viewChildren hnew,
    ← Dict.isSome_get?_iff, recordOf, capture, props_mk, captureChildren_eq,
    Dict.get?_select hold.nodup_keys, Node.child?, partRule?_object]
  cases w.child? key with
  | none => cases Dict.get? children key <;> simp
  | some rule => cases Dict.get? children key <;> cases Dict.get? next key <;> simp

/-- For a cursor that records an array, `removedKeys` has the spellings of the positions behind the
    new end. -/
theorem mem_removedKeys_array {w : Whitelist} (hw : w ≠ .nothing) {s s' : Stamp}
    {items next : List Node} (hold : items.length ≤ ArrayIndex.limit)
    (hnew : next.length ≤ ArrayIndex.limit) {key : String} :
    key ∈ removedKeys w (.array s' next) (recordOf w (some (.array s items))).props ↔
      ∃ i, key = ArrayIndex.text i ∧ next.length ≤ i ∧ i < items.length := by
  rw [mem_removedKeys, recordOf, capture_array hw, props_mk,
    Dict.mem_keys_ofPairs (Node.nodup_keys_numbered 0 _), Node.mem_keys_numbered,
    List.length_map, partRule?_array, Whitelist.itemRule?_of_ne hw]
  constructor
  · rintro ⟨⟨j, hj, rfl⟩, hout⟩
    rw [Nat.zero_add] at *
    refine ⟨j, rfl, Nat.le_of_not_lt fun hlt => hout ⟨?_, rfl⟩, hj⟩
    -- A position of the new array leads to an item.
    rw [Node.child?, ArrayIndex.parse?_text (Nat.lt_of_lt_of_le hlt hnew), Option.bind_some,
      List.getElem?_eq_getElem hlt]
    rfl
  · rintro ⟨j, rfl, hge, hj⟩
    refine ⟨⟨j, hj, by rw [Nat.zero_add]⟩, ?_⟩
    intro hin
    rw [Node.child?, ArrayIndex.parse?_text (Nat.lt_of_lt_of_le hj hold), Option.bind_some,
      List.getElem?_eq_none hge] at hin
    cases hin.1

/-! ### Trees spelled out -/

/-- What `materialize` spells out of a tree gives the view of the tree, applied to anything. -/
theorem apply_materialize (w : Whitelist) (n : Node) (prior : Option Json) :
    (materialize w n).apply prior = .ok (n.view w) := by
  induction n using Node.partsInduction generalizing w prior with
  | scalar s v => rw [materialize, Diff.apply, Node.view_scalar]
  | object s children ih =>
    -- The children that pass are created one by one, none of them from an earlier value.
    have hfields : Diff.createFields (Diff.fieldEdits (materializeChildren w children)) =
        .ok (Node.viewChildren w children) := by
      induction children with
      | nil => rfl
      | cons p rest ihrest =>
        obtain ⟨key, n⟩ := p
        have hrest := ihrest fun q hq => ih q (List.mem_cons_of_mem _ hq)
        rw [materializeChildren, Node.viewChildren, Dict.select_cons]
        cases w.child? key with
        | none => exact hrest
        | some rule =>
          show Diff.createFields ((key, (materialize rule n).apply) :: _) = _
          rw [Diff.createFields, List.mapM_cons]
          dsimp only
          rw [ih (key, n) List.mem_cons_self]
          unfold Diff.createFields at hrest
          rw [hrest]
          rfl
    rw [materialize, Diff.apply, hfields, Node.view_object]
    rfl
  | array s items ih =>
    have hitems : ((Diff.itemEdits (materializeItems w items)).mapM fun edit => edit none) =
        .ok (items.map (Node.view w)) := by
      rw [Diff.itemEdits_eq, materializeItems_eq, List.map_map, List.mapM_map]
      exact Diff.mapM_ok fun n hn => ih n hn w none
    rw [materialize, Diff.apply, hitems, Node.view_array]
    rfl

/-! ### The move as a whole -/

/-- `gather` records the stamp of the node and the new records of the parts. -/
theorem gather_fst (s : Stamp) (parts : List (String × Progress)) (removed : List String) :
    (gather s parts removed).1 = mk (some s) (records parts) := rfl

theorem gather_snd (s : Stamp) (parts : List (String × Progress)) (removed : List String) :
    (gather s parts removed).2 = if (changes parts).isEmpty && removed.isEmpty then none
      else some (.update (changes parts) removed) := rfl

section Move

variable {seen : Nat}

/-- The move from the record of `old` to `new` gives the capture of `new` and a difference that
    leads from the view of `old` to the view of `new`. -/
def Follows (w : Whitelist) (old : Option Node) (new : Node) : Prop :=
  (advance w new (recordOf w old)).1 = capture w new ∧
    Diff.Leads (advance w new (recordOf w old)).2 (old.map (Node.view w)) (new.view w)

/-- A place `Follows` if the node there is captured and spelled out anew. -/
theorem follows_of_captured {w : Whitelist} {old : Option Node} {new : Node}
    (h : advance w new (recordOf w old) = (capture w new, some (materialize w new))) :
    Follows w old new := by
  rw [Follows, h]
  exact ⟨rfl, apply_materialize w new _⟩

/-! #### Children -/

/-- The moves of the children that have a rule, from the records of `children` to those of
    `next`. -/
def childMoves (w : Whitelist) (children next : Dict Node) : Dict Progress :=
  Dict.select (fun key n => (w.child? key).map fun rule =>
    advance rule n (recordOf rule (Dict.get? children key))) next

/-- `advanceChildren` makes the `childMoves`, if the cursor records the old object. -/
theorem advanceChildren_recordOf {w : Whitelist} {s : Stamp} {children : Dict Node}
    (hold : Dict.Sorted children) (next : Dict Node) :
    advanceChildren w (recordOf w (some (.object s children))).props next =
      childMoves w children next := by
  rw [advanceChildren_eq, childMoves]
  refine congrArg (Dict.select · next) ?_
  funext key n
  cases hr : w.child? key with
  | none => rfl
  | some rule => exact congrArg (fun c => some (advance rule n c)) (get?_props_object hold s hr)

/-- `childMoves` has under a key the move of the child there, if there is one and the key has a
    rule. -/
theorem get?_childMoves {w : Whitelist} {children next : Dict Node} (hnew : Dict.Sorted next)
    (key : String) : Dict.get? (childMoves w children next) key =
      (Dict.get? next key).bind fun n => (w.child? key).map fun rule =>
        advance rule n (recordOf rule (Dict.get? children key)) :=
  Dict.get?_select hnew.nodup_keys _ key

/-- `childMoves` is `Sorted`. -/
theorem sorted_childMoves {w : Whitelist} {children next : Dict Node} (hnew : Dict.Sorted next) :
    Dict.Sorted (childMoves w children next) := Dict.sorted_select hnew _

section Children

variable {w : Whitelist} {s s' : Stamp} {children next : Dict Node}
  (hold : Dict.Sorted children) (hnew : Dict.Sorted next)
  (h : ∀ key n rule, Dict.get? next key = some n → w.child? key = some rule →
    Follows rule (Dict.get? children key) n)
include hold hnew h

omit hold in
/-- If all children with a rule follow, then the new records are those of the capture of the
    object. -/
theorem records_childMoves :
    mk (some s') (records (childMoves w children next)) = capture w (.object s' next) := by
  rw [capture, records_eq, captureChildren_eq]
  refine congrArg (mk (some s')) (Dict.ext (Dict.sorted_mapValues (sorted_childMoves hnew) _)
    (Dict.sorted_select hnew _) ?_)
  intro key
  rw [Dict.get?_mapValues, get?_childMoves hnew, Dict.get?_select hnew.nodup_keys]
  cases hn : Dict.get? next key with
  | none => rfl
  | some n =>
    cases hr : w.child? key with
    | none => rfl
    | some rule => exact congrArg some (h key n rule hn hr).1

/-- If all children with a rule follow, then their differences, together with the keys that are
    gone, lead from the view of the old object to that of the new one. -/
theorem apply_childMoves :
    (Diff.update (changes (childMoves w children next))
      (removedKeys w (.object s' next) (recordOf w (some (.object s children))).props)).apply
        (some (.obj (Node.viewChildren w children))) = .ok (.obj (Node.viewChildren w next)) := by
  have hmoves : Dict.Sorted (childMoves w children next) := sorted_childMoves hnew
  rw [changes_eq]
  refine Diff.apply_update_obj (fun key => ?_) (fun key hkey => ?_) (fun key v hv => ?_)
    (Dict.sorted_select hold _) (Dict.sorted_select hnew _)
    (Dict.sorted_select hmoves _).nodup_keys
  · exact mem_removedKeys_object hold hnew
  · -- Only children that stand there now are changed.
    rw [← Dict.isSome_get?_iff, Dict.get?_select hmoves.nodup_keys, get?_childMoves hnew] at hkey
    rw [Node.get?_viewChildren hnew]
    cases hn : Dict.get? next key with
    | none =>
      rw [hn] at hkey
      exact hkey
    | some n =>
      cases hr : w.child? key with
      | none =>
        rw [hn, hr] at hkey
        exact hkey
      | some rule => rfl
  · -- A child that the reader sees has come from what it saw there, by the hypothesis on the
    -- children.
    rw [Node.get?_viewChildren hnew] at hv
    obtain ⟨n, hn, hmap⟩ := Option.bind_eq_some_iff.1 hv
    obtain ⟨rule, hr, rfl⟩ := Option.map_eq_some_iff.1 hmap
    have hleads := (h key n rule hn hr).2
    rw [Dict.get?_select hmoves.nodup_keys, get?_childMoves hnew, hn,
      Node.get?_viewChildren hold, hr]
    cases hk : Dict.get? children key with
    | none =>
      rw [hk] at hleads
      exact hleads
    | some m =>
      rw [hk] at hleads
      exact hleads

/-- An object with changes beneath `Follows` if all children with a rule do. -/
theorem follows_object (hs : s'.serial = s.serial) (hc : s'.childSerial ≠ s.childSerial) :
    Follows w (some (.object s children)) (.object s' next) := by
  have hstamp : (recordOf w (some (.object s children))).stamp = some s := rfl
  rw [Follows, advance_object hstamp hs hc, advanceChildren_recordOf hold, gather_fst, gather_snd]
  constructor
  · exact records_childMoves hnew h
  · rw [Option.map_some, Node.view_object, Node.view_object]
    exact Diff.leads_of_apply_update rfl (apply_childMoves hold hnew h)

end Children

/-! #### Items -/

/-- The moves of the items, from the records of `items` to those of `next`. -/
def itemMoves (w : Whitelist) (s : Stamp) (items next : List Node) : Dict Progress :=
  Dict.ofPairs (advanceItems w (recordOf w (some (.array s items))).props 0 next)

/-- No key comes twice in `advanceItems`, so `Dict.ofPairs` only puts the moves in order. -/
theorem nodup_keys_advanceItems (w : Whitelist) (props : Dict Cursor) (next : List Node) :
    (Dict.keys (advanceItems w props 0 next)).Nodup := by
  rw [keys_advanceItems]
  exact Node.nodup_keys_numbered 0 next

/-- `itemMoves` has under the spelling of a position the move of the item there. -/
theorem get?_itemMoves {w : Whitelist} (hw : w ≠ .nothing) (s : Stamp) (items next : List Node)
    (i : Nat) : Dict.get? (itemMoves w s items next) (ArrayIndex.text i) =
      next[i]?.map fun n => advance w n (recordOf w items[i]?) := by
  rw [itemMoves, Dict.get?_ofPairs (nodup_keys_advanceItems w _ next), get?_advanceItems]
  exact congrArg (fun c => next[i]?.map fun n => advance w n c) (get?_props_array hw s items i)

/-- The keys of `itemMoves` spell positions of the new items. -/
theorem mem_keys_itemMoves {w : Whitelist} {s : Stamp} {items next : List Node} {key : String}
    (h : key ∈ Dict.keys (itemMoves w s items next)) :
    ∃ i, key = ArrayIndex.text i ∧ i < next.length := by
  rw [itemMoves, Dict.mem_keys_ofPairs (nodup_keys_advanceItems w _ next), keys_advanceItems,
    Node.mem_keys_numbered] at h
  obtain ⟨j, hj, rfl⟩ := h
  exact ⟨j, by rw [Nat.zero_add], hj⟩

section Items

variable {w : Whitelist} (hw : w ≠ .nothing) {s s' : Stamp} {items next : List Node}
  (hold : items.length ≤ ArrayIndex.limit) (hnew : next.length ≤ ArrayIndex.limit)
  (h : ∀ (i : Nat) (n : Node), next[i]? = some n → Follows w items[i]? n)
include hw h

/-- If all items follow, then the new records are those of the capture of the array. -/
theorem records_itemMoves :
    mk (some s') (records (itemMoves w s items next)) = capture w (.array s' next) := by
  rw [capture_array hw, records_eq, itemMoves,
    ← Dict.ofPairs_mapValues _ (nodup_keys_advanceItems w _ next)]
  refine congrArg (fun ps => mk (some s') (Dict.ofPairs ps)) (mapValues_advanceItems 0 ?_)
  intro i n hn
  -- The cursor of an item is the record of what stood at its position.
  have hrecord : (Dict.get? (recordOf w (some (.array s items))).props (ArrayIndex.text i)).getD
      unseen = recordOf w items[i]? := get?_props_array hw s items i
  rw [Nat.zero_add, hrecord]
  exact (h i n hn).1

include hold hnew

/-- If all items follow, then their differences, together with the positions that are gone, lead
    from the view of the old array to that of the new one. -/
theorem apply_itemMoves :
    (Diff.update (changes (itemMoves w s items next))
      (removedKeys w (.array s' next) (recordOf w (some (.array s items))).props)).apply
        (some (.arr (items.map (Node.view w)))) = .ok (.arr (next.map (Node.view w))) := by
  have hmoves : Dict.Sorted (itemMoves w s items next) := Dict.sorted_ofPairs _
  rw [changes_eq]
  -- Three things to show: what is gone, which positions change, and what each of them becomes.
  refine Diff.apply_update_arr (by rwa [List.length_map]) (by rwa [List.length_map])
    (Dict.sorted_select hmoves _).nodup_keys (fun key => ?_) (fun key hkey => ?_)
    fun i v hv => ?_
  · rw [mem_removedKeys_array hw hold hnew, List.length_map, List.length_map]
  · rw [List.length_map]
    exact mem_keys_itemMoves ((Dict.keys_select_sublist _ _).subset hkey)
  · rw [List.getElem?_map] at hv
    obtain ⟨n, hn, rfl⟩ := Option.map_eq_some_iff.1 hv
    rw [Dict.get?_select hmoves.nodup_keys, get?_itemMoves hw, hn, List.getElem?_map]
    exact (h i n hn).2

/-- An array with changes beneath `Follows` if all its items do. -/
theorem follows_array (hs : s'.serial = s.serial) (hc : s'.childSerial ≠ s.childSerial) :
    Follows w (some (.array s items)) (.array s' next) := by
  have hstamp : (recordOf w (some (.array s items))).stamp = some s :=
    stamp_capture w (.array s items)
  rw [Follows, advance_array hw hstamp hs hc, gather_fst, gather_snd]
  constructor
  · exact records_itemMoves hw h
  · rw [Option.map_some, Node.view_array, Node.view_array]
    exact Diff.leads_of_apply_update (Diff.apply_update_nil_arr _)
      (apply_itemMoves hw hold hnew h)

end Items

/-! #### Places -/

/-- **Moving a cursor along the stamps is right.**  If `new` has come from `old` by changes
    `Since seen`, and nothing in `old` was stamped later than `seen`, then the place `Follows`.  By
    induction on `Since`, whose three cases are those of `advance`. -/
theorem advance_recordOf {w : Whitelist} (hw : w ≠ .nothing) {old : Option Node} {new : Node}
    (h : Node.Since seen old new) (hold : ∀ n, old = some n → n.RegularTo seen)
    (hnew : new.Regular) : Follows w old new := by
  induction h generalizing w with
  | same n =>
    have hsame : advance w n (recordOf w (some n)) = (capture w n, none) :=
      advance_of_stamp_eq (stamp_capture w n)
    rw [Follows, hsame]
    exact ⟨rfl, rfl⟩
  | @renewed old new hlt =>
    refine follows_of_captured ?_
    cases old with
    | none => exact advance_unseen w new
    | some n =>
      -- The old node was not stamped later than `seen`, and the new one was.
      obtain ⟨hn, hr⟩ := hold n rfl
      have hle : n.serial ≤ n.childSerial := hr.serial_le
      have hne : new.serial ≠ n.serial := by omega
      exact advance_of_serial_ne (stamp_capture w n) hne
  -- The child serial has grown beyond `seen`, so the children are gone through, each with its own
  -- induction hypothesis.
  | @object s s' children next hs hc h ih =>
    obtain ⟨hn, hr⟩ := hold _ rfl
    obtain ⟨-, hd, hchild⟩ := Node.regular_object.1 hr
    obtain ⟨-, hd', hchild'⟩ := Node.regular_object.1 hnew
    have hne : s'.childSerial ≠ s.childSerial := Nat.ne_of_gt (Nat.lt_of_le_of_lt hn hc)
    refine follows_object hd hd' ?_ hs hne
    intro key n rule hkey hrule
    exact ih key n hkey (Whitelist.ne_nothing_of_child? hrule)
      (fun m hm => (hchild key m hm).mono hn) (hchild' key n hkey).2
  | @array s s' items next hs hc h ih =>
    obtain ⟨hn, hr⟩ := hold _ rfl
    obtain ⟨-, hl, hitem⟩ := Node.regular_array.1 hr
    obtain ⟨-, hl', hitem'⟩ := Node.regular_array.1 hnew
    have hne : s'.childSerial ≠ s.childSerial := Nat.ne_of_gt (Nat.lt_of_le_of_lt hn hc)
    refine follows_array hw hl hl' ?_ hs hne
    intro i n hi
    exact ih i n hi hw (fun m hm => (hitem i m hm).mono hn) (hitem' i n hi).2

end Move

end Cursor

end Observatory

import Observatory.Proofs.Store.Advance
import Observatory.Proofs.Store.Checked

/-!
# Moves of a cursor with their check

A node that is stamped as the cursor recorded it, but with another change beneath, must have had
that change later: a development build stops if the cursor is ahead.  It is not, whichever
whitelists the reader used on the way; so the moves come to what they come to without the check.

* `Cursor.advanceChecked`: the move with the check;
* `Cursor.Records`: a cursor records the stamps of some parts of a tree;
* `Cursor.records_capture`, `Cursor.Records.smooth`: a capture does so, and a move of such a
  cursor raises no alarm and leaves one.
-/

namespace Observatory

namespace Cursor

mutual

/-- `Cursor.advance` with the check that the cursor is not ahead. -/
def advanceChecked (w : Whitelist) : Node → Cursor → Except Alarm Progress
  | node, cursor =>
    match cursor.stamp with
    | none => .ok (capture w node, some (materialize w node))
    | some seen =>
      if node.serial ≠ seen.serial then .ok (capture w node, some (materialize w node))
      else if node.childSerial = seen.childSerial then .ok (cursor, none)
      else if node.childSerial < seen.childSerial then .error (.cursorAhead node.stamp seen)
      else
        let removed := removedKeys w node cursor.props
        match node with
        | .scalar s _ => .ok (gather s [] removed)
        | .object s children =>
          (advanceChildrenChecked w cursor.props children).map fun parts => gather s parts removed
        | .array s items =>
          match itemRule? w with
          | none => .ok (gather s [] removed)
          | some rule => (advanceItemsChecked rule cursor.props 0 items).map fun parts =>
              gather s (Dict.ofPairs parts) removed

/-- `Cursor.advanceChildren` with the checks of the children. -/
def advanceChildrenChecked (w : Whitelist) (props : Dict Cursor) :
    List (String × Node) → Except Alarm (List (String × Progress))
  | [] => .ok []
  | (key, n) :: rest =>
    match w.child? key with
    | some rule => do
      let move ← advanceChecked rule n ((Dict.get? props key).getD unseen)
      let moves ← advanceChildrenChecked w props rest
      .ok ((key, move) :: moves)
    | none => advanceChildrenChecked w props rest

/-- `Cursor.advanceItems` with the checks of the items. -/
def advanceItemsChecked (w : Whitelist) (props : Dict Cursor) (i : Nat) :
    List Node → Except Alarm (List (String × Progress))
  | [] => .ok []
  | n :: rest => do
    let key := ArrayIndex.text i
    let move ← advanceChecked w n ((Dict.get? props key).getD unseen)
    let moves ← advanceItemsChecked w props (i + 1) rest
    .ok ((key, move) :: moves)

end

/-- The cursor records a place: nothing if nothing stands there, and of a node its stamp and some
    of its parts.  It does not matter which parts, as whitelists may differ from look to look. -/
inductive Records : Cursor → Option Node → Prop
  | nowhere : Records unseen none
  | node {c : Cursor} {n : Node} (hs : c.stamp = some n.stamp)
      (h : ∀ key p, c.prop? key = some p → Records p (Dict.get? n.entries key)) :
      Records c (some n)

section Records

variable {w : Whitelist} {c : Cursor}

/-- `gather` leaves a cursor that `Records` the node if the new records of its parts do. -/
theorem records_gather {s : Stamp} {parts : Dict Progress} {removed : List String} {n : Node}
    (hs : n.stamp = s)
    (h : ∀ key p, Dict.get? parts key = some p → Records p.1 (Dict.get? n.entries key)) :
    Records (gather s parts removed).1 (some n) := by
  refine .node (congrArg some hs.symm) fun key c hc => ?_
  have hget : (Dict.get? parts key).map (fun p => p.1) = some c := by
    rw [← Dict.get?_mapValues, ← records_eq]
    exact hc
  obtain ⟨p, hp, rfl⟩ := Option.map_eq_some_iff.1 hget
  exact h key p hp

/-- A capture `Records` its tree, for every whitelist. -/
theorem records_capture {n : Node} (hn : n.Regular) : Records (capture w n) (some n) := by
  -- Along the tree, for all whitelists at once, since each child has a rule of its own.
  induction n using Node.partsInduction generalizing w with
  | scalar s v => exact .node rfl fun _ _ hp => by cases hp
  | object s children ih =>
    obtain ⟨-, hd, hc⟩ := Node.regular_object.1 hn
    refine .node rfl fun key p hp => ?_
    rw [prop?, capture, props_mk, captureChildren_eq, Dict.get?_select hd.nodup_keys] at hp
    obtain ⟨m, hm, hp⟩ := Option.bind_eq_some_iff.1 hp
    obtain ⟨rule, -, rfl⟩ := Option.map_eq_some_iff.1 hp
    show Records _ (Dict.get? children key)
    rw [hm]
    exact ih (key, m) (Dict.mem_of_get? hm) (hc key m hm).2
  | array s items ih =>
    obtain ⟨-, -, hc⟩ := Node.regular_array.1 hn
    by_cases hw : w = .nothing
    · subst hw
      exact .node rfl fun _ _ hp => by cases hp
    · refine .node (stamp_capture w _) fun key p hp => ?_
      rw [prop?, capture_array hw, props_mk, Dict.get?_ofPairs (Node.nodup_keys_numbered 0 _)] at hp
      obtain ⟨i, rfl, hi⟩ := Node.mem_numbered.1 (Dict.mem_of_get? hp)
      rw [List.getElem?_map] at hi
      obtain ⟨m, hm, rfl⟩ := Option.map_eq_some_iff.1 hi
      show Records _ (Dict.get? (Node.numbered 0 items) (ArrayIndex.text i))
      rw [Node.get?_numbered, hm]
      exact ih m (List.mem_of_getElem? hm) (hc i m hm).2

/-! #### One step of the move -/

/-- No check is made for a cursor that has recorded nothing. -/
theorem advanceChecked_unseen (w : Whitelist) (n : Node) :
    advanceChecked w n unseen = .ok (advance w n unseen) := by
  cases n <;> rfl

/-- No check is made on a node that was stamped anew. -/
theorem advanceChecked_of_serial_ne {n : Node} {seen : Stamp} (hc : c.stamp = some seen)
    (hs : n.serial ≠ seen.serial) : advanceChecked w n c = .ok (advance w n c) := by
  rw [advance_of_serial_ne hc hs, advanceChecked.eq_def]
  dsimp only
  rw [hc]
  exact if_pos hs

/-- No check fails on a node with the recorded stamp. -/
theorem advanceChecked_of_stamp_eq {n : Node} (hc : c.stamp = some n.stamp) :
    advanceChecked w n c = .ok (advance w n c) := by
  rw [advance_of_stamp_eq hc, advanceChecked.eq_def]
  dsimp only
  rw [hc]
  dsimp only
  have hchild : n.childSerial = n.stamp.childSerial := rfl
  rw [if_neg fun h => h rfl, if_pos hchild]

/-- On an object with a later change beneath, the checks are those of its children. -/
theorem advanceChecked_object {s seen : Stamp} {children : Dict Node} (hc : c.stamp = some seen)
    (hs : s.serial = seen.serial) (hlt : seen.childSerial < s.childSerial) :
    advanceChecked w (.object s children) c =
      (advanceChildrenChecked w c.props children).map fun parts =>
        gather s parts (removedKeys w (.object s children) c.props) := by
  rw [advanceChecked.eq_def]
  dsimp only
  rw [hc]
  dsimp only
  rw [if_neg fun h => h hs]
  show (if s.childSerial = seen.childSerial then _ else
    if s.childSerial < seen.childSerial then _ else _) = _
  rw [if_neg (Nat.ne_of_gt hlt), if_neg (Nat.lt_asymm hlt)]

/-- On an array with a later change beneath, the checks are those of its items, if they pass. -/
theorem advanceChecked_array {s seen : Stamp} {items : List Node} (hc : c.stamp = some seen)
    (hs : s.serial = seen.serial) (hlt : seen.childSerial < s.childSerial) :
    advanceChecked w (.array s items) c =
      match itemRule? w with
      | none => .ok (gather s [] (removedKeys w (.array s items) c.props))
      | some rule => (advanceItemsChecked rule c.props 0 items).map fun parts =>
          gather s (Dict.ofPairs parts) (removedKeys w (.array s items) c.props) := by
  rw [advanceChecked.eq_def]
  dsimp only
  rw [hc]
  dsimp only
  rw [if_neg fun h => h hs]
  show (if s.childSerial = seen.childSerial then _ else
    if s.childSerial < seen.childSerial then _ else _) = _
  rw [if_neg (Nat.ne_of_gt hlt), if_neg (Nat.lt_asymm hlt)]

/-- If no check fails on any child, then none fails on all of them, and the moves are those of
    `advanceChildren`. -/
theorem advanceChildrenChecked_eq {props : Dict Cursor} {children : List (String × Node)}
    (h : ∀ p ∈ children, ∀ rule, w.child? p.1 = some rule →
      advanceChecked rule p.2 ((Dict.get? props p.1).getD unseen) =
        .ok (advance rule p.2 ((Dict.get? props p.1).getD unseen))) :
    advanceChildrenChecked w props children = .ok (advanceChildren w props children) := by
  induction children with
  | nil => rfl
  | cons p rest ih =>
    obtain ⟨key, n⟩ := p
    -- A child without a rule is skipped by both; of any other the check comes first.
    have hrest := ih fun q hq => h q (List.mem_cons_of_mem _ hq)
    rw [advanceChildrenChecked, advanceChildren]
    cases hr : w.child? key with
    | none => exact hrest
    | some rule =>
      have hhead := h (key, n) List.mem_cons_self rule hr
      dsimp only at hhead ⊢
      rw [hhead, hrest]
      rfl

/-- If no check fails on any item, then none fails on all of them, and the moves are those of
    `advanceItems`. -/
theorem advanceItemsChecked_eq {props : Dict Cursor} {items : List Node} (k : Nat)
    (h : ∀ (i : Nat) (n : Node), items[i]? = some n →
      advanceChecked w n ((Dict.get? props (ArrayIndex.text (k + i))).getD unseen) =
        .ok (advance w n ((Dict.get? props (ArrayIndex.text (k + i))).getD unseen))) :
    advanceItemsChecked w props k items = .ok (advanceItems w props k items) := by
  induction items generalizing k with
  | nil => rfl
  | cons n rest ih =>
    -- Positions are counted from `k` on, so those of the rest are shifted by one.
    have hhead := h 0 n rfl
    have hrest := ih (k + 1) fun i m hm => by
      have hnext := h (i + 1) m hm
      have hshift : k + (i + 1) = k + 1 + i := by omega
      rwa [hshift] at hnext
    rw [Nat.add_zero] at hhead
    rw [advanceItemsChecked, advanceItems, hhead, hrest]
    rfl

/-- `advance` of an array with a change beneath, for every whitelist: under `nothing` no items are
    gone through. -/
theorem advance_array_rule {s seen : Stamp} {items : List Node} (hc : c.stamp = some seen)
    (hs : s.serial = seen.serial) (hcs : s.childSerial ≠ seen.childSerial) :
    advance w (.array s items) c =
      match itemRule? w with
      | none => gather s [] (removedKeys w (.array s items) c.props)
      | some rule => gather s (Dict.ofPairs (advanceItems rule c.props 0 items))
          (removedKeys w (.array s items) c.props) := by
  rw [advance.eq_def]
  dsimp only
  rw [hc]
  dsimp only
  rw [if_neg fun h => h hs]
  exact if_neg hcs

/-! #### The move as a whole -/

/-- The checked move to a node succeeds with what `advance` gives, and the new cursor `Records` the
    node. -/
def Smooth (w : Whitelist) (c : Cursor) (n : Node) : Prop :=
  advanceChecked w n c = .ok (advance w n c) ∧ Records (advance w n c).1 (some n)

/-- The move of a cursor that has recorded nothing is `Smooth`. -/
theorem smooth_unseen {n : Node} (hn : n.Regular) : Smooth w unseen n :=
  ⟨advanceChecked_unseen w n, advance_unseen w n ▸ records_capture hn⟩

/-- The move of a part is `Smooth` if it is recorded, and also if it is not. -/
theorem smooth_getD {n : Node} {old : Option Node} {o : Option Cursor} (hn : n.Regular)
    (ho : ∀ p, o = some p → Records p old) (h : ∀ p, Records p old → Smooth w p n) :
    Smooth w (o.getD unseen) n := by
  cases o with
  | none => exact smooth_unseen hn
  | some p => exact h p (ho p rfl)

/-- The move of an object is `Smooth` if those of its children are. -/
theorem smooth_object {s seen : Stamp} {children : Dict Node} (hd : Dict.Sorted children)
    (hc : c.stamp = some seen) (hs : s.serial = seen.serial)
    (hlt : seen.childSerial < s.childSerial)
    (h : ∀ key n rule, Dict.get? children key = some n → w.child? key = some rule →
      Smooth rule ((Dict.get? c.props key).getD unseen) n) :
    Smooth w c (.object s children) := by
  -- No check fails on a child that has a rule, so the moves are those without checks.
  have hmoves : advanceChildrenChecked w c.props children =
      .ok (advanceChildren w c.props children) := by
    refine advanceChildrenChecked_eq fun p hp rule hr => ?_
    exact (h p.1 p.2 rule (Dict.get?_of_mem hd.nodup_keys hp) hr).1
  rw [Smooth, advanceChecked_object hc hs hlt, advance_object hc hs (Nat.ne_of_gt hlt), hmoves]
  refine ⟨rfl, records_gather rfl fun key p hp => ?_⟩
  rw [advanceChildren_eq, Dict.get?_select hd.nodup_keys] at hp
  obtain ⟨n, hn, hp⟩ := Option.bind_eq_some_iff.1 hp
  obtain ⟨rule, hr, rfl⟩ := Option.map_eq_some_iff.1 hp
  show Records _ (Dict.get? children key)
  rw [hn]
  exact (h key n rule hn hr).2

/-- The move of an array is `Smooth` if those of its items are. -/
theorem smooth_array {s seen : Stamp} {items : List Node} (hc : c.stamp = some seen)
    (hs : s.serial = seen.serial) (hlt : seen.childSerial < s.childSerial)
    (h : ∀ (i : Nat) (n : Node), items[i]? = some n →
      Smooth w ((Dict.get? c.props (ArrayIndex.text i)).getD unseen) n) :
    Smooth w c (.array s items) := by
  rw [Smooth, advanceChecked_array hc hs hlt, advance_array_rule hc hs (Nat.ne_of_gt hlt)]
  by_cases hw : w = .nothing
  · subst hw
    exact ⟨rfl, records_gather rfl nofun⟩
  · rw [Whitelist.itemRule?_of_ne hw]
    have hmoves : advanceItemsChecked w c.props 0 items = .ok (advanceItems w c.props 0 items) := by
      refine advanceItemsChecked_eq 0 fun i n hn => ?_
      rw [Nat.zero_add]
      exact (h i n hn).1
    dsimp only
    rw [hmoves]
    have hkeys : (Dict.keys (advanceItems w c.props 0 items)).Nodup := by
      rw [keys_advanceItems]
      exact Node.nodup_keys_numbered 0 items
    refine ⟨rfl, records_gather rfl fun key p hp => ?_⟩
    rw [Dict.get?_ofPairs hkeys] at hp
    -- Every move is that of an item at some position.
    have hkey : key ∈ Dict.keys (Node.numbered 0 items) := by
      rw [← keys_advanceItems w c.props, ← Dict.isSome_get?_iff, hp]
      rfl
    obtain ⟨i, -, rfl⟩ := Node.mem_keys_numbered.1 hkey
    rw [Nat.zero_add] at hp ⊢
    rw [get?_advanceItems] at hp
    obtain ⟨n, hn, rfl⟩ := Option.map_eq_some_iff.1 hp
    show Records _ (Dict.get? (Node.numbered 0 items) (ArrayIndex.text i))
    rw [Node.get?_numbered, hn]
    exact (h i n hn).2

/-- A cursor that `Records` what stood at a place, however long ago, has a `Smooth` move to what
    stands there now by changes `Since`.  The recorded child serial is then at most `seen`, which
    is why the cursor is never ahead. -/
theorem Records.smooth {seen : Nat} {old : Option Node} {new : Node} (hc : Records c old)
    (h : Node.Since seen old new) (hold : ∀ n, old = some n → n.RegularTo seen)
    (hnew : new.Regular) : Smooth w c new := by
  induction h generalizing w c with
  | same n =>
    cases hc with
    | node hs h =>
      rw [Smooth, advanceChecked_of_stamp_eq hs, advance_of_stamp_eq hs]
      exact ⟨rfl, .node hs h⟩
  | @renewed old new hlt =>
    cases hc with
    | nowhere => exact smooth_unseen hnew
    | @node _ n hs h =>
      -- The recorded node is not stamped later than `seen`, the present one is.
      have hserial : n.stamp.serial ≤ seen := (hold n rfl).serial_le
      have hne : new.serial ≠ n.stamp.serial := by omega
      rw [Smooth, advanceChecked_of_serial_ne hs hne, advance_of_serial_ne hs hne]
      exact ⟨rfl, records_capture hnew⟩
  -- The recorded child serial is at most `seen`, and that of the present node is later.
  | @object s s' children next hs hlt hsince ih =>
    cases hc with
    | node hstamp h =>
      obtain ⟨hle, hchild⟩ := (hold _ rfl).child
      obtain ⟨-, hd, hnext⟩ := Node.regular_object.1 hnew
      refine smooth_object hd hstamp hs (Nat.lt_of_le_of_lt hle hlt) fun key n rule hn hr => ?_
      have hreg : n.Regular := (hnext key n hn).2
      exact smooth_getD hreg (h key) fun p hp => ih key n hn hp (hchild key) hreg
  | @array s s' items next hs hlt hsince ih =>
    cases hc with
    | node hstamp h =>
      obtain ⟨hle, hitem⟩ := (hold _ rfl).item
      obtain ⟨-, -, hnext⟩ := Node.regular_array.1 hnew
      refine smooth_array hstamp hs (Nat.lt_of_le_of_lt hle hlt) fun i n hn => ?_
      have hreg : n.Regular := (hnext i n hn).2
      have hrec : ∀ p, c.prop? (ArrayIndex.text i) = some p → Records p items[i]? := by
        rw [← Node.get?_numbered]
        exact h (ArrayIndex.text i)
      exact smooth_getD hreg hrec fun p hp => ih i n hn hp (hitem i) hreg

end Records

end Cursor

end Observatory

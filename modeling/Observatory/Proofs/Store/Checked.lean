import Observatory.Proofs.Store.Change

/-!
# Changes with their checks

A change relies on two things without looking at them in every run: a change beneath a node is
not older than the changes that the node knows of, and a renewal is not older than the node.  A
development build checks both on the way and stops at a failure.  Here are the changes with
these checks, and the proof that in a tree that is not ahead of the serial they come to what
they come to without.

* `Alarm`, `Stamp.bubbleChecked`, `Stamp.renewChecked`: the checks;
* `Node.assignChecked`, `Node.setAtChecked`, `Node.removeAtChecked`, `Node.touchAtChecked`: the
  changes that make them;
* `Node.setAtChecked_eq`, `Node.removeAtChecked_eq`, `Node.touchAtChecked_eq`: none fails.
-/

namespace Observatory

/-- A check that failed. -/
inductive Alarm where
  /-- A change beneath a part is older than one that the part knows of. -/
  | staleChange (stamp : Stamp) (serial : Nat)
  /-- A renewal is older than the part. -/
  | staleRenewal (stamp : Stamp) (serial : Nat)
  /-- A cursor has seen a later change beneath a part than there is. -/
  | cursorAhead (stamp seen : Stamp)

namespace Stamp

/-- The stamp after a change beneath, which must not be older than the others there. -/
def bubbleChecked (s : Stamp) (serial : Nat) : Except Alarm Stamp :=
  if s.childSerial ≤ serial then .ok (s.bubble serial) else .error (.staleChange s serial)

/-- The stamp after a change of the part itself, which must not be older than the part. -/
def renewChecked (s : Stamp) (serial : Nat) : Except Alarm Stamp :=
  if s.serial ≤ serial then .ok (s.renew serial) else .error (.staleRenewal s serial)

variable {s : Stamp} {serial : Nat}

/-- `bubbleChecked` succeeds at a serial that is not behind the child serial. -/
theorem bubbleChecked_eq (h : s.childSerial ≤ serial) :
    s.bubbleChecked serial = .ok (s.bubble serial) := if_pos h

/-- `renewChecked` succeeds at a serial that is not behind the serial of the part. -/
theorem renewChecked_eq (h : s.serial ≤ serial) : s.renewChecked serial = .ok (s.renew serial) :=
  if_pos h

end Stamp

namespace Node

/-! ### Changes -/

mutual

/-- `Node.assign` with its checks. -/
def assignChecked (serial : Nat) : Json → Node → Except Alarm (Option Node)
  | .scalar v, .scalar s old =>
    if old.same v then .ok none
    else (s.renewChecked serial).map fun s => some (.scalar s v)
  | .obj fields, .object s children => do
    let (next, changed) ← assignFieldsChecked serial children fields
    if changed || children.any (fun c => !Dict.contains fields c.1) then
      (s.bubbleChecked serial).map fun s => some (.object s next)
    else .ok none
  | .arr values, .array s items => do
    let (next, changed) ← assignItemsChecked serial items values
    if changed then (s.bubbleChecked serial).map fun s => some (.array s next) else .ok none
  | v, _ => .ok (some (build serial v))

/-- `Node.assignFields` with the checks of the children. -/
def assignFieldsChecked (serial : Nat) (children : Dict Node) :
    List (String × Json) → Except Alarm (List (String × Node) × Bool)
  | [] => .ok ([], false)
  | (k, v) :: rest => do
    let (tail, changed) ← assignFieldsChecked serial children rest
    match Dict.get? children k with
    | none => .ok ((k, build serial v) :: tail, true)
    | some child =>
      let outcome ← assignChecked serial v child
      match outcome with
      | none => .ok ((k, child) :: tail, changed)
      | some next => .ok ((k, next) :: tail, true)

/-- `Node.assignItems` with the checks of the items. -/
def assignItemsChecked (serial : Nat) :
    List Node → List Json → Except Alarm (List Node × Bool)
  | items, [] => .ok ([], !items.isEmpty)
  | [], v :: rest => .ok (build serial v :: buildItems serial rest, true)
  | item :: items, v :: rest => do
    let (tail, changed) ← assignItemsChecked serial items rest
    let outcome ← assignChecked serial v item
    match outcome with
    | none => .ok (item :: tail, changed)
    | some next => .ok (next :: tail, true)

end

/-- A node of which a part was changed, if it was, learns of the change. -/
def learnChecked (serial : Nat) (s : Stamp) (hold : Stamp → Node → Node) :
    Option Node → Except Alarm (Option Node)
  | none => .ok none
  | some next => (s.bubbleChecked serial).map fun s => some (hold s next)

/-- What a change of a part comes to for the node that has the part under `key`. -/
def passChecked (serial : Nat) (key : String) (s : Stamp) (hold : Stamp → Node → Node) :
    Except StoreError (Option Node) → Except Alarm (Except StoreError (Option Node))
  | .error e => .ok (.error (e.under key))
  | .ok o => (learnChecked serial s hold o).map .ok

/-- `Node.setAt` with its checks. -/
def setAtChecked (serial : Nat) (value : Json) :
    List String → Node → Except Alarm (Except StoreError (Option Node))
  | [], node => (assignChecked serial value node).map .ok
  | key :: rest, .scalar _ _ =>
    ((Stamp.fresh serial).bubbleChecked serial).map fun s =>
      .ok (some (.object s [(key, buildPath serial value rest)]))
  | key :: rest, .object s children =>
    match Dict.get? children key with
    | none => (s.bubbleChecked serial).map fun s =>
        .ok (some (.object s (Dict.insert children key (buildPath serial value rest))))
    | some child => do
      let outcome ← setAtChecked serial value rest child
      passChecked serial key s (fun s next => .object s (Dict.insert children key next)) outcome
  | key :: rest, .array s items =>
    match ArrayIndex.parse? key with
    | none => .ok (.error (.invalidPath [key] .notPosition))
    | some i =>
      match items[i]? with
      | some item => do
        let outcome ← setAtChecked serial value rest item
        passChecked serial key s (fun s next => .array s (items.set i next)) outcome
      | none =>
        if i = items.length then
          (s.bubbleChecked serial).map fun s =>
            .ok (some (.array s (items ++ [buildPath serial value rest])))
        else .ok (.error (.indexOutOfRange [] i items.length))

/-- `Node.removeAt` with its checks. -/
def removeAtChecked (serial : Nat) :
    List String → Node → Except Alarm (Except StoreError (Option Node))
  | [], _ => .ok (.error (.invalidPath [] .removesRoot))
  | _ :: _, .scalar _ _ => .ok (.ok none)
  | key :: rest, .object s children =>
    match Dict.get? children key with
    | none => .ok (.ok none)
    | some child =>
      if rest.isEmpty then
        (s.bubbleChecked serial).map fun s => .ok (some (.object s (Dict.erase children key)))
      else do
        let outcome ← removeAtChecked serial rest child
        passChecked serial key s (fun s next => .object s (Dict.insert children key next)) outcome
  | key :: rest, .array s items =>
    match ArrayIndex.parse? key with
    | none => .ok (.error (.invalidPath [key] .notPosition))
    | some i =>
      match items[i]? with
      | none => .ok (.ok none)
      | some item =>
        if rest.isEmpty then
          (s.renewChecked serial).map fun s => .ok (some (.array s (items.eraseIdx i)))
        else do
          let outcome ← removeAtChecked serial rest item
          passChecked serial key s (fun s next => .array s (items.set i next)) outcome

/-- `Node.touchAt` with its checks. -/
def touchAtChecked (serial : Nat) : List String → Node → Except Alarm (Option Node)
  | [], node => (node.stamp.renewChecked serial).map fun s => some (node.withStamp s)
  | _ :: _, .scalar _ _ => .ok none
  | key :: rest, .object s children =>
    match Dict.get? children key with
    | none => .ok none
    | some child => do
      let outcome ← touchAtChecked serial rest child
      learnChecked serial s (fun s next => .object s (Dict.insert children key next)) outcome
  | key :: rest, .array s items =>
    match ArrayIndex.parse? key with
    | none => .ok none
    | some i =>
      match items[i]? with
      | none => .ok none
      | some item => do
        let outcome ← touchAtChecked serial rest item
        learnChecked serial s (fun s next => .array s (items.set i next)) outcome

section Checked

variable {serial : Nat}

/-- If no check fails on any child that is assigned, then none fails in `assignFieldsChecked`. -/
theorem assignFieldsChecked_eq {children : Dict Node} {fields : List (String × Json)}
    (h : ∀ p ∈ fields, ∀ child, Dict.get? children p.1 = some child →
      assignChecked serial p.2 child = .ok (assign serial p.2 child)) :
    assignFieldsChecked serial children fields = .ok (assignFields serial children fields) := by
  induction fields with
  | nil => rfl
  | cons p rest ih =>
    obtain ⟨k, v⟩ := p
    have hrest := ih fun q hq => h q (List.mem_cons_of_mem _ hq)
    rw [assignFieldsChecked, assignFields, hrest]
    show (match Dict.get? children k with | none => _ | some child => _) = _
    cases hk : Dict.get? children k with
    | none => rfl
    | some child =>
      -- The first field is checked only if there is a child for it.
      have hhead := h (k, v) List.mem_cons_self child hk
      dsimp only at hhead ⊢
      rw [hhead]
      cases assign serial v child <;> rfl

/-- If no check fails on any item that is assigned, then none fails in `assignItemsChecked`. -/
theorem assignItemsChecked_eq {items : List Node} {values : List Json}
    (h : ∀ v ∈ values, ∀ item ∈ items, assignChecked serial v item = .ok (assign serial v item)) :
    assignItemsChecked serial items values = .ok (assignItems serial items values) := by
  induction values generalizing items with
  | nil => cases items <;> rfl
  | cons v rest ih =>
    cases items with
    | nil => rfl
    | cons item items =>
      -- The rest of the items succeeds first, as it is assigned first.
      have htail : assignItemsChecked serial items rest = .ok (assignItems serial items rest) :=
        ih fun u hu m hm => h u (List.mem_cons_of_mem _ hu) m (List.mem_cons_of_mem _ hm)
      have hhead := h v List.mem_cons_self item List.mem_cons_self
      unfold assignItemsChecked assignItems
      rw [htail]
      show (assignChecked serial v item >>= _) = _
      rw [hhead]
      show (match assign serial v item with | none => _ | some next => _) = _
      cases assign serial v item <;> rfl

/-- In a tree that is `RegularTo serial` no check of `assignChecked` fails, and it does what
    `assign` does. -/
theorem assignChecked_eq {v : Json} {n : Node} (h : n.RegularTo serial) :
    assignChecked serial v n = .ok (assign serial v n) := by
  -- Along the value; the checks of the parts succeed, as their stamps are not later than that of
  -- the node.
  induction v using Json.partsInduction generalizing n with
  | scalar a =>
    cases n with
    | object s children => rfl
    | array s items => rfl
    | scalar s b =>
      have hserial : s.serial ≤ serial := h.serial_le
      unfold assignChecked assign
      cases b.same a with
      | true => rfl
      | false =>
        rw [Stamp.renewChecked_eq hserial]
        rfl
  | obj fields ih =>
    cases n with
    | scalar s b => rfl
    | array s items => rfl
    | object s children =>
      obtain ⟨hle, hchild⟩ := h.child
      have hfields : assignFieldsChecked serial children fields =
          .ok (assignFields serial children fields) :=
        assignFieldsChecked_eq fun p hp child hk => ih p hp (hchild p.1 child hk)
      unfold assignChecked assign
      rw [hfields]
      show (if _ then _ else _) = Except.ok (if _ then _ else _)
      rw [Stamp.bubbleChecked_eq hle]
      split <;> rfl
  | arr values ih =>
    cases n with
    | scalar s b => rfl
    | object s children => rfl
    | array s items =>
      obtain ⟨hle, hitem⟩ := h.item
      have hitems : assignItemsChecked serial items values =
          .ok (assignItems serial items values) := by
        refine assignItemsChecked_eq fun v hv item hi => ?_
        obtain ⟨i, hi⟩ := List.getElem?_of_mem hi
        exact ih v hv (hitem i item hi)
      unfold assignChecked assign
      rw [hitems]
      show (if _ then _ else _) = Except.ok (if _ then _ else _)
      rw [Stamp.bubbleChecked_eq hle]
      split <;> rfl

/-- The check of `learnChecked` does not fail on a node that is not ahead of the serial. -/
theorem learnChecked_eq {s : Stamp} (hs : s.childSerial ≤ serial) (hold : Stamp → Node → Node)
    (o : Option Node) : learnChecked serial s hold o = .ok (o.map (hold (s.bubble serial))) := by
  cases o with
  | none => rfl
  | some next =>
    rw [learnChecked, Stamp.bubbleChecked_eq hs]
    rfl

/-- The check of `passChecked` does not fail on a node that is not ahead of the serial, and it
    passes on what the change of the part came to. -/
theorem passChecked_eq {s : Stamp} (hs : s.childSerial ≤ serial) (key : String)
    (hold : Stamp → Node → Node) (outcome : Except StoreError (Option Node)) :
    passChecked serial key s hold outcome =
      .ok (Change.pass key (hold (s.bubble serial)) outcome) := by
  rcases outcome with e | o
  · rfl
  · rw [passChecked, learnChecked_eq hs]
    cases o <;> rfl

/-- In a tree that is `RegularTo serial` no check of `setAtChecked` fails, and it does what `setAt`
    does, errors included. -/
theorem setAtChecked_eq {v : Json} {path : List String} {n : Node} (h : n.RegularTo serial) :
    setAtChecked serial v path n = .ok (setAt serial v path n) := by
  induction path generalizing n with
  | nil =>
    rw [setAtChecked, assignChecked_eq h, setAt]
    rfl
  | cons key rest ih =>
    cases n with
    -- The object that takes the place of a scalar is stamped and bubbled at the same serial.
    | scalar s b =>
      rw [setAtChecked, Stamp.bubbleChecked_eq (Nat.le_refl serial)]
      show Except.ok (Except.ok (some (object ⟨serial, max serial serial⟩ _))) = _
      rw [Nat.max_self]
      rfl
    | object s children =>
      obtain ⟨hle, hchild⟩ := h.child
      unfold setAtChecked
      cases hk : Dict.get? children key with
      | none =>
        simp only [setAt, hk, Stamp.bubbleChecked_eq hle]
        rfl
      | some child =>
        dsimp only
        rw [ih (hchild key child hk)]
        show passChecked serial key s _ (setAt serial v rest child) = _
        rw [passChecked_eq hle]
        exact congrArg Except.ok (Change.attempt_child (c := .set v) hk rfl).symm
    | array s items =>
      obtain ⟨hle, hitem⟩ := h.item
      unfold setAtChecked
      cases hp : ArrayIndex.parse? key with
      | none => simp only [setAt, hp]
      | some i =>
        dsimp only
        cases hi : items[i]? with
        | none =>
          simp only [setAt, hp, hi, Stamp.bubbleChecked_eq hle]
          split <;> rfl
        | some item =>
          dsimp only
          rw [ih (hitem i item hi)]
          show passChecked serial key s _ (setAt serial v rest item) = _
          rw [passChecked_eq hle]
          exact congrArg Except.ok (Change.attempt_item (c := .set v) hp hi rfl).symm

/-- In a tree that is `RegularTo serial` no check of `removeAtChecked` fails, and it does what
    `removeAt` does. -/
theorem removeAtChecked_eq {path : List String} {n : Node} (h : n.RegularTo serial) :
    removeAtChecked serial path n = .ok (removeAt serial path n) := by
  induction path generalizing n with
  | nil => rfl
  | cons key rest ih =>
    -- A path that goes on is not that of a node to take away, so the change is passed on as others
    -- are.
    have hlast : rest.isEmpty = false → Change.remove.takesAway rest = false := by
      cases rest <;> simp [Change.takesAway]
    cases n with
    | scalar s b => rfl
    | object s children =>
      obtain ⟨hle, hchild⟩ := h.child
      unfold removeAtChecked
      cases hk : Dict.get? children key with
      | none => simp only [removeAt, hk]
      | some child =>
        dsimp only
        cases hrest : rest.isEmpty with
        | true =>
          simp only [removeAt, hk, hrest, if_true, Stamp.bubbleChecked_eq hle]
          rfl
        | false =>
          rw [if_neg Bool.false_ne_true, ih (hchild key child hk)]
          show passChecked serial key s _ (removeAt serial rest child) = _
          rw [passChecked_eq hle]
          exact congrArg Except.ok (Change.attempt_child hk (hlast hrest)).symm
    | array s items =>
      obtain ⟨hle, hitem⟩ := h.item
      have hserial : s.serial ≤ serial := h.serial_le
      unfold removeAtChecked
      cases hp : ArrayIndex.parse? key with
      | none => simp only [removeAt, hp]
      | some i =>
        dsimp only
        cases hi : items[i]? with
        | none => simp only [removeAt, hp, hi]
        | some item =>
          dsimp only
          cases hrest : rest.isEmpty with
          | true =>
            simp only [removeAt, hp, hi, hrest, if_true, Stamp.renewChecked_eq hserial]
            rfl
          | false =>
            rw [if_neg Bool.false_ne_true, ih (hitem i item hi)]
            show passChecked serial key s _ (removeAt serial rest item) = _
            rw [passChecked_eq hle]
            exact congrArg Except.ok (Change.attempt_item hp hi (hlast hrest)).symm

/-- In a tree that is `RegularTo serial` no check of `touchAtChecked` fails, and it does what
    `touchAt` does. -/
theorem touchAtChecked_eq {path : List String} {n : Node} (h : n.RegularTo serial) :
    touchAtChecked serial path n = .ok (touchAt serial path n) := by
  -- Along the path; the check of each node is that its child serial is not later than the serial.
  induction path generalizing n with
  | nil =>
    have hserial : n.stamp.serial ≤ serial := h.serial_le
    rw [touchAtChecked, Stamp.renewChecked_eq hserial]
    rfl
  | cons key rest ih =>
    cases n with
    | scalar s b => rfl
    | object s children =>
      obtain ⟨hle, hchild⟩ := h.child
      unfold touchAtChecked touchAt
      cases hk : Dict.get? children key with
      | none => rfl
      | some child =>
        dsimp only
        rw [ih (hchild key child hk)]
        exact learnChecked_eq hle _ _
    | array s items =>
      obtain ⟨hle, hitem⟩ := h.item
      unfold touchAtChecked touchAt
      cases ArrayIndex.parse? key with
      | none => rfl
      | some i =>
        dsimp only
        cases hi : items[i]? with
        | none => rfl
        | some item =>
          dsimp only
          rw [ih (hitem i item hi)]
          exact learnChecked_eq hle _ _

end Checked

end Node

end Observatory

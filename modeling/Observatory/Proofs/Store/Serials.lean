import Observatory.Proofs.Store.Checked

/-!
# Serials

The stamps of a tree are in order: those of a node are not ahead of the clock, and nothing
beneath it is stamped later than its child serial.  A change stamps what it changes with the
serial of the open tick.  That serial is later than every stamp of the tree at the moment the
tick is opened, and all changes share it until the tick is closed.

* `Node.Stamped`: the stamps of one node and of what is beneath it;
* `Node.Stood`, `Node.Marked`: a node that a change left as it was, or stamped;
* `Store.Op.serial?`, `Store.Op.closes`: the serial that a request changes the tree with, and
  the requests that close the tick;
* `Store.Orderly`: the above, of one store and of all that it comes to;
* `Store.Valid.orderly`: so it is in every run.
-/

namespace Observatory

namespace Node

/-! ### Stamps of one tree -/

/-- The stamps of a node: none is ahead of the clock, and its child serial is not behind its
    own serial nor behind any stamp beneath; a scalar, with nothing beneath, has one serial. -/
structure Stamped (clock : Nat) (n : Node) : Prop where
  ordered : n.serial ≤ n.childSerial
  drawn : n.childSerial ≤ clock
  scalar : n.isComposite = false → n.childSerial = n.serial
  covers : ∀ path m, n.descendant? path = some m →
    m.serial ≤ n.childSerial ∧ m.childSerial ≤ n.childSerial

section Stamped

variable {bound : Nat} {n m : Node}

/-- A node that is `RegularTo bound` is `Stamped` with `bound` as the clock. -/
theorem RegularTo.stamped (h : n.RegularTo bound) : n.Stamped bound where
  ordered := h.2.serial_le
  drawn := h.1
  scalar := by
    intro hs
    cases n with
    | scalar s v => exact h.2
    | object s children => cases hs
    | array s items => cases hs
  covers := by
    intro path m hm
    have hself : n.RegularTo n.childSerial := ⟨Nat.le_refl _, h.2⟩
    have hbeneath : m.RegularTo n.childSerial := hself.descendant? hm
    exact ⟨hbeneath.serial_le, hbeneath.1⟩

theorem childrenConsistent_of {children : List (String × Node)}
    (h : ∀ p ∈ children, p.2.RegularTo bound ∧ p.2.serialsConsistent = true) :
    childrenConsistent bound children = true := by
  induction children with
  | nil => rfl
  | cons p rest ih =>
    obtain ⟨hr, hc⟩ := h p List.mem_cons_self
    have hrest := ih fun q hq => h q (List.mem_cons_of_mem _ hq)
    simp [childrenConsistent, hr.serial_le, hr.1, hc, hrest]

theorem itemsConsistent_of {items : List Node}
    (h : ∀ m ∈ items, m.RegularTo bound ∧ m.serialsConsistent = true) :
    itemsConsistent bound items = true := by
  induction items with
  | nil => rfl
  | cons m rest ih =>
    obtain ⟨hr, hc⟩ := h m List.mem_cons_self
    have hrest := ih fun q hq => h q (List.mem_cons_of_mem _ hq)
    simp [itemsConsistent, hr.serial_le, hr.1, hc, hrest]

/-- The test `serialsConsistent`, which a program can run, succeeds on every `Regular` tree. -/
theorem Regular.serialsConsistent (h : n.Regular) : n.serialsConsistent = true := by
  -- The test goes through the tree as the definition does.
  induction n using Node.partsInduction with
  | scalar s v =>
    rw [Node.serialsConsistent]
    exact beq_iff_eq.2 h
  | object s children ih =>
    obtain ⟨hle, -, hc⟩ := h
    have hchildren : childrenConsistent s.childSerial children = true :=
      childrenConsistent_of fun p hp =>
        have hr := regularChildren_iff.1 hc p hp
        ⟨hr, ih p hp hr.2⟩
    simp [Node.serialsConsistent, hle, hchildren]
  | array s items ih =>
    obtain ⟨hle, -, hc⟩ := h
    have hitems : itemsConsistent s.childSerial items = true :=
      itemsConsistent_of fun m hm =>
        have hr := regularItems_iff.1 hc m hm
        ⟨hr, ih m hm hr.2⟩
    simp [Node.serialsConsistent, hle, hitems]

end Stamped

/-! ### Stamps after a change -/

/-- A node, with all that is beneath it, was part of what stood at a place. -/
def Stood (old : Option Node) (m : Node) : Prop :=
  ∃ path n, old = some n ∧ n.descendant? path = some m

/-- A node after a change at `serial`: that is the serial of the node, or its serial is that of
    a node that stood there; and that is its child serial, or the whole node stood there. -/
structure Marked (serial : Nat) (old : Option Node) (m : Node) : Prop where
  self : m.serial = serial ∨ ∃ n, Stood old n ∧ m.serial = n.serial
  beneath : m.childSerial = serial ∨ Stood old m

section Marked

variable {serial : Nat} {m : Node}

/-- What `Stood` under a key of a node stood in the node. -/
theorem Stood.of_child? {n : Node} {key : String} (h : Stood (n.child? key) m) :
    Stood (some n) m := by
  obtain ⟨path, c, hc, hm⟩ := h
  refine ⟨key :: path, n, rfl, ?_⟩
  rw [descendant?, hc]
  exact hm

/-- What stood in an item of an array stood in the array, under the spelling of the item's
    position. -/
theorem stood_of_mem {s : Stamp} {items : List Node} {c : Node} {path : List String}
    (hl : items.length ≤ ArrayIndex.limit) (hc : c ∈ items) (hm : c.descendant? path = some m) :
    Stood (some (array s items)) m := by
  obtain ⟨k, hk⟩ := List.getElem?_of_mem hc
  have hlt : k < ArrayIndex.limit := by
    have hk := (List.getElem?_eq_some_iff.1 hk).1
    omega
  have hchild : (array s items).child? (ArrayIndex.text k) = some c := by
    rw [child?, ArrayIndex.parse?_text hlt]
    exact hk
  have hstood : Stood ((array s items).child? (ArrayIndex.text k)) m := ⟨path, c, hchild, hm⟩
  exact hstood.of_child?

/-- A node that `Stood` there as it is satisfies `Marked` for every serial. -/
theorem Stood.marked {old : Option Node} (h : Stood old m) : Marked serial old m :=
  ⟨.inr ⟨m, h, rfl⟩, .inr h⟩

/-- What is `Marked` for the part under a key is so for the node. -/
theorem Marked.of_child? {n : Node} {key : String} (h : Marked serial (n.child? key) m) :
    Marked serial (some n) m where
  self := h.self.imp_right fun ⟨k, hk, he⟩ => ⟨k, hk.of_child?, he⟩
  beneath := h.beneath.imp_right Stood.of_child?

/-- Everything in `build serial v` is `Marked` by its own stamp. -/
theorem marked_build {v : Json} {old : Option Node} {path : List String}
    (h : (build serial v).descendant? path = some m) : Marked serial old m := by
  -- Along the path through the value that is built.
  induction path generalizing v with
  | nil =>
    cases h
    exact ⟨.inl (serial_build serial v), .inl (childSerial_build serial v)⟩
  | cons key rest ih =>
    obtain ⟨c, hc, hm⟩ := Option.bind_eq_some_iff.1 h
    cases v with
    | scalar a => cases hc
    | obj fields =>
      rw [build, buildFields_eq, child?, Dict.get?_mapValues] at hc
      obtain ⟨u, -, rfl⟩ := Option.map_eq_some_iff.1 hc
      exact ih hm
    | arr items =>
      rw [build, buildItems_eq, child?] at hc
      obtain ⟨i, -, hi⟩ := Option.bind_eq_some_iff.1 hc
      rw [List.getElem?_map] at hi
      obtain ⟨u, -, rfl⟩ := Option.map_eq_some_iff.1 hi
      exact ih hm

/-- After an `Edit` of a node that is not ahead of the serial, either nothing was changed or the
    child serial is that of the change. -/
theorem Edit.childSerial_eq {old new : Node} (h : Edit serial (some old) new)
    (hold : old.RegularTo serial) : new = old ∨ new.childSerial = serial := by
  have hmax : max old.childSerial serial = serial := Nat.max_eq_right hold.1
  cases h with
  | kept => exact .inl rfl
  | built hv => exact .inr (childSerial_build serial _)
  | scalar s a b => exact .inr hmax
  | renewed =>
    refine .inr ?_
    cases old <;> exact hmax
  | taken s items i => exact .inr hmax
  | object hs h => exact .inr hmax
  | array hl h => exact .inr hmax

/-- An `Edit` does not make the child serial smaller. -/
theorem Edit.childSerial_le {old new : Node} (h : Edit serial (some old) new)
    (hold : old.RegularTo serial) : old.childSerial ≤ new.childSerial := by
  rcases h.childSerial_eq hold with rfl | he
  · exact Nat.le_refl _
  · exact he ▸ hold.1

/-- A node with the child serial of the change is `Marked`, and so is everything beneath if it is
    for each part. -/
theorem marked_of_parts {old new : Node} {path : List String}
    (hm : new.descendant? path = some m) (hself : new.serial = serial ∨ new.serial = old.serial)
    (hbeneath : new.childSerial = serial)
    (hpart : ∀ key c rest, new.child? key = some c → c.descendant? rest = some m →
      Marked serial (some old) m) : Marked serial (some old) m := by
  cases path with
  | nil =>
    cases hm
    exact ⟨hself.imp_right fun he => ⟨old, ⟨[], old, rfl, rfl⟩, he⟩, .inl hbeneath⟩
  | cons key rest =>
    obtain ⟨c, hc, hm⟩ := Option.bind_eq_some_iff.1 hm
    exact hpart key c rest hc hm

/-- After an `Edit` at a serial that is not behind the tree, every node is `Marked`: it carries
    that serial, or it stood there before. -/
theorem Edit.marked {old : Option Node} {new : Node} (h : Edit serial old new)
    (hold : ∀ n, old = some n → n.RegularTo serial) {path : List String}
    (hm : new.descendant? path = some m) : Marked serial old m := by
  induction h generalizing path with
  | kept n => exact Stood.marked ⟨path, n, rfl, hm⟩
  -- The remaining cases differ in how the parts of the new node come from those of the old one.
  | built hv => exact marked_build hm
  | scalar s a b =>
    exact marked_of_parts hm (.inl rfl) (Nat.max_eq_right (hold _ rfl).1) nofun
  | renewed n =>
    have hchild : ∀ key, (n.renew serial).child? key = n.child? key := by
      intro key
      cases n <;> rfl
    have hmax : (n.renew serial).childSerial = serial := by
      have hle : max n.childSerial serial = serial := Nat.max_eq_right (hold n rfl).1
      cases n <;> exact hle
    refine marked_of_parts hm (.inl (serial_renew n serial)) hmax fun key c rest hc hm => ?_
    rw [hchild] at hc
    have hstood : Stood (n.child? key) m := ⟨rest, c, hc, hm⟩
    exact hstood.of_child?.marked
  | taken s items i =>
    have hreg : (Node.array s items).RegularTo serial := hold _ rfl
    refine marked_of_parts hm (.inl rfl) (Nat.max_eq_right hreg.1) fun key c rest hc hm => ?_
    -- The item stood there before, under its own position or the next one.
    obtain ⟨j, -, hj⟩ := Option.bind_eq_some_iff.1 hc
    have hmem : c ∈ items := (List.eraseIdx_sublist items i).subset (List.mem_of_getElem? hj)
    exact (stood_of_mem (regular_array.1 hreg.2).2.1 hmem hm).marked
  | @object s children next hs h ih =>
    obtain ⟨hle, hchild⟩ := (hold _ rfl).child
    refine marked_of_parts hm (.inr rfl) (Nat.max_eq_right hle) fun key c rest hc hm => ?_
    have hmarked : Marked serial ((Node.object s children).child? key) m :=
      ih key c hc (hchild key) hm
    exact hmarked.of_child?
  | @array s items next hl h ih =>
    obtain ⟨hle, hitem⟩ := (hold _ rfl).item
    refine marked_of_parts hm (.inr rfl) (Nat.max_eq_right hle) fun key c rest hc hm => ?_
    obtain ⟨i, hi, hc⟩ := Option.bind_eq_some_iff.1 hc
    have hchild : (Node.array s items).child? key = items[i]? := by
      rw [child?, hi]
      rfl
    have hmarked : Marked serial ((Node.array s items).child? key) m := by
      rw [hchild]
      exact ih i c hc (hitem i) hm
    exact hmarked.of_child?

/-- `Change.apply` is an `Edit`, for each of the three changes and every path. -/
theorem edit_apply {c : Change} (hc : ∀ v, c = .set v → v.Proper) (path : List String) (n : Node) :
    Edit serial (some n) (c.apply serial path n) := by
  rw [Change.apply]
  cases h : c.attempt serial path n with
  | error e => exact .kept n
  | ok o =>
    cases o with
    | none => exact .kept n
    | some next =>
      cases c with
      | set v => exact edit_setAt (hc v rfl) h
      | remove => exact edit_removeAt h
      | touch => exact edit_touchAt (Except.ok.inj h)

end Marked

end Node

namespace Store

/-! ### Ticks -/

/-- The serial that a request changes the tree with.  A tick is opened by setting and by removing
    even if that comes to nothing, by marking only where a node stands. -/
def Op.serial? (s : Store) : Op → Option Nat
  | set _ _ => some s.openTick.1
  | remove (_ :: _) => some s.openTick.1
  | touch path => if s.contains path then some s.openTick.1 else none
  | _ => none

/-- Whether a request closes the tick. -/
def Op.closes : Op → Bool
  | endTick | closeTick | snapshot _ | diff _ _ => true
  | _ => false

/-- The serials of a store, at present and in all that it comes to. -/
structure Orderly (s : Store) : Prop where
  /-- No part of the tree is stamped later than what holds it. -/
  consistent : s.root.serialsConsistent = true
  /-- The stamps of all nodes are in order. -/
  stamped : ∀ path n, s.node? path = some n → n.Stamped s.clock.current
  /-- The child serial of the whole tree never decreases. -/
  grows : ∀ ops, s.root.childSerial ≤ (s.runAll ops).root.childSerial
  /-- A tick that is opened is later than everything in the tree. -/
  opens : ∀ (op : Op) (t : Nat), s.tick = none → op.serial? s = some t → ∀ path n,
    s.node? path = some n → n.serial < t ∧ n.childSerial < t
  /-- All changes share the serial of the tick until it is closed. -/
  shares : ∀ (op : Op) (t : Nat), op.serial? s = some t →
    ∀ ops : List Op, (∀ o ∈ ops, o.closes = false) →
      ∀ (op' : Op) (t' : Nat), op'.serial? ((op.run s).runAll ops) = some t' → t' = t
  /-- Once closed, the tick stays closed until a change opens one. -/
  closed : ∀ op : Op, op.closes = true ∨ op.serial? s = none ∧ s.tick = none →
    (op.run s).tick = none
  /-- The serial is what the changed parts of the tree are stamped with. -/
  marks : ∀ (op : Op) (t : Nat), op.serial? s = some t →
    ∀ path m, (op.run s).node? path = some m → Node.Marked t (some s.root) m
  /-- A request without a serial changes nothing. -/
  still : ∀ op : Op, op.serial? s = none → (op.run s).root = s.root

section Ticks

variable {s : Store} {op : Op} {t : Nat}

/-- While no tick is open, the next one gets the next number of the clock. -/
theorem openTick_of_none (h : s.tick = none) : s.openTick.1 = s.clock.current + 1 := by
  simp [openTick, h, Clock.next]

/-- An open tick goes on with its serial. -/
theorem openTick_of_some (h : s.tick = some t) : s.openTick = (t, s) := by
  simp [openTick, h]

theorem tick_adopt (s : Store) (outcome : Except StoreError (Option Node)) :
    (s.adopt outcome).2.tick = s.tick := by
  rcases outcome with e | _ | next <;> rfl

/-- If a request has a serial, then it is that of `openTick`, and the tick is open with it
    afterwards. -/
theorem tick_run_of_serial? (h : op.serial? s = some t) :
    t = s.openTick.1 ∧ (op.run s).tick = some t := by
  -- Requests with a serial open the tick first, and what follows leaves it open.
  cases op with
  | set path v =>
    cases h
    exact ⟨rfl, (tick_adopt _ _).trans s.tick_openTick⟩
  | remove path =>
    cases path with
    | nil => cases h
    | cons key rest =>
      cases h
      exact ⟨rfl, (tick_adopt _ _).trans s.tick_openTick⟩
  | touch path =>
    rw [Op.serial?] at h
    rw [Op.run, touch]
    split at h
    · next hc =>
      cases h
      rw [if_pos hc]
      exact ⟨rfl, s.tick_openTick⟩
    · cases h
  | _ => cases h

/-- A request without a serial leaves the tree alone.  The tick is closed by it or stays as
    it is. -/
theorem run_of_serial?_none (h : op.serial? s = none) :
    (op.run s).root = s.root ∧ (op.run s).tick = if op.closes then none else s.tick := by
  -- The root cannot be removed, and a path that leads nowhere cannot be touched.
  cases op with
  | set path v => cases h
  | remove path =>
    cases path with
    | nil => exact ⟨rfl, rfl⟩
    | cons key rest => cases h
  | touch path =>
    rw [Op.serial?] at h
    rw [Op.run, touch]
    split at h
    · cases h
    · next hc =>
      rw [if_neg hc]
      exact ⟨rfl, rfl⟩
  | _ => exact ⟨rfl, rfl⟩

/-- A request that closes the tick has no serial. -/
theorem serial?_of_closes (h : op.closes = true) : op.serial? s = none := by
  cases op with
  | set path v => cases h
  | remove path => cases h
  | touch path => cases h
  | draw => cases h
  | _ => rfl

/-- An open tick stays open, with its serial, at a request that does not close it. -/
theorem tick_run_of_not_closes (h : op.closes = false) (ht : s.tick = some t) :
    (op.run s).tick = some t := by
  cases hs : op.serial? s with
  | none => simpa [h, ht] using (run_of_serial?_none hs).2
  | some u =>
    obtain ⟨hu, htick⟩ := tick_run_of_serial? hs
    rw [htick, hu, openTick_of_some ht]

/-- An open tick stays open, with its serial, over any number of requests that do not close it. -/
theorem tick_runAll_of_not_closes {ops : List Op} (h : ∀ o ∈ ops, o.closes = false)
    (ht : s.tick = some t) : (s.runAll ops).tick = some t := by
  induction ops generalizing s with
  | nil => exact ht
  | cons o rest ih =>
    have hrest : ∀ o ∈ rest, o.closes = false := fun o ho => h o (List.mem_cons_of_mem _ ho)
    exact ih hrest (tick_run_of_not_closes (h o List.mem_cons_self) ht)

/-- In a `Valid` store the tree is not ahead of the serial that the next change is made at. -/
theorem Valid.regularTo_openTick (hs : s.Valid) : s.root.RegularTo s.openTick.1 := by
  have hle := ((later_openTick hs).valid.tick _ s.tick_openTick).1
  rw [root_openTick] at hle
  exact ⟨hle, hs.root.2⟩

/-- Every request is an `Edit` of the tree at the serial of `openTick`. -/
theorem edit_run (s : Store) (op : Op) : Node.Edit s.openTick.1 (some s.root) (op.run s).root := by
  rw [root_run]
  split
  · next c path hc =>
    refine Node.edit_apply (fun v hv => ?_) path s.root
    subst hv
    cases op with
    | set path v =>
      cases hc
      exact v.proper
    | _ => cases hc
  · exact .kept s.root

/-- The child serial of the whole tree never decreases in a run. -/
theorem Valid.childSerial_runAll (hs : s.Valid) (ops : List Op) :
    s.root.childSerial ≤ (s.runAll ops).root.childSerial := by
  induction ops generalizing s with
  | nil => exact Nat.le_refl _
  | cons op rest ih =>
    have hstep := (edit_run s op).childSerial_le hs.regularTo_openTick
    exact Nat.le_trans hstep (ih (later_run hs op).valid)

/-- A `Valid` store is `Orderly`, in all that it can come to. -/
theorem Valid.orderly (hs : s.Valid) : s.Orderly where
  consistent := hs.root.2.serialsConsistent
  stamped := fun path n hn => (hs.root.descendant? hn).stamped
  grows := hs.childSerial_runAll
  opens := by
    intro op t hclosed ht path n hn
    -- A new tick is one later than the clock, and nothing in the tree is later than that.
    have hnext : t = s.clock.current + 1 :=
      (tick_run_of_serial? ht).1.trans (openTick_of_none hclosed)
    have hreg : n.RegularTo s.clock.current := hs.root.descendant? hn
    have hserial := hreg.serial_le
    have hchild := hreg.1
    omega
  shares := by
    intro op t ht ops hops op' t' ht'
    have hopen := tick_runAll_of_not_closes hops (tick_run_of_serial? ht).2
    rw [(tick_run_of_serial? ht').1, openTick_of_some hopen]
  closed := by
    intro op h
    rcases h with hc | ⟨hnone, htick⟩
    · rw [(run_of_serial?_none (serial?_of_closes hc)).2, if_pos hc]
    · rw [(run_of_serial?_none hnone).2, htick, ite_self]
  marks := by
    intro op t ht path m hm
    obtain ⟨rfl, -⟩ := tick_run_of_serial? ht
    refine (edit_run s op).marked (fun n hn => ?_) hm
    cases hn
    exact hs.regularTo_openTick
  still := fun op h => (run_of_serial?_none h).1

end Ticks

end Store

end Observatory

import Observatory.Proofs.Store.Since
import Observatory.Store.Basic

/-!
# Runs of a store

A store takes requests in any order.  Whatever they are, the tree stays regular, and the
clock and the open tick stay ahead of it.  A reader who looks closes the tick, so what it has
seen is told apart from all that comes later.

* `Store.Op`: the requests, with `Store.Op.run` and `Store.runAll`;
* `Store.Valid`: the tree is regular and no stamp is ahead of the clock or of the open tick;
* `Store.Past`: every further change will be stamped later than a given serial;
* `Store.Later`: what a store can come to; `Store.later_run` for one request and
  `Store.later_runAll` for any number of them.
-/

namespace Observatory

namespace Store

/-! ### Requests -/

/-- A request to a store.  `draw` is made by whoever else draws from the clock, `snapshot` and
    `diff` are made by readers. -/
inductive Op where
  | set (path : List String) (value : Document)
  | remove (path : List String)
  | touch (path : List String)
  | endTick
  | closeTick
  | draw
  | snapshot (w : Whitelist)
  | diff (w : Whitelist) (cursor : Cursor)

/-- The store after a request.  A request that fails leaves the tree as it is, but it may have
    opened the tick. -/
def Op.run (s : Store) : Op → Store
  | set path value => (s.set path value.json).2
  | remove path => (s.remove path).2
  | touch path => (s.touch path).2
  | endTick => s.endTick.2
  | closeTick => s.closeTick
  | draw => s.draw.2
  | snapshot w => (s.snapshot w).2
  | diff w cursor => (s.diff w cursor).2.2

/-- The store after some requests, one after the other. -/
def runAll (s : Store) (ops : List Op) : Store := ops.foldl Op.run s

/-- A store on a clock from which others may have drawn before. -/
def start (clock : Clock) : Store := { clock }

/-! ### What holds in every run -/

/-- The invariant of a store: the tree is regular, nothing in it is stamped later than the clock
    stands, and if a tick is open then nothing is stamped later than the tick. -/
structure Valid (s : Store) : Prop where
  root : s.root.RegularTo s.clock.current
  tick : ∀ t, s.tick = some t → s.root.childSerial ≤ t ∧ t ≤ s.clock.current

/-- Every further change will be stamped later than `seen`: the clock is not behind it, and a tick
    that is open has a later serial. -/
structure Past (seen : Nat) (s : Store) : Prop where
  clock : seen ≤ s.clock.current
  tick : ∀ t, s.tick = some t → seen < t

/-- What a store can come to.  The second one is `Valid`, what is `Past` stays so, and who looked
    at the first one when the clock stood at `seen` finds in the second one only changes
    `Since seen`. -/
structure Later (s s' : Store) : Prop where
  valid : s'.Valid
  past : ∀ seen, s.Past seen → s'.Past seen
  since : ∀ seen, s.Past seen → Node.Since seen (some s.root) s'.root

/-- `Later` is reflexive on valid stores. -/
theorem Later.refl {s : Store} (hs : s.Valid) : Later s s :=
  ⟨hs, fun _ h => h, fun _ _ => .same s.root⟩

/-- `Later` is transitive. -/
theorem Later.trans {s t u : Store} (h₁ : Later s t) (h₂ : Later t u) : Later s u where
  valid := h₂.valid
  past := fun seen h => h₂.past seen (h₁.past seen h)
  since := fun seen h => (h₁.since seen h).trans (h₂.since seen (h₁.past seen h))

/-- A new store is `Valid`, on whatever clock. -/
theorem valid_start (clock : Clock) : (start clock).Valid where
  root := ⟨Nat.zero_le _, Nat.le_refl _, List.Pairwise.nil, trivial⟩
  tick := fun t ht => by cases ht

/-- While no tick is open, the present reading of the clock is `Past`: the next change will draw a
    new serial. -/
theorem past_of_tick_none {s : Store} (h : s.tick = none) : s.Past s.clock.current where
  clock := Nat.le_refl _
  tick := by
    intro t ht
    rw [h] at ht
    cases ht

/-! ### Ticks -/

/-- `closeTick` leads to a `Later` store. -/
theorem later_closeTick {s : Store} (hs : s.Valid) : Later s s.closeTick where
  valid := ⟨hs.root, fun t ht => by cases ht⟩
  past := fun _ h => ⟨h.clock, fun t ht => by cases ht⟩
  since := fun _ _ => .same s.root

/-- `endTick` leads to a `Later` store. -/
theorem later_endTick {s : Store} (hs : s.Valid) : Later s s.endTick.2 where
  valid := ⟨hs.root, fun t ht => by cases ht⟩
  past := fun _ h => ⟨h.clock, fun t ht => by cases ht⟩
  since := fun _ _ => .same s.root

/-- A draw from the clock by somebody else leads to a `Later` store. -/
theorem later_draw {s : Store} (hs : s.Valid) : Later s s.draw.2 where
  valid := ⟨hs.root.mono (Nat.le_succ _),
    fun t ht => ⟨(hs.tick t ht).1, Nat.le_succ_of_le (hs.tick t ht).2⟩⟩
  past := fun _ h => ⟨Nat.le_succ_of_le h.clock, h.tick⟩
  since := fun _ _ => .same s.root

/-- After `openTick` the tick is open, with the serial that it returns. -/
theorem tick_openTick (s : Store) : s.openTick.2.tick = some s.openTick.1 := by
  unfold openTick
  split
  · next h => exact h
  · rfl

theorem root_openTick (s : Store) : s.openTick.2.root = s.root := by
  unfold openTick
  split <;> rfl

/-- `openTick` leads to a `Later` store, whether it draws a serial or goes on with the tick that is
    open. -/
theorem later_openTick {s : Store} (hs : s.Valid) : Later s s.openTick.2 := by
  unfold openTick
  split
  · exact .refl hs
  · -- The new tick is the next number of the clock.
    have hr := hs.root.mono (Nat.le_succ _)
    refine ⟨⟨hr, ?_⟩, ?_, fun _ _ => .same s.root⟩
    · intro t ht
      cases ht
      exact ⟨hr.1, Nat.le_refl _⟩
    · intro seen h
      refine ⟨Nat.le_succ_of_le h.clock, ?_⟩
      intro t ht
      cases ht
      exact Nat.lt_succ_of_le h.clock

/-! ### Changes -/

/-- Replacing the tree by one that an `Edit` at the serial of the open tick leads to gives a
    `Later` store. -/
theorem later_edit {s : Store} (hs : s.Valid) {t : Nat} (ht : s.tick = some t) {root : Node}
    (h : Node.Edit t (some s.root) root) (dirty : Bool) : Later s { s with root, dirty } := by
  obtain ⟨hle, hclock⟩ := hs.tick t ht
  have hroot : root.RegularTo t := by
    refine h.regular ?_
    intro n hn
    cases hn
    exact ⟨hle, hs.root.2⟩
  refine ⟨⟨hroot.mono hclock, ?_⟩, fun _ h => ⟨h.clock, h.tick⟩, ?_⟩
  · intro u hu
    cases ht.symm.trans hu
    exact ⟨hroot.1, hclock⟩
  · intro seen hp
    exact h.since (hp.tick t ht)

/-- `adopt` gives a `Later` store, whether the change failed, changed nothing, or was an `Edit` of
    the tree. -/
theorem later_adopt {s : Store} (hs : s.Valid) {t : Nat} (ht : s.tick = some t)
    {change : Except StoreError (Option Node)}
    (h : ∀ root, change = .ok (some root) → Node.Edit t (some s.root) root) :
    Later s (s.adopt change).2 := by
  cases change with
  | error e => exact .refl hs
  | ok o =>
    cases o with
    | none => exact .refl hs
    | some root => exact later_edit hs ht (h root rfl) true

/-- `set` leads to a `Later` store. -/
theorem later_set {s : Store} (hs : s.Valid) (path : List String) (v : Document) :
    Later s (s.set path v.json).2 := by
  have ho := later_openTick hs
  refine ho.trans (later_adopt ho.valid s.tick_openTick ?_)
  intro root h
  exact Node.edit_setAt v.proper h

/-- `remove` leads to a `Later` store. -/
theorem later_remove {s : Store} (hs : s.Valid) (path : List String) :
    Later s (s.remove path).2 := by
  cases path with
  | nil => exact .refl hs
  | cons key rest =>
    have ho := later_openTick hs
    exact ho.trans (later_adopt ho.valid s.tick_openTick fun root h => Node.edit_removeAt h)

/-- `touch` leads to a `Later` store. -/
theorem later_touch {s : Store} (hs : s.Valid) (path : List String) :
    Later s (s.touch path).2 := by
  unfold touch
  split
  · have ho := later_openTick hs
    refine ho.trans (later_edit ho.valid s.tick_openTick ?_ true)
    cases h : Node.touchAt s.openTick.1 path s.openTick.2.root with
    | none => exact .kept _
    | some root => exact Node.edit_touchAt h
  · exact .refl hs

/-! ### Runs -/

/-- Every request leads to a `Later` store.  This is the step of all inductions over runs of a
    store. -/
theorem later_run {s : Store} (hs : s.Valid) (op : Op) : Later s (op.run s) := by
  cases op with
  | set path v => exact later_set hs path v
  | remove path => exact later_remove hs path
  | touch path => exact later_touch hs path
  | endTick => exact later_endTick hs
  | closeTick => exact later_closeTick hs
  | draw => exact later_draw hs
  | snapshot w => exact later_closeTick hs
  | diff w cursor => exact later_closeTick hs

/-- Any number of requests leads to a `Later` store. -/
theorem later_runAll {s : Store} (hs : s.Valid) (ops : List Op) : Later s (s.runAll ops) := by
  induction ops generalizing s with
  | nil => exact .refl hs
  | cons op rest ih => exact (later_run hs op).trans (ih (later_run hs op).valid)

end Store

end Observatory

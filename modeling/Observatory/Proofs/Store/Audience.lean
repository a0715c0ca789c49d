import Observatory.Proofs.Store.CheckedMove
import Observatory.Proofs.Store.Consumer
import Observatory.Proofs.Store.Serials

/-!
# A store and its readers, with all checks

Any number of readers move cursors of a store, by whatever whitelists, while the store is
changed.  If the stamps are checked on the way, no check ever fails: the run comes to what it
comes to without them.

* `Store.setChecked`, `Store.removeChecked`, `Store.touchChecked`, `Store.diffChecked`: the
  functions of the store with their checks;
* `Audience`: a store and its readers' cursors, with `Audience.run` and `Audience.runChecked`;
* `Audience.Attentive`: every cursor records what its reader saw of the store;
* `Audience.orderly_run`: no check fails in any run, and the serials are in order after it.
-/

namespace Observatory

namespace Store

/-! ### Checked requests -/

/-- `Store.set` with its checks. -/
def setChecked (s : Store) (path : List String) (value : Json) : Except Alarm (Outcome × Store) :=
  let (serial, s) := s.openTick
  (s.root.setAtChecked serial value path).map s.adopt

/-- `Store.remove` with its checks. -/
def removeChecked (s : Store) : List String → Except Alarm (Outcome × Store)
  | [] => .ok (.error (.invalidPath [] .removesRoot), s)
  | path =>
    let (serial, s) := s.openTick
    (s.root.removeAtChecked serial path).map s.adopt

/-- `Store.touch` with its checks. -/
def touchChecked (s : Store) (path : List String) : Except Alarm (Bool × Store) :=
  if s.contains path then
    let (serial, s) := s.openTick
    (s.root.touchAtChecked serial path).map fun root =>
      (true, { s with root := root.getD s.root, dirty := true })
  else .ok (false, s)

/-- `Store.diff` with its checks. -/
def diffChecked (s : Store) (w : Whitelist) (cursor : Cursor) :
    Except Alarm (Option Diff × Cursor × Store) :=
  (cursor.advanceChecked w s.root).map fun p => (p.2, p.1, s.closeTick)

/-- The store after a request, with the checks of its changes.  Of the cursor that somebody
    passes in a request nothing is known, so its move is not checked here. -/
def Op.runChecked (s : Store) : Op → Except Alarm Store
  | set path value => (s.setChecked path value.json).map Prod.snd
  | remove path => (s.removeChecked path).map Prod.snd
  | touch path => (s.touchChecked path).map Prod.snd
  | op => .ok (op.run s)

section Checked

variable {s : Store}

/-- After `openTick` the tree is `RegularTo` the serial of the tick, which is what the checks of a
    change need. -/
theorem Valid.regularTo_opened (hs : s.Valid) : s.openTick.2.root.RegularTo s.openTick.1 := by
  rw [root_openTick]
  exact hs.regularTo_openTick

/-- In a `Valid` store no check of `setChecked` fails, and it does what `set` does. -/
theorem Valid.setChecked_eq (hs : s.Valid) (path : List String) (v : Json) :
    s.setChecked path v = .ok (s.set path v) := by
  show (s.openTick.2.root.setAtChecked s.openTick.1 v path).map s.openTick.2.adopt = _
  rw [Node.setAtChecked_eq hs.regularTo_opened]
  rfl

/-- In a `Valid` store no check of `removeChecked` fails, and it does what `remove` does. -/
theorem Valid.removeChecked_eq (hs : s.Valid) (path : List String) :
    s.removeChecked path = .ok (s.remove path) := by
  cases path with
  | nil => rfl
  | cons key rest =>
    show (s.openTick.2.root.removeAtChecked s.openTick.1 (key :: rest)).map s.openTick.2.adopt = _
    rw [Node.removeAtChecked_eq hs.regularTo_opened]
    rfl

/-- In a `Valid` store no check of `touchChecked` fails, and it does what `touch` does. -/
theorem Valid.touchChecked_eq (hs : s.Valid) (path : List String) :
    s.touchChecked path = .ok (s.touch path) := by
  rw [touchChecked, touch]
  split
  · show (s.openTick.2.root.touchAtChecked s.openTick.1 path).map _ = _
    rw [Node.touchAtChecked_eq hs.regularTo_opened]
    rfl
  · rfl

/-- In a `Valid` store no check of any request fails. -/
theorem Valid.runChecked_eq (hs : s.Valid) (op : Op) : op.runChecked s = .ok (op.run s) := by
  cases op with
  | set path v =>
    rw [Op.runChecked, hs.setChecked_eq]
    rfl
  | remove path =>
    rw [Op.runChecked, hs.removeChecked_eq]
    rfl
  | touch path =>
    rw [Op.runChecked, hs.touchChecked_eq]
    rfl
  | _ => rfl

end Checked

end Store

/-! ### Readers -/

/-- A store, and the cursors of its readers by number. -/
structure Audience where
  store : Store
  cursors : Nat → Cursor

namespace Audience

/-- What happens to a store and its readers: a request to the store; a reader that begins anew
    or asks for a difference, each time with the whitelist of its choice. -/
inductive Event where
  | request (op : Store.Op)
  | capture (reader : Nat) (w : Whitelist)
  | diff (reader : Nat) (w : Whitelist)

/-- A reader with a new cursor. -/
def moved (cursors : Nat → Cursor) (reader : Nat) (cursor : Cursor) : Nat → Cursor :=
  fun i => if i = reader then cursor else cursors i

/-- The store and its readers after an event. -/
def Event.step (x : Audience) : Event → Audience
  | request op => { x with store := op.run x.store }
  | capture i w =>
    let (cursor, store) := x.store.snapshot w
    ⟨store, moved x.cursors i cursor⟩
  | diff i w =>
    let (_, cursor, store) := x.store.diff w (x.cursors i)
    ⟨store, moved x.cursors i cursor⟩

/-- The store and its readers after an event, with all checks. -/
def Event.stepChecked (x : Audience) : Event → Except Alarm Audience
  | request op => (op.runChecked x.store).map fun store => { x with store }
  | diff i w => (x.store.diffChecked w (x.cursors i)).map fun (_, cursor, store) =>
      ⟨store, moved x.cursors i cursor⟩
  | e => .ok (e.step x)

/-- The store and its readers after some events. -/
def run (x : Audience) (events : List Event) : Audience := events.foldl Event.step x

/-- The store and its readers after some events, with all checks. -/
def runChecked (x : Audience) (events : List Event) : Except Alarm Audience :=
  events.foldlM Event.stepChecked x

/-- A new store, of which nobody has seen anything. -/
def start (clock : Clock) : Audience := ⟨.start clock, fun _ => .unseen⟩

/-- The store is `Valid`, and the cursor of every reader records something that was seen of the
    store. -/
structure Attentive (x : Audience) : Prop where
  valid : x.store.Valid
  records : ∀ i, ∃ seen old, x.store.After seen old ∧ Cursor.Records (x.cursors i) old

section Attentive

variable {x : Audience}

/-- A new store with its readers is `Attentive`. -/
theorem attentive_start (clock : Clock) : (start clock).Attentive where
  valid := Store.valid_start clock
  records := fun _ => ⟨_, none, Store.after_start clock, .nowhere⟩

/-- `Attentive` is kept whatever the store comes to. -/
theorem Attentive.later (h : x.Attentive) {s : Store} (hl : Store.Later x.store s) :
    Attentive { x with store := s } where
  valid := hl.valid
  records := fun i =>
    have ⟨seen, old, hafter, hrec⟩ := h.records i
    ⟨seen, old, hafter.later hl, hrec⟩

/-- `Attentive` is kept if a reader gets a cursor that records the present tree. -/
theorem Attentive.look (h : x.Attentive) (i : Nat) {c : Cursor}
    (hc : Cursor.Records c (some x.store.root)) :
    Attentive ⟨x.store.closeTick, moved x.cursors i c⟩ where
  valid := (Store.later_closeTick h.valid).valid
  records := by
    intro j
    by_cases hj : j = i
    · refine ⟨_, _, Store.after_closeTick h.valid, ?_⟩
      simpa [moved, hj] using hc
    · obtain ⟨seen, old, hafter, hrec⟩ := h.records j
      refine ⟨seen, old, hafter.later (Store.later_closeTick h.valid), ?_⟩
      simpa [moved, hj] using hrec

/-- If `Attentive`, the move of any cursor to the present tree by any whitelist is `Smooth`: no
    check fails on it, and it leaves a record of the tree. -/
theorem Attentive.smooth (h : x.Attentive) (i : Nat) (w : Whitelist) :
    Cursor.Smooth w (x.cursors i) x.store.root := by
  obtain ⟨seen, old, hafter, hrec⟩ := h.records i
  have hroot : x.store.root.Regular := h.valid.root.2
  cases old with
  | none =>
    generalize x.cursors i = c at hrec ⊢
    cases hrec
    exact Cursor.smooth_unseen hroot
  | some n => exact hrec.smooth (hafter.since n rfl) hafter.covered hroot

/-- If `Attentive`, no check fails at an event, and it is kept. -/
theorem Attentive.step (h : x.Attentive) (e : Event) :
    e.stepChecked x = .ok (e.step x) ∧ (e.step x).Attentive := by
  cases e with
  | request op =>
    refine ⟨?_, h.later (Store.later_run h.valid op)⟩
    rw [Event.stepChecked, h.valid.runChecked_eq]
    rfl
  | capture i w => exact ⟨rfl, h.look i (Cursor.records_capture h.valid.root.2)⟩
  | diff i w =>
    obtain ⟨hchecked, hrec⟩ := h.smooth i w
    refine ⟨?_, h.look i hrec⟩
    rw [Event.stepChecked, Store.diffChecked, hchecked]
    rfl

/-- If `Attentive`, no check fails in a run, and it is kept. -/
theorem Attentive.run (h : x.Attentive) (events : List Event) :
    x.runChecked events = .ok (x.run events) ∧ (x.run events).Attentive := by
  induction events generalizing x with
  | nil => exact ⟨rfl, h⟩
  | cons e rest ih =>
    obtain ⟨hstep, hnext⟩ := h.step e
    obtain ⟨hrest, hlast⟩ := ih hnext
    refine ⟨?_, hlast⟩
    rw [runChecked, List.foldlM_cons, hstep]
    exact hrest

end Attentive

/-- **No check ever fails.**  In every run of a store with any number of readers, whoever else
    draws from the clock, the checked run succeeds with what the unchecked one comes to, and the
    serials of the store are `Orderly` after it. -/
theorem orderly_run (clock : Clock) (events : List Event) :
    (start clock).runChecked events = .ok ((start clock).run events) ∧
      ((start clock).run events).store.Orderly := by
  obtain ⟨hchecked, hlast⟩ := (attentive_start clock).run events
  exact ⟨hchecked, hlast.valid.orderly⟩

end Audience

end Observatory

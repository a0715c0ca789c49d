import Observatory.Proofs.Store.Advance
import Observatory.Proofs.Store.Run

/-!
# Consumers of a store

A consumer keeps a cursor and asks the store for the difference whenever it likes.  Moving the
cursor edits it in place and passes over everything whose stamp looks unchanged; nevertheless
it is afterwards the record that a new snapshot would make.

* `Consumer.Event`, `Consumer.run`: what happens to a store and a consumer of it;
* `Store.After`: what was seen of a store when the clock stood at some serial, the present tree
  having come from it by later changes;
* `Consumer.Looked`: the cursor is the record of what the consumer saw;
* `Consumer.looked_run`: so it is in every run;
* `Consumer.cursor_after_diff`: after a difference the cursor is a capture of the present tree.
-/

namespace Observatory

namespace Cursor

/-! ### Cursors that see no parts -/

/-- The capture by `nothing` records the stamp of the node and no parts. -/
theorem capture_nothing (n : Node) : capture .nothing n = mk (some n.stamp) [] := by
  cases n with
  | scalar s v => rfl
  | array s items => rfl
  | object s children =>
    have hnone : captureChildren .nothing children = [] := by
      induction children with
      | nil => rfl
      | cons p rest ih => exact ih
    rw [capture, hnone]
    rfl

/-- A cursor without parts takes over the stamp of a node whose own serial it knows, and there is
    no difference. -/
theorem advance_nothing {n : Node} {seen : Stamp} (hs : n.serial = seen.serial) :
    advance .nothing n (mk (some seen) []) = (mk (some n.stamp) [], none) := by
  by_cases hc : n.childSerial = seen.childSerial
  · -- The recorded stamp is the present one already.
    have hstamp : seen = n.stamp := by
      obtain ⟨a, b⟩ := seen
      show (⟨a, b⟩ : Stamp) = ⟨n.serial, n.childSerial⟩
      rw [hs, hc]
    rw [hstamp, advance_of_stamp_eq (stamp_mk _ _)]
  · cases n with
    | scalar s v =>
      rw [advance.eq_def]
      simp only [stamp_mk, hs, hc, ne_eq, not_true_eq_false, if_false]
      rfl
    | array s items =>
      rw [advance.eq_def]
      simp only [stamp_mk, hs, hc, ne_eq, not_true_eq_false, if_false]
      rfl
    | object s children =>
      -- No child has a rule, so the move goes through all of them and records none.
      have hnone : advanceChildren .nothing [] children = [] := by
        induction children with
        | nil => rfl
        | cons p rest ih => exact ih hs hc
      rw [advance_object (s := s) (stamp_mk _ _) hs hc, props_mk, hnone]
      rfl

/-- A cursor without parts takes over the stamp of any node that it is moved to. -/
theorem advance_nothing_fst (n : Node) (seen : Stamp) :
    (advance .nothing n (mk (some seen) [])).1 = mk (some n.stamp) [] := by
  by_cases hs : n.serial = seen.serial
  · rw [advance_nothing hs]
  · rw [advance_of_serial_ne (stamp_mk _ _) hs]
    exact capture_nothing n

/-- Moving a cursor that records `old` to a node `Since` then gives the capture of that node, for
    every whitelist. -/
theorem advance_recordOf_fst (w : Whitelist) {seen : Nat} {old : Option Node} {new : Node}
    (h : Node.Since seen old new) (hold : ∀ n, old = some n → n.RegularTo seen)
    (hnew : new.Regular) : (advance w new (recordOf w old)).1 = capture w new := by
  by_cases hw : w = .nothing
  · subst hw
    cases old with
    | none => rw [recordOf, advance_unseen]
    | some n => rw [recordOf, capture_nothing, advance_nothing_fst, capture_nothing]
  · exact (advance_recordOf hw h hold hnew).1

end Cursor

/-! ### Stores after a look -/

namespace Store

/-- `old` was seen of the store when the clock stood at `seen`, or nothing: the present tree is
    `Since seen`, and so will be all that follow. -/
structure After (seen : Nat) (old : Option Node) (s : Store) : Prop where
  valid : s.Valid
  past : s.Past seen
  covered : ∀ n, old = some n → n.RegularTo seen
  since : ∀ n, old = some n → Node.Since seen (some n) s.root

/-- Nothing was seen of a new store. -/
theorem after_start (clock : Clock) : (start clock).After clock.current none where
  valid := valid_start clock
  past := past_of_tick_none (s := start clock) rfl
  covered := nofun
  since := nofun

/-- `After` is kept whatever the store comes to. -/
theorem After.later {seen : Nat} {old : Option Node} {s s' : Store} (h : s.After seen old)
    (hl : Later s s') : s'.After seen old where
  valid := hl.valid
  past := hl.past seen h.past
  covered := h.covered
  since := fun n hn => (h.since n hn).trans (hl.since seen h.past)

/-- A look at the present tree establishes `After` for it, as it closes the tick. -/
theorem after_closeTick {s : Store} (hs : s.Valid) :
    s.closeTick.After s.clock.current (some s.root) where
  valid := (later_closeTick hs).valid
  past := past_of_tick_none (s := s.closeTick) rfl
  covered := by
    intro n hn
    cases hn
    exact hs.root
  since := by
    intro n hn
    cases hn
    exact .same s.root

/-- The next change will be stamped later than `seen`. -/
theorem After.lt_openTick {seen : Nat} {old : Option Node} {s : Store} (h : s.After seen old) :
    seen < s.openTick.1 :=
  ((later_openTick h.valid).past seen h.past).tick _ s.tick_openTick

end Store

/-! ### Consumers -/

/-- What happens to a store and a consumer of it: a request, of anybody's; a snapshot, which
    the consumer begins anew with; a difference that it asks for. -/
inductive Consumer.Event where
  | request (op : Store.Op)
  | capture
  | diff

namespace Consumer

/-- The store and the consumer's cursor after an event. -/
def Event.step (w : Whitelist) (x : Store × Cursor) : Event → Store × Cursor
  | request op => (op.run x.1, x.2)
  | capture => ((x.1.snapshot w).2, (x.1.snapshot w).1)
  | diff => ((x.1.diff w x.2).2.2, (x.1.diff w x.2).2.1)

/-- The store and the cursor after some events. -/
def run (w : Whitelist) (x : Store × Cursor) (events : List Event) : Store × Cursor :=
  events.foldl (Event.step w) x

/-- A new store, and a consumer that has seen nothing of it. -/
def start (clock : Clock) : Store × Cursor := (.start clock, .unseen)

/-- The cursor is the record of `old`, which the consumer saw when the clock stood at `seen`, or of
    nothing. -/
structure Looked (w : Whitelist) (seen : Nat) (old : Option Node) (x : Store × Cursor) :
    Prop where
  cursor : x.2 = .recordOf w old
  after : x.1.After seen old

section Looked

variable {w : Whitelist} {seen : Nat} {old : Option Node} {x : Store × Cursor}

/-- `Looked` holds at the start, with nothing seen. -/
theorem looked_start (w : Whitelist) (clock : Clock) :
    Looked w clock.current none (start clock) := ⟨rfl, Store.after_start clock⟩

/-- `Looked` is kept whatever the store comes to. -/
theorem Looked.later {s : Store} (h : Looked w seen old x) (hl : Store.Later x.1 s) :
    Looked w seen old (s, x.2) := ⟨h.cursor, h.after.later hl⟩

/-- `Looked` holds after a capture, with the present tree seen. -/
theorem looked_capture {s : Store} (w : Whitelist) (hs : s.Valid) :
    Looked w s.clock.current (some s.root) (s.closeTick, .capture w s.root) :=
  ⟨rfl, Store.after_closeTick hs⟩

/-- The cursor that `diff` returns is the capture of the present tree. -/
theorem Looked.cursor_diff (h : Looked w seen old x) :
    (x.1.diff w x.2).2.1 = .capture w x.1.root := by
  show (Cursor.advance w x.1.root x.2).1 = _
  rw [h.cursor]
  cases old with
  | none => rw [Cursor.recordOf, Cursor.advance_unseen]
  | some n =>
    have hsince := h.after.since n rfl
    exact Cursor.advance_recordOf_fst w hsince h.after.covered h.after.valid.root.2

/-- A difference leaves store and cursor as a capture does. -/
theorem Looked.step_diff (h : Looked w seen old x) :
    Event.diff.step w x = Event.capture.step w x := by
  show ((x.1.diff w x.2).2.2, (x.1.diff w x.2).2.1) = _
  rw [h.cursor_diff]
  rfl

/-- After every event `Looked` holds for something that the consumer saw. -/
theorem Looked.step (h : Looked w seen old x) (e : Event) :
    ∃ seen' old', Looked w seen' old' (e.step w x) := by
  have hcapture : Looked w x.1.clock.current (some x.1.root) (Event.capture.step w x) :=
    looked_capture w h.after.valid
  cases e with
  | request op => exact ⟨seen, old, h.later (Store.later_run h.after.valid op)⟩
  | capture => exact ⟨_, _, hcapture⟩
  | diff =>
    rw [h.step_diff]
    exact ⟨_, _, hcapture⟩

/-- After every run `Looked` holds for something that the consumer saw. -/
theorem looked_run (h : Looked w seen old x) (events : List Event) :
    ∃ seen' old', Looked w seen' old' (run w x events) := by
  induction events generalizing x seen old with
  | nil => exact ⟨seen, old, h⟩
  | cons e rest ih =>
    obtain ⟨seen', old', h'⟩ := h.step e
    exact ih h'

end Looked

/-- **Moving a cursor is as good as capturing anew.**  In every run, with requests of others in
    between, the cursor after a difference is the one that a snapshot of the store would give at
    that moment.  This holds for every whitelist, `nothing` included. -/
theorem cursor_after_diff (w : Whitelist) (clock : Clock) (events : List Event) :
    (run w (start clock) (events ++ [.diff])).2 =
      ((run w (start clock) (events ++ [.diff])).1.snapshot w).1 := by
  obtain ⟨seen, old, h⟩ := looked_run (looked_start w clock) events
  have hrun : run w (start clock) (events ++ [.diff]) =
      Event.diff.step w (run w (start clock) events) := List.foldl_append
  rw [hrun, h.step_diff]
  rfl

end Consumer

end Observatory

import Observatory.Proofs.Store.Advance
import Observatory.Proofs.Store.Run

/-!
# Readers stay in step

A reader that keeps a cursor and a copy, and applies to the copy every difference that the
store has for it, holds what it may see of the tree after every look.

* `Reader`: a whitelist, a cursor and a copy; `Reader.fresh`, `Reader.ofSnapshot`;
* `Reader.look`: get the difference, if there is one, and apply it;
* `Store.InStep`: the copy is what the reader saw of the tree that its cursor was captured
  from, and the present tree has come from that one by later changes;
* `Reader.copy_after_look`: in every run, with requests of others in between, no difference
  fails to apply, and after a look the copy is what the whitelist lets pass.
-/

namespace Observatory

namespace Store

/-! ### In step -/

/-- What the reader has is either nothing, with the cursor `unseen`, or it saw a tree `n` when
    everything that is `Since serial` had not happened: its cursor is the capture of `n` and its
    copy is the view of `n`. -/
inductive InStep (w : Whitelist) (s : Store) : Cursor → Option Json → Prop
  | unseen : InStep w s .unseen none
  | seen {n : Node} {serial : Nat} (hn : n.RegularTo serial) (hp : s.Past serial)
      (h : Node.Since serial (some n) s.root) :
      InStep w s (.capture w n) (some (n.view w))

variable {w : Whitelist} {s s' : Store} {cursor : Cursor} {copy : Option Json}

/-- A reader that is `InStep` with a store is so with every `Later` one, since only the tree
    changes that it will ask about. -/
theorem InStep.later (h : InStep w s cursor copy) (hl : Later s s') : InStep w s' cursor copy := by
  cases h with
  | unseen => exact .unseen
  | seen hn hp h => exact .seen hn (hl.past _ hp) (h.trans (hl.since _ hp))

/-- After a look, a reader is `InStep` with the cursor and the view of the present tree. -/
theorem inStep_capture (hs : s.Valid) (w : Whitelist) :
    InStep w s.closeTick (.capture w s.root) (some (s.root.view w)) :=
  .seen hs.root (past_of_tick_none (s := s.closeTick) rfl) (.same s.root)

/-- If a reader is `InStep`, then the difference for it leads its copy to the view of the present
    tree, and the cursor that it gets is the capture of that tree. -/
theorem InStep.diff (hw : w ≠ .nothing) (hs : s.Valid) (h : InStep w s cursor copy) :
    (s.diff w cursor).2.1 = .capture w s.root ∧
      Diff.Leads (s.diff w cursor).1 copy (s.root.view w) := by
  cases h with
  | unseen =>
    rw [Store.diff, Cursor.advance_unseen]
    exact ⟨rfl, Cursor.apply_materialize w s.root none⟩
  | @seen n serial hn hp h =>
    have hold : ∀ m, some n = some m → m.RegularTo serial := by
      intro m hm
      cases hm
      exact hn
    exact Cursor.advance_recordOf hw h hold hs.root.2

end Store

/-! ### Readers -/

/-- A reader of a store: what it may see, its cursor, and its copy if it has one. -/
structure Reader where
  whitelist : Whitelist
  cursor : Cursor
  copy : Option Json

namespace Reader

/-- A reader that has seen nothing and has no copy. -/
def fresh (w : Whitelist) : Reader := ⟨w, .unseen, none⟩

/-- A reader that takes a snapshot and a copy of what it may see. -/
def ofSnapshot (w : Whitelist) (s : Store) : Store × Reader :=
  let (cursor, s') := s.snapshot w
  (s', ⟨w, cursor, some (w.filter s.value)⟩)

/-- The reader asks for the difference and applies it to its copy.  Without a difference the copy
    stays as it is. -/
def look (s : Store) (r : Reader) : Except DiffError (Store × Reader) :=
  match s.diff r.whitelist r.cursor with
  | (none, cursor, s) => .ok (s, { r with cursor })
  | (some d, cursor, s) => (d.apply r.copy).map fun v => (s, { r with cursor, copy := some v })

/-- How a reader begins. -/
inductive Start where
  | unseen
  | snapshot

/-- A store and a reader of it at its beginning. -/
def Start.on (w : Whitelist) (s : Store) : Start → Store × Reader
  | unseen => (s, fresh w)
  | snapshot => ofSnapshot w s

/-- What happens to a store and a reader of it. -/
inductive Event where
  | request (op : Store.Op)
  | look

/-- The store and the reader after an event. -/
def Event.step : Store × Reader → Event → Except DiffError (Store × Reader)
  | (s, r), request op => .ok (op.run s, r)
  | (s, r), look => Reader.look s r

/-- The store and the reader after some events. -/
def run (x : Store × Reader) (events : List Event) : Except DiffError (Store × Reader) :=
  events.foldlM Event.step x

/-- The invariant of a run: the store is `Valid` and the reader is `InStep` with it. -/
structure Tracks (w : Whitelist) (x : Store × Reader) : Prop where
  whitelist : x.2.whitelist = w
  valid : x.1.Valid
  inStep : x.1.InStep w x.2.cursor x.2.copy

variable {w : Whitelist}

/-- The reader `Tracks` a valid store at either start. -/
theorem tracks_start {s : Store} (hs : s.Valid) (start : Start) : Tracks w (start.on w s) := by
  cases start with
  | unseen => exact ⟨rfl, hs, .unseen⟩
  | snapshot => exact ⟨rfl, (Store.later_closeTick hs).valid, Store.inStep_capture hs w⟩

/-- A look at a store that the reader `Tracks` does not fail, and the copy is then what the
    whitelist lets pass of the whole tree. -/
theorem tracks_look (hw : w ≠ .nothing) {x : Store × Reader} (h : Tracks w x) :
    ∃ y, look x.1 x.2 = .ok y ∧ Tracks w y ∧ y.2.copy = some (w.filter y.1.value) := by
  obtain ⟨s, r⟩ := x
  obtain ⟨rfl, hs, hr⟩ := h
  obtain ⟨hcursor, hleads⟩ := hr.diff hw hs
  -- With the cursor that `diff` gives the reader is in step again, whatever the difference is.
  have hcapture := Store.inStep_capture hs r.whitelist
  have hvalid := (Store.later_closeTick hs).valid
  rw [← hcursor] at hcapture
  unfold look
  dsimp only
  cases hd : (s.diff r.whitelist r.cursor).1 with
  | none =>
    -- Nothing has changed, so the copy is up to date already.
    rw [hd] at hleads
    have hcopy : r.copy = some (s.root.view r.whitelist) := hleads
    have hdiff : s.diff r.whitelist r.cursor =
        (none, (s.diff r.whitelist r.cursor).2.1, s.closeTick) := hd ▸ rfl
    rw [hdiff]
    exact ⟨_, rfl, ⟨rfl, hvalid, hcopy ▸ hcapture⟩, hcopy⟩
  | some d =>
    rw [hd] at hleads
    have happly : d.apply r.copy = .ok (s.root.view r.whitelist) := hleads
    have hdiff : s.diff r.whitelist r.cursor =
        (some d, (s.diff r.whitelist r.cursor).2.1, s.closeTick) := hd ▸ rfl
    rw [hdiff]
    dsimp only
    rw [happly]
    exact ⟨_, rfl, ⟨rfl, hvalid, hcapture⟩, rfl⟩

/-- Every event keeps `Tracks`, and none fails. -/
theorem tracks_step (hw : w ≠ .nothing) {x : Store × Reader} (h : Tracks w x) (e : Event) :
    ∃ y, e.step x = .ok y ∧ Tracks w y ∧ (e = .look → y.2.copy = some (w.filter y.1.value)) := by
  cases e with
  | request op =>
    have hl := Store.later_run h.valid op
    exact ⟨_, rfl, ⟨h.whitelist, hl.valid, h.inStep.later hl⟩, fun he => by cases he⟩
  | look =>
    obtain ⟨y, hy, ht, hc⟩ := tracks_look hw h
    exact ⟨y, hy, ht, fun _ => hc⟩

/-- Every run keeps `Tracks` and does not fail.  If its last event is a look, then the copy is what
    the whitelist lets pass. -/
theorem tracks_run (hw : w ≠ .nothing) {x : Store × Reader} (h : Tracks w x)
    (events : List Event) : ∃ y, run x events = .ok y ∧ Tracks w y ∧
      (events.getLast? = some .look → y.2.copy = some (w.filter y.1.value)) := by
  induction events generalizing x with
  | nil => exact ⟨x, rfl, h, fun he => by cases he⟩
  | cons e rest ih =>
    obtain ⟨y, hy, hty, hlook⟩ := tracks_step hw h e
    obtain ⟨z, hz, htz, hlast⟩ := ih hty
    refine ⟨z, ?_, htz, ?_⟩
    · rw [run, List.foldlM_cons, hy]
      exact hz
    · intro he
      -- The last event is this one, or it is the last one of the rest.
      cases rest with
      | nil =>
        cases hz
        exact hlook (Option.some.inj he)
      | cons e' rest => exact hlast (by rwa [List.getLast?_cons_cons] at he)

/-- **The copy of a reader is what it may see.**  Let a reader have a whitelist other than
    `nothing`, and begin with nothing or with a snapshot, of a store that any requests were made
    to.  Then no difference ever fails to apply, whatever is asked of the store between its looks,
    and after each look its copy is the filtered value of the tree. -/
theorem copy_after_look (w : Whitelist) (hw : w ≠ .nothing) (clock : Clock)
    (before : List Store.Op) (start : Start) (events : List Event) :
    ∃ s r, run (start.on w ((Store.start clock).runAll before)) events = .ok (s, r) ∧
      (events.getLast? = some .look → r.copy = some (w.filter s.value)) := by
  have hs := (Store.later_runAll (Store.valid_start clock) before).valid
  obtain ⟨⟨s, r⟩, hrun, -, hlook⟩ := tracks_run hw (tracks_start (w := w) hs start) events
  exact ⟨s, r, hrun, hlook⟩

/-- `copy_after_look` for a whitelist with nested rules and a run in which the reader looks before
    and after a removal. -/
theorem copy_after_removal :
    Whitelist.fields [("a", .all), ("b", .fields [("c", .nothing)])] ≠ .nothing ∧ ∃ s r,
      run (Start.unseen.on (.fields [("a", .all), ("b", .fields [("c", .nothing)])])
        ((Store.start {}).runAll [.set ["b"] (.ofScalar (.int 1)), .set ["a"] (.ofScalar .null)]))
          [.look, .request (.remove ["a"]), .look] = .ok (s, r) ∧
      r.copy = some (Whitelist.filter (.fields [("a", .all), ("b", .fields [("c", .nothing)])])
        s.value) := by
  have hw : Whitelist.fields [("a", .all), ("b", .fields [("c", .nothing)])] ≠ .nothing := nofun
  obtain ⟨s, r, hrun, hcopy⟩ := copy_after_look _ hw {}
    [.set ["b"] (.ofScalar (.int 1)), .set ["a"] (.ofScalar .null)] .unseen
    [.look, .request (.remove ["a"]), .look]
  exact ⟨hw, s, r, hrun, hcopy rfl⟩

end Reader

end Observatory

import Observatory.Proofs.Store.Consumer
import Observatory.Proofs.Store.Origin
import Observatory.Proofs.Store.Reader

/-!
# Readers that let no key pass

The rules of a whitelist name keys.  One that lets no key pass therefore still lets scalars pass,
and the items of arrays as far as no key leads to them; this is what its reader gets when the tree
is spelled out to it.  The record that the reader keeps has no parts, though, not even those
items.  So as long as the root itself is neither built nor stamped, nothing beneath it is gone
through and the reader is told nothing.  For an object or a scalar at the root there is nothing to
tell.  For an array there is: the reader misses every change of its items until the root is
stamped again.

* `Store.Op.keepsRoot`: whether a request leaves the root unstamped;
* `Reader.Showing`: what was spelled out to a reader, and whether it is about to happen again;
* `Reader.Showing.Shown`: the stamps bear a showing out;
* `Reader.Keyless.run`: so they do in every run, in which every difference applies;
* `Reader.inStep_iff`: after a look the copy is up to date unless the root is an array of which
  something else passes than when it was spelled out;
* `Reader.item_missed`: a run where this happens.
-/

namespace Observatory

namespace Whitelist

@[simp] theorem filter_nothing_obj (fields : List (String × Json)) :
    nothing.filter (.obj fields) = .obj [] := by
  simp [filter_obj, Dict.select]

end Whitelist

namespace Node

/-- If a node is neither an array nor stamped since `seen`, then `nothing` lets pass of it what it
    let pass before. -/
theorem Since.view_nothing {seen : Nat} {old new : Node} (h : Since seen (some old) new)
    (hold : old.serial ≤ seen) (hserial : new.serial = old.serial)
    (hnew : ∀ items, new.toJson ≠ .arr items) :
    old.view .nothing = new.view .nothing := by
  cases h with
  | same => rfl
  | renewed hlt => omega
  | object =>
    -- Whatever its children are, nothing of an object is to be seen.
    simp [view, toJson]
  | array => exact absurd rfl (hnew _)

/-- An array that is not stamped since `seen` was an array before. -/
theorem Since.toJson_array {seen : Nat} {old new : Node} (h : Since seen (some old) new)
    (hold : old.serial ≤ seen) (hserial : new.serial = old.serial) {items : List Json}
    (hnew : new.toJson = .arr items) : ∃ shown, old.toJson = .arr shown := by
  cases h with
  | same => exact ⟨items, hnew⟩
  | renewed hlt => omega
  | object => simp [toJson] at hnew
  | array => exact ⟨_, by rw [toJson]⟩

end Node

namespace Store

/-! ### Roots -/

/-- Whether a request neither builds nor stamps the root of the tree.  A new value keeps the root if
    that stays an object or an array, or the scalar that it is; a removal keeps it unless it takes
    an item out of the root itself; a mark keeps it unless it is set on the root. -/
def Op.keepsRoot (s : Store) : Op → Bool
  | set path v => s.value.stays (s.set path v.json).2.value
  | remove [key] => !(s.root.isArray && s.contains [key])
  | touch [] => false
  | _ => true

section Roots

variable {s : Store}

/-- Cutting at one key leaves the root without an origin if it is an array with an item under the
    key, since that stamps the array; otherwise the root is its own origin. -/
theorem beforeCut_root (s : Store) (key : String) : s.value.beforeCut [key] [] =
    if s.root.isArray && s.contains [key] then none else some [] := by
  cases hroot : s.root with
  | scalar stamp v => simp [value, hroot, Node.toJson, Node.isArray, Json.beforeCut,
      Json.beforeChange]
  | object stamp children => simp [value, hroot, Node.toJson, Node.isArray, Json.beforeCut,
      Json.beforeChange]
  | array stamp items =>
    have hlength : (Node.toItems items).length = items.length := by
      rw [Node.toItems_eq, List.length_map]
    simp only [value, hroot, Node.toJson, Node.isArray, Json.beforeCut, hlength, contains, node?,
      Node.descendant?, Node.child?, Bool.true_and]
    cases hi : (ArrayIndex.parse? key).filter fun i => decide (i < items.length) with
    | none =>
      -- The key is no position, or one behind the last item.
      have hnone : (ArrayIndex.parse? key).bind (fun i => items[i]?) = none := by
        simpa [Option.bind_eq_none_iff] using hi
      simp [hnone]
    | some i =>
      obtain ⟨hparse, hlt⟩ := Option.filter_eq_some_iff.1 hi
      simp only [decide_eq_true_eq] at hlt
      simp [hparse, hlt, Json.beforeErase]

/-- The root has its own place as its origin exactly if the request keeps it. -/
theorem Op.origin?_root (s : Store) (op : Op) :
    op.origin? s [] = if op.keepsRoot s then some [] else none := by
  cases op with
  | set path v => rfl
  | remove path =>
    obtain _ | ⟨key, _ | ⟨next, rest⟩⟩ := path
    · rfl
    · rw [Op.origin?, Op.keepsRoot, beforeCut_root]
      split <;> simp_all
    · -- Something further down is removed.
      simp [Op.origin?, Op.keepsRoot, Json.beforeCut, Json.beforeChange]
  | touch path =>
    obtain _ | ⟨key, rest⟩ := path
    · simp [Op.origin?, Op.keepsRoot, contains, node?, Node.descendant?]
    · simp [Op.origin?, Op.keepsRoot, Json.spelled]
  | _ => rfl

/-- A request that keeps the root leaves its serial, and any other one stamps it with the serial of
    the tick. -/
theorem Valid.serial_root (hs : s.Valid) (op : Op) : (op.run s).root.serial =
    if op.keepsRoot s then s.root.serial else s.openTick.1 := by
  have hroot : (op.run s).node? [] = some (op.run s).root := rfl
  have hcarried := hs.carried op hroot
  rw [Op.origin?_root] at hcarried
  split
  · next hkeeps =>
    rw [if_pos hkeeps] at hcarried
    obtain ⟨o, ⟨⟩, hserial⟩ := hcarried
    exact hserial
  · next hkeeps =>
    rw [if_neg hkeeps] at hcarried
    exact hcarried

end Roots

end Store

namespace Reader

/-! ### What a reader was shown -/

/-- What a reader with the whitelist `nothing` was shown: the value of the store when it was
    spelled out for the last time, and whether the next look will spell it out again. -/
structure Showing where
  shown : Option Json
  due : Bool

/-- Nothing was shown yet, and the first look spells everything out. -/
def Showing.first : Showing := ⟨none, true⟩

/-- The store after an event, whoever looks. -/
def Event.store (s : Store) : Event → Store
  | request op => op.run s
  | look => s.closeTick

/-- The showing after an event.  A request that does not keep the root makes the next showing due,
    and a look makes the showing that is due. -/
def Event.shows (s : Store) (m : Showing) : Event → Showing
  | request op => { m with due := m.due || !op.keepsRoot s }
  | look => if m.due then ⟨some s.value, false⟩ else m

/-- The showing after some events. -/
def showingAfter (s : Store) (m : Showing) : List Event → Showing
  | [] => m
  | e :: rest => showingAfter (e.store s) (e.shows s m) rest

/-- The stamps bear a showing out.  Nothing was shown and the cursor is that of a new reader, or
    the root `n` was spelled out when the clock stood at `seen`, and a showing is due exactly if
    the root has another serial since. -/
inductive Showing.Shown : Showing → Store → Cursor → Prop
  | blank {s : Store} (hs : s.Valid) : Shown .first s .unseen
  | seen {s : Store} {seen : Nat} {n : Node} {stamp : Stamp} {due : Bool}
      (hs : s.After seen (some n)) (hstamp : stamp.serial = n.serial)
      (hdue : due = true ↔ s.root.serial ≠ n.serial) :
      Shown ⟨some n.toJson, due⟩ s (.mk (some stamp) [])

/-- The invariant of a run: the reader has the whitelist `nothing`, the stamps bear the showing
    out, and the copy is what passes of what was shown. -/
structure Keyless (m : Showing) (x : Store × Reader) : Prop where
  whitelist : x.2.whitelist = .nothing
  shown : m.Shown x.1 x.2.cursor
  copy : x.2.copy = m.shown.map Whitelist.nothing.filter

section Shown

variable {m : Showing} {s : Store} {cursor : Cursor}

theorem Showing.Shown.valid (h : m.Shown s cursor) : s.Valid := by
  cases h with
  | blank hs => exact hs
  | seen hs => exact hs.valid

/-- A request makes a showing due exactly if it does not keep the root. -/
theorem Showing.Shown.request (h : m.Shown s cursor) (op : Store.Op) :
    ((Event.request op).shows s m).Shown (op.run s) cursor := by
  have hlater := Store.later_run h.valid op
  cases h with
  | blank hs => exact .blank hlater.valid
  | @seen _ seen n stamp due hs hstamp hdue =>
    refine .seen (hs.later hlater) hstamp ?_
    rw [hs.valid.serial_root op]
    split
    · next hkeeps => simpa [hkeeps] using hdue
    · next hkeeps =>
      -- The serial of the tick is later than all that was there when the root was spelled out.
      have hold : n.serial ≤ seen := (hs.covered n rfl).serial_le
      have hnew : seen < s.openTick.1 := hs.lt_openTick
      have hne : s.openTick.1 ≠ n.serial := by omega
      simp [hkeeps, hne]

/-- If a showing is due, then the cursor is moved by spelling out the whole tree. -/
theorem Showing.Shown.advance_of_due (h : m.Shown s cursor) (hdue : m.due = true) :
    Cursor.advance .nothing s.root cursor =
      (.mk (some s.root.stamp) [], some (Cursor.materialize .nothing s.root)) := by
  rw [← Cursor.capture_nothing]
  cases h with
  | blank => exact Cursor.advance_unseen _ _
  | seen hs hstamp hiff =>
    exact Cursor.advance_of_serial_ne (Cursor.stamp_mk _ _) (hstamp ▸ hiff.1 hdue)

/-- If no showing is due, then the root was shown and has the serial that it had then. -/
theorem Showing.Shown.root (h : m.Shown s cursor) (hdue : m.due = false) :
    ∃ seen n stamp, m = ⟨some n.toJson, false⟩ ∧ cursor = .mk (some stamp) [] ∧
      s.After seen (some n) ∧ stamp.serial = n.serial ∧ s.root.serial = n.serial := by
  cases h with
  | blank => cases hdue
  | @seen _ seen n stamp due hs hstamp hiff =>
    obtain rfl : due = false := hdue
    exact ⟨seen, n, stamp, rfl, rfl, hs, hstamp, by simpa using hiff⟩

/-- If no showing is due, then moving the cursor gives no difference. -/
theorem Showing.Shown.advance_of_not_due (h : m.Shown s cursor) (hdue : m.due = false) :
    Cursor.advance .nothing s.root cursor = (.mk (some s.root.stamp) [], none) := by
  obtain ⟨-, n, stamp, -, rfl, -, hstamp, hserial⟩ := h.root hdue
  exact Cursor.advance_nothing (hserial.trans hstamp.symm)

/-- After a look the stamps bear out the showing that it made, or the last one. -/
theorem Showing.Shown.look (h : m.Shown s cursor) :
    (Event.look.shows s m).Shown s.closeTick (Cursor.advance .nothing s.root cursor).1 := by
  rw [Event.shows]
  split
  · next hdue =>
    rw [h.advance_of_due hdue]
    exact .seen (Store.after_closeTick h.valid) rfl (by simp [Store.closeTick])
  · next hdue =>
    have hdue : m.due = false := by simpa using hdue
    rw [h.advance_of_not_due hdue]
    obtain ⟨seen, n, stamp, rfl, rfl, hs, -, hserial⟩ := h.root hdue
    exact .seen (hs.later (Store.later_closeTick hs.valid)) hserial
      (by simpa [Store.closeTick] using hserial)

end Shown

/-! ### Runs -/

section Keyless

variable {m : Showing} {x : Store × Reader}

/-- A new reader of a new store is `Keyless` with the first showing. -/
theorem keyless_start (clock : Clock) :
    Keyless .first (Start.unseen.on .nothing (Store.start clock)) :=
  ⟨rfl, .blank (Store.valid_start clock), rfl⟩

/-- A look does not fail and keeps `Keyless`. -/
theorem Keyless.look (h : Keyless m x) :
    ∃ y, Reader.look x.1 x.2 = .ok y ∧ Keyless (Event.look.shows x.1 m) y ∧
      y.1 = x.1.closeTick := by
  obtain ⟨s, w, cursor, copy⟩ := x
  obtain ⟨rfl, hshown, hcopy⟩ := h
  have hlook := hshown.look
  rw [Reader.look, Store.diff]
  cases hdue : m.due with
  | true =>
    -- The tree is spelled out, which makes a copy out of anything.
    have hadvance := hshown.advance_of_due hdue
    have hafter : Event.look.shows s m = ⟨some s.value, false⟩ := if_pos hdue
    rw [hadvance] at hlook ⊢
    dsimp only
    rw [Cursor.apply_materialize]
    exact ⟨_, rfl, ⟨rfl, hlook, by rw [hafter]; rfl⟩, rfl⟩
  | false =>
    have hadvance := hshown.advance_of_not_due hdue
    have hafter : Event.look.shows s m = m := if_neg (by simp [hdue])
    rw [hadvance] at hlook ⊢
    exact ⟨_, rfl, ⟨rfl, hlook, by rw [hafter]; exact hcopy⟩, rfl⟩

/-- No event fails, and each keeps `Keyless`. -/
theorem Keyless.step (h : Keyless m x) (e : Event) :
    ∃ y, e.step x = .ok y ∧ Keyless (e.shows x.1 m) y ∧ y.1 = e.store x.1 := by
  cases e with
  | request op => exact ⟨_, rfl, ⟨h.whitelist, h.shown.request op, h.copy⟩, rfl⟩
  | look => exact h.look

/-- No run fails, and each keeps `Keyless`. -/
theorem Keyless.run (h : Keyless m x) (events : List Event) :
    ∃ y, Reader.run x events = .ok y ∧ Keyless (showingAfter x.1 m events) y := by
  induction events generalizing x m with
  | nil => exact ⟨x, rfl, h⟩
  | cons e rest ih =>
    obtain ⟨y, hstep, hy, hstore⟩ := h.step e
    obtain ⟨z, hrun, hz⟩ := ih hy
    refine ⟨z, ?_, ?_⟩
    · rw [Reader.run, List.foldlM_cons, hstep]
      exact hrun
    · rw [showingAfter, ← hstore]
      exact hz

end Keyless

/-- After a look no showing is due. -/
theorem due_showingAfter (s : Store) (m : Showing) (events : List Event) :
    (showingAfter s m (events ++ [.look])).due = false := by
  induction events generalizing s m with
  | nil =>
    show (Event.look.shows s m).due = false
    cases hdue : m.due <;> simp [Event.shows, hdue]
  | cons e rest ih => exact ih _ _

/-- As long as no showing is due, what passes of the present tree is what passed of it when it was
    shown, unless the root is an array of which something else passed then. -/
theorem Showing.Shown.filter_eq_iff {m : Showing} {s : Store} {cursor : Cursor}
    (h : m.Shown s cursor) (hdue : m.due = false) :
    m.shown.map Whitelist.nothing.filter = some (Whitelist.nothing.filter s.value) ↔
      ∀ items, s.value = .arr items → ∃ shown, m.shown = some (.arr shown) ∧
        shown.map Whitelist.nothing.filter = items.map Whitelist.nothing.filter := by
  obtain ⟨seen, n, stamp, rfl, rfl, hs, -, hserial⟩ := h.root hdue
  have hold : n.serial ≤ seen := (hs.covered n rfl).serial_le
  have hsince := hs.since n rfl
  constructor
  · intro heq items hitems
    obtain ⟨shown, hshown⟩ := hsince.toJson_array hold hserial hitems
    refine ⟨shown, congrArg some hshown, ?_⟩
    simpa [hshown, hitems, Whitelist.filter_arr] using heq
  · intro hitems
    by_cases harray : ∃ items, s.value = .arr items
    · obtain ⟨items, hvalue⟩ := harray
      obtain ⟨shown, hshown, heq⟩ := hitems items hvalue
      have hshown : n.toJson = .arr shown := Option.some.inj hshown
      simp [hshown, hvalue, Whitelist.filter_arr, heq]
    · -- Of an object nothing passes at any time, and a scalar would have been stamped.
      have hview := hsince.view_nothing hold hserial fun items he => harray ⟨items, he⟩
      exact congrArg some hview

/-- **When a reader that lets no key pass is in step.**  It begins with nothing.  Whatever is asked
    of the store before and between its looks, every difference applies, and after a look the copy
    is what passes of the tree as it was spelled out last.  This is what passes of the present tree
    exactly unless the root is an array of which something else passed then. -/
theorem inStep_iff (clock : Clock) (events : List Event) :
    ∃ s r m, run (Start.unseen.on .nothing (Store.start clock)) (events ++ [.look]) = .ok (s, r) ∧
      m = showingAfter (Store.start clock) .first (events ++ [.look]) ∧
      r.copy = m.shown.map Whitelist.nothing.filter ∧
      (r.copy = some (Whitelist.nothing.filter s.value) ↔
        ∀ items, s.value = .arr items → ∃ shown, m.shown = some (.arr shown) ∧
          shown.map Whitelist.nothing.filter = items.map Whitelist.nothing.filter) := by
  obtain ⟨⟨s, r⟩, hrun, hkeyless⟩ := (keyless_start clock).run (events ++ [.look])
  refine ⟨s, r, _, hrun, rfl, hkeyless.copy, ?_⟩
  rw [hkeyless.copy]
  exact hkeyless.shown.filter_eq_iff (due_showingAfter _ _ _)

/-- A list of one number. -/
def singleItem : Document where
  json := .arr [.int 1]
  proper := by
    refine Json.proper_arr.2 ⟨by decide, ?_⟩
    intro v hv
    obtain rfl := List.mem_singleton.1 hv
    exact Json.proper_scalar _

/-- An item of an array at the root gets another value, and the reader with the whitelist `nothing`
    that was shown the array is not told: its copy stays `[1]`, while `[2]` passes. -/
theorem item_missed :
    ∃ s r, run (Start.unseen.on .nothing (Store.start {}))
        [.request (.set [] singleItem), .look, .request (.set ["0"] (.ofScalar (.int 2))), .look] =
          .ok (s, r) ∧
      r.copy = some (.arr [.int 1]) ∧ Whitelist.nothing.filter s.value = .arr [.int 2] ∧
      r.copy ≠ some (Whitelist.nothing.filter s.value) := by
  refine ⟨_, _, rfl, rfl, rfl, ?_⟩
  intro h
  cases h

end Reader

end Observatory

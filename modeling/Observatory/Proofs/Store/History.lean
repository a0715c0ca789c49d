import Observatory.Proofs.Store.Minimal
import Observatory.Proofs.Store.Origin

/-!
# What happened since a consumer looked

A cursor knows stamps, but what a consumer wants to be told is what happened: which nodes that it
could see are gone, and which that it can see now were built or stamped since it looked.  Here
that is kept beside the run, from the requests and from the plain values alone.  The difference
that the store computes from the stamps is exact for it.

* `Consumer.Memory`: the places that were visible at the last look, and where the nodes that stand
  now stood then;
* `Consumer.memoryAfter`: the memory after some events;
* `Consumer.Told`: the answer to a consumer is exact for what is remembered;
* `Consumer.Recalls`: the stamps bear the memory out;
* `Consumer.diff_none_of_idle`: asked for again with no change in between, there is no difference;
* `Consumer.exact_run`: in every run the next difference is exact.
-/

namespace Observatory

namespace Store

/-- No request of the run reports a change when it is made. -/
def Idle (s : Store) : List Op → Prop
  | [] => True
  | op :: rest => op.reports s = false ∧ (op.run s).Idle rest

/-- If a run is `Idle`, then the tree is after it what it was before. -/
theorem Idle.root_eq {s : Store} {ops : List Op} (h : s.Idle ops) :
    (s.runAll ops).root = s.root := by
  induction ops generalizing s with
  | nil => rfl
  | cons op rest ih => exact (ih h.2).trans (root_run_of_not_reports h.1)

end Store

namespace Consumer

/-! ### Memories -/

/-- What is remembered of a consumer's last look, without any stamps: which places were visible
    then, and for each place of the present tree where its node stood at that time, if it was
    neither built nor stamped since. -/
structure Memory where
  seen : List String → Bool
  origin? : List String → Option (List String)

/-- The memory before any look: nothing was visible and no node was there. -/
def Memory.blank : Memory := ⟨fun _ => false, fun _ => none⟩

/-- The memory after a look at `s`: what a snapshot captures is visible, and every node is where it
    is. -/
def Memory.look (w : Whitelist) (s : Store) : Memory where
  seen path := ((s.snapshot w).1.descend? path).isSome
  origin? path := some path

/-- The memory after an event.  A request moves nodes about and builds and stamps others, which
    `Op.origin?` says; a capture or a difference is a look. -/
def Event.remember (w : Whitelist) (s : Store) (m : Memory) : Event → Memory
  | request op => { m with origin? := fun path => (op.origin? s path).bind m.origin? }
  | capture => .look w s
  | diff => .look w s

/-- The memory after some events. -/
def memoryAfter (w : Whitelist) (x : Store × Cursor) (m : Memory) : List Event → Memory
  | [] => m
  | e :: rest => memoryAfter w (e.step w x) (e.remember w x.1 m) rest

/-- The difference that a consumer gets if it asks now. -/
def answer (w : Whitelist) (x : Store × Cursor) : Option Diff := (x.1.diff w x.2).1

/-- The answer to the consumer is exact for the memory: it deletes the visible nodes that are gone
    and updates those that were built or stamped, and is `none` if there are no such nodes. -/
def Told (w : Whitelist) (x : Store × Cursor) (m : Memory) : Prop :=
  Diff.Exact (fun path => m.seen path = true)
    (fun path => ((x.1.snapshot w).1.descend? path).isSome)
    (fun path => m.origin? path = none) (answer w x)

/-! ### Stamps that bear a memory out -/

/-- The stamps bear out the memory.  The consumer looked when the clock stood at `seen`, and
    `old` or nothing was there; nodes that the memory knows were stamped by then, and all
    others later. -/
structure Recalls (w : Whitelist) (seen : Nat) (old : Option Node) (x : Store × Cursor)
    (m : Memory) : Prop where
  looked : Looked w seen old x
  visible : ∀ path, m.seen path = old.any (·.visible w path)
  known : ∀ path n q, x.1.root.descendant? path = some n → m.origin? path = some q →
    n.serial ≤ seen
  later : ∀ path n, old.isSome → x.1.root.descendant? path = some n → m.origin? path = none →
    seen < n.serial
  blank : old = none → ∀ path, m.origin? path = none

section Recalls

variable {w : Whitelist} {seen : Nat} {old : Option Node} {x : Store × Cursor} {m : Memory}

/-- At the start `Recalls` holds with the blank memory. -/
theorem recalls_start (w : Whitelist) (clock : Clock) :
    Recalls w clock.current none (start clock) .blank where
  looked := looked_start w clock
  visible := fun _ => rfl
  known := nofun
  later := nofun
  blank := fun _ _ => rfl

/-- After a look `Recalls` holds with the memory of that look. -/
theorem recalls_look {s : Store} (w : Whitelist) (hs : s.Valid) :
    Recalls w s.clock.current (some s.root) (s.closeTick, .capture w s.root) (.look w s) where
  looked := looked_capture w hs
  visible := fun _ => rfl
  known := fun _ _ _ hn _ => (hs.root.descendant? hn).serial_le
  later := nofun
  blank := nofun

/-- A request keeps `Recalls`: a node that it leaves as it is keeps its serial, and any other is
    stamped with the serial of the open tick, which is later than `seen`. -/
theorem Recalls.request (h : Recalls w seen old x m) (op : Store.Op) :
    Recalls w seen old (op.run x.1, x.2) ((Event.request op).remember w x.1 m) where
  looked := h.looked.later (Store.later_run h.looked.after.valid op)
  visible := h.visible
  known := by
    intro path n q hn hq
    obtain ⟨p, hp, hq⟩ := Option.bind_eq_some_iff.1 hq
    -- The node stood somewhere before the request, and its serial is that of then.
    have hcarried := h.looked.after.valid.carried op hn
    rw [hp] at hcarried
    obtain ⟨o, ho, hserial⟩ := hcarried
    exact hserial ▸ h.known p o q ho hq
  later := by
    intro path n hold hn hnone
    have hcarried := h.looked.after.valid.carried op hn
    cases hp : op.origin? x.1 path with
    | none =>
      rw [hp] at hcarried
      exact Nat.lt_of_lt_of_eq h.looked.after.lt_openTick (Eq.symm hcarried)
    | some p =>
      rw [hp] at hcarried
      obtain ⟨o, ho, hserial⟩ := hcarried
      have hmemory : (op.origin? x.1 path).bind m.origin? = none := hnone
      rw [hp] at hmemory
      exact hserial ▸ h.later p o hold ho hmemory
  blank := by
    intro hold path
    show (op.origin? x.1 path).bind m.origin? = none
    cases op.origin? x.1 path with
    | none => rfl
    | some p => exact h.blank hold p

/-- Every event keeps `Recalls`, for what was seen at the last look. -/
theorem Recalls.step (h : Recalls w seen old x m) (e : Event) :
    ∃ seen' old', Recalls w seen' old' (e.step w x) (e.remember w x.1 m) := by
  have hlook := recalls_look w h.looked.after.valid
  cases e with
  | request op => exact ⟨seen, old, h.request op⟩
  | capture => exact ⟨_, _, hlook⟩
  | diff =>
    rw [h.looked.step_diff]
    exact ⟨_, _, hlook⟩

/-- Every run keeps `Recalls`. -/
theorem recalls_run (h : Recalls w seen old x m) (events : List Event) :
    ∃ seen' old', Recalls w seen' old' (run w x events) (memoryAfter w x m events) := by
  induction events generalizing x m seen old with
  | nil => exact ⟨seen, old, h⟩
  | cons e rest ih =>
    obtain ⟨seen', old', h'⟩ := h.step e
    exact ih h'

/-- If `Recalls` holds, then the answer is `Told` for the memory: the difference that is computed
    from the stamps is the one that the memory asks for. -/
theorem Recalls.told (h : Recalls w seen old x m) : Told w x m := by
  have hroot := h.looked.after.valid.root.2
  have hbefore : (fun path => m.seen path = true) = Cursor.before w old :=
    funext fun path => by rw [h.visible, Cursor.before]
  rw [Told, hbefore]
  show Diff.Exact _ (Cursor.now w x.1.root) _ (Cursor.advance w x.1.root x.2).2
  rw [h.looked.cursor]
  cases old with
  | none =>
    -- A consumer that never looked is told everything.
    rw [Cursor.recordOf, Cursor.advance_unseen]
    have hupdate := Cursor.isUpdate_materialize w x.1.root
    exact Diff.exact_of_replaced hupdate (.inr ⟨rfl, h.blank rfl []⟩)
  | some n =>
    have hexact := Cursor.exact_recordOf (w := w) (h.looked.after.since n rfl)
      h.looked.after.covered hroot
    -- Visible nodes are stamped later exactly if the memory does not know them.
    refine hexact.congr fun path hnow => ?_
    obtain ⟨o, ho⟩ := Node.descendant?_of_visible hroot hnow
    constructor
    · rintro ⟨o', ho', hlt⟩
      cases hp : m.origin? path with
      | none => rfl
      | some q => exact absurd hlt (Nat.not_lt.2 (h.known path o' q ho' hp))
    · exact fun hnone => ⟨o, ho, h.later path o rfl ho hnone⟩

end Recalls

/-! ### Runs -/

/-- If the cursor is the capture of the present tree and the requests since are `Idle`, then there
    is no difference. -/
theorem diff_none_of_idle {w : Whitelist} {x : Store × Cursor} {ops : List Store.Op}
    (hx : x.2 = .capture w x.1.root) (h : x.1.Idle ops) :
    answer w (run w x (ops.map .request)) = none := by
  have hrun : run w x (ops.map .request) = (x.1.runAll ops, x.2) := by
    clear hx h
    induction ops generalizing x with
    | nil => rfl
    | cons op rest ih => exact ih
  rw [hrun]
  show (Cursor.advance w (x.1.runAll ops).root x.2).2 = none
  rw [h.root_eq, hx, Cursor.advance_of_stamp_eq (Cursor.stamp_capture w x.1.root)]

/-- **The difference is exact.**  In every run, with requests of others in between, the answer is
    `Told` for what happened since the consumer looked, so it names the nodes that are gone and
    those that were built or stamped, and no others.  And after any look there is no difference
    until a request reports a change. -/
theorem exact_run (w : Whitelist) (clock : Clock) (events : List Event) :
    Told w (run w (start clock) events) (memoryAfter w (start clock) .blank events) ∧
      ∀ look, look = .capture ∨ look = .diff → ∀ ops,
        (run w (start clock) (events ++ [look])).1.Idle ops →
          answer w (run w (start clock) (events ++ look :: ops.map .request)) = none := by
  obtain ⟨seen, old, h⟩ := recalls_run (recalls_start w clock) events
  refine ⟨h.told, ?_⟩
  intro look hlook ops hidle
  -- A difference leaves the same cursor as a capture does, so both looks are one case.
  have hstep : run w (start clock) (events ++ [look]) =
      Event.capture.step w (run w (start clock) events) := by
    have hsplit : run w (start clock) (events ++ [look]) =
        look.step w (run w (start clock) events) := List.foldl_append
    rw [hsplit]
    rcases hlook with rfl | rfl
    · rfl
    · exact h.looked.step_diff
  have hrest : run w (start clock) (events ++ look :: ops.map .request) =
      run w (run w (start clock) (events ++ [look])) (ops.map .request) := by
    simp only [run, List.foldl_append, List.foldl_cons, List.foldl_nil]
  rw [hrest]
  refine diff_none_of_idle ?_ hidle
  rw [hstep]
  rfl

end Consumer

end Observatory

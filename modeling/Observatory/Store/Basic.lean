import Observatory.Clock
import Observatory.Store.Cursor
import Observatory.Store.Edit

/-!
# The store

A store holds a versioned tree and draws the serials of its changes from a clock.  All changes
of one tick share a serial; a tick begins with the first change and ends when it is closed or
when a reader looks at the tree.

* `Store.set`, `Store.remove`, `Store.touch`: changes at a path.
* `Store.endTick`, `Store.closeTick`: the end of a tick.
* `Store.snapshot`, `Store.diff`: what a reader sees.
-/

namespace Observatory

/-- A versioned tree, the clock of its serials, the serial of the open tick, and whether
    anything changed since a tick was last closed. -/
structure Store where
  root : Node := .object (.fresh 0) []
  clock : Clock := {}
  tick : Option Nat := none
  dirty : Bool := false
  deriving Repr, Inhabited

namespace Store

/-! ### Reading -/

/-- The node at a path. -/
def node? (s : Store) (path : List String) : Option Node := s.root.descendant? path

/-- The value at a path. -/
def get? (s : Store) (path : List String) : Option Json := (s.node? path).map Node.toJson

/-- Whether there is a node at a path. -/
def contains (s : Store) (path : List String) : Bool := (s.node? path).isSome

/-- The value of the whole tree. -/
def value (s : Store) : Json := s.root.toJson

/-! ### Ticks -/

/-- Draw a number from the clock, for another purpose than a change of the tree. -/
def draw (s : Store) : Nat × Store :=
  let (n, clock) := s.clock.next
  (n, { s with clock })

/-- The serial of the open tick, which is opened if there is none. -/
def openTick (s : Store) : Nat × Store :=
  match s.tick with
  | some serial => (serial, s)
  | none =>
    let (serial, clock) := s.clock.next
    (serial, { s with clock, tick := some serial })

/-- Close the tick without forgetting that something changed. -/
def closeTick (s : Store) : Store := { s with tick := none }

/-- Close the tick; whether anything changed since the last time. -/
def endTick (s : Store) : Bool × Store := (s.dirty, { s with tick := none, dirty := false })

/-! ### Changes -/

/-- The outcome of a change: whether it had an effect, or why it was refused. -/
abbrev Outcome := Except StoreError Bool

/-- Take over what a change of the tree came to. -/
def adopt (s : Store) : Except StoreError (Option Node) → Outcome × Store
  | .error e => (.error e, s)
  | .ok none => (.ok false, s)
  | .ok (some root) => (.ok true, { s with root, dirty := true })

/-- Give the node at a path a value. -/
def set (s : Store) (path : List String) (value : Json) : Outcome × Store :=
  let (serial, s) := s.openTick
  s.adopt (s.root.setAt serial value path)

/-- Remove the node at a path. -/
def remove (s : Store) : List String → Outcome × Store
  | [] => (.error (.invalidPath [] .removesRoot), s)
  | path =>
    let (serial, s) := s.openTick
    s.adopt (s.root.removeAt serial path)

/-- Mark the node at a path as changed; whether there is one. -/
def touch (s : Store) (path : List String) : Bool × Store :=
  -- Where nothing stands, no tick is opened.
  if s.contains path then
    let (serial, s) := s.openTick
    (true, { s with root := (s.root.touchAt serial path).getD s.root, dirty := true })
  else (false, s)

/-! ### Readers -/

/-- A cursor at the present tree. -/
def snapshot (s : Store) (w : Whitelist) : Cursor × Store := (.capture w s.root, s.closeTick)

/-- Move a cursor to the present tree; the difference if there is one. -/
def diff (s : Store) (w : Whitelist) (cursor : Cursor) : Option Diff × Cursor × Store :=
  let (cursor, d) := cursor.advance w s.root
  (d, cursor, s.closeTick)

end Store

end Observatory

/-!
# The serial clock

Every change of the state tree, every connection event and every revision of a vector draws a
number from one clock.  A number is handed out once, so of two observations the one with the
larger number is the later one, whoever made it.  The numbers are natural numbers without a bound.
A counter of 64 bits does the same until it wraps around after `2 ^ 64` draws, and what is proved
here about the order of observations holds of it up to then.

* `Clock.next`, `Clock.current`: draw a number; the last one drawn.
* `ClockBoard`: several clocks behind handles; two handles may share a clock.
-/

namespace Observatory

/-- A clock: the last number that it handed out, zero before the first. -/
structure Clock where
  current : Nat := 0
  deriving DecidableEq, Repr

namespace Clock

/-- The next number, and the clock after it was handed out. -/
def next (c : Clock) : Nat × Clock := (c.current + 1, ⟨c.current + 1⟩)

/-- A clock that starts again. -/
def reset (_ : Clock) : Clock := ⟨0⟩

end Clock

/-- Clocks behind handles: handle `i` stands for the clock number `handles[i]`. -/
structure ClockBoard where
  handles : List Nat := [0]
  clocks : List Clock := [{}]
  deriving Repr

namespace ClockBoard

/-- The number of the clock behind a handle. -/
def slot (b : ClockBoard) (handle : Nat) : Nat := b.handles.getD handle b.clocks.length

/-- The clock behind a handle. -/
def clock (b : ClockBoard) (handle : Nat) : Clock := b.clocks.getD (b.slot handle) {}

/-- Change the clock behind a handle. -/
def setClock (b : ClockBoard) (handle : Nat) (c : Clock) : ClockBoard :=
  { b with clocks := b.clocks.set (b.slot handle) c }

/-- Draw from the clock behind a handle. -/
def next (b : ClockBoard) (handle : Nat) : Nat × ClockBoard :=
  let (n, c) := (b.clock handle).next
  (n, b.setClock handle c)

/-- A further handle for the clock behind a handle. -/
def share (b : ClockBoard) (handle : Nat) : ClockBoard :=
  { b with handles := b.handles ++ [b.slot handle] }

/-- A handle for a clock of its own. -/
def add (b : ClockBoard) : ClockBoard :=
  { handles := b.handles ++ [b.clocks.length], clocks := b.clocks ++ [{}] }

end ClockBoard

end Observatory

import Observatory.Store.Basic

/-!
# Scripted changes

An action is a change of the store written as data, so that what a callback does can be
configured.  A script runs its actions in order and stops at the first that fails.

* `Action`: the changes.
* `Action.run`, `Action.runAll`: carry out an action, a script.
-/

namespace Observatory

/-- A change of the store. -/
inductive Action where
  /-- Give the node at a path a value. -/
  | set (path : List String) (value : Json)
  /-- Count one up at a path, but not beyond a bound. -/
  | increment (path : List String) (bound : Option Int)
  /-- Copy the value at one path to another, null if there is none. -/
  | copy (source target : List String)
  /-- Remove the node at a path. -/
  | remove (path : List String)
  /-- Mark the node at a path as changed. -/
  | touch (path : List String)
  /-- Fail. -/
  | fail
  deriving Repr

namespace Action

/-- Whether a change was not refused. -/
def succeeded (result : Store.Outcome × Store) : Bool × Store := (result.1.isOk, result.2)

/-- The count at a path; what is no number counts as zero. -/
def count (s : Store) (path : List String) : Int := ((s.get? path).bind Json.asInteger?).getD 0

/-- Whether a bound leaves room for one more. -/
def hasRoom (n : Int) : Option Int → Bool
  | none => true
  | some bound => n < bound

/-- Carry out an action; whether it succeeded. -/
def run : Action → Store → Bool × Store
  | set path value, s => succeeded (s.set path value)
  | increment path bound, s =>
    let n := count s path
    if hasRoom n bound then succeeded (s.set path (.int (n + 1))) else (true, s)
  | copy source target, s => succeeded (s.set target ((s.get? source).getD .null))
  | remove path, s => succeeded (s.remove path)
  | touch path, s => (true, (s.touch path).2)
  | fail, s => (false, s)

/-- Carry out a script; whether all of it succeeded. -/
def runAll : List Action → Store → Bool × Store
  | [], s => (true, s)
  | a :: rest, s =>
    match a.run s with
    | (true, s) => runAll rest s
    | (false, s) => (false, s)

end Action

end Observatory

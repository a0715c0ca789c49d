import Observatory.Panel.Basic

/-!
# Waiting for the device tree

A caller waits until a condition holds of the device tree.  It judges the tree, goes to sleep
if the condition does not hold, and wakes up when something is announced or when its token is
cancelled.

* `Progress`: how far a request came by one step.
* `Wait`: what a caller waits for.
* `Wait.step`: one step of a caller that waits.
-/

namespace Observatory

/-- How far a request came by one step: it goes on, it has to wait, or it is over. -/
inductive Progress (σ α : Type) where
  | goesOn (next : σ)
  | waits
  | ends (result : Except OperationError α)

/-- What a caller waits for, and whether it waits without a stream to the server as well. -/
structure Wait (α : Type) where
  allowDisconnected : Bool := false
  condition : DeviceTree → Option α

namespace Wait

variable {α : Type}

/-- What a caller that waits does next. -/
inductive Phase where
  /-- It looks whether its token is cancelled. -/
  | checking
  /-- It reads the status. -/
  | looking
  /-- It judges the tree; it knows of the announcements up to `seen`. -/
  | judging (seen : Nat)
  /-- It sleeps until there is a new announcement. -/
  | asleep (seen : Nat)
  deriving DecidableEq, Repr

/-- One step of a caller that waits. -/
def step (w : Wait α) (cancelled : Bool) (p : Panel) : Phase → Progress Phase α
  | .checking => if cancelled then .ends (.error .cancelled) else .goesOn .looking
  | .looking =>
    if w.allowDisconnected || p.status.isConnected then .goesOn (.judging p.status.revision)
    else .ends (.error .disconnected)
  | .judging seen =>
    match w.condition p.tree with
    | some a => .ends (.ok a)
    | none => .goesOn (.asleep seen)
  | .asleep seen =>
    if cancelled then .ends (.error .cancelled)
    else if p.status.revision = seen then .waits
    else .goesOn .checking

end Wait

end Observatory

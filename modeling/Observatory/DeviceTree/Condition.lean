import Observatory.DeviceTree.View

/-!
# Conditions on the device tree

* `Condition`: what may be said about a device and one of its vectors.
* `Condition.seen?`: the vector, when the condition holds.
-/

namespace Observatory

/-- What may be said about a device and one of its vectors. -/
inductive Condition where
  /-- The device is there. -/
  | deviceThere
  /-- The device is not there. -/
  | deviceGone
  /-- The vector is there. -/
  | vectorThere
  /-- The vector takes a command. -/
  | ready
  /-- The vector is in the state of that name. -/
  | inState (name : String)
  /-- A member of the vector has a value. -/
  | memberIs (member value : String)
  /-- Nothing in particular. -/
  | always
  deriving DecidableEq, Repr

namespace Condition

/-- Whether a condition holds. -/
def holds (d : DeviceView) (v : VectorView) : Condition → Bool
  | deviceThere => d.isPresent
  | deviceGone => !d.isPresent
  | vectorThere => v.isPresent
  | ready => v.isReady
  | inState name => v.state?.map VectorState.name = some name
  | memberIs member value => v.value? member = some value
  | always => true

/-- The vector, when the condition holds. -/
def seen? (c : Condition) (device vector : String) (t : DeviceTree) : Option VectorView :=
  let d := t.device device
  let v := d.vector vector
  if c.holds d v then some v else none

end Condition

end Observatory

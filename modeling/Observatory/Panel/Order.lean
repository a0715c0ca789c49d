import Observatory.Indi.Command
import Observatory.Panel.Wait

/-!
# Orders

An order gives members of a vector new values.  It becomes a command for the server, and the
vector is busy until the server answers.

* `Order`: the vector and the values.
* `Order.step`: one step of giving an order.
* `Order.takesCommand`, `Order.settled`: what to wait for before and after it.
-/

namespace Observatory

/-- New values for members of a vector. -/
structure Order where
  device : String
  vector : String
  values : List (String × String)
  deriving DecidableEq, Repr

namespace Order

/-- What a caller that gives an order does next. -/
inductive Phase where
  /-- It looks whether the vector is busy. -/
  | inspecting
  /-- It looks whether there is a stream to the server. -/
  | checking
  /-- It makes a command of the order. -/
  | composing
  /-- It leaves the command for the connection. -/
  | submitting (xml : String)
  /-- It announces that the vector has changed. -/
  | announcing
  deriving DecidableEq, Repr

/-- The vector of an order. -/
def target (o : Order) (t : DeviceTree) : VectorView := (t.device o.device).vector o.vector

/-- One step of giving an order. -/
def step (o : Order) (p : Panel) : Phase → Progress Phase Unit × Panel
  | .inspecting =>
    if (o.target p.tree).state? = some .busy then (.ends (.error (.busy o.device o.vector)), p)
    else (.goesOn .checking, p)
  | .checking =>
    if p.status.isConnected then (.goesOn .composing, p) else (.ends (.error .disconnected), p)
  | .composing =>
    match (o.target p.tree).command o.values with
    | .ok c => (.goesOn (.submitting c.toXml), p)
    | .error e => (.ends (.error (.view e)), p)
  | .submitting xml =>
    match p.submit o.device o.vector xml with
    | (.ok _, p) => (.goesOn .announcing, p)
    | (.error e, p) => (.ends (.error e), p)
  | .announcing => (.ends (.ok ()), p.announce id)

/-- Wait until the vector takes a command. -/
def takesCommand (o : Order) : Wait Unit where
  condition t := if (o.target t).isReady then some () else none

/-- How the server answered, if it did. -/
def answer? (o : Order) (t : DeviceTree) : Option (Except OperationError Unit) :=
  match (o.target t).state? with
  | none => some (.error (.view (.notFound [o.device, o.vector])))
  | some .busy => none
  | some .alert => some (.error (.alert o.device o.vector))
  | some .idle | some .ok => some (.ok ())

/-- Wait for the answer of the server. -/
def settled (o : Order) : Wait (Except OperationError Unit) where
  condition := o.answer?

end Order

end Observatory

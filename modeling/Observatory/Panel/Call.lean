import Observatory.Panel.Order

/-!
# Calls

A call is a request to a panel that takes several steps, between which other things may happen.

* `Call`: a request and how far it came.
* `Call.step`: its next step.
* `Call.run`: its steps until it has to wait or is over.
-/

namespace Observatory

/-- A request to a panel and how far it came. -/
inductive Call where
  /-- Wait for something to be seen of a vector. -/
  | wait (w : Wait VectorView) (phase : Wait.Phase)
  /-- Send a command as it is; whether the stream was looked for already. -/
  | send (xml : String) (checked : Bool)
  /-- Give an order. -/
  | give (o : Order) (phase : Order.Phase)
  /-- Wait until an order can be given. -/
  | await (o : Order) (phase : Wait.Phase)
  /-- Look at the token once more before an order is given. -/
  | confirm (o : Order)
  /-- Give an order whose answer will be waited for. -/
  | place (o : Order) (phase : Order.Phase)
  /-- Wait until an order is settled. -/
  | settle (o : Order) (phase : Wait.Phase)

namespace Call

/-- How a call comes out: what was seen of a vector if it waited for that, or why it failed. -/
abbrev Result := Except OperationError (Option VectorView)

/-! ### Requests -/

/-- Wait until something is seen of a vector. -/
def waitFor (w : Wait VectorView) : Call := .wait w .checking

/-- Send a command as it is. -/
def sendCommand (xml : String) : Call := .send xml false

/-- Give a vector new values. -/
def setValues (o : Order) : Call := .give o .checking

/-- Give a vector new values unless it is busy. -/
def setValuesIfReady (o : Order) : Call := .give o .inspecting

/-- Wait until a vector takes a command, give it new values, and wait until it is settled. -/
def setParameter (o : Order) : Call := .await o .checking

/-! ### Steps -/

/-- How far a call came, given how far its present part came. -/
def after {σ α : Type} (resume : σ → Call)
    (andThen : α → Progress Call (Option VectorView)) :
    Progress σ α → Progress Call (Option VectorView)
  | .goesOn next => .goesOn (resume next)
  | .waits => .waits
  | .ends (.ok a) => andThen a
  | .ends (.error e) => .ends (.error e)

/-- A call that is over and has nothing to show. -/
def finished {σ α : Type} (result : Except OperationError α) : Progress σ (Option VectorView) :=
  .ends (result.map fun _ => none)

/-- The next step of a call. -/
def step (cancelled : Bool) (p : Panel) : Call → Progress Call (Option VectorView) × Panel
  | .wait w phase => (after (.wait w) (fun v => .ends (.ok (some v))) (w.step cancelled p phase), p)
  | .send xml false =>
    if p.status.isConnected then (.goesOn (.send xml true), p)
    else (.ends (.error .disconnected), p)
  | .send xml true =>
    -- Once the connection is over for good, nobody takes commands any more.
    if p.connection.phase = .stopped then (.ends (.error .disconnected), p)
    else (finished (.ok ()), p.enqueue xml)
  | .give o phase =>
    let (progress, p) := o.step p phase
    (after (.give o) (fun _ => finished (.ok ())) progress, p)
  | .await o phase =>
    (after (.await o) (fun _ => .goesOn (.confirm o)) (o.takesCommand.step cancelled p phase), p)
  | .confirm o =>
    if cancelled then (.ends (.error .cancelled), p) else (.goesOn (.place o .checking), p)
  | .place o phase =>
    let (progress, p) := o.step p phase
    (after (.place o) (fun _ => .goesOn (.settle o .checking)) progress, p)
  | .settle o phase => (after (.settle o) finished (o.settled.step cancelled p phase), p)

/-! ### Runs -/

/-- More steps than a call takes before it has to wait. -/
def stepLimit : Nat := 16

/-- Take some steps, but not after the call is over. -/
def advance (cancelled : Bool) :
    Nat → Call → Panel → Option Result × Call × Panel
  | 0, c, p => (none, c, p)
  | n + 1, c, p =>
    match c.step cancelled p with
    | (.goesOn next, p) => advance cancelled n next p
    | (.waits, p) => (none, c, p)
    | (.ends result, p) => (some result, c, p)

/-- Take steps until the call has to wait or is over; its result if it is over. -/
def run (cancelled : Bool) (c : Call) (p : Panel) : Option Result × Call × Panel :=
  advance cancelled stepLimit c p

end Call

end Observatory

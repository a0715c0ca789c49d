import Observatory.Connection.Basic
import Observatory.DeviceTree.Writer
import Observatory.Panel.Error

/-!
# The panel

A panel brings a hub and one connection to a server together.  The hub's store holds the
devices of the server, and its clock counts the announcements of the connection as well.  Each
operation here is one that nobody can come between.

* `Panel.open?`: a panel for a configuration.
* `Panel.announce`: tell the world about the connection.
* `Panel.deliver`, `Panel.clearTree`, `Panel.submit`: changes of the device tree.
* `Panel.mutate`, `Panel.addSynchronizer`, …: the hub's operations.
-/

namespace Observatory

/-- A hub, the writer of its device tree, its connection, and the tokens of the callbacks
    called so far, in order. -/
structure Panel where
  config : PanelConfig := {}
  hub : Hub := {}
  writer : TreeWriter := {}
  connection : Connection := {}
  called : List Token := []

namespace Panel

/-- A panel whose connection makes its first attempt, if the configuration is valid. -/
def open? (config : PanelConfig) : Except ConfigError Panel :=
  config.validate.map fun c =>
    { config := c
      hub := { maxPasses := c.hub.maxPasses }
      writer := { layout := c.layout }
      connection := { framer := c.framer, queue := c.queue } }

/-! ### Reading -/

/-- The status of the connection. -/
def status (p : Panel) : Status := p.connection.status

/-- The device tree. -/
def tree (p : Panel) : DeviceTree := ⟨p.config.layout.treePath, p.hub.store⟩

/-- A vector of the device tree. -/
def vector (p : Panel) (device vector : String) : VectorView :=
  (p.tree.device device).vector vector

/-- The value at a path. -/
def get? (p : Panel) (path : List String) : Option Json := p.hub.store.get? path

/-! ### The connection -/

/-- Announce a status under a new number. -/
def announce (change : Status → Status) (p : Panel) : Panel :=
  let (revision, store) := p.hub.store.draw
  { p with
    hub := { p.hub with store }
    connection := { p.connection with status := { change p.connection.status with revision } } }

/-- Let the callbacks and the clients hear of changes. -/
def commit (p : Panel) : Panel :=
  let (hub, report) := p.hub.commit
  { p with hub, called := p.called ++ report.called }

/-- Keep what was written to the device tree and let everyone hear of it. -/
def committed (p : Panel) (store : Store) : Panel := { p with hub := { p.hub with store } }.commit

/-- Write a message to the device tree.  What a refused message wrote until then stays. -/
def deliver (m : Message) (p : Panel) : Panel :=
  let (writer, _, store) := p.writer.apply m p.hub.store
  { p with writer }.committed store

/-- Forget all devices. -/
def clearTree (p : Panel) : Panel :=
  p.committed (TreeWriter.clear p.writer.layout p.hub.store).2

/-- Leave a command for the connection. -/
def enqueue (xml : String) (p : Panel) : Panel :=
  { p with connection := { p.connection with outbound := p.connection.outbound ++ [xml] } }

/-- Leave a command for a vector, which is busy from now on. -/
def submit (device vector xml : String) (p : Panel) : Except OperationError Unit × Panel :=
  if p.status.isConnected then
    let p := p.enqueue xml
    match TreeWriter.markBusy p.writer.layout device vector p.hub.store with
    | (.ok _, store) => (.ok (), p.committed store)
    | (.error e, store) => (.error (.store e), { p with hub := { p.hub with store } })
  else (.error .disconnected, p)

/-- Tell the connection to close. -/
def close (p : Panel) : Panel := { p with connection := { p.connection with closing := true } }

/-! ### The hub -/

/-- Change the store, then commit. -/
def mutate {α : Type} (p : Panel) (f : Store → α × Store) : α × Panel × CommitReport :=
  let (result, hub, report) := p.hub.mutate f
  (result, { p with hub, called := p.called ++ report.called }, report)

/-- Register a callback. -/
def addSynchronizer (p : Panel) (selector : Selector) (callback : Callback) (force : Bool) :
    Except PanelError (Token × Panel) :=
  match p.hub.addSynchronizer selector callback force with
  | .error e => .error (.hub e)
  | .ok (token, called, hub) => .ok (token, { p with hub, called := p.called ++ called })

/-- Forget a registration; whether it was known. -/
def removeSynchronizer (p : Panel) (token : Token) : Bool × Panel :=
  let (known, hub) := p.hub.removeSynchronizer token
  (known, { p with hub })

/-- Attach a client. -/
def attach (p : Panel) (w : Whitelist) : ClientId × Panel :=
  let (id, hub) := p.hub.attach w
  (id, { p with hub })

/-- Detach a client. -/
def detach (p : Panel) (id : ClientId) : Except PanelError Panel :=
  match p.hub.detach id with
  | .error e => .error (.hub e)
  | .ok hub => .ok { p with hub }

/-- What is queued for a client. -/
def receive (p : Panel) (id : ClientId) : List Diff × Panel :=
  let (diffs, hub) := p.hub.receive id
  (diffs, { p with hub })

end Panel

end Observatory

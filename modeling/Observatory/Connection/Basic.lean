import Observatory.Indi.Framer
import Observatory.Indi.Queue

/-!
# The connection

A connection keeps trying to reach a server.  While there is a stream to it, there is a
session: bytes come in and become messages, messages wait for their delivery, and commands
go out.  What others may see of it is its status.

* `LinkState`, `Status`: what is announced.
* `Connection.Phase`: where the connection stands.
* `Connection.Event`: what may happen to it next.
* `Connection`: its status together with what it keeps to itself.
-/

namespace Observatory

/-- How a connection is doing. -/
inductive LinkState where
  | disconnected
  | connecting
  | connected
  deriving DecidableEq, Repr

/-- The name of a state. -/
def LinkState.name : LinkState → String
  | disconnected => "Disconnected"
  | connecting => "Connecting"
  | connected => "Connected"

/-- What is announced: the state, whether something went wrong since a stream was last opened,
    and the number drawn for the announcement. -/
structure Status where
  state : LinkState := .disconnected
  errored : Bool := false
  revision : Nat := 0
  deriving DecidableEq, Repr

namespace Status

/-- The status in another state.  A new stream begins without errors. -/
def enter (next : LinkState) (s : Status) : Status :=
  match next with
  | .connected => { s with state := next, errored := false }
  | .connecting | .disconnected => { s with state := next }

/-- The status after something went wrong. -/
def flag (s : Status) : Status := { s with errored := true }

/-- Whether a stream is open. -/
def isConnected (s : Status) : Bool := s.state = .connected

end Status

namespace Connection

/-- Where a connection stands. -/
inductive Phase where
  /-- Before an attempt. -/
  | idle
  /-- An attempt is under way. -/
  | dialing
  /-- The server has taken the call and has not been asked for anything. -/
  | greeting
  /-- A session is going on. -/
  | serving
  /-- Bytes came in and have not become messages. -/
  | framing
  /-- A message is in the tree and is not announced. -/
  | delivered
  /-- The session is over. -/
  | leaving
  /-- Nothing waits any more; the tree is not cleared. -/
  | emptied
  /-- The tree is cleared, which is not announced. -/
  | cleared
  /-- The server did not take the call. -/
  | refused
  /-- The next attempt is put off. -/
  | resting (wake : Nat)
  /-- No further attempt is made, which is not announced. -/
  | ending
  /-- Over for good. -/
  | stopped
  deriving DecidableEq, Repr

/-- Whether there is a stream to the server. -/
def Phase.hasStream : Phase → Bool
  | greeting | serving | framing | delivered => true
  | idle | dialing | leaving | emptied | cleared | refused | resting _ | ending | stopped => false

/-- What may happen to a connection. -/
inductive Event where
  /-- It goes on without waiting for anything. -/
  | proceed
  /-- The server takes the call. -/
  | accepted
  /-- The server does not take the call. -/
  | refused
  /-- Bytes arrive. -/
  | received (bytes : List UInt8)
  /-- A time that it waits for has come. -/
  | elapsed
  /-- A command goes out. -/
  | command
  /-- The server hangs up. -/
  | hungUp
  /-- The stream breaks. -/
  | broken
  /-- The stream breaks when so many characters of a command are out. -/
  | cut (characters : Nat)
  /-- It sees that it is to close. -/
  | closing
  deriving DecidableEq, Repr

end Connection

/-- A connection: what it announces; the commands that are to go out; whether it is to close;
    how many sessions there were; what went out in the last one; and its framer and queue. -/
structure Connection where
  phase : Connection.Phase := .idle
  status : Status := {}
  outbound : List String := []
  closing : Bool := false
  session : Nat := 0
  sent : List String := []
  framer : Framer := {}
  queue : MessageQueue := {}
  deriving Repr

end Observatory

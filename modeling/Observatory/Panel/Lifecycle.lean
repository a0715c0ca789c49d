import Observatory.Indi.Command
import Observatory.Panel.Basic

/-!
# The life of a connection

A connection goes from one attempt to the next until it is told to close.  One event at a time
happens to it, and between two events anyone may use the panel.

* `Panel.handle?`: what an event does, if it can happen.
* `Panel.frame`: one message out of the bytes that came in.
* `Panel.rest`: put off the next attempt.
-/

namespace Observatory

namespace Panel

/-- Change the connection. -/
def modifyConnection (change : Connection → Connection) (p : Panel) : Panel :=
  { p with connection := change p.connection }

/-- Come to another phase. -/
def move (phase : Connection.Phase) (p : Panel) : Panel :=
  p.modifyConnection fun c => { c with phase }

/-- Announce another state. -/
def enter (state : LinkState) (p : Panel) : Panel := p.announce (Status.enter state)

/-- Announce that something went wrong. -/
def flag (p : Panel) : Panel := p.announce Status.flag

/-! ### An attempt -/

/-- Begin an attempt, or none when the connection is to close. -/
def dial (p : Panel) : Panel :=
  if p.connection.closing then p.move .ending else (p.enter .connecting).move .dialing

/-- A new session begins. -/
def beginSession (p : Panel) : Panel :=
  ((p.enter .connected).modifyConnection fun c =>
    { c with session := c.session + 1, sent := [] }).move .greeting

/-- The attempt failed. -/
def missSession (p : Panel) : Panel :=
  (p.announce fun s => (s.enter .disconnected).flag).move .refused

/-- Put off the next attempt. -/
def rest (now : Nat) (p : Panel) : Panel :=
  (p.enter .disconnected).move (.resting (now + p.config.server.reconnectDelay))

/-! ### A session -/

/-- Something goes out to the server. -/
def transmit (xml : String) (p : Panel) : Panel :=
  p.modifyConnection fun c => { c with sent := c.sent ++ [xml] }

/-- Ask the server for all definitions. -/
def greet (p : Panel) : Panel := (p.transmit (requestProperties none)).move .serving

/-- Put a text that was framed into the queue if it is a message. -/
def takeIn (now : Nat) (text : String) (p : Panel) : Panel :=
  match Message.ofText text with
  | .ok (some m) => p.modifyConnection fun c => { c with queue := c.queue.push m now }
  | .ok none => p
  | .error _ => p.flag

/-- Take one message out of the bytes that came in. -/
def frame (now : Nat) (p : Panel) : Panel :=
  let (result, framer) := p.connection.framer.nextMessage
  let p := p.modifyConnection fun c => { c with framer }
  match result with
  | .ok (some text) => p.takeIn now text
  | .ok none => p.move .serving
  | .error _ => p.flag

/-- Deliver the first message that is ready. -/
def deliverReady? (now : Nat) (p : Panel) : Option Panel :=
  (p.connection.queue.popReady? now).map fun (m, queue) =>
    ((p.modifyConnection fun c => { c with queue }).deliver m).move .delivered

/-- The first command that is to go out, and the panel without it. -/
def nextCommand? (p : Panel) : Option (String × Panel) :=
  match p.connection.outbound with
  | [] => none
  | xml :: outbound => some (xml, p.modifyConnection fun c => { c with outbound })

/-- Forget what waited for the session that is over. -/
def empty (p : Panel) : Panel :=
  (p.modifyConnection fun c =>
    { c with framer := c.framer.reset, queue := c.queue.clear, outbound := [] }).move .emptied

/-! ### Events -/

/-- What an event does in a session. -/
def handleServing? (now : Nat) (p : Panel) : Connection.Event → Option Panel
  | .received bytes => some ((p.modifyConnection fun c =>
      { c with framer := c.framer.extend bytes }).move .framing)
  | .elapsed => p.deliverReady? now
  | .command => p.nextCommand?.map fun (xml, p) => p.transmit xml
  | .cut n => p.nextCommand?.map fun (xml, p) =>
      ((p.transmit (String.ofList (xml.toList.take n))).flag).move .leaving
  | .broken => some (p.flag.move .leaving)
  | .hungUp => some (p.move .leaving)
  | .closing => if p.connection.closing then some (p.move .leaving) else none
  | .proceed | .accepted | .refused => none

/-- What an event does, if it can happen. -/
def handle? (now : Nat) (p : Panel) (e : Connection.Event) : Option Panel :=
  match p.connection.phase, e with
  | .idle, .proceed => some p.dial
  | .dialing, .accepted => some p.beginSession
  | .dialing, .refused => some p.missSession
  | .dialing, .closing => if p.connection.closing then some (p.move .ending) else none
  | .greeting, .proceed => some p.greet
  | .greeting, .broken => some (p.flag.move .leaving)
  | .serving, e => p.handleServing? now e
  | .framing, .proceed => some (p.frame now)
  | .delivered, .proceed => some ((p.announce id).move .serving)
  | .leaving, .proceed => some p.empty
  | .emptied, .proceed => some (p.clearTree.move .cleared)
  | .cleared, .proceed => some (p.rest now)
  | .refused, .proceed => some (p.rest now)
  | .resting wake, .elapsed => if wake ≤ now then some (p.move .idle) else none
  | .resting _, .closing => if p.connection.closing then some (p.move .ending) else none
  | .ending, .proceed => some ((p.enter .disconnected).move .stopped)
  | _, _ => none

end Panel

end Observatory

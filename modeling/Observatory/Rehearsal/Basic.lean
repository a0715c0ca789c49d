import Observatory.Panel.Call
import Observatory.Panel.Lifecycle

/-!
# Rehearsals

A rehearsal runs a panel against a server that follows a script, in a time that passes only
when it is told to.

* `Rehearsal`: the panel, the server and the calls that are under way.
* `Rehearsal.nextEvent?`, `Rehearsal.happen`: what happens to the connection.
* `Rehearsal.write`, `Rehearsal.hangUp`: what the server does.
* `Rehearsal.takeNews`: what happened since the last time.
-/

namespace Observatory

/-- The far end of a stream: whether the server has closed it, what the panel has not read yet,
    and how much of what the panel sent was seen. -/
structure FarEnd where
  closed : Bool := false
  unread : List UInt8 := []
  taken : Nat := 0
  deriving Repr

/-- A call under way: its number, the number of its token, and how long it may take and until
    when, if that is limited. -/
structure PendingCall where
  number : Nat
  token : Nat
  limit : Option (Nat × Nat)
  call : Call

/-- How a call came out, and whether its time was limited. -/
structure CallOutcome where
  limited : Bool
  result : Call.Result

/-- A panel, the time, the answers to its attempts that are left, and the number of attempts;
    the far end of the latest stream; the calls under way, the number of calls so far, how many
    of them there were when the connection last set its timer, and the tokens that are
    cancelled; the calls that ended and the number of callbacks that were called when someone
    last asked. -/
structure Rehearsal where
  panel : Panel
  now : Nat := 0
  answers : List Bool := []
  attempts : Nat := 0
  farEnd : Option FarEnd := none
  pending : List PendingCall := []
  started : Nat := 0
  older : Nat := 0
  cancelled : List Nat := []
  ended : List (Nat × CallOutcome) := []
  heard : Nat := 0

namespace Rehearsal

/-! ### The connection -/

/-- The number of bytes that are read at once. -/
def chunkSize : Nat := 8192

/-- What the panel has not read yet. -/
def unread (r : Rehearsal) : List UInt8 := (r.farEnd.map FarEnd.unread).getD []

/-- Whether the server has closed the stream. -/
def isClosed (r : Rehearsal) : Bool := (r.farEnd.map FarEnd.closed).getD true

/-- What happens next in a session, if anything does: bytes are read first, then messages are
    delivered, then commands go out. -/
def nextInSession? (r : Rehearsal) : Option Connection.Event :=
  let c := r.panel.connection
  if c.closing then some .closing
  else if !r.unread.isEmpty then some (.received (r.unread.take chunkSize))
  else if (c.queue.popReady? r.now).isSome then some .elapsed
  else if !c.outbound.isEmpty then some .command
  else if r.isClosed then some .hungUp
  else none

/-- What happens next to the connection, if anything does. -/
def nextEvent? (r : Rehearsal) : Option Connection.Event :=
  match r.panel.connection.phase with
  | .dialing => some (if r.answers.headD false then .accepted else .refused)
  | .serving => r.nextInSession?
  | .resting wake =>
    if r.panel.connection.closing then some .closing
    else if wake ≤ r.now then some .elapsed
    else none
  | .stopped => none
  | .idle | .greeting | .framing | .delivered | .leaving | .emptied | .cleared | .refused
  | .ending => some .proceed

/-- What an event means for the server. -/
def noticed (r : Rehearsal) : Connection.Event → Rehearsal
  | .accepted =>
    { r with attempts := r.attempts + 1, answers := r.answers.tail, farEnd := some {} }
  | .refused => { r with attempts := r.attempts + 1, answers := r.answers.tail }
  | .received bytes =>
    { r with farEnd := r.farEnd.map fun f => { f with unread := f.unread.drop bytes.length } }
  | _ => r

/-- Let an event happen.  After it the connection sets its timer anew. -/
def happen (r : Rehearsal) (e : Connection.Event) : Rehearsal :=
  match r.panel.handle? r.now e with
  | some panel => { r with panel, older := r.started }.noticed e
  | none => r

/-- Let the next events happen, `limit` of them at most. -/
def runConnection : Nat → Rehearsal → Rehearsal
  | 0, r => r
  | limit + 1, r =>
    match r.nextEvent? with
    | none => r
    | some e => runConnection limit (r.happen e)

/-- More events than can happen before time has to pass.  An attempt and the end of a session
    take a dozen; a message has at least four bytes and is delivered three times at most. -/
def eventLimit (r : Rehearsal) : Nat :=
  let c := r.panel.connection
  16 * (r.answers.length + 2) + 8 * (r.unread.length + c.framer.buffered + c.queue.size + 1) +
    c.outbound.length

/-- Everything that happens to the connection by itself. -/
def settleConnection (r : Rehearsal) : Rehearsal := runConnection r.eventLimit r

/-! ### The server -/

/-- The server writes; whether there is anyone to read it. -/
def write (r : Rehearsal) (bytes : List UInt8) : Bool × Rehearsal :=
  match r.farEnd with
  | some f =>
    if !f.closed && r.panel.connection.phase.hasStream then
      (true, { r with farEnd := some { f with unread := f.unread ++ bytes } })
    else (false, r)
  | none => (false, r)

/-- The server hangs up; whether it had a stream. -/
def hangUp (r : Rehearsal) : Bool × Rehearsal :=
  match r.farEnd with
  | some f => (!f.closed, { r with farEnd := some { f with closed := true } })
  | none => (false, r)

/-! ### News -/

/-- What happened since the last time: what the server of the latest stream got, the calls that
    ended, by number, and the tokens of the callbacks called. -/
structure News where
  received : String := ""
  ended : List (Nat × CallOutcome) := []
  called : List Token := []

/-- What the server of the latest stream got since the last time; nothing after it hung up. -/
def received (r : Rehearsal) : String :=
  match r.farEnd with
  | some f => if f.closed then "" else String.join (r.panel.connection.sent.drop f.taken)
  | none => ""

/-- What happened since the last time. -/
def takeNews (r : Rehearsal) : News × Rehearsal :=
  ({ received := r.received
     ended := r.ended.mergeSort fun a b => a.1 ≤ b.1
     called := r.panel.called.drop r.heard },
    { r with
      farEnd := r.farEnd.map fun f => { f with taken := r.panel.connection.sent.length }
      ended := []
      heard := r.panel.called.length })

end Rehearsal

end Observatory

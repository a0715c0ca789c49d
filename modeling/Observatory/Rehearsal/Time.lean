import Observatory.Rehearsal.Basic

/-!
# The course of a rehearsal

Everything that can happen at one time happens before time passes: first to the connection, then
to the calls, which go on in the order of their numbers.  Time passes from one timer to the
next, and timers that run out together go off in the order in which they were set.

* `Rehearsal.start`, `Rehearsal.perform`, `Rehearsal.cancel`: calls and their tokens.
* `Rehearsal.settle`: everything that happens before time has to pass.
* `Rehearsal.advance`: let time pass.
-/

namespace Observatory

namespace Rehearsal

/-! ### Calls -/

/-- Whether a token is cancelled. -/
def isCancelled (r : Rehearsal) (token : Nat) : Bool := r.cancelled.contains token

/-- How a call comes out when it has not ended by itself. -/
def expired? (now : Nat) (t : PendingCall) : Option Call.Result :=
  match t.limit with
  | some (span, deadline) => if deadline ≤ now then some (.error (.timeout span)) else none
  | none => none

/-- Let one call go on until it has to wait. -/
def runCall (r : Rehearsal) (t : PendingCall) : Rehearsal :=
  let (result, call, panel) := t.call.run (r.isCancelled t.token) r.panel
  let r := { r with panel }
  match result.or (expired? r.now t) with
  | some result => { r with ended := r.ended ++ [(t.number, ⟨t.limit.isSome, result⟩)] }
  | none => { r with pending := r.pending ++ [{ t with call }] }

/-- Let each call go on, in the order of their numbers. -/
def runCalls (r : Rehearsal) : Rehearsal := r.pending.foldl runCall { r with pending := [] }

/-- Let the connection and the calls take turns, `limit` times at most. -/
def settleRounds : Nat → Rehearsal → Rehearsal
  | 0, r => r
  | limit + 1, r =>
    let before := r.settleConnection
    let after := before.runCalls
    if after.nextEvent?.isNone && after.panel.status.revision = before.panel.status.revision then
      after
    else settleRounds limit after

/-- Everything that happens before time has to pass.  Only a call that gives its order makes
    another turn necessary. -/
def settle (r : Rehearsal) : Rehearsal := settleRounds (r.pending.length + 2) r

/-- Start a call; its number. -/
def start (r : Rehearsal) (call : Call) (token : Nat) (span : Option Nat) : Nat × Rehearsal :=
  let limit := span.map fun s => (s, r.now + s)
  (r.started,
    { r with
      started := r.started + 1
      pending := r.pending ++ [{ number := r.started, token, limit, call }] })

/-- Make a call that does not have to wait. -/
def perform (r : Rehearsal) (call : Call) : Option Call.Result × Rehearsal :=
  let (result, _, panel) := call.run false r.panel
  (result, { r with panel })

/-- Cancel a token. -/
def cancel (r : Rehearsal) (token : Nat) : Rehearsal :=
  { r with cancelled := token :: r.cancelled }

/-- Fail once a token is cancelled. -/
def checkToken (r : Rehearsal) (token : Nat) : Except OperationError Unit :=
  if r.isCancelled token then .error .cancelled else .ok ()

/-! ### Time -/

/-- What the connection waits for. -/
def connectionTimer? (r : Rehearsal) : Option Nat :=
  match r.panel.connection.phase with
  | .serving => r.panel.connection.queue.nextDue? r.now
  | .resting wake => some wake
  | _ => none

/-- The next time at which something happens by itself. -/
def nextTimer? (r : Rehearsal) : Option Nat :=
  let timers := r.connectionTimer?.toList ++ r.pending.filterMap fun t => t.limit.map Prod.snd
  (timers.filter fun t => r.now < t).min?

/-- End the calls whose time is over, if they set their timers before the connection set its
    own: they do not see what it does now. -/
def expireOlder (r : Rehearsal) : Rehearsal :=
  r.pending.foldl (fun r t =>
      if t.number < r.older && (expired? r.now t).isSome then r.runCall t
      else { r with pending := r.pending ++ [t] })
    { r with pending := [] }

/-- Let time pass without a stop. -/
def jumpTo (r : Rehearsal) (time : Nat) : Rehearsal := { r with now := time }.expireOlder.settle

/-- Let time pass until `target`, with `limit` stops on the way at most. -/
def passTo (target : Nat) : Nat → Rehearsal → Rehearsal
  | 0, r => r.jumpTo target
  | limit + 1, r =>
    match r.nextTimer? with
    | none => r.jumpTo target
    | some t => if t ≤ target then passTo target limit (r.jumpTo t) else r.jumpTo target

/-- Let time pass.  Each stop is at least a millisecond after the one before. -/
def advance (r : Rehearsal) (milliseconds : Nat) : Rehearsal :=
  passTo (r.now + milliseconds) milliseconds r

end Rehearsal

end Observatory

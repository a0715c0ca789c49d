import Observatory.Indi.Message

/-!
# The message queue

Some vectors change many times in a second while they are busy.  Their updates are throttled:
the first one is delivered at once, and later ones wait in one place for each stream of
updates, where the latest takes the place of the one before.  When the waiting time is over
that one is delivered, and a placeholder repeats it once more.  Any other message ends the
waiting of all that stand before it.

* `MessageQueue`: what waits.
* `MessageQueue.push`, `MessageQueue.popReady?`: messages come and go.
* `MessageQueue.nextDue?`: when the next message is ready.
-/

namespace Observatory

/-- What the updates of one stream have in common. -/
structure StreamKey where
  kind : VectorKind
  device : String
  vector : String
  state : Option VectorState
  deriving DecidableEq, Repr

/-- A message that waits: until when, if not for its turn alone; whether it only repeats one
    that was delivered; and its stream, if it is throttled. -/
structure QueueEntry where
  message : Message
  due : Option Nat
  placeholder : Bool
  key : Option StreamKey
  deriving Repr

/-- The waiting messages in the order of delivery, the time that throttled updates wait, and the
    names of the vectors that are throttled.  Times are in milliseconds. -/
structure MessageQueue where
  expiration : Nat := 500
  delayable : List String := ["CCD_EXPOSURE"]
  entries : List QueueEntry := []
  deriving Repr

namespace QueueEntry

/-- Whether an entry may be delivered. -/
def isReady (now : Nat) (e : QueueEntry) : Bool :=
  match e.due with
  | none => true
  | some due => due ≤ now

/-- When an entry is ready, no earlier than now. -/
def readyAt (now : Nat) (e : QueueEntry) : Nat :=
  match e.due with
  | none => now
  | some due => max due now

end QueueEntry

namespace MessageQueue

/-- The stream of an update. -/
def streamOf (u : Update) : StreamKey := ⟨u.kind, u.device, u.name, u.state⟩

/-- The stream of a message that is throttled: a number vector that is listed and busy. -/
def delayedStream? (q : MessageQueue) : Message → Option StreamKey
  | .update u =>
    if u.kind = .number ∧ u.state = some .busy ∧ u.name ∈ q.delayable then some (streamOf u)
    else none
  | _ => none

/-- Whether a message is throttled. -/
def isDelayable (q : MessageQueue) (m : Message) : Bool := (q.delayedStream? m).isSome

/-- The number of entries. -/
def size (q : MessageQueue) : Nat := q.entries.length

/-- Forget everything. -/
def clear (q : MessageQueue) : MessageQueue := { q with entries := [] }

/-- Whether an entry waits for its time in a stream. -/
def waitsIn (key : StreamKey) (e : QueueEntry) : Bool := e.due.isSome && e.key = some key

/-- Put a message in the place of the first entry that waits in its stream. -/
def replaceIn? (key : StreamKey) (m : Message) : List QueueEntry → Option (List QueueEntry)
  | [] => none
  | e :: rest =>
    if waitsIn key e then some ({ e with message := m, placeholder := false } :: rest)
    else (replaceIn? key m rest).map (e :: ·)

/-- Take in a message. -/
def push (q : MessageQueue) (m : Message) (now : Nat) : MessageQueue :=
  match q.delayedStream? m with
  | none =>
    let kept := (q.entries.filter fun e => !e.placeholder).map fun e => { e with due := none }
    { q with entries := kept ++ [⟨m, none, false, none⟩] }
  | some key =>
    match replaceIn? key m q.entries with
    | some entries => { q with entries }
    | none => { q with entries := q.entries ++
        [⟨m, none, false, some key⟩, ⟨m, some (now + q.expiration), true, some key⟩] }

/-- The first entry that is ready, and the others. -/
def takeReady? (now : Nat) : List QueueEntry → Option (QueueEntry × List QueueEntry)
  | [] => none
  | e :: rest =>
    if e.isReady now then some (e, rest)
    else (takeReady? now rest).map fun p => (p.1, e :: p.2)

/-- The first message that is ready.  One that waited for its time leaves a placeholder. -/
def popReady? (q : MessageQueue) (now : Nat) : Option (Message × MessageQueue) :=
  (takeReady? now q.entries).map fun (e, rest) =>
    if e.due.isSome && !e.placeholder then
      (e.message,
        { q with entries := rest ++ [⟨e.message, some (now + q.expiration), true, e.key⟩] })
    else (e.message, { q with entries := rest })

/-- When the next message is ready, no earlier than now. -/
def nextDue? (q : MessageQueue) (now : Nat) : Option Nat :=
  (q.entries.map (QueueEntry.readyAt now)).min?

end MessageQueue

end Observatory

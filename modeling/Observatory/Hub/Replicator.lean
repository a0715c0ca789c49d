import Observatory.Diff.Basic
import Observatory.Store.Basic

/-!
# Replication

Every client of a store has a whitelist and a cursor.  Publishing moves each cursor to the
present tree and queues the difference for the client, who applies what it receives to a copy.

* `Replicator.attach`, `Replicator.detach`: clients come and go.
* `Replicator.publish`: queue for every client what it has not seen.
* `Replicator.receive`: what is queued for a client.
* `Replica`: a client's copy of what it may see.
-/

namespace Observatory

/-- Names one client; later clients have larger numbers. -/
abbrev ClientId := Nat

/-- A client's name as it is shown to people. -/
def ClientId.text (id : ClientId) : String := "client#" ++ toString id

/-- What a client may see and what it has been sent. -/
structure Client where
  whitelist : Whitelist
  cursor : Cursor
  deriving Repr

/-- The clients in the order of their numbers, the differences queued for everyone who still
    listens, and the last number given out.  A client that was detached can still receive what
    was queued before. -/
structure Replicator where
  clients : List (ClientId × Client) := []
  queues : List (ClientId × List Diff) := []
  lastId : ClientId := 0
  deriving Repr

namespace Replicator

/-- The number of clients. -/
def size (r : Replicator) : Nat := r.clients.length

/-- Whether anyone listens for a client. -/
def listens (r : Replicator) (id : ClientId) : Bool := r.queues.any fun q => q.1 = id

/-- Queue a difference for a client. -/
def send (id : ClientId) (d : Diff) (queues : List (ClientId × List Diff)) :
    List (ClientId × List Diff) :=
  queues.map fun q => if q.1 = id then (q.1, q.2 ++ [d]) else q

/-- Attach a client; everything that it may see is queued at once. -/
def attach (r : Replicator) (s : Store) (w : Whitelist) : ClientId × Replicator × Store :=
  let id := r.lastId + 1
  let (initial, cursor, s) := s.diff w .unseen
  (id,
    { clients := r.clients ++ [(id, ⟨w, cursor⟩)]
      queues := r.queues ++ [(id, initial.toList)]
      lastId := id }, s)

/-- Detach a client, if there is one. -/
def detach? (r : Replicator) (id : ClientId) : Option Replicator :=
  if r.clients.any fun c => c.1 = id then
    some { r with clients := r.clients.filter fun c => c.1 ≠ id }
  else none

/-- Stop listening for a client.  The client goes when there is something to send to it. -/
def stopListening (r : Replicator) (id : ClientId) : Replicator :=
  { r with queues := r.queues.filter fun q => q.1 ≠ id }

/-- What is queued for a client, which is taken from the queue. -/
def receive (r : Replicator) (id : ClientId) : List Diff × Replicator :=
  (((r.queues.find? fun q => q.1 = id).map Prod.snd).getD [],
    { r with queues := r.queues.map fun q => if q.1 = id then (q.1, []) else q })

/-- Bring one client up to date: its new state unless it goes, and what is sent to it. -/
def update (s : Store) (listening : Bool) (c : Client) : Option Client × Option Diff :=
  match s.diff c.whitelist c.cursor with
  | (none, cursor, _) => (some { c with cursor }, none)
  -- Nobody listens any more: this is found out when there is something to send.
  | (some d, cursor, _) => if listening then (some { c with cursor }, some d) else (none, none)

/-- Bring some clients up to date: those that stay, and what is sent. -/
def updateAll (s : Store) (listens : ClientId → Bool) :
    List (ClientId × Client) → List (ClientId × Client) × List (ClientId × Diff)
  | [] => ([], [])
  | (id, c) :: rest =>
    let (stays, sent) := updateAll s listens rest
    let (next, d) := update s (listens id) c
    ((next.map fun c => (id, c)).toList ++ stays, (d.map fun d => (id, d)).toList ++ sent)

/-- Queue for every client what it has not seen; the number of differences sent. -/
def publish (r : Replicator) (s : Store) : Nat × Replicator × Store :=
  let (clients, sent) := updateAll s r.listens r.clients
  (sent.length,
    { r with clients, queues := sent.foldl (fun qs p => send p.1 p.2 qs) r.queues },
    s.closeTick)

end Replicator

/-- A client's copy, nothing before the first difference. -/
structure Replica where
  value : Option Json := none
  deriving Repr

/-- The copy after a difference. -/
def Replica.apply (r : Replica) (d : Diff) : Except DiffError Replica :=
  (d.apply r.value).map fun v => ⟨some v⟩

/-- The copy after some differences, and the errors of those that do not apply. -/
def Replica.applyAll (r : Replica) (ds : List Diff) : Replica × List DiffError :=
  ds.foldl (fun (r, errors) d =>
    match r.apply d with
    | .ok next => (next, errors)
    | .error e => (r, errors ++ [e])) (r, [])

end Observatory

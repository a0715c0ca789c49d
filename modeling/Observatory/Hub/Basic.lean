import Observatory.Hub.Replicator
import Observatory.Watch.Synchronizer

/-!
# The hub

A hub owns a store together with its synchronizer and its clients.  A commit closes the tick,
runs passes of the synchronizer until no callback changes anything further, and then brings
the clients up to date.  The number of passes is limited, since callbacks may set each other
off for ever.

* `Hub.mutate`, `Hub.commit`: changes and what follows from them.
* `Hub.addSynchronizer`, `Hub.attach`, …: registrations.
* `HubError`: why a request is refused.
-/

namespace Observatory

/-- Why a hub or a client refuses a request. -/
inductive HubError where
  /-- The selector has no paths. -/
  | emptySelector
  /-- There is no such client. -/
  | unknownClient (id : ClientId)
  /-- A difference does not apply to the client's copy. -/
  | replica (error : DiffError)
  deriving Repr

/-- The message of an error. -/
def HubError.message : HubError → String
  | emptySelector => "path selector matches nothing"
  | unknownClient id => "unknown replication client: " ++ id.text
  | replica e => "diff error: " ++ e.message

/-- What a commit did: its passes, the tokens of the callbacks it called, in order, the
    differences it sent, and whether it gave up with changes pending. -/
structure CommitReport where
  passes : Nat := 0
  called : List Token := []
  diffsSent : Nat := 0
  truncated : Bool := false
  deriving DecidableEq, Repr

/-- A store with its synchronizer and its clients. -/
structure Hub where
  store : Store := {}
  synchronizer : Synchronizer := {}
  replicator : Replicator := {}
  maxPasses : Nat := 16

namespace Hub

/-- Run passes while there are changes, `limit` of them at most. -/
def settle : Nat → Hub → CommitReport → Hub × CommitReport
  | limit, h, report =>
    match h.store.endTick with
    | (false, store) => ({ h with store }, report)
    | (true, store) =>
      match limit with
      -- The clients get what there is so far, the callbacks hear of it in their next pass.
      | 0 => ({ h with store }, { report with truncated := true })
      | limit + 1 =>
        let (called, synchronizer, store) := h.synchronizer.run store
        settle limit { h with store, synchronizer }
          { report with passes := report.passes + 1, called := report.called ++ called }

/-- Close the tick, let the callbacks follow up, and bring the clients up to date. -/
def commit (h : Hub) : Hub × CommitReport :=
  let (h, report) := h.settle h.maxPasses {}
  let (diffsSent, replicator, store) := h.replicator.publish h.store
  ({ h with store, replicator }, { report with diffsSent })

/-- Change the store, then commit. -/
def mutate {α : Type} (h : Hub) (f : Store → α × Store) : α × Hub × CommitReport :=
  let (result, store) := f h.store
  (result, { h with store }.commit)

/-- Register a callback.  With `force` it is called at once, which is then committed; the
    tokens of the callbacks called on the way. -/
def addSynchronizer (h : Hub) (selector : Selector) (callback : Callback) (force : Bool) :
    Except HubError (Token × List Token × Hub) :=
  match h.synchronizer.add h.store selector callback force with
  | none => .error .emptySelector
  | some (token, synchronizer, store) =>
    let h := { h with store, synchronizer }
    if force then
      let (h, report) := h.commit
      .ok (token, token :: report.called, h)
    else .ok (token, [], h)

/-- Forget a registration; whether it was known. -/
def removeSynchronizer (h : Hub) (token : Token) : Bool × Hub :=
  let (known, synchronizer) := h.synchronizer.remove token
  (known, { h with synchronizer })

/-- Attach a client. -/
def attach (h : Hub) (w : Whitelist) : ClientId × Hub :=
  let (id, replicator, store) := h.replicator.attach h.store w
  (id, { h with replicator, store })

/-- Detach a client. -/
def detach (h : Hub) (id : ClientId) : Except HubError Hub :=
  match h.replicator.detach? id with
  | none => .error (.unknownClient id)
  | some replicator => .ok { h with replicator }

/-- What is queued for a client. -/
def receive (h : Hub) (id : ClientId) : List Diff × Hub :=
  let (diffs, replicator) := h.replicator.receive id
  (diffs, { h with replicator })

/-- Stop listening for a client. -/
def stopListening (h : Hub) (id : ClientId) : Hub :=
  { h with replicator := h.replicator.stopListening id }

end Hub

end Observatory

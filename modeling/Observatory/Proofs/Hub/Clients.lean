import Observatory.Hub.Basic
import Observatory.Proofs.Hub.Publish
import Observatory.Proofs.Watch.Callback

/-!
# Every client sees every commit

A commit runs callbacks, which change the store further, until they are done or have had
their passes.  Only then are the clients brought up to date.  None of this depends on what the
callbacks do, as long as they change the store by requests.

* `Hub.later_settle`: the passes of a commit are requests to the store, and nothing else;
* `Session`: a hub and what its clients have received, with `Session.Event` and
  `Session.run`;
* `Session.Valid`: the invariant of all runs, with `Session.valid_step`;
* `Session.upToDate_of_commits`: right after a commit, the copy of every client is what its
  whitelist lets pass.
-/

namespace Observatory

open Replicator (Serves)

/-! ### Commits -/

namespace Hub

/-- The passes of a commit lead to a `Later` store and leave the clients alone, for every limit. -/
theorem later_settle (limit : Nat) {h : Hub} (hs : h.store.Valid) (hy : h.synchronizer.Writes)
    (report : CommitReport) : h.store.Later (h.settle limit report).1.store ∧
      (h.settle limit report).1.synchronizer.Writes ∧
      (h.settle limit report).1.replicator = h.replicator := by
  induction limit generalizing h report with
  | zero =>
    have hl := Store.later_endTick hs
    unfold settle
    split
    · next heq =>
      rw [heq] at hl
      exact ⟨hl, hy, rfl⟩
    · next heq =>
      rw [heq] at hl
      exact ⟨hl, hy, rfl⟩
  | succ limit ih =>
    -- A pass changes the store and the synchronizer, the induction is on what is left of the limit.
    have hl := Store.later_endTick hs
    unfold settle
    split
    · next heq =>
      rw [heq] at hl
      exact ⟨hl, hy, rfl⟩
    · next store heq =>
      rw [heq] at hl
      obtain ⟨hl', hw⟩ := Synchronizer.later_run hy hl.valid
      obtain ⟨hl'', hw', hr⟩ := ih (h := { h with
        store := (h.synchronizer.run store).2.2
        synchronizer := (h.synchronizer.run store).2.1 }) hl'.valid hw _
      exact ⟨(hl.trans hl').trans hl'', hw', hr⟩

end Hub

/-! ### Sessions -/

/-- A hub, the clients that attached and neither were detached nor stopped listening, each with
    its whitelist, and what every client has received so far. -/
structure Session where
  hub : Hub
  attached : List (ClientId × Whitelist) := []
  received : ClientId → List Diff := fun _ => []

namespace Session

/-- What happens to a hub. -/
inductive Event where
  /-- The store is changed without a commit. -/
  | write (ops : List Store.Op)
  /-- The store is changed, then committed. -/
  | mutate (ops : List Store.Op)
  | commit
  | register (selector : Selector) (act : Nat → Store → Bool × List Store.Op) (force : Bool)
  | unregister (token : Token)
  | attach (w : Whitelist)
  | detach (id : ClientId)
  /-- A client takes what is queued for it. -/
  | receive (id : ClientId)
  | stopListening (id : ClientId)

/-- Whether an event ends with a commit; a registration that is refused does not. -/
def Event.commits : Event → Bool
  | mutate _ | commit => true
  | register selector _ force => force && !selector.expand.isEmpty
  | _ => false

/-- The session after an event. -/
def Event.step (x : Session) : Event → Session
  | write ops => { x with hub := { x.hub with store := x.hub.store.runAll ops } }
  | mutate ops => { x with hub := (x.hub.mutate fun s => ((), s.runAll ops)).2.1 }
  | commit => { x with hub := x.hub.commit.1 }
  | register selector act force =>
    match x.hub.addSynchronizer selector (.ofRequests act) force with
    | .error _ => x
    | .ok (_, _, hub) => { x with hub }
  | unregister token => { x with hub := (x.hub.removeSynchronizer token).2 }
  | attach w =>
    let (id, hub) := x.hub.attach w
    { x with hub, attached := x.attached ++ [(id, w)] }
  | detach id =>
    match x.hub.detach id with
    | .error _ => x
    | .ok hub => { x with hub, attached := x.attached.filter fun p => p.1 ≠ id }
  | receive id =>
    let (diffs, hub) := x.hub.receive id
    { x with hub, received := fun i => if i = id then x.received i ++ diffs else x.received i }
  | stopListening id =>
    { x with
      hub := x.hub.stopListening id
      attached := x.attached.filter fun p => p.1 ≠ id }

/-- The session after some events. -/
def run (x : Session) (events : List Event) : Session := events.foldl Event.step x

/-- A hub without clients on a clock from which others may have drawn before. -/
def start (clock : Clock) (maxPasses : Nat) : Session where
  hub := { store := .start clock, maxPasses }

/-- Every client that may see something has a copy of just that, once it applies what is still
    queued for it, and nothing that it applied has failed. -/
def UpToDate (x : Session) : Prop :=
  ∀ p ∈ x.attached, p.2 ≠ .nothing →
    ({} : Replica).applyAll (x.received p.1 ++ x.hub.replicator.queue p.1) =
      (⟨some (p.2.filter x.hub.store.value)⟩, [])

/-- The invariant of a session: store and synchronizer are in order, and every attached client is
    served by the replicator. -/
structure Valid (x : Session) : Prop where
  store : x.hub.store.Valid
  writes : x.hub.synchronizer.Writes
  replicator : x.hub.replicator.Valid
  received : ∀ id, x.hub.replicator.lastId < id → x.received id = []
  serves : ∀ p ∈ x.attached, x.hub.replicator.Serves x.hub.store p.1 p.2 (x.received p.1)

variable {x : Session}

/-- `Valid` holds at the start. -/
theorem valid_start (clock : Clock) (maxPasses : Nat) : (start clock maxPasses).Valid where
  store := Store.valid_start clock
  writes := fun p hp => by cases hp
  replicator := {
    nodup := List.nodup_nil
    clients := fun id hid => by cases hid
    queues := fun q hq => by cases hq }
  received := fun _ _ => rfl
  serves := fun p hp => by cases hp

/-- `Valid` is kept if the store moves on to a `Later` one. -/
theorem Valid.moved (hx : x.Valid) {store : Store} {synchronizer : Synchronizer}
    (hl : x.hub.store.Later store) (hy : synchronizer.Writes) :
    Valid { x with hub := { x.hub with store, synchronizer } } where
  store := hl.valid
  writes := hy
  replicator := hx.replicator
  received := hx.received
  serves := fun p hp => (hx.serves p hp).later hl

/-- A commit keeps `Valid`, and after it every client is `UpToDate`. -/
theorem valid_commit (hx : x.Valid) : Valid { x with hub := x.hub.commit.1 } ∧
    UpToDate { x with hub := x.hub.commit.1 } := by
  obtain ⟨hl, hy, hr⟩ := Hub.later_settle x.hub.maxPasses hx.store hx.writes {}
  -- The passes do not touch the replicator, so it finds its clients as they were.
  have hround : ∀ p ∈ x.attached, _ := fun p hp =>
    Replicator.serves_publish hx.replicator hl.valid ((hx.serves p hp).later hl)
  have hclosed := Store.later_closeTick hl.valid
  unfold Hub.commit
  dsimp only
  rw [hr]
  exact ⟨⟨hclosed.valid, hy, Replicator.valid_publish hx.replicator _, hx.received,
    fun p hp => (hround p hp).1⟩, fun p hp hw => (hround p hp).2 hw⟩

/-- A client that attaches keeps `Valid`. -/
theorem valid_attach (hx : x.Valid) (w : Whitelist) : (Event.step x (.attach w)).Valid where
  store := (Store.later_closeTick hx.store).valid
  writes := hx.writes
  replicator := Replicator.valid_attach hx.replicator x.hub.store w
  received := fun id hid => hx.received id (Nat.lt_of_succ_lt hid)
  serves := fun p hp => by
    rcases List.mem_append.1 hp with hp | hp
    · exact Replicator.serves_attach (hx.serves p hp) hx.store w
    · rw [List.mem_singleton.1 hp]
      -- Nothing was received under the new number.
      have hnone : x.received (x.hub.replicator.lastId + 1) = [] :=
        hx.received _ (Nat.lt_succ_self _)
      show Serves _ _ _ _ (x.received (x.hub.replicator.lastId + 1))
      rw [hnone]
      exact Replicator.serves_attach_new hx.replicator hx.store w

/-- A client that is detached keeps `Valid`, also if it was not attached. -/
theorem valid_detach (hx : x.Valid) (id : ClientId) : (Event.step x (.detach id)).Valid := by
  rw [Event.step, Hub.detach]
  cases hd : x.hub.replicator.detach? id with
  | none => exact hx
  | some replicator =>
    -- Detaching gives no number back.
    have hlast : replicator.lastId = x.hub.replicator.lastId := by
      unfold Replicator.detach? at hd
      split at hd
      · cases hd
        rfl
      · cases hd
    refine ⟨hx.store, hx.writes, Replicator.valid_detach hx.replicator hd, ?_, ?_⟩
    · intro i hi
      rw [hlast] at hi
      exact hx.received i hi
    · intro p hp
      obtain ⟨hp, hne⟩ := List.mem_filter.1 hp
      exact Replicator.serves_detach (hx.serves p hp) hd (of_decide_eq_true hne)

/-- A client that takes what is queued for it keeps `Valid`. -/
theorem valid_receive (hx : x.Valid) (id : ClientId) : (Event.step x (.receive id)).Valid where
  store := hx.store
  writes := hx.writes
  replicator := Replicator.valid_receive hx.replicator id
  received := fun i hi => by
    have hnone : x.hub.replicator.queue i = [] := hx.replicator.queue_eq_nil hi
    have hold : x.received i = [] := hx.received i hi
    show (if i = id then x.received i ++ x.hub.replicator.queue id else x.received i) = []
    split
    · next h =>
      rw [hold, ← h, hnone]
      rfl
    · exact hold
  serves := fun p hp => Replicator.serves_receive (hx.serves p hp) id

/-- A client that stops listening, which nobody is told, keeps `Valid`. -/
theorem valid_stopListening (hx : x.Valid) (id : ClientId) :
    (Event.step x (.stopListening id)).Valid where
  store := hx.store
  writes := hx.writes
  replicator := Replicator.valid_stopListening hx.replicator id
  received := hx.received
  serves := fun p hp => by
    obtain ⟨hp, hne⟩ := List.mem_filter.1 hp
    exact Replicator.serves_stopListening (hx.serves p hp) (of_decide_eq_true hne)

/-- A registration keeps `Valid`.  If it is forced and not refused, then it ends with a commit, and
    every client is `UpToDate`. -/
theorem valid_register (hx : x.Valid) (selector : Selector)
    (act : Nat → Store → Bool × List Store.Op) (force : Bool) :
    (Event.step x (.register selector act force)).Valid ∧
      ((Event.register selector act force).commits = true →
        UpToDate (Event.step x (.register selector act force))) := by
  rw [Event.step, Hub.addSynchronizer, Event.commits]
  cases ha : x.hub.synchronizer.add x.hub.store selector (.ofRequests act) force with
  | none =>
    -- Only a selector that matches nothing is refused.
    refine ⟨hx, ?_⟩
    intro hc
    unfold Synchronizer.add at ha
    dsimp only at ha
    rw [Bool.and_eq_true, Bool.not_eq_true'] at hc
    rw [if_neg (by rw [hc.2]; decide)] at ha
    cases ha
  | some result =>
    obtain ⟨token, synchronizer, store⟩ := result
    obtain ⟨hl, hy⟩ :=
      Synchronizer.later_add hx.writes hx.store (Callback.writes_ofRequests act) ha
    have hmoved := hx.moved hl hy
    cases force with
    | true => exact ⟨(valid_commit hmoved).1, fun _ => (valid_commit hmoved).2⟩
    | false => exact ⟨hmoved, fun hc => by cases hc⟩

/-- Every event keeps `Valid`, and after one that ends with a commit every client is `UpToDate`. -/
theorem valid_step (hx : x.Valid) (e : Event) :
    (e.step x).Valid ∧ (e.commits = true → (e.step x).UpToDate) := by
  -- Only `mutate`, `commit` and a forced registration end with a commit.
  cases e with
  | write ops =>
    exact ⟨hx.moved (Store.later_runAll hx.store ops) hx.writes, fun h => by cases h⟩
  | mutate ops =>
    have hmoved := hx.moved (Store.later_runAll hx.store ops) hx.writes
    exact ⟨(valid_commit hmoved).1, fun _ => (valid_commit hmoved).2⟩
  | commit => exact ⟨(valid_commit hx).1, fun _ => (valid_commit hx).2⟩
  | register selector act force => exact valid_register hx selector act force
  | unregister token =>
    exact ⟨hx.moved (.refl hx.store) (Synchronizer.writes_remove hx.writes token),
      fun h => by cases h⟩
  | attach w => exact ⟨valid_attach hx w, fun h => by cases h⟩
  | detach id => exact ⟨valid_detach hx id, fun h => by cases h⟩
  | receive id => exact ⟨valid_receive hx id, fun h => by cases h⟩
  | stopListening id => exact ⟨valid_stopListening hx id, fun h => by cases h⟩

/-- Every run keeps `Valid`. -/
theorem valid_run (hx : x.Valid) (events : List Event) : (x.run events).Valid := by
  induction events generalizing x with
  | nil => exact hx
  | cons e rest ih => exact ih (valid_step hx e).1

/-- **Every client sees every commit.**  Whatever happened to a hub before, right after a commit,
    complete or cut short, every client that is attached and listens was sent differences that
    apply, and that make up what its whitelist lets pass of the whole tree. -/
theorem upToDate_of_commits (clock : Clock) (maxPasses : Nat) (events : List Event) (e : Event)
    (he : e.commits = true) : ((start clock maxPasses).run (events ++ [e])).UpToDate := by
  rw [run, List.foldl_append]
  exact (valid_step (valid_run (valid_start clock maxPasses) events) e).2 he

/-- `upToDate_of_commits` for a client that attaches between two writes, and a commit that may not
    make a single pass. -/
theorem upToDate_of_attach : Event.commit.commits = true ∧ ((start {} 0).run
    [.write [.set ["a"] (.ofScalar (.int 1))], .attach .all, .write [.remove ["a"]],
      .commit]).UpToDate :=
  ⟨rfl, upToDate_of_commits {} 0
    [.write [.set ["a"] (.ofScalar (.int 1))], .attach .all, .write [.remove ["a"]]] .commit rfl⟩

end Session

end Observatory

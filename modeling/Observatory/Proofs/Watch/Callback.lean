import Observatory.Proofs.Store.Run
import Observatory.Watch.Synchronizer

/-!
# Callbacks that make requests

Callbacks change the store, and what they do may depend on the store and on their earlier
calls.  As long as they do it by requests, the store comes to what any requests could have made
of it.

* `Callback.ofRequests`: a callback that makes requests, perhaps others at every call;
* `Callback.Writes`, `Synchronizer.Writes`: what a callback does, it does by requests;
* `Synchronizer.later_run`, `Synchronizer.later_add`: what a pass and a registration make of the
  store.
-/

namespace Observatory

namespace Callback

/-- Whatever the callback does to a store, it does by requests. -/
def Writes (c : Callback) : Prop := ∀ n s, ∃ ops, (c.act n s).2 = s.runAll ops

/-- A callback that makes requests.  They may depend on the store and on the number of earlier
    calls, and they are made whether or not the callback fails. -/
def ofRequests (act : Nat → Store → Bool × List Store.Op) : Callback where
  act n s := ((act n s).1, s.runAll (act n s).2)

/-- `ofRequests` gives a callback that `Writes`. -/
theorem writes_ofRequests (act : Nat → Store → Bool × List Store.Op) :
    (ofRequests act).Writes := fun n s => ⟨(act n s).2, rfl⟩

theorem writes_invoke {c : Callback} (hc : c.Writes) (s : Store) : (c.invoke s).1.Writes := hc

/-- A call changes the store by requests. -/
theorem later_invoke {c : Callback} (hc : c.Writes) {s : Store} (hs : s.Valid) :
    s.Later (c.invoke s).2 := by
  obtain ⟨ops, hops⟩ := hc c.calls s
  rw [invoke, hops]
  exact Store.later_runAll hs ops

end Callback

namespace Synchronizer

variable {y : Synchronizer} {s : Store}

/-- All callbacks change the store by requests. -/
def Writes (y : Synchronizer) : Prop := ∀ p ∈ y.callbacks, p.2.Writes

/-- The callback of a token `Writes` if all of them do. -/
theorem Writes.callback (hy : y.Writes) {token : Token} {c : Callback}
    (h : y.callback? token = some c) : c.Writes := by
  obtain ⟨p, hp, rfl⟩ := Option.map_eq_some_iff.1 h
  exact hy p (List.mem_of_find?_eq_some hp)

/-- Calling one callback of a synchronizer that only `Writes` leads to a `Later` store, and the
    synchronizer only `Writes` afterwards. -/
theorem later_invoke (hy : y.Writes) (hs : s.Valid) (token : Token) :
    s.Later (y.invoke token s).2 ∧ (y.invoke token s).1.Writes := by
  unfold invoke
  cases hc : y.callback? token with
  | none => exact ⟨.refl hs, hy⟩
  | some c =>
    have hw := hy.callback hc
    constructor
    · exact Callback.later_invoke hw hs
    · intro p hp
      obtain ⟨q, hq, rfl⟩ := List.mem_map.1 hp
      split
      · exact Callback.writes_invoke hw s
      · exact hy q hq

/-- Calling any number of callbacks that all write by requests leads to a `Later` store, and leaves
    callbacks that do. -/
theorem later_call (hy : y.Writes) (hs : s.Valid) (tokens : List Token) :
    s.Later (y.call tokens s).2 ∧ (y.call tokens s).1.Writes := by
  unfold call
  induction tokens generalizing y s with
  | nil => exact ⟨.refl hs, hy⟩
  | cons token rest ih =>
    -- Each callback finds the store as the ones before it left it.
    obtain ⟨hl, hw⟩ := later_invoke hy hs token
    obtain ⟨hl', hw'⟩ := ih hw hl.valid
    exact ⟨hl.trans hl', hw'⟩

/-- A pass of a synchronizer that `Writes` leads to a `Later` store. -/
theorem later_run (hy : y.Writes) (hs : s.Valid) :
    s.Later (y.run s).2.2 ∧ (y.run s).2.1.Writes := by
  -- Collecting closes the tick and leaves the callbacks alone.
  have hc : (y.collect s).2.1.Writes := hy
  have hl := Store.later_closeTick hs
  obtain ⟨hl', hw⟩ := later_call hc hl.valid (y.collect s).1
  exact ⟨hl.trans hl', hw⟩

/-- A registration leads to a `Later` store, whether or not it calls the new callback. -/
theorem later_add (hy : y.Writes) (hs : s.Valid) {selector : Selector} {c : Callback}
    (hc : c.Writes) {force : Bool} {token : Token} {y' : Synchronizer} {s' : Store}
    (h : y.add s selector c force = some (token, y', s')) : s.Later s' ∧ y'.Writes := by
  have hl := Store.later_closeTick hs
  have happend : ∀ c' : Callback, c'.Writes → ∀ p ∈ y.callbacks ++ [(y.nextToken, c')],
      p.2.Writes := fun c' hc' =>
    List.forall_mem_append.2 ⟨hy, List.forall_mem_singleton.2 hc'⟩
  unfold add at h
  dsimp only at h
  split at h
  · cases h
  · cases force with
    | true =>
      cases h
      exact ⟨hl.trans (Callback.later_invoke hc hl.valid),
        happend _ (Callback.writes_invoke hc _)⟩
    | false =>
      cases h
      exact ⟨hl, happend c hc⟩

/-- A removal keeps `Writes`. -/
theorem writes_remove (hy : y.Writes) (token : Token) : (y.remove token).2.Writes := by
  unfold remove
  cases y.callback? token with
  | none => exact hy
  | some c => exact fun p hp => hy p (List.mem_filter.1 hp).1

end Synchronizer

end Observatory

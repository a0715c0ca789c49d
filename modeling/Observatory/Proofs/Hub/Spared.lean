import Observatory.Hub.Basic
import Observatory.Proofs.DeviceTree.Lasting

/-!
# What a commit leaves alone

Callbacks change the store, and nobody can tell how.  But where no callback breaks some
properties of the store, nothing that happens to the hub in between breaks them either.

* `Callback.Spares`, `Synchronizer.Spares`: callbacks that break none of some properties;
* `Hub.Spared`: a hub whose callbacks go on to do so, with a store of which no less is true;
* `Hub.spared_commit`, `Hub.spared_mutate`, …: what the operations of a hub spare.
-/

namespace Observatory

variable {ι : Type} {I : ι → Store → Prop}

/-- The callback breaks none of the properties `I i`, whatever it does to a store. -/
def Callback.Spares (c : Callback) (I : ι → Store → Prop) : Prop :=
  ∀ i n {s}, I i s → I i (c.act n s).2

namespace Synchronizer

variable {y : Synchronizer} {s : Store}

/-- No callback of the synchronizer breaks any of the properties `I i`. -/
def Spares (y : Synchronizer) (I : ι → Store → Prop) : Prop := ∀ p ∈ y.callbacks, p.2.Spares I

theorem Spares.callback (hy : y.Spares I) {token : Token} {c : Callback}
    (h : y.callback? token = some c) : c.Spares I := by
  obtain ⟨p, hp, rfl⟩ := Option.map_eq_some_iff.1 h
  exact hy p (List.mem_of_find?_eq_some hp)

/-- Calling one callback of a synchronizer that `Spares` the properties keeps each of them, and the
    synchronizer goes on sparing them. -/
theorem Spares.invoke (hy : y.Spares I) (token : Token) (s : Store) :
    (y.invoke token s).1.Spares I ∧ ∀ i, I i s → I i (y.invoke token s).2 := by
  unfold Synchronizer.invoke
  cases hc : y.callback? token with
  | none => exact ⟨hy, fun i hs => hs⟩
  | some c =>
    have hspares := hy.callback hc
    refine ⟨fun p hp => ?_, fun i hs => hspares i _ hs⟩
    obtain ⟨q, hq, rfl⟩ := List.mem_map.1 hp
    split
    · exact hspares
    · exact hy q hq

/-- Calling several callbacks keeps the properties. -/
theorem Spares.call (hy : y.Spares I) (tokens : List Token) (s : Store) :
    (y.call tokens s).1.Spares I ∧ ∀ i, I i s → I i (y.call tokens s).2 := by
  unfold Synchronizer.call
  induction tokens generalizing y s with
  | nil => exact ⟨hy, fun i hs => hs⟩
  | cons token rest ih =>
    obtain ⟨hy', hs'⟩ := hy.invoke token s
    obtain ⟨hy'', hs''⟩ := ih hy' (y.invoke token s).2
    exact ⟨hy'', fun i hs => hs'' i (hs' i hs)⟩

/-- A pass keeps the properties, if closing a tick does. -/
theorem Spares.run (hI : ∀ i, Store.Lasting (I i)) (hy : y.Spares I) (s : Store) :
    (y.run s).2.1.Spares I ∧ ∀ i, I i s → I i (y.run s).2.2 := by
  -- Collecting closes the tick and leaves the callbacks alone.
  have hcollect : (y.collect s).2.1.Spares I := hy
  obtain ⟨hy', hs'⟩ := hcollect.call (y.collect s).1 s.closeTick
  exact ⟨hy', fun i hs => hs' i ((hI i).closeTick hs)⟩

/-- A registration of a callback that `Spares` them keeps the properties, whether or not it is
    called. -/
theorem Spares.add (hI : ∀ i, Store.Lasting (I i)) (hy : y.Spares I) {selector : Selector}
    {c : Callback} (hc : c.Spares I) {force : Bool} {token : Token} {y' : Synchronizer}
    {s' : Store} (h : y.add s selector c force = some (token, y', s')) :
    y'.Spares I ∧ ∀ i, I i s → I i s' := by
  have happend : ∀ c' : Callback, c'.Spares I → ∀ p ∈ y.callbacks ++ [(y.nextToken, c')],
      p.2.Spares I := fun c' hc' =>
    List.forall_mem_append.2 ⟨hy, List.forall_mem_singleton.2 hc'⟩
  unfold Synchronizer.add at h
  dsimp only at h
  split at h
  · cases h
  · cases force with
    | true =>
      cases h
      exact ⟨happend _ hc, fun i hs => hc i _ ((hI i).closeTick hs)⟩
    | false =>
      cases h
      exact ⟨happend c hc, fun i hs => (hI i).closeTick hs⟩

/-- A removal keeps `Spares`. -/
theorem Spares.remove (hy : y.Spares I) (token : Token) : (y.remove token).2.Spares I := by
  unfold Synchronizer.remove
  cases y.callback? token with
  | none => exact hy
  | some c => exact fun p hp => hy p (List.mem_filter.1 hp).1

end Synchronizer

namespace Hub

/-- What `h` came to: every property that held of its store still does, and the callbacks go on to
    keep them. -/
structure Spared (I : ι → Store → Prop) (h h' : Hub) : Prop where
  callbacks : h'.synchronizer.Spares I
  store : ∀ i, I i h.store → I i h'.store

section Spared

variable {h h' h'' : Hub}

theorem Spared.refl (hy : h.synchronizer.Spares I) : h.Spared I h := ⟨hy, fun _ hs => hs⟩

theorem Spared.trans (hh' : h.Spared I h') (hh'' : h'.Spared I h'') : h.Spared I h'' :=
  ⟨hh''.callbacks, fun i hs => hh''.store i (hh'.store i hs)⟩

theorem spares_endTick (hI : ∀ i, Store.Lasting (I i)) {s store : Store} {dirty : Bool}
    (h : s.endTick = (dirty, store)) (i : ι) (hs : I i s) : I i store := by
  have hend := (hI i).endTick hs
  rwa [h] at hend

/-- The passes of a commit keep the properties, for every limit. -/
theorem spared_settle (hI : ∀ i, Store.Lasting (I i)) (limit : Nat)
    (hy : h.synchronizer.Spares I) (report : CommitReport) :
    h.Spared I (h.settle limit report).1 := by
  induction limit generalizing h report with
  | zero =>
    unfold settle
    split
    · next heq => exact ⟨hy, spares_endTick hI heq⟩
    · next heq => exact ⟨hy, spares_endTick hI heq⟩
  | succ limit ih =>
    unfold settle
    split
    · next heq => exact ⟨hy, spares_endTick hI heq⟩
    · next store heq =>
      obtain ⟨hy', hs'⟩ := hy.run hI store
      -- One pass ends the tick and calls the callbacks, and each of these keeps the properties.
      have hpass : h.Spared I { h with
          store := (h.synchronizer.run store).2.2
          synchronizer := (h.synchronizer.run store).2.1 } :=
        ⟨hy', fun i hs => hs' i (spares_endTick hI heq i hs)⟩
      exact hpass.trans (ih hy' _)

/-- A commit keeps the properties. -/
theorem spared_commit (hI : ∀ i, Store.Lasting (I i)) (hy : h.synchronizer.Spares I) :
    h.Spared I h.commit.1 := by
  obtain ⟨hy', hs'⟩ := spared_settle hI h.maxPasses hy {}
  exact ⟨hy', fun i hs => (hI i).closeTick (hs' i hs)⟩

/-- A change of the store that keeps the properties does so together with the commit that follows
    it. -/
theorem spared_mutate (hI : ∀ i, Store.Lasting (I i)) (hy : h.synchronizer.Spares I) {α : Type}
    {f : Store → α × Store} (hf : ∀ i {s}, I i s → I i (f s).2) :
    h.Spared I (h.mutate f).2.1 :=
  (Spared.mk hy fun i hs => hf i hs : h.Spared I { h with store := (f h.store).2 }).trans
    (spared_commit hI hy)

/-- A registration keeps the properties, with the commit of a forced one. -/
theorem spared_addSynchronizer (hI : ∀ i, Store.Lasting (I i)) (hy : h.synchronizer.Spares I)
    {selector : Selector} {c : Callback} (hc : c.Spares I) {force : Bool} {token : Token}
    {called : List Token} (hadd : h.addSynchronizer selector c force = .ok (token, called, h')) :
    h.Spared I h' := by
  unfold addSynchronizer at hadd
  cases hy' : h.synchronizer.add h.store selector c force with
  | none =>
    rw [hy'] at hadd
    cases hadd
  | some r =>
    obtain ⟨token', synchronizer, store⟩ := r
    rw [hy'] at hadd
    obtain ⟨hspares, hstore⟩ := hy.add hI hc hy'
    -- The registration itself, before the commit that follows a forced one.
    have hfirst : h.Spared I { h with store, synchronizer } := ⟨hspares, hstore⟩
    cases force with
    | true =>
      cases hadd
      exact hfirst.trans (spared_commit hI hspares)
    | false =>
      cases hadd
      exact hfirst

/-- A client that attaches keeps the properties. -/
theorem spared_attach (hI : ∀ i, Store.Lasting (I i)) (hy : h.synchronizer.Spares I)
    (w : Whitelist) : h.Spared I (h.attach w).2 :=
  ⟨hy, fun i hs => (hI i).closeTick hs⟩

/-- A client that is detached keeps the properties. -/
theorem spared_detach (hy : h.synchronizer.Spares I) {id : ClientId}
    (hdetach : h.detach id = .ok h') : h.Spared I h' := by
  unfold detach at hdetach
  split at hdetach
  · cases hdetach
  · cases hdetach
    exact ⟨hy, fun _ hs => hs⟩

end Spared

end Hub

end Observatory

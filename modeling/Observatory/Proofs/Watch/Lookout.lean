import Observatory.Proofs.Watch.Callback
import Observatory.Proofs.Watch.Registration
import Observatory.Proofs.Watch.Visit

/-!
# When a change is noticed

A registration is told of changes since it was made, or since the last collection.  It watches
the places of its paths; a place has changed if another stamp is to be seen there, or none any
more, or one at last.  A collection finds the registrations with a changed place, except that
it passes over every node that it has recorded with the stamp that is there now.  This goes
wrong in three ways.  A node that was there at the registration and is gone at the first
collection is taken for one that never was.  A node that moves up in an array, to where another
one with the same stamp was, is taken for that one.  And an instance that outlived the object
whose key it was for gives a new listener of an array a sighting of another place.

* `Lookout`: a store, a synchronizer, and the live registrations with what they were told of;
* `Lookout.Valid`: the invariant of all runs, with `Lookout.valid_step`;
* `Lookout.Attentive`: a run in which registrations meet no stray instances, and collections
  pass over no change;
* `Lookout.collects_iff`: which registrations a collection finds, in terms of what is recorded; in
  terms of the run alone, see `Lookout.collects_of_changed`;
* `Lookout.vanished_unnoticed`: a change that is not found.
-/

namespace Observatory

/-! ### Tokens in ascending order -/

namespace Synchronizer

theorem mem_insertToken {token t : Token} {tokens : List Token} :
    t ∈ insertToken token tokens ↔ t = token ∨ t ∈ tokens := by
  induction tokens with
  | nil => rw [insertToken, List.mem_cons]
  | cons u rest ih =>
    unfold insertToken
    split
    · rw [List.mem_cons]
    · split
      · next he =>
        -- The token is there already.
        rw [List.mem_cons, he]
        constructor
        · exact Or.inr
        · rintro (h | h)
          · exact .inl h
          · exact h
      · rw [List.mem_cons, ih, List.mem_cons]
        exact or_left_comm

theorem mem_ascending {t : Token} {tokens : List Token} : t ∈ ascending tokens ↔ t ∈ tokens := by
  unfold ascending
  induction tokens with
  | nil => exact Iff.rfl
  | cons u rest ih => rw [List.foldr_cons, mem_insertToken, ih, List.mem_cons]

end Synchronizer

/-! ### Paths of a registration -/

namespace Trigger

/-- The trie after one token is registered at several paths. -/
def insertAll (token : Token) (paths : List (List Step)) (data : Option Node) (t : Trigger) :
    Trigger := paths.foldl (fun t steps => t.insert token steps data) t

theorem proper_insertAll (token : Token) (paths : List (List Step)) (data : Option Node)
    {t : Trigger} (h : Proper t) : Proper (insertAll token paths data t) := by
  induction paths generalizing t with
  | nil => exact h
  | cons steps rest ih => exact ih (proper_insert token steps data h)

/-- After several registrations a listener was there before, or is a new one, which has seen what
    is there now unless there are stray instances. -/
theorem mem_listeners_insertAll {token : Token} {paths : List (List Step)} {data : Option Node}
    {t : Trigger} {p : Place} {l : Listener}
    (h : l ∈ ((insertAll token paths data t).place p).listeners) :
    l ∈ (t.place p).listeners ∨
      l.token = token ∧ (NoStrays t data → l.seen = Sighting.of (look data p)) := by
  induction paths generalizing t with
  | nil => exact .inl h
  | cons steps rest ih =>
    rcases ih h with h | ⟨ht, hs⟩
    · -- It came with the first path, or was there before.
      rw [listeners_place_insert, List.mem_append] at h
      rcases h with h | h
      · exact .inl h
      · split at h
        · rw [List.mem_singleton.1 h]
          exact .inr ⟨rfl, fun hn => by rw [hn.registeredAt_eq]⟩
        · cases h
    · exact .inr ⟨ht, fun hn => hs (hn.insert token steps)⟩

/-- After several registrations the new token is at the places of its paths, besides the tokens
    that were there. -/
theorem mem_tokensAt_insertAll {token : Token} {paths : List (List Step)} {data : Option Node}
    {t : Trigger} {p : Place} {u : Token} : u ∈ (insertAll token paths data t).tokensAt p ↔
      u ∈ t.tokensAt p ∨ u = token ∧ p.steps ∈ paths := by
  induction paths generalizing t with
  | nil => exact ⟨Or.inl, fun h => h.elim id fun h => absurd h.2 List.not_mem_nil⟩
  | cons steps rest ih =>
    rw [insertAll, List.foldl_cons, ← insertAll, ih, tokensAt_insert, List.mem_append,
      List.mem_cons, or_assoc]
    refine or_congr_right ?_
    -- The first path leads to the place, or only the others may.
    by_cases hs : p.steps = steps
    · rw [if_pos hs, List.mem_singleton]
      constructor
      · rintro (he | ⟨he, hp⟩)
        · exact ⟨he, .inl hs⟩
        · exact ⟨he, .inr hp⟩
      · rintro ⟨he, -⟩
        exact .inl he
    · rw [if_neg hs]
      constructor
      · rintro (hin | ⟨he, hp⟩)
        · cases hin
        · exact ⟨he, .inr hp⟩
      · rintro ⟨he, hp⟩
        exact .inr ⟨he, hp.resolve_left hs⟩

end Trigger

/-! ### Lookouts -/

/-- A live registration: its token, its paths, and the tree as it was when the registration was
    made or at the last collection. -/
structure Watch where
  token : Token
  paths : List (List Step)
  since : Node

/-- What was to be seen at a place when the registration was made, or at the last collection. -/
def Watch.before (w : Watch) (p : Place) : Sighting := Sighting.of (look (some w.since) p)

/-- A store, a synchronizer of it, and the live registrations.  These are kept beside the
    synchronizer, from the events alone, so that it can be said what it ought to notice. -/
structure Lookout where
  store : Store
  synchronizer : Synchronizer := {}
  watches : List Watch := []

namespace Lookout

/-- What happens to a lookout. -/
inductive Event where
  | write (ops : List Store.Op)
  | add (selector : Selector) (act : Nat → Store → Bool × List Store.Op) (force : Bool)
  | remove (token : Token)
  | collect

/-- The lookout after an event. -/
def Event.step (x : Lookout) : Event → Lookout
  | write ops => { x with store := x.store.runAll ops }
  | add selector act force =>
    match x.synchronizer.add x.store selector (.ofRequests act) force with
    | none => x
    | some (token, synchronizer, store) =>
      { store, synchronizer, watches := x.watches ++ [⟨token, selector.expand, x.store.root⟩] }
  | remove token =>
    { x with
      synchronizer := (x.synchronizer.remove token).2
      watches := x.watches.filter fun w => w.token ≠ token }
  | collect =>
    let (_, synchronizer, store) := x.synchronizer.collect x.store
    { store, synchronizer, watches := x.watches.map fun w => { w with since := x.store.root } }

/-- The lookout after some events. -/
def run (x : Lookout) (events : List Event) : Lookout := events.foldl Event.step x

/-- A lookout on an empty store, with a clock from which others may have drawn before. -/
def start (clock : Clock) : Lookout where
  store := .start clock

/-- What is to be seen at a place now. -/
def now (x : Lookout) (p : Place) : Sighting := Sighting.of (look (some x.store.root) p)

/-- The tokens that a collection would find now. -/
def collects (x : Lookout) : List Token := (x.synchronizer.collect x.store).1

/-- A listener of the token at the place has seen `s` last. -/
def Told (x : Lookout) (token : Token) (p : Place) (s : Sighting) : Prop :=
  ⟨token, s⟩ ∈ (x.synchronizer.root.place p).listeners

/-- A collection would pass over no node on the way to the place, its own included. -/
def Reaches (x : Lookout) (p : Place) : Prop :=
  x.synchronizer.root.Reached (some x.store.root) p

/-- At some place of the registration, something else is to be seen now than `before`. -/
def Changed (x : Lookout) (w : Watch) : Prop :=
  ∃ p : Place, p.steps ∈ w.paths ∧ w.before p ≠ x.now p

/-- At some place of the registration something else is to be seen now than `before`, and a
    collection `Reaches` it. -/
def Noticeable (x : Lookout) (w : Watch) : Prop :=
  ∃ p : Place, p.steps ∈ w.paths ∧ w.before p ≠ x.now p ∧ x.Reaches p

/-- A registration meets no stray instances, and a collection `Reaches` every change. -/
def Event.Attentive (x : Lookout) : Event → Prop
  | add _ _ _ => x.synchronizer.root.NoStrays (some x.store.root)
  | collect => ∀ w ∈ x.watches, ∀ p : Place, p.steps ∈ w.paths → w.before p ≠ x.now p →
    x.Reaches p
  | _ => True

/-- Every event of the run is `Attentive` when it happens. -/
def Attentive (x : Lookout) : List Event → Prop
  | [] => True
  | e :: rest => e.Attentive x ∧ Attentive (e.step x) rest

/-! ### What holds in every run -/

/-- The invariant of all runs: the live registrations are those of the synchronizer, with different
    tokens, and its listeners are at the places of their paths. -/
structure Valid (x : Lookout) : Prop where
  store : x.store.Valid
  proper : x.synchronizer.root.Proper
  tokens : x.watches.map Watch.token = x.synchronizer.callbacks.map Prod.fst
  bound : ∀ w ∈ x.watches, w.token < x.synchronizer.nextToken
  unique : ∀ w ∈ x.watches, ∀ v ∈ x.watches, w.token = v.token → w = v
  listeners : ∀ p token, token ∈ x.synchronizer.root.tokensAt p ↔
    ∃ w ∈ x.watches, w.token = token ∧ p.steps ∈ w.paths
  writes : x.synchronizer.Writes

/-- Every live registration was last told what was to be seen when it was made or at the last
    collection. -/
def Current (x : Lookout) : Prop :=
  ∀ w ∈ x.watches, ∀ (p : Place) (s : Sighting), x.Told w.token p s → s = w.before p

variable {x : Lookout}

theorem Told.mem_tokensAt {token : Token} {p : Place} {s : Sighting} (h : x.Told token p s) :
    token ∈ x.synchronizer.root.tokensAt p := List.mem_map_of_mem h

/-- `Valid` holds at the start. -/
theorem valid_start (clock : Clock) : (start clock).Valid where
  store := Store.valid_start clock
  proper := Trigger.proper_empty
  tokens := rfl
  bound := nofun
  unique := nofun
  listeners := by
    intro p token
    show token ∈ (Trigger.empty.place p).listeners.map _ ↔ _
    -- There are no listeners, and nobody watches.
    rw [Trigger.place_empty]
    constructor
    · intro h
      cases h
    · rintro ⟨w, hw, -⟩
      cases hw
  writes := nofun

/-- `Current` holds at the start, where there are no registrations. -/
theorem current_start (clock : Clock) : (start clock).Current := nofun

/-- The token of a live registration is collected exactly if it was told something else at some
    place of its paths than is there now, and the collection `Reaches` the place. -/
theorem mem_collects_iff (hx : x.Valid) {w : Watch} (hw : w ∈ x.watches) :
    w.token ∈ x.collects ↔ ∃ p s, p.steps ∈ w.paths ∧ x.Told w.token p s ∧ s ≠ x.now p ∧
      x.Reaches p := by
  rw [collects, Synchronizer.collect]
  refine Synchronizer.mem_ascending.trans
    ((Trigger.mem_heard_iff hx.proper (some x.store.root) w.token).trans ?_)
  constructor
  · rintro ⟨p, ⟨token, s⟩, hl, rfl, hs, hr⟩
    -- The listener stands where the registration of its token has a place.
    obtain ⟨v, hv, he, hp⟩ := (hx.listeners p _).1 (Told.mem_tokensAt hl)
    cases hx.unique v hv w hw he
    exact ⟨p, s, hp, hl, hs, hr⟩
  · rintro ⟨p, s, -, hl, hs, hr⟩
    exact ⟨p, _, hl, rfl, hs, hr⟩

/-- A live registration was told something at every place of its paths. -/
theorem exists_told (hx : x.Valid) {w : Watch} (hw : w ∈ x.watches) {p : Place}
    (hp : p.steps ∈ w.paths) : ∃ s, x.Told w.token p s := by
  obtain ⟨⟨token, s⟩, hl, he⟩ := List.mem_map.1 ((hx.listeners p w.token).2 ⟨w, hw, rfl, hp⟩)
  cases he
  exact ⟨s, hl⟩

/-! ### Events keep it -/

/-- Requests to the store keep `Valid`. -/
theorem valid_write (hx : x.Valid) (ops : List Store.Op) : (Event.step x (.write ops)).Valid :=
  { hx with store := (Store.later_runAll hx.store ops).valid }

/-- A removal keeps `Valid`, also that of an unknown token. -/
theorem valid_remove (hx : x.Valid) (token : Token) : (Event.step x (.remove token)).Valid := by
  have hcallback : x.synchronizer.callback? token = none ↔
      ∀ w ∈ x.watches, w.token ≠ token := by
    rw [Synchronizer.callback?, Option.map_eq_none_iff, List.find?_eq_none]
    constructor
    · intro h w hw he
      have hmem : w.token ∈ x.synchronizer.callbacks.map Prod.fst :=
        hx.tokens ▸ List.mem_map_of_mem hw
      obtain ⟨c, hc, hct⟩ := List.mem_map.1 hmem
      exact h c hc (decide_eq_true (hct.trans he))
    · intro h c hc he
      have hmem : c.1 ∈ x.watches.map Watch.token := hx.tokens ▸ List.mem_map_of_mem hc
      obtain ⟨w, hw, hwt⟩ := List.mem_map.1 hmem
      exact h w hw (hwt.trans (of_decide_eq_true he))
  rw [Event.step, Synchronizer.remove]
  cases hc : x.synchronizer.callback? token with
  | none =>
    -- An unknown token belongs to no live registration.
    have hall : x.watches.filter (fun w => w.token ≠ token) = x.watches :=
      List.filter_eq_self.2 fun w hw => decide_eq_true (hcallback.1 hc w hw)
    rw [hall]
    exact hx
  | some c =>
    -- The removal of a known token takes its listeners out of the trie and its callback out of the
    -- list.
    refine ⟨hx.store, Trigger.proper_remove token hx.proper, ?_, ?_, ?_, ?_, ?_⟩
    · show (x.watches.filter fun w => w.token ≠ token).map Watch.token =
        (x.synchronizer.callbacks.filter fun q => q.1 ≠ token).map Prod.fst
      have hcomp : (fun w : Watch => decide (w.token ≠ token)) =
          (fun t => decide (t ≠ token)) ∘ Watch.token := rfl
      rw [hcomp, ← List.filter_map, hx.tokens, List.filter_map]
      rfl
    · intro w hw
      exact hx.bound w (List.mem_filter.1 hw).1
    · intro w hw v hv
      exact hx.unique w (List.mem_filter.1 hw).1 v (List.mem_filter.1 hv).1
    · intro p t
      show t ∈ (Trigger.remove token x.synchronizer.root).tokensAt p ↔ _
      rw [Trigger.tokensAt_remove token hx.proper, List.mem_filter, hx.listeners]
      constructor
      · rintro ⟨⟨w, hw, rfl, hp⟩, hne⟩
        exact ⟨w, List.mem_filter.2 ⟨hw, hne⟩, rfl, hp⟩
      · rintro ⟨w, hw, rfl, hp⟩
        obtain ⟨hw, hne⟩ := List.mem_filter.1 hw
        exact ⟨⟨w, hw, rfl, hp⟩, hne⟩
    · intro q hq
      exact hx.writes q (List.mem_filter.1 hq).1

/-- A collection keeps `Valid`. -/
theorem valid_collect (hx : x.Valid) : (Event.step x .collect).Valid where
  store := (Store.later_closeTick hx.store).valid
  proper := by
    refine Trigger.proper_visit hx.proper ?_
    intro n hn
    cases hn
    exact hx.store.root.2
  tokens := by
    rw [Event.step, List.map_map]
    exact hx.tokens
  bound := by
    intro w hw
    obtain ⟨v, hv, rfl⟩ := List.mem_map.1 hw
    exact hx.bound v hv
  unique := by
    intro w hw v hv he
    obtain ⟨w', hw', rfl⟩ := List.mem_map.1 hw
    obtain ⟨v', hv', rfl⟩ := List.mem_map.1 hv
    rw [hx.unique w' hw' v' hv' he]
  listeners := by
    intro p token
    show token ∈ (Trigger.visit x.synchronizer.root (some x.store.root)).1.tokensAt p ↔ _
    rw [(Trigger.visit_place hx.proper _ p).1, hx.listeners]
    -- Only what the registrations were told is new.
    constructor
    · rintro ⟨w, hw, rfl, hp⟩
      exact ⟨_, List.mem_map_of_mem hw, rfl, hp⟩
    · rintro ⟨v, hv, rfl, hp⟩
      obtain ⟨w, hw, rfl⟩ := List.mem_map.1 hv
      exact ⟨w, hw, rfl, hp⟩
  writes := hx.writes

/-- What an accepted registration makes of a synchronizer: its token is the next one, and it
    listens at all paths of the selector. -/
structure Added (y : Synchronizer) (root : Node) (selector : Selector) (token : Token)
    (y' : Synchronizer) : Prop where
  token : token = y.nextToken
  root : y'.root = Trigger.insertAll y.nextToken selector.expand (some root) y.root
  callbacks : y'.callbacks.map Prod.fst = y.callbacks.map Prod.fst ++ [y.nextToken]
  nextToken : y'.nextToken = y.nextToken + 1

/-- If `Synchronizer.add` accepts a registration, then it has `Added` it, whether or not its
    callback is called at once. -/
theorem added_of_add {y y' : Synchronizer} {s s' : Store} {selector : Selector} {c : Callback}
    {force : Bool} {token : Token} (h : y.add s selector c force = some (token, y', s')) :
    Added y s.root selector token y' := by
  unfold Synchronizer.add at h
  dsimp only at h
  split at h
  · cases h
  · cases force with
    | true =>
      cases h
      exact ⟨rfl, rfl, List.map_append, rfl⟩
    | false =>
      cases h
      exact ⟨rfl, rfl, List.map_append, rfl⟩

/-- A registration keeps `Valid`. -/
theorem valid_add (hx : x.Valid) (selector : Selector) (act : Nat → Store → Bool × List Store.Op)
    (force : Bool) : (Event.step x (.add selector act force)).Valid := by
  rw [Event.step]
  cases ha : x.synchronizer.add x.store selector (.ofRequests act) force with
  | none => exact hx
  | some result =>
    obtain ⟨token, y, s⟩ := result
    obtain ⟨rfl, hroot, hcallbacks, hnext⟩ := added_of_add ha
    obtain ⟨hl, hy⟩ :=
      Synchronizer.later_add hx.writes hx.store (Callback.writes_ofRequests act) ha
    have hmem : ∀ w, w ∈ x.watches ++
        [⟨x.synchronizer.nextToken, selector.expand, x.store.root⟩] → w ∈ x.watches ∨
          w = ⟨x.synchronizer.nextToken, selector.expand, x.store.root⟩ := by
      intro w hw
      exact (List.mem_append.1 hw).imp id List.mem_singleton.1
    refine ⟨hl.valid, ?_, ?_, ?_, ?_, ?_, hy⟩
    · show y.root.Proper
      rw [hroot]
      exact Trigger.proper_insertAll _ _ _ hx.proper
    · show (x.watches ++ [_]).map Watch.token = y.callbacks.map Prod.fst
      rw [List.map_append, hcallbacks, hx.tokens]
      rfl
    · intro w hw
      show w.token < y.nextToken
      rw [hnext]
      rcases hmem w hw with hw | rfl
      · exact Nat.lt_succ_of_lt (hx.bound w hw)
      · exact Nat.lt_succ_self _
    · -- The new token is larger than all others.
      intro w hw v hv he
      rcases hmem w hw with hw | rfl <;> rcases hmem v hv with hv | rfl
      · exact hx.unique w hw v hv he
      · exact absurd he (Nat.ne_of_lt (hx.bound w hw))
      · exact absurd he.symm (Nat.ne_of_lt (hx.bound v hv))
      · rfl
    · intro p t
      show t ∈ y.root.tokensAt p ↔ _
      rw [hroot, Trigger.mem_tokensAt_insertAll, hx.listeners]
      constructor
      · rintro (⟨w, hw, rfl, hp⟩ | ⟨rfl, hp⟩)
        · exact ⟨w, List.mem_append_left _ hw, rfl, hp⟩
        · exact ⟨_, List.mem_append_right _ (List.mem_singleton.2 rfl), rfl, hp⟩
      · rintro ⟨w, hw, rfl, hp⟩
        rcases hmem w hw with hw | rfl
        · exact .inl ⟨w, hw, rfl, hp⟩
        · exact .inr ⟨rfl, hp⟩

/-- Every event keeps `Valid`. -/
theorem valid_step (hx : x.Valid) (e : Event) : (e.step x).Valid := by
  cases e with
  | write ops => exact valid_write hx ops
  | add selector act force => exact valid_add hx selector act force
  | remove token => exact valid_remove hx token
  | collect => exact valid_collect hx

/-- Every run keeps `Valid`. -/
theorem valid_run (hx : x.Valid) (events : List Event) : (x.run events).Valid := by
  induction events generalizing x with
  | nil => exact hx
  | cons e rest ih => exact ih (valid_step hx e)

/-! ### Attentive runs -/

/-- A registration that meets no stray instances keeps `Current`. -/
theorem current_add (hx : x.Valid) (hc : x.Current) {selector : Selector}
    {act : Nat → Store → Bool × List Store.Op} {force : Bool}
    (ha : (Event.add selector act force).Attentive x) :
    (Event.step x (.add selector act force)).Current := by
  rw [Event.step]
  cases hadd : x.synchronizer.add x.store selector (.ofRequests act) force with
  | none => exact hc
  | some result =>
    obtain ⟨token, y, s'⟩ := result
    obtain ⟨rfl, hroot, -, -⟩ := added_of_add hadd
    intro w hw p s hs
    change _ ∈ (y.root.place p).listeners at hs
    rw [hroot] at hs
    rcases Trigger.mem_listeners_insertAll hs with hs | ⟨ht, hs⟩
    · rcases List.mem_append.1 hw with hw | hw
      · exact hc w hw p s hs
      · -- The new token had no listeners.
        obtain ⟨v, hv, he, -⟩ := (hx.listeners p w.token).1 (Told.mem_tokensAt hs)
        rw [List.mem_singleton.1 hw] at he
        exact absurd he (Nat.ne_of_lt (hx.bound v hv))
    · rcases List.mem_append.1 hw with hw | hw
      · exact absurd ht (Nat.ne_of_lt (hx.bound w hw))
      · rw [List.mem_singleton.1 hw]
        exact hs ha

/-- A removal keeps `Current`. -/
theorem current_remove (hx : x.Valid) (hc : x.Current) (token : Token) :
    (Event.step x (.remove token)).Current := by
  intro w hw p s hs
  refine hc w (List.mem_filter.1 hw).1 p s ?_
  change _ ∈ ((x.synchronizer.remove token).2.root.place p).listeners at hs
  unfold Synchronizer.remove at hs
  cases hcb : x.synchronizer.callback? token with
  | none =>
    rw [hcb] at hs
    exact hs
  | some c =>
    rw [hcb] at hs
    -- What is left of the listeners was there before.
    change _ ∈ ((Trigger.remove token x.synchronizer.root).place p).listeners at hs
    rw [Trigger.listeners_place_remove token hx.proper] at hs
    exact (List.mem_filter.1 hs).1

/-- A collection that reaches every change keeps `Current`. -/
theorem current_collect (hx : x.Valid) (hc : x.Current) (ha : Event.collect.Attentive x) :
    (Event.step x .collect).Current := by
  intro w hw p s hs
  obtain ⟨v, hv, rfl⟩ := List.mem_map.1 hw
  show s = x.now p
  obtain ⟨htokens, hseen⟩ := Trigger.visit_place hx.proper (some x.store.root) p
  rcases hseen _ hs with hnow | ⟨hold, hr⟩
  · exact hnow
  · -- It was not reached, so what it was told before is still so.
    have hbefore : s = v.before p := hc v hv p s hold
    obtain ⟨v', hv', he, hp⟩ := (hx.listeners p v.token).1 (Told.mem_tokensAt hold)
    cases hx.unique v' hv' v hv he
    rw [hbefore]
    exact Classical.byContradiction fun hne => hr (ha v hv p hp hne)

/-- An `Attentive` run keeps `Current`. -/
theorem current_run (hx : x.Valid) (hc : x.Current) {events : List Event}
    (ha : x.Attentive events) : (x.run events).Current := by
  induction events generalizing x with
  | nil => exact hc
  | cons e rest ih =>
    obtain ⟨he, hrest⟩ := ha
    refine ih (valid_step hx e) ?_ hrest
    cases e with
    | write ops => exact hc
    | add selector act force => exact current_add hx hc he
    | remove token => exact current_remove hx hc token
    | collect => exact current_collect hx hc he

/-- If `Current` holds, then a live registration is collected exactly if it is `Noticeable`. -/
theorem mem_collects_of_current (hx : x.Valid) (hc : x.Current) {w : Watch}
    (hw : w ∈ x.watches) : w.token ∈ x.collects ↔ x.Noticeable w := by
  rw [mem_collects_iff hx hw]
  constructor
  · rintro ⟨p, s, hp, ht, hne, hr⟩
    exact ⟨p, hp, hc w hw p s ht ▸ hne, hr⟩
  · rintro ⟨p, hp, hne, hr⟩
    obtain ⟨s, hs⟩ := exists_told hx hw hp
    exact ⟨p, s, hp, hs, hc w hw p s hs ▸ hne, hr⟩

def stepPart : Step → Selector.Part
  | .key key => .key key
  | .wildcard => .wildcard

theorem expand_steps (steps : List Step) : Selector.expand (steps.map stepPart) = [steps] := by
  have hparts : Selector.expandParts (steps.map stepPart) = [steps] := by
    induction steps with
    | nil => rw [List.map_nil, Selector.expandParts]
    | cons step rest ih =>
      cases step with
      | key key => rw [List.map_cons, stepPart, Selector.expandParts, ih, List.map_singleton]
      | wildcard => rw [List.map_cons, stepPart, Selector.expandParts, ih, List.map_singleton]
  rw [Selector.expand, hparts]
  rfl

theorem expand_key (key : String) : Selector.expand [.key key] = [[.key key]] :=
  expand_steps [.key key]

theorem step_add_single (x : Lookout) {selector : Selector} {steps : List Step}
    (h : selector.expand = [steps]) (act : Nat → Store → Bool × List Store.Op) :
    Event.step x (.add selector act false) =
      { store := x.store.closeTick
        synchronizer := {
          root := x.synchronizer.root.insert x.synchronizer.nextToken steps (some x.store.root)
          callbacks := x.synchronizer.callbacks ++
            [(x.synchronizer.nextToken, .ofRequests act)]
          nextToken := x.synchronizer.nextToken + 1 }
        watches := x.watches ++ [⟨x.synchronizer.nextToken, [steps], x.store.root⟩] } := by
  rw [Event.step, Synchronizer.add, h]
  rfl

theorem step_add_key (x : Lookout) (key : String) (act : Nat → Store → Bool × List Store.Op) :
    Event.step x (.add [.key key] act false) =
      { store := x.store.closeTick
        synchronizer := {
          root := x.synchronizer.root.insert x.synchronizer.nextToken [.key key]
            (some x.store.root)
          callbacks := x.synchronizer.callbacks ++
            [(x.synchronizer.nextToken, .ofRequests act)]
          nextToken := x.synchronizer.nextToken + 1 }
        watches := x.watches ++ [⟨x.synchronizer.nextToken, [[.key key]], x.store.root⟩] } :=
  step_add_single x (expand_key key) act

/-- **What a collection finds.**  In every run it finds exactly the live registrations that were
    last told something else than what is there now, at some place that it `Reaches`.  If the run
    was `Attentive`, then it finds a registration exactly if that has `Changed`, unless it reaches
    none of its changes. -/
theorem collects_iff (clock : Clock) (events : List Event) :
    ∀ w ∈ ((start clock).run events).watches,
      let x := (start clock).run events
      (w.token ∈ x.collects ↔ ∃ p s, p.steps ∈ w.paths ∧ x.Told w.token p s ∧ s ≠ x.now p ∧
        x.Reaches p) ∧
      ((start clock).Attentive events →
        ((w.token ∈ x.collects ↔ x.Changed w) ↔ (x.Changed w → x.Noticeable w))) := by
  intro w hw x
  have hx : x.Valid := valid_run (valid_start clock) events
  refine ⟨mem_collects_iff hx hw, ?_⟩
  intro ha
  -- In an attentive run what was told last is what was there at the last collection.
  have hc : x.Current := current_run (valid_start clock) (current_start clock) ha
  have hchanged : x.Noticeable w → x.Changed w := by
    rintro ⟨p, hp, hne, -⟩
    exact ⟨p, hp, hne⟩
  rw [mem_collects_of_current hx hc hw]
  constructor
  · intro h
    exact h.2
  · intro h
    exact ⟨hchanged, h⟩

/-- A run in which the key `a` is watched and then gets a value. -/
def appeared : List Event :=
  [.add [.key "a"] (fun _ _ => (true, [])) false,
    .write [.set ["a"] (.ofScalar (.int 1))]]

/-- `collects_iff` for the run `appeared`: it is `Attentive`, and the registration is collected as
    it has `Changed`. -/
theorem collects_appeared : (start {}).Attentive appeared ∧
    ∃ w ∈ ((start {}).run appeared).watches,
      (w.token ∈ ((start {}).run appeared).collects ↔ ((start {}).run appeared).Changed w) := by
  have ha : (start {}).Attentive appeared := ⟨Trigger.noStrays_empty _, trivial, trivial⟩
  refine ⟨ha, ?_⟩
  obtain ⟨w, hw, hn⟩ : ∃ w ∈ ((start {}).run appeared).watches,
      ((start {}).run appeared).Noticeable w := by
    rw [run, appeared, List.foldl_cons, List.foldl_cons, step_add_key]
    refine ⟨_, List.mem_singleton.2 rfl, [.named "a"], List.mem_singleton.2 rfl, by decide, ?_⟩
    exact Trigger.reached_cons.2 ⟨by decide, Trigger.reached_nil.2 (by decide)⟩
  exact ⟨w, hw, ((collects_iff {} appeared w hw).2 ha).2 fun _ => hn⟩

/-- A run in which the key `a` has a value, is watched, and is removed before the first
    collection. -/
def vanished : List Event :=
  [.write [.set ["a"] (.ofScalar (.int 1))],
    .add [.key "a"] (fun _ _ => (true, [])) false,
    .write [.remove ["a"]]]

/-- After `vanished` the registration has `Changed`, since its node is gone, but a collection does
    not find it: the place was never visited, so nothing is recorded there, and that is what is
    there now. -/
theorem vanished_unnoticed : ∃ w ∈ ((start {}).run vanished).watches,
    ((start {}).run vanished).Changed w ∧ w.token ∉ ((start {}).run vanished).collects := by
  rw [run, vanished, List.foldl_cons, List.foldl_cons, List.foldl_cons, step_add_key]
  exact ⟨_, List.mem_singleton.2 rfl, ⟨[.named "a"], List.mem_singleton.2 rfl, by decide⟩,
    by decide⟩

end Lookout

end Observatory

import Observatory.Proofs.Store.Fingerprint
import Observatory.Proofs.Watch.Mirror
import Observatory.Proofs.Watch.Pass

/-!
# Instances are the keys that are there

Right after a collection, the instances of a wildcard are the keys of the node at its place, as
long as the collection passed over nothing on the way.  What it passed over was recorded with
the stamp that is there now, and that is as good as a visit if the stamp stands for the node
that it was taken from.  This goes wrong in two ways.  A node that was never visited is recorded
as absent, so if it is gone by the time of its first collection, then its instances stay.  And
an item that moved within an array is taken for the item that was at its position.  Even where
the instances are right, looking them up misses those that a named branch hides, and those of
a position in an array that is spelled in an unusual way.

* `Lookout.Spread`, `Lookout.Hidden`, `Lookout.Spelled`: wildcards of live selectors, and what
  looking up their instances may miss;
* `Lookout.Gentle`: runs that move no item away from what was recorded, and whose collections pass
  over no instances where nothing is;
* `Lookout.Recorded`: the invariant of gentle runs, with `Lookout.recorded_step`;
* `Lookout.mirrored_of`: instances that are right in the trie are right when they are looked up;
* `Lookout.instances_eq_keys`: the instances after a collection;
* `Lookout.outlived_instance`: an instance that outlives its key.
-/

namespace Observatory

namespace Trigger

theorem mem_dataKeys {data : Option Node} {key : String} :
    key ∈ dataKeys data ↔ ∃ n, data = some n ∧ key ∈ n.keys := by
  rcases data with - | ⟨s, v⟩ | ⟨s, children⟩ | ⟨s, items⟩
  · exact ⟨nofun, nofun⟩
  · exact ⟨nofun, fun ⟨n, he, hk⟩ => by cases he; cases hk⟩
  · exact ⟨fun hk => ⟨_, rfl, hk⟩, fun ⟨n, he, hk⟩ => by cases he; exact hk⟩
  · -- The positions of an array are keys in the order of the text.
    rw [dataKeys, Dict.mem_keys_ofPairs (Node.nodup_keys_numbered 0 _)]
    exact ⟨fun hk => ⟨_, rfl, hk⟩, fun ⟨n, he, hk⟩ => by cases he; exact hk⟩

/-- A registration leaves what is recorded at every place. -/
theorem visited_place_insertAll (token : Token) (paths : List (List Step)) (data : Option Node)
    (t : Trigger) (p : Place) :
    ((insertAll token paths data t).place p).visited = (t.place p).visited := by
  induction paths generalizing t with
  | nil => rfl
  | cons steps rest ih => exact (ih _).trans (visited_place_insert token steps data t p)

theorem vacant_place_leaf (ls : List Listener) (v : Sighting) (p : Place) :
    ((mk ls [] none v).place p).Vacant := by
  intro q _ key
  rw [← place_append]
  cases p ++ q with
  | nil => rfl
  | cons b rest =>
    have hb : (mk ls [] none v).branch b = empty := by cases b <;> rfl
    rw [place_cons, hb, place_empty]
    rfl

/-- The requests are `Steady` along every place that is recorded as visited: none brings another
    item of an array there. -/
def Undisturbed (t : Trigger) (s : Store) (ops : List Store.Op) : Prop :=
  ∀ p : Place, (t.place p).visited ≠ none → s.Steady p.keys ops

/-- All stamps that the trie has recorded are at most `seen`. -/
def RecordedBy (t : Trigger) (seen : Nat) : Prop :=
  ∀ p s, (t.place p).visited = some s → s.childSerial ≤ seen

section RecordedBy

variable {t : Trigger} {data : Option Node} {seen bound : Nat}

/-- A registration keeps `RecordedBy`. -/
theorem RecordedBy.insertAll (h : t.RecordedBy seen) (token : Token) (paths : List (List Step))
    (data : Option Node) : (Trigger.insertAll token paths data t).RecordedBy seen := by
  intro p s hv
  exact h p s (visited_place_insertAll token paths data t p ▸ hv)

/-- A removal keeps `RecordedBy`. -/
theorem RecordedBy.remove (h : t.RecordedBy seen) (hp : t.Proper) (token : Token) :
    (Trigger.remove token t).RecordedBy seen := by
  intro p s hv
  rcases visited_place_remove token hp p with he | he
  · exact h p s (he ▸ hv)
  · rw [he] at hv
    cases hv

/-- A visit records the stamps that are there, which are at most `bound` if the data are
    `RegularTo bound`. -/
theorem RecordedBy.visit (h : t.RecordedBy seen) (hle : seen ≤ bound) (hp : t.Proper)
    (hdata : ∀ n, data = some n → n.RegularTo bound) :
    (Trigger.visit t data).1.RecordedBy bound := by
  intro p s hv
  obtain he | he : ((Trigger.visit t data).1.place p).visited = _ ∨
      _ = Sighting.of (look data p) := visited_place_visit hp p
  · exact Nat.le_trans (h p s (he ▸ hv)) hle
  · obtain ⟨m, hm, rfl⟩ := Option.map_eq_some_iff.1 (he.symm.trans hv)
    cases data with
    | none =>
      rw [look_none] at hm
      cases hm
    | some n => exact ((hdata n rfl).descendant? (look_eq_descendant? hm)).1

end RecordedBy

/-- `Faithful` is kept by `Undisturbed` requests, if everything recorded is past: a node with a
    recorded stamp was there before, by `eq_of_stamp_eq`. -/
theorem Faithful.runAll {t : Trigger} {s : Store} (h : Faithful t s.root) (hs : s.Valid)
    {seen : Nat} (hp : s.Past seen) (ht : t.RecordedBy seen) {ops : List Store.Op}
    (hops : t.Undisturbed s ops) : Faithful t (s.runAll ops).root := by
  intro p n hn hv
  have hsteady : s.Steady p.keys ops := hops p (hv ▸ Option.some_ne_none _)
  rcases Store.traced_runAll hs hp hsteady hn with hlt | hold
  · exact absurd (ht p n.stamp hv) (Nat.not_le.2 hlt)
  · exact h p n hold hv

end Trigger

namespace Lookout

/-! ### Wildcards of live selectors -/

/-- A live selector has a wildcard right beneath the place. -/
def Spread (x : Lookout) (p : Place) : Prop :=
  ∃ w ∈ x.watches, ∃ rest, p.steps ++ .wildcard :: rest ∈ w.paths

/-- On the way to the place a wildcard stands for a key that a live selector names right there.
    Looking up instances takes the named branch then. -/
def Hidden (x : Lookout) (p : Place) : Prop :=
  ∃ q key r, p = q ++ .wild key :: r ∧ ∃ w ∈ x.watches,
    ∃ rest, Place.steps q ++ .key key :: rest ∈ w.paths

/-- The wildcards on the way to the place stand for keys in the spelling that these have in the
    data. -/
def Spelled (x : Lookout) (p : Place) : Prop := look (some x.store.root) p = x.store.node? p.keys

/-- The instances that are found at the keys of the place are the keys of the node there. -/
def Mirrored (x : Lookout) (p : Place) : Prop :=
  ∀ key, key ∈ x.synchronizer.instances p.keys ↔ ∃ n, x.store.node? p.keys = some n ∧ key ∈ n.keys

variable {x : Lookout}

theorem steps_append (p q : Place) : Place.steps (p ++ q) = p.steps ++ q.steps := List.map_append

/-- Where a live selector has a wildcard, the trie has one. -/
theorem Spread.wildcard (hx : x.Valid) {p : Place} (h : x.Spread p) :
    (x.synchronizer.root.place p).wildcard ≠ none := by
  obtain ⟨w, hw, rest, hpath⟩ := h
  obtain ⟨r, rfl⟩ := Place.exists_steps rest
  have hmem : w.token ∈ x.synchronizer.root.tokensAt (p ++ .wild "" :: r) := by
    refine (hx.listeners _ _).2 ⟨w, hw, rfl, ?_⟩
    rw [steps_append]
    exact hpath
  intro hnone
  -- Without a wildcard nobody would listen beneath it.
  rw [Trigger.tokensAt, Trigger.place_append, Trigger.place_cons, Trigger.branch_wild,
    hnone] at hmem
  dsimp only at hmem
  rw [Trigger.place_empty] at hmem
  cases hmem

/-- Where no live selector has a named branch, the trie has none. -/
theorem named_eq_none (hx : x.Kept) {p : Place} (h : ¬x.Hidden p) {q r : Place} {key : String}
    (he : p = q ++ .wild key :: r) :
    Dict.get? (x.synchronizer.root.place q).named key = none := by
  cases hk : Dict.get? (x.synchronizer.root.place q).named key with
  | none => rfl
  | some u =>
    -- Somebody would listen beneath the branch.
    have hchild : (x.synchronizer.root.place q).Child u := .named (Dict.mem_of_get? hk)
    have hocc := Trigger.full_iff.1 (hx.full.place q) u hchild
    obtain ⟨p', token, ht⟩ := hocc.exists_mem_tokensAt ((hx.valid.proper.place q).child hchild)
    have hmem : token ∈ x.synchronizer.root.tokensAt (q ++ .named key :: p') := by
      rw [Trigger.tokensAt, Trigger.place_append, Trigger.place_cons, Trigger.branch_named, hk]
      exact ht
    obtain ⟨w, hw, -, hpath⟩ := (hx.valid.listeners _ _).1 hmem
    rw [steps_append] at hpath
    exact absurd ⟨q, key, r, he, w, hw, p'.steps, hpath⟩ h

/-- If `MirrorsAt` holds on the way to a place that is `Spread`, not `Hidden` and `Spelled`, then
    the place is `Mirrored`. -/
theorem mirrored_of (hx : x.Kept) {p : Place} (hspread : x.Spread p) (hhidden : ¬x.Hidden p)
    (hspelled : x.Spelled p)
    (h : ∀ q, q <+: p → x.synchronizer.root.MirrorsAt (some x.store.root) q) : x.Mirrored p := by
  intro key
  refine (Trigger.mem_instances_iff h (hspread.wildcard hx.valid)
    (fun q k r he => named_eq_none hx hhidden he) key).trans ?_
  rw [hspelled]
  exact Trigger.mem_dataKeys

/-! ### Gentle runs -/

/-- Requests leave what is recorded `Undisturbed`, also those of a callback that a registration
    calls, and a collection passes over no instances at a place where nothing is. -/
def Event.Gentle (x : Lookout) : Event → Prop
  | write ops => x.synchronizer.root.Undisturbed x.store ops
  | add _ act true => x.synchronizer.root.Undisturbed x.store.closeTick (act 0 x.store.closeTick).2
  | collect => ∀ p, x.synchronizer.root.Arrives p (some x.store.root) →
      (x.synchronizer.root.place p).visited = none → look (some x.store.root) p = none →
      (x.synchronizer.root.place p).Vacant
  | _ => True

/-- Every event of the run is `Gentle` when it happens. -/
def Gentle (x : Lookout) : List Event → Prop
  | [] => True
  | e :: rest => e.Gentle x ∧ Gentle (e.step x) rest

/-- The invariant of gentle runs: what is recorded lies in the past, and the trie is `Faithful` to
    the store. -/
structure Recorded (x : Lookout) : Prop where
  kept : x.Kept
  past : ∃ seen, x.store.Past seen ∧ x.synchronizer.root.RecordedBy seen
  faithful : x.synchronizer.root.Faithful x.store.root

/-- `Recorded` holds at the start, where nothing is recorded. -/
theorem recorded_start (clock : Clock) : (start clock).Recorded := by
  have hnone : ∀ p s, (Trigger.empty.place p).visited ≠ some s := by
    intro p s hv
    rw [Trigger.place_empty] at hv
    cases hv
  have hpast := Store.past_of_tick_none (s := (start clock).store) rfl
  exact {
    kept := kept_start clock
    past := ⟨_, hpast, fun p s hv => absurd hv (hnone p s)⟩
    faithful := fun p n _ hv => absurd hv (hnone p n.stamp) }

/-- Gentle requests keep `Recorded`. -/
theorem recorded_write (hx : x.Recorded) {ops : List Store.Op}
    (hg : (Event.write ops).Gentle x) : (Event.step x (.write ops)).Recorded := by
  obtain ⟨seen, hpast, hseen⟩ := hx.past
  have hs := hx.kept.valid.store
  exact {
    kept := kept_step hx.kept (.event (.write ops))
    past := ⟨seen, (Store.later_runAll hs ops).past seen hpast, hseen⟩
    faithful := hx.faithful.runAll hs hpast hseen hg }

/-- The store after a registration, which closes the tick and may call the callback. -/
theorem store_add {selector : Selector} {act : Nat → Store → Bool × List Store.Op} {force : Bool}
    {token : Token} {y : Synchronizer} {s : Store}
    (h : x.synchronizer.add x.store selector (.ofRequests act) force = some (token, y, s)) :
    s = x.store.closeTick.runAll (if force then (act 0 x.store.closeTick).2 else []) := by
  unfold Synchronizer.add at h
  dsimp only at h
  split at h
  · cases h
  · cases force with
    | true =>
      cases h
      rfl
    | false =>
      cases h
      rfl

/-- A gentle registration keeps `Recorded`: it visits nothing, and makes the instances that it
    should make. -/
theorem recorded_add (hx : x.Recorded) {selector : Selector}
    {act : Nat → Store → Bool × List Store.Op} {force : Bool}
    (hg : (Event.add selector act force).Gentle x) :
    (Event.step x (.add selector act force)).Recorded := by
  have hkept := kept_add hx.kept selector act force
  obtain ⟨seen, hpast, hseen⟩ := hx.past
  have hs := hx.kept.valid.store
  have hclosed := Store.later_closeTick hs
  rw [Event.step] at hkept ⊢
  cases ha : x.synchronizer.add x.store selector (.ofRequests act) force with
  | none => exact hx
  | some result =>
    obtain ⟨token, y, s⟩ := result
    rw [ha] at hkept
    obtain ⟨-, hroot, -, -⟩ := added_of_add ha
    have hstore := store_add ha
    generalize hops : (if force then (act 0 x.store.closeTick).2 else []) = ops at hstore
    subst hstore
    -- What is recorded is what was recorded before.
    have hvisited : ∀ p, (y.root.place p).visited = (x.synchronizer.root.place p).visited := by
      intro p
      rw [hroot]
      exact Trigger.visited_place_insertAll _ _ _ _ p
    have hseen' : y.root.RecordedBy seen := by
      rw [hroot]
      exact hseen.insertAll _ _ _
    have hundisturbed : y.root.Undisturbed x.store.closeTick ops := by
      intro p hv
      rw [hvisited] at hv
      subst hops
      cases force with
      | true => exact hg p hv
      | false => exact trivial
    have hfaithful : y.root.Faithful x.store.closeTick.root := by
      rw [hroot]
      exact hx.faithful.insertAll hx.kept.valid.proper _ _
    have hpast' := hclosed.past seen hpast
    exact {
      kept := hkept
      past := ⟨seen, (Store.later_runAll hclosed.valid ops).past seen hpast', hseen'⟩
      faithful := hfaithful.runAll hclosed.valid hpast' hseen' hundisturbed }

/-- A removal keeps `Recorded`. -/
theorem recorded_remove (hx : x.Recorded) (token : Token) :
    (Event.step x (.remove token)).Recorded := by
  have hkept := kept_remove hx.kept token
  obtain ⟨seen, hpast, hseen⟩ := hx.past
  have hp := hx.kept.valid.proper
  rw [Event.step, Synchronizer.remove] at hkept ⊢
  cases hc : x.synchronizer.callback? token with
  | none =>
    rw [hc] at hkept
    exact ⟨hkept, hx.past, hx.faithful⟩
  | some c =>
    rw [hc] at hkept
    exact ⟨hkept, ⟨seen, hpast, hseen.remove hp token⟩, hx.faithful.remove hp token⟩

/-- After a gentle collection the trie is a mirror of the tree. -/
theorem mirrors_collect (hx : x.Recorded) (hg : Event.collect.Gentle x) :
    (Event.step x .collect).synchronizer.root.Mirrors (some x.store.root) :=
  hx.faithful.mirrors_visit hg

/-- A gentle collection keeps `Recorded`. -/
theorem recorded_collect (hx : x.Recorded) (hg : Event.collect.Gentle x) :
    (Event.step x .collect).Recorded := by
  have hkept := kept_collect hx.kept
  obtain ⟨seen, hpast, hseen⟩ := hx.past
  have hclosed := Store.past_of_tick_none (s := x.store.closeTick) rfl
  have hproper := hx.kept.valid.proper
  refine ⟨hkept, ⟨_, hclosed, hseen.visit hpast.clock hproper ?_⟩,
    (mirrors_collect hx hg).faithful hkept.valid.proper⟩
  rintro n ⟨⟩
  exact hx.kept.valid.store.root

/-- Every gentle event keeps `Recorded`. -/
theorem recorded_step (hx : x.Recorded) (e : Event) (hg : e.Gentle x) : (e.step x).Recorded := by
  cases e with
  | write ops => exact recorded_write hx hg
  | add selector act force => exact recorded_add hx hg
  | remove token => exact recorded_remove hx token
  | collect => exact recorded_collect hx hg

/-- Every gentle run keeps `Recorded`. -/
theorem recorded_run (hx : x.Recorded) {events : List Event} (hg : x.Gentle events) :
    (x.run events).Recorded := by
  induction events generalizing x with
  | nil => exact hx
  | cons e rest ih => exact ih (recorded_step hx e hg.1) hg.2

theorem kept_run (hx : x.Kept) (events : List Event) : (x.run events).Kept := by
  induction events generalizing x with
  | nil => exact hx
  | cons e rest ih => exact ih (kept_step hx (.event e))

theorem gentle_append {before after : List Event} :
    x.Gentle (before ++ after) ↔ x.Gentle before ∧ (x.run before).Gentle after := by
  induction before generalizing x with
  | nil => exact ⟨fun h => ⟨trivial, h⟩, And.right⟩
  | cons e rest ih =>
    constructor
    · rintro ⟨he, h⟩
      exact ⟨⟨he, (ih.1 h).1⟩, (ih.1 h).2⟩
    · rintro ⟨⟨he, h⟩, hafter⟩
      exact ⟨he, ih.2 ⟨h, hafter⟩⟩

/-- **Instances are the keys that are there.**  After a collection, a place that is `Spread`, not
    `Hidden` and `Spelled` is `Mirrored`, if the collection passed over nothing on the way to it,
    or if the whole run was `Gentle`. -/
theorem instances_eq_keys (clock : Clock) (events : List Event) (p : Place) :
    let x := (start clock).run events
    let y := Event.step x .collect
    y.Spread p → ¬y.Hidden p → y.Spelled p →
      (¬x.synchronizer.root.PassedOver (some x.store.root) p ∨
        (start clock).Gentle (events ++ [.collect])) → y.Mirrored p := by
  intro x y hspread hhidden hspelled hcases
  have hx : x.Kept := kept_run (kept_start clock) events
  refine mirrored_of (kept_collect hx) hspread hhidden hspelled ?_
  -- What the collection reached it made a mirror; in a gentle run what it passed over was one
  -- already.
  rcases hcases with hreached | hgentle
  · intro q hq
    refine Trigger.mirrorsAt_visit fun hover => hreached ?_
    obtain ⟨r, hr, ha, hv⟩ := hover
    exact ⟨r, hr.trans hq, ha, hv⟩
  · intro q _
    obtain ⟨hbefore, hcollect⟩ := gentle_append.1 hgentle
    exact mirrors_collect (recorded_run (recorded_start clock) hbefore) hcollect.1 q

/-- A run in which everything right beneath the root is watched, and a second key appears after the
    first collection. -/
def appearing : List Event :=
  [.write [.set ["a"] (.ofScalar (.int 1))],
    .add [.wildcard] (fun _ _ => (true, [])) false,
    .collect,
    .write [.set ["b"] (.ofScalar (.int 2))]]

theorem expand_wildcard : Selector.expand [.wildcard] = [[.wildcard]] := expand_steps [.wildcard]

/-- A collection is gentle if the trie has only a wildcard, with nothing beneath it. -/
theorem gentle_collect_of_flat {ls : List Listener} {pattern : Trigger} {is : Dict Trigger}
    {v : Sighting} (hroot : x.synchronizer.root = .mk ls [] (some (pattern, is)) v)
    (hflat : ∀ key, ∃ ls v, (Dict.get? is key).getD pattern = .mk ls [] none v) :
    Event.collect.Gentle x := by
  intro p _ _ hl
  rw [hroot]
  rcases p with - | ⟨k | k, p⟩
  · cases hl
  · rw [Trigger.place_cons, Trigger.branch_named]
    exact Trigger.vacant_place_leaf [] none p
  · obtain ⟨ls', v', hleaf⟩ := hflat k
    rw [Trigger.place_cons, Trigger.branch_wild]
    dsimp only [Trigger.wildcard]
    rw [hleaf]
    exact Trigger.vacant_place_leaf ls' v' p

theorem gentle_appearing : (start {}).Gentle (appearing ++ [.collect]) := by
  have hflat : ∀ (l l' : List Listener) (v v' : Sighting) (key : String), ∃ ls w,
      (Dict.get? [("a", Trigger.mk l [] none v)] key).getD (.mk l' [] none v') =
        .mk ls [] none w := by
    intro l l' v v' key
    rw [Dict.get?]
    split
    · exact ⟨_, _, rfl⟩
    · exact ⟨_, _, rfl⟩
  refine ⟨fun _ _ => ⟨rfl, trivial⟩, trivial, ?_, fun _ _ => ⟨rfl, trivial⟩, ?_, trivial⟩
  · rw [step_add_single _ expand_wildcard]
    exact gentle_collect_of_flat rfl (hflat _ _ _ _)
  · rw [step_add_single _ expand_wildcard]
    exact gentle_collect_of_flat rfl (hflat _ _ _ _)

/-- `instances_eq_keys` for the run `appearing`: after the second collection there are instances
    for both keys. -/
theorem instances_eq_keys_appearing :
    let y := Event.step ((start {}).run appearing) .collect
    y.Spread [] ∧ ¬y.Hidden [] ∧ y.Spelled [] ∧
      (start {}).Gentle (appearing ++ [.collect]) ∧ y.Mirrored [] ∧
      y.synchronizer.instances [] = ["a", "b"] := by
  intro y
  -- The registration is evaluated by hand, as expanding a selector does not reduce.
  have hspread : y.Spread [] := by
    show Lookout.Spread (Event.step ((start {}).run appearing) .collect) []
    rw [run, appearing, List.foldl_cons, List.foldl_cons, step_add_single _ expand_wildcard]
    exact ⟨_, List.mem_singleton.2 rfl, [], List.mem_singleton.2 rfl⟩
  have hhidden : ¬y.Hidden [] := by
    rintro ⟨q, key, r, he, -⟩
    cases q <;> cases he
  have hgentle := gentle_appearing
  refine ⟨hspread, hhidden, rfl, hgentle,
    instances_eq_keys {} appearing [] hspread hhidden rfl (.inr hgentle), ?_⟩
  show Synchronizer.instances (Event.step ((start {}).run appearing) .collect).synchronizer [] = _
  rw [run, appearing, List.foldl_cons, List.foldl_cons, step_add_single _ expand_wildcard]
  decide

/-- A run in which everything beneath the key `a` is watched, and `a` is removed before the first
    collection. -/
def outlived : List Event :=
  [.write [.set ["a", "b"] (.ofScalar (.int 1))],
    .add [.key "a", .wildcard] (fun _ _ => (true, [])) false,
    .write [.remove ["a"]]]

theorem expand_key_wildcard (key : String) :
    Selector.expand [.key key, .wildcard] = [[.key key, .wildcard]] :=
  expand_steps [.key key, .wildcard]

/-- After `outlived` and a collection there is no node at `a`, but its wildcard still has the
    instance `b`: the trie there was never visited, so the collection passes over it. -/
theorem outlived_instance :
    let y := Event.step ((start {}).run outlived) .collect
    y.Spread [.named "a"] ∧ y.store.node? ["a"] = none ∧
      y.synchronizer.instances ["a"] = ["b"] := by
  rw [run, outlived, List.foldl_cons, List.foldl_cons, List.foldl_cons,
    step_add_single _ (expand_key_wildcard "a")]
  exact ⟨⟨_, List.mem_singleton.2 rfl, [], List.mem_singleton.2 rfl⟩, by decide, by decide⟩

end Lookout

end Observatory

import Observatory.Proofs.Watch.Instances

/-!
# Changes that are found in any case

Whether a collection finds a change depends on what the trie has recorded and on what the listeners
were told, and so on all that happened before.  But one kind of change is found whatever came
before.  What is recorded, and what a listener was told, was stamped up to the time of the last
collection or registration, and every later change is stamped later.  So if a request has brought
another node to a watched place since then, then that node, and every node on the way to it, has a
stamp that is neither recorded nor told.  The exception is an item of an array that moves up when
another one is removed, because it keeps its stamp.  On the other hand a collection finds nothing
at all if the tree has not changed since the one before.

* `Trigger.ToldBy`, `Trigger.toldBy_insertAll`, `Trigger.ToldBy.visit`: what listeners were told was
  stamped up to some moment;
* `Lookout.Dated`, `Lookout.dated_step`: the same of a registration in a lookout, with all that is
  recorded;
* `Lookout.Steady`: runs in which no item of an array comes to a position on the way along a path;
* `Lookout.collects_of_changed`: changes since any moment after the last collection are found;
* `Lookout.collects_eq_nil`: without changes nothing is found.
-/

namespace Observatory

/-! ### What listeners were told -/

namespace Trigger

variable {t : Trigger} {data : Option Node} {token : Token} {seen bound : Nat}

/-- All stamps that the listeners of the token have seen are at most `seen`. -/
def ToldBy (token : Token) (seen : Nat) (t : Trigger) : Prop :=
  ∀ p, ∀ l ∈ (t.place p).listeners, l.token = token → ∀ s, l.seen = some s → s.childSerial ≤ seen

/-- Whatever data a place is registered with, they are a part of the data of the whole, so they are
    `RegularTo` the same bound. -/
theorem regularTo_registeredAt (hdata : ∀ n, data = some n → n.RegularTo bound) {p : Place}
    {n : Node} (h : registeredAt t data p = some n) : n.RegularTo bound := by
  induction p generalizing t data with
  | nil => exact hdata n h
  | cons b rest ih =>
    refine ih (fun m hm => ?_) h
    -- A step takes a part of the data or none, so the bound goes down with the data.
    have hpart : ∀ {key : String} {m : Node}, part data key = some m → m.RegularTo bound := by
      intro key m hm
      obtain ⟨n, hn, hchild⟩ := Option.bind_eq_some_iff.1 hm
      exact (hdata n hn).child? hchild
    cases b with
    | named key => exact hpart hm
    | wild key =>
      rw [enter] at hm
      split at hm
      · exact hpart hm
      · cases hm

/-- A registration keeps `ToldBy` for every token, as the new listeners have seen parts of the
    data. -/
theorem toldBy_insertAll (h : t.ToldBy token seen) (hle : seen ≤ bound)
    (hdata : ∀ n, data = some n → n.RegularTo bound) (new : Token) (paths : List (List Step)) :
    (insertAll new paths data t).ToldBy token bound := by
  induction paths generalizing t seen with
  | nil => exact fun p l hl ht s hs => Nat.le_trans (h p l hl ht s hs) hle
  | cons steps rest ih =>
    -- One path at a time: its listener has seen a part of the data, the others are old.
    have hnext : (t.insert new steps data).ToldBy token bound := ?_
    · exact ih hnext (Nat.le_refl _)
    intro p l hl ht s hs
    rw [listeners_place_insert, List.mem_append] at hl
    rcases hl with hl | hl
    · exact Nat.le_trans (h p l hl ht s hs) hle
    · split at hl
      · rw [List.mem_singleton.1 hl] at hs
        obtain ⟨n, hn, rfl⟩ := Option.map_eq_some_iff.1 hs
        exact (regularTo_registeredAt hdata hn).1
      · cases hl

/-- A registration keeps `ToldBy` for another token with the same bound. -/
theorem ToldBy.insertAll_of_ne (h : t.ToldBy token seen) {new : Token} (hne : token ≠ new)
    (paths : List (List Step)) (data : Option Node) :
    (insertAll new paths data t).ToldBy token seen := by
  intro p l hl ht s hs
  rcases mem_listeners_insertAll hl with hl | ⟨hnew, -⟩
  · exact h p l hl ht s hs
  · exact absurd (ht.symm.trans hnew) hne

/-- A removal keeps `ToldBy`. -/
theorem ToldBy.remove (h : t.ToldBy token seen) (hp : t.Proper) (gone : Token) :
    (Trigger.remove gone t).ToldBy token seen := by
  intro p l hl
  rw [listeners_place_remove gone hp] at hl
  exact h p l (List.mem_filter.1 hl).1

/-- A visit keeps `ToldBy`, with the bound of the data that are there. -/
theorem ToldBy.visit (h : t.ToldBy token seen) (hle : seen ≤ bound) (hp : t.Proper)
    (hdata : ∀ n, data = some n → n.RegularTo bound) :
    (Trigger.visit t data).1.ToldBy token bound := by
  intro p l hl ht s hs
  rcases (visit_place hp data p).2 l hl with hnow | ⟨hold, -⟩
  · obtain ⟨m, hm, rfl⟩ := Option.map_eq_some_iff.1 (hnow.symm.trans hs)
    cases data with
    | none =>
      rw [look_none] at hm
      cases hm
    | some n => exact ((hdata n rfl).descendant? (look_eq_descendant? hm)).1
  · exact Nat.le_trans (h p l hold ht s hs) hle

end Trigger

namespace Lookout

variable {x : Lookout} {token : Token} {seen : Nat} {path : List String} {e : Event}
  {events : List Event}

/-! ### Moments -/

/-- All stamps that are recorded in the trie or were told to the token are at most `seen`, and
    every further change will be stamped later. -/
structure Dated (x : Lookout) (token : Token) (seen : Nat) : Prop where
  past : x.store.Past seen
  recorded : x.synchronizer.root.RecordedBy seen
  told : x.synchronizer.root.ToldBy token seen

/-- `Dated` holds at the start for every token. -/
theorem dated_start (clock : Clock) (token : Token) :
    (start clock).Dated token clock.current where
  past := Store.past_of_tick_none (s := (start clock).store) rfl
  recorded := by
    intro p s hv
    rw [start, Trigger.place_empty] at hv
    cases hv
  told := by
    intro p l hl
    rw [start, Trigger.place_empty] at hl
    cases hl

theorem Valid.regularTo_root (hx : x.Valid) :
    ∀ n, some x.store.root = some n → n.RegularTo x.store.clock.current := by
  rintro n ⟨⟩
  exact hx.store.root

/-- Requests to the store keep `Dated`. -/
theorem Dated.write (h : x.Dated token seen) (hx : x.Valid) (ops : List Store.Op) :
    (Event.step x (.write ops)).Dated token seen :=
  ⟨(Store.later_runAll hx.store ops).past seen h.past, h.recorded, h.told⟩

/-- A removal keeps `Dated`. -/
theorem Dated.remove (h : x.Dated token seen) (hx : x.Valid) (gone : Token) :
    (Event.step x (.remove gone)).Dated token seen := by
  rw [Event.step, Synchronizer.remove]
  cases x.synchronizer.callback? gone with
  | none => exact ⟨h.past, h.recorded, h.told⟩
  | some c => exact ⟨h.past, h.recorded.remove hx.proper gone, h.told.remove hx.proper gone⟩

/-- A registration keeps `Dated` for every older token. -/
theorem Dated.add (h : x.Dated token seen) (hx : x.Valid)
    (hold : token < x.synchronizer.nextToken) (selector : Selector)
    (act : Nat → Store → Bool × List Store.Op) (force : Bool) :
    (Event.step x (.add selector act force)).Dated token seen := by
  rw [Event.step]
  cases ha : x.synchronizer.add x.store selector (.ofRequests act) force with
  | none => exact h
  | some result =>
    obtain ⟨new, y, s⟩ := result
    obtain ⟨rfl, hroot, -, -⟩ := added_of_add ha
    have hlater := (Synchronizer.later_add hx.writes hx.store (Callback.writes_ofRequests act) ha).1
    -- What the registration records is nothing, and the new listeners have another token.
    refine ⟨hlater.past seen h.past, ?_, ?_⟩
    · show y.root.RecordedBy seen
      rw [hroot]
      exact h.recorded.insertAll _ _ _
    · show y.root.ToldBy token seen
      rw [hroot]
      exact h.told.insertAll_of_ne (Nat.ne_of_lt hold) _ _

/-- After every event `Dated` holds with some bound: a collection or a new registration moves it to
    the present. -/
theorem exists_dated_step (h : x.Dated token seen) (hx : x.Valid) (e : Event) :
    ∃ seen, (e.step x).Dated token seen := by
  have hnow := h.past.clock
  have hclosed : x.store.closeTick.Past x.store.clock.current :=
    Store.past_of_tick_none (s := x.store.closeTick) rfl
  cases e with
  | write ops => exact ⟨seen, h.write hx ops⟩
  | remove gone => exact ⟨seen, h.remove hx gone⟩
  | collect =>
    exact ⟨_, hclosed, h.recorded.visit hnow hx.proper hx.regularTo_root,
      h.told.visit hnow hx.proper hx.regularTo_root⟩
  | add selector act force =>
    rw [Event.step]
    cases ha : x.synchronizer.add x.store selector (.ofRequests act) force with
    | none => exact ⟨seen, h⟩
    | some result =>
      obtain ⟨new, y, s⟩ := result
      obtain ⟨rfl, hroot, -, -⟩ := added_of_add ha
      obtain rfl := store_add ha
      -- Whatever bound there was, it was in the past, and the new listeners have seen what is
      -- there now.
      refine ⟨x.store.clock.current, ?_, ?_, ?_⟩
      · exact (Store.later_runAll (Store.later_closeTick hx.store).valid _).past _ hclosed
      · show y.root.RecordedBy _
        rw [hroot]
        exact fun p s hv => Nat.le_trans (h.recorded.insertAll _ _ _ p s hv) hnow
      · show y.root.ToldBy token _
        rw [hroot]
        exact Trigger.toldBy_insertAll h.told hnow hx.regularTo_root _ _

/-- After every run `Dated` holds with some bound. -/
theorem exists_dated_run (h : x.Dated token seen) (hx : x.Valid) (events : List Event) :
    ∃ seen, (x.run events).Dated token seen := by
  induction events generalizing x seen with
  | nil => exact ⟨seen, h⟩
  | cons e rest ih =>
    obtain ⟨seen', h'⟩ := exists_dated_step h hx e
    exact ih h' (valid_step hx e)

/-! ### Runs without a collection -/

/-- The requests of an event, those of a callback that a registration calls included, are `Steady`
    along the path. -/
def Event.Steady (x : Lookout) (path : List String) : Event → Prop
  | write ops => x.store.Steady path ops
  | add _ act true => x.store.closeTick.Steady path (act 0 x.store.closeTick).2
  | add _ _ false | remove _ | collect => True

/-- Every event of the run is `Steady` along the path when it happens. -/
def Steady (x : Lookout) (path : List String) : List Event → Prop
  | [] => True
  | e :: rest => e.Steady x path ∧ Steady (e.step x) path rest

theorem nextToken_le_step (x : Lookout) (e : Event) :
    x.synchronizer.nextToken ≤ (e.step x).synchronizer.nextToken := by
  cases e with
  | write ops => exact Nat.le_refl _
  | remove gone =>
    rw [Event.step, Synchronizer.remove]
    cases x.synchronizer.callback? gone <;> exact Nat.le_refl _
  | collect => exact Nat.le_refl _
  | add selector act force =>
    rw [Event.step]
    cases ha : x.synchronizer.add x.store selector (.ofRequests act) force with
    | none => exact Nat.le_refl _
    | some result =>
      obtain ⟨new, y, s⟩ := result
      obtain ⟨-, -, -, hnext⟩ := added_of_add ha
      exact hnext ▸ Nat.le_succ _

/-- What is found along the path after a `Steady` event stood there before, or is stamped later
    than what was past then. -/
theorem traced_step (hx : x.Valid) (hpast : x.store.Past seen) (he : e.Steady x path) {m : Node}
    (hm : (e.step x).store.node? path = some m) :
    seen < m.childSerial ∨ x.store.node? path = some m := by
  cases e with
  | write ops => exact Store.traced_runAll hx.store hpast he hm
  | remove | collect => exact .inr hm
  | add selector act force =>
    rw [Event.step] at hm
    cases ha : x.synchronizer.add x.store selector (.ofRequests act) force with
    | none =>
      rw [ha] at hm
      exact .inr hm
    | some result =>
      obtain ⟨new, y, s⟩ := result
      rw [ha] at hm
      obtain rfl := store_add ha
      -- A registration closes the tick first, so all that was past then stays past for its
      -- callback.
      have hclosed := Store.later_closeTick hx.store
      have hsteady : x.store.closeTick.Steady path
          (if force then (act 0 x.store.closeTick).2 else []) := by
        cases force with
        | true => exact he
        | false => exact trivial
      exact Store.traced_runAll hclosed.valid (hclosed.past seen hpast) hsteady hm

/-- Every event but a collection keeps `Dated` for an older token, with the same bound. -/
theorem Dated.step (h : x.Dated token seen) (hx : x.Valid)
    (hold : token < x.synchronizer.nextToken) (he : e ≠ .collect) :
    (e.step x).Dated token seen := by
  cases e with
  | write ops => exact h.write hx ops
  | add selector act force => exact h.add hx hold selector act force
  | remove gone => exact h.remove hx gone
  | collect => exact absurd rfl he

/-- A run without a collection keeps `Dated` for an older token.  If the run is `Steady`
    along a path, then what is found there after it stood there before or is stamped later
    than the bound. -/
theorem Dated.run (h : x.Dated token seen) (hx : x.Valid)
    (hold : token < x.synchronizer.nextToken) (hcollect : .collect ∉ events)
    (hsteady : x.Steady path events) :
    (x.run events).Dated token seen ∧ ∀ m, (x.run events).store.node? path = some m →
      seen < m.childSerial ∨ x.store.node? path = some m := by
  induction events generalizing x with
  | nil => exact ⟨h, fun m hm => .inr hm⟩
  | cons e rest ih =>
    obtain ⟨he, hsteady⟩ := hsteady
    obtain ⟨hne, hrest⟩ := not_or.1 (List.mem_cons.not.1 hcollect)
    have hold' := Nat.lt_of_lt_of_le hold (nextToken_le_step x e)
    obtain ⟨hdated, htraced⟩ := ih (h.step hx hold (Ne.symm hne)) (valid_step hx e) hold' hrest
      hsteady
    -- What is found at the end is late, or stood there after the first event, and then the step
    -- says the same of it.
    refine ⟨hdated, fun m hm => ?_⟩
    rcases htraced m hm with hlt | hm
    · exact .inl hlt
    · exact traced_step hx h.past he hm

/-! ### What is found -/

/-- A node at a place of a live registration that is stamped later than the bound of `Dated` is
    found: it was not told, and neither it nor any node on the way to it is recorded. -/
theorem collects_of_lt (hx : x.Valid) {w : Watch} (hw : w ∈ x.watches)
    (h : x.Dated w.token seen) {p : Place} (hp : p.steps ∈ w.paths) {n : Node}
    (hn : look (some x.store.root) p = some n) (hlt : seen < n.childSerial) :
    w.token ∈ x.collects := by
  obtain ⟨s, htold⟩ := exists_told hx hw hp
  refine (mem_collects_iff hx hw).2 ⟨p, s, hp, htold, fun hs => ?_, fun q hq hv => ?_⟩
  · rw [now, hn] at hs
    exact absurd (h.told p _ htold rfl n.stamp hs) (Nat.not_le_of_lt hlt)
  · obtain ⟨r, rfl⟩ := hq
    rw [Trigger.look_append] at hn
    cases hm : look (some x.store.root) q with
    | none =>
      rw [hm, look_none] at hn
      cases hn
    | some m =>
      rw [hm] at hn hv
      -- A node is stamped no earlier than the nodes beneath it.
      have hroot := hx.store.root.descendant? (look_eq_descendant? hm)
      have hm' : m.RegularTo m.childSerial := ⟨Nat.le_refl _, hroot.2⟩
      have hle : n.childSerial ≤ m.childSerial := (hm'.descendant? (look_eq_descendant? hn)).1
      have hseen : m.childSerial ≤ seen := h.recorded q m.stamp hv
      omega

/-- **Changes since the last collection are found.**  Take a moment of a run after which nothing
    was collected, for instance right after the last collection or the registration of `w`, and let
    `w` have been there at that moment and still be there at the end.  If another node stands at
    one of its places at the end than at that moment, be it new, replaced or changed beneath, then
    the next collection finds `w`.  It does not matter what other registrations came and went, or
    what the trie recorded before.  The requests since then only must not have moved an item of an
    array to a position on the way. -/
theorem collects_of_changed (clock : Clock) (before after : List Event) {w : Watch}
    (hw : w ∈ ((start clock).run before).watches)
    (hw' : w ∈ ((start clock).run (before ++ after)).watches) {p : Place} (hp : p.steps ∈ w.paths)
    (hcollect : .collect ∉ after) (hsteady : ((start clock).run before).Steady p.keys after)
    {n : Node}
    (hn : look (some ((start clock).run (before ++ after)).store.root) p = some n)
    (hne : ((start clock).run before).store.node? p.keys ≠ some n) :
    w.token ∈ ((start clock).run (before ++ after)).collects := by
  have hx := valid_run (valid_start clock) before
  obtain ⟨seen, hdated⟩ := exists_dated_run (dated_start clock w.token) (valid_start clock) before
  obtain ⟨hdated', htraced⟩ := hdated.run hx (hx.bound w hw) hcollect hsteady
  have hrun : ((start clock).run before).run after = (start clock).run (before ++ after) :=
    List.foldl_append.symm
  rw [hrun] at hdated' htraced
  -- The node is another one than before, so it cannot have stood there and must be late.
  have hlt := (htraced n (look_eq_descendant? hn)).resolve_right hne
  exact collects_of_lt (valid_run (valid_start clock) (before ++ after)) hw' hdated' hp hn hlt

theorem visited_run (hcollect : .collect ∉ events) :
    (x.run events).synchronizer.root.visited = x.synchronizer.root.visited := by
  induction events generalizing x with
  | nil => rfl
  | cons e rest ih =>
    obtain ⟨hne, hrest⟩ := not_or.1 (List.mem_cons.not.1 hcollect)
    -- Only a collection records anything at the root, and there is none.
    refine (ih hrest).trans ?_
    cases e with
    | write ops => rfl
    | collect => exact absurd rfl hne
    | remove gone =>
      rw [Event.step, Synchronizer.remove]
      cases x.synchronizer.callback? gone with
      | none => rfl
      | some c => exact Trigger.visited_remove gone _
    | add selector act force =>
      rw [Event.step]
      cases ha : x.synchronizer.add x.store selector (.ofRequests act) force with
      | none => rfl
      | some result =>
        obtain ⟨new, y, s⟩ := result
        obtain ⟨-, hroot, -, -⟩ := added_of_add ha
        show y.root.visited = _
        rw [hroot]
        exact Trigger.visited_place_insertAll _ _ _ _ []

/-- If the tree is now what it was at the last collection, then a collection finds nothing,
    whatever registrations came and went in between. -/
theorem collects_eq_nil (clock : Clock) (before after : List Event) (hcollect : .collect ∉ after)
    (hsame : ((start clock).run (before ++ .collect :: after)).store.root =
      ((start clock).run before).store.root) :
    ((start clock).run (before ++ .collect :: after)).collects = [] := by
  have hrun : (start clock).run (before ++ .collect :: after) =
      (Event.collect.step ((start clock).run before)).run after := by
    rw [run, List.foldl_append]
    rfl
  rw [hrun] at hsame ⊢
  have hvisited := visited_run (x := Event.collect.step ((start clock).run before)) hcollect
  generalize (Event.collect.step ((start clock).run before)).run after = y at hsame hvisited ⊢
  generalize (start clock).run before = x at hsame hvisited
  -- The root was recorded by the collection as it is now, so the visit ends there.
  have hroot : y.synchronizer.root.visited = Sighting.of (some y.store.root) := by
    rw [hvisited, hsame]
    exact Trigger.visited_visit x.synchronizer.root (some x.store.root)
  rw [collects, Synchronizer.collect, Trigger.visit_of_eq hroot.symm]
  rfl

end Lookout

end Observatory

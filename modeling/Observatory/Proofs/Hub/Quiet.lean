import Observatory.Proofs.Hub.Clients
import Observatory.Proofs.Watch.Registration
import Observatory.Proofs.Watch.Visit
import Observatory.Watch.Action

/-!
# When there is nothing left to tell

A commit runs passes as long as the store is marked as changed.  Closing the tick takes the mark
off, before the number of passes is looked at: so a commit that is cut short leaves changes that
no callback has heard of, in a store without a mark, and the next commit takes them for seen.
As long as no commit is cut short, the trie of the watched paths is up to date after each.

* `Store.Marks`: what changes the tree leaves a mark;
* `Synchronizer.Plain`: callbacks that do not take the mark off;
* `Trigger.Rested`: a trie has seen the tree, or there was nothing to see yet;
* `Hub.commit_of_dirty`, `Hub.commit_of_clean`: what a commit makes of a hub;
* `Hub.Tidy`: the invariant of all runs, with `Session.tidy_step`;
* `Session.quiet_run`: when nothing is left to tell, with `Session.unquiet_counted` where
  something is.
-/

namespace Observatory

/-! ### Marks of a change -/

namespace Store

/-- If the tree was changed on the way from the one store to the other, then the other is marked as
    changed, and so it is if the first one was. -/
def Marks (s s' : Store) : Prop := s'.dirty = false → s.dirty = false ∧ s'.root = s.root

variable {s s' : Store}

theorem Marks.refl (s : Store) : s.Marks s := fun h => ⟨h, rfl⟩

theorem Marks.trans {s'' : Store} (h : s.Marks s') (h' : s'.Marks s'') : s.Marks s'' := by
  intro hd
  obtain ⟨hd', hroot'⟩ := h' hd
  obtain ⟨hd'', hroot⟩ := h hd'
  exact ⟨hd'', hroot'.trans hroot⟩

theorem Marks.of_eq (hdirty : s'.dirty = s.dirty) (hroot : s'.root = s.root) : s.Marks s' :=
  fun h => ⟨hdirty.symm.trans h, hroot⟩

theorem marks_openTick (s : Store) : s.Marks s.openTick.2 := by
  rw [openTick]
  split <;> exact .of_eq rfl rfl

/-- `adopt` marks the store if it takes over a new tree. -/
theorem marks_adopt (s : Store) (outcome : Except StoreError (Option Node)) :
    s.Marks (s.adopt outcome).2 := by
  rcases outcome with e | root
  · exact .refl s
  · cases root with
    | none => exact .refl s
    | some root => exact fun h => by cases h

/-- Every request but `endTick` `Marks` what it changes. -/
theorem marks_run (s : Store) {op : Op} (hop : op ≠ .endTick) : s.Marks (op.run s) := by
  -- Whatever goes through `openTick` and `adopt` sets the flag when it changes the tree; the
  -- others change nothing.
  cases op with
  | set path value => exact (marks_openTick s).trans (marks_adopt _ _)
  | remove path =>
    cases path with
    | nil => exact .refl s
    | cons key rest => exact (marks_openTick s).trans (marks_adopt _ _)
  | touch path =>
    rw [Op.run, touch]
    split
    · exact fun h => by cases h
    · exact .refl s
  | endTick => exact absurd rfl hop
  | closeTick => exact .of_eq rfl rfl
  | draw => exact .of_eq rfl rfl
  | snapshot w => exact .of_eq rfl rfl
  | diff w cursor => exact .of_eq rfl rfl

/-- Any number of requests without an `endTick` `Marks` what they change. -/
theorem marks_runAll (s : Store) {ops : List Op} (hops : ∀ op ∈ ops, op ≠ .endTick) :
    s.Marks (s.runAll ops) := by
  rw [runAll]
  induction ops generalizing s with
  | nil => exact .refl s
  | cons op ops ih =>
    obtain ⟨hop, hops⟩ := List.forall_mem_cons.1 hops
    exact (marks_run s hop).trans (ih (op.run s) hops)

end Store

/-! ### Callbacks -/

/-- Whatever the callback changes is marked, so it does not end a tick. -/
def Callback.Plain (c : Callback) : Prop := ∀ (n : Nat) (s : Store), s.Marks (c.act n s).2

theorem Callback.plain_ofRequests {act : Nat → Store → Bool × List Store.Op}
    (h : ∀ n s, ∀ op ∈ (act n s).2, op ≠ .endTick) : (ofRequests act).Plain :=
  fun n s => Store.marks_runAll s (h n s)

namespace Synchronizer

variable {y : Synchronizer} {s : Store}

/-- Whatever a callback of the synchronizer changes is marked. -/
def Plain (y : Synchronizer) : Prop := ∀ p ∈ y.callbacks, p.2.Plain

/-- Calling a `Plain` callback marks what it changes, and leaves the trie alone. -/
theorem Plain.invoke (hy : y.Plain) (token : Token) (s : Store) :
    s.Marks (y.invoke token s).2 ∧ (y.invoke token s).1.Plain ∧
      (y.invoke token s).1.root = y.root := by
  rw [Synchronizer.invoke]
  cases hc : y.callback? token with
  | none => exact ⟨.refl s, hy, rfl⟩
  | some c =>
    have hplain : c.Plain := by
      obtain ⟨p, hp, rfl⟩ := Option.map_eq_some_iff.1 hc
      exact hy p (List.mem_of_find?_eq_some hp)
    refine ⟨hplain c.calls s, fun p hp => ?_, rfl⟩
    obtain ⟨q, hq, rfl⟩ := List.mem_map.1 hp
    split
    · exact hplain
    · exact hy q hq

/-- Calling several `Plain` callbacks marks what they change, and leaves the trie alone. -/
theorem Plain.call (hy : y.Plain) (tokens : List Token) (s : Store) :
    s.Marks (y.call tokens s).2 ∧ (y.call tokens s).1.Plain ∧
      (y.call tokens s).1.root = y.root := by
  rw [Synchronizer.call]
  induction tokens generalizing y s with
  | nil => exact ⟨.refl s, hy, rfl⟩
  | cons token tokens ih =>
    obtain ⟨hmarks, hplain, hroot⟩ := hy.invoke token s
    obtain ⟨hmarks', hplain', hroot'⟩ := ih hplain (y.invoke token s).2
    exact ⟨hmarks.trans hmarks', hplain', hroot'.trans hroot⟩

end Synchronizer

/-! ### What a trie has seen -/

namespace Trigger

variable {t : Trigger} {root : Node}

/-- There is nothing to see: the tree is that of a new store, the root is watched at most as it is,
    and below it nothing was ever seen. -/
structure Unused (t : Trigger) (root : Node) : Prop where
  tree : root = .object (.fresh 0) []
  listeners : ∀ l ∈ t.listeners, l.seen = Sighting.of (some root)
  named : ∀ p ∈ t.named, p.2.visited = none
  instances : ∀ w ∈ t.wildcard, w.2 = []

/-- A visit that finds what was seen there, or nothing to see, hears nobody. -/
def Rested (t : Trigger) (root : Node) : Prop :=
  t.visited = Sighting.of (some root) ∨ t.Unused root

theorem tokens_namedVisits {ns : Dict Trigger} {data : Option Node}
    (hns : ∀ p ∈ ns, p.2.visited = none) (hparts : ∀ key, part data key = none) :
    tokens (namedVisits data ns) = [] := by
  rw [tokens, List.flatMap_eq_nil_iff]
  intro p hp
  obtain ⟨q, hq, rfl⟩ := List.mem_map.1 hp
  have hseen : Sighting.of none = q.2.visited := (hns q hq).symm
  dsimp only
  rw [hparts, visit_of_eq hseen]

theorem notice_eq_nil {current : Sighting} {ls : List Listener}
    (h : ∀ l ∈ ls, l.seen = current) : (notice current ls).2 = [] := by
  rw [notice, List.map_eq_nil_iff, List.filter_eq_nil_iff]
  intro l hl
  simp [h l hl]

theorem Unused.heard (h : t.Unused root) : (visit t (some root)).2 = [] := by
  obtain ⟨ls, ns, w, v⟩ := t
  obtain ⟨rfl, hls, hns, hw⟩ := h
  change ∀ p ∈ ns, _ at hns
  change ∀ l ∈ ls, _ at hls
  by_cases hv : Sighting.of (some (.object (.fresh 0) [])) = v
  · rw [visit_of_eq hv]
  · have hparts : ∀ key, part (some (.object (.fresh 0) [])) key = none := fun _ => rfl
    rcases w with - | ⟨pattern, is⟩
    · rw [visit_mk_none hv, tokens_namedVisits hns hparts, notice_eq_nil hls]
      rfl
    · obtain rfl : is = [] := hw _ rfl
      rw [visit_mk_some hv, tokens_namedVisits hns hparts, notice_eq_nil hls]
      rfl

/-- A visit of a trie that is `Rested` hears nobody. -/
theorem Rested.heard (h : t.Rested root) : (visit t (some root)).2 = [] := by
  rcases h with hv | hunused
  · rw [visit_of_eq hv.symm]
  · exact hunused.heard

/-- After a visit the trie is `Rested`. -/
theorem rested_visit (t : Trigger) (root : Node) : (visit t (some root)).1.Rested root := by
  by_cases hv : Sighting.of (some root) = t.visited
  · rw [visit_of_eq hv]
    exact .inl hv.symm
  · obtain ⟨ls, ns, w, v⟩ := t
    change Sighting.of (some root) ≠ v at hv
    rcases w with - | ⟨pattern, is⟩
    · rw [visit_mk_none hv]
      exact .inl rfl
    · rw [visit_mk_some hv]
      exact .inl rfl

/-- A registration, whose listener has seen the present tree, keeps a trie `Rested`. -/
theorem Rested.insert (h : t.Rested root) (token : Token) (steps : List Step) :
    (insert token steps (some root) t).Rested root := by
  refine h.imp (fun hv => (visited_insert token _ t steps).trans hv) fun hunused => ?_
  obtain ⟨ls, ns, w, v⟩ := t
  obtain ⟨rfl, hls, hns, hw⟩ := hunused
  -- If the trie was not used yet, the new listener is the only one on the way and has seen what is
  -- there.
  rcases steps with - | ⟨key | -, rest⟩
  · refine ⟨rfl, fun l hl => ?_, hns, hw⟩
    rcases List.mem_append.1 hl with hl | hl
    · exact hls l hl
    · rw [List.mem_singleton.1 hl]
  · refine ⟨rfl, hls, fun p hp => ?_, hw⟩
    rcases Dict.mem_keys_insert hp with rfl | hp
    · dsimp only
      rw [visited_insert]
      cases hbranch : Dict.get? ns key with
      | none => rfl
      | some branch => exact hns _ (Dict.mem_of_get? hbranch)
    · exact hns p hp
  · refine ⟨rfl, hls, hns, fun u hu => ?_⟩
    cases hu
    cases w with
    | none => rfl
    | some w =>
      obtain ⟨pattern, is⟩ := w
      obtain rfl : is = [] := hw _ rfl
      rfl

/-- Any number of registrations keeps a trie `Rested`. -/
theorem Rested.insertAll (h : t.Rested root) (token : Token) (paths : List (List Step)) :
    (paths.foldl (fun t steps => t.insert token steps (some root)) t).Rested root := by
  induction paths generalizing t with
  | nil => exact h
  | cons steps paths ih => exact ih (h.insert token steps)

/-- A removal keeps a trie `Rested`. -/
theorem Rested.remove (h : t.Rested root) (token : Token) : (remove token t).Rested root := by
  refine h.imp (fun hv => (visited_remove token t).trans hv) fun hunused => ?_
  obtain ⟨ls, ns, w, v⟩ := t
  obtain ⟨rfl, hls, hns, hw⟩ := hunused
  -- A removal only takes away, so what is left was unused before.
  refine ⟨rfl, fun l hl => ?_, fun p hp => ?_, fun u hu => ?_⟩
  · rw [listeners_remove] at hl
    exact hls l (List.mem_filter.1 hl).1
  · rw [named_remove] at hp
    obtain ⟨branch, hbranch, hkept⟩ := Dict.mem_select.1 hp
    split at hkept
    · cases hkept
    · rw [← Option.some.inj hkept, visited_remove]
      exact hns _ hbranch
  · rw [wildcard_remove] at hu
    obtain ⟨w, rfl, hkept⟩ := Option.bind_eq_some_iff.1 hu
    have hnone : w.2 = [] := hw w rfl
    split at hkept
    · cases hkept
    · rw [← Option.some.inj hkept, hnone]
      rfl

end Trigger

/-! ### Commits -/

namespace Hub

variable {h : Hub}

/-- A collection would find nobody: no callback is left to be told of anything. -/
def Quiet (h : Hub) : Prop := (h.synchronizer.collect h.store).1 = []

/-- The trie of the watched paths rests. -/
def Rested (h : Hub) : Prop := h.synchronizer.root.Rested h.store.root

/-- A hub with a `Rested` trie is `Quiet`. -/
theorem Rested.quiet (hr : h.Rested) : h.Quiet := by
  rw [Quiet, Synchronizer.collect]
  dsimp only
  rw [hr.heard]
  rfl

/-- After a pass the trie is `Rested`, unless a callback has marked the store. -/
theorem rested_pass (store : Store) (hy : h.synchronizer.Plain) :
    (h.synchronizer.run store).2.1.Plain ∧ ((h.synchronizer.run store).2.2.dirty = false →
      (h.synchronizer.run store).2.1.root.Rested (h.synchronizer.run store).2.2.root) := by
  have hrun : h.synchronizer.run store = ((h.synchronizer.collect store).1,
      (h.synchronizer.collect store).2.1.call (h.synchronizer.collect store).1
        (h.synchronizer.collect store).2.2) := rfl
  have hplain : (h.synchronizer.collect store).2.1.Plain := hy
  obtain ⟨hmarks, hplain', hroot⟩ :=
    hplain.call (h.synchronizer.collect store).1 (h.synchronizer.collect store).2.2
  rw [hrun]
  refine ⟨hplain', fun hclean => ?_⟩
  obtain ⟨-, htree⟩ := hmarks hclean
  rw [hroot, htree]
  exact Trigger.rested_visit h.synchronizer.root store.root

/-- `settle` makes no pass if the store is not marked. -/
theorem settle_of_clean (hd : h.store.dirty = false) (limit : Nat) (report : CommitReport) :
    h.settle limit report = ({ h with store := h.store.closeTick }, report) := by
  have hend : h.store.endTick = (false, h.store.closeTick) := by
    rw [Store.endTick, hd, Store.closeTick, ← hd]
  rw [settle, hend]

/-- `settle` makes a pass if the store is marked, unless none is left; the mark is off before it
    finds that out. -/
theorem settle_of_dirty (hd : h.store.dirty = true) (limit : Nat) (report : CommitReport) :
    h.settle limit report =
      match limit with
      | 0 => ({ h with store := h.store.endTick.2 }, { report with truncated := true })
      | limit + 1 =>
        let pass := h.synchronizer.run h.store.endTick.2
        settle limit { h with store := pass.2.2, synchronizer := pass.2.1 }
          { report with passes := report.passes + 1, called := report.called ++ pass.1 } := by
  have hend : h.store.endTick = (true, h.store.endTick.2) := by
    rw [Store.endTick, hd]
  cases limit <;> rw [settle, hend]

theorem plain_settle (hy : h.synchronizer.Plain) (limit : Nat) (report : CommitReport) :
    (h.settle limit report).1.synchronizer.Plain := by
  induction limit generalizing h report with
  | zero =>
    cases hd : h.store.dirty with
    | false => rwa [settle_of_clean hd]
    | true => rwa [settle_of_dirty hd]
  | succ limit ih =>
    cases hd : h.store.dirty with
    | false => rwa [settle_of_clean hd]
    | true =>
      rw [settle_of_dirty hd]
      exact ih (rested_pass _ hy).1 _

/-- If `settle` begins with a mark and is not cut short, then it makes a pass, and after it nothing
    is marked and the trie is `Rested`. -/
theorem rested_settle (hy : h.synchronizer.Plain) (hd : h.store.dirty = true) (limit : Nat)
    (report : CommitReport) (hcomplete : (h.settle limit report).2.truncated = false) :
    report.passes < (h.settle limit report).2.passes ∧ (h.settle limit report).1.Rested ∧
      (h.settle limit report).1.store.dirty = false := by
  -- The last pass is the one that leaves no mark; the induction is on the passes that are left.
  induction limit generalizing h report with
  | zero =>
    rw [settle_of_dirty hd] at hcomplete
    cases hcomplete
  | succ limit ih =>
    rw [settle_of_dirty hd] at hcomplete ⊢
    dsimp only at hcomplete ⊢
    obtain ⟨hplain, hrested⟩ := rested_pass h.store.endTick.2 hy
    cases hclean : (h.synchronizer.run h.store.endTick.2).2.2.dirty with
    | false =>
      rw [settle_of_clean hclean]
      exact ⟨Nat.lt_succ_self _, hrested hclean, hclean⟩
    | true =>
      obtain ⟨hpasses, hrest⟩ := ih hplain hclean _ hcomplete
      exact ⟨Nat.lt_of_succ_lt hpasses, hrest⟩

/-- A commit of a store without a mark makes no pass, is not cut short, and changes neither the
    tree nor the trie. -/
theorem commit_of_clean (hd : h.store.dirty = false) :
    h.commit.2.passes = 0 ∧ h.commit.2.truncated = false ∧
      h.commit.1.synchronizer = h.synchronizer ∧ h.commit.1.store.root = h.store.root ∧
        h.commit.1.store.dirty = false := by
  rw [commit, settle_of_clean hd]
  exact ⟨rfl, rfl, rfl, rfl, hd⟩

/-- A commit of a store with a mark that is not cut short makes a pass, and leaves the trie
    `Rested`. -/
theorem commit_of_dirty (hy : h.synchronizer.Plain) (hd : h.store.dirty = true)
    (hcomplete : h.commit.2.truncated = false) :
    h.commit.2.passes ≠ 0 ∧ h.commit.1.Rested ∧ h.commit.1.store.dirty = false := by
  obtain ⟨hpasses, hrested, hclean⟩ := rested_settle hy hd h.maxPasses {} hcomplete
  exact ⟨Nat.ne_of_gt hpasses, hrested, hclean⟩

theorem plain_commit (hy : h.synchronizer.Plain) : h.commit.1.synchronizer.Plain :=
  plain_settle hy h.maxPasses {}

end Hub

/-! ### Registrations -/

namespace Synchronizer

variable {y y' : Synchronizer} {s s' : Store}

/-- A registration marks what its first call changes, and keeps the trie `Rested`. -/
theorem Plain.add (hy : y.Plain) {selector : Selector} {c : Callback} (hc : c.Plain) {force : Bool}
    {token : Token} (h : y.add s selector c force = some (token, y', s')) :
    s.Marks s' ∧ y'.Plain ∧ (y.root.Rested s.root → y'.root.Rested s.root) := by
  -- The new callback is the last one, and the others are those of before.
  have happend : ∀ c' : Callback, c'.Plain → ∀ p ∈ y.callbacks ++ [(y.nextToken, c')],
      p.2.Plain := fun c' hc' =>
    List.forall_mem_append.2 ⟨hy, List.forall_mem_singleton.2 hc'⟩
  rw [Synchronizer.add] at h
  dsimp only at h
  split at h
  · cases h
  · have hclose : s.Marks s.closeTick := .of_eq rfl rfl
    cases force with
    | true =>
      cases h
      exact ⟨hclose.trans (hc c.calls s.closeTick), happend _ hc, fun hr => hr.insertAll _ _⟩
    | false =>
      cases h
      exact ⟨hclose, happend c hc, fun hr => hr.insertAll _ _⟩

/-- A removal keeps the trie `Rested`. -/
theorem Plain.remove (hy : y.Plain) (token : Token) :
    (y.remove token).2.Plain ∧
      ∀ root, y.root.Rested root → (y.remove token).2.root.Rested root := by
  rw [Synchronizer.remove]
  cases y.callback? token with
  | none => exact ⟨hy, fun _ hr => hr⟩
  | some c => exact ⟨fun p hp => hy p (List.mem_filter.1 hp).1, fun _ hr => hr.remove token⟩

end Synchronizer

/-! ### What is left behind -/

/-- Whether changes are left behind after a commit: if it was cut short, or if it made no pass and
    they were left behind before. -/
def CommitReport.late (before : Bool) (r : CommitReport) : Bool :=
  r.truncated || (r.passes = 0 && before)

namespace Hub

variable {h : Hub} {late : Bool}

/-- The invariant of a run: unless changes were left behind, the trie is `Rested` as long as
    nothing is marked. -/
structure Tidy (h : Hub) (late : Bool) : Prop where
  plain : h.synchronizer.Plain
  rested : late = false → h.store.dirty = false → h.Rested

/-- `Tidy` is kept by what `Marks` its changes. -/
theorem Tidy.marks (ht : h.Tidy late) {store : Store} (hm : h.store.Marks store) :
    Tidy { h with store } late where
  plain := ht.plain
  rested hlate hd := by
    obtain ⟨hclean, hroot⟩ := hm hd
    have hrested := ht.rested hlate hclean
    rwa [Rested, ← hroot] at hrested

/-- A commit keeps `Tidy`, for what its report leaves behind. -/
theorem Tidy.commit (ht : h.Tidy late) : h.commit.1.Tidy (h.commit.2.late late) := by
  refine ⟨plain_commit ht.plain, fun hlate _ => ?_⟩
  cases hd : h.store.dirty with
  | false =>
    obtain ⟨hpasses, htruncated, hsynchronizer, hroot, -⟩ := commit_of_clean hd
    rw [CommitReport.late, hpasses, htruncated] at hlate
    rw [Rested, hsynchronizer, hroot]
    exact ht.rested (by simpa using hlate) hd
  | true =>
    rw [CommitReport.late, Bool.or_eq_false_iff] at hlate
    exact (commit_of_dirty ht.plain hd hlate.1).2.1

/-- After a commit that is not cut short the hub is `Quiet` exactly if the commit made a pass or
    the hub was `Quiet` before. -/
theorem quiet_commit_iff (hy : h.synchronizer.Plain) (hcomplete : h.commit.2.truncated = false) :
    h.commit.1.Quiet ↔ h.commit.2.passes ≠ 0 ∨ h.Quiet := by
  cases hd : h.store.dirty with
  | false =>
    obtain ⟨hpasses, -, hsynchronizer, hroot, -⟩ := commit_of_clean hd
    have hsame : h.commit.1.Quiet ↔ h.Quiet := by
      rw [Quiet, Quiet, Synchronizer.collect, Synchronizer.collect, hsynchronizer, hroot]
    simp [hpasses, hsame]
  | true =>
    obtain ⟨hpasses, hrested, -⟩ := commit_of_dirty hy hd hcomplete
    exact ⟨fun _ => .inl hpasses, fun _ => hrested.quiet⟩

end Hub

/-! ### Sessions -/

namespace Session

/-- Neither the event nor its callback ends a tick on its own. -/
def Event.Plain : Event → Prop
  | write ops | mutate ops => ∀ op ∈ ops, op ≠ .endTick
  | register _ act _ => ∀ n s, ∀ op ∈ (act n s).2, op ≠ .endTick
  | _ => True

/-- The hub that an event commits, if it commits one. -/
def Event.opened? (x : Session) : Event → Option Hub
  | mutate ops => some { x.hub with store := x.hub.store.runAll ops }
  | commit => some x.hub
  | register selector act true =>
    (x.hub.synchronizer.add x.hub.store selector (.ofRequests act) true).map
      fun (_, synchronizer, store) => { x.hub with store, synchronizer }
  | _ => none

/-- The reports of all commits of a run. -/
def reports : Session → List Event → List CommitReport
  | _, [] => []
  | x, e :: events => ((e.opened? x).map fun h => h.commit.2).toList ++ reports (e.step x) events

variable {x : Session} {e : Event} {h : Hub} {late : Bool}

theorem hub_step_of_opened? (ho : e.opened? x = some h) : (e.step x).hub = h.commit.1 := by
  cases e with
  | mutate ops => cases ho; rfl
  | commit => cases ho; rfl
  | register selector act force =>
    cases force with
    | false => cases ho
    | true =>
      obtain ⟨⟨token, y, s⟩, hadd, rfl⟩ := Option.map_eq_some_iff.1 ho
      rw [Event.step, Hub.addSynchronizer, hadd]
      rfl
  | _ => cases ho

/-- A registration keeps `Tidy` before its commit. -/
theorem tidy_add (ht : x.hub.Tidy late) {selector : Selector}
    {act : Nat → Store → Bool × List Store.Op} {force : Bool} {token : Token} {y : Synchronizer}
    {s : Store} (hp : (Event.register selector act force).Plain)
    (hadd : x.hub.synchronizer.add x.hub.store selector (.ofRequests act) force =
      some (token, y, s)) : Hub.Tidy { x.hub with store := s, synchronizer := y } late := by
  obtain ⟨hmarks, hplain, hrested⟩ := ht.plain.add (Callback.plain_ofRequests hp) hadd
  have hkept : Hub.Tidy { x.hub with synchronizer := y } late :=
    ⟨hplain, fun hlate hd => hrested (ht.rested hlate hd)⟩
  exact hkept.marks hmarks

/-- What an event leaves to be committed is `Tidy`. -/
theorem tidy_opened (ht : x.hub.Tidy late) (hp : e.Plain) (ho : e.opened? x = some h) :
    h.Tidy late := by
  cases e with
  | mutate ops => cases ho; exact ht.marks (Store.marks_runAll _ hp)
  | commit => cases ho; exact ht
  | register selector act force =>
    cases force with
    | false => cases ho
    | true =>
      obtain ⟨⟨token, y, s⟩, hadd, rfl⟩ := Option.map_eq_some_iff.1 ho
      exact tidy_add ht hp hadd
  | _ => cases ho

/-- An event without a commit keeps `Tidy`. -/
theorem tidy_unopened (ht : x.hub.Tidy late) (hp : e.Plain) (ho : e.opened? x = none) :
    (e.step x).hub.Tidy late := by
  -- Requests to the store and changes of the trie, but nothing that makes a pass.
  cases e with
  | write ops => exact ht.marks (Store.marks_runAll _ hp)
  | mutate ops => cases ho
  | commit => cases ho
  | register selector act force =>
    rw [Event.step, Hub.addSynchronizer]
    cases hadd : x.hub.synchronizer.add x.hub.store selector (.ofRequests act) force with
    | none => exact ht
    | some result =>
      obtain ⟨token, y, s⟩ := result
      cases force with
      | false => exact tidy_add ht hp hadd
      | true =>
        rw [Event.opened?, hadd] at ho
        cases ho
  | unregister token =>
    obtain ⟨hplain, hrested⟩ := ht.plain.remove token
    exact ⟨hplain, fun hlate hd => hrested _ (ht.rested hlate hd)⟩
  | attach w =>
    have hclosed : Hub.Tidy { x.hub with store := x.hub.store.closeTick } late :=
      ht.marks (.of_eq rfl rfl)
    exact ⟨hclosed.plain, hclosed.rested⟩
  | detach id =>
    rw [Event.step, Hub.detach]
    cases x.hub.replicator.detach? id with
    | none => exact ht
    | some replicator => exact ⟨ht.plain, ht.rested⟩
  | receive id => exact ⟨ht.plain, ht.rested⟩
  | stopListening id => exact ⟨ht.plain, ht.rested⟩

/-- Every event keeps `Tidy`, for what its commit leaves behind. -/
theorem tidy_step (ht : x.hub.Tidy late) (hp : e.Plain) :
    (e.step x).hub.Tidy
      (((e.opened? x).map fun h => h.commit.2).toList.foldl CommitReport.late late) := by
  cases ho : e.opened? x with
  | none => exact tidy_unopened ht hp ho
  | some h =>
    rw [hub_step_of_opened? ho]
    exact (tidy_opened ht hp ho).commit

/-- Every run keeps `Tidy`, for what its commits leave behind. -/
theorem tidy_run (ht : x.hub.Tidy late) {events : List Event} (hp : ∀ e ∈ events, e.Plain) :
    (x.run events).hub.Tidy ((x.reports events).foldl CommitReport.late late) := by
  induction events generalizing x late with
  | nil => exact ht
  | cons e events ih =>
    obtain ⟨he, hp⟩ := List.forall_mem_cons.1 hp
    rw [reports, List.foldl_append]
    exact ih (tidy_step ht he) hp

/-- A new hub is `Tidy` with nothing left behind. -/
theorem tidy_start (clock : Clock) (maxPasses : Nat) : (start clock maxPasses).hub.Tidy false where
  plain := List.forall_mem_nil _
  rested _ _ := .inr ⟨rfl, List.forall_mem_nil _, List.forall_mem_nil _, nofun⟩

/-- **When a commit leaves nothing to tell.**  In every run in which nobody else ends a tick, after
    a commit that is not cut short the hub is `Quiet` exactly if the commit made a pass or the hub
    was `Quiet` before.  It is `Quiet` unless the last commit that had anything to do was cut
    short. -/
theorem quiet_run (clock : Clock) (maxPasses : Nat) (events : List Event) (e : Event) (h : Hub)
    (plain : ∀ a ∈ events ++ [e], a.Plain)
    (opened : e.opened? ((start clock maxPasses).run events) = some h)
    (complete : h.commit.2.truncated = false) :
    (((start clock maxPasses).run (events ++ [e])).hub.Quiet ↔
        h.commit.2.passes ≠ 0 ∨ h.Quiet) ∧
      (((start clock maxPasses).reports (events ++ [e])).foldl CommitReport.late false = false →
        ((start clock maxPasses).run (events ++ [e])).hub.Quiet) := by
  have hbefore := tidy_run (tidy_start clock maxPasses)
    fun a ha => plain a (List.mem_append_left [e] ha)
  have hafter := tidy_run (tidy_start clock maxPasses) plain
  have hopened := tidy_opened hbefore (plain e (by simp)) opened
  have hhub : ((start clock maxPasses).run (events ++ [e])).hub = h.commit.1 := by
    -- The last event ends with the commit, so it leaves the hub that the commit leaves.
    rw [run, List.foldl_append]
    exact hub_step_of_opened? opened
  refine ⟨?_, fun hlate => ?_⟩
  · rw [hhub]
    exact Hub.quiet_commit_iff hopened.plain complete
  · refine (hafter.rested hlate ?_).quiet
    rw [hhub]
    cases hd : h.store.dirty with
    | false => exact (Hub.commit_of_clean hd).2.2.2.2
    | true => exact (Hub.commit_of_dirty hopened.plain hd complete).2.2

/-- A callback that counts the number at `n` up to one. -/
def countToOne (_ : Nat) (s : Store) : Bool × List Store.Op :=
  (true, if Action.count s ["n"] < 1 then [.set ["n"] (.ofScalar (.int 1))] else [])

/-- A run in which a counter that follows itself is set to zero. -/
def counted : List Event :=
  [.register [.key "n"] countToOne false, .mutate [.set ["n"] (.ofScalar (.int 0))]]

theorem plain_counted : ∀ a ∈ counted ++ [.commit], a.Plain := by
  have hcount : (Event.register [.key "n"] countToOne false).Plain := by
    intro n s op hop
    rw [countToOne] at hop
    split at hop
    · rw [List.mem_singleton.1 hop]
      exact nofun
    · cases hop
  have hset : (Event.mutate [.set ["n"] (.ofScalar (.int 0))]).Plain := by
    intro op hop
    rw [List.mem_singleton.1 hop]
    exact nofun
  simp only [counted, List.cons_append, List.nil_append, List.forall_mem_cons]
  exact ⟨hcount, hset, trivial, List.forall_mem_nil _⟩

/-- `quiet_run` for `counted` with enough passes: the next commit is complete and the hub is
    `Quiet`. -/
theorem quiet_counted : ∃ h : Hub, (∀ a ∈ counted ++ [.commit], a.Plain) ∧
    Event.commit.opened? ((start {} 16).run counted) = some h ∧
      h.commit.2.truncated = false ∧
        ((start {} 16).reports (counted ++ [.commit])).foldl CommitReport.late false = false ∧
          ((start {} 16).run (counted ++ [.commit])).hub.Quiet := by
  have hcomplete : ((start {} 16).run counted).hub.commit.2.truncated = false := by decide +kernel
  have hlate : ((start {} 16).reports (counted ++ [.commit])).foldl CommitReport.late false =
      false := by
    decide +kernel
  exact ⟨_, plain_counted, rfl, hcomplete, hlate,
    (quiet_run {} 16 counted .commit _ plain_counted rfl hcomplete).2 hlate⟩

/-- With one pass, the mutation in `counted` is cut short when the counter is at one.  The commit
    after it makes no pass and is not cut short, and still the callback was not told. -/
theorem unquiet_counted : (∀ a ∈ counted ++ [.commit], a.Plain) ∧
    ((start {} 1).reports (counted ++ [.commit])).map CommitReport.truncated = [true, false] ∧
      ¬ ((start {} 1).run (counted ++ [.commit])).hub.Quiet := by
  have hreports : ((start {} 1).reports (counted ++ [.commit])).map CommitReport.truncated =
      [true, false] := by
    decide +kernel
  have hheard : (((start {} 1).run (counted ++ [.commit])).hub.synchronizer.collect
      ((start {} 1).run (counted ++ [.commit])).hub.store).1 = [1] := by
    decide +kernel
  refine ⟨plain_counted, hreports, ?_⟩
  rw [Hub.Quiet, hheard]
  exact nofun

end Session

end Observatory

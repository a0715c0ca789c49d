import Observatory.Proofs.DeviceTree.StateField

/-!
# Vectors that stay

A vector that is there does not go away by itself.  Of all that is written, only three things can
take it away: a deletion of the vector or of its device, the clearing of the whole tree, and an
entry of the message log, if the log has been laid out on the way to the vector.  Definitions and
updates, of this vector or of others, and marks leave it in its place.

* `Node.Change.isSome_descendant?`: a change leaves in place what is not beneath it;
* `Store.contains_put`, `Store.contains_drop`: the same for the writes of a store;
* `Message.Erases`: the messages that may take a vector away;
* `TreeWriter.Holds`: a vector that is there, and no list on the way to its state;
* `TreeWriter.holds_apply`, `TreeWriter.holds_markBusy`: what leaves a vector in its place.
-/

namespace Observatory

/-- Where no list stands along a path, the node at its end stays when something is changed along
    another path `rest`, unless `rest` leads to the node itself or to something above it. -/
theorem Node.Change.isSome_descendant? (c : Change) (serial : Nat) {path rest : List String}
    {n : Node} (hstraight : n.Straight path) (hn : (n.descendant? path).isSome = true)
    (hrest : ¬ rest <+: path) : ((c.apply serial rest n).descendant? path).isSome = true := by
  induction rest generalizing path n with
  | nil => exact absurd List.nil_prefix hrest
  | cons key rest ih =>
    cases path with
    | nil => rfl
    | cons k path =>
      obtain ⟨hflat, hparts⟩ := hstraight
      cases n with
      | scalar s a => cases hn
      | array s items => cases hflat
      | object s children =>
        obtain ⟨s', next, happly, -, hnext⟩ := c.apply_object serial key rest s children
        rw [happly, descendant?, child?, hnext]
        by_cases hkey : key = k
        · -- The change goes on beneath the same key, and does not end there.
          subst hkey
          have hrest' : ¬ rest <+: path := fun h => hrest (List.cons_prefix_cons.2 ⟨rfl, h⟩)
          have hstays : c.takesAway rest = false := by
            rw [← Bool.not_eq_true]
            intro htakes
            obtain ⟨-, rfl⟩ := eq_remove_of_takesAway htakes
            exact hrest' List.nil_prefix
          rw [if_pos rfl]
          cases hchild : Dict.get? children key with
          | none =>
            rw [descendant?, child?, hchild] at hn
            cases hn
          | some m =>
            rw [descendant?, child?, hchild] at hn
            rw [put_some c hstays]
            exact ih (hparts m hchild) hn hrest'
        · rw [if_neg hkey]
          exact hn

namespace Store

variable {s : Store} {path p : List String}

/-- What is put somewhere leaves in place what is not beneath it.  What is put at a path is in
    place there as well. -/
theorem contains_put (hstraight : s.root.Straight path) (hs : s.contains path = true)
    (hp : p = path ∨ ¬ p <+: path) (v : Json) : (s.put p v).2.contains path = true := by
  have hroot : (s.put p v).2.root = (Node.Change.set v).apply s.openTick.1 p s.root :=
    s.root_set p v
  rw [contains, node?, hroot]
  rcases hp with rfl | hp
  · obtain ⟨n, hn⟩ := Option.isSome_iff_exists.1 hs
    have hat := Node.descendant?_apply_append s.openTick.1 v [] hn
    rw [List.append_nil] at hat
    rw [hat]
    rfl
  · exact (Node.Change.set v).isSome_descendant? _ hstraight hs hp

/-- What is dropped somewhere leaves in place what is not beneath it. -/
theorem contains_drop (hstraight : s.root.Straight path) (hs : s.contains path = true)
    (hp : ¬ p <+: path) : (s.drop p).2.contains path = true := by
  have hroot : (s.drop p).2.root = Node.Change.remove.apply s.openTick.1 p s.root :=
    s.root_remove p
  rw [contains, node?, hroot]
  exact Node.Change.remove.isSome_descendant? _ hstraight hs hp

end Store

/-- A message may take a vector away: it deletes the vector or its device, or it leaves an entry in
    the message log while some entry of the log lies at the vector or above it. -/
def Message.Erases (l : Layout) (device name : String) (m : Message) : Prop :=
  (∃ d, m = .delete d ∧ d.device = device ∧ ∀ n, d.name = some n → n = name) ∨
    m.logText?.isSome = true ∧ ∃ uid, l.logEntry uid <+: l.vector device name

namespace TreeWriter

variable {l : Layout} {s : Store} {device name : String}

/-- A vector is there, and no list stands on the way to its state. -/
structure Holds (l : Layout) (device name : String) (s : Store) : Prop where
  straight : s.Says (fun _ => True) (l.state device name)
  present : s.contains (l.vector device name) = true

/-- `Holds` does not depend on ticks and on numbers that are drawn. -/
theorem lasting_holds (l : Layout) (device name : String) :
    Store.Lasting (Holds l device name) where
  closeTick := fun h => ⟨h.straight, h.present⟩
  endTick := fun h => ⟨h.straight, h.present⟩
  draw := fun h => ⟨h.straight, h.present⟩

/-- No list stands on the way to a vector that `Holds`. -/
theorem Holds.straight_vector (h : Holds l device name s) :
    s.root.Straight (l.vector device name) := (Node.says_append.1 h.straight).1

/-- A write at or beneath any vector keeps `Holds`, as long as the value brings no list onto the
    way to a state. -/
theorem Holds.put (h : Holds l device name s) {device' name' : String} {rest : List String}
    {v : Json} (hv : device' = device → name' = name →
      ∀ more, [Layout.stateKey] = rest ++ more → v.Says (fun _ => True) more) :
    Holds l device name (s.put (l.vector device' name' ++ rest) v).2 := by
  refine ⟨says_putVector h.straight hv, Store.contains_put h.straight_vector h.present ?_ v⟩
  -- Vectors lie side by side, so a prefix can only be the vector itself.
  by_cases hpre : l.vector device' name' ++ rest <+: l.vector device name
  · rw [← List.append_nil (l.vector device name)] at hpre
    obtain ⟨rfl, rfl, hrest⟩ := Layout.vector_append_prefix hpre
    rw [List.prefix_nil.1 hrest, List.append_nil]
    exact .inl rfl
  · exact .inr hpre

/-- Dropping what is not above the vector keeps `Holds`. -/
theorem Holds.drop (h : Holds l device name s) {p : List String}
    (hp : ¬ p <+: l.vector device name) : Holds l device name (s.drop p).2 :=
  ⟨Store.says_drop h.straight p, Store.contains_drop h.straight_vector h.present hp⟩

/-- **Vectors stay.** A message keeps `Holds` for a vector, unless it is one that `Erases` it. -/
theorem holds_apply {w : TreeWriter} {m : Message} (h : Holds w.layout device name s)
    (hm : ¬ m.Erases w.layout device name) :
    Holds w.layout device name (w.apply m s).2.2 := by
  rw [apply_eq]
  refine Written.survives_andThen ?_ fun hs => ?_
  · -- The entry of the log is put first, and then the oldest ones are dropped.
    rw [note]
    split
    · exact h
    · next words hwords =>
      have haside : ∀ uid, ¬ w.layout.logEntry uid <+: w.layout.vector device name :=
        fun uid hpre => hm (.inr ⟨by rw [hwords]; rfl, uid, hpre⟩)
      refine survives_appendLog ⟨?_, ?_⟩ fun uid _ hs => hs.drop (haside uid)
      · exact Store.says_put ⟨h.straight.straight, fun _ => h.straight⟩
          fun more => says_logObject _ _ _ _
      · exact Store.contains_put h.straight_vector h.present (.inr (haside w.nextUid)) _
  · refine survives_puts (lasting_holds _ _ _) (fun device' name' rest v hputs s hs => ?_)
      (fun d hd s hs => ?_) hs
    · exact hs.put fun _ _ more hmore => says_of_puts hputs hmore fun _ _ => trivial
    · -- What is deleted is another vector, or another device.
      rw [delete]
      split
      · next name' hname =>
        refine hs.drop fun hpre => hm (.inl ⟨d, hd, ?_⟩)
        rw [← List.append_nil (w.layout.vector d.device name'),
          ← List.append_nil (w.layout.vector device name)] at hpre
        obtain ⟨hdevice, rfl, -⟩ := Layout.vector_append_prefix hpre
        exact ⟨hdevice, fun n hn => Option.some.inj (hn.symm.trans hname)⟩
      · next hname =>
        have hwhole : ∀ n, d.name = some n → n = name := by
          intro n hn
          rw [hname] at hn
          cases hn
        refine hs.drop fun hpre => hm (.inl ⟨d, hd, ?_, hwhole⟩)
        rw [Layout.device, Layout.vector, List.prefix_append_right_inj,
          List.cons_prefix_cons] at hpre
        exact hpre.1

/-- A mark, of this vector or of another, keeps `Holds`. -/
theorem holds_markBusy (h : Holds l device name s) (device' name' : String) :
    Holds l device name (markBusy l device' name' s).2 := by
  refine survives_mark (lasting_holds _ _ _) (fun s hs => ?_) (fun revision s hs => ?_) h
  · refine hs.put fun _ _ more hmore => ?_
    obtain rfl : [] = more := (List.cons.inj hmore).2
    exact fun _ _ => trivial
  · exact hs.put fun _ _ more hmore => absurd (List.cons.inj hmore).1 (by decide)

end TreeWriter

end Observatory

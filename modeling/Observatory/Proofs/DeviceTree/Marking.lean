import Observatory.Proofs.DeviceTree.Lasting
import Observatory.Proofs.Store.Origin

/-!
# Marks and clocks

A vector is marked by two writes, and the second one could be refused and leave the first one
standing alone.  It is not: what takes the one field takes the other.  And whatever a connection
writes to a store, the numbers that are drawn go up.

* `Node.isOk_attempt_append`, `Node.descendant?_apply_append`: a value that is set beneath a node
  is set in that node;
* `Node.isOk_attempt_field`: every node but an array takes a field;
* `TreeWriter.root_markBusy`: a mark that is refused leaves the tree as it is;
* `Store.survives_clock`, `TreeWriter.clock_apply`: no write turns the clock of a store back.
-/

namespace Observatory

/-! ### Fields -/

namespace Node

open Change (attempt apply pass)

variable {serial : Nat} {v : Json} {path rest : List String} {key : String} {n m : Node}

/-- Whether a value can be set beneath a node is decided by that node, if the path leads to it. -/
theorem isOk_attempt_append (hm : n.descendant? path = some m) :
    ((Change.set v).attempt serial (path ++ rest) n).isOk =
      ((Change.set v).attempt serial rest m).isOk := by
  induction path generalizing n with
  | nil =>
    obtain rfl := Option.some.inj hm
    rfl
  | cons k path ih =>
    obtain ⟨child, hc, hm⟩ := Option.bind_eq_some_iff.1 hm
    have hstays : (Change.set v).takesAway (path ++ rest) = false := rfl
    obtain ⟨hold, hpass, -⟩ := Change.attempt_part serial hc hstays
    rw [List.cons_append, hpass, ← ih hm]
    rcases (Change.set v).attempt serial (path ++ rest) child with e | _ | next <;> rfl

/-- A value that is set beneath a node is set in that node, with the same serial. -/
theorem descendant?_apply_append (serial : Nat) (v : Json) (rest : List String)
    (hm : n.descendant? path = some m) :
    ((Change.set v).apply serial (path ++ rest) n).descendant? path =
      some ((Change.set v).apply serial rest m) := by
  induction path generalizing n with
  | nil =>
    obtain rfl := Option.some.inj hm
    rfl
  | cons k path ih =>
    obtain ⟨child, hc, hm⟩ := Option.bind_eq_some_iff.1 hm
    have hstays : (Change.set v).takesAway (path ++ rest) = false := rfl
    rw [List.cons_append, descendant?, (Change.child?_apply hstays hc k).2, if_pos rfl]
    exact ih hm

/-- Every node but an array takes a value under a key that is no index. -/
theorem isOk_attempt_field (hkey : ArrayIndex.parse? key = none) (n : Node) :
    ((Change.set v).attempt serial [key] n).isOk = !n.isArray := by
  -- Scalars become objects, objects get the key or have it, and arrays have no such position.
  cases n with
  | scalar s a => rfl
  | object s children =>
    cases hk : Dict.get? children key with
    | none =>
      rw [Change.attempt_no_child hk]
      rfl
    | some child =>
      rw [Change.attempt_child hk rfl]
      show (pass key _ (.ok (assign serial v child))).isOk = true
      cases assign serial v child <;> rfl
  | array s items =>
    show (setAt serial v [key] (array s items)).isOk = false
    rw [setAt, hkey]
    rfl

/-- A node that took a field is no array. -/
theorem isArray_apply_field (serial : Nat) (v : Json) (key : String) (h : n.isArray = false) :
    ((Change.set v).apply serial [key] n).isArray = false := by
  cases n with
  | scalar s a => rfl
  | object s children =>
    obtain ⟨s', next, happly, -⟩ := (Change.set v).apply_object serial key [] s children
    rw [happly]
    rfl
  | array s items => cases h

end Node

/-! ### Marks -/

namespace TreeWriter

variable {l : Layout} {s : Store} {path : List String} {key : String} {v : Json}

/-- `put` is refused if and only if the change of the tree is. -/
theorem isOk_put (s : Store) (path : List String) (v : Json) : (s.put path v).1.isOk =
    ((Node.Change.set v).attempt s.openTick.1 path s.root).isOk := by
  have hset : (s.put path v).1 =
      (s.openTick.2.adopt (s.openTick.2.root.setAt s.openTick.1 v path)).1.map fun _ => () := rfl
  rw [hset, Store.root_openTick]
  show _ = (s.root.setAt s.openTick.1 v path).isOk
  rcases s.root.setAt s.openTick.1 v path with e | _ | next <;> rfl

/-- A `put` that is refused leaves the tree as it is. -/
theorem root_put_of_error (s : Store) (path : List String) (v : Json)
    (h : (s.put path v).1.isOk = false) : (s.put path v).2.root = s.root := by
  have hroot : (s.put path v).2.root = (Node.Change.set v).apply s.openTick.1 path s.root :=
    s.root_set path v
  rw [isOk_put] at h
  rw [hroot, Node.Change.apply]
  rcases ha : (Node.Change.set v).attempt s.openTick.1 path s.root with e | next
  · rfl
  · rw [ha] at h
    cases h

/-- A node that took one field takes the revision after it. -/
theorem isOk_revise {w : Store} {n : Node} (hn : w.node? path = some n)
    (hkey : ArrayIndex.parse? key = none) (h : (w.put (path ++ [key]) v).1.isOk = true) :
    (revise path (w.put (path ++ [key]) v).2).1.isOk = true := by
  have hroot : (w.put (path ++ [key]) v).2.root =
      (Node.Change.set v).apply w.openTick.1 (path ++ [key]) w.root := w.root_set _ v
  rw [isOk_put, Node.isOk_attempt_append hn, Node.isOk_attempt_field hkey] at h
  have hnext := Node.descendant?_apply_append w.openTick.1 v [key] hn
  rw [← hroot] at hnext
  have harray := Node.isArray_apply_field w.openTick.1 v key ((Bool.not_eq_true' _).mp h)
  show (((w.put (path ++ [key]) v).2.draw.2.put (path ++ [Layout.revisionKey]) _).1).isOk = true
  rw [isOk_put]
  show ((Node.Change.set _).attempt _ _ (w.put (path ++ [key]) v).2.root).isOk = true
  rw [Node.isOk_attempt_append hnext, Node.isOk_attempt_field (by decide), harray]
  rfl

/-- **A mark is all or nothing.** If `markBusy` is refused, the tree is as it was, since the second
    of its writes is not refused once the first was done. -/
theorem root_markBusy (l : Layout) (device vector : String) (s : Store)
    (h : (markBusy l device vector s).1.isOk = false) :
    (markBusy l device vector s).2.root = s.root := by
  rw [markBusy] at h ⊢
  split at h
  · next hcontains =>
    obtain ⟨n, hn⟩ := Option.isSome_iff_exists.1 hcontains
    rw [if_pos hcontains]
    have hkey : ArrayIndex.parse? Layout.stateKey = none := by decide
    have hrevise := isOk_revise (v := .str VectorState.busy.name) hn hkey
    have hput := root_put_of_error s (l.vector device vector ++ [Layout.stateKey])
      (.str VectorState.busy.name)
    generalize s.put (l.vector device vector ++ [Layout.stateKey]) _ = w at h hrevise hput ⊢
    obtain ⟨result, s'⟩ := w
    cases result with
    | error e => exact hput rfl
    | ok _ =>
      -- The first field was taken, and so is the second.
      have hok : (revise (l.vector device vector) s').1.isOk = true := hrevise rfl
      rw [Written.andThen] at h
      rw [hok] at h
      cases h
  · cases h

end TreeWriter

/-! ### Clocks -/

namespace Store

/-- That `n` numbers have been drawn is kept by ticks and by other draws. -/
theorem lasting_clock (n : Nat) : Lasting fun s => n ≤ s.clock.current where
  closeTick := fun h => h
  endTick := fun h => h
  draw := fun h => Nat.le_succ_of_le h

theorem clock_openTick (s : Store) : s.clock.current ≤ s.openTick.2.clock.current := by
  unfold openTick
  split
  · exact Nat.le_refl _
  · exact Nat.le_succ _

theorem clock_adopt (s : Store) (outcome : Except StoreError (Option Node)) :
    (s.adopt outcome).2.clock = s.clock := by
  rcases outcome with e | _ | next <;> rfl

theorem clock_put (s : Store) (path : List String) (v : Json) :
    s.clock.current ≤ (s.put path v).2.clock.current := by
  show _ ≤ (s.openTick.2.adopt _).2.clock.current
  rw [clock_adopt]
  exact s.clock_openTick

theorem clock_drop (s : Store) (path : List String) :
    s.clock.current ≤ (s.drop path).2.clock.current := by
  cases path with
  | nil => exact Nat.le_refl _
  | cons key rest =>
    show _ ≤ (s.openTick.2.adopt _).2.clock.current
    rw [clock_adopt]
    exact s.clock_openTick

/-- That `n` numbers have been drawn is kept by every write. -/
theorem survives_clock (n : Nat) (path : List String) :
    Survives (fun s => n ≤ s.clock.current) path where
  put := fun _ _ _ h => Nat.le_trans h (clock_put _ _ _)
  drop := fun _ h => Nat.le_trans h (clock_drop _ _)

end Store

namespace TreeWriter

variable {w : TreeWriter} {l : Layout} {s : Store}

/-- Writing a message does not turn the clock back. -/
theorem clock_apply (w : TreeWriter) (m : Message) (s : Store) :
    s.clock.current ≤ (w.apply m s).2.2.clock.current := by
  refine survives_apply (Store.lasting_clock s.clock.current) (Store.survives_clock _ _)
    (Store.survives_clock _ _) rfl (fun d _ s' h => ?_) (Nat.le_refl _)
  exact Nat.le_trans (Nat.le_succ_of_le h) (Store.clock_put s'.draw.2 _ _)

/-- Marking a vector does not turn the clock back. -/
theorem clock_markBusy (l : Layout) (device vector : String) (s : Store) :
    s.clock.current ≤ (markBusy l device vector s).2.clock.current := by
  rw [markBusy]
  split
  · refine Written.survives_andThen (I := fun s' => s.clock.current ≤ s'.clock.current)
      (Store.clock_put s _ _) fun {s'} h => ?_
    exact Nat.le_trans (Nat.le_succ_of_le h) (Store.clock_put s'.draw.2 _ _)
  · exact Nat.le_refl _

end TreeWriter

end Observatory

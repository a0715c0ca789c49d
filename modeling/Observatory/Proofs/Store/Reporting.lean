import Observatory.Proofs.Store.Fingerprint
import Observatory.Proofs.Store.Refinement

/-!
# Reported changes

A request says whether it changed anything, and whoever asked decides by that whether others
have to hear of it.  So the report has to be exact: what is reported as nothing, or refused, has
left every stamp of the tree alone, and what is reported as a change has marked every node that
it went through.

* `Node.Change.attempt_step`: one step of a change that came to something;
* `Node.childSerial_of_attempt`: the nodes above the end of the path;
* `Store.Op.reports`: what a request says;
* `Store.Reports`: what the reports of one store are worth;
* `Store.dirty_runAll`: the dirty flag, as the reports since the tick was last ended;
* `Store.reports_runAll`: so it is in every run.
-/

namespace Observatory

namespace Json

/-- Values that are the same have the same parts along every path. -/
theorem sameAt_at? {t u : Json} (h : t.same u = true) (path : List String) :
    SameAt (t.at? path) (u.at? path) := by
  induction path generalizing t u with
  | nil => exact .values h
  | cons key rest ih =>
    rw [at?, at?]
    have hpart := sameAt_part? h key
    generalize t.part? key = a, u.part? key = b at hpart ⊢
    cases hpart with
    | nothing => exact .nothing
    | values h => exact ih h

end Json

namespace Node

section Change

variable {serial : Nat}

/-! ### Values that are there already -/

/-- `assign` changes nothing if the node has the value already, up to `Json.same`. -/
theorem assign_of_same {v : Json} (hv : v.Proper) {n : Node} (hn : n.Regular)
    (h : n.toJson.same v = true) : assign serial v n = none := by
  induction v using Json.partsInduction generalizing n with
  | scalar a =>
    cases n with
    | scalar s b =>
      have hsame : b.same a = true := h
      unfold assign
      exact if_pos hsame
    | object s children => cases h
    | array s items => cases h
  | arr values ih =>
    cases n with
    | scalar s b => cases h
    | object s children => cases h
    | array s items =>
      have hitem := (regular_array.1 hn).2.2
      rw [toJson_array] at h
      have hsame : Json.sameItems (items.map toJson) values = true := h
      have hnone : (assignItems serial items values).2 = false := by
        refine assignItems_snd.2 ⟨?_, fun i u hu m hm => ?_⟩
        · rw [← Json.length_eq_of_same hsame, List.length_map]
        · have hat := Json.sameItems_iff.1 hsame i
          rw [List.getElem?_map, hm, hu] at hat
          have hmem : u ∈ values := List.mem_of_getElem? hu
          cases hat with
          | values hmu => exact ih u hmem ((Json.proper_arr.1 hv).2 u hmem) (hitem i m hm).2 hmu
      unfold assign
      dsimp only
      rw [hnone]
      rfl
  | obj fields ih =>
    cases n with
    | scalar s b => cases h
    | array s items => cases h
    | object s children =>
      obtain ⟨-, hsorted, hchild⟩ := regular_object.1 hn
      obtain ⟨hd, hp⟩ := Json.proper_obj.1 hv
      rw [toJson_object] at h
      -- The same value has the same fields, so each child is looked at with the field under its
      -- key.
      have hat : ∀ key,
          Json.SameAt ((Dict.get? children key).map toJson) (Dict.get? fields key) := by
        intro key
        rw [← Dict.get?_mapValues]
        exact Json.sameAt_get? h key
      -- Every field is that of a child, and every child has a field.
      have hnone : (assignFields serial children fields).2 = false := by
        refine assignFields_snd.2 fun p hmem => ?_
        have hkey := hat p.1
        rw [Dict.get?_of_mem hd.nodup_keys hmem] at hkey
        cases hc : Dict.get? children p.1 with
        | none =>
          rw [hc] at hkey
          cases hkey
        | some child =>
          rw [hc] at hkey
          cases hkey with
          | values hcp => exact ⟨child, rfl, ih p hmem (hp p hmem) (hchild _ child hc).2 hcp⟩
      have hkept : (children.any fun c => !Dict.contains fields c.1) = false := by
        refine List.any_eq_false.2 fun c hc => ?_
        have hkey := (hat c.1).isSome_eq
        rw [Dict.get?_of_mem hsorted.nodup_keys hc] at hkey
        have hfield : (Dict.get? fields c.1).isSome = true := hkey.symm
        simp [Dict.contains, hfield]
      unfold assign
      dsimp only
      rw [hnone, hkept]
      rfl

/-! ### One step of a change -/

namespace Change

variable {c : Change} {key : String} {rest : List String} {n next child : Node}

/-- An attempt beneath a part is passed on by the node, which then has the new part under the key
    and a child serial that covers the change. -/
theorem attempt_part (serial : Nat) (hc : n.child? key = some child)
    (ht : c.takesAway rest = false) :
    ∃ hold : Node → Node,
      c.attempt serial (key :: rest) n = pass key hold (c.attempt serial rest child) ∧
      ∀ next, (hold next).childSerial = max n.childSerial serial ∧
        (hold next).child? key = some next := by
  -- `hold` puts the new part back where the old one was.
  cases n with
  | scalar s a => cases hc
  | object s children =>
    refine ⟨_, attempt_child hc ht, fun next => ⟨rfl, ?_⟩⟩
    rw [child?, Dict.get?_insert, if_pos rfl]
  | array s items =>
    obtain ⟨i, hp, hi⟩ := Option.bind_eq_some_iff.1 hc
    refine ⟨_, attempt_item hp hi ht, fun next => ⟨rfl, ?_⟩⟩
    have hlt : i < items.length := (List.getElem?_eq_some_iff.1 hi).1
    rw [child?, hp, Option.bind_some, List.getElem?_set_self hlt]

/-- If a change that was passed on came to something, then it came to something for the part. -/
theorem eq_of_pass {hold : Node → Node} {outcome : Except StoreError (Option Node)}
    (h : pass key hold outcome = .ok (some next)) :
    ∃ m, outcome = .ok (some m) ∧ next = hold m := by
  rcases outcome with e | _ | m
  · cases h
  · cases h
  · cases h
    exact ⟨m, rfl, rfl⟩

/-- If an attempt under a key without a part comes to something, then it sets a value, and the new
    part is a path to that. -/
theorem attempt_no_part (hc : n.child? key = none)
    (h : c.attempt serial (key :: rest) n = .ok (some next)) :
    (∃ v, c = .set v ∧ next.child? key = some (buildPath serial v rest)) ∧
      (n.childSerial ≤ serial → next.childSerial = serial) := by
  cases n with
  | scalar s a =>
    -- Only `set` makes anything where nothing is.
    cases c with
    | remove => cases h
    | touch => cases h
    | set v =>
      cases h
      refine ⟨⟨v, rfl, ?_⟩, fun _ => rfl⟩
      rw [child?, Dict.get?_cons, if_pos rfl]
  | object s children =>
    rw [attempt_no_child hc] at h
    cases c with
    | remove => cases h
    | touch => cases h
    | set v =>
      cases h
      refine ⟨⟨v, rfl, ?_⟩, fun hle => Nat.max_eq_right hle⟩
      rw [child?, Dict.get?_insert, if_pos rfl, buildPath_eq]
  | array s items =>
    rw [child?] at hc
    cases hp : ArrayIndex.parse? key with
    | none => cases c <;> simp [attempt, setAt, removeAt, touchAt, hp] at h
    | some i =>
      rw [hp, Option.bind_some] at hc
      cases c with
      | remove => simp [attempt, removeAt, hp, hc] at h
      | touch => simp [attempt, touchAt, hp, hc] at h
      | set v =>
        simp only [attempt, setAt, hp, hc] at h
        split at h
        · next hi =>
          cases h
          refine ⟨⟨v, rfl, ?_⟩, fun hle => Nat.max_eq_right hle⟩
          rw [child?, hp, Option.bind_some, hi, List.getElem?_concat_length]
        · cases h

/-- Taking away the part under a key always comes to something. -/
theorem attempt_takesAway (serial : Nat) (hc : n.child? key = some child)
    (ht : c.takesAway rest = true) :
    ∃ next, c.attempt serial (key :: rest) n = .ok (some next) ∧
      next.childSerial = max n.childSerial serial := by
  obtain ⟨rfl, rfl⟩ := eq_remove_of_takesAway ht
  cases n with
  | scalar s a => cases hc
  | object s children => exact ⟨_, attempt_remove_child hc, rfl⟩
  | array s items =>
    obtain ⟨i, hp, hi⟩ := Option.bind_eq_some_iff.1 hc
    exact ⟨_, attempt_remove_item hp hi, rfl⟩

/-- One step of an attempt that came to something: the node has the serial as its child serial, and
    unless its part was taken away, the part is new or was changed by the rest of the path. -/
theorem attempt_step (hn : n.childSerial ≤ serial)
    (h : c.attempt serial (key :: rest) n = .ok (some next)) :
    next.childSerial = serial ∧ (rest = [] ∨ ∃ part, next.child? key = some part ∧
      ((∃ v, part = buildPath serial v rest) ∨
        ∃ child, n.child? key = some child ∧ c.attempt serial rest child = .ok (some part))) := by
  have hmax : max n.childSerial serial = serial := Nat.max_eq_right hn
  cases hc : n.child? key with
  | none =>
    obtain ⟨⟨v, -, hpart⟩, hserial⟩ := attempt_no_part hc h
    exact ⟨hserial hn, .inr ⟨_, hpart, .inl ⟨v, rfl⟩⟩⟩
  | some child =>
    -- If the part is taken away the path ends here, otherwise the rest of it goes on in the part.
    cases ht : c.takesAway rest with
    | true =>
      obtain ⟨m, hm, hserial⟩ := attempt_takesAway serial hc ht
      cases hm.symm.trans h
      exact ⟨hserial.trans hmax, .inl (eq_remove_of_takesAway ht).2⟩
    | false =>
      obtain ⟨hold, hpass, hhold⟩ := attempt_part serial hc ht
      rw [hpass] at h
      obtain ⟨m, hm, rfl⟩ := eq_of_pass h
      exact ⟨(hhold m).1.trans hmax, .inr ⟨m, (hhold m).2, .inr ⟨child, rfl, hm⟩⟩⟩

end Change

/-! ### What a change comes to -/

variable {n next : Node}

/-- Every object of a new path has its serial as child serial. -/
theorem childSerial_of_buildPath (v : Json) (above below : List String) :
    ∃ m, (buildPath serial v (above ++ below)).descendant? above = some m ∧
      m.childSerial = serial := by
  induction above with
  | nil =>
    refine ⟨_, rfl, ?_⟩
    rw [buildPath_eq, childSerial_build]
  | cons key above ih =>
    obtain ⟨m, hm, hserial⟩ := ih
    refine ⟨m, ?_, hserial⟩
    rw [List.cons_append, buildPath, descendant?, child?, Dict.get?_cons, if_pos rfl]
    exact hm

/-- If an attempt came to something, then every node above the end of its path has the serial as
    its child serial. -/
theorem childSerial_of_attempt {c : Change} (hn : n.RegularTo serial) {above below : List String}
    {key : String} (h : c.attempt serial (above ++ key :: below) n = .ok (some next)) :
    ∃ m, next.descendant? above = some m ∧ m.childSerial = serial := by
  induction above generalizing n next with
  | nil => exact ⟨next, rfl, (Change.attempt_step hn.1 h).1⟩
  | cons k above ih =>
    obtain ⟨-, hstep⟩ := Change.attempt_step hn.1 h
    obtain ⟨part, hpart, hfrom⟩ := hstep.resolve_left (by simp)
    rw [descendant?, hpart, Option.bind_some]
    rcases hfrom with ⟨v, rfl⟩ | ⟨child, hc, hchange⟩
    · exact childSerial_of_buildPath v above (key :: below)
    · exact ih (hn.child? hc) hchange

/-- `setAt` changes nothing if the path leads to a node with the value already. -/
theorem setAt_of_same {v : Json} (hv : v.Proper) {path : List String} {m : Node}
    (hn : n.Regular) (hm : n.descendant? path = some m) (h : m.toJson.same v = true) :
    setAt serial v path n = .ok none := by
  induction path generalizing n with
  | nil =>
    cases hm
    exact congrArg Except.ok (assign_of_same hv hn h)
  | cons key rest ih =>
    obtain ⟨child, hc, hrest⟩ := Option.bind_eq_some_iff.1 hm
    have hself : n.RegularTo n.childSerial := ⟨Nat.le_refl _, hn⟩
    have hstays : (Change.set v).takesAway rest = false := rfl
    obtain ⟨hold, hpass, -⟩ := Change.attempt_part serial hc hstays
    rw [Change.attempt, Change.attempt, ih (hself.child? hc).2 hrest] at hpass
    exact hpass

/-- `remove` and `touch` come to something exactly if the path leads to a node. -/
theorem attempt_isSome_iff {c : Change} (hc : ∀ v, c ≠ .set v) {path : List String}
    (hpath : c.takesAway path = false) :
    (∃ next, c.attempt serial path n = .ok (some next)) ↔ (n.descendant? path).isSome := by
  induction path generalizing n with
  | nil =>
    cases c with
    | set v => exact absurd rfl (hc v)
    | remove => cases hpath
    | touch => exact ⟨fun _ => rfl, fun _ => ⟨_, rfl⟩⟩
  | cons key rest ih =>
    rw [descendant?]
    cases hn : n.child? key with
    | none =>
      -- Where there is no part only `set` comes to anything.
      refine iff_of_false ?_ Bool.false_ne_true
      rintro ⟨next, h⟩
      obtain ⟨⟨v, hv, -⟩, -⟩ := Change.attempt_no_part hn h
      exact hc v hv
    | some child =>
      cases ht : c.takesAway rest with
      | true =>
        obtain ⟨rfl, rfl⟩ := Change.eq_remove_of_takesAway ht
        obtain ⟨next, h, -⟩ := Change.attempt_takesAway serial hn ht
        exact iff_of_true ⟨next, h⟩ rfl
      | false =>
        rw [Option.bind_some, ← ih ht]
        obtain ⟨hold, hpass, -⟩ := Change.attempt_part serial hn ht
        rw [hpass]
        constructor
        · rintro ⟨next, h⟩
          obtain ⟨m, hm, -⟩ := Change.eq_of_pass h
          exact ⟨m, hm⟩
        · rintro ⟨m, hm⟩
          rw [hm]
          exact ⟨_, rfl⟩

end Change

end Node

namespace Store

/-! ### Reports -/

/-- Whether an outcome reports a change.  An error does not. -/
def Outcome.changed : Outcome → Bool
  | .ok b => b
  | .error _ => false

/-- Whether a request reports a change of the tree when it is made. -/
def Op.reports (s : Store) : Op → Bool
  | set path v => Outcome.changed (s.set path v.json).1
  | remove path => Outcome.changed (s.remove path).1
  | touch path => (s.touch path).1
  | _ => false

/-- What the reports of one store are worth: what is reported as nothing leaves all nodes and the
    dirty flag alone, and what is reported as a change makes the store dirty and marks the nodes
    above it.  Setting reports a change exactly if the value becomes another one, removing exactly
    if there is something at the path. -/
structure Reports (s : Store) : Prop where
  /-- A change that is refused, or reported as none, leaves all nodes alone with all their
      stamps, and the dirty flag. -/
  still : ∀ op change, Op.change? op = some change → op.reports s = false →
    (op.run s).root = s.root ∧ (op.run s).dirty = s.dirty
  /-- Setting reports a change exactly if the whole value is another one afterwards. -/
  set : ∀ path (v : Document), (s.set path v.json).1 = .ok true ↔
    s.value.same (s.set path v.json).2.value = false
  /-- Removing reports a change exactly if the path leads to a node. -/
  remove : ∀ key rest, (s.remove (key :: rest)).1 = .ok true ↔ s.contains (key :: rest) = true
  /-- A change that is reported makes the store dirty and marks every node above the end of the
      path with the serial of the tick. -/
  marks : ∀ op change path, Op.change? op = some (change, path) → op.reports s = true →
    (op.run s).dirty = true ∧ ∃ t, (op.run s).tick = some t ∧
      ∀ above key below, path = above ++ key :: below →
        ∃ n, (op.run s).node? above = some n ∧ n.childSerial = t

section Reports

variable {s : Store} {op : Op}

theorem changed_eq_true_iff {o : Outcome} : o.changed = true ↔ o = .ok true := by
  rcases o with e | b
  · simp [Outcome.changed]
  · simp [Outcome.changed]

/-- `adopt` reports a change exactly if the attempt came to a new tree. -/
theorem changed_adopt {outcome : Except StoreError (Option Node)} :
    Outcome.changed (s.adopt outcome).1 = true ↔ ∃ next, outcome = .ok (some next) := by
  rcases outcome with e | _ | next
  · simp [adopt, Outcome.changed]
  · simp [adopt, Outcome.changed]
  · simp [adopt, Outcome.changed]

/-- `adopt` makes the store dirty exactly if it reports a change. -/
theorem dirty_adopt (outcome : Except StoreError (Option Node)) :
    (s.adopt outcome).2.dirty = (s.dirty || Outcome.changed (s.adopt outcome).1) := by
  rcases outcome with e | _ | next
  · exact (Bool.or_false _).symm
  · exact (Bool.or_false _).symm
  · exact (Bool.or_true _).symm

theorem dirty_openTick (s : Store) : s.openTick.2.dirty = s.dirty := by
  unfold openTick
  split <;> rfl

/-- A request reports a change exactly if its attempt came to a new tree. -/
theorem reports_iff {c : Node.Change} {path : List String} (h : op.change? = some (c, path)) :
    op.reports s = true ↔ ∃ next, c.attempt s.openTick.1 path s.root = .ok (some next) := by
  -- `remove` of the root is refused, and `touch` looks for the node first; otherwise both sides
  -- test the attempt.
  cases op with
  | set q v =>
    cases h
    show Outcome.changed (s.openTick.2.adopt (s.openTick.2.root.setAt _ v.json path)).1 = true ↔ _
    rw [changed_adopt, root_openTick]
    rfl
  | remove q =>
    cases h
    cases path with
    | nil =>
      refine iff_of_false Bool.false_ne_true ?_
      rintro ⟨next, hnext⟩
      cases hnext
    | cons key rest =>
      show Outcome.changed (s.openTick.2.adopt (s.openTick.2.root.removeAt _ (key :: rest))).1 =
        true ↔ _
      rw [changed_adopt, root_openTick]
      rfl
  | touch q =>
    cases h
    rw [Node.attempt_isSome_iff (c := .touch) (by rintro _ ⟨⟩) rfl, Op.reports, touch]
    show _ ↔ s.contains path = true
    split
    · next hp => exact iff_of_true rfl hp
    · next hp => exact iff_of_false Bool.false_ne_true hp
  | _ => cases h

/-- After any request but `endTick`, the store is dirty if it was or if the request reports a
    change. -/
theorem dirty_run (s : Store) (hop : op ≠ .endTick) :
    (op.run s).dirty = (s.dirty || op.reports s) := by
  cases op with
  | set path v => exact (dirty_adopt _).trans (congrArg (· || _) s.dirty_openTick)
  | remove path =>
    cases path with
    | nil => exact (Bool.or_false _).symm
    | cons key rest => exact (dirty_adopt _).trans (congrArg (· || _) s.dirty_openTick)
  | touch path =>
    rw [Op.run, Op.reports, touch]
    split
    · exact (Bool.or_true _).symm
    · exact (Bool.or_false _).symm
  | endTick => exact absurd rfl hop
  | _ => exact (Bool.or_false _).symm

/-- A request that reports no change leaves the tree as it is, stamps included. -/
theorem root_run_of_not_reports (h : op.reports s = false) : (op.run s).root = s.root := by
  rw [root_run]
  split
  · next c path hc =>
    have hnone : ¬ ∃ next, c.attempt s.openTick.1 path s.root = .ok (some next) := by
      rw [← reports_iff hc, h]
      exact Bool.false_ne_true
    rw [Node.Change.apply]
    rcases ho : c.attempt s.openTick.1 path s.root with e | _ | next
    · rfl
    · rfl
    · exact absurd ⟨next, ho⟩ hnone
  · rfl

/-- A request that reports a change is made at the serial of `openTick`. -/
theorem serial?_of_reports (h : op.reports s = true) : op.serial? s = some s.openTick.1 := by
  cases op with
  | set path v => rfl
  | remove path =>
    cases path with
    | nil => cases h
    | cons key rest => rfl
  | touch path =>
    rw [Op.reports, touch] at h
    split at h
    · next hp => exact if_pos hp
    · cases h
  | _ => cases h

/-- Setting the value that is there already reports no change. -/
theorem Valid.set_of_same (hs : s.Valid) {path : List String} {v : Document}
    (h : Json.SameAt (s.get? path) (some v.json)) : Op.reports s (.set path v) = false := by
  obtain ⟨n, hn, hsame⟩ : ∃ n, s.root.descendant? path = some n ∧ n.toJson.same v.json = true := by
    rw [get?] at h
    cases hn : s.node? path with
    | none =>
      rw [hn] at h
      cases h
    | some n =>
      rw [hn] at h
      cases h with
      | values h => exact ⟨n, hn, h⟩
  -- Setting an equal value is an attempt that comes to nothing.
  have hstill : s.root.setAt s.openTick.1 v.json path = .ok none :=
    Node.setAt_of_same v.proper hs.root.2 hn hsame
  rw [← Bool.not_eq_true, reports_iff rfl]
  rintro ⟨next, hnext⟩
  cases hstill.symm.trans hnext

/-- Setting reports a change exactly if the value of the whole store becomes another one. -/
theorem Valid.reports_set_iff (hs : s.Valid) (path : List String) (v : Document) :
    Op.reports s (.set path v) = true ↔ s.value.same (s.set path v.json).2.value = false := by
  constructor
  · intro h
    cases hsame : s.value.same (s.set path v.json).2.value with
    | false => rfl
    | true =>
      -- With the same value as a whole, the value was there before.
      have hwritten := hs.refines.written path v true (changed_eq_true_iff.1 h)
      have hat := Json.sameAt_at? hsame path
      rw [get?_eq] at hwritten
      have hbefore : Json.SameAt (s.value.at? path) (some v.json) := by
        generalize s.value.at? path = a, (s.set path v.json).2.value.at? path = b at hat hwritten
        cases hwritten with
        | values hv =>
          cases hat with
          | values hu => exact .values (Json.same_trans hu hv)
      rw [← get?_eq] at hbefore
      rw [hs.set_of_same hbefore] at h
      cases h
  · intro h
    cases hreports : Op.reports s (.set path v) with
    | true => rfl
    | false =>
      have hroot : (s.set path v.json).2.root = s.root := root_run_of_not_reports hreports
      rw [value, value, hroot, Json.same_refl] at h
      cases h

/-- A `Valid` store satisfies `Reports`. -/
theorem Valid.reports (hs : s.Valid) : s.Reports where
  still := by
    intro op change hop h
    have hend : op ≠ .endTick := by
      rintro rfl
      cases hop
    refine ⟨root_run_of_not_reports h, ?_⟩
    rw [dirty_run s hend, h, Bool.or_false]
  set := by
    intro path v
    rw [← changed_eq_true_iff]
    exact hs.reports_set_iff path v
  remove := by
    intro key rest
    rw [← changed_eq_true_iff]
    show Op.reports s (.remove (key :: rest)) = true ↔ _
    rw [reports_iff rfl]
    exact Node.attempt_isSome_iff (c := .remove) (by rintro _ ⟨⟩) rfl
  marks := by
    intro op change path hop h
    have hend : op ≠ .endTick := by
      rintro rfl
      cases hop
    obtain ⟨next, hnext⟩ := (reports_iff hop).1 h
    -- The new root is the one that the attempt came to, and all nodes on the way have its serial.
    have hroot : (op.run s).root = next := by
      rw [root_run, hop]
      dsimp only
      rw [Node.Change.apply, hnext]
      rfl
    refine ⟨?_, _, (tick_run_of_serial? (serial?_of_reports h)).2, ?_⟩
    · rw [dirty_run s hend, h, Bool.or_true]
    · rintro above key below rfl
      rw [node?, hroot]
      exact Node.childSerial_of_attempt hs.regularTo_openTick hnext

/-! ### Ticks -/

end Reports

end Store

end Observatory

import Observatory.Proofs.DeviceTree.Marking

/-!
# Trails of changes

A writer changes a store step by step, each step at the end of an open path.  What a sequence of
such steps leaves alone is told by the paths at which they were made: everything that lies on
another branch keeps its node, stamps included.

* `Forks`: paths on different branches;
* `Node.descendant?_apply_forks`: a change of the tree leaves other branches alone;
* `Json.Dated`: values in which no number is ahead of a clock;
* `Store.Rewrites`: one step, and `Store.rewrites_put`, `Store.rewrites_drop`;
* `Store.Trail`: some steps at certain paths;
* `Store.Trail.node?_eq`, `Store.Trail.dated`: what they leave alone.
-/

namespace Observatory

/-! ### Branches -/

/-- Neither of the two paths is a prefix of the other. -/
def Forks (p q : List String) : Prop := ¬ p <+: q ∧ ¬ q <+: p

section Forks

variable {p q rest : List String} {key k : String}

theorem Forks.symm (h : Forks p q) : Forks q p := ⟨h.2, h.1⟩

theorem not_forks_nil : ¬ Forks [] q := fun h => h.1 List.nil_prefix

theorem not_forks_nil_right : ¬ Forks p [] := fun h => h.2 List.nil_prefix

theorem forks_cons (key : String) : Forks (key :: p) (key :: q) ↔ Forks p q := by
  simp [Forks]

theorem forks_append (path : List String) : Forks (path ++ p) (path ++ q) ↔ Forks p q := by
  rw [Forks, Forks, List.prefix_append_right_inj, List.prefix_append_right_inj]

/-- What goes on from one of two paths that fork, forks from the other. -/
theorem Forks.extend {p' : List String} (h : Forks p q) (hp : p <+: p') : Forks p' q := by
  refine ⟨fun hq => h.1 (hp.trans hq), fun hq => ?_⟩
  rcases List.prefix_or_prefix_of_prefix hp hq with hpq | hqp
  · exact h.1 hpq
  · exact h.2 hqp

end Forks

/-- `nest` along a path makes nothing at paths that fork from it. -/
theorem Json.at?_nest_forks (v : Json) {path q : List String} (h : Forks path q) :
    (Json.nest path v).at? q = none := by
  induction path generalizing q with
  | nil => exact absurd h not_forks_nil
  | cons key path ih =>
    cases q with
    | nil => exact absurd h not_forks_nil_right
    | cons k q =>
      rw [Json.nest, Json.at?, Json.part?, Dict.get?_cons]
      split
      · next hk =>
        subst hk
        exact ih ((forks_cons key).1 h)
      · rfl

/-- **A change at the end of an open path leaves the nodes at all paths that fork from it**, stamps
    included.  The induction is on the path of the change, with both paths consumed together. -/
theorem Node.descendant?_apply_forks (c : Node.Change) (serial : Nat) {path q : List String}
    {n : Node} (hopen : Json.Open path n.toJson) (h : Forks path q) :
    (c.apply serial path n).descendant? q = n.descendant? q := by
  induction path generalizing n q with
  | nil => exact absurd h not_forks_nil
  | cons key path ih =>
    cases q with
    | nil => exact absurd h not_forks_nil_right
    | cons k q =>
      obtain ⟨fields, hobj, hrest⟩ := hopen
      cases n with
      | scalar s a => cases hobj
      | array s items => cases hobj
      | object s children =>
        obtain ⟨s', next, happly, -, hnext⟩ := c.apply_object serial key path s children
        rw [happly, Node.descendant?, Node.descendant?, Node.child?, Node.child?, hnext]
        split
        · next hk =>
          subst hk
          rw [forks_cons] at h
          cases hchild : Dict.get? children key with
          | some child =>
            have hstays : c.takesAway path = false := by
              cases path with
              | nil => exact absurd h not_forks_nil
              | cons => cases c <;> rfl
            have hvalue : Dict.get? fields key = some child.toJson := by
              have hpart := Node.toJson_child? (.object s children) key
              rw [hobj] at hpart
              exact hpart.trans (congrArg (Option.map Node.toJson) hchild)
            rw [c.put_some hstays]
            exact ih (hrest _ hvalue) h
          | none =>
            -- What is made along the path is not on the other branch.
            cases c with
            | set v =>
              have hnone := Json.at?_nest_forks v h
              rw [← Node.toJson_build serial (Json.nest path v), Node.toJson_descendant?,
                Option.map_eq_none_iff] at hnone
              exact hnone
            | remove => rfl
            | touch => rfl
        · rfl

/-! ### Numbers -/

/-- The scalar is a text, or a number no greater than `now`. -/
def Scalar.Dated (now : Nat) (a : Scalar) : Prop :=
  (∃ text, a = .str text) ∨ ∃ n : Nat, n ≤ now ∧ a = .int n

theorem Scalar.Dated.mono {now later : Nat} {a : Scalar} (h : a.Dated now) (hle : now ≤ later) :
    a.Dated later := by
  rcases h with h | ⟨n, hn, rfl⟩
  · exact .inl h
  · exact .inr ⟨n, Nat.le_trans hn hle, rfl⟩

namespace Json

/-- A value of texts and of numbers that were drawn by then. -/
def Dated (now : Nat) (v : Json) : Prop :=
  ∀ path a, v.at? path = some (.scalar a) → a.Dated now

section Dated

variable {now : Nat} {v : Json} {o o' : Option Json} {path q : List String} {a : Scalar}

theorem dated_scalar (h : a.Dated now) : (scalar a).Dated now := by
  intro path b hb
  cases path with
  | nil =>
    cases hb
    exact h
  | cons key rest => cases hb

theorem dated_str (now : Nat) (text : String) : (str text).Dated now :=
  dated_scalar (.inl ⟨text, rfl⟩)

theorem dated_nat {n : Nat} (h : n ≤ now) : (nat n).Dated now := dated_scalar (.inr ⟨n, h, rfl⟩)

theorem dated_arr {items : List Json} (h : ∀ v ∈ items, v.Dated now) : (arr items).Dated now := by
  intro path a ha
  cases path with
  | nil => cases ha
  | cons key rest =>
    obtain ⟨u, hu, hrest⟩ := Option.bind_eq_some_iff.1 ha
    obtain ⟨i, -, hi⟩ := Option.bind_eq_some_iff.1 hu
    exact h u (List.mem_of_getElem? hi) rest a hrest

/-- An object made of dated values is dated. -/
theorem dated_ofPairs {pairs : List (String × Json)} (h : ∀ p ∈ pairs, p.2.Dated now) :
    (obj (Dict.ofPairs pairs)).Dated now := by
  intro path a ha
  cases path with
  | nil => cases ha
  | cons key rest =>
    obtain ⟨u, hu, hrest⟩ := Option.bind_eq_some_iff.1 ha
    have hlast : Dict.last? pairs key = some u :=
      (Dict.get?_ofPairs_eq_last? pairs key).symm.trans hu
    exact h _ (Dict.mem_of_last? hlast) rest a hrest

/-- A scalar that is read after `alter` was there before, or is in the new value. -/
theorem scalar_of_alter (h : OpenIn path o)
    (hread : read q (alter (fun _ => o') path o) = some (.scalar a)) :
    read q o = some (.scalar a) ∨ ∃ rest, read rest o' = some (.scalar a) := by
  by_cases hp : path <+: q
  · obtain ⟨rest, rfl⟩ := hp
    rw [read_append, read_alter h] at hread
    exact .inr ⟨rest, hread⟩
  · by_cases hq : q <+: path
    · -- The path stays open, so there is an object.
      have hopen := h.alter (f := fun _ => o') h fun _ => rfl
      obtain ⟨rest, rfl⟩ := hq
      cases rest with
      | nil => exact absurd ⟨[], by simp⟩ hp
      | cons key rest =>
        obtain ⟨fields, hobj⟩ := (openIn_cons.1 (openIn_append.1 hopen).2).1 _ hread
        cases hobj
    · rw [read_alter_beside h hp hq] at hread
      exact .inl hread

end Dated

end Json

theorem Written.eq_done {w : Written} (h : w.1 = .ok ()) : w = (.ok (), w.2) := Prod.ext h rfl

namespace Store

/-- A store of texts and of numbers that were drawn by now. -/
def Dated (s : Store) : Prop := s.value.Dated s.clock.current

/-! ### Steps -/

/-- `s'` is `s` with `o` in place of what was at the end of an open path.  Nodes at paths that fork
    are as they were, and the clock has not gone back. -/
structure Rewrites (path : List String) (o : Option Json) (s s' : Store) : Prop where
  valid : s'.Valid
  open_path : Json.Open path s.value
  value : Json.alter (fun _ => o) path (some s.value) = some s'.value
  aside : ∀ q, Forks path q → s'.node? q = s.node? q
  clock : s.clock.current ≤ s'.clock.current

section Rewrites

variable {s s' : Store} {path q : List String} {v : Json} {o : Option Json}

/-- `put` along an open path is not refused, and rewrites what was there. -/
theorem rewrites_put (hs : s.Valid) (hv : v.Firm) (h : Json.Open path s.value) :
    (s.put path v).1 = .ok () ∧ Rewrites path (some v) s (s.put path v).2 := by
  obtain ⟨s', hput, hs', halter⟩ := put_open hs hv h
  have hclock := clock_put s path v
  have hroot : (s.put path v).2.root = (Node.Change.set v).apply s.openTick.1 path s.root :=
    s.root_set path v
  rw [hput] at hclock hroot ⊢
  refine ⟨rfl, hs', h, halter, fun q hq => ?_, hclock⟩
  rw [node?, hroot]
  exact Node.descendant?_apply_forks _ _ h hq

/-- `drop` along an open path is not refused, and takes away what was there. -/
theorem rewrites_drop (hs : s.Valid) (hne : path ≠ []) (h : Json.Open path s.value) :
    (s.drop path).1 = .ok () ∧ Rewrites path none s (s.drop path).2 := by
  obtain ⟨s', hdrop, hs', halter⟩ := drop_open hs hne h
  have hclock := clock_drop s path
  have hroot : (s.drop path).2.root = Node.Change.remove.apply s.openTick.1 path s.root :=
    s.root_remove path
  rw [hdrop] at hclock hroot ⊢
  refine ⟨rfl, hs', h, halter, fun q hq => ?_, hclock⟩
  rw [node?, hroot]
  exact Node.descendant?_apply_forks _ _ h hq

theorem Rewrites.openIn (h : Rewrites path o s s') : Json.OpenIn path (some s.value) :=
  fun _ ht => Option.some.inj ht ▸ h.open_path

/-- What is read at or beneath the path that was rewritten. -/
theorem Rewrites.get?_append (h : Rewrites path o s s') (rest : List String) :
    s'.get? (path ++ rest) = Json.read rest o := by
  have hread := Json.read_alter (f := fun _ => o) h.openIn
  rw [h.value] at hread
  rw [get?_eq]
  show Json.read (path ++ rest) (some s'.value) = _
  rw [Json.read_append, hread]

/-- What is read at the path that was rewritten. -/
theorem Rewrites.get?_self (h : Rewrites path o s s') : s'.get? path = o := by
  have hread := h.get?_append []
  rwa [List.append_nil, Json.read_nil] at hread

/-- What was there stays, unless it is at or beneath the path that was rewritten. -/
theorem Rewrites.contains (h : Rewrites path o s s') (hq : ¬ path <+: q)
    (hcontains : s.contains q = true) : s'.contains q = true := by
  -- On the way to the path there is still something, since something else is beneath it or was.
  by_cases hpre : q <+: path
  · obtain ⟨rest, rfl⟩ := hpre
    have hsome : (Json.read q (Json.alter (fun _ => o) (q ++ rest) (some s.value))).isSome := by
      rw [Json.alter_append, Json.read_alter (Json.openIn_append.1 h.openIn).1]
      rw [contains_eq] at hcontains
      obtain ⟨t, ht⟩ := Option.isSome_iff_exists.1 hcontains
      rw [show Json.read q (some s.value) = some t from ht]
      cases rest with
      | nil => exact absurd ⟨[], by simp⟩ hq
      | cons key rest =>
        rw [Json.alter]
        split <;> rfl
    rw [h.value] at hsome
    rw [contains_eq]
    exact hsome
  · rw [Store.contains, h.aside q ⟨hq, hpre⟩]
    exact hcontains

/-- What is there after a `drop` was there before. -/
theorem Rewrites.contains_of_drop (h : Rewrites path none s s') (hcontains : s'.contains q = true) :
    s.contains q = true := by
  -- Beneath the path nothing is left, above it nothing new can be, and beside it all is as before.
  by_cases hp : path <+: q
  · obtain ⟨rest, rfl⟩ := hp
    have hread := h.get?_append rest
    rw [Store.get?_eq] at hread
    rw [contains_eq, hread] at hcontains
    cases hcontains
  · by_cases hq : q <+: path
    · obtain ⟨rest, rfl⟩ := hq
      have hread := h.value
      rw [Json.alter_append] at hread
      have hat := Json.read_alter (f := Json.alter (fun _ => none) rest)
        (Json.openIn_append.1 h.openIn).1
      rw [hread] at hat
      rw [contains_eq] at hcontains ⊢
      rw [show s'.value.at? q = _ from hat] at hcontains
      show (Json.read q (some s.value)).isSome = true
      cases ho : Json.read q (some s.value) with
      | some t => rfl
      | none =>
        rw [ho, Json.alter_none] at hcontains
        exact hcontains
    · rw [Store.contains, h.aside q ⟨hp, hq⟩] at hcontains
      exact hcontains

end Rewrites

/-! ### Trails -/

/-- `Trail F s t`: the store `t` comes from `s` by rewriting at paths that satisfy `F`.  Ticks may
    end in between, and no number that is written is ahead of the clock. -/
inductive Trail (F : List String → Prop) (s : Store) : Store → Prop
  | stay : Trail F s s
  | idle {t u : Store} (h : Trail F s t) (hroot : u.root = t.root)
      (hclock : t.clock.current ≤ u.clock.current) : Trail F s u
  | write {t u : Store} {path : List String} {o : Option Json} (h : Trail F s t) (hpath : F path)
      (hwrites : Rewrites path o t u) (hdated : ∀ v, o = some v → v.Dated u.clock.current) :
      Trail F s u

namespace Trail

variable {F G : List String → Prop} {s t u : Store} {q : List String}

/-- A single rewriting is a trail. -/
theorem one {path : List String} {o : Option Json} (hpath : F path) (hwrites : Rewrites path o s t)
    (hdated : ∀ v, o = some v → v.Dated t.clock.current) : Trail F s t :=
  .write .stay hpath hwrites hdated

/-- A single `drop` is a trail. -/
theorem dropped {path : List String} (hpath : F path) (hwrites : Rewrites path none s t) :
    Trail F s t :=
  one hpath hwrites fun _ hnone => absurd hnone (Option.some_ne_none _).symm

theorem trans (h : Trail F s t) (h' : Trail F t u) : Trail F s u := by
  induction h' with
  | stay => exact h
  | idle _ hroot hclock ih => exact .idle ih hroot hclock
  | write _ hpath hwrites hdated ih => exact .write ih hpath hwrites hdated

theorem mono (h : Trail F s t) (hFG : ∀ p, F p → G p) : Trail G s t := by
  induction h with
  | stay => exact .stay
  | idle _ hroot hclock ih => exact .idle ih hroot hclock
  | write _ hpath hwrites hdated ih => exact .write ih (hFG _ hpath) hwrites hdated

/-- Drawing a number is a trail at no path. -/
theorem draw (F : List String → Prop) (s : Store) : Trail F s s.draw.2 :=
  .idle .stay rfl (Nat.le_succ _)

/-- **A trail leaves alone what lies aside.** A path that forks from all paths of the trail keeps
    its node. -/
theorem node?_eq (h : Trail F s t) (hq : ∀ p, F p → Forks p q) : t.node? q = s.node? q := by
  induction h with
  | stay => rfl
  | idle _ hroot _ ih => exact (congrArg (fun n => n.descendant? q) hroot).trans ih
  | write _ hpath hwrites _ ih => exact (hwrites.aside q (hq _ hpath)).trans ih

/-- The clock does not go back along a trail. -/
theorem clock (h : Trail F s t) : s.clock.current ≤ t.clock.current := by
  induction h with
  | stay => exact Nat.le_refl _
  | idle _ _ hclock ih => exact Nat.le_trans ih hclock
  | write _ _ hwrites _ ih => exact Nat.le_trans ih hwrites.clock

/-- If all numbers in the store were drawn from its clock, that is so at the end of a trail. -/
theorem dated (h : Trail F s t) (hs : s.Dated) : t.Dated := by
  induction h with
  | stay => exact hs
  | idle _ hroot hclock ih =>
    intro path a ha
    rw [value, hroot] at ha
    exact (ih path a ha).mono hclock
  | @write t u _ _ _ _ hwrites hdated ih =>
    intro path a ha
    have hread : Json.read path (some u.value) = some (.scalar a) := ha
    rw [← hwrites.value] at hread
    rcases Json.scalar_of_alter hwrites.openIn hread with hold | ⟨rest, hnew⟩
    · exact (ih path a hold).mono hwrites.clock
    · obtain ⟨v, rfl, hv⟩ := Option.bind_eq_some_iff.1 hnew
      exact hdated v rfl rest a hv

end Trail

end Store

end Observatory

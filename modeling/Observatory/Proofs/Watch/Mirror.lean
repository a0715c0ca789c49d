import Observatory.Proofs.Watch.Shape

/-!
# Instances and keys

A trie mirrors some data if every wildcard has an instance for each key that is there and for
no other key.  A visit makes the instances of a wildcard anew whenever it comes to it; what it
passes over stays as it was.  So all instances are right after a visit if those beneath the
places that it passed over were right before.  Registrations and removals keep a mirror, since
a registration makes an instance for every key and a removal drops whole wildcards only.

* `Trigger.Stands`, `Trigger.Mirrors`: places that go down existing instances, and tries whose
  instances are the keys of the data;
* `Trigger.Arrives`, `Trigger.PassedOver`: where a visit comes to, and what it passes over;
* `Trigger.place_visit_of_passedOver`, `Trigger.mirrorsAt_visit`, `Trigger.mirrors_visit`: the
  instances after a visit;
* `Trigger.Mirrors.insert`, `Trigger.Mirrors.remove`: mirrors that are kept;
* `Trigger.mem_instances_iff`: what looking up the instances at a path finds in a mirror.
-/

namespace Observatory

/-- The key that a branch goes down by. -/
def Branch.key : Branch → String
  | named key => key
  | wild key => key

/-- The keys that a place goes down by. -/
def Place.keys (p : Place) : List String := p.map Branch.key

/-- The key of a branch by a wildcard is still there. -/
def Branch.Stays (data : Option Node) : Branch → Prop
  | named _ => True
  | wild key => key ∈ Trigger.dataKeys data

/-- What `look` finds at a place is found by `descendant?` under the keys of the place. -/
theorem look_eq_descendant? {n m : Node} {p : Place} (h : look (some n) p = some m) :
    n.descendant? p.keys = some m := by
  induction p generalizing n with
  | nil => exact h
  | cons b rest ih =>
    rw [look_cons] at h
    -- A wildcard branch leads to the same child as the key, if it leads anywhere.
    have hpart : ∀ c, b.part (some n) = some c → n.child? b.key = some c := by
      intro c hc
      cases b with
      | named key => exact hc
      | wild key =>
        rw [Branch.part] at hc
        split at hc
        · exact hc
        · cases hc
    cases hb : b.part (some n) with
    | none =>
      rw [hb, look_none] at h
      cases h
    | some c =>
      rw [hb] at h
      rw [Place.keys, List.map_cons, Node.descendant?, hpart c hb]
      exact ih h

namespace Trigger

/-! ### Mirrors -/

/-- Every wildcard on the way has an instance for the key that the place goes down by. -/
def Stands : Place → Trigger → Prop
  | [], _ => True
  | .named key :: p, t => Stands p (t.branch (.named key))
  | .wild key :: p, t => t.knows key = true ∧ Stands p (t.branch (.wild key))

/-- If the place `Stands` and has a wildcard, then the instances of the wildcard are those of the
    keys that are there. -/
def MirrorsAt (t : Trigger) (data : Option Node) (p : Place) : Prop :=
  t.Stands p → (t.place p).wildcard ≠ none →
    ∀ key, (t.place p).knows key = true ↔ key ∈ dataKeys (look data p)

/-- `MirrorsAt` holds of every place: each wildcard has the instances that it should have. -/
def Mirrors (t : Trigger) (data : Option Node) : Prop := ∀ p, MirrorsAt t data p

variable {t : Trigger} {data : Option Node}

theorem wildcard_ne_none_of_knows {key : String} (h : t.knows key = true) : t.wildcard ≠ none := by
  obtain ⟨ls, ns, w, v⟩ := t
  cases w with
  | none => cases h
  | some w => exact Option.some_ne_none _

theorem bind_descendant?_cons (data : Option Node) (b : Branch) (p : Place) :
    (data.bind fun n => n.descendant? (Place.keys (b :: p))) =
      (part data b.key).bind fun n => n.descendant? p.keys := by
  cases data <;> rfl

/-- The empty trie `Mirrors` everything. -/
theorem mirrors_empty (data : Option Node) : Mirrors empty data := by
  intro p _ hw
  rw [place_empty] at hw
  exact absurd rfl hw

theorem MirrorsAt.mem_dataKeys (h : MirrorsAt t data []) {key : String}
    (hk : t.knows key = true) : key ∈ dataKeys data :=
  (h trivial (wildcard_ne_none_of_knows hk) key).1 hk

/-- `MirrorsAt` of a place beneath an instance holds in the instance. -/
theorem MirrorsAt.wild {key : String} {p : Place} (h : MirrorsAt t data (.wild key :: p))
    (hk : t.knows key = true) (hkey : key ∈ dataKeys data) :
    MirrorsAt (t.branch (.wild key)) (part data key) p := by
  intro hp hw k
  have hplace := h ⟨hk, hp⟩ hw k
  rwa [look_cons, Branch.part, if_pos hkey] at hplace

/-- A named branch of a mirror is one. -/
theorem Mirrors.named (h : Mirrors t data) (key : String) :
    Mirrors (t.branch (.named key)) (part data key) := fun p hp => h (.named key :: p) hp

/-- An instance in a mirror is one. -/
theorem Mirrors.wild (h : Mirrors t data) {key : String} (hk : t.knows key = true) :
    Mirrors (t.branch (.wild key)) (part data key) :=
  fun p => (h (.wild key :: p)).wild hk ((h []).mem_dataKeys hk)

/-- What is at a standing place of a mirror is a mirror of what is found under its keys. -/
theorem Mirrors.place {n : Node} (h : Mirrors t (some n)) {p : Place} (hp : t.Stands p) :
    Mirrors (t.place p) (n.descendant? p.keys) := by
  -- For any data, since beneath a step there may be none.
  have hall : ∀ {data : Option Node}, Mirrors t data →
      Mirrors (t.place p) (data.bind fun n => n.descendant? p.keys) := by
    clear h
    induction p generalizing t with
    | nil =>
      intro data h
      cases data <;> exact h
    | cons b rest ih =>
      intro data h
      rw [place_cons, bind_descendant?_cons]
      cases b with
      | named key => exact ih hp (h.named key)
      | wild key => exact ih hp.2 (h.wild hp.1)
  exact hall h

/-! ### What a visit does to instances -/

/-- A visit comes to the place: it passes over nothing on the way, and the instances on the way are
    not dropped. -/
def Arrives : Place → Trigger → Option Node → Prop
  | [], _, _ => True
  | b :: p, t, data => t.visited ≠ Sighting.of data ∧ b.Stays data ∧
    Arrives p (t.branch b) (b.part data)

/-- A visit comes to the place or to one on the way to it, and passes over it. -/
def PassedOver (t : Trigger) (data : Option Node) (p : Place) : Prop :=
  ∃ q, q <+: p ∧ t.Arrives q data ∧ (t.place q).visited = Sighting.of (look data q)

theorem passedOver_of_eq (h : t.visited = Sighting.of data) (p : Place) : PassedOver t data p :=
  ⟨[], List.nil_prefix, trivial, h⟩

/-- If the trie is not passed over, then a place beneath a branch is `PassedOver` exactly if it is
    from the branch. -/
theorem passedOver_cons (h : t.visited ≠ Sighting.of data) {b : Branch} {p : Place} :
    PassedOver t data (b :: p) ↔ b.Stays data ∧ PassedOver (t.branch b) (b.part data) p := by
  constructor
  · rintro ⟨q, hq, ha, hv⟩
    cases q with
    | nil => exact absurd hv h
    | cons c q =>
      obtain ⟨rfl, hq'⟩ := List.cons_prefix_cons.1 hq
      exact ⟨ha.2.1, q, hq', ha.2.2, hv⟩
  · rintro ⟨hb, q, hq, ha, hv⟩
    exact ⟨b :: q, List.cons_prefix_cons.2 ⟨rfl, hq⟩, ⟨h, hb, ha⟩, hv⟩

/-- A visit leaves the visited branch where its key stays, unless there is no branch. -/
theorem branch_visit_of_stays (h : Sighting.of data ≠ t.visited) {b : Branch}
    (hb : b.Stays data) : (visit t data).1.branch b = (visit (t.branch b) (b.part data)).1 ∨
      (visit t data).1.branch b = empty ∧ t.branch b = empty := by
  -- A named branch is always kept, a wildcard one as long as its key is there.
  cases b with
  | named key =>
    rw [branch_visit_named h, branch_named]
    cases Dict.get? t.named key with
    | none => exact .inr ⟨rfl, rfl⟩
    | some u => exact .inl rfl
  | wild key =>
    rw [branch_visit_wild h]
    cases hw : t.wildcard with
    | none => exact .inr ⟨rfl, by rw [branch_wild, hw]⟩
    | some w =>
      have hkey : key ∈ dataKeys data := hb
      refine .inl ?_
      dsimp only
      rw [if_pos hkey, Branch.part, if_pos hkey]

/-- After a visit that does not pass over the trie, a wildcard has an instance for every key and
    for no other. -/
theorem knows_visit (h : Sighting.of data ≠ t.visited) (key : String) :
    (visit t data).1.knows key = true ↔ t.wildcard ≠ none ∧ key ∈ dataKeys data := by
  obtain ⟨ls, ns, w, v⟩ := t
  rcases w with - | ⟨pattern, is⟩
  · rw [visit_mk_none (v := v) h]
    exact ⟨nofun, fun hk => absurd rfl hk.1⟩
  · rw [visit_mk_some (v := v) h]
    show (Dict.get? (tries (presentVisits data pattern is)) key).isSome = true ↔ _
    rw [get?_tries_presentVisits]
    split
    · next hk => exact ⟨fun _ => ⟨Option.some_ne_none _, hk⟩, fun _ => rfl⟩
    · next hk => exact ⟨nofun, fun hm => absurd hm.2 hk⟩

theorem wildcard_visit (h : (visit t data).1.wildcard ≠ none) : t.wildcard ≠ none := by
  by_cases hv : Sighting.of data = t.visited
  · rwa [visit_of_eq hv] at h
  · obtain ⟨ls, ns, w, v⟩ := t
    rcases w with - | w
    · rw [visit_mk_none (v := v) hv] at h
      exact h
    · exact Option.some_ne_none _

/-- A visit leaves what is `PassedOver` as it was. -/
theorem place_visit_of_passedOver {p : Place} (h : PassedOver t data p) :
    (visit t data).1.place p = t.place p := by
  induction p generalizing t data with
  | nil =>
    obtain ⟨q, hq, -, hv⟩ := h
    cases List.prefix_nil.1 hq
    have hv : t.visited = Sighting.of data := hv
    rw [visit_of_eq hv.symm]
  | cons b rest ih =>
    -- The visit ends at this node, or goes on along the way, where the key stays.
    by_cases hv : t.visited = Sighting.of data
    · rw [visit_of_eq hv.symm]
    · obtain ⟨hb, hrest⟩ := (passedOver_cons hv).1 h
      rw [place_cons, place_cons]
      rcases branch_visit_of_stays (fun e => hv e.symm) hb with he | ⟨he, he'⟩
      · rw [he]
        exact ih hrest
      · rw [he, he']

/-- After a visit `MirrorsAt` holds of every place that is not `PassedOver`. -/
theorem mirrorsAt_visit {p : Place} (h : ¬PassedOver t data p) :
    MirrorsAt (visit t data).1 data p := by
  intro hs hw key
  induction p generalizing t data with
  | nil =>
    have hv : Sighting.of data ≠ t.visited := fun e => h (passedOver_of_eq e.symm [])
    rw [place_nil, knows_visit hv]
    exact ⟨And.right, fun hk => ⟨wildcard_visit hw, hk⟩⟩
  | cons b rest ih =>
    have hv : t.visited ≠ Sighting.of data := fun e => h (passedOver_of_eq e _)
    have hv' : Sighting.of data ≠ t.visited := fun e => hv e.symm
    -- An instance that stands after the visit is one of a key that is there.
    obtain ⟨hb, hrest⟩ : b.Stays data ∧ Stands rest ((visit t data).1.branch b) := by
      cases b with
      | named key => exact ⟨trivial, hs⟩
      | wild key => exact ⟨((knows_visit hv' key).1 hs.1).2, hs.2⟩
    rw [place_cons] at hw ⊢
    rcases branch_visit_of_stays hv' hb with he | ⟨he, -⟩
    · rw [he] at hrest hw ⊢
      exact ih (fun hp => h ((passedOver_cons hv).2 ⟨hb, hp⟩)) hrest hw
    · rw [he, place_empty] at hw
      exact absurd rfl hw

theorem stands_append {p q : Place} : t.Stands (p ++ q) ↔ t.Stands p ∧ (t.place p).Stands q := by
  induction p generalizing t with
  | nil => exact ⟨fun h => ⟨trivial, h⟩, And.right⟩
  | cons b rest ih =>
    cases b with
    | named key => exact ih
    | wild key =>
      constructor
      · rintro ⟨hk, h⟩
        exact ⟨⟨hk, (ih.1 h).1⟩, (ih.1 h).2⟩
      · rintro ⟨⟨hk, h⟩, hq⟩
        exact ⟨hk, ih.2 ⟨h, hq⟩⟩

theorem place_append (p q : Place) : t.place (p ++ q) = (t.place p).place q :=
  List.foldl_append

theorem look_append (p q : Place) : look data (p ++ q) = look (look data p) q :=
  List.foldl_append

/-- If everything that a visit passes over is a mirror of what is there, then the whole trie is one
    afterwards. -/
theorem mirrors_visit (h : ∀ p, t.Arrives p data → (t.place p).visited = Sighting.of (look data p) →
    Mirrors (t.place p) (look data p)) : Mirrors (visit t data).1 data := by
  intro p hs hw key
  by_cases hp : PassedOver t data p
  · obtain ⟨q, ⟨r, rfl⟩, ha, hv⟩ := hp
    have hplace : (visit t data).1.place q = t.place q :=
      place_visit_of_passedOver ⟨q, List.prefix_rfl, ha, hv⟩
    rw [place_append, hplace] at hw ⊢
    rw [look_append]
    exact h q ha hv r (hplace ▸ (stands_append.1 hs).2) hw key
  · exact mirrorsAt_visit hp hs hw key

/-- After a visit a place is recorded with what it was recorded with before, or with what is there
    now. -/
theorem visited_place_visit (hp : Proper t) (p : Place) :
    ((visit t data).1.place p).visited = (t.place p).visited ∨
      ((visit t data).1.place p).visited = Sighting.of (look data p) := by
  induction p generalizing t data with
  | nil => exact .inr (visited_visit t data)
  | cons b rest ih =>
    by_cases h : Sighting.of data = t.visited
    · exact .inl (by rw [visit_of_eq h])
    · rw [place_cons, place_cons, look_cons]
      by_cases hb : b.Stays data
      · rcases branch_visit_of_stays h hb with he | ⟨he, he'⟩
        · rw [he]
          exact ih (hp.branch b)
        · rw [he, he']
          exact .inl rfl
      · cases b with
        | named key => exact absurd trivial hb
        | wild key =>
          -- The instance is dropped, and the pattern has seen nothing.
          have hgone : key ∉ dataKeys data := hb
          have hnone : (Branch.wild key).part data = none := if_neg hgone
          rw [branch_visit_wild h, hnone, look_none]
          cases hw : t.wildcard with
          | none =>
            dsimp only
            rw [place_empty]
            exact .inr rfl
          | some w =>
            obtain ⟨pattern, is⟩ := w
            dsimp only
            rw [if_neg hgone]
            exact .inr ((hp.instances hw).blank rest).1

/-- In a `Proper` trie only standing places were visited, since a pattern has seen nothing. -/
theorem stands_of_visited (hp : Proper t) {p : Place} (h : (t.place p).visited ≠ none) :
    t.Stands p := by
  induction p generalizing t with
  | nil => trivial
  | cons b rest ih =>
    rw [place_cons] at h
    cases b with
    | named key => exact ih (hp.branch _) h
    | wild key =>
      refine ⟨?_, ih (hp.branch _) h⟩
      rw [← Bool.not_eq_false]
      intro hk
      -- Without an instance the branch is the pattern, which has seen nothing.
      refine h ?_
      obtain ⟨ls, ns, w, v⟩ := t
      rcases w with - | ⟨pattern, is⟩
      · rw [branch, place_empty]
        rfl
      · have hget : Dict.get? is key = none := by
          cases hg : Dict.get? is key with
          | none => rfl
          | some u =>
            rw [knows, Dict.contains, hg] at hk
            cases hk
        rw [branch, hget]
        exact ((hp.instances rfl).blank rest).1

/-! ### Registrations and removals -/

/-- Registering a wildcard makes an instance for every key that is there, and keeps those that it
    had. -/
theorem knows_insert_wildcard (token : Token) (rest : List Step) (key : String) :
    (insert token (.wildcard :: rest) data t).knows key = true ↔
      t.knows key = true ∨ key ∈ dataKeys data := by
  obtain ⟨ls, ns, w, v⟩ := t
  -- The instances are those of the keys there are, and each gets the rest of the registration.
  have hnew : ∀ (pattern : Trigger) (is : Dict Trigger), Dict.contains
      ((instantiate pattern is data).map fun p => (p.1, insert token rest (part data p.1) p.2))
        key = true ↔ Dict.contains is key = true ∨ key ∈ dataKeys data := by
    intro pattern is
    rw [Dict.contains, Dict.get?_mapEntries fun key t => insert token rest (part data key) t,
      Option.isSome_map, get?_instantiate, Dict.contains]
    by_cases hk : key ∈ dataKeys data
    · rw [if_pos hk]
      cases Dict.get? is key <;> simp [hk]
    · rw [if_neg hk, Option.or_none]
      exact ⟨Or.inl, fun h => h.resolve_right hk⟩
  rcases w with - | ⟨pattern, is⟩
  · exact hnew empty []
  · exact hnew pattern is

/-- A registration, which is made for the present data, keeps a mirror of them. -/
theorem Mirrors.insert (h : Mirrors t data) (token : Token) (steps : List Step) :
    Mirrors (Trigger.insert token steps data t) data := by
  induction steps generalizing t data with
  | nil =>
    obtain ⟨ls, ns, w, v⟩ := t
    intro p
    rcases p with - | ⟨key | key, p⟩
    · cases w <;> exact h []
    · exact h (.named key :: p)
    · cases w <;> exact h (.wild key :: p)
  | cons step rest ih =>
    intro p hs hw k
    cases step with
    | key key =>
      have hknows : ∀ k, (Trigger.insert token (.key key :: rest) data t).knows k = t.knows k := by
        obtain ⟨ls, ns, w, v⟩ := t
        cases w <;> exact fun _ => rfl
      rcases p with - | ⟨b, p⟩
      · obtain ⟨ls, ns, w, v⟩ := t
        cases w <;> exact h [] trivial hw k
      · rw [place_cons, branch_insert_key] at hw ⊢
        by_cases hb : b = .named key
        · subst hb
          rw [if_pos rfl] at hw ⊢
          rw [Stands, branch_insert_key, if_pos rfl] at hs
          exact ih (h.named key) p hs hw k
        · -- The other branches are as they were.
          rw [if_neg hb] at hw ⊢
          refine h (b :: p) ?_ hw k
          cases b with
          | named other =>
            rw [Stands, branch_insert_key, if_neg hb] at hs
            exact hs
          | wild other =>
            rw [Stands, branch_insert_key, if_neg hb, hknows] at hs
            exact hs
    | wildcard =>
      rcases p with - | ⟨b, p⟩
      · -- Here the instances were the keys already, or there were none.
        rw [place_nil, knows_insert_wildcard, look_nil]
        refine ⟨fun hk => hk.elim (fun hk => ?_) id, Or.inr⟩
        exact (h []).mem_dataKeys hk
      · rw [place_cons, branch_insert_wildcard] at hw ⊢
        cases b with
        | named other =>
          rw [Stands, branch_insert_wildcard] at hs
          exact h (.named other :: p) hs hw k
        | wild other =>
          rw [Stands, branch_insert_wildcard, knows_insert_wildcard] at hs
          have hkey : other ∈ dataKeys data := by
            refine hs.1.elim (fun hk => ?_) id
            exact (h []).mem_dataKeys hk
          have hbranch : Mirrors (t.branch (.wild other)) (part data other) := by
            cases hwild : t.wildcard with
            | none =>
              rw [branch_wild, hwild]
              exact mirrors_empty _
            | some w =>
              have hne : t.wildcard ≠ none := hwild ▸ Option.some_ne_none w
              exact h.wild ((h [] trivial hne other).2 hkey)
          have henter : enter data t (.wild other) = part data other := if_pos (.inl hkey)
          dsimp only at hs hw ⊢
          rw [henter] at hs hw ⊢
          rw [look_cons, Branch.part, if_pos hkey]
          exact ih hbranch p hs.2 hw k

/-- What is at a place after a registration is what was there before, perhaps with the rest of the
    registration. -/
theorem place_insert (token : Token) (steps : List Step) (data : Option Node) (t : Trigger)
    (p : Place) : (insert token steps data t).place p = t.place p ∨
      ∃ rest, (insert token steps data t).place p =
        insert token rest (registeredAt t data p) (t.place p) := by
  induction p generalizing steps data t with
  | nil => exact .inr ⟨steps, rfl⟩
  | cons b q ih =>
    rw [place_cons, place_cons, registeredAt]
    -- The registration goes along the place as far as their steps agree.
    rcases steps with - | ⟨key | -, rest⟩
    · rw [branch_insert_nil]
      exact .inl rfl
    · rw [branch_insert_key]
      split
      · next hb =>
        subst hb
        exact ih _ _ _
      · exact .inl rfl
    · rw [branch_insert_wildcard]
      cases b with
      | named k => exact .inl rfl
      | wild k => exact ih _ _ _

theorem registeredAt_of_stands {p : Place} (hs : t.Stands p) :
    registeredAt t data p = data.bind fun n => n.descendant? p.keys := by
  induction p generalizing t data with
  | nil => cases data <;> rfl
  | cons b rest ih =>
    rw [registeredAt, bind_descendant?_cons]
    cases b with
    | named key => exact ih hs
    | wild key =>
      rw [enter, if_pos (.inr hs.1)]
      exact ih hs.2

theorem Proper.place (h : Proper t) (p : Place) : Proper (t.place p) := by
  induction p generalizing t with
  | nil => exact h
  | cons b rest ih => exact ih (h.branch b)

/-- A removal that leaves a wildcard leaves all its instances. -/
theorem knows_remove {token : Token} (h : (remove token t).wildcard ≠ none) :
    t.wildcard ≠ none ∧ ∀ key, (remove token t).knows key = t.knows key := by
  obtain ⟨ls, ns, w, v⟩ := t
  have hwild := wildcard_remove token ls ns w v
  -- The wildcard is dropped as a whole or kept with all its instances.
  generalize remove token (mk ls ns w v) = u at h hwild
  obtain ⟨ls', ns', w', v'⟩ := u
  rcases w with - | ⟨pattern, is⟩
  · exact absurd hwild h
  · refine ⟨Option.some_ne_none _, fun key => ?_⟩
    have hw' : w' = _ := hwild
    rw [Option.bind_some] at hw'
    split at hw'
    · exact absurd hw' h
    · subst hw'
      show (Dict.get? (Dict.mapValues (remove token) is) key).isSome = (Dict.get? is key).isSome
      rw [Dict.get?_mapValues, Option.isSome_map]

/-- After a removal a branch is what is left of it, or is dropped. -/
theorem branch_remove {token : Token} (hp : Proper t) (b : Branch) :
    (remove token t).branch b = remove token (t.branch b) ∨ (remove token t).branch b = empty := by
  cases b with
  | named key =>
    rw [branch_remove_named token hp.sorted_named, pruned]
    split
    · exact .inr rfl
    · exact .inl rfl
  | wild key =>
    rw [branch_remove_wild]
    split
    · exact .inr rfl
    · split
      · exact .inr rfl
      · exact .inl rfl

/-- After a removal there is at every place what is left of what was there, or nothing. -/
theorem place_remove {token : Token} (hp : Proper t) (p : Place) :
    (remove token t).place p = remove token (t.place p) ∨ (remove token t).place p = empty := by
  induction p generalizing t with
  | nil => exact .inl rfl
  | cons b rest ih =>
    rw [place_cons, place_cons]
    rcases branch_remove hp b with he | he
    · rw [he]
      exact ih (hp.branch b)
    · rw [he]
      exact .inr (place_empty rest)

/-- A removal keeps a mirror. -/
theorem Mirrors.remove (h : Mirrors t data) (hp : Proper t) (token : Token) :
    Mirrors (Trigger.remove token t) data := by
  intro p hs hw key
  induction p generalizing t data with
  | nil =>
    obtain ⟨hold, hknows⟩ := knows_remove hw
    rw [place_nil, hknows]
    exact h [] trivial hold key
  | cons b rest ih =>
    rw [place_cons] at hw ⊢
    rcases branch_remove hp b with he | he
    · rw [he] at hw ⊢
      cases b with
      | named k =>
        rw [Stands, he] at hs
        exact ih (h.named k) (hp.branch _) hs hw
      | wild k =>
        rw [Stands, he] at hs
        obtain ⟨hk, hrest⟩ := hs
        rw [(knows_remove (wildcard_ne_none_of_knows hk)).2] at hk
        -- The instance is one of a key that is there, so the mirror goes on beneath it.
        have hkey := (h []).mem_dataKeys hk
        rw [look_cons, Branch.part, if_pos hkey]
        exact ih (h.wild hk) (hp.branch _) hrest hw
    · rw [he, place_empty] at hw
      exact absurd rfl hw

/-! ### What is recorded -/

/-- Where the stamp of a node that is there now is recorded, everything beneath is a mirror of that
    node: passing it over then does no harm. -/
def Faithful (t : Trigger) (root : Node) : Prop :=
  ∀ p n, root.descendant? (Place.keys p) = some n → (t.place p).visited = some n.stamp →
    Mirrors (t.place p) (some n)

/-- No wildcard at a standing place has an instance. -/
def Vacant (t : Trigger) : Prop := ∀ p, t.Stands p → ∀ key, (t.place p).knows key = false

variable {root : Node}

/-- A `Vacant` trie is a mirror of nothing. -/
theorem Vacant.mirrors (h : t.Vacant) : Mirrors t none := by
  intro p hs _ key
  rw [h p hs key, look_none]
  exact ⟨nofun, nofun⟩

/-- A mirror is `Faithful`, whatever it has recorded. -/
theorem Mirrors.faithful (h : Mirrors t (some root)) (hp : Proper t) : Faithful t root := by
  intro p n hn hv
  have hs : t.Stands p := stands_of_visited hp (hv ▸ Option.some_ne_none _)
  exact hn ▸ h.place hs

/-- A registration keeps a trie `Faithful`. -/
theorem Faithful.insert (h : Faithful t root) (hp : Proper t) (token : Token)
    (steps : List Step) : Faithful (Trigger.insert token steps (some root) t) root := by
  intro p n hn hv
  rw [visited_place_insert] at hv
  have hs : t.Stands p := stands_of_visited hp (hv ▸ Option.some_ne_none _)
  rcases place_insert token steps (some root) t p with he | ⟨rest, he⟩
  · rw [he]
    exact h p n hn hv
  · rw [he, registeredAt_of_stands hs, Option.bind_some, hn]
    exact (h p n hn hv).insert token rest

/-- Any number of registrations keeps a trie `Faithful`. -/
theorem Faithful.insertAll (h : Faithful t root) (hp : Proper t) (token : Token)
    (paths : List (List Step)) : Faithful (Trigger.insertAll token paths (some root) t) root := by
  induction paths generalizing t with
  | nil => exact h
  | cons steps rest ih => exact ih (h.insert hp token steps) (proper_insert token steps _ hp)

/-- A removal keeps a trie `Faithful`. -/
theorem Faithful.remove (h : Faithful t root) (hp : Proper t) (token : Token) :
    Faithful (Trigger.remove token t) root := by
  intro p n hn hv
  have hold : (t.place p).visited = some n.stamp := by
    rcases visited_place_remove token hp p with he | he
    · rw [← he]
      exact hv
    · rw [he] at hv
      cases hv
  rcases place_remove hp p with he | he
  · rw [he]
    exact (h p n hn hold).remove (hp.place p) token
  · rw [he]
    exact mirrors_empty _

/-- A visit of a `Faithful` trie makes it a mirror, unless it passes over instances at a place
    where nothing is. -/
theorem Faithful.mirrors_visit (h : Faithful t root)
    (hvacant : ∀ p, t.Arrives p (some root) → (t.place p).visited = none →
      look (some root) p = none → (t.place p).Vacant) :
    Mirrors (visit t (some root)).1 (some root) := by
  refine Trigger.mirrors_visit fun p ha hv => ?_
  cases hl : look (some root) p with
  | none =>
    rw [hl] at hv
    exact (hvacant p ha hv hl).mirrors
  | some n =>
    rw [hl] at hv
    exact h p n (look_eq_descendant? hl) hv

/-! ### Looking up instances -/

/-- **What looking up instances finds.**  If all wildcards on the way to a place have the instances
    that they should have, and no named branch hides an instance, then the instances at the path of
    the place are the keys that are there. -/
theorem mem_instances_iff {p : Place} (h : ∀ q, q <+: p → MirrorsAt t data q)
    (hw : (t.place p).wildcard ≠ none)
    (hhidden : ∀ q key r, p = q ++ .wild key :: r → Dict.get? (t.place q).named key = none)
    (key : String) : key ∈ t.instances p.keys ↔ key ∈ dataKeys (look data p) := by
  induction p generalizing t data with
  | nil =>
    refine Iff.trans ?_ (h [] List.prefix_rfl trivial hw key)
    obtain ⟨ls, ns, w, v⟩ := t
    rcases w with - | ⟨pattern, is⟩
    · exact absurd rfl hw
    · exact Dict.isSome_get?_iff.symm
  | cons b rest ih =>
    -- The hypotheses on the places on the way hold for the rest of the way.
    have hdown : ∀ q, q <+: rest → MirrorsAt t data (b :: q) :=
      fun q hq => h (b :: q) (List.cons_prefix_cons.2 ⟨rfl, hq⟩)
    have hrest : ∀ u, t.branch b = u → ∀ q k r, rest = q ++ .wild k :: r →
        Dict.get? (u.place q).named k = none := by
      rintro u rfl q k r rfl
      exact hhidden (b :: q) k r rfl
    rw [place_cons] at hw
    rw [look_cons, Place.keys, List.map_cons, instances]
    cases b with
    | named k =>
      rw [Branch.key]
      have hbranch := branch_named t k
      cases hk : Dict.get? t.named k with
      | none =>
        rw [hbranch, hk, Option.getD_none, place_empty] at hw
        exact absurd rfl hw
      | some u =>
        rw [hk, Option.getD_some] at hbranch
        exact ih (fun q hq => hbranch ▸ hdown q hq) (hbranch ▸ hw) (hrest u hbranch)
    | wild k =>
      have hnone : Dict.get? t.named k = none := hhidden [] k rest rfl
      have hhere := h [] List.nil_prefix
      rw [Branch.key, hnone]
      obtain ⟨ls, ns, w, v⟩ := t
      rcases w with - | ⟨pattern, is⟩
      · rw [branch, place_empty] at hw
        exact absurd rfl hw
      · have hinstance : ((mk ls ns (some (pattern, is)) v).wildcard.bind fun w =>
            Dict.get? w.2 k) = Dict.get? is k := rfl
        rw [hinstance]
        cases hk : Dict.get? is k with
        | none =>
          -- The key has no instance, so it is not there.
          have hgone : k ∉ dataKeys data := by
            intro hkey
            have hknows := (hhere trivial (Option.some_ne_none _) k).2 hkey
            rw [place_nil, knows, Dict.contains, hk] at hknows
            cases hknows
          rw [Branch.part, if_neg hgone, look_none]
          exact Iff.rfl
        | some u =>
          have hknows : (mk ls ns (some (pattern, is)) v).knows k = true := by
            rw [knows, Dict.contains, hk]
            rfl
          have hkey := hhere.mem_dataKeys hknows
          have hbranch : (mk ls ns (some (pattern, is)) v).branch (.wild k) = u := by
            rw [branch, hk]
            rfl
          rw [Branch.part, if_pos hkey]
          exact ih (fun q hq => hbranch ▸ (hdown q hq).wild hknows hkey) (hbranch ▸ hw)
            (hrest u hbranch)

end Trigger

end Observatory

import Observatory.Proofs.Store.Plain

/-!
# Changes beneath objects

Where a path leads through objects only, putting a value at its end and cutting off what is there
are never refused, and both are one change: what is at the end is replaced by a value or by
nothing.

* `Json.Open`: a path through objects, as far as there is anything;
* `Json.alter`: the change, which may make or take away a value;
* `Json.put_eq`, `Json.cut_eq`: it is what putting and cutting come to;
* `Json.alter_append`: a change beneath a place is a change of that place;
* `Json.read_alter`, `Json.read_alter_beside`: what is read after it;
* `Json.Open.alter`: paths stay open.
-/

namespace Observatory

namespace Json

/-- At every proper prefix of the path `t` has an object or nothing.  Then no step of the path runs
    into a scalar or an array. -/
def Open : List String → Json → Prop
  | [], _ => True
  | key :: rest, t => ∃ fields, t = .obj fields ∧ ∀ u, Dict.get? fields key = some u → Open rest u

/-- The fields of an object, and no fields for anything else. -/
def fieldsOf : Option Json → Dict Json
  | some (.obj fields) => fields
  | _ => []

/-- Replace what is at the end of a path by what `f` makes of it, where `none` stands for nothing
    being there.  Objects that lead to a new value are made on the way, and a value that `f` takes
    away is erased from its object. -/
def alter (f : Option Json → Option Json) : List String → Option Json → Option Json
  | [], o => f o
  | key :: rest, o =>
    match alter f rest (o.bind fun t => t.part? key) with
    | some u => some (.obj (Dict.insert (fieldsOf o) key u))
    | none => o.map fun _ => .obj (Dict.erase (fieldsOf o) key)

/-- The part that a path leads to, if there is a value to begin with. -/
def read (path : List String) (o : Option Json) : Option Json := o.bind fun t => t.at? path

/-- `Open` for a place that may have no value: a path through nothing is open. -/
def OpenIn (path : List String) (o : Option Json) : Prop := ∀ t, o = some t → Open path t

section Alter

variable {f : Option Json → Option Json} {key : String} {rest path path' : List String}
  {o : Option Json} {t : Json}

/-- Altering at `path ++ rest` is altering at `path`, where what is there is altered at `rest`. -/
theorem alter_append (f : Option Json → Option Json) (path rest : List String) (o : Option Json) :
    alter f (path ++ rest) o = alter (alter f rest) path o := by
  induction path generalizing o with
  | nil => rfl
  | cons key path ih => rw [List.cons_append, alter, alter, ih]

theorem read_nil (o : Option Json) : read [] o = o := by cases o <;> rfl

theorem read_cons (key : String) (rest : List String) (o : Option Json) :
    read (key :: rest) o = read rest (o.bind fun t => t.part? key) := by
  cases o <;> rfl

theorem read_append (path rest : List String) (o : Option Json) :
    read (path ++ rest) o = read rest (read path o) := by
  induction path generalizing o with
  | nil => rw [List.nil_append, read_nil]
  | cons key path ih => rw [List.cons_append, read_cons, read_cons, ih]

/-- A path is `OpenIn` a place if there is an object or nothing and the rest of the path is
    `OpenIn` what the object has under the first key. -/
theorem openIn_cons : OpenIn (key :: rest) o ↔ (∀ t, o = some t → ∃ fields, t = .obj fields) ∧
    OpenIn rest (o.bind fun t => t.part? key) := by
  cases o with
  | none => simp [OpenIn]
  | some t =>
    constructor
    · intro h
      obtain ⟨fields, rfl, hrest⟩ := h t rfl
      exact ⟨fun u hu => ⟨fields, (Option.some.inj hu).symm⟩, hrest⟩
    · rintro ⟨hobj, hrest⟩ u hu
      obtain rfl := Option.some.inj hu
      obtain ⟨fields, rfl⟩ := hobj t rfl
      exact ⟨fields, rfl, hrest⟩

/-- Every path is `Open` in the empty object, because there is nothing that it could run into. -/
theorem open_emptyObject (path : List String) : Open path (.obj []) := by
  cases path with
  | nil => trivial
  | cons key rest => exact ⟨[], rfl, nofun⟩

/-- `path ++ path'` is `OpenIn` a place exactly if `path` is, and `path'` is `OpenIn` what `path`
    leads to. -/
theorem openIn_append :
    OpenIn (path ++ path') o ↔ OpenIn path o ∧ OpenIn path' (read path o) := by
  induction path generalizing o with
  | nil =>
    rw [List.nil_append, read_nil]
    exact ⟨fun h => ⟨fun _ _ => trivial, h⟩, And.right⟩
  | cons key path ih =>
    rw [List.cons_append, openIn_cons, openIn_cons, read_cons, ih, and_assoc]

/-- What `alter` leaves under a key `k`: what it makes of the part under `key` if that is the first
    key of its path, and what was there otherwise. -/
theorem part?_alter (h : OpenIn (key :: rest) o) (k : String) :
    ((alter f (key :: rest) o).bind fun t => t.part? k) =
      if key = k then alter f rest (o.bind fun t => t.part? key)
      else o.bind fun t => t.part? k := by
  -- An open place is an object or nothing, and either way `fieldsOf` says what is under a key.
  have hfields : ∀ k, Dict.get? (fieldsOf o) k = o.bind fun t => t.part? k := by
    intro k
    cases o with
    | none => rfl
    | some t =>
      obtain ⟨fields, rfl, -⟩ := h t rfl
      rfl
  rw [alter]
  cases hu : alter f rest (o.bind fun t => t.part? key) with
  | some u =>
    show Dict.get? (Dict.insert (fieldsOf o) key u) k = _
    rw [Dict.get?_insert, hfields]
  | none =>
    cases o with
    | none => simp
    | some t =>
      show Dict.get? (Dict.erase (fieldsOf (some t)) key) k = _
      rw [Dict.get?_erase, hfields]

/-- Reading at the end of an open path gives, after `alter f`, what `f` makes of what was read
    before. -/
theorem read_alter (h : OpenIn path o) : read path (alter f path o) = f (read path o) := by
  induction path generalizing o with
  | nil => rw [read_nil, read_nil, Json.alter]
  | cons key path ih =>
    rw [read_cons, read_cons, part?_alter h, if_pos rfl]
    exact ih (openIn_cons.1 h).2

/-- Reading along a path that neither leads to the altered place nor goes through it gives the same
    before and after `alter`. -/
theorem read_alter_beside (h : OpenIn path o) (hp : ¬ path <+: path') (hp' : ¬ path' <+: path) :
    read path' (alter f path o) = read path' o := by
  induction path generalizing o path' with
  | nil => exact absurd List.nil_prefix hp
  | cons key path ih =>
    cases path' with
    | nil => exact absurd List.nil_prefix hp'
    | cons key' path' =>
      rw [read_cons, read_cons, part?_alter h]
      split
      · next hk =>
        subst hk
        rw [List.cons_prefix_cons] at hp hp'
        exact ih (openIn_cons.1 h).2 (fun hn => hp ⟨rfl, hn⟩) (fun hn => hp' ⟨rfl, hn⟩)
      · rfl

/-- A path stays `OpenIn` after `alter f path`, unless it goes on behind the end of `path`: there
    `f` may have put a scalar. -/
theorem OpenIn.alter (h : OpenIn path o) (h' : OpenIn path' o)
    (hp : path <+: path' → path = path') : OpenIn path' (Json.alter f path o) := by
  induction path generalizing o path' with
  | nil =>
    obtain rfl := hp List.nil_prefix
    exact fun t _ => trivial
  | cons key path ih =>
    cases path' with
    | nil => exact fun t _ => trivial
    | cons key' path' =>
      obtain ⟨hobj', hrest'⟩ := openIn_cons.1 h'
      refine openIn_cons.2 ⟨?_, ?_⟩
      · intro t ht
        rw [Json.alter] at ht
        split at ht
        · exact ⟨_, (Option.some.inj ht).symm⟩
        · obtain ⟨u, -, hu⟩ := Option.map_eq_some_iff.1 ht
          exact ⟨_, hu.symm⟩
      · -- Under the first key of `path` the rest of it was altered, under another key nothing was.
        rw [part?_alter h]
        split
        · next hk =>
          subst hk
          refine ih (openIn_cons.1 h).2 hrest' fun hpre => ?_
          exact (List.cons.inj (hp ((List.cons_prefix_cons).2 ⟨rfl, hpre⟩))).2
        · exact hrest'

/-- `put` succeeds along an `Open` path, and its result is that of `alter` with a function that
    gives the new value. -/
theorem put_eq (v : Json) (h : Open path t) :
    ∃ t', put v path t = .ok t' ∧ Json.alter (fun _ => some v) path (some t) = some t' := by
  induction path generalizing t with
  | nil => exact ⟨v, rfl, rfl⟩
  | cons key path ih =>
    obtain ⟨fields, rfl, hrest⟩ := h
    cases hc : Dict.get? fields key with
    | some c =>
      obtain ⟨u, hput, halter⟩ := ih (hrest c hc)
      have hpart : (obj fields).part? key = some c := hc
      have hnew : (obj fields).partOrNew key = c := by rw [partOrNew, hpart, Option.getD_some]
      refine ⟨_, put_cons (hnew.symm ▸ hput), ?_⟩
      rw [Json.alter, Option.bind_some, hpart, halter]
      rfl
    | none =>
      have hpart : (obj fields).part? key = none := hc
      -- Where there is nothing `alter` makes the objects of the path, as `put` does by `nest`.
      have hnest : ∀ path, Json.alter (fun _ => some v) path none = some (nest path v) := by
        intro path
        induction path with
        | nil => rfl
        | cons key path ih =>
          rw [Json.alter, Option.bind_none, ih]
          rfl
      refine ⟨_, put_of_part?_none hpart, ?_⟩
      rw [Json.alter, Option.bind_some, hpart, hnest]
      rfl

/-- Cutting at a path where there is nothing leaves nothing. -/
theorem alter_none (path : List String) : Json.alter (fun _ => none) path none = none := by
  cases path with
  | nil => rfl
  | cons key path =>
    rw [Json.alter, Option.bind_none, alter_none path]
    rfl

/-- `cut` succeeds along an `Open` path, and its result is that of `alter` with a function
    that gives nothing.  The empty path is left out, since `cut` refuses to take away the
    whole value. -/
theorem cut_eq (hne : path ≠ []) (h : Open path t) :
    ∃ t', cut path t = .ok t' ∧ Json.alter (fun _ => none) path (some t) = some t' := by
  induction path generalizing t with
  | nil => exact absurd rfl hne
  | cons key path ih =>
    obtain ⟨fields, rfl, hrest⟩ := h
    rw [cut, Json.alter, Option.bind_some]
    -- Where nothing is there is nothing to take away, and `cut` does not mind.
    cases hc : (obj fields).part? key with
    | none =>
      refine ⟨_, rfl, ?_⟩
      rw [alter_none]
      rfl
    | some c =>
      cases path with
      | nil => exact ⟨_, rfl, rfl⟩
      | cons key' path =>
        obtain ⟨u, hcut, halter⟩ := ih (List.cons_ne_nil _ _) (hrest c hc)
        dsimp only
        rw [hcut, halter]
        exact ⟨_, rfl, rfl⟩

end Alter

end Json

end Observatory

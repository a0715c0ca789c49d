import Observatory.Proofs.Store.Reporting

/-!
# Where the nodes come from

A request builds some nodes anew, stamps some, and leaves the others as they are, at their places
or, behind an item that is removed, one position further down.  Which ones, is told by the plain
value of the store and by the request alone; the stamps of the tree bear it out.

* `Json.stays`, `Json.staysAlong`: a node that is neither built nor stamped when a value takes the
  place of another;
* `Json.beforeCut`: the places of the nodes before something was cut off;
* `Store.Op.origin?`: where the node at a place stood before a request, if the request neither
  built nor stamped it;
* `Node.Carried`: a node with an origin has the serial that it had there, and any other the
  serial of the change;
* `Store.Valid.carried`: so it is after every request.
-/

namespace Observatory

namespace Json

/-! ### Origins in plain values -/

/-- Whether a node is neither built nor stamped when a value takes the place of its own: an object
    stays if it gets an object, an array if it gets an array, and a scalar if it gets the same
    scalar. -/
def stays : Json → Json → Bool
  | .scalar a, .scalar b => a.same b
  | .obj _, .obj _ => true
  | .arr _, .arr _ => true
  | _, _ => false

/-- Whether every node along a path stays, down to its end. -/
def staysAlong : Json → Json → List String → Bool
  | t, u, [] => t.stays u
  | t, u, key :: rest => t.stays u &&
    match t.part? key, u.part? key with
    | some t', some u' => staysAlong t' u' rest
    | _, _ => false

/-- Where the part at a path stood before a change beneath the part under `key`: in the same place,
    or where `origin` says for what is beneath that part. -/
def beforeChange (t : Json) (key : String) (origin : List String → Option (List String)) :
    List String → Option (List String)
  | [] => some []
  | k :: ks =>
    if t.spelling k = t.spelling key then (origin ks).map (k :: ·) else some (k :: ks)

/-- Where the part at a path stood before the item at position `i` was taken out of its array.  The
    items behind it have moved down by one, and the array itself has no origin because it is
    stamped. -/
def beforeErase (i : Nat) : List String → Option (List String)
  | [] => none
  | k :: ks => (ArrayIndex.parse? k).map fun j =>
    (if j < i then k else ArrayIndex.text (j + 1)) :: ks

/-- Where the part at a path stood before something was cut off at the end of another path. -/
def beforeCut : List String → Json → List String → Option (List String)
  | [], _ => some
  | [key], .arr items =>
    match (ArrayIndex.parse? key).filter (· < items.length) with
    | some i => beforeErase i
    | none => some
  | key :: rest, t => t.beforeChange key (beforeCut rest (t.partOrNew key))

@[simp] theorem stays_refl (t : Json) : t.stays t = true := by
  cases t with
  | scalar a => exact Scalar.same_refl a
  | obj fields => rfl
  | arr items => rfl

theorem staysAlong_refl {t : Json} {path : List String} (h : (t.at? path).isSome) :
    t.staysAlong t path = true := by
  induction path generalizing t with
  | nil => exact stays_refl t
  | cons key rest ih =>
    rw [at?] at h
    rw [staysAlong, stays_refl, Bool.true_and]
    cases hk : t.part? key with
    | none =>
      rw [hk] at h
      cases h
    | some u =>
      rw [hk] at h
      exact ih h

end Json

namespace Node

section Carried

variable {serial : Nat}

/-! ### Nodes with and without an origin -/

/-- The node `m`, which a change made of something in `n`, has the serial that the node at its
    origin had there, or, without an origin, the serial of the change. -/
def Carried (serial : Nat) (n m : Node) : Option (List String) → Prop
  | some q => ∃ o, n.descendant? q = some o ∧ m.serial = o.serial
  | none => m.serial = serial

variable {n n' m c : Node} {key : String} {path : List String}

theorem carried_self (h : n.descendant? path = some m) : Carried serial n m (some path) :=
  ⟨m, h, rfl⟩

/-- An origin in a part is one in the node, behind the key of the part. -/
theorem Carried.beneath (hc : n.child? key = some c) {o : Option (List String)}
    (h : Carried serial c m o) : Carried serial n m (o.map (key :: ·)) := by
  cases o with
  | none => exact h
  | some q =>
    obtain ⟨x, hx, hm⟩ := h
    refine ⟨x, ?_, hm⟩
    rw [descendant?, hc]
    exact hx

/-- Everything in `build serial v` has this serial. -/
theorem serial_of_build {v : Json} (h : (build serial v).descendant? path = some m) :
    m.serial = serial := by
  have hmarked : Marked serial none m := marked_build h
  rcases hmarked.self with he | ⟨_, ⟨_, _, hnone, _⟩, _⟩
  · exact he
  · cases hnone

/-! ### Giving a value -/

/-- What is at a place after a value took the place of another: a node that stays all along its
    path is where it was, with its serial, and any other has the serial of the change. -/
def Settles (serial : Nat) (old : Option Node) (new : Node) : Prop :=
  ∀ path m, new.descendant? path = some m →
    match old with
    | none => m.serial = serial
    | some n => Carried serial n m
      (if n.toJson.staysAlong new.toJson path then some path else none)

/-- A node that was left alone `Settles`. -/
theorem settles_self (n : Node) : Settles serial (some n) n := by
  intro path m hm
  have hsome : (n.toJson.at? path).isSome := by
    rw [toJson_descendant?, hm]
    rfl
  dsimp only
  rw [if_pos (Json.staysAlong_refl hsome)]
  exact carried_self hm

/-- A new tree `Settles` where nothing stood, or something that does not stay. -/
theorem settles_build {old : Option Node} {v : Json}
    (h : ∀ n, old = some n → n.toJson.stays v = false) : Settles serial old (build serial v) := by
  intro path m hm
  cases old with
  | none => exact serial_of_build hm
  | some n =>
    have hgone : n.toJson.staysAlong (build serial v).toJson path = false := by
      rw [toJson_build]
      cases path with
      | nil => exact h n rfl
      | cons key rest => rw [Json.staysAlong, h n rfl, Bool.false_and]
    dsimp only
    rw [hgone]
    exact serial_of_build hm

/-- A node that stays `Settles` if all its parts do. -/
theorem settles_of_parts (hstays : n.toJson.stays n'.toJson = true) (hserial : n'.serial = n.serial)
    (h : ∀ key c, n'.child? key = some c → Settles serial (n.child? key) c) :
    Settles serial (some n) n' := by
  intro path m hm
  dsimp only
  cases path with
  | nil =>
    cases hm
    rw [Json.staysAlong, hstays]
    exact ⟨n, rfl, hserial⟩
  | cons key rest =>
    obtain ⟨c, hc, hrest⟩ := Option.bind_eq_some_iff.1 hm
    have hpart := h key c hc rest m hrest
    rw [Json.staysAlong, hstays, Bool.true_and, toJson_child?, toJson_child?, hc]
    cases hk : n.child? key with
    | none =>
      rw [hk] at hpart
      exact hpart
    | some o =>
      rw [hk] at hpart
      -- What is true in the part is true in the node, with the key in front of the path.
      have hbeneath := Carried.beneath hk hpart
      dsimp only [Option.map_some]
      split
      · next hs => rwa [if_pos hs] at hbeneath
      · next hs => rwa [if_neg hs] at hbeneath

/-- A place that was `given` a value `Settles`. -/
theorem settles_given (v : Json) (old : Option Node) :
    Settles serial old (given serial old v) := by
  induction v using Json.partsInduction generalizing old with
  | scalar a =>
    cases old with
    | none => exact settles_build nofun
    | some n =>
      cases n with
      | object s children => exact settles_build (by rintro _ ⟨⟩; rfl)
      | array s items => exact settles_build (by rintro _ ⟨⟩; rfl)
      | scalar s b =>
        rw [given, assign]
        split
        · exact settles_self _
        · next hsame =>
          -- Another scalar is stamped, and there is nothing beneath it.
          intro path m hm
          cases path with
          | cons key rest => cases hm
          | nil =>
            cases hm
            show Carried serial (Node.scalar s b) _ (if b.same a then some [] else none)
            rw [if_neg hsame]
            rfl
  | obj fields ih =>
    cases old with
    | none => exact settles_build nofun
    | some n =>
      cases n with
      | scalar s b => exact settles_build (by rintro _ ⟨⟩; rfl)
      | array s items => exact settles_build (by rintro _ ⟨⟩; rfl)
      | object s children =>
        obtain ⟨s', next, hgiven, hserial, hnext⟩ := given_object serial s children fields
        rw [hgiven]
        refine settles_of_parts rfl hserial fun key c hc => ?_
        rw [child?, hnext] at hc
        obtain ⟨u, hu, rfl⟩ := Option.map_eq_some_iff.1 hc
        exact ih (key, u) (Dict.mem_of_get? hu) (Dict.get? children key)
  | arr values ih =>
    cases old with
    | none => exact settles_build nofun
    | some n =>
      cases n with
      | scalar s b => exact settles_build (by rintro _ ⟨⟩; rfl)
      | object s children => exact settles_build (by rintro _ ⟨⟩; rfl)
      | array s items =>
        obtain ⟨s', next, hgiven, hserial, hnext⟩ := given_array serial s items values
        rw [hgiven]
        refine settles_of_parts rfl hserial fun key c hc => ?_
        obtain ⟨i, hi, hc⟩ := Option.bind_eq_some_iff.1 hc
        rw [hnext] at hc
        obtain ⟨u, hu, rfl⟩ := Option.map_eq_some_iff.1 hc
        rw [child?, hi]
        exact ih u (List.mem_of_getElem? hu) items[i]?

theorem settles_put {v : Json} {rest : List String} {old : Option Node}
    (ih : ∀ n, old = some n → Settles serial (some n) ((Change.set v).apply serial rest n))
    (hput : (Change.set v).put serial rest old = some c) : Settles serial old c := by
  cases old with
  | none =>
    cases hput
    exact settles_build nofun
  | some n =>
    rw [Change.put_some _ rfl] at hput
    cases hput
    exact ih n rfl

/-- The items of an array `Settles` after a value was set in one of them or behind the last one. -/
theorem settles_items {v : Json} {rest : List String} {items : List Node} {j : Nat}
    (ih : ∀ n, Settles serial (some n) ((Change.set v).apply serial rest n))
    (hc : ((Change.set v).items serial key rest items)[j]? = some c) :
    Settles serial items[j]? c := by
  have hkept : items[j]? = some c → Settles serial items[j]? c := by
    intro h
    rw [h]
    exact settles_self c
  unfold Change.items at hc
  cases hp : ArrayIndex.parse? key with
  | none =>
    rw [hp] at hc
    exact hkept hc
  | some i =>
    rw [hp] at hc
    dsimp only at hc
    split at hc
    · -- The item at the position is changed, the others are not.
      rw [List.getElem?_modify] at hc
      obtain ⟨o, ho, rfl⟩ := Option.map_eq_some_iff.1 hc
      rw [ho]
      split
      · exact ih o
      · exact settles_self o
    · split at hc
      · rw [List.getElem?_append] at hc
        split at hc
        · exact hkept hc
        · next hlt =>
          rw [List.getElem?_eq_none (Nat.not_lt.1 hlt)]
          have hput : (Change.set v).put serial rest none = some c :=
            Option.mem_toList.1 (List.mem_of_getElem? hc)
          exact settles_put (by rintro _ ⟨⟩) hput
      · exact hkept hc

/-- Setting a value at the end of a path `Settles` the whole tree. -/
theorem settles_set (v : Json) (path : List String) (n : Node) :
    Settles serial (some n) ((Change.set v).apply serial path n) := by
  -- Along the path; where it passes a node that stays, the other parts are as they were.
  induction path generalizing n with
  | nil =>
    rw [Change.apply_set_nil]
    exact settles_given v (some n)
  | cons key rest ih =>
    cases n with
    | scalar s a =>
      rw [Change.apply_scalar]
      exact settles_build (by rintro _ ⟨⟩; rfl)
    | object s children =>
      obtain ⟨s', next, happly, hserial, hnext⟩ :=
        (Change.set v).apply_object serial key rest s children
      rw [happly]
      refine settles_of_parts rfl hserial fun k c hc => ?_
      rw [child?, hnext] at hc
      rw [child?]
      split at hc
      · next hk =>
        rw [← hk]
        exact settles_put (fun o _ => ih o) hc
      · rw [hc]
        exact settles_self c
    | array s items =>
      have hstays : (Change.set v).takesAway rest = false := rfl
      obtain ⟨s', hserial, happly⟩ := Change.apply_array serial key hstays s items
      rw [happly]
      refine settles_of_parts rfl hserial fun k c hc => ?_
      obtain ⟨j, hj, hc⟩ := Option.bind_eq_some_iff.1 hc
      rw [child?, hj, Option.bind_some]
      exact settles_items ih hc

/-! ### Marking and removing -/

/-- Keys with one spelling lead to the same part of a node. -/
theorem child?_eq_of_spelling {k : String} (h : n.toJson.spelling k = n.toJson.spelling key) :
    n.child? k = n.child? key := by
  cases n with
  | scalar s a => rfl
  | object s children =>
    rw [toJson_object] at h
    exact congrArg _ h
  | array s items =>
    rw [toJson_array] at h
    have hparse : ArrayIndex.parse? k = ArrayIndex.parse? key := by
      rw [← Json.parse?_spelling (items.map toJson) k, h, Json.parse?_spelling]
    rw [child?, child?, hparse]

/-- `remove` and `touch` do nothing under a key without a part. -/
theorem Change.apply_no_part {c : Change} (hc : ∀ v, c ≠ .set v) {rest : List String}
    (hn : n.child? key = none) : c.apply serial (key :: rest) n = n := by
  rw [apply]
  rcases h : c.attempt serial (key :: rest) n with e | _ | next
  · rfl
  · rfl
  · obtain ⟨⟨v, hv, -⟩, -⟩ := attempt_no_part hn h
    exact absurd hv (hc v)

/-- A change beneath a part leaves the serial of the node, changes the part, under every key with
    its spelling, and leaves the other parts. -/
theorem Change.child?_apply {c : Change} {rest : List String} (ht : c.takesAway rest = false)
    {part : Node} (hc : n.child? key = some part) (k : String) :
    (c.apply serial (key :: rest) n).serial = n.serial ∧
      (c.apply serial (key :: rest) n).child? k =
        if n.toJson.spelling k = n.toJson.spelling key then some (c.apply serial rest part)
        else n.child? k := by
  cases n with
  | scalar s a => cases hc
  | object s children =>
    obtain ⟨s', next, happly, hserial, hnext⟩ := c.apply_object serial key rest s children
    have hput : c.put serial rest (Dict.get? children key) = some (c.apply serial rest part) := by
      rw [show Dict.get? children key = some part from hc, c.put_some ht]
    rw [happly, child?, hnext, hput, toJson_object]
    refine ⟨hserial, ?_⟩
    show (if key = k then _ else _) = if k = key then _ else _
    simp only [eq_comm]
    rfl
  | array s items =>
    obtain ⟨i, hp, hi⟩ := Option.bind_eq_some_iff.1 hc
    obtain ⟨s', hserial, happly⟩ := apply_array serial key ht s items
    have hlt : i < items.length := (List.getElem?_eq_some_iff.1 hi).1
    rw [happly, Change.items, hp, toJson_array]
    refine ⟨hserial, ?_⟩
    dsimp only
    rw [if_pos hlt, child?, child?]
    simp only [Json.spelling_arr_eq_iff hp]
    cases ArrayIndex.parse? k with
    | none => rfl
    | some j =>
      -- Two keys have one spelling if they are read as the same position.
      rw [Option.bind_some, Option.bind_some, List.getElem?_modify]
      by_cases hj : i = j
      · subst hj
        simp [hi]
      · have hne : ¬ some j = some i := fun h => hj (Option.some.inj h).symm
        simp [hj, hne]

/-- If the nodes of the changed part are `Carried` by `origin`, then those of the node are by
    `beforeChange`. -/
theorem carried_of_child?_apply {c : Change} {rest : List String} (ht : c.takesAway rest = false)
    {part : Node} (hc : n.child? key = some part) {origin : List String → Option (List String)}
    (hpart : ∀ ks m, (c.apply serial rest part).descendant? ks = some m →
      Carried serial part m (origin ks))
    (hm : (c.apply serial (key :: rest) n).descendant? path = some m) :
    Carried serial n m (n.toJson.beforeChange key origin path) := by
  cases path with
  | nil =>
    cases hm
    exact ⟨n, rfl, (Change.child?_apply ht hc key).1⟩
  | cons k ks =>
    -- The path goes into the part that was changed, or into another one.
    rw [descendant?, (Change.child?_apply ht hc k).2] at hm
    rw [Json.beforeChange]
    split
    · next hk =>
      rw [if_pos hk] at hm
      have hchild : n.child? k = some part := (child?_eq_of_spelling hk).trans hc
      exact (hpart ks m hm).beneath hchild
    · next hk =>
      rw [if_neg hk] at hm
      exact carried_self hm

theorem partOrNew_toJson (hc : n.child? key = some c) : n.toJson.partOrNew key = c.toJson := by
  rw [Json.partOrNew, toJson_child?, hc]
  rfl

/-- After `touch` every node has its own place as its origin, except the one that was marked. -/
theorem carried_touch {mark : List String}
    (hm : (Change.touch.apply serial mark n).descendant? path = some m) :
    Carried serial n m (if (n.descendant? mark).isSome ∧
      n.toJson.spelled path = n.toJson.spelled mark then none else some path) := by
  induction mark generalizing n m path with
  | nil =>
    change (n.renew serial).descendant? path = some m at hm
    cases path with
    | nil =>
      cases hm
      exact serial_renew n serial
    | cons k ks =>
      have hchild : (n.renew serial).child? k = n.child? k := by cases n <;> rfl
      rw [if_neg (by simp [Json.spelled])]
      refine carried_self ?_
      rwa [descendant?, hchild] at hm
  | cons key rest ih =>
    cases hc : n.child? key with
    | none =>
      rw [Change.apply_no_part (c := .touch) (by rintro _ ⟨⟩) hc] at hm
      rw [if_neg (by simp [descendant?, hc])]
      exact carried_self hm
    | some part =>
      have hcarried := carried_of_child?_apply (c := .touch) rfl hc (fun ks m => ih) hm
      cases path with
      | nil =>
        rw [if_neg (by simp [Json.spelled])]
        exact hcarried
      | cons k ks =>
        rw [Json.beforeChange] at hcarried
        have hmark : n.descendant? (key :: rest) = part.descendant? rest := by
          rw [descendant?, hc, Option.bind_some]
        rw [hmark]
        -- The rest of the path is compared with the rest of the mark only beneath the same part.
        by_cases hk : n.toJson.spelling k = n.toJson.spelling key
        · have hchild : n.child? k = some part := (child?_eq_of_spelling hk).trans hc
          have hspelled : n.toJson.spelled (k :: ks) = n.toJson.spelled (key :: rest) ↔
              part.toJson.spelled ks = part.toJson.spelled rest := by
            rw [Json.spelled, Json.spelled, partOrNew_toJson hchild, partOrNew_toJson hc, hk,
              List.cons.injEq, eq_self, true_and]
          simp only [hspelled]
          rw [if_pos hk] at hcarried
          split at hcarried
          · next h => rwa [if_pos h]
          · next h => rwa [if_neg h]
        · rw [if_neg hk] at hcarried
          have hother : n.toJson.spelled (k :: ks) ≠ n.toJson.spelled (key :: rest) :=
            fun h => hk (List.cons.inj h).1
          rw [if_neg fun h => hother h.2]
          exact hcarried

/-- `beforeCut` goes down the path as `beforeChange` does, unless an item of an array is
    taken out. -/
theorem beforeCut_cons {rest : List String} (h : ∀ s items, rest = [] → n ≠ array s items) :
    Json.beforeCut (key :: rest) n.toJson =
      n.toJson.beforeChange key (Json.beforeCut rest (n.toJson.partOrNew key)) := by
  cases rest with
  | cons r rest => rfl
  | nil =>
    cases n with
    | array s items => exact absurd rfl (h s items rfl)
    | scalar s a => rfl
    | object s children => rfl

/-- After an item of an array is removed, its nodes are `Carried` as `beforeCut` says. -/
theorem carried_remove_item {s : Stamp} {items : List Node} (hl : items.length ≤ ArrayIndex.limit)
    (hm : (Change.remove.apply serial [key] (array s items)).descendant? path = some m) :
    Carried serial (array s items) m (Json.beforeCut [key] (array s items).toJson path) := by
  rw [Change.apply_remove_item] at hm
  rw [toJson_array, Json.beforeCut, List.length_map]
  cases hi : (ArrayIndex.parse? key).filter (· < items.length) with
  | none =>
    rw [hi] at hm
    exact carried_self hm
  | some i =>
    rw [hi] at hm
    cases path with
    | nil =>
      cases hm
      exact serial_renew (array s items) serial
    | cons k ks =>
      obtain ⟨c, hc, hrest⟩ := Option.bind_eq_some_iff.1 hm
      obtain ⟨j, hj, hc⟩ := Option.bind_eq_some_iff.1 hc
      dsimp only
      rw [Json.beforeErase, hj, Option.map_some]
      rw [List.getElem?_eraseIdx] at hc
      -- An item in front of the removed one stayed, one behind it has come from the next position.
      split at hc
      · -- In front of the item everything is where it was.
        next hlt =>
        rw [if_pos hlt]
        refine carried_self ?_
        rw [descendant?, child?, hj, Option.bind_some, hc]
        exact hrest
      · next hge =>
        rw [if_neg hge]
        refine carried_self ?_
        have hlt : j + 1 < ArrayIndex.limit :=
          Nat.lt_of_lt_of_le (List.getElem?_eq_some_iff.1 hc).1 hl
        rw [descendant?, child?, ArrayIndex.parse?_text hlt, Option.bind_some, hc]
        exact hrest

/-- After any other part is removed, the nodes of its object are `Carried` as `beforeChange`
    says. -/
theorem carried_remove_child (hn : ∀ s items, n ≠ array s items)
    {origin : List String → Option (List String)}
    (hm : (Change.remove.apply serial [key] n).descendant? path = some m) :
    Carried serial n m (n.toJson.beforeChange key origin path) := by
  cases n with
  | array s items => exact absurd rfl (hn s items)
  | scalar s a =>
    cases path with
    | nil => exact carried_self hm
    | cons k ks => cases hm
  | object s children =>
    obtain ⟨s', next, happly, hserial, hnext⟩ :=
      Change.remove.apply_object serial key [] s children
    rw [happly] at hm
    cases path with
    | nil =>
      cases hm
      exact ⟨_, rfl, hserial⟩
    | cons k ks =>
      rw [descendant?, child?, hnext] at hm
      rw [toJson_object]
      show Carried serial _ m (if k = key then _ else _)
      split at hm
      · -- Nothing is left under the key.
        cases hk : Dict.get? children key <;> rw [hk] at hm <;> cases hm
      · next hk =>
        rw [if_neg fun h => hk h.symm]
        exact carried_self hm

/-- After `remove` every node is `Carried` as `beforeCut` says. -/
theorem carried_remove {gone : List String} (hn : n.Regular)
    (hm : (Change.remove.apply serial gone n).descendant? path = some m) :
    Carried serial n m (Json.beforeCut gone n.toJson path) := by
  induction gone generalizing n m path with
  | nil => exact carried_self hm
  | cons key rest ih =>
    -- Only the removal of an item moves others, so that case stands apart.
    by_cases hitem : ∃ s items, rest = [] ∧ n = array s items
    · obtain ⟨s, items, rfl, rfl⟩ := hitem
      exact carried_remove_item (regular_array.1 hn).2.1 hm
    have hplace : ∀ s items, rest = [] → n ≠ array s items :=
      fun s items hrest hn => hitem ⟨s, items, hrest, hn⟩
    have hself : n.RegularTo n.childSerial := ⟨Nat.le_refl _, hn⟩
    rw [beforeCut_cons hplace]
    cases hc : n.child? key with
    | none =>
      rw [Change.apply_no_part (c := .remove) (by rintro _ ⟨⟩) hc] at hm
      cases path with
      | nil => exact carried_self hm
      | cons k ks =>
        rw [Json.beforeChange]
        split
        · next hk =>
          rw [descendant?, child?_eq_of_spelling hk, hc] at hm
          cases hm
        · exact carried_self hm
    | some part =>
      rw [partOrNew_toJson hc]
      cases ht : Change.remove.takesAway rest with
      | false => exact carried_of_child?_apply ht hc (fun ks m => ih (hself.child? hc).2) hm
      | true =>
        obtain ⟨-, rfl⟩ := Change.eq_remove_of_takesAway ht
        exact carried_remove_child (fun s items => hplace s items rfl) hm

-- The item behind the removed one has come to its position; the array itself is stamped.
example : Json.beforeCut ["a", "0"] (.obj [("a", .arr [.int 5, .int 7])]) ["a", "0"] =
      some ["a", "1"] ∧
    Json.beforeCut ["a", "0"] (.obj [("a", .arr [.int 5, .int 7])]) ["a"] = none := by decide

end Carried

end Node

namespace Store

/-! ### Requests -/

/-- Where the node at a place after a request stood before it, if the request neither built nor
    stamped the node.  This is told by the value of the store and the request alone. -/
def Op.origin? (s : Store) (path : List String) : Op → Option (List String)
  | set p v => if s.value.staysAlong (s.set p v.json).2.value path then some path else none
  | remove p => s.value.beforeCut p path
  | touch p =>
    if s.contains p ∧ s.value.spelled path = s.value.spelled p then none else some path
  | _ => some path

/-- After every request to a `Valid` store, a node with an `Op.origin?` has the serial that it had
    there, and any other the serial of the tick. -/
theorem Valid.carried {s : Store} (hs : s.Valid) (op : Op) {path : List String} {m : Node}
    (hm : (op.run s).node? path = some m) :
    Node.Carried s.openTick.1 s.root m (op.origin? s path) := by
  rw [node?, root_run] at hm
  cases op with
  | set p v =>
    rw [Op.origin?, value, value, root_set]
    exact Node.settles_set v.json p s.root path m hm
  | remove p => exact Node.carried_remove hs.root.2 hm
  | touch p => exact Node.carried_touch hm
  | _ => exact Node.carried_self hm

end Store

end Observatory

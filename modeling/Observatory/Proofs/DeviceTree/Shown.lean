import Observatory.Proofs.DeviceTree.Projection
import Observatory.Proofs.Json.Alter

/-!
# Objects that show maps

The devices stand in a store as objects of objects.  This module says when such objects show what
maps say, and that a change along a path of keys shows the change of the maps.

* `KeyMap.Shows`: an object with a field for every value of a map;
* `KeyMap.Shows.alter`: a change beneath a key;
* `VectorFacts.Shown`: an object that shows a vector, whatever its revision;
* `VectorFacts.shown_ofDefinition`, `Shown.setOwn`, `Shown.setValue`, `Shown.revise`: what writers
  do to it;
* `Json.unrevised`: a value without revisions;
* `DeviceMap.Shown.unrevised_eq`: what shows the same devices is the same but for revisions.
-/

namespace Observatory

/-! ### Objects that show maps -/

/-- The object has a field for every value of the map, and no others, where `R` relates a value to
    its field. -/
def KeyMap.Shows {α : Type} (R : α → Json → Prop) (f : KeyMap α) (t : Json) : Prop :=
  ∃ fields, t = .obj fields ∧ Dict.Sorted fields ∧
    ∀ key, Option.Rel R (f key) (Dict.get? fields key)

namespace KeyMap

variable {α : Type} {R : α → Json → Prop} {f : KeyMap α} {o : Option (KeyMap α)} {t : Json}
  {key : String} {rest : List String}

theorem shows_empty (R : α → Json → Prop) : Shows R empty (.obj []) :=
  ⟨[], rfl, .nil, fun _ => .none⟩

/-- What the object has under a key shows what the map has there. -/
theorem Shows.part? {o' : Option Json} (h : Option.Rel (Shows R) o o') (key : String) :
    Option.Rel R (o.bind fun f => f key) (o'.bind fun t => t.part? key) := by
  cases h with
  | none => exact .none
  | some h =>
    obtain ⟨fields, rfl, -, hfields⟩ := h
    exact hfields key

/-- Inserting a field is setting a value of the map. -/
theorem Shows.insert {fields : Dict Json} (h : Shows R f (.obj fields)) (key : String) {a : α}
    {u : Json} (hu : R a u) :
    Shows R (f.set key (some a)) (.obj (Dict.insert fields key u)) := by
  obtain ⟨fields, he, hsorted, hfields⟩ := h
  obtain rfl := (Json.obj.inj he).symm
  refine ⟨_, rfl, Dict.sorted_insert hsorted key u, fun k => ?_⟩
  rw [Dict.get?_insert, set_apply]
  by_cases hk : key = k
  · rw [if_pos hk, if_pos hk.symm]
    exact .some hu
  · rw [if_neg hk, if_neg (Ne.symm hk)]
    exact hfields k

/-- Erasing a field is taking a value out of the map. -/
theorem Shows.erase {fields : Dict Json} (h : Shows R f (.obj fields)) (key : String) :
    Shows R (f.set key none) (.obj (Dict.erase fields key)) := by
  obtain ⟨fields, he, hsorted, hfields⟩ := h
  obtain rfl := (Json.obj.inj he).symm
  refine ⟨_, rfl, Dict.sorted_erase hsorted key, fun k => ?_⟩
  rw [Dict.get?_erase, set_apply]
  by_cases hk : key = k
  · rw [if_pos hk, if_pos hk.symm]
    exact .none
  · rw [if_neg hk, if_neg (Ne.symm hk)]
    exact hfields k

/-- `Json.alter` along a path through the object is `KeyMap.alter` of the map, if it is so beneath
    the first key. -/
theorem Shows.alter {o' : Option Json} (h : Option.Rel (Shows R) o o')
    {g : Option α → Option α} {j : Option Json → Option Json}
    (hg : Option.Rel R (g (o.bind fun f => f key))
      (Json.alter j rest (o'.bind fun t => t.part? key))) :
    Option.Rel (Shows R) (KeyMap.alter g key o) (Json.alter j (key :: rest) o') := by
  -- Where there was no object, an empty one is taken for it.
  have hnew : Shows R (o.getD empty) (.obj (Json.fieldsOf o')) := by
    cases h with
    | none => exact shows_empty R
    | some h =>
      obtain ⟨fields, rfl, hfields⟩ := h
      exact ⟨fields, rfl, hfields⟩
  rw [KeyMap.alter, Json.alter]
  generalize g (o.bind fun f => f key) = a, Json.alter j rest _ = u at hg
  cases hg with
  | some hu => exact .some (hnew.insert key hu)
  | none =>
    cases h with
    | none => exact .none
    | some h => exact .some (hnew.erase key)

/-- A path is open in the object if it is open beneath its first key. -/
theorem Shows.openIn {o' : Option Json} (h : Option.Rel (Shows R) o o')
    (hrest : Json.OpenIn rest (o'.bind fun t => t.part? key)) : Json.OpenIn (key :: rest) o' := by
  refine Json.openIn_cons.2 ⟨?_, hrest⟩
  rintro t rfl
  cases h with
  | some h =>
    obtain ⟨fields, rfl, -⟩ := h
    exact ⟨fields, rfl⟩

/-- An object made of pairs shows the map that `setAll` makes of their values. -/
theorem shows_ofPairs {β : Type} (key : β → String) (a : β → α) (u : β → Json) {bs : List β}
    (h : ∀ b ∈ bs, R (a b) (u b)) : Shows R (setAll (bs.map fun b => (key b, a b)) empty)
      (.obj (Dict.ofPairs (bs.map fun b => (key b, u b)))) := by
  have hfold : ∀ (f : KeyMap α) (d : Dict Json), Shows R f (.obj d) →
      Shows R (setAll (bs.map fun b => (key b, a b)) f)
        (.obj ((bs.map fun b => (key b, u b)).foldl (fun d p => Dict.insert d p.1 p.2) d)) := by
    induction bs with
    | nil => exact fun f d hd => hd
    | cons b bs ih =>
      obtain ⟨hb, hbs⟩ := List.forall_mem_cons.1 h
      exact fun f d hd => ih hbs _ _ (hd.insert (key b) hb)
  exact hfold empty [] (shows_empty R)

/-- An object made of values shows the map that `setAll` makes of them. -/
theorem shows_ofPairs_self (pairs : List (String × Json)) :
    Shows Eq (setAll pairs empty) (.obj (Dict.ofPairs pairs)) := by
  have hmap : pairs.map (fun p => (p.1, p.2)) = pairs := List.map_id _
  have hshows : Shows Eq (setAll (pairs.map fun p => (p.1, p.2)) empty)
      (.obj (Dict.ofPairs (pairs.map fun p => (p.1, p.2)))) :=
    shows_ofPairs Prod.fst Prod.snd Prod.snd fun _ _ => rfl
  rwa [hmap] at hshows

/-- An object that shows a map of JSON values has just these values. -/
theorem Shows.get? {fields : Dict Json} {f : KeyMap Json} (h : Shows Eq f (.obj fields)) :
    Dict.get? fields = f := by
  obtain ⟨fields, he, -, hfields⟩ := h
  obtain rfl := (Json.obj.inj he).symm
  funext key
  have hkey := hfields key
  generalize f key = a, Dict.get? fields key = b at hkey
  cases hkey with
  | none => rfl
  | some h => rw [h]

end KeyMap

/-! ### Objects that show vectors -/

namespace VectorFacts

/-- The object shows a vector: its own fields are those of `v`, but for a revision, and the field
    of the members shows the members. -/
def Shown (v : VectorFacts) (t : Json) : Prop :=
  ∃ fields, t = .obj fields ∧ Dict.Sorted fields ∧
    (∀ key, key ≠ Layout.revisionKey → key ≠ Layout.membersKey →
      Dict.get? fields key = v.own key) ∧
    ∃ c, Dict.get? fields Layout.membersKey = some c ∧
      KeyMap.Shows (KeyMap.Shows Eq) v.members c

section Shown

variable {v : VectorFacts} {t u : Json} {key : String} {m : Member} {f : KeyMap Json}

/-- No attribute has the key of the members. -/
theorem fieldKey_ne_membersKey (name : String) : Layout.fieldKey name ≠ Layout.membersKey := by
  intro h
  have hlist := congrArg String.toList h
  rw [Layout.fieldKey, String.toList_append] at hlist
  exact absurd (List.cons.inj hlist).1 (by decide)

/-- The object that is written for a definition shows what is defined. -/
theorem shown_ofDefinition (d : Definition) (revision : Nat) :
    (ofDefinition d).Shown (TreeWriter.vectorObject d revision) := by
  refine ⟨_, rfl, Dict.sorted_ofPairs _, ?_, ?_⟩
  · intro key hrev hmembers
    show _ = KeyMap.setAll (definedFacts d) .empty key
    rw [(KeyMap.shows_ofPairs_self _).get?, KeyMap.setAll_filter,
      KeyMap.setAll_filter (definedFacts d)]
    -- The two lists differ in keys that are not this one.
    have hrev' : ¬ Layout.revisionKey = key := Ne.symm hrev
    have hmembers' : ¬ Layout.membersKey = key := Ne.symm hmembers
    simp [definedFacts, List.filter_append, List.filter_cons, hrev', hmembers']
  · refine ⟨_, ?_, KeyMap.shows_ofPairs Member.name
      (fun m => KeyMap.setAll (definedFields m) .empty) TreeWriter.memberObject
      fun m _ => KeyMap.shows_ofPairs_self _⟩
    rw [(KeyMap.shows_ofPairs_self _).get?, KeyMap.setAll_append]
    rfl

/-- Every own field of an object that shows a vector is open. -/
theorem Shown.openIn_own (h : v.Shown t) (key : String) : Json.OpenIn [key] (some t) := by
  obtain ⟨fields, rfl, -⟩ := h
  exact Json.openIn_cons.2 ⟨fun t ht => ⟨fields, (Option.some.inj ht).symm⟩, fun _ _ => trivial⟩

/-- Every field of a member of an object that shows a vector is open. -/
theorem Shown.openIn_member (h : v.Shown t) (name key : String) :
    Json.OpenIn [Layout.membersKey, name, key] (some t) := by
  obtain ⟨fields, rfl, -, -, c, hc, hmembers⟩ := h
  refine Json.openIn_cons.2 ⟨fun t ht => ⟨fields, (Option.some.inj ht).symm⟩, ?_⟩
  rw [show (some (Json.obj fields)).bind (fun t => t.part? Layout.membersKey) = some c from hc]
  refine KeyMap.Shows.openIn (.some hmembers) ?_
  exact KeyMap.Shows.openIn (KeyMap.Shows.part? (.some hmembers) name) fun _ _ => trivial

/-- An object that shows a vector has just the members that are known. -/
theorem Shown.isSome_member (h : v.Shown t) (name : String) :
    (Json.read [Layout.membersKey, name] (some t)).isSome = (v.members name).isSome := by
  obtain ⟨fields, rfl, -, -, c, hc, hmembers⟩ := h
  have hmember := KeyMap.Shows.part? (.some hmembers) name
  rw [Json.read_cons, Json.read_cons, Json.read_nil,
    show (some (Json.obj fields)).bind (fun t => t.part? Layout.membersKey) = some c from hc]
  generalize (some c).bind _ = o at hmember
  rw [Option.bind_some] at hmember
  generalize v.members name = f at hmember
  cases hmember <;> rfl

/-- Writing an own field keeps `Shown`, with the field set. -/
theorem Shown.setOwn (h : v.Shown t) (hkey : key ≠ Layout.membersKey) (u : Json) :
    ∃ t', Json.alter (fun _ => some u) [key] (some t) = some t' ∧
      Shown { v with own := v.own.set key (some u) } t' := by
  obtain ⟨fields, rfl, hsorted, hown, c, hc, hmembers⟩ := h
  refine ⟨_, rfl, _, rfl, Dict.sorted_insert hsorted key u, ?_, c, ?_, hmembers⟩
  · intro k hrev hk
    show Dict.get? (Dict.insert fields key u) k = v.own.set key (some u) k
    rw [Dict.get?_insert, KeyMap.set_apply, hown k hrev hk]
    simp only [eq_comm]
  · show Dict.get? (Dict.insert fields key u) Layout.membersKey = some c
    rw [Dict.get?_insert, if_neg hkey, hc]

/-- Writing a revision keeps `Shown` with the same facts. -/
theorem Shown.revise (h : v.Shown t) (u : Json) :
    ∃ t', Json.alter (fun _ => some u) [Layout.revisionKey] (some t) = some t' ∧ v.Shown t' := by
  have hkey : Layout.revisionKey ≠ Layout.membersKey := by decide
  obtain ⟨t', halter, fields, rfl, hsorted, hown, hmembers⟩ := h.setOwn hkey u
  refine ⟨_, halter, fields, rfl, hsorted, fun k hrev hk => (hown k hrev hk).trans ?_, hmembers⟩
  show v.own.set Layout.revisionKey (some u) k = v.own k
  rw [KeyMap.set_apply, if_neg hrev]

/-- Writing the value of a member that is there keeps `Shown`, with the value set. -/
theorem Shown.setValue (h : v.Shown t) (hf : v.members m.name = some f) :
    ∃ t', Json.alter (fun _ => some (.str m.value))
      [Layout.membersKey, m.name, Layout.valueKey] (some t) = some t' ∧
        Shown { v with members := VectorFacts.setValue v.members m } t' := by
  obtain ⟨fields, rfl, hsorted, hown, c, hc, hmembers⟩ := h
  have hset : KeyMap.alter (KeyMap.alter (fun _ => some (.str m.value)) Layout.valueKey) m.name
      (some v.members) = some (VectorFacts.setValue v.members m) := by
    rw [KeyMap.alter, Option.bind_some, hf]
    show some (v.members.set m.name _) = some (v.members.set m.name ((v.members m.name).map _))
    rw [hf]
    rfl
  -- The map of the members shows the object of the members, and so it does after both are altered.
  have hchilds : Option.Rel (KeyMap.Shows (KeyMap.Shows Eq))
      (KeyMap.alter (KeyMap.alter (fun _ => some (.str m.value)) Layout.valueKey) m.name
        (some v.members))
      (Json.alter (fun _ => some (.str m.value)) [m.name, Layout.valueKey] (some c)) := by
    refine KeyMap.Shows.alter (.some hmembers) ?_
    refine KeyMap.Shows.alter (KeyMap.Shows.part? (.some hmembers) m.name) ?_
    exact .some rfl
  rw [hset] at hchilds
  have hpart : (some (Json.obj fields)).bind (fun t => t.part? Layout.membersKey) = some c := hc
  rw [Json.alter, hpart]
  generalize Json.alter _ [m.name, Layout.valueKey] (some c) = o at hchilds
  cases hchilds with
  | some hshows =>
    refine ⟨_, rfl, _, rfl, Dict.sorted_insert hsorted _ _, ?_, _, ?_, hshows⟩
    · intro key hrev hkey
      show Dict.get? (Dict.insert fields Layout.membersKey _) key = v.own key
      rw [Dict.get?_insert, if_neg (Ne.symm hkey), hown key hrev hkey]
    · show Dict.get? (Dict.insert fields Layout.membersKey _) Layout.membersKey = _
      rw [Dict.get?_insert, if_pos rfl]

end Shown

end VectorFacts

/-- What stands at the path of the devices, if anything does, shows the vectors of all devices. -/
abbrev DeviceMap.Shown (devices : DeviceMap) (o : Option Json) : Prop :=
  Option.Rel (KeyMap.Shows (KeyMap.Shows VectorFacts.Shown)) devices o

/-! ### Without revisions -/

namespace Json

mutual

/-- A JSON value without all revisions in it. -/
def unrevised : Json → Json
  | .scalar a => .scalar a
  | .arr items => .arr (unrevisedItems items)
  | .obj fields => .obj (unrevisedFields fields)

/-- Items without the revisions in them. -/
def unrevisedItems : List Json → List Json
  | [] => []
  | v :: rest => unrevised v :: unrevisedItems rest

/-- The fields that are no revisions, without the revisions in them. -/
def unrevisedFields : List (String × Json) → List (String × Json)
  | [] => []
  | (key, v) :: rest =>
    if key = Layout.revisionKey then unrevisedFields rest
    else (key, unrevised v) :: unrevisedFields rest

end

/-- `unrevised` selects the fields that are no revisions. -/
theorem unrevisedFields_eq (fields : Dict Json) : unrevisedFields fields =
    Dict.select (fun key v => if key = Layout.revisionKey then none else some v.unrevised)
      fields := by
  induction fields with
  | nil => rfl
  | cons p rest ih =>
    obtain ⟨key, v⟩ := p
    rw [unrevisedFields, Dict.select_cons, ih]
    split <;> rfl

/-- Two objects are equal without revisions, if what they have under every other key is. -/
theorem unrevised_obj_eq {fields fields' : Dict Json} (h : Dict.Sorted fields)
    (h' : Dict.Sorted fields') (hkeys : ∀ key, key ≠ Layout.revisionKey →
      (Dict.get? fields key).map unrevised = (Dict.get? fields' key).map unrevised) :
    (obj fields).unrevised = (obj fields').unrevised := by
  rw [unrevised, unrevised, unrevisedFields_eq, unrevisedFields_eq]
  refine congrArg obj (Dict.ext (Dict.sorted_select h _) (Dict.sorted_select h' _) fun key => ?_)
  rw [Dict.get?_select h.nodup_keys, Dict.get?_select h'.nodup_keys]
  by_cases hkey : key = Layout.revisionKey
  · simp [hkey]
  · have hmap := hkeys key hkey
    rw [Option.map_eq_bind, Option.map_eq_bind] at hmap
    simp only [if_neg hkey]
    exact hmap

end Json

section Unrevised

variable {α : Type} {R : α → Json → Prop} {f : KeyMap α} {t t' : Json}

/-- Two values that show the same are equal without revisions, if this is so of their parts. -/
theorem unrevised_eq_of_rel (hR : ∀ a t t', R a t → R a t' → t.unrevised = t'.unrevised)
    {o : Option α} {u u' : Option Json} (h : Option.Rel R o u) (h' : Option.Rel R o u') :
    u.map Json.unrevised = u'.map Json.unrevised := by
  cases h with
  | none =>
    cases h'
    rfl
  | some h =>
    cases h' with
    | some h' => exact congrArg some (hR _ _ _ h h')

/-- Two objects that show one map are equal without revisions, if this is so of their fields. -/
theorem KeyMap.Shows.unrevised_eq
    (hR : ∀ a t t', R a t → R a t' → t.unrevised = t'.unrevised)
    (h : KeyMap.Shows R f t) (h' : KeyMap.Shows R f t') : t.unrevised = t'.unrevised := by
  obtain ⟨fields, rfl, hsorted, hfields⟩ := h
  obtain ⟨fields', rfl, hsorted', hfields'⟩ := h'
  exact Json.unrevised_obj_eq hsorted hsorted' fun key _ =>
    unrevised_eq_of_rel hR (hfields key) (hfields' key)

/-- Two objects that show one vector are equal without revisions. -/
theorem VectorFacts.Shown.unrevised_eq {v : VectorFacts} (h : v.Shown t) (h' : v.Shown t') :
    t.unrevised = t'.unrevised := by
  obtain ⟨fields, rfl, hsorted, hown, c, hc, hmembers⟩ := h
  obtain ⟨fields', rfl, hsorted', hown', c', hc', hmembers'⟩ := h'
  refine Json.unrevised_obj_eq hsorted hsorted' fun key hrev => ?_
  by_cases hkey : key = Layout.membersKey
  · subst hkey
    rw [hc, hc']
    have hsame : ∀ a t t' : Json, a = t → a = t' → t.unrevised = t'.unrevised := by
      rintro a t t' rfl rfl
      rfl
    refine congrArg some (hmembers.unrevised_eq (fun f t t' ht ht' => ?_) hmembers')
    exact ht.unrevised_eq hsame ht'
  · rw [hown key hrev hkey, hown' key hrev hkey]

/-- **What shows the same devices is equal without revisions**, so the maps determine all of the
    tree but the revisions. -/
theorem DeviceMap.Shown.unrevised_eq {devices : DeviceMap} {o o' : Option Json}
    (h : devices.Shown o) (h' : devices.Shown o') :
    o.map Json.unrevised = o'.map Json.unrevised := by
  refine unrevised_eq_of_rel (fun f t t' ht ht' => ?_) h h'
  refine ht.unrevised_eq (fun f t t' ht ht' => ?_) ht'
  exact ht.unrevised_eq (fun v t t' ht ht' => ht.unrevised_eq ht') ht'

end Unrevised

end Observatory

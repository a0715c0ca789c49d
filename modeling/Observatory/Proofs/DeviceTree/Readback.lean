import Observatory.DeviceTree.View
import Observatory.Proofs.DeviceTree.Target

/-!
# Vectors as they are seen

A view of a vector tells its kind, its state, its revision, and the names and values of its members
by reading the fields of a node.  The attributes of a driver are fields too, and they may have the
keys of these facts.  This module says when a definition is seen as it was sent, and what later
updates change in the view.

* `Layout.view`, `Layout.read?_view`: the view of a vector in a store;
* `VectorView.Reports`, `VectorFacts.Shown.reports`: a view of what is known of a vector;
* `Definition.ReadsBack`, `Definition.Plain`, `Definition.readsBack_iff`: a definition is seen as it
  was sent exactly if no attribute takes the place of a fact;
* `Update.Changes`, `TreeWriter.Stands.changes`: what an update changes in a view;
* `TreeWriter.readsBack_run`: definitions and what comes after them, in the life of a writer.
-/

namespace Observatory

/-! ### Views and values -/

/-- The scalar that a JSON value is, if it is one. -/
def Json.asScalar? : Json → Option Scalar
  | .scalar a => some a
  | _ => none

namespace Node

theorem asScalar?_eq (n : Node) : n.asScalar? = n.toJson.asScalar? := by cases n <;> rfl

theorem descendant?_append (n : Node) (path rest : List String) :
    n.descendant? (path ++ rest) = (n.descendant? path).bind fun m => m.descendant? rest := by
  induction path generalizing n with
  | nil => rfl
  | cons key path ih =>
    rw [List.cons_append, descendant?, descendant?]
    cases n.child? key with
    | none => rfl
    | some c => exact ih c

theorem descendant?_concat (n : Node) (path : List String) (key : String) :
    n.descendant? (path ++ [key]) = (n.descendant? path).bind fun m => m.child? key := by
  rw [descendant?_append]
  refine congrArg (Option.bind _) (funext fun m => ?_)
  show (m.child? key).bind some = m.child? key
  cases m.child? key <;> rfl

end Node

namespace VectorView

/-- The JSON value at a path beneath the node of the view. -/
def read? (v : VectorView) (path : List String) : Option Json :=
  Json.read path (v.node.map Node.toJson)

variable {v : VectorView}

/-- Reading along a key of a node is reading in its child. -/
theorem read_child (node : Option Node) (key : String) (path : List String) :
    Json.read (key :: path) (node.map Node.toJson) =
      Json.read path ((node.bind fun n => n.child? key).map Node.toJson) := by
  rw [Json.read_cons]
  cases node with
  | none => rfl
  | some n => exact congrArg (Json.read path) (Node.toJson_child? n key)

/-- `scalar?` in terms of the JSON value of the node. -/
theorem scalar?_eq (node : Option Node) (key : String) : scalar? node key =
    (Json.read [key] (node.map Node.toJson)).bind Json.asScalar? := by
  rw [read_child, Json.read_nil, scalar?]
  cases node.bind fun n => n.child? key with
  | none => rfl
  | some c => exact c.asScalar?_eq

/-- The text of the scalar that a value is, is the text of the value. -/
theorem bind_text? (o : Option Json) :
    (o.bind Json.asScalar?).bind text? = o.bind Json.asText? := by
  rcases o with - | ⟨a⟩ | - | - <;> try rfl
  cases a <;> rfl

/-- The kind in a view, read from the JSON value. -/
theorem kind?_eq (v : VectorView) :
    v.kind? = ((v.read? [Layout.kindKey]).bind Json.asText?).bind VectorKind.ofName? := by
  rw [kind?, scalar?_eq, bind_text?, read?]

/-- The state in a view, read from the JSON value. -/
theorem state?_eq (v : VectorView) :
    v.state? = ((v.read? [Layout.stateKey]).bind Json.asText?).bind VectorState.ofName? := by
  rw [state?, scalar?_eq, bind_text?, read?]

/-- The revision in a view, read from the JSON value. -/
theorem revision?_eq (v : VectorView) :
    v.revision? = (v.read? [Layout.revisionKey]).bind Json.asNatural? := by
  rw [revision?, scalar?_eq, ← read?]
  rcases v.read? [Layout.revisionKey] with - | ⟨a⟩ | - | - <;> rfl

/-- The value of a member in a view, read from the JSON value. -/
theorem value?_eq (v : VectorView) (name : String) : v.value? name =
    ((v.read? [Layout.membersKey, name, Layout.valueKey]).bind Json.asScalar?).map
      Scalar.display := by
  rw [value?, scalar?_eq, member?, read?, read_child v.node, read_child _ name]

/-- If the names are an array, `memberNames` are the texts in it, in their order. -/
theorem memberNames_eq {items : List Json}
    (h : v.read? [Layout.memberNamesKey] = some (.arr items)) :
    v.memberNames = items.filterMap Json.asText? := by
  -- The keys of the items are numbers that go up, and the view does not look at them.
  have hnumbered : ∀ (nodes : List Node) i,
      (Node.numbered i nodes).filterMap (fun p => p.2.asScalar?.bind text?) =
        (nodes.map Node.toJson).filterMap Json.asText? := by
    intro nodes
    induction nodes with
    | nil => exact fun _ => rfl
    | cons n nodes ih =>
      intro i
      have hfirst : n.asScalar?.bind text? = n.toJson.asText? := by
        rw [Node.asScalar?_eq]
        exact bind_text? (some n.toJson)
      rw [Node.numbered, List.map_cons, List.filterMap_cons, List.filterMap_cons, hfirst, ih]
  rw [read?, read_child, Json.read_nil] at h
  rw [memberNames]
  generalize (v.node.bind fun n => n.child? Layout.memberNamesKey) = o at h
  obtain ⟨n, rfl, hn⟩ := Option.map_eq_some_iff.1 h
  cases n with
  | scalar s a => cases hn
  | object s children => cases hn
  | array s nodes =>
    rw [Node.toJson_array] at hn
    rw [← Json.arr.inj hn]
    exact hnumbered nodes 0

end VectorView

/-- The view of a device has the node at the path of the device. -/
theorem DeviceTree.node_device (path : List String) (s : Store) (name : String) :
    (({ path, store := s } : DeviceTree).device name).node = s.node? (path ++ [name]) :=
  (s.root.descendant?_concat path name).symm

/-- The view of a vector in the store `s`. -/
def Layout.view (l : Layout) (s : Store) (device name : String) : VectorView :=
  (({ path := l.treePath, store := s } : DeviceTree).device device).vector name

/-- The view of a vector has the node at the path of the vector. -/
theorem Layout.node_view (l : Layout) (s : Store) (device name : String) :
    (l.view s device name).node = s.node? (l.vector device name) := by
  have hpath : l.vector device name = (l.treePath ++ [device]) ++ [name] := by
    rw [Layout.vector, List.append_assoc]
    rfl
  rw [hpath, Store.node?, Node.descendant?_concat, ← Store.node?, ← DeviceTree.node_device]
  rfl

/-- The view of a vector reads what the store has beneath the path of the vector. -/
theorem Layout.read?_view (l : Layout) (s : Store) (device name : String) (path : List String) :
    (l.view s device name).read? path = Json.read path (s.get? (l.vector device name)) := by
  rw [VectorView.read?, l.node_view, Store.get?]

/-! ### Views of facts -/

/-- The view shows what is known of a vector: its kind, its state, the names of its members and
    their values. -/
structure VectorView.Reports (v : VectorView) (V : VectorFacts) : Prop where
  kind : v.kind? = ((V.own Layout.kindKey).bind Json.asText?).bind VectorKind.ofName?
  state : v.state? = ((V.own Layout.stateKey).bind Json.asText?).bind VectorState.ofName?
  names : ∀ items, V.own Layout.memberNamesKey = some (.arr items) →
    v.memberNames = items.filterMap Json.asText?
  values : ∀ name, v.value? name =
    (((V.members name).map fun f => f Layout.valueKey).join.bind Json.asScalar?).map Scalar.display

/-- A view of an object that shows `V` reports `V`. -/
theorem VectorFacts.Shown.reports {V : VectorFacts} {t : Json} {v : VectorView} (h : V.Shown t)
    (hv : ∀ path, v.read? path = Json.read path (some t)) : v.Reports V := by
  obtain ⟨fields, rfl, -, hown, c, hc, hmembers⟩ := h
  -- A fact of the vector is the field under its key; revision and members are told apart.
  have hfact : ∀ key, key ≠ Layout.revisionKey → key ≠ Layout.membersKey →
      v.read? [key] = V.own key := by
    intro key hrev hkey
    rw [hv, Json.read_cons, Json.read_nil]
    exact hown key hrev hkey
  refine ⟨?_, ?_, fun items hitems => ?_, fun name => ?_⟩
  · rw [v.kind?_eq, hfact _ (by decide) (by decide)]
  · rw [v.state?_eq, hfact _ (by decide) (by decide)]
  · exact VectorView.memberNames_eq ((hfact _ (by decide) (by decide)).trans hitems)
  · have hmember := KeyMap.Shows.part? (.some hmembers) name
    have hpart : (some (Json.obj fields)).bind (fun t => t.part? Layout.membersKey) = some c := hc
    rw [v.value?_eq, hv, Json.read_cons, hpart, Json.read_cons]
    rw [Option.bind_some] at hmember
    generalize V.members name = f, (some c).bind _ = o at hmember
    cases hmember with
    | none => rfl
    | some hfields =>
      obtain ⟨fs, rfl, -⟩ := id hfields
      rw [Json.read_cons, Json.read_nil, Option.map_some, ← hfields.get?]
      rfl

/-! ### Attributes among the facts -/

namespace TreeWriter

/-- Attributes of different names have different keys. -/
theorem fieldKey_injective {a b : String} (h : Layout.fieldKey a = Layout.fieldKey b) : a = b := by
  have hlist := congrArg String.toList h
  rw [Layout.fieldKey, Layout.fieldKey, String.toList_append, String.toList_append] at hlist
  exact String.toList_inj.1 (List.append_cancel_left hlist)

/-- The field of an attribute has the last value of that attribute. -/
theorem last?_attributeFields (attributes : Dict String) (name : String) :
    Dict.last? (attributeFields attributes) (Layout.fieldKey name) =
      (Dict.last? attributes name).map Json.str := by
  induction attributes with
  | nil => rfl
  | cons a attributes ih =>
    obtain ⟨k, value⟩ := a
    have hkey : Layout.fieldKey k = Layout.fieldKey name ↔ k = name :=
      ⟨fieldKey_injective, congrArg _⟩
    rw [attributeFields, List.map_cons, Dict.last?_cons, Dict.last?_cons, Option.map_or, ← ih]
    simp only [hkey]
    split <;> rfl

/-- There is no attribute under a key that is no attribute's. -/
theorem last?_attributeFields_of_ne {key : String} (h : ∀ name, Layout.fieldKey name ≠ key)
    (attributes : Dict String) : Dict.last? (attributeFields attributes) key = none := by
  induction attributes with
  | nil => rfl
  | cons a attributes ih =>
    rw [attributeFields, List.map_cons, Dict.last?_cons, if_neg (h a.1), Option.or_none]
    exact ih

/-- No attribute has the key of the member names. -/
theorem fieldKey_ne_memberNamesKey (name : String) :
    Layout.fieldKey name ≠ Layout.memberNamesKey := by
  intro h
  have hlist := congrArg String.toList h
  rw [Layout.fieldKey, String.toList_append] at hlist
  exact absurd (List.cons.inj hlist).1 (by decide)

end TreeWriter

/-! ### Definitions -/

/-- The last member of a definition with the given name. -/
def Definition.member? (d : Definition) (name : String) : Option Member :=
  d.members.reverse.find? fun m => decide (m.name = name)

/-- All names of members are texts, so none is left out where they are read. -/
theorem Definition.texts_memberNames (d : Definition) :
    (d.members.map fun m => Json.str m.name).filterMap Json.asText? =
      d.members.map Member.name := by
  rw [List.filterMap_map]
  exact congrFun (List.filterMap_eq_map (f := Member.name)) d.members

/-- The view shows the vector as it was defined, with the given revision. -/
structure Definition.ReadsBack (d : Definition) (revision : Nat) (v : VectorView) : Prop where
  kind : v.kind? = some d.kind
  state : v.state? = some d.state
  revision : v.revision? = some revision
  names : v.memberNames = d.members.map Member.name
  values : ∀ name, v.value? name = (d.member? name).map Member.value

/-- No attribute of the definition has the key of one of its facts, unless it has the same
    value. -/
structure Definition.Plain (d : Definition) : Prop where
  kind : ∀ x, Dict.last? d.attributes "type" = some x → x = d.kind.name
  state : ∀ x, Dict.last? d.attributes "state" = some x → x = d.state.name
  revision : Dict.last? d.attributes "rev" = none
  values : ∀ name m, d.member? name = some m →
    ∀ x, Dict.last? m.attributes "_" = some x → x = m.value

namespace VectorFacts

variable {d : Definition}

/-- An own field of a vector that is defined.  Member names come first, then the attributes, which
    take the place of the other facts. -/
theorem own_ofDefinition (d : Definition) (key : String) : (ofDefinition d).own key =
    (Dict.last? [(Layout.memberNamesKey, .arr (d.members.map fun m => .str m.name))] key).or
      ((Dict.last? (TreeWriter.attributeFields d.attributes) key).or
        ((Dict.last? (TreeWriter.optionalField Layout.timestampKey d.timestamp) key).or
          (Dict.last? [(Layout.kindKey, Json.str d.kind.name),
            (Layout.stateKey, Json.str d.state.name)] key))) := by
  rw [ofDefinition]
  dsimp only
  rw [KeyMap.setAll_apply, KeyMap.empty, Option.or_none, definedFacts, Dict.last?_append,
    Dict.last?_append, Dict.last?_append]

/-- The field for the kind is that of the attribute `type`, if there is one. -/
theorem own_kind (d : Definition) : (ofDefinition d).own Layout.kindKey =
    some (.str ((Dict.last? d.attributes "type").getD d.kind.name)) := by
  rw [own_ofDefinition, show Layout.kindKey = Layout.fieldKey "type" by decide,
    TreeWriter.last?_attributeFields, TreeWriter.last?_optionalField]
  cases Dict.last? d.attributes "type" <;> rfl

/-- The field for the state is that of the attribute `state`, if there is one. -/
theorem own_state (d : Definition) : (ofDefinition d).own Layout.stateKey =
    some (.str ((Dict.last? d.attributes "state").getD d.state.name)) := by
  rw [own_ofDefinition, show Layout.stateKey = Layout.fieldKey "state" by decide,
    TreeWriter.last?_attributeFields, TreeWriter.last?_optionalField]
  cases Dict.last? d.attributes "state" <;> rfl

/-- The field for the member names has the names of the definition. -/
theorem own_memberNames (d : Definition) : (ofDefinition d).own Layout.memberNamesKey =
    some (.arr (d.members.map fun m => .str m.name)) := by
  rw [own_ofDefinition, Dict.last?_singleton, if_pos rfl, Option.some_or]

/-- The value of a member is that of its attribute `_`, if there is one. -/
theorem value_ofDefinition (d : Definition) (name : String) :
    ((ofDefinition d).members name).map (fun f => f Layout.valueKey) =
      (d.member? name).map fun m =>
        some (.str ((Dict.last? m.attributes "_").getD m.value)) := by
  rw [ofDefinition]
  dsimp only
  rw [KeyMap.setAll_apply, KeyMap.empty, Option.or_none, Dict.last?_map, ← Definition.member?]
  cases d.member? name with
  | none => rfl
  | some m =>
    rw [Option.map_some, Option.map_some, Option.map_some, KeyMap.setAll_apply, KeyMap.empty,
      Option.or_none, definedFields, Dict.last?_append,
      show Layout.valueKey = Layout.fieldKey "_" by decide, TreeWriter.last?_attributeFields]
    cases Dict.last? m.attributes "_" <;> rfl

end VectorFacts

/-- A name is read as a kind if and only if it is the name of that kind. -/
theorem VectorKind.ofName?_eq_some {name : String} {k : VectorKind} :
    ofName? name = some k ↔ name = k.name := by
  refine ⟨fun h => ?_, fun h => h ▸ ofName?_name k⟩
  rw [ofName?] at h
  have hname := List.find?_some h
  exact (of_decide_eq_true hname).symm

/-- A name is read as a state if and only if it is the name of that state. -/
theorem VectorState.ofName?_eq_some {name : String} {s : VectorState} :
    ofName? name = some s ↔ name = s.name := by
  refine ⟨fun h => ?_, fun h => h ▸ ofName?_name s⟩
  rw [ofName?] at h
  have hname := List.find?_some h
  exact (of_decide_eq_true hname).symm

/-- A text stays if and only if what takes its place, if anything does, is the same text. -/
theorem getD_eq_iff {o : Option String} {text : String} :
    o.getD text = text ↔ ∀ x, o = some x → x = text := by
  cases o <;> simp

/-- **A definition reads back if and only if it is `Plain`.** The view of the object that is
    written for it shows it as it was sent exactly if no attribute takes the place of a fact. -/
theorem Definition.readsBack_iff {d : Definition} {revision : Nat} {v : VectorView}
    (hv : ∀ path, v.read? path = Json.read path (some (TreeWriter.vectorObject d revision))) :
    d.ReadsBack revision v ↔ d.Plain := by
  have hreports := (VectorFacts.shown_ofDefinition d revision).reports hv
  have hkind := hreports.kind
  have hstate := hreports.state
  have hnames := hreports.names _ (VectorFacts.own_memberNames d)
  have hvalues := hreports.values
  rw [VectorFacts.own_kind] at hkind
  rw [VectorFacts.own_state] at hstate
  rw [d.texts_memberNames] at hnames
  -- The revision is what was written unless an attribute takes its key, since the last of the
  -- pairs counts.
  have hrevision : v.revision? = some revision ↔ Dict.last? d.attributes "rev" = none := by
    rw [v.revision?_eq, hv, Json.read_cons, Json.read_nil]
    show (Dict.get? (Dict.ofPairs _) _).bind _ = _ ↔ _
    rw [Dict.get?_ofPairs_eq_last?, Dict.last?_append, Dict.last?_append, Dict.last?_append,
      show Layout.revisionKey = Layout.fieldKey "rev" by decide,
      TreeWriter.last?_attributeFields, TreeWriter.last?_optionalField]
    cases Dict.last? d.attributes "rev" with
    | none => exact iff_of_true rfl rfl
    | some x => exact iff_of_false nofun nofun
  have hvalue : ∀ name, v.value? name =
      (d.member? name).map fun m => (Dict.last? m.attributes "_").getD m.value := by
    intro name
    rw [hvalues, VectorFacts.value_ofDefinition]
    cases d.member? name <;> rfl
  constructor
  · intro h
    refine ⟨?_, ?_, hrevision.1 h.revision, fun name m hm => ?_⟩
    · exact getD_eq_iff.1 (VectorKind.ofName?_eq_some.1 (hkind.symm.trans h.kind))
    · exact getD_eq_iff.1 (VectorState.ofName?_eq_some.1 (hstate.symm.trans h.state))
    · have hsame := (hvalue name).symm.trans (h.values name)
      rw [hm] at hsame
      exact getD_eq_iff.1 (Option.some.inj hsame)
  · intro h
    refine ⟨?_, ?_, hrevision.2 h.revision, hnames, fun name => ?_⟩
    · exact hkind.trans (VectorKind.ofName?_eq_some.2 (getD_eq_iff.2 h.kind))
    · exact hstate.trans (VectorState.ofName?_eq_some.2 (getD_eq_iff.2 h.state))
    · rw [hvalue]
      cases hm : d.member? name with
      | none => rfl
      | some m => exact congrArg some (getD_eq_iff.2 (h.values name m hm))

/-! ### Updates -/

/-- The last member of an update with the given name. -/
def Update.member? (u : Update) (name : String) : Option Member :=
  u.members.reverse.find? fun m => decide (m.name = name)

/-- No attribute of the update has the key of the kind or of the state. -/
structure Update.Plain (u : Update) : Prop where
  kind : Dict.last? u.attributes "type" = none
  state : Dict.last? u.attributes "state" = none

/-- The view `v'` is `v`, but for the state, if the update has one, and the values of members that
    the update has. -/
structure Update.Changes (u : Update) (v v' : VectorView) : Prop where
  kind : v'.kind? = v.kind?
  names : v'.memberNames = v.memberNames
  state : v'.state? = u.state.or v.state?
  values : ∀ name, v'.value? name =
    (v.value? name).map fun old => ((u.member? name).map Member.value).getD old

/-- What lasts of a definition while its vector is updated: its kind, its member names, and that
    members have values. -/
structure Definition.Lasts (d : Definition) (V : VectorFacts) : Prop where
  kind : V.own Layout.kindKey = some (.str d.kind.name)
  names : V.own Layout.memberNamesKey = some (.arr (d.members.map fun m => .str m.name))
  values : ∀ name f, V.members name = some f → ∃ x, f Layout.valueKey = some (.str x)

namespace VectorFacts

variable {d : Definition} {V : VectorFacts} {u : Update}

/-- An own field after an update: an attribute comes first, then the timestamp and the state, then
    what was there. -/
theorem own_update (u : Update) (V : VectorFacts) (key : String) : (V.update u).own key =
    ((Dict.last? (TreeWriter.attributeFields u.attributes) key).or
      ((if key = Layout.timestampKey then u.timestamp.map .str else none).or
        (if key = Layout.stateKey then (u.state.map VectorState.name).map .str else none))).or
          (V.own key) := by
  rw [update]
  dsimp only
  rw [KeyMap.setAll_apply, TreeWriter.updateFields, Dict.last?_append, Dict.last?_append,
    TreeWriter.last?_optionalField, TreeWriter.last?_optionalField]

/-- The last of several values for a member counts, if the member is there. -/
theorem value_foldl_setValue (ms : List Member) (members : KeyMap (KeyMap Json)) (name : String) :
    (ms.foldl setValue members name).map (fun f => f Layout.valueKey) =
      (members name).map fun f =>
        (Dict.last? (ms.map fun m => (m.name, Json.str m.value)) name).or (f Layout.valueKey) := by
  induction ms generalizing members with
  | nil => rfl
  | cons m ms ih =>
    rw [List.foldl_cons, ih, List.map_cons, Dict.last?_cons, setValue]
    by_cases hm : m.name = name
    · -- The first value is under those of later members with the name.
      subst hm
      rw [KeyMap.modify_key, Option.map_map, if_pos rfl]
      refine congrArg (fun g => (members m.name).map g) (funext fun f => ?_)
      show Option.or _ (f.set Layout.valueKey _ Layout.valueKey) = _
      rw [KeyMap.set_apply, if_pos rfl, Option.or_assoc, Option.some_or]
    · rw [KeyMap.modify_ne _ hm, if_neg hm, Option.or_none]

/-- The value of a member after an update. -/
theorem value_update (u : Update) (V : VectorFacts) (name : String) :
    ((V.update u).members name).map (fun f => f Layout.valueKey) =
      (V.members name).map fun f =>
        ((u.member? name).map fun m => .str m.value).or (f Layout.valueKey) := by
  rw [update, value_foldl_setValue, Dict.last?_map, Update.member?]

/-- An update does not change the member names. -/
theorem own_memberNames_update (u : Update) (V : VectorFacts) :
    (V.update u).own Layout.memberNamesKey = V.own Layout.memberNamesKey := by
  rw [own_update, TreeWriter.last?_attributeFields_of_ne TreeWriter.fieldKey_ne_memberNamesKey]
  rfl

/-- Every member has a text for its value. -/
def Valued (V : VectorFacts) : Prop :=
  ∀ name f, V.members name = some f → ∃ x, f Layout.valueKey = some (.str x)

theorem valued_ofDefinition (d : Definition) : (ofDefinition d).Valued := by
  intro name f hf
  have hvalue := value_ofDefinition d name
  rw [hf, Option.map_some] at hvalue
  obtain ⟨m, -, hm⟩ := Option.map_eq_some_iff.1 hvalue.symm
  exact ⟨_, hm.symm⟩

/-- `Valued` is kept by updates. -/
theorem Valued.update (h : V.Valued) (u : Update) : (V.update u).Valued := by
  intro name f hf
  have hvalue := value_update u V name
  rw [hf, Option.map_some] at hvalue
  obtain ⟨f₀, hf₀, hold⟩ := Option.map_eq_some_iff.1 hvalue.symm
  rw [← hold]
  cases u.member? name with
  | none => exact h name f₀ hf₀
  | some m => exact ⟨m.value, rfl⟩

end VectorFacts

namespace Definition

variable {d : Definition} {V : VectorFacts}

/-- A `Plain` definition `Lasts` as soon as it is written. -/
theorem Plain.lasts (h : d.Plain) : d.Lasts (.ofDefinition d) where
  kind := by rw [VectorFacts.own_kind, getD_eq_iff.2 h.kind]
  names := VectorFacts.own_memberNames d
  values := VectorFacts.valued_ofDefinition d

/-- `Lasts` is kept by updates that have no attribute `type`. -/
theorem Lasts.update (h : d.Lasts V) {u : Update}
    (hu : Dict.last? u.attributes "type" = none) : d.Lasts (V.update u) where
  kind := by
    rw [VectorFacts.own_update, show Layout.kindKey = Layout.fieldKey "type" by decide,
      TreeWriter.last?_attributeFields, hu]
    exact h.kind
  names := (VectorFacts.own_memberNames_update u V).trans h.names
  values := VectorFacts.Valued.update h.values u

end Definition

/-- The values that are seen after an update are those of the update, for members that were there,
    and otherwise those before it. -/
theorem VectorView.Reports.value?_update {u : Update} {V : VectorFacts} {v v' : VectorView}
    (hv : v.Reports V) (hv' : v'.Reports (V.update u)) (hvalued : V.Valued) (name : String) :
    v'.value? name =
      (v.value? name).map fun old => ((u.member? name).map Member.value).getD old := by
  rw [hv.values, hv'.values, VectorFacts.value_update]
  cases hf : V.members name with
  | none => rfl
  | some f =>
    obtain ⟨x, hx⟩ := hvalued name f hf
    rw [Option.map_some, Option.map_some, hx]
    cases u.member? name <;> rfl

/-- What a `Plain` update changes in the view of a vector, if a definition of it `Lasts`. -/
theorem Update.Plain.changes {u : Update} {d : Definition} {V : VectorFacts} {v v' : VectorView}
    (hu : u.Plain) (h : d.Lasts V) (hv : v.Reports V) (hv' : v'.Reports (V.update u)) :
    u.Changes v v' := by
  have h' := h.update hu.kind
  refine ⟨?_, ?_, ?_, hv.value?_update hv' h.values⟩
  · rw [hv.kind, hv'.kind, h.kind, h'.kind]
  · rw [hv.names _ h.names, hv'.names _ h'.names]
  · rw [hv'.state, hv.state, VectorFacts.own_update,
      show Layout.stateKey = Layout.fieldKey "state" by decide,
      TreeWriter.last?_attributeFields, hu.state]
    cases u.state with
    | none => rfl
    | some state => exact VectorState.ofName?_name state

/-! ### In the course of a writer's life -/

namespace TreeWriter

section Views

variable {l : Layout} {w : TreeWriter} {s : Store} {devices : DeviceMap} {device name : String}
  {d : Definition} {V : VectorFacts} {u : Update} {e : Event}

/-- A vector that is known is seen as it is known. -/
theorem Stands.reports (h : Stands l s devices) (hV : devices.vector? device name = some V) :
    (l.view s device name).Reports V := by
  have hvector := h.vector device name
  have hat := at?_vector l s device name []
  rw [List.append_nil, Json.read_nil] at hat
  rw [hV, ← hat] at hvector
  generalize ho : s.value.at? (l.vector device name) = o at hvector
  cases hvector with
  | some ht =>
    refine ht.reports fun path => ?_
    rw [Layout.read?_view, Store.get?_eq, ho]

/-- If `define` is not refused, the object of the definition is in the store, with the number that
    was drawn for it. -/
theorem get?_define (hs : s.Valid) (hd : Fits (.define d)) (hok : (define l d s).1 = .ok ()) :
    (define l d s).2.get? (l.vector d.device d.name) = some (vectorObject d s.draw.1) := by
  have hfirm := firm_vectorObject hd s.draw.1
  have hvalid : s.draw.2.Valid := Store.lasting_valid.draw hs
  cases hset : (s.draw.2.set (l.vector d.device d.name) (vectorObject d s.draw.1)).1 with
  | error e =>
    have hmap : (define l d s).1 = (Except.error e).map fun _ => () :=
      congrArg (Except.map fun _ => ()) hset
    rw [hok] at hmap
    cases hmap
  | ok b =>
    obtain ⟨u, hu, hput⟩ := hvalid.put_of_set (v := ⟨vectorObject d s.draw.1, hfirm.proper⟩) hset
    obtain rfl := hfirm.eq_of_same u hu
    rw [Store.get?_eq]
    exact Json.at?_put_self hput

/-- If a definition is not refused, its object is in the store, wherever devices and log may
    lie. -/
theorem get?_apply_define (hs : s.Valid) (hd : Fits (.define d))
    (hok : (w.apply (.define d) s).2.1 = .ok ()) :
    (w.apply (.define d) s).2.2.get? (w.layout.vector d.device d.name) =
      some (vectorObject d (w.note (.define d) s).2.2.draw.1) := by
  have hnote : (w.note (.define d) s).2.2.Valid := by
    rw [TreeWriter.note]
    split
    · exact hs
    · exact survives_appendLog (Store.later_set hs _ ⟨_, (firm_logObject _ _ _).proper⟩).valid
        fun _ _ h => (Store.later_remove h _).valid
  rw [apply_eq] at hok ⊢
  generalize (w.note (.define d) s).2 = r at hnote hok ⊢
  obtain ⟨result | _, s₁⟩ := r
  · cases hok
  · exact get?_define hnote hd hok

/-- A `Plain` update of a vector whose definition `Lasts` is not refused, and `Changes` the
    view. -/
theorem Stands.changes (h : Stands w.layout s devices) (hl : w.layout.Separate) (hu : u.Plain)
    (hV : devices.vector? u.device u.name = some V) (hd : d.Lasts V) :
    (w.apply (.update u) s).2.1 = .ok () ∧ u.Changes (w.layout.view s u.device u.name)
      (w.layout.view (w.apply (.update u) s).2.2 u.device u.name) := by
  obtain ⟨w', s', happly, -, hs'⟩ := h.apply hl (m := .update u) trivial
  have hV' : (DeviceMap.write devices (.update u)).vector? u.device u.name =
      some (V.update u) := by
    rw [DeviceMap.vector?_write, Message.rewrite, if_pos ⟨rfl, rfl⟩, hV]
    rfl
  rw [happly]
  exact ⟨rfl, hu.changes hd (h.reports hV) (hs'.reports hV')⟩

/-- The event neither defines the vector anew nor takes it away, and no update in it has an
    attribute `type`. -/
def Event.Keeps (device name : String) : Event → Prop
  | message (.define d) => ¬(d.device = device ∧ d.name = name)
  | message (.update u) =>
    u.device = device ∧ u.name = name → Dict.last? u.attributes "type" = none
  | message (.delete d) => ¬(d.device = device ∧ (d.name = none ∨ d.name = some name))
  | clear => False
  | _ => True

/-- `Lasts` is kept by events that keep the vector. -/
theorem lasts_follow (hV : ∃ V, devices.vector? device name = some V ∧ d.Lasts V)
    (he : e.Keeps device name) :
    ∃ V, (devices.follow e).vector? device name = some V ∧ d.Lasts V := by
  obtain ⟨V, hV, hd⟩ := hV
  -- An update of the vector keeps what lasts of the definition; other vectors do not matter.
  cases e with
  | message m =>
    rw [DeviceMap.follow, DeviceMap.vector?_write, hV]
    cases m with
    | define d' => exact ⟨V, if_neg he, hd⟩
    | update u =>
      rw [Message.rewrite]
      split
      · next hsame => exact ⟨_, rfl, hd.update (he hsame)⟩
      · exact ⟨V, rfl, hd⟩
    | delete d' => exact ⟨V, if_neg he, hd⟩
    | notice n => exact ⟨V, rfl, hd⟩
  | clear => exact he.elim
  | markBusy device' vector =>
    rw [DeviceMap.follow, DeviceMap.vector?_write, hV, Message.rewrite]
    split
    · exact ⟨_, rfl, hd.update rfl⟩
    · exact ⟨V, rfl, hd⟩
  | _ => exact ⟨V, hV, hd⟩

/-- `Lasts` is kept by a run of events that keep the vector. -/
theorem lasts_foldl (later : List Event) (hlater : ∀ e ∈ later, e.Keeps device name)
    (hV : ∃ V, devices.vector? device name = some V ∧ d.Lasts V) :
    ∃ V, (later.foldl DeviceMap.follow devices).vector? device name = some V ∧ d.Lasts V := by
  induction later generalizing devices with
  | nil => exact hV
  | cons e later ih =>
    obtain ⟨he, hlater⟩ := List.forall_mem_cons.1 hlater
    exact ih hlater (lasts_follow hV he)

end Views

/-- What becomes of a definition that a writer gets after some events. -/
structure ReadsBack (l : Layout) (clock : Clock) (events : List Event) (d : Definition) :
    Prop where
  /-- It is not refused. -/
  done : l.Separate → (apply (run l clock events).1 (.define d) (run l clock events).2).2.1 = .ok ()
  /-- It is seen as it was sent, with the number that was drawn for it, exactly if no attribute
      takes the place of a fact. -/
  seen : (apply (run l clock events).1 (.define d) (run l clock events).2).2.1 = .ok () →
    (d.ReadsBack (note (run l clock events).1 (.define d) (run l clock events).2).2.2.draw.1
      (l.view (run l clock (events ++ [.message (.define d)])).2 d.device d.name) ↔ d.Plain)
  /-- Its kind and the names of its members stay, and an update changes nothing but the state, if
      it has one, and the values of its members. -/
  lasts : l.Separate → d.Plain → ∀ later, (∀ e ∈ later, e.Fits) →
    (∀ e ∈ later, e.Keeps d.device d.name) →
      let p := run l clock (events ++ .message (.define d) :: later)
      let v := l.view p.2 d.device d.name
      v.kind? = some d.kind ∧ v.memberNames = d.members.map Member.name ∧
        ∀ u, u.device = d.device → u.name = d.name → u.Plain →
          (p.1.apply (.update u) p.2).2.1 = .ok () ∧
            u.Changes v (l.view (p.1.apply (.update u) p.2).2.2 d.device d.name)

/-- **Definitions read back.** Whatever a writer has done before, a definition that fits is seen as
    it was sent if and only if it is `Plain`.  If devices and log lie separate, it is not refused,
    and its kind and member names last while later updates change the state and the values of
    members only. -/
theorem readsBack_run (l : Layout) (clock : Clock) (events : List Event)
    (hfits : ∀ e ∈ events, e.Fits) (d : Definition) (hd : Fits (.define d)) :
    ReadsBack l clock events d := by
  obtain ⟨hlayout, hvalid⟩ := valid_run l clock events hfits
  refine ⟨fun hl => ?_, fun hok => ?_, fun hl hplain later hlaterFits hkeeps => ?_⟩
  · obtain ⟨-, hs⟩ := stands_run hl clock events hfits
    generalize run l clock events = p at hlayout hs
    obtain rfl := hlayout.symm
    obtain ⟨w', s', happly, -⟩ := hs.apply hl hd
    rw [happly]
  · refine Definition.readsBack_iff fun path => ?_
    have hthere := get?_apply_define hvalid hd hok
    rw [hlayout] at hthere
    rw [Layout.read?_view, run_concat, Event.run, hthere]
  · -- The definition stands from the moment it is written, and all that comes later leaves it so.
    have hall : ∀ e ∈ events ++ .message (.define d) :: later, e.Fits := by
      simp only [List.forall_mem_append, List.forall_mem_cons]
      exact ⟨hfits, hd, hlaterFits⟩
    obtain ⟨hlayout, hs⟩ := stands_run hl clock _ hall
    rw [List.foldl_append, List.foldl_cons] at hs
    have hdefined : (DeviceMap.follow (events.foldl DeviceMap.follow none)
        (.message (.define d))).vector? d.device d.name = some (.ofDefinition d) := by
      rw [DeviceMap.follow, DeviceMap.vector?_write, Message.rewrite, if_pos ⟨rfl, rfl⟩]
    obtain ⟨V, hV, hlasts⟩ := lasts_foldl later hkeeps ⟨_, hdefined, hplain.lasts⟩
    generalize (later.foldl DeviceMap.follow _) = devices at hs hV
    intro p v
    have hreports : v.Reports V := hs.reports hV
    change p.1.layout = l at hlayout
    change Stands l p.2 devices at hs
    refine ⟨?_, ?_, fun u hdevice hname hu => ?_⟩
    · rw [hreports.kind, hlasts.kind]
      exact VectorKind.ofName?_name d.kind
    · rw [hreports.names _ hlasts.names, d.texts_memberNames]
    · clear_value p
      subst hlayout
      rw [← hdevice, ← hname] at hV
      have hchanges := hs.changes hl hu hV hlasts
      rw [hdevice, hname] at hchanges
      exact hchanges

/-- The definition `dome` with one more member of the same name. -/
def redefined : Definition :=
  { dome with members := dome.members ++ [{ name := "ANGLE", value := "7", attributes := [] }] }

/-- `readsBack_run` applies to `redefined`, after the vector was defined, cleared away and defined
    again; of its two members with one name the last one is seen. -/
theorem readsBack_run_redefined :
    (∀ e ∈ [Event.message (.define dome), .clear, .message (.define dome)], e.Fits) ∧
      Fits (.define redefined) ∧ redefined.Plain ∧
        ReadsBack {} {} [.message (.define dome), .clear, .message (.define dome)] redefined := by
  have hdome : dome.members.length ≤ ArrayIndex.limit := by decide
  have hd : Fits (.define redefined) := by
    show redefined.members.length ≤ ArrayIndex.limit
    decide
  have hfits : ∀ e ∈ [Event.message (.define dome), .clear, .message (.define dome)], e.Fits := by
    simp only [List.forall_mem_cons]
    exact ⟨hdome, trivial, hdome, List.forall_mem_nil _⟩
  -- No member has attributes, so none takes the place of a value.
  have hattributes : ∀ m ∈ redefined.members, m.attributes = [] := by decide
  refine ⟨hfits, hd, ⟨nofun, nofun, rfl, fun name m hm x hx => ?_⟩,
    readsBack_run {} {} _ hfits redefined hd⟩
  rw [hattributes m (List.mem_reverse.1 (List.mem_of_find?_eq_some hm))] at hx
  cases hx

/-- A vector of numbers whose driver says of what type they are, with an attribute `type`. -/
def pulses : Definition :=
  { kind := .number, device := "Guider", name := "PULSES", state := .idle, timestamp := none,
    message := none, attributes := [("type", "guide")],
    members := [{ name := "NORTH", value := "1", attributes := [] }] }

/-- Not every definition reads back: the attribute `type` of `pulses` takes the place of the kind,
    so that the definition is not refused and the view has no kind. -/
theorem pulses_unkind :
    let r := ({} : TreeWriter).apply (.define pulses) (Store.start {})
    let v := ({} : Layout).view r.2.2 "Guider" "PULSES"
    r.2.1 = .ok () ∧ v.kind? = none ∧ ∀ revision, ¬ pulses.ReadsBack revision v := by
  intro r v
  have hkind : v.kind? = none := by decide
  refine ⟨rfl, hkind, fun revision h => ?_⟩
  rw [h.kind] at hkind
  cases hkind

end TreeWriter

end Observatory

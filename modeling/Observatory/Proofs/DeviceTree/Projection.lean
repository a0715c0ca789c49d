import Observatory.DeviceTree.Writer

/-!
# The device tree as maps

Without the revisions, what a writer makes of the messages about devices can be said with maps
alone: devices by name, their vectors by name, and in a vector its own facts and the fields of its
members.

* `KeyMap`: maps, with changes under one key;
* `Keyed`: writes of which the later one counts if they have one key;
* `VectorFacts`: what is known of a vector;
* `DeviceMap`, `DeviceMap.write`: the devices, and what a message changes;
* `Update.without`, `Update.after`: what is left of an update after another one, after a message;
* `DeviceMap.write_after`: an update that comes before a message changes what is left of it after
  the message.
-/

namespace Observatory

/-! ### Maps -/

/-- A map from keys to values, as a function. -/
abbrev KeyMap (α : Type) := String → Option α

namespace KeyMap

variable {α : Type}

/-- The map of nothing. -/
def empty : KeyMap α := fun _ => none

/-- Replace what the map has under a key, or take it away. -/
def set (f : KeyMap α) (key : String) (o : Option α) : KeyMap α :=
  fun k => if k = key then o else f k

/-- Change what the map has under a key, if it has anything there. -/
def modify (g : α → α) (key : String) (f : KeyMap α) : KeyMap α := f.set key ((f key).map g)

/-- Replace what the map has under a key.  If there is no map, one is made for a new value, and
    none to take a value away. -/
def alter (g : Option α → Option α) (key : String) (o : Option (KeyMap α)) : Option (KeyMap α) :=
  match g (o.bind fun f => f key) with
  | some a => some ((o.getD empty).set key (some a))
  | none => o.map fun f => f.set key none

/-- Write some values one after the other, so that of several under one key the last one stays. -/
def setAll (pairs : List (String × α)) (f : KeyMap α) : KeyMap α :=
  pairs.foldl (fun f p => f.set p.1 (some p.2)) f

section Set

variable {f f' : KeyMap α} {key key' k : String}

theorem set_apply (f : KeyMap α) (key : String) (o : Option α) (k : String) :
    f.set key o k = if k = key then o else f k := rfl

/-- Of two values under one key the later one stays. -/
theorem set_set (f : KeyMap α) (key : String) (o o' : Option α) :
    (f.set key o).set key o' = f.set key o' := by
  funext k
  simp only [set_apply]
  split <;> rfl

/-- Values under different keys may be set in either order. -/
theorem set_comm (f : KeyMap α) (h : key ≠ key') (o o' : Option α) :
    (f.set key o).set key' o' = (f.set key' o').set key o := by
  funext k
  simp only [set_apply]
  split
  · next hk => rw [hk, if_neg (Ne.symm h)]
  · rfl

/-- Setting what is there changes nothing. -/
theorem set_self (f : KeyMap α) (key : String) : f.set key (f key) = f := by
  funext k
  rw [set_apply]
  split
  · next hk => rw [hk]
  · rfl

/-- What is under a key after `setAll` depends on the map before only through what was under that
    key. -/
theorem setAll_apply_congr (pairs : List (String × α)) (h : f k = f' k) :
    f.setAll pairs k = f'.setAll pairs k := by
  induction pairs generalizing f f' with
  | nil => exact h
  | cons p pairs ih =>
    refine ih ?_
    show f.set p.1 (some p.2) k = f'.set p.1 (some p.2) k
    rw [set_apply, set_apply, h]

/-- What is under a key after `setAll` depends only on the values for that key. -/
theorem setAll_filter (pairs : List (String × α)) (f : KeyMap α) (k : String) :
    f.setAll pairs k = f.setAll (pairs.filter fun p => p.1 = k) k := by
  induction pairs generalizing f with
  | nil => rfl
  | cons p pairs ih =>
    rw [setAll, List.foldl_cons]
    refine (ih _).trans ?_
    by_cases hp : p.1 = k
    · rw [List.filter_cons_of_pos (by simpa using hp)]
      rfl
    · rw [List.filter_cons_of_neg (by simpa using hp)]
      refine setAll_apply_congr _ ?_
      rw [set_apply, if_neg (Ne.symm hp)]

theorem setAll_append (pairs pairs' : List (String × α)) (f : KeyMap α) :
    f.setAll (pairs ++ pairs') = (f.setAll pairs).setAll pairs' := List.foldl_append

end Set

section Alter

variable {f : KeyMap α} {key key' : String} {o : Option (KeyMap α)} {g j : Option α → Option α}

/-- What is under a key after `alter`. -/
theorem alter_bind (g : Option α → Option α) (key : String) (o : Option (KeyMap α)) (k : String) :
    ((alter g key o).bind fun f => f k) =
      if k = key then g (o.bind fun f => f key) else o.bind fun f => f k := by
  rw [alter]
  cases g (o.bind fun f => f key) <;> cases o <;> simp [set_apply, empty]

/-- `alter` depends on its function only through the value for what is there. -/
theorem alter_congr (h : g (o.bind fun f => f key) = j (o.bind fun f => f key)) :
    alter g key o = alter j key o := by
  rw [alter, h, alter]

/-- `alter` by the identity changes nothing, and makes no map. -/
theorem alter_id (key : String) (o : Option (KeyMap α)) : alter (fun a => a) key o = o := by
  cases o with
  | none => rfl
  | some f =>
    rw [alter, Option.bind_some]
    cases hf : f key with
    | none => exact congrArg some (hf ▸ set_self f key)
    | some a => exact congrArg some (hf ▸ set_self f key)

/-- Of two changes under one key, the value that the second one leaves is all that stays. -/
theorem alter_alter {a : α} (h : g (j (o.bind fun f => f key)) = some a) :
    alter g key (alter j key o) = alter (fun _ => some a) key o := by
  have hkey := alter_bind j key o key
  rw [if_pos rfl] at hkey
  rw [alter, hkey, h, alter, alter]
  cases j (o.bind fun f => f key) <;> cases o <;> simp [set_set]

/-- `alter` by a function that makes nothing out of nothing is `modify`. -/
theorem alter_map (h : α → α) (key : String) (o : Option (KeyMap α)) :
    alter (Option.map h) key o = o.map (modify h key) := by
  cases o with
  | none => rfl
  | some f =>
    show alter (Option.map h) key (some f) = some (f.set key ((f key).map h))
    rw [alter, Option.bind_some]
    cases f key <;> rfl

theorem modify_key (h : α → α) (key : String) (f : KeyMap α) :
    modify h key f key = (f key).map h := if_pos rfl

theorem modify_ne (h : α → α) (hk : key ≠ key') (f : KeyMap α) : modify h key f key' = f key' :=
  if_neg (Ne.symm hk)

/-- `alter` after `modify` under one key is one `alter`. -/
theorem alter_modify (g : Option α → Option α) (h : α → α) (key : String)
    (o : Option (KeyMap α)) :
    alter g key (o.map (modify h key)) = alter (fun a => g (a.map h)) key o := by
  cases o with
  | none => rfl
  | some f =>
    rw [Option.map_some, alter, alter, Option.bind_some, Option.bind_some, modify_key]
    cases g ((f key).map h) <;> exact congrArg some (set_set f key _ _)

/-- `modify` after `alter` under one key is one `alter`. -/
theorem modify_alter (g : Option α → Option α) (h : α → α) (key : String)
    (o : Option (KeyMap α)) :
    (alter g key o).map (modify h key) = alter (fun a => (g a).map h) key o := by
  have hmodify : ∀ (f : KeyMap α) a, modify h key (f.set key a) = f.set key (a.map h) := by
    intro f a
    have hkey : f.set key a key = a := if_pos rfl
    show (f.set key a).set key ((f.set key a key).map h) = _
    rw [hkey, set_set]
  rw [alter, alter]
  cases g (o.bind fun f => f key) with
  | none =>
    cases o with
    | none => rfl
    | some f => exact congrArg some (hmodify f none)
  | some a => exact congrArg some (hmodify (o.getD empty) (some a))

/-- `alter` and `modify` under different keys may be done in either order. -/
theorem alter_modify_comm (hk : key ≠ key') (g : Option α → Option α) (h : α → α)
    (o : Option (KeyMap α)) :
    alter g key' (o.map (modify h key)) = (alter g key' o).map (modify h key) := by
  -- Setting one key and changing another may be done in either order.
  have hmodify : ∀ (f : KeyMap α) a,
      (modify h key f).set key' a = modify h key (f.set key' a) := by
    intro f a
    have hkey : f.set key' a key = f key := if_neg hk
    show (f.set key ((f key).map h)).set key' a = (f.set key' a).set key ((f.set key' a key).map h)
    rw [hkey, set_comm f hk]
  cases o with
  | none =>
    have hempty : modify h key empty = (empty : KeyMap α) := set_self empty key
    rw [Option.map_none, alter, Option.bind_none]
    cases g none with
    | none => rfl
    | some a =>
      have hset := hmodify empty (some a)
      rw [hempty] at hset
      exact congrArg some hset
  | some f =>
    rw [Option.map_some, alter, alter, Option.bind_some, Option.bind_some, modify_ne h hk]
    cases g (f key') <;> exact congrArg some (hmodify f _)

end Alter

end KeyMap

/-! ### Writes under keys -/

/-- Of two writes with one key only the later one counts, and writes with different keys may be
    done in either order. -/
structure Keyed {β γ : Type} (write : β → γ → β) (key : γ → String) : Prop where
  absorb : ∀ {c c'}, key c = key c' → ∀ b, write (write b c) c' = write b c'
  comm : ∀ {c c'}, key c ≠ key c' → ∀ b, write (write b c) c' = write (write b c') c

namespace Keyed

variable {β γ : Type} {write : β → γ → β} {key : γ → String}

/-- A write before others may be done after them, and is not needed if one of them has its key. -/
theorem foldl_write (h : Keyed write key) (c : γ) (cs : List γ) (b : β) :
    cs.foldl write (write b c) =
      if key c ∈ cs.map key then cs.foldl write b else write (cs.foldl write b) c := by
  induction cs generalizing b with
  | nil => rfl
  | cons c' cs ih =>
    rw [List.foldl_cons, List.foldl_cons]
    by_cases hc : key c = key c'
    · rw [h.absorb hc, if_pos (by simp [hc])]
    · rw [h.comm hc, ih]
      simp only [List.map_cons, List.mem_cons, hc, false_or]

/-- Writes before others may be done after them, without those whose keys are written again. -/
theorem foldl_foldl (h : Keyed write key) (cs cs' : List γ) (b : β) :
    cs'.foldl write (cs.foldl write b) =
      (cs.filter fun c => decide (key c ∉ cs'.map key)).foldl write (cs'.foldl write b) := by
  induction cs generalizing b with
  | nil => rfl
  | cons c cs ih =>
    rw [List.foldl_cons, ih, h.foldl_write]
    by_cases hc : key c ∈ cs'.map key
    · rw [if_pos hc, List.filter_cons_of_neg (by simpa using hc)]
    · rw [if_neg hc, List.filter_cons_of_pos (by simpa using hc), List.foldl_cons]

/-- Writing the same things twice is writing them once. -/
theorem foldl_self (h : Keyed write key) (cs : List γ) (b : β) :
    cs.foldl write (cs.foldl write b) = cs.foldl write b := by
  have hnone : (cs.filter fun c => decide (key c ∉ cs.map key)) = [] :=
    List.filter_eq_nil_iff.2 fun c hc => by simpa using ⟨c, hc, rfl⟩
  rw [h.foldl_foldl, hnone, List.foldl_nil]

end Keyed

/-- Setting values in a map is `Keyed` by their keys. -/
theorem keyed_set {α : Type} :
    Keyed (fun (f : KeyMap α) (p : String × α) => f.set p.1 (some p.2)) Prod.fst where
  absorb := by
    rintro ⟨key, a⟩ ⟨key', a'⟩ rfl f
    exact KeyMap.set_set f _ _ _
  comm := fun hne f => KeyMap.set_comm f hne _ _

/-! ### Vectors -/

/-- What is known of a vector, its revision left out: its own fields, and the fields of its members
    by name. -/
structure VectorFacts where
  own : KeyMap Json
  members : KeyMap (KeyMap Json)

namespace VectorFacts

/-- The own fields of a vector that is defined. -/
def definedFacts (d : Definition) : List (String × Json) :=
  [(Layout.kindKey, Json.str d.kind.name), (Layout.stateKey, Json.str d.state.name)] ++
    TreeWriter.optionalField Layout.timestampKey d.timestamp ++
    TreeWriter.attributeFields d.attributes ++
    [(Layout.memberNamesKey, .arr (d.members.map fun m => .str m.name))]

/-- The fields of a member of a definition. -/
def definedFields (m : Member) : List (String × Json) :=
  [(Layout.valueKey, Json.str m.value), (Layout.nameKey, Json.str m.name)] ++
    TreeWriter.attributeFields m.attributes

/-- A vector as it is defined. -/
def ofDefinition (d : Definition) : VectorFacts where
  own := .setAll (definedFacts d) .empty
  members := .setAll (d.members.map fun m => (m.name, .setAll (definedFields m) .empty)) .empty

/-- A member gets a value, if it is there. -/
def setValue (members : KeyMap (KeyMap Json)) (m : Member) : KeyMap (KeyMap Json) :=
  members.modify (fun fields => fields.set Layout.valueKey (some (.str m.value))) m.name

/-- What an update changes in a vector. -/
def update (u : Update) (v : VectorFacts) : VectorFacts where
  own := v.own.setAll (TreeWriter.updateFields u)
  members := u.members.foldl setValue v.members

/-- Setting values of members is `Keyed` by their names. -/
theorem keyed_setValue : Keyed setValue Member.name where
  absorb := by
    intro m m' h members
    show (members.set m.name _).set m'.name
      ((KeyMap.modify _ m.name members m'.name).map _) = members.set m'.name _
    rw [h, KeyMap.modify_key, KeyMap.set_set, Option.map_map]
    refine congrArg (fun g => members.set m'.name ((members m'.name).map g)) (funext fun _ => ?_)
    exact KeyMap.set_set _ _ _ _
  comm := by
    intro m m' h members
    show (KeyMap.modify _ m.name members).set m'.name
        ((KeyMap.modify _ m.name members m'.name).map _) =
      (KeyMap.modify _ m'.name members).set m.name ((KeyMap.modify _ m'.name members m.name).map _)
    rw [KeyMap.modify_ne _ h, KeyMap.modify_ne _ (Ne.symm h)]
    exact KeyMap.set_comm members h _ _

/-- Updating twice is updating once. -/
theorem update_self (u : Update) (v : VectorFacts) : (v.update u).update u = v.update u := by
  have hown : (v.own.setAll (TreeWriter.updateFields u)).setAll (TreeWriter.updateFields u) =
      v.own.setAll (TreeWriter.updateFields u) := keyed_set.foldl_self _ v.own
  rw [update, update, hown, keyed_setValue.foldl_self]

end VectorFacts

/-! ### What is left of an update -/

namespace Update

/-- The update `u` without what `v` says again. -/
def without (u v : Update) : Update :=
  let said := (TreeWriter.updateFields v).map Prod.fst
  { u with
    state := if Layout.stateKey ∈ said then none else u.state
    timestamp := if Layout.timestampKey ∈ said then none else u.timestamp
    attributes := u.attributes.filter fun a => decide (Layout.fieldKey a.1 ∉ said)
    members := u.members.filter fun m => decide (m.name ∉ v.members.map Member.name) }

/-- An update that changes nothing, apart from the revision. -/
structure Silent (u : Update) : Prop where
  state : u.state = none
  timestamp : u.timestamp = none
  attributes : u.attributes = []
  members : u.members = []

/-- The update `u` with nothing left to say. -/
def silenced (u : Update) : Update :=
  { u with state := none, timestamp := none, attributes := [], members := [] }

/-- What is left of an update after a message: what an update of its vector does not say again,
    and nothing once the vector is defined anew or deleted. -/
def after (u : Update) : Message → Update
  | .define d => if d.device = u.device ∧ d.name = u.name then u.silenced else u
  | .update v => if v.device = u.device ∧ v.name = u.name then u.without v else u
  | .delete d =>
    if d.device = u.device ∧ (d.name = none ∨ d.name = some u.name) then u.silenced else u
  | .notice _ => u

/-- The fields of `u.without v` are those of `u` whose keys `v` does not have. -/
theorem updateFields_without (u v : Update) : TreeWriter.updateFields (u.without v) =
    (TreeWriter.updateFields u).filter fun p =>
      decide (p.1 ∉ (TreeWriter.updateFields v).map Prod.fst) := by
  -- A field is left out if its key is said by `v`.
  have hoptional : ∀ (key : String) (o : Option String) (said : List String),
      TreeWriter.optionalField key (if key ∈ said then none else o) =
        (TreeWriter.optionalField key o).filter fun p => decide (p.1 ∉ said) := by
    intro key o said
    cases o <;> by_cases h : key ∈ said <;> simp [TreeWriter.optionalField, h]
  rw [without]
  generalize (TreeWriter.updateFields v).map Prod.fst = said
  have hstate : (if Layout.stateKey ∈ said then none else u.state).map VectorState.name =
      if Layout.stateKey ∈ said then none else u.state.map VectorState.name := by
    split <;> rfl
  rw [TreeWriter.updateFields, TreeWriter.updateFields, List.filter_append, List.filter_append,
    ← hoptional, ← hoptional, hstate, TreeWriter.attributeFields, TreeWriter.attributeFields,
    List.filter_map]
  rfl

end Update

/-- Of two updates of one vector, the first may be done after the second, without what the second
    says again. -/
theorem VectorFacts.update_update (u v : Update) (facts : VectorFacts) :
    (facts.update u).update v = (facts.update v).update (u.without v) := by
  have hown : (facts.own.setAll (TreeWriter.updateFields u)).setAll (TreeWriter.updateFields v) =
      (facts.own.setAll (TreeWriter.updateFields v)).setAll
        (TreeWriter.updateFields (u.without v)) := by
    rw [Update.updateFields_without]
    exact keyed_set.foldl_foldl _ _ facts.own
  rw [update, update, update, update, hown, keyed_setValue.foldl_foldl]
  rfl

/-! ### Devices -/

/-- The vectors of all devices, or `none` if there never was a device. -/
abbrev DeviceMap := Option (KeyMap (KeyMap VectorFacts))

namespace DeviceMap

/-- Replace what is known of a vector. -/
def alterVector (g : Option VectorFacts → Option VectorFacts) (device name : String)
    (devices : DeviceMap) : DeviceMap :=
  KeyMap.alter (KeyMap.alter g name) device devices

/-- What is known of a vector, if anything is. -/
def vector? (devices : DeviceMap) (device name : String) : Option VectorFacts :=
  (devices.bind fun f => f device).bind fun f => f name

/-- What a message changes. -/
def write (devices : DeviceMap) : Message → DeviceMap
  | .define d => devices.alterVector (fun _ => some (.ofDefinition d)) d.device d.name
  | .update u => devices.alterVector (Option.map (.update u)) u.device u.name
  | .delete d =>
    match d.name with
    | some name => devices.alterVector (fun _ => none) d.device name
    | none => KeyMap.alter (fun _ => none) d.device devices
  | .notice _ => devices

section Alter

variable {g j : Option VectorFacts → Option VectorFacts} {device name : String}

theorem vector?_alterVector (g : Option VectorFacts → Option VectorFacts) (device name : String)
    (devices : DeviceMap) : (devices.alterVector g device name).vector? device name =
      g (devices.vector? device name) := by
  rw [vector?, alterVector, KeyMap.alter_bind, if_pos rfl, KeyMap.alter_bind, if_pos rfl, vector?]

/-- Of two replacements of one vector the later one stays. -/
theorem alterVector_alterVector (v v' : VectorFacts) (device name : String)
    (devices : DeviceMap) :
    (devices.alterVector (fun _ => some v) device name).alterVector (fun _ => some v') device
        name = devices.alterVector (fun _ => some v') device name := by
  have hsome : ∀ (v : VectorFacts) o, ∃ f,
      KeyMap.alter (fun _ => some v) name o = some f := fun v o => ⟨_, rfl⟩
  obtain ⟨f, hf⟩ := hsome v' (KeyMap.alter (fun _ => some v) name (devices.bind fun f => f device))
  rw [alterVector, alterVector, KeyMap.alter_alter hf]
  refine KeyMap.alter_congr (hf.symm.trans ?_)
  exact KeyMap.alter_alter rfl

/-- `alterVector` depends on its function only through the value for what is known. -/
theorem alterVector_congr {devices : DeviceMap}
    (h : g (devices.vector? device name) = j (devices.vector? device name)) :
    devices.alterVector g device name = devices.alterVector j device name :=
  KeyMap.alter_congr (KeyMap.alter_congr h)

theorem alterVector_id (device name : String) (devices : DeviceMap) :
    devices.alterVector (fun v => v) device name = devices := by
  have hname : KeyMap.alter (fun v : Option VectorFacts => v) name = fun o => o :=
    funext (KeyMap.alter_id name)
  rw [alterVector, hname, KeyMap.alter_id]

end Alter

section Write

variable {u : Update} {devices : DeviceMap}

/-- An update modifies the vector, if it is there, and makes nothing. -/
theorem write_update (u : Update) (devices : DeviceMap) : devices.write (.update u) =
    devices.map (KeyMap.modify (KeyMap.modify (VectorFacts.update u) u.name) u.device) := by
  have hname : KeyMap.alter (Option.map (VectorFacts.update u)) u.name =
      Option.map (KeyMap.modify (VectorFacts.update u) u.name) :=
    funext fun o => KeyMap.alter_map _ _ o
  rw [write, alterVector, hname, KeyMap.alter_map]

/-- A replacement after an update of the same vector is one replacement. -/
theorem alterVector_write (g : Option VectorFacts → Option VectorFacts) (u : Update)
    (devices : DeviceMap) : (devices.write (.update u)).alterVector g u.device u.name =
      devices.alterVector (fun v => g (v.map (.update u))) u.device u.name := by
  rw [write_update, alterVector, KeyMap.alter_modify]
  exact KeyMap.alter_congr (KeyMap.alter_modify _ _ _ _)

/-- An update after a replacement of the same vector is one replacement. -/
theorem write_alterVector (g : Option VectorFacts → Option VectorFacts) (u : Update)
    (devices : DeviceMap) : (devices.alterVector g u.device u.name).write (.update u) =
      devices.alterVector (fun v => (g v).map (.update u)) u.device u.name := by
  rw [write_update, alterVector, KeyMap.modify_alter]
  exact KeyMap.alter_congr (KeyMap.modify_alter _ _ _ _)

/-- A replacement and an update of different vectors may be done in either order. -/
theorem alterVector_write_comm {device name : String} (h : ¬(device = u.device ∧ name = u.name))
    (g : Option VectorFacts → Option VectorFacts) (devices : DeviceMap) :
    (devices.write (.update u)).alterVector g device name =
      (devices.alterVector g device name).write (.update u) := by
  rw [write_update, write_update, alterVector, alterVector]
  by_cases hd : device = u.device
  · have hn : u.name ≠ name := fun hn => h ⟨hd, hn.symm⟩
    rw [hd, KeyMap.alter_modify, KeyMap.modify_alter]
    exact KeyMap.alter_congr (KeyMap.alter_modify_comm hn g _ _)
  · exact KeyMap.alter_modify_comm (Ne.symm hd) _ _ _

/-- A `Silent` update changes nothing. -/
theorem write_silent (h : u.Silent) (devices : DeviceMap) :
    devices.write (.update u) = devices := by
  have hsame : Option.map (VectorFacts.update u) = fun v => v := by
    funext v
    cases v with
    | none => rfl
    | some v =>
      rw [Option.map_some, VectorFacts.update, TreeWriter.updateFields, h.state, h.timestamp,
        h.attributes, h.members]
      rfl
  rw [write, hsame, alterVector_id]

theorem write_silenced (u : Update) (devices : DeviceMap) :
    devices.write (.update u.silenced) = devices :=
  write_silent ⟨rfl, rfl, rfl, rfl⟩ devices

/-- Writing an update twice is writing it once. -/
theorem write_self (u : Update) (devices : DeviceMap) :
    (devices.write (.update u)).write (.update u) = devices.write (.update u) := by
  refine (alterVector_write _ u devices).trans (alterVector_congr ?_)
  rw [Option.map_map]
  exact congrArg (fun g => Option.map g _) (funext (VectorFacts.update_self u))

/-- **An update may be moved behind a message.** Writing `u` and then `m` is writing `m` and then
    `u.after m`, what is left of `u` after `m`. -/
theorem write_after (u : Update) (m : Message) (devices : DeviceMap) :
    (devices.write (.update u)).write m = (devices.write m).write (.update (u.after m)) := by
  cases m with
  | define d =>
    rw [Update.after]
    split
    · next h =>
      rw [write_silenced, write, h.1, h.2, alterVector_write, ← h.1, ← h.2, write]
    · next h => exact alterVector_write_comm h _ devices
  | update v =>
    rw [Update.after]
    split
    · next h =>
      -- Both updates change one vector.
      have hv : ∀ devices : DeviceMap, devices.write (.update v) =
          devices.alterVector (Option.map (.update v)) u.device u.name := by
        intro devices
        rw [write, h.1, h.2]
      rw [hv, hv, alterVector_write]
      refine Eq.trans ?_ (write_alterVector _ (u.without v) devices).symm
      refine alterVector_congr ?_
      rw [Option.map_map, Option.map_map]
      exact congrArg (fun g => Option.map g _) (funext (VectorFacts.update_update u v))
    · next h => exact alterVector_write_comm h _ devices
  | delete d =>
    have hdelete : ∀ devices : DeviceMap, devices.write (.delete d) =
        match d.name with
        | some name => devices.alterVector (fun _ => none) d.device name
        | none => KeyMap.alter (fun _ => none) d.device devices := fun _ => rfl
    rw [Update.after, hdelete, hdelete]
    cases d.name with
    | none =>
      dsimp only
      split
      · next h => rw [write_silenced, write_update, h.1, KeyMap.alter_modify]
      · next h =>
        have hd : u.device ≠ d.device := fun hd => h ⟨hd.symm, .inl rfl⟩
        rw [write_update, write_update]
        exact KeyMap.alter_modify_comm hd _ _ devices
    | some name =>
      dsimp only
      split
      · next h =>
        have hn : name = u.name := by simpa using h.2
        rw [write_silenced, h.1, hn, alterVector_write]
      · next h =>
        have hn : ¬(d.device = u.device ∧ name = u.name) := by simpa using h
        exact alterVector_write_comm hn _ devices
  | notice n => rfl

end Write

end DeviceMap

end Observatory

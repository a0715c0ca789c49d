import Observatory.Proofs.DeviceTree.Shown
import Observatory.Proofs.Store.Refinement

/-!
# Writing the device tree is changing maps

A writer changes a store along many paths.  If the devices and the messages lie apart, no write is
ever refused, and what stands beneath the path of the devices shows what the maps say.

* `Json.Firm`: values that a store keeps as they are;
* `Store.put_open`, `Store.drop_open`: writes along open paths are done;
* `Layout.Separate`: devices and messages that lie apart;
* `TreeWriter.Stands`: a store with the devices that maps say;
* `TreeWriter.Stands.update`, `Stands.define`, `Stands.delete`, `Stands.log`: the writes of a
  message;
* `TreeWriter.Stands.apply`: a message changes the store as it changes the maps;
* `TreeWriter.Stands.markBusy`, `TreeWriter.Stands.clear`: what a connection writes on its own.
-/

namespace Observatory

/-! ### Values that a store keeps as they are -/

namespace Json

/-- A JSON value that a store keeps exactly as it is: no other value is equal to it in the sense of
    `same`, which ignores the sign of zero. -/
structure Firm (v : Json) : Prop where
  proper : v.Proper
  eq_of_same : ∀ u, u.same v = true → u = v

/-- Every scalar but a double is `Firm`. -/
theorem firm_scalar {a : Scalar} (ha : ∀ x, a ≠ .float x) : (scalar a).Firm := by
  refine ⟨proper_scalar a, fun u hu => ?_⟩
  cases u with
  | arr items => cases hu
  | obj fields => cases hu
  | scalar b =>
    have hb : b.same a = true := hu
    rw [Scalar.same.eq_def] at hb
    split at hb
    · exact absurd rfl (ha _)
    · rw [of_decide_eq_true hb]

theorem firm_str (s : String) : (str s).Firm := firm_scalar nofun

theorem firm_nat (n : Nat) : (nat n).Firm := firm_scalar nofun

theorem firm_arr {items : List Json} (hlen : items.length ≤ ArrayIndex.limit)
    (h : ∀ v ∈ items, v.Firm) : (arr items).Firm := by
  refine ⟨proper_arr.2 ⟨hlen, fun v hv => (h v hv).proper⟩, fun u hu => ?_⟩
  cases u with
  | scalar a => cases hu
  | obj fields => cases hu
  | arr xs =>
    have hxs : sameItems xs items = true := hu
    clear hlen hu
    congr 1
    induction hxs using sameItemsInduction with
    | nil => rfl
    | cons hx _ ih =>
      obtain ⟨hv, hrest⟩ := List.forall_mem_cons.1 h
      rw [hv.eq_of_same _ hx, ih hrest]

theorem firm_obj {fields : Dict Json} (hd : Dict.Sorted fields) (h : ∀ p ∈ fields, p.2.Firm) :
    (obj fields).Firm := by
  refine ⟨proper_obj.2 ⟨hd, fun p hp => (h p hp).proper⟩, fun u hu => ?_⟩
  cases u with
  | scalar a => cases hu
  | arr items => cases hu
  | obj fs =>
    have hfs : sameFields fs fields = true := hu
    clear hd hu
    congr 1
    induction hfs using sameFieldsInduction with
    | nil => rfl
    | cons hx _ ih =>
      obtain ⟨hv, hrest⟩ := List.forall_mem_cons.1 h
      rw [hv.eq_of_same _ hx, ih hrest]

/-- An object made of firm values is firm. -/
theorem firm_ofPairs {pairs : List (String × Json)} (h : ∀ p ∈ pairs, p.2.Firm) :
    (obj (Dict.ofPairs pairs)).Firm := by
  refine firm_obj (Dict.sorted_ofPairs pairs) ?_
  have hfold : ∀ d : Dict Json, (∀ p ∈ d, p.2.Firm) →
      ∀ p ∈ pairs.foldl (fun d p => d.insert p.1 p.2) d, p.2.Firm := by
    induction pairs with
    | nil => exact fun d hd => hd
    | cons p pairs ih =>
      obtain ⟨hp, hpairs⟩ := List.forall_mem_cons.1 h
      intro d hd
      refine ih hpairs _ fun p' hp' => ?_
      rcases Dict.mem_keys_insert hp' with rfl | hp'
      · exact hp
      · exact hd p' hp'
  exact hfold [] (List.forall_mem_nil _)

end Json

namespace Store

variable {s : Store} {path : List String} {v : Json}

/-- If an outcome is that of a value, the change was done and the store has that value. -/
theorem done_of_plain {r : Outcome × Store} {t : Json} (h : plain r = .ok t) :
    ∃ b, r.1 = .ok b ∧ r.2.value = t := by
  obtain ⟨outcome, s'⟩ := r
  cases outcome with
  | error e => cases h
  | ok b => exact ⟨b, rfl, Except.ok.inj h⟩

/-- `put` along an open path is not refused, and the store has the value there. -/
theorem put_open (hs : s.Valid) (hv : v.Firm) (h : Json.Open path s.value) :
    ∃ s', s.put path v = (.ok (), s') ∧ s'.Valid ∧
      Json.alter (fun _ => some v) path (some s.value) = some s'.value := by
  obtain ⟨u, hu, hplain⟩ := hs.plain_set path ⟨v, hv.proper⟩
  obtain rfl := hv.eq_of_same u hu
  obtain ⟨t', hput, halter⟩ := Json.put_eq u h
  obtain ⟨b, hdone, hvalue⟩ := done_of_plain (hplain.trans hput)
  refine ⟨(s.set path u).2, Prod.ext ?_ rfl, (later_set hs path ⟨u, hv.proper⟩).valid, ?_⟩
  · exact congrArg (Except.map fun _ => ()) hdone
  · rw [halter]
    exact congrArg some hvalue.symm

/-- `drop` along an open path is not refused, and the store has nothing there. -/
theorem drop_open (hs : s.Valid) (hne : path ≠ []) (h : Json.Open path s.value) :
    ∃ s', s.drop path = (.ok (), s') ∧ s'.Valid ∧
      Json.alter (fun _ => none) path (some s.value) = some s'.value := by
  obtain ⟨t', hcut, halter⟩ := Json.cut_eq hne h
  obtain ⟨b, hdone, hvalue⟩ := done_of_plain ((hs.plain_remove path).trans hcut)
  refine ⟨(s.remove path).2, Prod.ext ?_ rfl, (later_remove hs path).valid, ?_⟩
  · exact congrArg (Except.map fun _ => ()) hdone
  · rw [halter]
    exact congrArg some hvalue.symm

/-- Something is at a path if and only if the value of the store has something there. -/
theorem contains_eq (s : Store) (path : List String) :
    s.contains path = (s.value.at? path).isSome := by
  rw [contains, value, Node.toJson_descendant?, Option.isSome_map]
  rfl

end Store

/-! ### Devices and messages -/

/-- Neither the path of the devices nor that of the entries of the log is a prefix of the other. -/
structure Layout.Separate (l : Layout) : Prop where
  devices_aside : ¬ l.treePath <+: l.messagesPath ++ [entriesKey]
  entries_aside : ¬ l.messagesPath ++ [entriesKey] <+: l.treePath

section Separate

variable {l : Layout}

theorem Layout.logEntry_eq (l : Layout) (uid : Nat) :
    l.logEntry uid = (l.messagesPath ++ [entriesKey]) ++ [toString uid] := by
  rw [logEntry, List.append_assoc]
  rfl

/-- Layouts in which neither path is a prefix of the other are `Separate`. -/
theorem Layout.separate_of_not_prefix (h : ¬ l.treePath <+: l.messagesPath)
    (h' : ¬ l.messagesPath <+: l.treePath) : l.Separate where
  devices_aside := by
    rw [List.prefix_concat_iff]
    rintro (heq | hpre)
    · exact h' (heq ▸ List.prefix_append _ _)
    · exact h hpre
  entries_aside := fun hpre => h' ((List.prefix_append _ _).trans hpre)

/-- No entry of the log lies beneath the devices. -/
theorem Layout.Separate.not_prefix_logEntry (h : l.Separate) (uid : Nat) :
    ¬ l.treePath <+: l.logEntry uid := by
  rw [Layout.logEntry_eq, List.prefix_concat_iff]
  rintro (heq | hpre)
  · exact h.entries_aside (heq ▸ List.prefix_append _ _)
  · exact h.devices_aside hpre

/-- The devices do not lie beneath an entry of the log. -/
theorem Layout.Separate.logEntry_not_prefix (h : l.Separate) (uid : Nat) :
    ¬ l.logEntry uid <+: l.treePath := by
  rw [Layout.logEntry_eq]
  exact fun hpre => h.entries_aside ((List.prefix_append _ _).trans hpre)

end Separate

/-- The update that says of a vector that it is busy, and nothing else. -/
def Update.busy (device vector : String) : Update :=
  { kind := .number, device, name := vector, state := some .busy, timestamp := none,
    message := none, attributes := [], members := [] }

namespace TreeWriter

/-- The store shows `devices` at their path, is valid, and has open paths for the devices and for
    every entry of the log, so that writes are not refused. -/
structure Stands (l : Layout) (s : Store) (devices : DeviceMap) : Prop where
  valid : s.Valid
  open_tree : Json.Open l.treePath s.value
  open_entry : ∀ uid, Json.Open (l.logEntry uid) s.value
  shows : devices.Shown (s.get? l.treePath)

section Stands

variable {l : Layout} {s s' : Store} {devices devices' : DeviceMap} {device name : String}
  {rest : List String} {v : Json} {V V' : VectorFacts}

/-- A new store shows no devices. -/
theorem stands_start (hl : l.Separate) (clock : Clock) : Stands l (Store.start clock) none where
  valid := Store.valid_start clock
  open_tree := Json.open_emptyObject _
  open_entry := fun _ => Json.open_emptyObject _
  shows := by
    rw [Store.get?_eq]
    cases hpath : l.treePath with
    | nil => exact absurd (hpath ▸ List.nil_prefix) hl.devices_aside
    | cons key rest => exact .none

theorem Stands.openIn_tree (h : Stands l s devices) : Json.OpenIn l.treePath (some s.value) :=
  fun _ ht => Option.some.inj ht ▸ h.open_tree

theorem Stands.openIn_entry (h : Stands l s devices) (uid : Nat) :
    Json.OpenIn (l.logEntry uid) (some s.value) :=
  fun _ ht => Option.some.inj ht ▸ h.open_entry uid

/-- A path beneath the devices is open if it is open from there on. -/
theorem Stands.open_beneath (h : Stands l s devices)
    (hopen : Json.OpenIn rest (s.get? l.treePath)) : Json.Open (l.treePath ++ rest) s.value := by
  rw [Store.get?_eq] at hopen
  exact Json.openIn_append.2 ⟨h.openIn_tree, hopen⟩ _ rfl

/-- `Stands` with the devices that are shown after a change beneath them. -/
theorem Stands.change (h : Stands l s devices) (hl : l.Separate) (hs' : s'.Valid) {o : Option Json}
    (halter : Json.alter (fun _ => o) (l.treePath ++ rest) (some s.value) = some s'.value)
    (hshows : devices'.Shown (Json.alter (fun _ => o) rest (s.get? l.treePath))) :
    Stands l s' devices' := by
  have htree := h.openIn_tree
  -- Seen from the path of the devices, it is a change of what stands there.
  rw [Json.alter_append] at halter
  refine ⟨hs', ?_, fun uid => ?_, ?_⟩
  · exact htree.alter htree (fun _ => rfl) _ halter
  · exact htree.alter (h.openIn_entry uid)
      (fun hpre => absurd hpre (hl.not_prefix_logEntry uid)) _ halter
  · have hread := Json.read_alter (f := Json.alter (fun _ => o) rest) htree
    rw [halter] at hread
    rw [Store.get?_eq] at hshows ⊢
    exact (show s'.value.at? l.treePath = _ from hread) ▸ hshows

/-- `Stands` is kept by a change of an entry of the log. -/
theorem Stands.changeEntry (h : Stands l s devices) (hl : l.Separate) (hs' : s'.Valid)
    {o : Option Json} {uid : Nat}
    (halter : Json.alter (fun _ => o) (l.logEntry uid) (some s.value) = some s'.value) :
    Stands l s' devices := by
  have hentry := h.openIn_entry uid
  refine ⟨hs', ?_, fun uid' => ?_, ?_⟩
  · exact hentry.alter h.openIn_tree (fun hpre => absurd hpre (hl.logEntry_not_prefix uid)) _ halter
  · refine hentry.alter (h.openIn_entry uid') (fun hpre => hpre.eq_of_length ?_) _ halter
    simp [Layout.logEntry]
  · have hread := Json.read_alter_beside (f := fun _ => o) hentry
      (hl.logEntry_not_prefix uid) (hl.not_prefix_logEntry uid)
    rw [halter] at hread
    rw [Store.get?_eq, show s'.value.at? l.treePath = s.value.at? l.treePath from hread,
      ← Store.get?_eq]
    exact h.shows

/-- `Stands` is kept when a number is drawn. -/
theorem Stands.draw (h : Stands l s devices) : Stands l s.draw.2 devices :=
  ⟨(Store.later_draw h.valid).valid, h.open_tree, h.open_entry, h.shows⟩

/-- A `put` beneath the devices is not refused, and the store shows the devices with the value in
    place. -/
theorem Stands.put (h : Stands l s devices) (hl : l.Separate) (hv : v.Firm)
    (hopen : Json.OpenIn rest (s.get? l.treePath))
    (hshows : devices'.Shown (Json.alter (fun _ => some v) rest (s.get? l.treePath))) :
    ∃ s', s.put (l.treePath ++ rest) v = (.ok (), s') ∧ Stands l s' devices' := by
  obtain ⟨s', hput, hs', halter⟩ := Store.put_open h.valid hv (h.open_beneath hopen)
  exact ⟨s', hput, h.change hl hs' halter hshows⟩

/-- A `drop` beneath the devices is not refused, and the store shows the devices without what was
    there. -/
theorem Stands.drop (h : Stands l s devices) (hl : l.Separate) (hrest : rest ≠ [])
    (hopen : Json.OpenIn rest (s.get? l.treePath))
    (hshows : devices'.Shown (Json.alter (fun _ => none) rest (s.get? l.treePath))) :
    ∃ s', s.drop (l.treePath ++ rest) = (.ok (), s') ∧ Stands l s' devices' := by
  have hne : l.treePath ++ rest ≠ [] := List.append_ne_nil_of_right_ne_nil _ hrest
  obtain ⟨s', hdrop, hs', halter⟩ := Store.drop_open h.valid hne (h.open_beneath hopen)
  exact ⟨s', hdrop, h.change hl hs' halter hshows⟩

/-! ### Vectors -/

/-- What the store has at the path of a vector shows what is known of it. -/
theorem Stands.vector (h : Stands l s devices) (device name : String) :
    Option.Rel VectorFacts.Shown (devices.vector? device name)
      (Json.read [device, name] (s.get? l.treePath)) := by
  rw [Json.read_cons, Json.read_cons, Json.read_nil]
  exact KeyMap.Shows.part? (KeyMap.Shows.part? h.shows device) name

/-- Reading beneath the path of a vector. -/
theorem at?_vector (l : Layout) (s : Store) (device name : String) (rest : List String) :
    s.value.at? (l.vector device name ++ rest) =
      Json.read rest (Json.read [device, name] (s.get? l.treePath)) := by
  rw [Layout.vector, Store.get?_eq, ← Json.read_append]
  show Json.read (l.treePath ++ [device, name] ++ rest) (some s.value) = _
  rw [List.append_assoc, Json.read_append]
  rfl

/-- A vector is in the store if and only if something is known of it. -/
theorem Stands.contains_vector (h : Stands l s devices) (device name : String) :
    s.contains (l.vector device name) = (devices.vector? device name).isSome := by
  have hat := at?_vector l s device name []
  rw [List.append_nil, Json.read_nil] at hat
  rw [Store.contains_eq, hat]
  have hvector := h.vector device name
  generalize devices.vector? device name = o, Json.read _ _ = o' at hvector
  cases hvector <;> rfl

/-- A `put` in a vector, where the effect on what shows the vector is given by `hstep`. -/
theorem Stands.putVector (h : Stands l s devices) (hl : l.Separate) (hv : v.Firm)
    {g : Option VectorFacts → Option VectorFacts}
    (hstep : ∀ o, Option.Rel VectorFacts.Shown (devices.vector? device name) o →
      Json.OpenIn rest o ∧ Option.Rel VectorFacts.Shown (g (devices.vector? device name))
        (Json.alter (fun _ => some v) rest o)) :
    ∃ s', s.put (l.vector device name ++ rest) v = (.ok (), s') ∧
      Stands l s' (devices.alterVector g device name) := by
  have hdevice := KeyMap.Shows.part? h.shows device
  obtain ⟨hopen, hshown⟩ := hstep _ (KeyMap.Shows.part? hdevice name)
  rw [Layout.vector, List.append_assoc]
  exact h.put hl hv (KeyMap.Shows.openIn h.shows (KeyMap.Shows.openIn hdevice hopen))
    (KeyMap.Shows.alter h.shows (KeyMap.Shows.alter hdevice hshown))

/-- A `put` in a vector that is known, where the effect on what shows the vector is given by
    `hstep`. -/
theorem Stands.putKnown (h : Stands l s (devices.alterVector (fun _ => some V) device name))
    (hl : l.Separate) (hv : v.Firm)
    (hstep : ∀ t, V.Shown t → Json.OpenIn rest (some t) ∧
      ∃ t', Json.alter (fun _ => some v) rest (some t) = some t' ∧ V'.Shown t') :
    ∃ s', s.put (l.vector device name ++ rest) v = (.ok (), s') ∧
      Stands l s' (devices.alterVector (fun _ => some V') device name) := by
  rw [← DeviceMap.alterVector_alterVector V V']
  refine h.putVector hl hv fun o ho => ?_
  rw [DeviceMap.vector?_alterVector] at ho
  cases ho with
  | some ht =>
    obtain ⟨hopen, t', halter, ht'⟩ := hstep _ ht
    exact ⟨hopen, halter ▸ .some ht'⟩

/-- Writing own fields of a vector is not refused, and sets them in what is known of it. -/
theorem Stands.putFields (hl : l.Separate) {fields : List (String × Json)}
    (hkeys : ∀ p ∈ fields, p.1 ≠ Layout.membersKey ∧ p.2.Firm)
    (h : Stands l s (devices.alterVector (fun _ => some V) device name)) :
    ∃ s', putFields (l.vector device name) fields s = (.ok (), s') ∧
      Stands l s' (devices.alterVector
        (fun _ => some { V with own := V.own.setAll fields }) device name) := by
  induction fields generalizing s V with
  | nil => exact ⟨s, rfl, h⟩
  | cons p fields ih =>
    obtain ⟨⟨hkey, hv⟩, hfields⟩ := List.forall_mem_cons.1 hkeys
    obtain ⟨s₁, hput, h₁⟩ := h.putKnown hl hv fun t ht => ⟨ht.openIn_own p.1, ht.setOwn hkey p.2⟩
    obtain ⟨s', hputs, h'⟩ := ih hfields h₁
    refine ⟨s', ?_, h'⟩
    rw [TreeWriter.putFields, Written.each, hput]
    exact hputs

/-- Writing the value of a member is not refused, and sets it in what is known if the member is
    there. -/
theorem Stands.updateMember (hl : l.Separate) (m : Member)
    (h : Stands l s (devices.alterVector (fun _ => some V) device name)) :
    ∃ s', updateMember l device name m s = (.ok (), s') ∧
      Stands l s' (devices.alterVector
        (fun _ => some { V with members := VectorFacts.setValue V.members m }) device name) := by
  have hvector := h.vector device name
  have hat := at?_vector l s device name [Layout.membersKey, m.name]
  rw [DeviceMap.vector?_alterVector] at hvector
  rw [TreeWriter.updateMember, Layout.member, Store.contains_eq, hat]
  generalize Json.read [device, name] (s.get? l.treePath) = o at hvector
  cases hvector with
  | some ht =>
    rw [ht.isSome_member]
    cases hf : V.members m.name with
    | none =>
      -- A member that is not there gets no value.
      have hsame : VectorFacts.setValue V.members m = V.members := by
        show V.members.set m.name ((V.members m.name).map _) = V.members
        rw [hf, Option.map_none, ← hf]
        exact KeyMap.set_self V.members m.name
      rw [hsame]
      exact ⟨s, rfl, h⟩
    | some f =>
      rw [Option.isSome_some, if_pos rfl, List.append_assoc]
      exact h.putKnown hl (Json.firm_str _) fun t ht =>
        ⟨ht.openIn_member m.name Layout.valueKey, ht.setValue hf⟩

/-- Writing the values of several members is not refused, and sets those of the members that are
    there. -/
theorem Stands.updateMembers (hl : l.Separate) (ms : List Member)
    (h : Stands l s (devices.alterVector (fun _ => some V) device name)) :
    ∃ s', Written.each (TreeWriter.updateMember l device name) ms s = (.ok (), s') ∧
      Stands l s' (devices.alterVector
        (fun _ => some { V with members := ms.foldl VectorFacts.setValue V.members })
        device name) := by
  induction ms generalizing s V with
  | nil => exact ⟨s, rfl, h⟩
  | cons m ms ih =>
    obtain ⟨s₁, hput, h₁⟩ := h.updateMember hl m
    obtain ⟨s', hputs, h'⟩ := ih h₁
    refine ⟨s', ?_, h'⟩
    rw [Written.each, hput]
    exact hputs

/-- Writing a revision is not refused, and changes nothing that is known. -/
theorem Stands.revise (hl : l.Separate)
    (h : Stands l s (devices.alterVector (fun _ => some V) device name)) :
    ∃ s', revise (l.vector device name) s = (.ok (), s') ∧
      Stands l s' (devices.alterVector (fun _ => some V) device name) :=
  h.draw.putKnown hl (Json.firm_nat _) fun _ ht => ⟨ht.openIn_own _, ht.revise _⟩

/-! ### Messages about devices -/

/-- An optional field that is there has its key and a text. -/
theorem eq_of_mem_optionalField {key : String} {o : Option String} {p : String × Json}
    (hp : p ∈ optionalField key o) : p.1 = key ∧ ∃ text, p.2 = .str text := by
  cases o with
  | none => cases hp
  | some text =>
    obtain rfl := List.mem_singleton.1 hp
    exact ⟨rfl, text, rfl⟩

theorem firm_optionalField (key : String) (o : Option String) :
    ∀ p ∈ optionalField key o, p.1 = key ∧ p.2.Firm := by
  intro p hp
  obtain ⟨hkey, text, htext⟩ := eq_of_mem_optionalField hp
  exact ⟨hkey, htext ▸ Json.firm_str text⟩

/-- The fields of attributes have firm values, and none has the key of the members. -/
theorem firm_attributeFields (attributes : Dict String) :
    ∀ p ∈ attributeFields attributes, p.1 ≠ Layout.membersKey ∧ p.2.Firm :=
  List.forall_mem_map.2 fun a _ =>
    ⟨VectorFacts.fieldKey_ne_membersKey a.1, Json.firm_str a.2⟩

/-- The fields of an update have firm values, and none has the key of the members. -/
theorem firm_updateFields (u : Update) :
    ∀ p ∈ updateFields u, p.1 ≠ Layout.membersKey ∧ p.2.Firm := by
  have hstate : Layout.stateKey ≠ Layout.membersKey := by decide
  have htimestamp : Layout.timestampKey ≠ Layout.membersKey := by decide
  simp only [updateFields, List.forall_mem_append]
  refine ⟨⟨fun p hp => ?_, fun p hp => ?_⟩, firm_attributeFields u.attributes⟩
  · obtain ⟨hkey, hv⟩ := firm_optionalField _ _ p hp
    exact ⟨hkey ▸ hstate, hv⟩
  · obtain ⟨hkey, hv⟩ := firm_optionalField _ _ p hp
    exact ⟨hkey ▸ htimestamp, hv⟩

/-- An update is not refused, and changes the devices as `DeviceMap.write` says. -/
theorem Stands.update (h : Stands l s devices) (hl : l.Separate) (u : Update) :
    ∃ s', update l u s = (.ok (), s') ∧ Stands l s' (devices.write (.update u)) := by
  rw [TreeWriter.update, h.contains_vector, DeviceMap.write]
  cases hV : devices.vector? u.device u.name with
  | none =>
    -- Nothing is known of the vector, so an update changes nothing, in the store and in the map.
    have hsame : devices.alterVector (Option.map (.update u)) u.device u.name = devices :=
      (DeviceMap.alterVector_congr (by rw [hV]; rfl)).trans
        (DeviceMap.alterVector_id u.device u.name devices)
    rw [hsame]
    exact ⟨s, rfl, h⟩
  | some V =>
    have hknown : devices.alterVector (fun _ => some V) u.device u.name = devices :=
      (DeviceMap.alterVector_congr hV.symm).trans
        (DeviceMap.alterVector_id u.device u.name devices)
    obtain ⟨s₁, hfields, h₁⟩ := Stands.putFields hl (firm_updateFields u) (hknown.symm ▸ h)
    obtain ⟨s₂, hmembers, h₂⟩ := h₁.updateMembers hl u.members
    obtain ⟨s', hrevise, h'⟩ := h₂.revise hl
    refine ⟨s', ?_, ?_⟩
    · rw [Option.isSome_some, if_pos rfl, hfields]
      show ((Written.each _ u.members s₁).andThen _) = _
      rw [hmembers]
      exact hrevise
    · rw [DeviceMap.alterVector_congr (j := fun _ => some (V.update u)) (by rw [hV]; rfl)]
      exact h'

/-- The object of a definition is firm, unless it has too many members for an array. -/
theorem firm_vectorObject {d : Definition} (hd : d.members.length ≤ ArrayIndex.limit)
    (revision : Nat) : (vectorObject d revision).Firm := by
  -- Firm values are built from texts and numbers; only the list of names could be too long.
  have hmember : ∀ m, (memberObject m).Firm := by
    intro m
    refine Json.firm_ofPairs ?_
    simp only [List.cons_append, List.nil_append, List.forall_mem_cons]
    exact ⟨Json.firm_str _, Json.firm_str _, fun p hp => (firm_attributeFields _ p hp).2⟩
  have hmembers :
      (Json.obj (Dict.ofPairs (d.members.map fun m => (m.name, memberObject m)))).Firm :=
    Json.firm_ofPairs (List.forall_mem_map.2 fun m _ => hmember m)
  have hnames : (Json.arr (d.members.map fun m => .str m.name)).Firm :=
    Json.firm_arr (by rwa [List.length_map]) (List.forall_mem_map.2 fun m _ => Json.firm_str m.name)
  refine Json.firm_ofPairs ?_
  simp only [List.forall_mem_append, List.forall_mem_cons]
  exact ⟨⟨⟨⟨Json.firm_str _, Json.firm_str _, Json.firm_nat _, List.forall_mem_nil _⟩,
    fun p hp => (firm_optionalField _ _ p hp).2⟩, fun p hp => (firm_attributeFields _ p hp).2⟩,
    hmembers, hnames, List.forall_mem_nil _⟩

/-- A definition that fits is not refused, and changes the devices as `DeviceMap.write` says. -/
theorem Stands.define (h : Stands l s devices) (hl : l.Separate) (d : Definition)
    (hd : d.members.length ≤ ArrayIndex.limit) :
    ∃ s', define l d s = (.ok (), s') ∧ Stands l s' (devices.write (.define d)) := by
  have hput : ∃ s', s.draw.2.put (l.vector d.device d.name ++ []) (vectorObject d s.draw.1) =
      (.ok (), s') ∧ Stands l s' (devices.write (.define d)) :=
    h.draw.putVector hl (firm_vectorObject hd s.draw.1) fun o _ =>
      ⟨fun _ _ => trivial, .some (VectorFacts.shown_ofDefinition d s.draw.1)⟩
  rwa [List.append_nil] at hput

/-- A deletion is not refused, and changes the devices as `DeviceMap.write` says. -/
theorem Stands.delete (h : Stands l s devices) (hl : l.Separate) (d : Deletion) :
    ∃ s', delete l d s = (.ok (), s') ∧ Stands l s' (devices.write (.delete d)) := by
  have hdevice := KeyMap.Shows.part? h.shows d.device
  rw [TreeWriter.delete, DeviceMap.write]
  cases d.name with
  | none =>
    refine h.drop hl (List.cons_ne_nil _ _) ?_ (KeyMap.Shows.alter h.shows .none)
    exact KeyMap.Shows.openIn h.shows fun _ _ => trivial
  | some name =>
    refine h.drop hl (List.cons_ne_nil _ _) ?_
      (KeyMap.Shows.alter h.shows (KeyMap.Shows.alter hdevice .none))
    exact KeyMap.Shows.openIn h.shows (KeyMap.Shows.openIn hdevice fun _ _ => trivial)

/-! ### The log -/

/-- Trimming the log is not refused, and leaves the devices as they are. -/
theorem Stands.trim (h : Stands l s devices) (hl : l.Separate) (uids : List Nat) :
    ∃ log s', trim l uids s = (log, (.ok (), s')) ∧ Stands l s' devices := by
  induction uids generalizing s with
  | nil => exact ⟨[], s, rfl, h⟩
  | cons uid uids ih =>
    rw [TreeWriter.trim]
    split
    · exact ⟨uid :: uids, s, rfl, h⟩
    · have hne : l.logEntry uid ≠ [] := by simp [Layout.logEntry]
      obtain ⟨s₁, hdrop, hs₁, halter⟩ := Store.drop_open h.valid hne (h.open_entry uid)
      obtain ⟨log, s', htrim, h'⟩ := ih (h.changeEntry hl hs₁ halter)
      rw [hdrop]
      exact ⟨log, s', htrim, h'⟩

/-- The object of an entry is firm. -/
theorem firm_logObject (device timestamp : Option String) (words : String) :
    (logObject device timestamp words).Firm := by
  refine Json.firm_ofPairs ?_
  simp only [List.forall_mem_append, List.forall_mem_cons]
  exact ⟨⟨fun p hp => (firm_optionalField _ _ p hp).2,
    fun p hp => (firm_optionalField _ _ p hp).2⟩, Json.firm_str _, List.forall_mem_nil _⟩

/-- `appendLog` is not refused, and leaves the devices as they are. -/
theorem Stands.log {w : TreeWriter} (h : Stands w.layout s devices) (hl : w.layout.Separate)
    (device timestamp : Option String) (words : String) :
    ∃ w' s', w.appendLog device timestamp words s = (w', (.ok (), s')) ∧
      w'.layout = w.layout ∧ Stands w.layout s' devices := by
  have hfirm := firm_logObject device timestamp words
  obtain ⟨s₁, hput, hs₁, halter⟩ := Store.put_open h.valid hfirm (h.open_entry w.nextUid)
  obtain ⟨log, s', htrim, h'⟩ :=
    (h.changeEntry hl hs₁ halter).trim hl (w.log ++ [w.nextUid])
  refine ⟨{ w with nextUid := w.nextUid + 1, log }, s', ?_, rfl, h'⟩
  rw [appendLog, hput]
  dsimp only
  rw [htrim]

/-! ### Messages -/

/-- A store can keep what the message defines: it has not too many members for an array. -/
def Fits : Message → Prop
  | .define d => d.members.length ≤ ArrayIndex.limit
  | _ => True

/-- What a message that fits says about devices is not refused, and changes the devices as
    `DeviceMap.write` says. -/
theorem Stands.project (h : Stands l s devices) (hl : l.Separate) {m : Message} (hm : Fits m) :
    ∃ s', project l m s = (.ok (), s') ∧ Stands l s' (devices.write m) := by
  cases m with
  | define d => exact h.define hl d hm
  | update u => exact h.update hl u
  | delete d => exact h.delete hl d
  | notice n => exact ⟨s, rfl, h⟩

/-- **A message changes the store as it changes the maps.** In a separate layout no write of a
    message that fits is refused, and the store shows the devices that `DeviceMap.write` tells. -/
theorem Stands.apply {w : TreeWriter} (h : Stands w.layout s devices) (hl : w.layout.Separate)
    {m : Message} (hm : Fits m) :
    ∃ w' s', w.apply m s = (w', (.ok (), s')) ∧ w'.layout = w.layout ∧
      Stands w.layout s' (devices.write m) := by
  -- The words are logged first, if there are any, and the rest is projected on the devices.
  rw [TreeWriter.apply]
  cases m.logText? with
  | none =>
    obtain ⟨s', hproject, h'⟩ := h.project hl hm
    exact ⟨w, s', congrArg (Prod.mk w) hproject, rfl, h'⟩
  | some words =>
    obtain ⟨w', s₁, hlog, hw', h₁⟩ := h.log hl m.device? m.timestamp? words
    obtain ⟨s', hproject, h'⟩ := h₁.project hl hm
    refine ⟨w', s', ?_, hw', h'⟩
    dsimp only
    rw [hlog]
    dsimp only
    rw [hw']
    exact congrArg (Prod.mk w') hproject

/-! ### What a connection writes on its own -/

/-- Marking a vector is updating it with `Update.busy`. -/
theorem markBusy_eq (l : Layout) (device vector : String) :
    markBusy l device vector = update l (.busy device vector) := by
  have hstart : ∀ w : Written, w.andThen Written.start = w := by
    rintro ⟨_ | _, s⟩ <;> rfl
  funext s
  rw [markBusy, update]
  show (if s.contains (l.vector device vector) = true then
      (s.put (l.vector device vector ++ [Layout.stateKey]) (.str VectorState.busy.name)).andThen
        (revise (l.vector device vector)) else .start s) =
    if s.contains (l.vector device vector) = true then
      (((s.put (l.vector device vector ++ [Layout.stateKey]) (.str VectorState.busy.name)).andThen
        Written.start).andThen Written.start).andThen (revise (l.vector device vector))
    else .start s
  rw [hstart, hstart]

/-- After a mark, the store shows the devices with that vector busy. -/
theorem Stands.markBusy (h : Stands l s devices) (hl : l.Separate) (device vector : String) :
    Stands l (TreeWriter.markBusy l device vector s).2
      (devices.write (.update (.busy device vector))) := by
  obtain ⟨s', hupdate, h'⟩ := h.update hl (.busy device vector)
  rw [markBusy_eq, hupdate]
  exact h'

/-- After clearing, the store shows that there are no devices. -/
theorem Stands.clear (h : Stands l s devices) (hl : l.Separate) :
    Stands l (TreeWriter.clear l s).2 (some .empty) := by
  have hfirm : Json.emptyObject.Firm := Json.firm_obj List.Pairwise.nil (List.forall_mem_nil _)
  have hopen : Json.OpenIn [] (s.get? l.treePath) := fun _ _ => trivial
  obtain ⟨s', hput, h'⟩ := h.put hl hfirm hopen (.some (KeyMap.shows_empty _))
  rw [List.append_nil] at hput
  rw [TreeWriter.clear, hput]
  exact h'

end Stands

end TreeWriter

end Observatory

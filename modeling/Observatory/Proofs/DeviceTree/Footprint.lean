import Observatory.Proofs.DeviceTree.Trail

/-!
# What a writer changes

A writer lives on messages, and now and then it clears its devices or marks a vector.  This module
says where each of these changes the store: the words of a message in the log, and what it says
about devices at a few paths beneath them.

* `TreeWriter.note`, `TreeWriter.apply_eq`: a message is noted in the log, then written;
* `Update.Writes`, `Message.Writes`: the paths that a message changes;
* `TreeWriter.Stands.trail_project`, `TreeWriter.Stands.trail_note`: it changes no others;
* `TreeWriter.Event`, `TreeWriter.run`: the life of a writer;
* `TreeWriter.Stands.trail_noted`, `TreeWriter.Stands.trail_run`: what an event changes;
* `TreeWriter.Stands.follow`, `TreeWriter.stands_run`: the devices in the course of it;
* `TreeWriter.run_induction_stands`: what else lasts in the course of it.
-/

namespace Observatory

/-! ### Paths -/

section Paths

variable (l : Layout)

/-- The paths at which an update changes a vector whose members are `members`: the fields it has
    values for, the values of those of its members that are there, and the revision. -/
inductive Update.Writes (u : Update) (members : String → Prop) : List String → Prop
  | state (h : u.state.isSome) : Writes u members (l.vector u.device u.name ++ [Layout.stateKey])
  | timestamp (h : u.timestamp.isSome) :
      Writes u members (l.vector u.device u.name ++ [Layout.timestampKey])
  | attribute {a : String × String} (h : a ∈ u.attributes) :
      Writes u members (l.vector u.device u.name ++ [Layout.fieldKey a.1])
  | member {m : Member} (h : m ∈ u.members) (hm : members m.name) :
      Writes u members (l.member u.device u.name m.name ++ [Layout.valueKey])
  | revision : Writes u members (l.vector u.device u.name ++ [Layout.revisionKey])

/-- The path of what a deletion takes away: the vector that it names, or the whole device. -/
def Deletion.target (d : Deletion) : List String :=
  match d.name with
  | some name => l.vector d.device name
  | none => l.device d.device

/-- The paths at which a message changes a store that shows `devices`. -/
def Message.Writes (devices : DeviceMap) : Message → List String → Prop
  | .define d, p => p = l.vector d.device d.name
  | .update u, p => ∃ V, devices.vector? u.device u.name = some V ∧
      u.Writes l (fun name => (V.members name).isSome) p
  | .delete d, p => p = d.target l
  | .notice _, _ => False

variable {l} {devices : DeviceMap} {p : List String}

/-- An update writes only beneath its vector. -/
theorem Update.Writes.prefix_vector {u : Update} {members : String → Prop}
    (h : u.Writes l members p) : l.vector u.device u.name <+: p := by
  cases h with
  | member h hm =>
    rw [Layout.member, List.append_assoc]
    exact List.prefix_append _ _
  | _ => exact List.prefix_append _ _

/-- A deletion is for something beneath the devices. -/
theorem Deletion.prefix_target (d : Deletion) : l.treePath <+: d.target l := by
  rw [target]
  cases d.name <;> exact List.prefix_append _ _

/-- A message writes only beneath the path of the devices. -/
theorem Message.Writes.prefix_tree {m : Message} (h : m.Writes l devices p) : l.treePath <+: p := by
  cases m with
  | define d => exact h ▸ List.prefix_append _ _
  | update u =>
    obtain ⟨V, -, h⟩ := h
    exact (List.prefix_append _ _).trans h.prefix_vector
  | delete d => exact h ▸ d.prefix_target
  | notice n => exact h.elim

end Paths

namespace TreeWriter

open Store (Trail Rewrites)

/-! ### What is written -/

/-- The value of an optional field, looked up by its key. -/
theorem last?_optionalField (key : String) (o : Option String) (k : String) :
    Dict.last? (optionalField key o) k = if k = key then o.map .str else none := by
  cases o with
  | none => exact (ite_self none).symm
  | some value => simp only [optionalField, Dict.last?_singleton, eq_comm, Option.map_some]

section Dated

variable {now : Nat}

theorem dated_optionalField (key : String) (o : Option String) :
    ∀ p ∈ optionalField key o, p.2.Dated now := by
  cases o with
  | none => exact List.forall_mem_nil _
  | some value => exact List.forall_mem_singleton.2 (Json.dated_str now value)

theorem dated_attributeFields (attributes : Dict String) :
    ∀ p ∈ attributeFields attributes, p.2.Dated now :=
  List.forall_mem_map.2 fun a _ => Json.dated_str now a.2

theorem dated_updateFields (u : Update) : ∀ p ∈ updateFields u, p.2.Dated now := by
  simp only [updateFields, List.forall_mem_append]
  exact ⟨⟨dated_optionalField _ _, dated_optionalField _ _⟩, dated_attributeFields _⟩

/-- The object of a vector holds no number beyond `now`, if its revision is not. -/
theorem dated_vectorObject (d : Definition) {revision : Nat} (h : revision ≤ now) :
    (vectorObject d revision).Dated now := by
  have hmember : ∀ m, (memberObject m).Dated now := by
    intro m
    refine Json.dated_ofPairs ?_
    simp only [List.cons_append, List.nil_append, List.forall_mem_cons]
    exact ⟨Json.dated_str _ _, Json.dated_str _ _, dated_attributeFields _⟩
  refine Json.dated_ofPairs ?_
  simp only [List.forall_mem_append, List.forall_mem_cons]
  exact ⟨⟨⟨⟨Json.dated_str _ _, Json.dated_str _ _, Json.dated_nat h, List.forall_mem_nil _⟩,
    dated_optionalField _ _⟩, dated_attributeFields _⟩,
    Json.dated_ofPairs (List.forall_mem_map.2 fun m _ => hmember m),
    Json.dated_arr (List.forall_mem_map.2 fun m _ => Json.dated_str now m.name),
    List.forall_mem_nil _⟩

theorem dated_logObject (device timestamp : Option String) (words : String) :
    (logObject device timestamp words).Dated now := by
  refine Json.dated_ofPairs ?_
  simp only [List.forall_mem_append, List.forall_mem_cons]
  exact ⟨⟨dated_optionalField _ _, dated_optionalField _ _⟩, Json.dated_str _ _,
    List.forall_mem_nil _⟩

/-- The fields of an update are among the paths that it `Writes`. -/
theorem writes_of_mem_updateFields {l : Layout} {u : Update} {f : String × Json}
    (h : f ∈ updateFields u) (members : String → Prop) :
    u.Writes l members (l.vector u.device u.name ++ [f.1]) := by
  simp only [updateFields, List.mem_append] at h
  -- The fields are the state and the time, if they are given, and the attributes.
  rcases h with (h | h) | h
  · cases hstate : u.state with
    | none =>
      rw [hstate] at h
      cases h
    | some state =>
      rw [hstate] at h
      obtain rfl := List.mem_singleton.1 h
      exact .state (by rw [hstate]; rfl)
  · cases htime : u.timestamp with
    | none =>
      rw [htime] at h
      cases h
    | some time =>
      rw [htime] at h
      obtain rfl := List.mem_singleton.1 h
      exact .timestamp (by rw [htime]; rfl)
  · obtain ⟨a, ha, rfl⟩ := List.mem_map.1 h
    exact .attribute ha

end Dated

/-! ### Updates -/

section Update

variable {l : Layout} {s : Store} {devices : DeviceMap} {device name : String}
  {rest : List String} {v : Json} {V : VectorFacts}

/-- A path beneath a vector is open in the store if it is open in every object that shows the
    vector. -/
theorem Stands.open_vector (h : Stands l s devices)
    (hopen : ∀ o, Option.Rel VectorFacts.Shown (devices.vector? device name) o →
      Json.OpenIn rest o) : Json.Open (l.vector device name ++ rest) s.value := by
  have hdevice := KeyMap.Shows.part? h.shows device
  rw [Layout.vector, List.append_assoc]
  exact h.open_beneath (KeyMap.Shows.openIn h.shows (KeyMap.Shows.openIn hdevice
    (hopen _ (KeyMap.Shows.part? hdevice name))))

/-- A value that is put beneath a vector that is known changes the store at just this path. -/
theorem Stands.rewrites_known
    (h : Stands l s (devices.alterVector (fun _ => some V) device name)) (hv : v.Firm)
    (hopen : ∀ t, V.Shown t → Json.OpenIn rest (some t)) :
    Rewrites (l.vector device name ++ rest) (some v) s
      (s.put (l.vector device name ++ rest) v).2 := by
  refine (Store.rewrites_put h.valid hv (h.open_vector fun o ho => ?_)).2
  rw [DeviceMap.vector?_alterVector] at ho
  cases ho with
  | some ht => exact hopen _ ht

/-- Fields that are put in a vector change the store at their own paths only. -/
theorem Stands.trail_putFields (hl : l.Separate) {fields : List (String × Json)}
    (hkeys : ∀ p ∈ fields, p.1 ≠ Layout.membersKey ∧ p.2.Firm)
    (hdated : ∀ p ∈ fields, ∀ now, p.2.Dated now)
    (h : Stands l s (devices.alterVector (fun _ => some V) device name)) :
    Trail (fun p => ∃ f ∈ fields, p = l.vector device name ++ [f.1]) s
      (TreeWriter.putFields (l.vector device name) fields s).2 := by
  induction fields generalizing s V with
  | nil => exact .stay
  | cons f fields ih =>
    obtain ⟨⟨hkey, hv⟩, hfields⟩ := List.forall_mem_cons.1 hkeys
    obtain ⟨hd, hrest⟩ := List.forall_mem_cons.1 hdated
    -- The vector is still known when its field is put, by other facts, which the rest begins with.
    obtain ⟨s₁, hput, h₁⟩ := h.putKnown hl hv fun t ht => ⟨ht.openIn_own f.1, ht.setOwn hkey f.2⟩
    have hwrites := h.rewrites_known hv fun t ht => ht.openIn_own f.1
    rw [TreeWriter.putFields, Written.each]
    rw [hput] at hwrites ⊢
    refine .trans (.one ⟨f, List.mem_cons_self, rfl⟩ hwrites ?_) ((ih hfields hrest h₁).mono ?_)
    · rintro v ⟨rfl⟩
      exact hd _
    · rintro p ⟨f', hf', rfl⟩
      exact ⟨f', List.mem_cons_of_mem _ hf', rfl⟩

/-- A member is in the store if and only if something is known of it. -/
theorem Stands.contains_member (h : Stands l s devices) (device name member : String) :
    s.contains (l.member device name member) =
      ((devices.vector? device name).bind fun V => V.members member).isSome := by
  have hvector := h.vector device name
  rw [Store.contains_eq, Layout.member, at?_vector]
  generalize devices.vector? device name = V, Json.read _ (s.get? _) = o at hvector
  cases hvector with
  | none => rfl
  | some ht => exact ht.isSome_member member

theorem isSome_setValue (members : KeyMap (KeyMap Json)) (m : Member) (name : String) :
    (VectorFacts.setValue members m name).isSome = (members name).isSome := by
  rw [VectorFacts.setValue]
  by_cases hm : m.name = name
  · rw [← hm, KeyMap.modify_key, Option.isSome_map]
  · rw [KeyMap.modify_ne _ hm]

/-- Values for members change the store at the paths of those that are there, and nowhere else. -/
theorem Stands.trail_updateMembers (hl : l.Separate) (ms : List Member)
    (h : Stands l s (devices.alterVector (fun _ => some V) device name)) :
    Trail (fun p => ∃ m ∈ ms, (V.members m.name).isSome ∧
        p = l.member device name m.name ++ [Layout.valueKey]) s
      (Written.each (TreeWriter.updateMember l device name) ms s).2 := by
  induction ms generalizing s V with
  | nil => exact .stay
  | cons m ms ih =>
    obtain ⟨s₁, hput, h₁⟩ := h.updateMember hl m
    -- Only a member that is there gets its value.
    have hfirst : Trail (fun p => ∃ m' ∈ m :: ms, (V.members m'.name).isSome ∧
        p = l.member device name m'.name ++ [Layout.valueKey]) s
        (TreeWriter.updateMember l device name m s).2 := by
      have hcontains := h.contains_member device name m.name
      rw [DeviceMap.vector?_alterVector, Option.bind_some] at hcontains
      rw [TreeWriter.updateMember, hcontains]
      split
      · next hsome =>
        have hwrites := h.rewrites_known (Json.firm_str m.value) fun t ht =>
          ht.openIn_member m.name Layout.valueKey
        have hpath : l.member device name m.name ++ [Layout.valueKey] =
            l.vector device name ++ [Layout.membersKey, m.name, Layout.valueKey] := by
          rw [Layout.member, List.append_assoc]
          rfl
        rw [← hpath] at hwrites
        refine .one ⟨m, List.mem_cons_self, hsome, rfl⟩ hwrites ?_
        rintro v ⟨rfl⟩
        exact Json.dated_str _ _
      · exact .stay
    rw [Written.each]
    rw [hput] at hfirst ⊢
    refine hfirst.trans ((ih h₁).mono ?_)
    rintro p ⟨m', hm', hsome, rfl⟩
    exact ⟨m', List.mem_cons_of_mem _ hm', isSome_setValue V.members m m'.name ▸ hsome, rfl⟩

/-- A revision changes the store at its own path only. -/
theorem Stands.trail_revise
    (h : Stands l s (devices.alterVector (fun _ => some V) device name)) :
    Trail (fun p => p = l.vector device name ++ [Layout.revisionKey]) s
      (TreeWriter.revise (l.vector device name) s).2 := by
  have hwrites := h.draw.rewrites_known (Json.firm_nat s.draw.1) fun t ht =>
    ht.openIn_own Layout.revisionKey
  refine .write (.draw _ s) rfl hwrites ?_
  rintro v ⟨rfl⟩
  exact Json.dated_nat hwrites.clock

/-- What is known of a vector may be written down again. -/
theorem Stands.known (h : Stands l s devices) (hV : devices.vector? device name = some V) :
    Stands l s (devices.alterVector (fun _ => some V) device name) :=
  have hsame : devices.alterVector (fun _ => some V) device name = devices :=
    (DeviceMap.alterVector_congr hV.symm).trans (DeviceMap.alterVector_id device name devices)
  hsame.symm ▸ h

/-- An update of a vector that is there changes what it `Writes` but for the revision, and gives
    the vector a revision at last. -/
theorem Stands.update_known (h : Stands l s devices) (hl : l.Separate) (u : Update)
    (hV : devices.vector? u.device u.name = some V) :
    ∃ t V', TreeWriter.update l u s = TreeWriter.revise (l.vector u.device u.name) t ∧
      Stands l t (devices.alterVector (fun _ => some V') u.device u.name) ∧
        Trail (u.Writes l fun name => (V.members name).isSome) s t := by
  obtain ⟨s₁, hfields, h₁⟩ := (h.known hV).putFields hl (firm_updateFields u)
  obtain ⟨s₂, hmembers, h₂⟩ := h₁.updateMembers hl u.members
  -- First the fields of the vector change and then the values of its members.
  have htrail₁ := (h.known hV).trail_putFields hl (firm_updateFields u)
    fun p hp now => dated_updateFields u p hp
  have htrail₂ := h₁.trail_updateMembers hl u.members
  rw [hfields] at htrail₁
  rw [hmembers] at htrail₂
  refine ⟨s₂, _, ?_, h₂, (htrail₁.mono ?_).trans (htrail₂.mono ?_)⟩
  · rw [TreeWriter.update, h.contains_vector, hV, Option.isSome_some, if_pos rfl, hfields]
    show (Written.each _ u.members s₁).andThen _ = _
    rw [hmembers]
    rfl
  · rintro p ⟨f, hf, rfl⟩
    exact writes_of_mem_updateFields hf _
  · rintro p ⟨m, hm, hsome, rfl⟩
    exact .member hm hsome

/-- An update changes the store at the paths that it `Writes`, and nothing if its vector is not
    there. -/
theorem Stands.trail_update (h : Stands l s devices) (hl : l.Separate) (u : Update) :
    Trail (fun p => ∃ V, devices.vector? u.device u.name = some V ∧
      u.Writes l (fun name => (V.members name).isSome) p) s (TreeWriter.update l u s).2 := by
  cases hV : devices.vector? u.device u.name with
  | none =>
    rw [TreeWriter.update, h.contains_vector, hV]
    exact .stay
  | some V =>
    obtain ⟨t, V', hupdate, ht, htrail⟩ := h.update_known hl u hV
    rw [hupdate]
    refine (htrail.mono fun p hp => ⟨V, rfl, hp⟩).trans (ht.trail_revise.mono ?_)
    rintro p rfl
    exact ⟨V, rfl, .revision⟩

/-- The revision that an update gives to its vector is greater than every number that was drawn
    before. -/
theorem Stands.revision_update (h : Stands l s devices) (hl : l.Separate) (u : Update)
    (hV : devices.vector? u.device u.name = some V) : ∃ n : Nat, s.clock.current < n ∧
      (TreeWriter.update l u s).2.get? (l.vector u.device u.name ++ [Layout.revisionKey]) =
        some (.nat n) := by
  obtain ⟨t, V', hupdate, ht, htrail⟩ := h.update_known hl u hV
  have hwrites := ht.draw.rewrites_known (Json.firm_nat t.draw.1) fun t ht =>
    ht.openIn_own Layout.revisionKey
  rw [hupdate]
  exact ⟨t.draw.1, Nat.lt_succ_of_le htrail.clock, hwrites.get?_self⟩

end Update

/-! ### Messages -/

section Messages

variable {l : Layout} {w : TreeWriter} {s : Store} {devices : DeviceMap} {m : Message}

/-- Note the words of a message in the log, if it comes with words. -/
def note (w : TreeWriter) (m : Message) (s : Store) : TreeWriter × Written :=
  match m.logText? with
  | none => (w, .start s)
  | some words => w.appendLog m.device? m.timestamp? words s

/-- A message is noted in the log, and then what it says about devices is written. -/
theorem apply_eq (w : TreeWriter) (m : Message) (s : Store) :
    w.apply m s = ((w.note m s).1, (w.note m s).2.andThen (project w.layout m)) := by
  rw [apply, note]
  cases m.logText? with
  | none => rfl
  | some words =>
    dsimp only
    rw [layout_appendLog]

/-- A deletion changes the store at its target only. -/
theorem Stands.rewrites_delete (h : Stands l s devices) (d : Deletion) :
    Rewrites (d.target l) none s (TreeWriter.delete l d s).2 := by
  have hdevice := KeyMap.Shows.part? h.shows d.device
  -- No list stands on the way to the device or to the vector.
  have hopen : Json.Open (d.target l) s.value := by
    rw [Deletion.target]
    cases d.name with
    | none => exact h.open_beneath (KeyMap.Shows.openIn h.shows fun _ _ => trivial)
    | some name =>
      exact h.open_beneath
        (KeyMap.Shows.openIn h.shows (KeyMap.Shows.openIn hdevice fun _ _ => trivial))
  have hne : d.target l ≠ [] := by
    rw [Deletion.target]
    cases d.name <;> exact List.append_ne_nil_of_right_ne_nil _ (List.cons_ne_nil _ _)
  have hdelete : TreeWriter.delete l d s = s.drop (d.target l) := by
    rw [TreeWriter.delete, Deletion.target]
    cases d.name <;> rfl
  rw [hdelete]
  exact (Store.rewrites_drop h.valid hne hopen).2

/-- **The footprint of a message.** What it says about devices changes the store at the paths that
    it `Writes` only. -/
theorem Stands.trail_project (h : Stands l s devices) (hl : l.Separate) (hm : Fits m) :
    Trail (m.Writes l devices) s (TreeWriter.project l m s).2 := by
  cases m with
  | define d =>
    have hopen : Json.Open (l.vector d.device d.name ++ []) s.draw.2.value :=
      h.draw.open_vector fun o _ _ _ => trivial
    rw [List.append_nil] at hopen
    have hwrites := (Store.rewrites_put h.draw.valid (firm_vectorObject hm s.draw.1) hopen).2
    refine .write (.draw _ s) rfl hwrites ?_
    rintro v ⟨rfl⟩
    exact dated_vectorObject d hwrites.clock
  | update u => exact h.trail_update hl u
  | delete d => exact .dropped rfl (h.rewrites_delete d)
  | notice n => exact .stay

/-- Trimming the log changes the store at entries of the log only. -/
theorem Stands.trail_trim (h : Stands l s devices) (hl : l.Separate) (uids : List Nat) :
    Trail (fun p => ∃ uid, p = l.logEntry uid) s (TreeWriter.trim l uids s).2.2 := by
  induction uids generalizing s with
  | nil => exact .stay
  | cons uid uids ih =>
    rw [TreeWriter.trim]
    split
    · exact .stay
    · have hne : l.logEntry uid ≠ [] := by simp [Layout.logEntry]
      obtain ⟨hdone, hwrites⟩ := Store.rewrites_drop h.valid hne (h.open_entry uid)
      rw [Written.eq_done hdone]
      exact .trans (.dropped ⟨uid, rfl⟩ hwrites)
        (ih (h.changeEntry hl hwrites.valid hwrites.value))

/-- If the entry can be put, `appendLog` puts it and then trims the log. -/
theorem appendLog_eq {device timestamp : Option String} {words : String}
    (h : (s.put (w.layout.logEntry w.nextUid) (logObject device timestamp words)).1 = .ok ()) :
    w.appendLog device timestamp words s =
      let trimmed := TreeWriter.trim w.layout (w.log ++ [w.nextUid])
        (s.put (w.layout.logEntry w.nextUid) (logObject device timestamp words)).2
      ({ w with nextUid := w.nextUid + 1, log := trimmed.1 }, trimmed.2) := by
  rw [appendLog]
  dsimp only
  rw [Written.eq_done h]

/-- Noting a message changes the store at entries of the log only, and nothing if the message has
    no words. -/
theorem Stands.trail_note (h : Stands w.layout s devices) (hl : w.layout.Separate) (m : Message) :
    Trail (fun p => m.logText?.isSome ∧ ∃ uid, p = w.layout.logEntry uid) s
      (w.note m s).2.2 := by
  rw [note]
  cases m.logText? with
  | none => exact .stay
  | some words =>
    have hfirm := firm_logObject m.device? m.timestamp? words
    obtain ⟨hdone, hwrites⟩ := Store.rewrites_put h.valid hfirm (h.open_entry w.nextUid)
    -- The entry is put and then the log is trimmed, both at entries of the log.
    have hnext := h.changeEntry hl hwrites.valid hwrites.value
    dsimp only
    rw [appendLog_eq hdone]
    refine .mono (.trans (.one ⟨w.nextUid, rfl⟩ hwrites ?_) (hnext.trail_trim hl _))
      fun p hp => ⟨rfl, hp⟩
    rintro v ⟨rfl⟩
    exact dated_logObject _ _ _

/-- Noting a message is never refused, and leaves what is shown of the devices. -/
theorem Stands.note (h : Stands w.layout s devices) (hl : w.layout.Separate) (m : Message) :
    (w.note m s).2.1 = .ok () ∧ Stands w.layout (w.note m s).2.2 devices := by
  rw [TreeWriter.note]
  split
  · exact ⟨rfl, h⟩
  · obtain ⟨w', s', hlog, -, hs'⟩ := h.log hl m.device? m.timestamp? ‹String›
    rw [hlog]
    exact ⟨rfl, hs'⟩

/-- A message is applied by writing what it says about devices, in the store in which its words
    were noted. -/
theorem Stands.apply_eq (h : Stands w.layout s devices) (hl : w.layout.Separate) (m : Message) :
    w.apply m s = ((w.note m s).1, TreeWriter.project w.layout m (w.note m s).2.2) := by
  obtain ⟨hdone, -⟩ := h.note hl m
  rw [TreeWriter.apply_eq]
  generalize (w.note m s).2 = r at hdone
  obtain ⟨result, s₁⟩ := r
  obtain rfl : result = .ok () := hdone
  rfl

/-- Clearing changes the store at the path of the devices. -/
theorem Stands.trail_clear (h : Stands l s devices) :
    Trail (fun p => p = l.treePath) s (TreeWriter.clear l s).2 := by
  have hfirm : Json.emptyObject.Firm := Json.firm_obj .nil (List.forall_mem_nil _)
  refine .one rfl (Store.rewrites_put h.valid hfirm h.open_tree).2 ?_
  rintro v ⟨rfl⟩
  intro path a ha
  cases path <;> cases ha

end Messages

/-! ### The life of a writer -/

/-- What a writer does, and what may happen to its store in between: ticks are closed, and others
    draw numbers. -/
inductive Event where
  | message (m : Message)
  | clear
  | markBusy (device vector : String)
  | endTick
  | closeTick
  | draw

namespace Event

/-- The writer and its store after an event, whatever was refused. -/
def run (p : TreeWriter × Store) : Event → TreeWriter × Store
  | message m => ((p.1.apply m p.2).1, (p.1.apply m p.2).2.2)
  | clear => (p.1, (TreeWriter.clear p.1.layout p.2).2)
  | markBusy device vector => (p.1, (TreeWriter.markBusy p.1.layout device vector p.2).2)
  | endTick => (p.1, p.2.endTick.2)
  | closeTick => (p.1, p.2.closeTick)
  | draw => (p.1, p.2.draw.2)

/-- The writer and its store when the words of an event are noted, and nothing else is done yet. -/
def noted (p : TreeWriter × Store) : Event → TreeWriter × Store
  | message m => ((p.1.note m p.2).1, (p.1.note m p.2).2.2)
  | _ => p

/-- A message that a store can keep. -/
def Fits : Event → Prop
  | message m => TreeWriter.Fits m
  | _ => True

/-- The paths that an event changes beneath some devices. -/
def Writes (l : Layout) (devices : DeviceMap) : Event → List String → Prop
  | message m => m.Writes l devices
  | clear => fun p => p = l.treePath
  | markBusy device vector => (Message.update (.busy device vector)).Writes l devices
  | _ => fun _ => False

/-- An event writes only beneath the path of the devices, once its words are noted. -/
theorem Writes.prefix_tree {l : Layout} {devices : DeviceMap} {e : Event} {p : List String}
    (h : e.Writes l devices p) : l.treePath <+: p := by
  cases e with
  | message m => exact Message.Writes.prefix_tree h
  | clear => exact h ▸ List.prefix_rfl
  | markBusy device vector =>
    exact Message.Writes.prefix_tree (m := .update (.busy device vector)) h
  | _ => exact h.elim

end Event

/-- A new writer and its new store after some events. -/
def run (l : Layout) (clock : Clock) (events : List Event) : TreeWriter × Store :=
  events.foldl Event.run ({ layout := l }, Store.start clock)

end TreeWriter

/-- What an event changes. -/
def DeviceMap.follow (devices : DeviceMap) : TreeWriter.Event → DeviceMap
  | .message m => devices.write m
  | .clear => some KeyMap.empty
  | .markBusy device vector => devices.write (.update (.busy device vector))
  | _ => devices

namespace TreeWriter

open Store (Trail)

section Run

variable {l : Layout} {w : TreeWriter} {s : Store} {devices : DeviceMap} {e : Event}

theorem run_concat (l : Layout) (clock : Clock) (events : List Event) (e : Event) :
    run l clock (events ++ [e]) = e.run (run l clock events) := List.foldl_append ..

/-- The induction rule for runs of a writer. -/
theorem run_induction {I : List Event → TreeWriter × Store → Prop} {clock : Clock}
    (hstart : I [] ({ layout := l }, Store.start clock))
    (hstep : ∀ {events p e}, I events p → e.Fits → I (events ++ [e]) (e.run p))
    (events : List Event) (hfits : ∀ e ∈ events, e.Fits) : I events (run l clock events) := by
  -- The invariant knows all events so far, so the induction is on those that are left.
  have hfold : ∀ events seen p, I seen p → (∀ e ∈ events, e.Fits) →
      I (seen ++ events) (events.foldl Event.run p) := by
    intro events
    induction events with
    | nil =>
      intro seen p h _
      rwa [List.append_nil]
    | cons e events ih =>
      intro seen p h hfits
      obtain ⟨he, hfits⟩ := List.forall_mem_cons.1 hfits
      have hrest := ih (seen ++ [e]) _ (hstep h he) hfits
      rwa [List.append_assoc] at hrest
  exact hfold events [] _ hstart hfits

theorem layout_run (e : Event) (p : TreeWriter × Store) : (e.run p).1.layout = p.1.layout := by
  cases e with
  | message m => exact layout_apply p.1 m p.2
  | _ => rfl

/-- After every run, wherever devices and log may lie, the writer has its layout and the store is
    `Valid`. -/
theorem valid_run (l : Layout) (clock : Clock) (events : List Event)
    (hfits : ∀ e ∈ events, e.Fits) :
    (run l clock events).1.layout = l ∧ (run l clock events).2.Valid := by
  -- No layout is excluded here, so only validity and the layout itself are kept.
  refine run_induction (I := fun _ p => p.1.layout = l ∧ p.2.Valid)
    ⟨rfl, Store.valid_start clock⟩ (fun {_ p e} h he => ?_) events hfits
  have hdevices := Store.survives_valid p.1.layout.treePath
  refine ⟨(layout_run e p).trans h.1, ?_⟩
  cases e with
  | message m =>
    refine survives_apply Store.lasting_valid hdevices (Store.survives_valid _) rfl
      (fun d hd _ hs => ?_) h.2
    subst hd
    exact survives_define Store.lasting_valid hdevices he hs
  | clear =>
    have hempty : Json.Proper .emptyObject :=
      Json.proper_obj.2 ⟨.nil, List.forall_mem_nil _⟩
    exact (Store.later_set h.2 _ ⟨.emptyObject, hempty⟩).valid
  | markBusy device vector =>
    show (TreeWriter.markBusy p.1.layout device vector p.2).2.Valid
    rw [markBusy_eq]
    exact survives_update Store.lasting_valid hdevices _ h.2
  | endTick => exact Store.lasting_valid.endTick h.2
  | closeTick => exact Store.lasting_valid.closeTick h.2
  | draw => exact Store.lasting_valid.draw h.2

/-- The store shows the devices that `follow` tells, after every event. -/
theorem Stands.follow (h : Stands w.layout s devices) (hl : w.layout.Separate) (he : e.Fits) :
    Stands w.layout (e.run (w, s)).2 (devices.follow e) := by
  cases e with
  | message m =>
    obtain ⟨w', s', happly, -, hs'⟩ := h.apply hl he
    show Stands w.layout (w.apply m s).2.2 _
    rw [happly]
    exact hs'
  | clear => exact h.clear hl
  | markBusy device vector => exact h.markBusy hl device vector
  | endTick => exact ⟨Store.lasting_valid.endTick h.valid, h.open_tree, h.open_entry, h.shows⟩
  | closeTick => exact ⟨Store.lasting_valid.closeTick h.valid, h.open_tree, h.open_entry, h.shows⟩
  | draw => exact h.draw

/-- Noting the words of an event changes the store at entries of the log only, and leaves what is
    shown of the devices. -/
theorem Stands.trail_noted (h : Stands w.layout s devices) (hl : w.layout.Separate) (e : Event) :
    Stands w.layout (e.noted (w, s)).2 devices ∧
      Trail (fun p => ∃ uid, p = w.layout.logEntry uid) s (e.noted (w, s)).2 := by
  cases e with
  | message m => exact ⟨(h.note hl m).2, (h.trail_note hl m).mono fun _ hp => hp.2⟩
  | _ => exact ⟨h, .stay⟩

/-- Once its words are noted, an event changes the store at the paths that it `Writes` only. -/
theorem Stands.trail_run (h : Stands w.layout s devices) (hl : w.layout.Separate) (he : e.Fits) :
    (e.run (w, s)).1 = (e.noted (w, s)).1 ∧
      Trail (e.Writes w.layout devices) (e.noted (w, s)).2 (e.run (w, s)).2 := by
  cases e with
  | message m =>
    -- A message is noted first, and what is left of it is its projection on the tree.
    rw [Event.run, h.apply_eq hl m]
    exact ⟨rfl, (h.note hl m).2.trail_project hl he⟩
  | clear => exact ⟨rfl, h.trail_clear⟩
  | markBusy device vector =>
    refine ⟨rfl, ?_⟩
    show Trail _ s (TreeWriter.markBusy w.layout device vector s).2
    rw [markBusy_eq]
    exact h.trail_update hl _
  | endTick => exact ⟨rfl, .idle .stay rfl (Nat.le_refl _)⟩
  | closeTick => exact ⟨rfl, .idle .stay rfl (Nat.le_refl _)⟩
  | draw => exact ⟨rfl, .draw _ s⟩

/-- **Devices in the course of a run.** After every run, the store shows the devices that the
    events tell one after the other. -/
theorem stands_run (hl : l.Separate) (clock : Clock) (events : List Event)
    (hfits : ∀ e ∈ events, e.Fits) : (run l clock events).1.layout = l ∧
      Stands l (run l clock events).2 (events.foldl DeviceMap.follow none) := by
  refine run_induction (I := fun events p => p.1.layout = l ∧
    Stands l p.2 (events.foldl DeviceMap.follow none)) ⟨rfl, stands_start hl clock⟩
    (fun {events p e} h he => ?_) events hfits
  obtain ⟨rfl, hs⟩ := h
  rw [List.foldl_append]
  exact ⟨layout_run e p, hs.follow hl he⟩

/-- The induction rule for runs of a writer, where each step may use that the store shows the
    devices that the events tell. -/
theorem run_induction_stands (hl : l.Separate) {I : List Event → TreeWriter × Store → Prop}
    {clock : Clock} (hstart : I [] ({ layout := l }, Store.start clock))
    (hstep : ∀ {events w s devices e}, w.layout = l → Stands w.layout s devices →
      I events (w, s) → e.Fits → I (events ++ [e]) (e.run (w, s)))
    (events : List Event) (hfits : ∀ e ∈ events, e.Fits) : I events (run l clock events) := by
  refine (run_induction (I := fun events p => (p.1.layout = l ∧ ∃ devices, Stands l p.2 devices) ∧
    I events p) ⟨⟨rfl, none, stands_start hl clock⟩, hstart⟩ (fun {events p e} h he => ?_)
    events hfits).2
  obtain ⟨⟨rfl, devices, hs⟩, h⟩ := h
  exact ⟨⟨layout_run e p, _, hs.follow hl he⟩, hstep rfl hs h he⟩

end Run

end TreeWriter

end Observatory

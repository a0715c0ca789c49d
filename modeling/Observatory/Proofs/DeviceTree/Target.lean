import Observatory.Proofs.DeviceTree.Footprint

/-!
# What messages are about

An update changes the vector that it is about, if there is one, and a deletion takes away what it
names.  A writer writes key by key, and it makes whatever is missing on the way: that nothing else
changes is said here of every store that a writer comes to.

* `Message.rewrite`, `DeviceMap.vector?_write`: what a message changes in what is known of a vector;
* `TreeWriter.declared?`, `TreeWriter.related_run`: the definition of a vector that holds, and what
  it makes known of the vector;
* `Update.Revises`, `Deletion.Removes`, `Message.Targets`: changes that stay where they should;
* `TreeWriter.targets_run`: all messages and marks stay where they should.
-/

namespace Observatory

namespace KeyMap

/-- What is under a key after `setAll`: the last value for the key, or else what was there. -/
theorem setAll_apply {α : Type} (pairs : List (String × α)) (f : KeyMap α) (key : String) :
    f.setAll pairs key = (Dict.last? pairs key).or (f key) := by
  induction pairs generalizing f with
  | nil => rfl
  | cons p pairs ih =>
    obtain ⟨k, a⟩ := p
    refine (ih (f.set k (some a))).trans ?_
    rw [Dict.last?_cons, Option.or_assoc, set_apply]
    by_cases hk : key = k
    · rw [if_pos hk, if_pos hk.symm]
      rfl
    · rw [if_neg hk, if_neg (Ne.symm hk)]
      rfl

end KeyMap

/-! ### One vector -/

/-- What a message makes of what is known of one vector. -/
def Message.rewrite (device name : String) (V : Option VectorFacts) :
    Message → Option VectorFacts
  | .define d => if d.device = device ∧ d.name = name then some (.ofDefinition d) else V
  | .update u => if u.device = device ∧ u.name = name then V.map (.update u) else V
  | .delete d => if d.device = device ∧ (d.name = none ∨ d.name = some name) then none else V
  | .notice _ => V

namespace DeviceMap

variable {device name : String}

/-- What is known of a vector after some vector was altered. -/
theorem vector?_alterVector_apply (g : Option VectorFacts → Option VectorFacts) (d n : String)
    (devices : DeviceMap) : (devices.alterVector g d n).vector? device name =
      if d = device ∧ n = name then g (devices.vector? device name)
      else devices.vector? device name := by
  split
  · next h =>
    obtain ⟨rfl, rfl⟩ := h
    exact vector?_alterVector g d n devices
  · next h =>
    rw [vector?, alterVector, KeyMap.alter_bind]
    by_cases hd : device = d
    · have hn : ¬ name = n := fun hn => h ⟨hd.symm, hn.symm⟩
      rw [if_pos hd, KeyMap.alter_bind, if_neg hn, ← hd, vector?]
    · rw [if_neg hd, vector?]

/-- What is known of a vector after a message depends only on what was known of that vector. -/
theorem vector?_write (devices : DeviceMap) (m : Message) (device name : String) :
    (devices.write m).vector? device name =
      m.rewrite device name (devices.vector? device name) := by
  cases m with
  | define d => exact vector?_alterVector_apply _ _ _ _
  | update u => exact vector?_alterVector_apply _ _ _ _
  | delete d =>
    rw [write, Message.rewrite]
    cases d.name with
    | some n =>
      simp only [vector?_alterVector_apply, reduceCtorEq, false_or, Option.some.injEq]
    | none =>
      simp only [true_or, and_true]
      rw [vector?, KeyMap.alter_bind]
      -- A deletion of the whole device takes every vector of it away, and of no other.
      by_cases hd : device = d.device
      · rw [if_pos hd, if_pos hd.symm]
        rfl
      · rw [if_neg hd, if_neg (Ne.symm hd), vector?]
  | notice n => rfl

end DeviceMap

/-! ### Declarations -/

namespace TreeWriter

/-- The definition of a vector that holds after an event, given the one that held before. -/
def Event.declare (device name : String) (old : Option Definition) : Event → Option Definition
  | message (.define d) => if d.device = device ∧ d.name = name then some d else old
  | message (.delete d) =>
    if d.device = device ∧ (d.name = none ∨ d.name = some name) then none else old
  | clear => none
  | _ => old

/-- The definition of a vector that holds after some events: the last one, unless the vector, its
    device or all devices were deleted since. -/
def declared? (events : List Event) (device name : String) : Option Definition :=
  events.foldl (Event.declare device name) none

end TreeWriter

/-- The members that are known of a vector are those of its definition. -/
def Definition.Declares (d : Definition) (V : VectorFacts) : Prop :=
  ∀ name, (V.members name).isSome = true ↔ name ∈ d.members.map Member.name

namespace Definition

variable {d : Definition} {V : VectorFacts}

theorem declares_ofDefinition (d : Definition) : d.Declares (.ofDefinition d) := by
  intro name
  rw [VectorFacts.ofDefinition]
  dsimp only
  rw [KeyMap.setAll_apply, Dict.last?_map, KeyMap.empty, Option.or_none, Option.isSome_map,
    List.find?_isSome]
  simp

/-- `Declares` is kept by updates, which make no members. -/
theorem Declares.update (h : d.Declares V) (u : Update) : d.Declares (V.update u) := by
  intro name
  have hfold : ∀ (ms : List Member) members,
      (ms.foldl VectorFacts.setValue members name).isSome = (members name).isSome := by
    intro ms
    induction ms with
    | nil => exact fun _ => rfl
    | cons m ms ih => exact fun members => (ih _).trans (TreeWriter.isSome_setValue members m name)
  rw [VectorFacts.update, hfold]
  exact h name

end Definition

namespace TreeWriter

variable {l : Layout} {s t : Store} {devices : DeviceMap} {device name : String}

section Related

/- What definitions make known of their vectors, and updates leave so. -/
variable {R : Definition → VectorFacts → Prop} (hdefine : ∀ d, R d (.ofDefinition d))
  (hupdate : ∀ d V u, R d V → R d (V.update u))

include hdefine hupdate

/-- A relation between definitions and what is known of their vectors, which updates keep, is kept
    by every event. -/
theorem related_follow {o : Option Definition}
    (h : Option.Rel R o (devices.vector? device name)) (e : Event) :
    Option.Rel R (e.declare device name o) ((devices.follow e).vector? device name) := by
  -- An update changes what is known of the vector, not what was defined.
  have hmap : ∀ u, Option.Rel R o ((devices.vector? device name).map (.update u)) := by
    intro u
    generalize devices.vector? device name = V at h
    cases h with
    | none => exact .none
    | some h => exact .some (hupdate _ _ u h)
  cases e with
  | message m =>
    rw [DeviceMap.follow, DeviceMap.vector?_write]
    cases m with
    | define d =>
      rw [Message.rewrite, Event.declare]
      split
      · exact .some (hdefine d)
      · exact h
    | update u =>
      show Option.Rel _ o (Message.rewrite device name _ (.update u))
      rw [Message.rewrite]
      split
      · exact hmap u
      · exact h
    | delete d =>
      rw [Message.rewrite, Event.declare]
      split
      · exact .none
      · exact h
    | notice n => exact h
  | clear => exact .none
  | markBusy d n =>
    show Option.Rel _ o ((DeviceMap.write devices (.update (.busy d n))).vector? device name)
    rw [DeviceMap.vector?_write, Message.rewrite]
    split
    · exact hmap _
    · exact h
  | _ => exact h

/-- Such a relation holds after every run, between the definition that holds of a vector and what
    is known of it. -/
theorem related_run (events : List Event) (device name : String) :
    Option.Rel R (declared? events device name)
      ((events.foldl DeviceMap.follow none).vector? device name) := by
  have hfold : ∀ (events : List Event) (o : Option Definition) (devices : DeviceMap),
      Option.Rel R o (devices.vector? device name) →
        Option.Rel R (events.foldl (Event.declare device name) o)
          ((events.foldl DeviceMap.follow devices).vector? device name) := by
    intro events
    induction events with
    | nil => exact fun _ _ h => h
    | cons e events ih =>
      exact fun o devices h => ih _ _ (related_follow hdefine hupdate h e)
  exact hfold events none none .none

end Related

theorem declares_run (events : List Event) (device name : String) :
    Option.Rel Definition.Declares (declared? events device name)
      ((events.foldl DeviceMap.follow none).vector? device name) :=
  related_run Definition.declares_ofDefinition (fun _ _ u h => h.update u) events device name

end TreeWriter

/-! ### Changes that stay where they should -/

section Changes

variable (l : Layout)

/-- If the message has words, the path forks from that of the entries of the log. -/
def Message.Spares (m : Message) (q : List String) : Prop :=
  m.logText?.isSome → Forks (l.messagesPath ++ [Layout.entriesKey]) q

/-- What an update makes of the store `s`, where the definition `d` holds: it changes nothing
    beside the paths that it `Writes`, makes and removes no members, and gives its vector a
    revision greater than all that the store has. -/
structure Update.Revises (u : Update) (d : Definition) (s t : Store) : Prop where
  aside : ∀ q, (Message.update u).Spares l q →
    (∀ p, u.Writes l (· ∈ d.members.map Member.name) p → Forks p q) → t.node? q = s.node? q
  members : ∀ name, t.contains (l.member u.device u.name name) =
    s.contains (l.member u.device u.name name)
  revision : ∃ n : Nat,
    t.get? (l.vector u.device u.name ++ [Layout.revisionKey]) = some (.nat n) ∧
      ∀ path a, s.get? (path ++ [Layout.revisionKey]) = some (.scalar a) →
        (∃ text, a = .str text) ∨ ∃ k : Nat, k < n ∧ a = .int k

/-- What a deletion makes of the store `s`: what is at and beneath its target is gone, and all else
    is as it was. -/
structure Deletion.Removes (d : Deletion) (s t : Store) : Prop where
  aside : ∀ q, (Message.delete d).Spares l q → Forks (d.target l) q → t.node? q = s.node? q
  contains : ∀ q, (Message.delete d).Spares l q →
    (t.contains q = true ↔ s.contains q = true ∧ ¬ d.target l <+: q)

/-- What a message makes of the store `s`, given the definitions that hold and the store `noted` in
    which its words are noted. -/
def Message.Targets (declared : String → String → Option Definition) (s noted t : Store) :
    Message → Prop
  | .define d => ∀ q, (Message.define d).Spares l q → Forks (l.vector d.device d.name) q →
      t.node? q = s.node? q
  | .update u =>
    match declared u.device u.name with
    | some d => u.Revises l d s t
    | none => t = noted
  | .delete d => d.Removes l s t
  | .notice _ => t = noted

end Changes

namespace TreeWriter

open Store (Trail)

section Targets

variable {l : Layout} {w : TreeWriter} {s : Store} {devices : DeviceMap} {d : Definition}
  {V : VectorFacts} {u : Update} {m : Message} {q : List String}

/-- Noting a message leaves the nodes at all paths that it `Spares`. -/
theorem Stands.node?_note (h : Stands w.layout s devices) (hl : w.layout.Separate)
    (hq : m.Spares w.layout q) : (w.note m s).2.2.node? q = s.node? q := by
  refine (h.trail_note hl m).node?_eq ?_
  rintro p ⟨hwords, uid, rfl⟩
  refine (hq hwords).extend ?_
  rw [Layout.logEntry_eq]
  exact List.prefix_append _ _

/-- A message leaves the nodes at all paths that it `Spares` and that fork from those it
    `Writes`. -/
theorem Stands.node?_project (h : Stands w.layout s devices) (hl : w.layout.Separate)
    (hm : Fits m) (hspares : m.Spares w.layout q)
    (hq : ∀ p, m.Writes w.layout devices p → Forks p q) :
    (TreeWriter.project w.layout m (w.note m s).2.2).2.node? q = s.node? q :=
  (((h.note hl m).2.trail_project hl hm).node?_eq hq).trans (h.node?_note hl hspares)

/-- An update of a vector with a definition `Revises` the store. -/
theorem Stands.revises (h : Stands w.layout s devices) (hl : w.layout.Separate) (hs : s.Dated)
    (hV : devices.vector? u.device u.name = some V) (hd : d.Declares V) :
    u.Revises w.layout d s (TreeWriter.update w.layout u (w.note (.update u) s).2.2).2 := by
  have hnote := h.note hl (.update u)
  -- Numbers that were there before the words are still smaller than the one drawn after them.
  have hclock := (h.trail_note hl (.update u)).clock
  refine ⟨fun q hspares hq => ?_, fun name => ?_, ?_⟩
  · refine h.node?_project (m := .update u) hl trivial hspares ?_
    rintro p ⟨V', hV', hwrites⟩
    obtain rfl := Option.some.inj (hV.symm.trans hV')
    refine hq p ?_
    rwa [funext fun name => propext (hd name)] at hwrites
  · obtain ⟨t, hupdate, ht⟩ := hnote.2.update hl u
    rw [hupdate, ht.contains_member, h.contains_member, DeviceMap.vector?_write, Message.rewrite,
      if_pos ⟨rfl, rfl⟩, hV]
    exact Bool.eq_iff_iff.2 ((hd.update u name).trans (hd name).symm)
  · obtain ⟨n, hn, hread⟩ := hnote.2.revision_update hl u hV
    refine ⟨n, hread, fun path a ha => ?_⟩
    rw [Store.get?_eq] at ha
    rcases hs _ _ ha with htext | ⟨k, hk, rfl⟩
    · exact .inl htext
    · exact .inr ⟨k, Nat.lt_of_le_of_lt (Nat.le_trans hk hclock) hn, rfl⟩

/-- A deletion `Removes` what it names from the store. -/
theorem Stands.removes (h : Stands w.layout s devices) (hl : w.layout.Separate) (d : Deletion) :
    d.Removes w.layout s (TreeWriter.delete w.layout d (w.note (.delete d) s).2.2).2 := by
  have hnote := h.note hl (.delete d)
  have hwrites := hnote.2.rewrites_delete d
  refine ⟨fun q hspares hq => (hwrites.aside q hq).trans (h.node?_note hl hspares),
    fun q hspares => ?_⟩
  have hsame : (w.note (.delete d) s).2.2.contains q = s.contains q :=
    congrArg Option.isSome (h.node?_note hl hspares)
  rw [← hsame]
  refine ⟨fun hq => ⟨hwrites.contains_of_drop hq, ?_⟩, fun ⟨hq, hout⟩ => hwrites.contains hout hq⟩
  rintro ⟨rest, rfl⟩
  have hread := hwrites.get?_append rest
  rw [Store.get?_eq] at hread
  rw [Store.contains_eq, hread] at hq
  cases hq

/-- Every message that fits `Targets` what it is about. -/
theorem Stands.targets (h : Stands w.layout s devices) (hl : w.layout.Separate) (hs : s.Dated)
    {declared : String → String → Option Definition}
    (hdeclared : ∀ device name, Option.Rel Definition.Declares (declared device name)
      (devices.vector? device name)) (hm : Fits m) :
    m.Targets w.layout declared s (w.note m s).2.2
      (TreeWriter.project w.layout m (w.note m s).2.2).2 := by
  cases m with
  | define d =>
    intro q hspares hq
    refine h.node?_project hl hm hspares ?_
    rintro p rfl
    exact hq
  | update u =>
    have hu := hdeclared u.device u.name
    rw [Message.Targets]
    -- An update of a vector that is not there is ignored, also by the store.
    generalize declared u.device u.name = o at hu
    generalize hV : devices.vector? u.device u.name = V at hu
    cases hu with
    | some hd => exact h.revises hl hs hV hd
    | none =>
      show (TreeWriter.update _ u _).2 = _
      rw [TreeWriter.update, (h.note hl _).2.contains_vector, hV]
      rfl
  | delete d => exact h.removes hl d
  | notice n => rfl

end Targets

section Run

variable {l : Layout}

/-- After every run, all numbers in the store were drawn from its clock. -/
theorem dated_run (hl : l.Separate) (clock : Clock) (events : List Event)
    (hfits : ∀ e ∈ events, e.Fits) : (run l clock events).2.Dated := by
  have hstart : (Store.start clock).Dated := by
    intro path a ha
    cases path <;> cases ha
  refine run_induction_stands hl (I := fun _ p => p.2.Dated) hstart
    (fun {_ _ _ _ e} hlayout hs h he => ?_) events hfits
  subst hlayout
  exact (hs.trail_run hl he).2.dated ((hs.trail_noted hl e).2.dated h)

/-- **Messages change what they are about.** After every run in a separate layout, no message that
    fits is refused, its words change the log alone, and what it says of devices is as
    `Message.Targets` says; so it is for marks. -/
theorem targets_run (hl : l.Separate) (clock : Clock) (events : List Event)
    (hfits : ∀ e ∈ events, e.Fits) :
    let w := (run l clock events).1
    let s := (run l clock events).2
    (∀ m, Fits m → (∀ q, m.Spares l q → (w.note m s).2.2.node? q = s.node? q) ∧
      ∃ t, (w.apply m s).2 = (.ok (), t) ∧
        m.Targets l (declared? events) s (w.note m s).2.2 t) ∧
    ∀ device name, ∃ t, markBusy l device name s = (.ok (), t) ∧
      (Message.update (.busy device name)).Targets l (declared? events) s s t := by
  intro w s
  have hs := dated_run hl clock events hfits
  obtain ⟨hlayout, h⟩ := stands_run hl clock events hfits
  have hdeclared := declares_run events
  generalize events.foldl DeviceMap.follow none = devices at h hdeclared
  change s.Dated at hs
  change w.layout = l at hlayout
  change Stands l s devices at h
  -- From here on the run does not matter, only what it left.
  clear_value w s
  subst hlayout
  refine ⟨fun m hm => ⟨fun q hq => h.node?_note hl hq, ?_⟩, fun device name => ?_⟩
  · obtain ⟨t, hproject, -⟩ := (h.note hl m).2.project hl hm
    have htargets := h.targets hl hs hdeclared hm
    rw [h.apply_eq hl m, hproject]
    rw [hproject] at htargets
    exact ⟨t, rfl, htargets⟩
  · obtain ⟨t, hupdate, -⟩ := h.update hl (.busy device name)
    have htargets := h.targets (m := .update (.busy device name)) hl hs hdeclared trivial
    rw [markBusy_eq, hupdate]
    change Message.Targets _ _ s s (TreeWriter.update w.layout _ s).2 _ at htargets
    rw [hupdate] at htargets
    exact ⟨t, rfl, htargets⟩

end Run

/-- A vector of one number, the azimuth of a dome. -/
def dome : Definition :=
  { kind := .number, device := "Dome", name := "AZIMUTH", state := .idle, timestamp := none,
    message := none, attributes := [],
    members := [{ name := "ANGLE", value := "0", attributes := [] }] }

/-- An update of `dome` with words, an attribute that calls itself a revision, and a value for a
    member that the dome does not have. -/
def turning : Update :=
  { kind := .number, device := "Dome", name := "AZIMUTH", state := some .busy, timestamp := none,
    message := some "turning", attributes := [("rev", "9")],
    members := [{ name := "ANGLE", value := "3", attributes := [] },
      { name := "SPEED", value := "1", attributes := [] }] }

/-- `targets_run` on the update `turning`, after the vector was defined and marked: the member that
    is not there is not made, and the attribute does not keep the revision from being a new one. -/
theorem targets_run_turning :
    let events : List Event := [.message (.define dome), .markBusy "Dome" "AZIMUTH", .endTick]
    let p := run {} {} events
    ({} : Layout).Separate ∧ (∀ e ∈ events, e.Fits) ∧
      ∃ t, (p.1.apply (.update turning) p.2).2 = (.ok (), t) ∧
        turning.Revises {} dome p.2 t := by
  intro events p
  have hl : ({} : Layout).Separate := ⟨by decide, by decide⟩
  have hdome : dome.members.length ≤ ArrayIndex.limit := by decide
  have hfits : ∀ e ∈ events, e.Fits := by
    simp only [events, List.forall_mem_cons]
    exact ⟨hdome, trivial, trivial, List.forall_mem_nil _⟩
  -- Marking the vector leaves the definition that was declared.
  have hdeclared : declared? events turning.device turning.name = some dome := by decide
  obtain ⟨-, t, happly, htargets⟩ := (targets_run hl {} events hfits).1 (.update turning) trivial
  rw [Message.Targets, hdeclared] at htargets
  exact ⟨hl, hfits, t, happly, htargets⟩

end TreeWriter

end Observatory

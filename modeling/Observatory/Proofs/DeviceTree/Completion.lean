import Observatory.Proofs.DeviceTree.Partition

/-!
# Commands that are completed

Who commands a vector of texts or numbers gives values to some of its members; the command has all
of them, so that the others keep the values that are seen.  When a server echoes the command, the
values that were given are there, and the others are as before.

* `VectorView.command_eq_ok`: when there is a command, and which;
* `VectorView.members_of_switch`, `VectorView.members_of_ne_switch`: what is in it;
* `VectorView.Stocked`, `TreeWriter.Stands.stocked`: the members that are listed are there, each
  with a value, and no others;
* `Update.Echoes`, `VectorView.Overrides`: updates that repeat a command, and what comes of them;
* `TreeWriter.Completes`, `TreeWriter.completes_run`: commands in the life of a writer.
-/

namespace Observatory

/-! ### Commands -/

namespace VectorView

variable {v : VectorView} {assignments : List (String × String)} {c : Command}

/-- A command for anything but switches has every listed member, each with the value assigned to it
    or else with the value that is seen. -/
theorem commandMembers_of_ne {kind : VectorKind} (h : kind ≠ .switch) :
    v.commandMembers kind assignments = v.memberNames.map fun name =>
      (name, ((assigned? assignments name).or (v.value? name)).getD "") := by
  cases kind with
  | switch => exact absurd rfl h
  | _ => rfl

/-- There is a command if and only if the vector is of a kind that is not read-only and all that is
    assigned are members; it is then the one with `commandMembers`. -/
theorem command_eq_ok : v.command assignments = .ok c ↔
    ∃ kind, v.kind? = some kind ∧ kind ≠ .light ∧
      (∀ a ∈ assignments, v.hasMember a.1 = true) ∧
      c = { kind, device := v.device, name := v.name,
            members := v.commandMembers kind assignments } := by
  rw [command]
  split
  · next hkind => simp [hkind]
  · next hkind => simp [hkind]
  · next kind hlight hkind =>
    have hlight : kind ≠ .light := fun h => hlight (h ▸ rfl)
    split
    · next unknown text hunknown =>
      -- What is assigned to no member is among the assignments.
      refine iff_of_false nofun ?_
      rintro ⟨_, _, _, hall, _⟩
      have hmember := hall _ (List.mem_of_find?_eq_some hunknown)
      have hnone := List.find?_some hunknown
      simp [hmember] at hnone
    · next hnone =>
      have hall : ∀ a ∈ assignments, v.hasMember a.1 = true := by simpa using hnone
      simp only [hkind, Except.ok.injEq, Option.some.injEq, exists_eq_left']
      exact ⟨fun h => ⟨hlight, hall, h.symm⟩, fun h => h.2.2.symm⟩

/-- Whether there is a command depends on the kind and on the names that are assigned to, and not
    on the values. -/
theorem exists_command_iff : (∃ c, v.command assignments = .ok c) ↔
    (∃ kind, v.kind? = some kind ∧ kind ≠ .light) ∧
      ∀ a ∈ assignments, v.hasMember a.1 = true := by
  constructor
  · rintro ⟨c, hc⟩
    obtain ⟨kind, hkind, hlight, hall, -⟩ := command_eq_ok.1 hc
    exact ⟨⟨kind, hkind, hlight⟩, hall⟩
  · rintro ⟨⟨kind, hkind, hlight⟩, hall⟩
    exact ⟨_, command_eq_ok.2 ⟨kind, hkind, hlight, hall, rfl⟩⟩

/-- A command for switches has exactly what is assigned. -/
theorem members_of_switch (hc : v.command assignments = .ok c) (hkind : c.kind = .switch) :
    c.members = assignments := by
  obtain ⟨kind, -, -, -, rfl⟩ := command_eq_ok.1 hc
  obtain rfl : kind = .switch := hkind
  rfl

/-- A command for anything but switches has all members that are listed, in their order. -/
theorem members_of_ne_switch (hc : v.command assignments = .ok c) (hkind : c.kind ≠ .switch) :
    c.members = v.memberNames.map fun name =>
      (name, ((assigned? assignments name).or (v.value? name)).getD "") := by
  obtain ⟨kind, -, -, -, rfl⟩ := command_eq_ok.1 hc
  exact commandMembers_of_ne hkind

theorem names_of_command (hc : v.command assignments = .ok c) (hkind : c.kind ≠ .switch) :
    c.members.map Prod.fst = v.memberNames := by
  rw [members_of_ne_switch hc hkind, List.map_map]
  exact List.map_id _

end VectorView

/-! ### Members -/

namespace VectorView

theorem hasMember_eq (v : VectorView) (name : String) :
    v.hasMember name = (v.read? [Layout.membersKey, name]).isSome := by
  rw [hasMember, member?, read?, read_child v.node, read_child _ name, Json.read_nil,
    Option.isSome_map]

/-- What has a value is a member. -/
theorem hasMember_of_value? {v : VectorView} {name text : String} (h : v.value? name = some text) :
    v.hasMember name = true := by
  rw [value?, scalar?] at h
  rw [hasMember]
  cases hm : v.member? name with
  | none =>
    rw [hm] at h
    cases h
  | some n => rfl

/-- The members that are listed in the view are the members that are there, and each has a
    value. -/
structure Stocked (v : VectorView) : Prop where
  listed : ∀ name, v.hasMember name = true ↔ name ∈ v.memberNames
  valued : ∀ name, v.hasMember name = true → ∃ text, v.value? name = some text

/-- `v'` has the members of `v` with the same values, but for those that are assigned to. -/
structure Overrides (assignments : List (String × String)) (v v' : VectorView) : Prop where
  names : v'.memberNames = v.memberNames
  members : ∀ name, v'.hasMember name = v.hasMember name
  values : ∀ name, v'.value? name =
    (v.value? name).map fun old => (assigned? assignments name).getD old

/-- In a `Stocked` view, a member of a command has the value assigned to it, or else the one that
    is seen. -/
theorem Stocked.value_of_mem {v : VectorView} {assignments : List (String × String)} {c : Command}
    (h : v.Stocked) (hc : v.command assignments = .ok c) (hkind : c.kind ≠ .switch)
    {m : String × String} (hm : m ∈ c.members) :
    some m.2 = (assigned? assignments m.1).or (v.value? m.1) := by
  rw [members_of_ne_switch hc hkind] at hm
  obtain ⟨member, hlisted, rfl⟩ := List.mem_map.1 hm
  obtain ⟨text, htext⟩ := h.valued member ((h.listed member).2 hlisted)
  dsimp only
  rw [htext]
  cases assigned? assignments member <;> rfl

/-- A view of nothing is `Stocked`, as it has no members. -/
theorem stocked_of_none {v : VectorView} (h : v.node = none) : v.Stocked := by
  have hmember : ∀ name, v.hasMember name = false := by
    intro name
    rw [hasMember, member?, h]
    rfl
  refine ⟨fun name => ?_, fun name hname => ?_⟩
  · rw [hmember, memberNames, h]
    exact iff_of_false Bool.false_ne_true List.not_mem_nil
  · rw [hmember] at hname
    cases hname

end VectorView

/-- What a definition makes known of a vector, and updates keep: the names of its members in their
    order, and that these members are there with values. -/
structure Definition.Furnishes (d : Definition) (V : VectorFacts) : Prop where
  names : V.own Layout.memberNamesKey = some (.arr (d.members.map fun m => .str m.name))
  declares : d.Declares V
  valued : V.Valued

namespace Definition

variable {d : Definition} {V : VectorFacts} {v v' : VectorView}

theorem furnishes_ofDefinition (d : Definition) : d.Furnishes (.ofDefinition d) :=
  ⟨VectorFacts.own_memberNames d, d.declares_ofDefinition, VectorFacts.valued_ofDefinition d⟩

theorem Furnishes.update (h : d.Furnishes V) (u : Update) : d.Furnishes (V.update u) :=
  ⟨(VectorFacts.own_memberNames_update u V).trans h.names, h.declares.update u, h.valued.update u⟩

/-- The names that are seen of a furnished vector are those of its definition, in their order. -/
theorem Furnishes.memberNames (h : d.Furnishes V) (hv : v.Reports V) :
    v.memberNames = d.members.map Member.name := by
  rw [hv.names _ h.names, d.texts_memberNames]

end Definition

/-! ### Echoes -/

/-- An update with the members and values of a command, whatever else it says. -/
structure Update.Echoes (u : Update) (c : Command) : Prop where
  device : u.device = c.device
  name : u.name = c.name
  members : u.members.map (fun m => (m.name, m.value)) = c.members

/-- Looking up a name in a list that has one value for each name. -/
theorem Dict.last?_map_names {α : Type} (names : List String) (f : String → α) (key : String) :
    Dict.last? (names.map fun name => (name, f name)) key =
      if key ∈ names then some (f key) else none := by
  induction names with
  | nil => rfl
  | cons name names ih =>
    rw [List.map_cons, Dict.last?_cons, ih]
    by_cases hname : name = key
    · subst hname
      by_cases hmem : name ∈ names <;> simp [hmem]
    · simp [hname, Ne.symm hname]

/-- The value that an echo has for a member is that of the command. -/
theorem Update.Echoes.value {u : Update} {c : Command} (h : u.Echoes c) (name : String) :
    (u.member? name).map Member.value = Dict.last? c.members name := by
  rw [← h.members, Dict.last?_map, Update.member?]

/-! ### In the course of a writer's life -/

namespace TreeWriter

section Views

variable {l : Layout} {w : TreeWriter} {s s' : Store} {devices devices' : DeviceMap}
  {device name : String} {d : Definition} {V : VectorFacts}
  {assignments : List (String × String)} {c : Command} {u : Update}

/-- Nothing is seen of a vector that is not known. -/
theorem Stands.node_view_of_none (h : Stands l s devices)
    (hV : devices.vector? device name = none) : (l.view s device name).node = none := by
  have hcontains := h.contains_vector device name
  rw [hV] at hcontains
  rw [l.node_view]
  exact Option.not_isSome_iff_eq_none.1 (Bool.eq_false_iff.1 hcontains)

/-- The members that are seen of a vector are those that are known of it. -/
theorem Stands.hasMember (h : Stands l s devices) (hV : devices.vector? device name = some V)
    (member : String) : (l.view s device name).hasMember member = (V.members member).isSome := by
  have hcontains := h.contains_member device name member
  have hread : s.value.at? (l.member device name member) =
      Json.read [Layout.membersKey, member] (s.value.at? (l.vector device name)) :=
    Json.read_append (l.vector device name) _ (some s.value)
  rw [hV, Store.contains_eq, hread] at hcontains
  rwa [VectorView.hasMember_eq, l.read?_view, Store.get?_eq]

/-- What is seen of a vector is `Stocked`, if what is known of it comes from a definition. -/
theorem Stands.stocked (h : Stands l s devices)
    (hfurnished : ∀ V, devices.vector? device name = some V → ∃ d : Definition, d.Furnishes V) :
    (l.view s device name).Stocked := by
  cases hV : devices.vector? device name with
  | none => exact VectorView.stocked_of_none (h.node_view_of_none hV)
  | some V =>
    obtain ⟨d, hd⟩ := hfurnished V hV
    -- The vector is seen as it is known, and the definition listed its members and gave them
    -- values.
    have hreports := h.reports hV
    refine ⟨fun member => ?_, fun member hmember => ?_⟩
    · rw [h.hasMember hV, hd.memberNames hreports]
      exact hd.declares member
    · rw [h.hasMember hV] at hmember
      obtain ⟨f, hf⟩ := Option.isSome_iff_exists.1 hmember
      obtain ⟨x, hx⟩ := hd.valued member f hf
      rw [hreports.values, hf, Option.map_some, hx]
      exact ⟨_, rfl⟩

/-- In two stores with the same facts of a vector, the same values are seen. -/
theorem Stands.value?_congr (h : Stands l s devices) (h' : Stands l s' devices')
    (hV : devices'.vector? device name = devices.vector? device name) (member : String) :
    (l.view s' device name).value? member = (l.view s device name).value? member := by
  cases hknown : devices.vector? device name with
  | none =>
    rw [hknown] at hV
    rw [VectorView.value?, VectorView.value?, VectorView.member?, VectorView.member?,
      h.node_view_of_none hknown, h'.node_view_of_none hV]
  | some V =>
    rw [hknown] at hV
    rw [(h.reports hknown).values, (h'.reports hV).values]

/-- **An echo leaves what was not assigned.** If a server repeats a command for anything but
    switches, the update is not refused, the vector `Overrides` what was seen of it by the
    assignments, and the values of all other vectors stay. -/
theorem Stands.overrides (h : Stands w.layout s devices) (hl : w.layout.Separate)
    (hV : devices.vector? device name = some V) (hd : d.Furnishes V)
    (hc : (w.layout.view s device name).command assignments = .ok c) (hkind : c.kind ≠ .switch)
    (hu : u.Echoes c) :
    (w.apply (.update u) s).2.1 = .ok () ∧
      VectorView.Overrides assignments (w.layout.view s device name)
        (w.layout.view (w.apply (.update u) s).2.2 device name) ∧
      ∀ device' name', ¬ (device' = device ∧ name' = name) → ∀ member,
        (w.layout.view (w.apply (.update u) s).2.2 device' name').value? member =
          (w.layout.view s device' name').value? member := by
  have hmembers := VectorView.members_of_ne_switch hc hkind
  obtain ⟨hdevice, hname⟩ : u.device = device ∧ u.name = name := by
    obtain ⟨kind, -, -, -, rfl⟩ := VectorView.command_eq_ok.1 hc
    exact ⟨hu.device, hu.name⟩
  obtain ⟨w', s', happly, -, hs'⟩ := h.apply hl (m := .update u) trivial
  have hV' : (DeviceMap.write devices (.update u)).vector? device name =
      some (V.update u) := by
    rw [DeviceMap.vector?_write, Message.rewrite, if_pos ⟨hdevice, hname⟩, hV]
    rfl
  -- What is seen before and after is told by what is known before and after.
  have hreports := h.reports hV
  have hreports' := hs'.reports hV'
  have hnames : d.members.map Member.name = (w.layout.view s device name).memberNames :=
    (hd.memberNames hreports).symm
  rw [happly]
  refine ⟨rfl, ⟨?_, fun member => ?_, fun member => ?_⟩, fun device' name' hother member => ?_⟩
  · rw [(hd.update u).memberNames hreports', hd.memberNames hreports]
  · rw [hs'.hasMember hV', h.hasMember hV]
    exact Bool.eq_iff_iff.2 ((hd.declares.update u member).trans (hd.declares member).symm)
  · rw [hreports.value?_update hreports' hd.valued, hu.value]
    cases hvalue : (w.layout.view s device name).value? member with
    | none => rfl
    | some old =>
      have hlisted : member ∈ (w.layout.view s device name).memberNames := by
        rw [← hnames, ← hd.declares, ← h.hasMember hV]
        exact VectorView.hasMember_of_value? hvalue
      rw [hmembers, Dict.last?_map_names, if_pos hlisted, hvalue]
      cases VectorView.assigned? assignments member <;> rfl
  · refine h.value?_congr hs' ?_ member
    rw [DeviceMap.vector?_write, Message.rewrite, if_neg]
    exact fun hsame => hother ⟨hsame.1.symm.trans hdevice, hsame.2.symm.trans hname⟩

end Views

/-- What becomes of `assignments` to a vector, where a writer has come to a store. -/
structure Completes (l : Layout) (p : TreeWriter × Store) (device name : String)
    (assignments : List (String × String)) : Prop where
  /-- There is a command exactly if the vector has a kind that is not read-only, and all that is
      assigned are members. -/
  made : (∃ c, (l.view p.2 device name).command assignments = .ok c) ↔
    (∃ kind, (l.view p.2 device name).kind? = some kind ∧ kind ≠ .light) ∧
      ∀ a ∈ assignments, (l.view p.2 device name).hasMember a.1 = true
  /-- It is for the vector. -/
  addressed : ∀ c, (l.view p.2 device name).command assignments = .ok c →
    c.device = device ∧ c.name = name ∧ (l.view p.2 device name).kind? = some c.kind
  /-- Switches are what is assigned. -/
  switches : ∀ c, (l.view p.2 device name).command assignments = .ok c → c.kind = .switch →
    c.members = assignments
  /-- Others are all that is listed, in order. -/
  names : ∀ c, (l.view p.2 device name).command assignments = .ok c → c.kind ≠ .switch →
    c.members.map Prod.fst = (l.view p.2 device name).memberNames
  /-- What is listed is there, with a value. -/
  stocked : l.Separate → (l.view p.2 device name).Stocked
  /-- Of some values that are assigned to a member the first one counts, and a member without any
      keeps its own. -/
  values : l.Separate → ∀ c, (l.view p.2 device name).command assignments = .ok c →
    c.kind ≠ .switch → ∀ m ∈ c.members,
      some m.2 = (VectorView.assigned? assignments m.1).or ((l.view p.2 device name).value? m.1)
  /-- When the command is repeated by the server, the members have the values that are assigned to
      them, or else those they had; and so have the members of all other vectors. -/
  echoed : l.Separate → ∀ c, (l.view p.2 device name).command assignments = .ok c →
    c.kind ≠ .switch → ∀ u : Update, u.Echoes c →
      (p.1.apply (.update u) p.2).2.1 = .ok () ∧
        VectorView.Overrides assignments (l.view p.2 device name)
          (l.view (p.1.apply (.update u) p.2).2.2 device name) ∧
        ∀ device' name', ¬ (device' = device ∧ name' = name) → ∀ member,
          (l.view (p.1.apply (.update u) p.2).2.2 device' name').value? member =
            (l.view p.2 device' name').value? member

/-- **Commands are completed.** After every run of a writer, for every vector and all assignments:
    whether there is a command, what is in it, and what is seen once the server repeats it. -/
theorem completes_run (l : Layout) (clock : Clock) (events : List Event)
    (hfits : ∀ e ∈ events, e.Fits) (device name : String)
    (assignments : List (String × String)) :
    Completes l (run l clock events) device name assignments := by
  -- What is known of the vector comes from its definition, if it is known at all.
  have hfurnished : ∀ V, (events.foldl DeviceMap.follow none).vector? device name = some V →
      ∃ d : Definition, d.Furnishes V := by
    intro V hV
    have hrelated := related_run Definition.furnishes_ofDefinition (fun _ _ u h => h.update u)
      events device name
    rw [hV] at hrelated
    generalize declared? events device name = o at hrelated
    cases hrelated with
    | some h => exact ⟨_, h⟩
  have hstands := fun hl : l.Separate => stands_run hl clock events hfits
  generalize events.foldl DeviceMap.follow none = devices at hfurnished hstands
  generalize run l clock events = p at hstands
  have hstocked := fun hl : l.Separate => (hstands hl).2.stocked hfurnished
  refine ⟨VectorView.exists_command_iff, fun c hc => ?_, fun c => VectorView.members_of_switch,
    fun c => VectorView.names_of_command, hstocked,
    fun hl c hc hkind m => (hstocked hl).value_of_mem hc hkind, fun hl c hc hkind u hu => ?_⟩
  · obtain ⟨kind, hkind, -, -, rfl⟩ := VectorView.command_eq_ok.1 hc
    exact ⟨rfl, rfl, hkind⟩
  · obtain ⟨hlayout, hs⟩ := hstands hl
    cases hV : devices.vector? device name with
    | none =>
      -- There is no command for a vector that is not there.
      obtain ⟨kind, hnone, -⟩ := VectorView.command_eq_ok.1 hc
      rw [VectorView.kind?, hs.node_view_of_none hV] at hnone
      cases hnone
    | some V =>
      obtain ⟨d, hd⟩ := hfurnished V hV
      subst hlayout
      exact hs.overrides hl hV hd hc hkind hu

/-- A vector of two numbers, right ascension and declination. -/
def pointing : Definition :=
  { kind := .number, device := "Mount", name := "EQUATORIAL_COORD", state := .idle,
    timestamp := none, message := none, attributes := [],
    members := [{ name := "RA", value := "0", attributes := [] },
      { name := "DEC", value := "0", attributes := [] }] }

/-- `completes_run` on `pointing`: of two values for one member the first one is commanded, and the
    other member keeps its own. -/
theorem completes_run_pointing :
    let p := run {} {} [.message (.define pointing), .markBusy "Mount" "EQUATORIAL_COORD"]
    ({} : Layout).Separate ∧
      (({} : Layout).view p.2 "Mount" "EQUATORIAL_COORD").command [("DEC", "2"), ("DEC", "3")] =
        .ok { kind := .number, device := "Mount", name := "EQUATORIAL_COORD",
              members := [("RA", "0"), ("DEC", "2")] } ∧
      Completes {} p "Mount" "EQUATORIAL_COORD" [("DEC", "2"), ("DEC", "3")] := by
  intro p
  have hfits : ∀ e ∈ [Event.message (.define pointing), .markBusy "Mount" "EQUATORIAL_COORD"],
      e.Fits := by
    simp only [List.forall_mem_cons]
    exact ⟨show pointing.members.length ≤ ArrayIndex.limit by decide, trivial,
      List.forall_mem_nil _⟩
  exact ⟨⟨by decide, by decide⟩, rfl, completes_run {} {} _ hfits _ _ _⟩

/-- A configuration that puts the message log among the members of a vector. -/
def PanelConfig.amongMembers : PanelConfig :=
  { hub := { treePath := ["a"],
             messagesPath := ["a", "Mount", "EQUATORIAL_COORD", Layout.membersKey] } }

/-- With the configuration `amongMembers`, which is accepted, commands are not completed.  Once
    there are words for the log, what holds its entries passes for a member: the command is made,
    but what is assigned is not in it, and when the server repeats the command the value is not
    there. -/
theorem amongMembers_incomplete :
    let l := PanelConfig.amongMembers.layout
    let p := run l {} [.message (.define pointing), .message hello]
    let v := l.view p.2 "Mount" "EQUATORIAL_COORD"
    let c : Command := { kind := .number, device := "Mount", name := "EQUATORIAL_COORD",
                         members := [("RA", "0"), ("DEC", "0")] }
    let echo : Update := { kind := .number, device := "Mount", name := "EQUATORIAL_COORD",
                           state := none, timestamp := none, message := none, attributes := [],
                           members := c.members.map fun m => ⟨m.1, m.2, []⟩ }
    PanelConfig.amongMembers.validate = .ok PanelConfig.amongMembers ∧
      v.command [("byUid", "x")] = .ok c ∧ v.hasMember "byUid" = true ∧ ¬ v.Stocked ∧
        echo.Echoes c ∧ (l.view (p.1.apply (.update echo) p.2).2.2 "Mount"
          "EQUATORIAL_COORD").value? "byUid" = none := by
  intro l p v c echo
  have hmember : v.hasMember "byUid" = true := by decide
  have hnames : v.memberNames = ["RA", "DEC"] := by decide
  have hcommand : v.command [("byUid", "x")] = .ok c :=
    VectorView.command_eq_ok.2 ⟨.number, by decide, by decide,
      List.forall_mem_singleton.2 hmember, by decide⟩
  refine ⟨rfl, hcommand, hmember, fun h => ?_, ⟨rfl, rfl, rfl⟩, by decide⟩
  -- A stocked view would list the member, but the list of names is that of the definition.
  have hlisted : "byUid" ∈ v.memberNames := (h.listed _).1 hmember
  rw [hnames] at hlisted
  exact absurd hlisted (by decide)

end TreeWriter

end Observatory

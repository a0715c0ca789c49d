import Observatory.Config.Basic
import Observatory.Proofs.DeviceTree.Readback

/-!
# Configurations that keep devices and log apart

A configuration says where the devices and where the messages lie.  It should not let the one be
written in place of the other.  It does not exactly if neither path is within the other, while
only equal paths are refused.

* `PanelConfig.KeepsApart`: what is done to devices leaves the log alone, and words for the log
  leave the devices alone;
* `TreeWriter.Stands.node?_run_aside`, `TreeWriter.Stands.node?_noted_aside`: they do so if the
  paths fork;
* `TreeWriter.log_within_devices`, `TreeWriter.devices_within_log`: they do not if one path is
  within the other;
* `PanelConfig.keepsApart_iff`: configurations that keep them apart.
-/

namespace Observatory

/-! ### Apart -/

/-- Whatever a writer with this configuration has done: what an event does to devices changes
    nothing at or beneath the path of the messages, and noting its words changes no device that is
    seen. -/
def PanelConfig.KeepsApart (c : PanelConfig) : Prop :=
  ∀ clock events, (∀ e ∈ events, e.Fits) → ∀ e : TreeWriter.Event, e.Fits →
    let p := TreeWriter.run c.layout clock events
    let tree (s : Store) : DeviceTree := { path := c.layout.treePath, store := s }
    (∀ q, c.layout.messagesPath <+: q → (e.run p).2.get? q = (e.noted p).2.get? q) ∧
      (tree (e.noted p).2).deviceNames = (tree p.2).deviceNames ∧
        ∀ name, (tree (e.noted p).2).device name = (tree p.2).device name

namespace TreeWriter

section Aside

variable {w : TreeWriter} {s : Store} {devices : DeviceMap} {e : Event} {q : List String}

/-- If the two paths fork, what is done to devices leaves all nodes of the log as they are. -/
theorem Stands.node?_run_aside (h : Stands w.layout s devices) (hl : w.layout.Separate)
    (hforks : Forks w.layout.treePath w.layout.messagesPath) (he : e.Fits)
    (hq : w.layout.messagesPath <+: q) :
    (e.run (w, s)).2.node? q = (e.noted (w, s)).2.node? q :=
  (h.trail_run hl he).2.node?_eq fun _ hp =>
    (hforks.symm.extend hq).symm.extend hp.prefix_tree

/-- If the two paths fork, noting words leaves the node of the devices as it is. -/
theorem Stands.node?_noted_aside (h : Stands w.layout s devices) (hl : w.layout.Separate)
    (hforks : Forks w.layout.treePath w.layout.messagesPath) (e : Event) :
    (e.noted (w, s)).2.node? w.layout.treePath = s.node? w.layout.treePath := by
  refine (h.trail_noted hl e).2.node?_eq ?_
  rintro p ⟨uid, rfl⟩
  exact hforks.symm.extend (List.prefix_append _ _)

end Aside

/-! ### One within the other -/

section Within

variable {l : Layout} {clock : Clock}

/-- A new store has nothing beneath its root. -/
theorem get?_start (clock : Clock) {path : List String} (h : path ≠ []) :
    (Store.start clock).get? path = none := by
  cases path with
  | nil => exact absurd rfl h
  | cons key rest => rfl

/-- What leads to something that is there is there as well. -/
theorem contains_of_append {s : Store} {path rest : List String}
    (h : s.contains (path ++ rest) = true) : s.contains path = true := by
  rw [Store.contains, Store.node?, Node.descendant?_append] at h
  rw [Store.contains, Store.node?]
  cases hn : s.root.descendant? path with
  | none =>
    rw [hn] at h
    cases h
  | some n => rfl

/-- A notice with words and about no device. -/
def hello : Message := .notice { device := none, timestamp := none, message := "hello" }

/-- After words are noted, the node that holds the entries is there, even if the log has room for
    none of them. -/
theorem contains_noted_hello (l : Layout) (clock : Clock) :
    ((Event.message hello).noted ({ layout := l }, Store.start clock)).2.contains
      (l.messagesPath ++ [Layout.entriesKey]) = true := by
  have hfirm := firm_logObject none none "hello"
  have hopen : Json.Open (l.logEntry 0) (Store.start clock).value := Json.open_emptyObject _
  obtain ⟨hdone, hwrites⟩ := Store.rewrites_put (Store.valid_start clock) hfirm hopen
  show (appendLog { layout := l } none none "hello" (Store.start clock)).2.2.contains _ = true
  rw [appendLog_eq hdone]
  dsimp only
  generalize ((Store.start clock).put (l.logEntry 0) _).2 = s at hwrites ⊢
  have hthere : s.contains (l.messagesPath ++ [Layout.entriesKey]) = true := by
    have hentry : s.contains (l.logEntry 0) = true := by
      rw [Store.contains_eq, ← Store.get?_eq, hwrites.get?_self]
      rfl
    rw [Layout.logEntry_eq] at hentry
    exact contains_of_append hentry
  have hagain : Json.Open (l.logEntry 0) s.value :=
    (hwrites.openIn.alter hwrites.openIn fun _ => rfl) _ hwrites.value
  have hdrop := (Store.rewrites_drop hwrites.valid (by simp [Layout.logEntry]) hagain).2
  -- If there is no room, the entry is dropped again, but not the node that holds the entries.
  have hshort : ¬ l.logEntry 0 <+: l.messagesPath ++ [Layout.entriesKey] := by
    intro hpre
    have hlength := hpre.length_le
    simp [Layout.logEntry] at hlength
  have hstays := hdrop.contains hshort hthere
  show (trim l [0] s).2.2.contains _ = true
  rw [trim]
  split
  · exact hthere
  · generalize s.drop (l.logEntry 0) = r at hstays
    obtain ⟨_ | _, s'⟩ := r
    · exact hstays
    · exact hstays

/-- If the log lies within the devices, words make something that is seen as a device. -/
theorem log_within_devices {c : PanelConfig} (h : c.hub.treePath <+: c.hub.messagesPath) :
    ¬ c.KeepsApart := by
  intro hapart
  obtain ⟨rest, hrest⟩ := h
  obtain ⟨key, more, hkey⟩ := List.exists_cons_of_ne_nil
    (List.append_ne_nil_of_right_ne_nil rest (List.cons_ne_nil Layout.entriesKey []))
  have hpath : c.layout.messagesPath ++ [Layout.entriesKey] =
      (c.layout.treePath ++ [key]) ++ more := by
    show c.hub.messagesPath ++ _ = _
    rw [← hrest, List.append_assoc, hkey, List.append_assoc]
    rfl
  -- The entry of `hello` is there after it was noted, so something is seen under the key.
  have hthere := contains_noted_hello c.layout {}
  rw [hpath] at hthere
  have hthere : (((Event.message hello).noted (run c.layout {} [])).2.node?
      (c.layout.treePath ++ [key])).isSome = true := contains_of_append hthere
  have hnone : (run c.layout {} []).2.get? (c.layout.treePath ++ [key]) = none :=
    get?_start {} (List.append_ne_nil_of_right_ne_nil _ (List.cons_ne_nil key []))
  have hdevice := congrArg DeviceView.node
    ((hapart {} [] (List.forall_mem_nil _) (.message hello) trivial).2.2 key)
  rw [DeviceTree.node_device, DeviceTree.node_device, Option.map_eq_none_iff.1 hnone] at hdevice
  rw [hdevice] at hthere
  cases hthere

/-- If the devices lie within the log, a definition is written into the log. -/
theorem devices_within_log {c : PanelConfig} (h : c.hub.messagesPath <+: c.hub.treePath) :
    ¬ c.KeepsApart := by
  intro hapart
  have hfits : Fits (.define dome) := show dome.members.length ≤ ArrayIndex.limit by decide
  have hbeneath : c.layout.messagesPath <+: c.layout.vector dome.device dome.name :=
    List.IsPrefix.trans h (List.prefix_append _ _)
  have hnone : (run c.layout {} []).2.get? (c.layout.vector dome.device dome.name) = none :=
    get?_start {} (List.append_ne_nil_of_right_ne_nil _ (List.cons_ne_nil _ _))
  have hsame := (hapart {} [] (List.forall_mem_nil _) (.message (.define dome)) hfits).1 _ hbeneath
  -- In an empty store nothing refuses the definition.
  have hdone : (define c.layout dome (Store.start {})).1 = .ok () :=
    (Store.rewrites_put (Store.lasting_valid.draw (Store.valid_start {}))
      (firm_vectorObject hfits _) (Json.open_emptyObject _)).1
  have hwritten := get?_define (Store.valid_start {}) hfits hdone
  have hnothing : (define c.layout dome (Store.start {})).2.get?
      (c.layout.vector dome.device dome.name) = none := hsame.trans hnone
  rw [hnothing] at hwritten
  cases hwritten

end Within

end TreeWriter

/-- **Configurations that keep devices and log apart** are exactly those in which neither of the
    two paths is a prefix of the other. -/
theorem PanelConfig.keepsApart_iff (c : PanelConfig) :
    c.KeepsApart ↔ Forks c.hub.treePath c.hub.messagesPath := by
  constructor
  · intro h
    exact ⟨fun hpre => TreeWriter.log_within_devices hpre h,
      fun hpre => TreeWriter.devices_within_log hpre h⟩
  · intro hforks clock events hfits e he p tree
    -- Paths that fork make a separate layout, and there neither kind of write reaches the other
    -- path.
    have hl : c.layout.Separate := Layout.separate_of_not_prefix hforks.1 hforks.2
    obtain ⟨hlayout, hs⟩ := TreeWriter.stands_run hl clock events hfits
    change p.1.layout = c.layout at hlayout
    change TreeWriter.Stands c.layout p.2 _ at hs
    clear_value p
    rw [← hlayout] at hs hl
    have hforks : Forks p.1.layout.treePath p.1.layout.messagesPath := hlayout ▸ hforks
    have htree := hs.node?_noted_aside hl hforks e
    rw [hlayout] at htree
    refine ⟨fun q hq => ?_, ?_, fun name => ?_⟩
    · rw [← hlayout] at hq
      exact congrArg (Option.map Node.toJson) (hs.node?_run_aside hl hforks he hq)
    · show (DeviceTree.root? _ |>.map _).getD _ = _
      rw [DeviceTree.deviceNames, DeviceTree.root?, DeviceTree.root?, htree]
    · show DeviceView.mk _ _ = DeviceView.mk _ _
      rw [DeviceTree.root?, DeviceTree.root?, htree]

/-- A configuration with the log among the devices. -/
def PanelConfig.nested : PanelConfig :=
  { hub := { treePath := ["a"], messagesPath := ["a", "log"] } }

/-- `validate` accepts the configuration `nested`, and clearing the devices erases the log with
    them, so not every configuration that is accepted keeps the two apart. -/
theorem PanelConfig.nested_erased :
    let p := TreeWriter.run nested.layout {} [.message TreeWriter.hello]
    nested.validate = .ok nested ∧ (p.2.get? ["a", "log"]).isSome = true ∧
      (TreeWriter.Event.clear.run p).2.get? ["a", "log"] = none ∧ ¬ nested.KeepsApart := by
  intro p
  have hbefore : (p.2.get? ["a", "log"]).isSome = true := by decide
  have hafter : (TreeWriter.Event.clear.run p).2.get? ["a", "log"] = none := by decide
  refine ⟨rfl, hbefore, hafter, fun h => ?_⟩
  have hfits : ∀ e ∈ [TreeWriter.Event.message TreeWriter.hello], e.Fits :=
    List.forall_mem_singleton.2 trivial
  have hsame := (h {} _ hfits .clear trivial).1 ["a", "log"] List.prefix_rfl
  have hnone : p.2.get? ["a", "log"] = none := hsame.symm.trans hafter
  rw [hnone] at hbefore
  cases hbefore

end Observatory

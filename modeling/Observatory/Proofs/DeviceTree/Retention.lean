import Observatory.Proofs.DeviceTree.Footprint
import Observatory.Proofs.DeviceTree.MessageLog

/-!
# The latest entries of the log

The numbers of the entries are kept twice: in a queue of the writer and as keys in the store.  The
two stay equal through every append, every entry that has to go, and all that is done to the
devices meanwhile.

* `TreeWriter.get?_logObject`: what an entry holds;
* `TreeWriter.Retains`: a log that holds the latest of some entries;
* `TreeWriter.Retains.append`: one more entry, for which the oldest one may have to go;
* `TreeWriter.Retains.follow`: any event;
* `TreeWriter.keepsLatest_run`: the log in the course of a writer's life.
-/

namespace Observatory

/-! ### Places in the log -/

namespace Layout

variable (l : Layout)

/-- The path of what the log has under a key. -/
def entry (key : String) : List String := l.messagesPath ++ [entriesKey, key]

theorem entry_eq (key : String) : l.entry key = (l.messagesPath ++ [entriesKey]) ++ [key] := by
  rw [entry, List.append_assoc]
  rfl

/-- Different keys of the log lead to paths that fork. -/
theorem forks_entry {key k : String} (h : key ≠ k) : Forks (l.entry key) (l.entry k) := by
  rw [entry, entry, forks_append, forks_cons]
  refine ⟨fun hp => ?_, fun hp => ?_⟩
  · exact h (List.cons_prefix_cons.1 hp).1
  · exact h (List.cons_prefix_cons.1 hp).1.symm

variable {l}

/-- In a separate layout, the path of the devices forks from all that is in the log. -/
theorem Separate.forks_entry (h : l.Separate) (key : String) : Forks l.treePath (l.entry key) := by
  rw [entry_eq]
  refine ⟨fun hp => ?_, fun hp => h.entries_aside ((List.prefix_append _ _).trans hp)⟩
  rcases List.prefix_concat_iff.1 hp with heq | hpre
  · exact h.entries_aside (heq ▸ List.prefix_append _ _)
  · exact h.devices_aside hpre

end Layout

namespace Store

/-- The keys of the node at a path, none if there is no node. -/
def keysAt (s : Store) (path : List String) : List String :=
  ((s.node? path).map Node.keys).getD []

/-- A key is at a path if and only if something is there under the key. -/
theorem mem_keysAt {s : Store} {path : List String} {key : String}
    (h : Json.Open (path ++ [key]) s.value) :
    key ∈ s.keysAt path ↔ s.contains (path ++ [key]) = true := by
  have hopen : Json.OpenIn (path ++ [key]) (some s.value) := fun _ ht => Option.some.inj ht ▸ h
  have hread : Json.read path (some s.value) = (s.node? path).map Node.toJson :=
    Node.toJson_descendant? s.root path
  -- No list stands at the path, so what is there is an object or has no keys.
  have hobj := (Json.openIn_cons.1 (Json.openIn_append.1 hopen).2).1
  rw [keysAt, contains_eq, show s.value.at? (path ++ [key]) = _ from
    Json.read_append path [key] (some s.value)]
  rw [hread] at hobj ⊢
  cases hn : s.node? path with
  | none => simp [Json.read]
  | some n =>
    rw [hn] at hobj
    obtain ⟨fields, hn⟩ := hobj _ rfl
    cases n with
    | scalar a s => cases hn
    | array a items => cases hn
    | object a children =>
      rw [Option.map_some, Option.map_some, Json.read_cons, Option.bind_some, Json.read_nil,
        Node.toJson_child?, Option.isSome_map]
      exact Dict.isSome_get?_iff.symm

end Store

namespace TreeWriter

open Store (Rewrites)

/-! ### Entries -/

/-- The object of an entry has the device, the time and the words, and nothing else. -/
theorem get?_logObject (device timestamp : Option String) (words : String) :
    ∃ fields, logObject device timestamp words = .obj fields ∧ ∀ key, Dict.get? fields key =
      if key = Layout.deviceKey then device.map .str
      else if key = Layout.timestampKey then timestamp.map .str
      else if key = Layout.messageKey then some (.str words)
      else none := by
  refine ⟨_, rfl, fun key => ?_⟩
  have hdt : Layout.deviceKey ≠ Layout.timestampKey := by decide
  have hdm : Layout.messageKey ≠ Layout.deviceKey := by decide
  have htm : Layout.messageKey ≠ Layout.timestampKey := by decide
  -- Of pairs with one key the last one counts, but the three keys are different.
  rw [Dict.get?_ofPairs_eq_last?, Dict.last?_append, Dict.last?_append, last?_optionalField,
    last?_optionalField, Dict.last?_singleton]
  by_cases hd : key = Layout.deviceKey
  · subst hd
    rw [if_neg hdm, if_neg hdt, if_pos rfl, if_pos rfl]
    rfl
  · by_cases ht : key = Layout.timestampKey
    · subst ht
      rw [if_neg htm, if_pos rfl, if_neg hd, if_neg hd, if_pos rfl, Option.or_none]
      rfl
    · rw [if_neg ht, if_neg hd, if_neg hd, if_neg ht, Option.or_none, Option.or_none]
      simp only [eq_comm]

/-! ### Logs -/

/-- The log in the store has the entries from the number `first` on, each under its number, and
    nothing under any other key. -/
structure Lists (l : Layout) (s : Store) (entries : List Json) (first : Nat) : Prop where
  reads : ∀ uid, s.get? (l.logEntry uid) = if first ≤ uid then entries[uid]? else none
  numbered : ∀ key, s.contains (l.entry key) = true → ∃ uid : Nat, key = toString uid

section Lists

variable {l : Layout} {s s' : Store} {entries : List Json} {first : Nat}

/-- `Lists` is kept by what leaves the nodes of the log as they are. -/
theorem Lists.elsewhere (h : Lists l s entries first)
    (hsame : ∀ key, s'.node? (l.entry key) = s.node? (l.entry key)) :
    Lists l s' entries first where
  reads := fun uid =>
    (congrArg (Option.map Node.toJson) (hsame (toString uid))).trans (h.reads uid)
  numbered := by
    intro key hcontains
    rw [Store.contains, hsame key] at hcontains
    exact h.numbered key hcontains

/-- What is read of an entry after one entry was rewritten. -/
theorem get?_logEntry_of_rewrites {uid : Nat} {o : Option Json}
    (h : Rewrites (l.logEntry uid) o s s') (uid' : Nat) :
    s'.get? (l.logEntry uid') = if uid' = uid then o else s.get? (l.logEntry uid') := by
  split
  · next heq => rw [heq, h.get?_self]
  · next hne =>
    exact congrArg (Option.map Node.toJson) (h.aside _
      ⟨l.logEntry_not_prefix (Ne.symm hne), l.logEntry_not_prefix hne⟩)

/-- When an entry is rewritten, numbers stay the only keys. -/
theorem Lists.numbered_of_rewrites (h : Lists l s entries first) {uid : Nat} {o : Option Json}
    (hwrites : Rewrites (l.logEntry uid) o s s') (key : String)
    (hcontains : s'.contains (l.entry key) = true) : ∃ uid : Nat, key = toString uid := by
  by_cases hkey : toString uid = key
  · exact ⟨uid, hkey.symm⟩
  · rw [Store.contains, hwrites.aside _ (l.forks_entry hkey)] at hcontains
    exact h.numbered key hcontains

/-- Appending an element changes only what is at the place behind the others. -/
theorem getElem?_concat_ne {α : Type} {as : List α} {a : α} {i : Nat} (h : i ≠ as.length) :
    (as ++ [a])[i]? = as[i]? := by
  rcases Nat.lt_or_gt_of_ne h with hlt | hgt
  · exact List.getElem?_append_left hlt
  · rw [List.getElem?_eq_none (by rw [List.length_append]; exact hgt),
      List.getElem?_eq_none (Nat.le_of_lt hgt)]

/-- `Lists` with one more entry, when this is written under the next number. -/
theorem Lists.put (h : Lists l s entries first) {entry : Json} (hfirst : first ≤ entries.length)
    (hwrites : Rewrites (l.logEntry entries.length) (some entry) s s') :
    Lists l s' (entries ++ [entry]) first where
  reads := by
    intro uid
    rw [get?_logEntry_of_rewrites hwrites, h.reads]
    by_cases hnew : uid = entries.length
    · rw [if_pos hnew, if_pos (hnew ▸ hfirst), hnew, List.getElem?_concat_length]
    · rw [if_neg hnew, getElem?_concat_ne hnew]
  numbered := h.numbered_of_rewrites hwrites

/-- `Lists` from the next number on, when the first entry is dropped. -/
theorem Lists.drop (h : Lists l s entries first)
    (hwrites : Rewrites (l.logEntry first) none s s') : Lists l s' entries (first + 1) where
  reads := by
    intro uid
    rw [get?_logEntry_of_rewrites hwrites, h.reads]
    by_cases hgone : uid = first
    · rw [if_pos hgone, if_neg (by omega)]
    · have hiff : first ≤ uid ↔ first + 1 ≤ uid := by omega
      simp only [if_neg hgone, hiff]
  numbered := h.numbered_of_rewrites hwrites

end Lists

/-- The log holds the latest of `entries`, as many as there is room for, and the queue of the
    writer has just their numbers. -/
structure Retains (w : TreeWriter) (s : Store) (entries : List Json) : Prop where
  next : w.nextUid = entries.length
  queue : w.log = List.range' (entries.length - w.layout.maxMessages)
    (min entries.length w.layout.maxMessages)
  lists : Lists w.layout s entries (entries.length - w.layout.maxMessages)

section Retains

variable {l : Layout} {w : TreeWriter} {s s' : Store} {devices : DeviceMap} {entries : List Json}
  {e : Event}

/-- A new log `Retains` no entries. -/
theorem retains_start (l : Layout) (clock : Clock) :
    Retains { layout := l } (Store.start clock) [] where
  next := rfl
  queue := by
    show [] = List.range' (0 - l.maxMessages) (min 0 l.maxMessages)
    rw [Nat.zero_min, List.range'_zero]
  lists.reads := fun uid => by
    rw [(logs_start l clock).reads uid]
    exact (ite_self none).symm
  lists.numbered := by
    -- The store is empty, so there is nothing at the path of any entry.
    intro key hcontains
    rw [Store.contains_eq] at hcontains
    cases hpath : l.entry key with
    | nil => exact absurd hpath (by simp [Layout.entry])
    | cons k rest =>
      rw [hpath] at hcontains
      cases hcontains

/-- The number of the next entry continues those in the queue. -/
theorem Retains.queue_concat (h : w.Retains s entries) : w.log ++ [w.nextUid] =
    List.range' (entries.length - w.layout.maxMessages)
      (min entries.length w.layout.maxMessages + 1) := by
  have hend : w.nextUid = entries.length - w.layout.maxMessages +
      1 * min entries.length w.layout.maxMessages := by
    rw [h.next]
    omega
  rw [h.queue, List.range'_concat, hend]

/-- `trim` on a queue with one number too many drops the first entry. -/
theorem trim_range' (l : Layout) (first : Nat) (s : Store) :
    trim l (List.range' first (l.maxMessages + 1)) s =
      match s.drop (l.logEntry first) with
      | (.ok _, s) => (List.range' (first + 1) l.maxMessages, .start s)
      | (.error e, s) => (List.range' (first + 1) l.maxMessages, (.error e, s)) := by
  rw [List.range'_succ, trim, if_neg (by rw [List.length_range']; exact Nat.lt_irrefl _)]
  obtain ⟨_ | _, s'⟩ := s.drop (l.logEntry first)
  · rfl
  · exact trim_of_le (Nat.le_of_eq List.length_range')

/-- `trim` restores the bound: if there is one entry too many, the first one is dropped from the
    queue and from the store. -/
theorem Lists.trim {uids : List Nat} (h : Lists l s entries (entries.length - 1 - l.maxMessages))
    (hs : Stands l s devices) (hne : entries ≠ [])
    (huids : uids = List.range' (entries.length - 1 - l.maxMessages)
      (min (entries.length - 1) l.maxMessages + 1)) :
    (TreeWriter.trim l uids s).1 =
        List.range' (entries.length - l.maxMessages) (min entries.length l.maxMessages) ∧
      Lists l (TreeWriter.trim l uids s).2.2 entries (entries.length - l.maxMessages) := by
  subst huids
  have hpos : 0 < entries.length := List.length_pos_iff.2 hne
  rcases Nat.lt_or_ge (entries.length - 1) l.maxMessages with hroom | hfull
  · -- There was room for one more.
    rw [trim_of_le (by rw [List.length_range']; omega)]
    have hfirst : entries.length - 1 - l.maxMessages = entries.length - l.maxMessages := by omega
    have hcount :
        min (entries.length - 1) l.maxMessages + 1 = min entries.length l.maxMessages := by
      omega
    rw [hfirst] at h ⊢
    rw [hcount]
    exact ⟨rfl, h⟩
  · -- There was none, so the queue is too long by one number, whose entry is the oldest one.
    obtain ⟨hdone, hwrites⟩ := Store.rewrites_drop hs.valid
      (by simp [Layout.logEntry]) (hs.open_entry (entries.length - 1 - l.maxMessages))
    have hfirst : entries.length - 1 - l.maxMessages + 1 = entries.length - l.maxMessages := by
      omega
    have hdrop := h.drop hwrites
    rw [Nat.min_eq_right hfull, trim_range', Written.eq_done hdone]
    rw [hfirst] at hdrop ⊢
    rw [Nat.min_eq_right (by omega)]
    exact ⟨rfl, hdrop⟩

/-- `Retains` with one more entry, after `appendLog`. -/
theorem Retains.append (h : w.Retains s entries) (hs : Stands w.layout s devices)
    (device timestamp : Option String) (words : String) (hl : w.layout.Separate) :
    (w.appendLog device timestamp words s).1.Retains (w.appendLog device timestamp words s).2.2
      (entries ++ [logObject device timestamp words]) := by
  obtain ⟨hdone, hwrites⟩ := Store.rewrites_put hs.valid (firm_logObject device timestamp words)
    (hs.open_entry w.nextUid)
  have hnext := hs.changeEntry hl hwrites.valid hwrites.value
  have hlength : (entries ++ [logObject device timestamp words]).length - 1 = entries.length := by
    simp
  rw [appendLog_eq hdone]
  generalize (s.put (w.layout.logEntry w.nextUid) _).2 = s₁ at hwrites hnext ⊢
  -- The entry is put under the next number, and then the oldest one goes if there are too many.
  have hlists := h.lists.put (Nat.sub_le _ _) (h.next ▸ hwrites)
  have huids := h.queue_concat
  rw [← hlength] at hlists huids
  obtain ⟨hqueue, hlists⟩ := hlists.trim hnext (by simp) huids
  exact ⟨by simp [h.next], hqueue, hlists⟩

/-- `Retains` is kept by what leaves the nodes of the log as they are. -/
theorem Retains.elsewhere (h : w.Retains s entries)
    (hsame : ∀ key, s'.node? (w.layout.entry key) = s.node? (w.layout.entry key)) :
    w.Retains s' entries := ⟨h.next, h.queue, h.lists.elsewhere hsame⟩

/-- `Retains` is kept by changes beneath the devices. -/
theorem Retains.trail {F : List String → Prop} (h : w.Retains s entries)
    (hl : w.layout.Separate) (htrail : Store.Trail F s s')
    (hF : ∀ p, F p → w.layout.treePath <+: p) : w.Retains s' entries :=
  h.elsewhere fun key => htrail.node?_eq fun p hp => (hl.forks_entry key).extend (hF p hp)

/-- `Retains` with the entry of a message, once the message is noted. -/
theorem Retains.note (h : w.Retains s entries) (hs : Stands w.layout s devices)
    (hl : w.layout.Separate) (m : Message) :
    (w.note m s).1.Retains (w.note m s).2.2 (entries ++ m.entry?.toList) := by
  rw [TreeWriter.note, Message.entry?]
  cases m.logText? with
  | none =>
    rw [Option.map_none, Option.toList_none, List.append_nil]
    exact h
  | some words => exact h.append hs m.device? m.timestamp? words hl

end Retains

/-! ### In the course of a writer's life -/

/-- The entry that an event adds to the log, if it adds one. -/
def Event.entry? : Event → Option Json
  | message m => m.entry?
  | _ => none

/-- The messages with words among some events, in their order. -/
def Event.spoken (events : List Event) : List Message :=
  events.filterMap fun
    | message m => if m.logText?.isSome then some m else none
    | _ => none

section Run

variable {l : Layout} {w : TreeWriter} {s : Store} {devices : DeviceMap} {entries : List Json}
  {e : Event}

/-- A message that is `spoken` has words. -/
theorem Event.logText?_of_mem_spoken {events : List Event} {m : Message}
    (h : m ∈ Event.spoken events) : ∃ words, m.logText? = some words := by
  obtain ⟨e, -, he⟩ := List.mem_filterMap.1 h
  cases e with
  | message m' =>
    dsimp only at he
    split at he
    · next hwords => exact Option.some.inj he ▸ Option.isSome_iff_exists.1 hwords
    · cases he
  | _ => cases he

/-- The entries that events add are those of their `spoken` messages. -/
theorem Event.filterMap_entry? (events : List Event) : events.filterMap Event.entry? =
    (Event.spoken events).map fun m => logObject m.device? m.timestamp? (m.logText?.getD "") := by
  rw [spoken, List.map_filterMap]
  congr 1
  funext e
  cases e with
  | message m =>
    show m.logText?.map _ = (if m.logText?.isSome then some m else none).map _
    cases hwords : m.logText? with
    | none => rfl
    | some words =>
      rw [if_pos Option.isSome_some, Option.map_some, Option.map_some, hwords]
      rfl
  | _ => rfl

/-- `Retains` with the entry of an event, once its words are noted. -/
theorem Retains.noted (h : w.Retains s entries) (hs : Stands w.layout s devices)
    (hl : w.layout.Separate) (e : Event) :
    (e.noted (w, s)).1.Retains (e.noted (w, s)).2 (entries ++ e.entry?.toList) := by
  cases e with
  | message m => exact h.note hs hl m
  | _ =>
    show w.Retains s (entries ++ [])
    rwa [List.append_nil]

/-- **One event.** Whatever happens, `Retains` holds with the entry that the event adds. -/
theorem Retains.follow (h : w.Retains s entries) (hs : Stands w.layout s devices)
    (hl : w.layout.Separate) (he : e.Fits) :
    (e.run (w, s)).1.Retains (e.run (w, s)).2 (entries ++ e.entry?.toList) := by
  have hnoted := h.noted hs hl e
  obtain ⟨hwriter, htrail⟩ := hs.trail_run hl he
  have hlayout : (e.noted (w, s)).1.layout = w.layout := hwriter ▸ layout_run e (w, s)
  rw [hwriter]
  rw [← hlayout] at hl htrail
  exact hnoted.trail hl htrail fun p hp => hp.prefix_tree

/-- After every run, the log `Retains` the entries that the events added. -/
theorem retains_entries (hl : l.Separate) (clock : Clock) (events : List Event)
    (hfits : ∀ e ∈ events, e.Fits) :
    (run l clock events).1.Retains (run l clock events).2 (events.filterMap Event.entry?) := by
  refine run_induction_stands hl
    (I := fun events p => p.1.Retains p.2 (events.filterMap Event.entry?))
    (retains_start l clock) (fun {_ _ _ _ e} hlayout hs h he => ?_) events hfits
  subst hlayout
  have hentry : [e].filterMap Event.entry? = e.entry?.toList := by
    rw [List.filterMap_cons]
    cases e.entry? <;> rfl
  rw [List.filterMap_append, hentry]
  exact h.follow hs hl he

/-- The keys of the log are the numbers of the latest entries. -/
theorem Retains.mem_keysAt (h : w.Retains s entries) (hs : Stands w.layout s devices)
    (key : String) : key ∈ s.keysAt (w.layout.messagesPath ++ [Layout.entriesKey]) ↔
      ∃ uid, entries.length - min entries.length w.layout.maxMessages ≤ uid ∧
        uid < entries.length ∧ key = toString uid := by
  have hopen : Json.Open ((w.layout.messagesPath ++ [Layout.entriesKey]) ++ [key]) s.value := by
    have hentry := hs.open_entry 0
    rw [Layout.logEntry_eq] at hentry
    exact hentry.fork key
  -- A number is there if its entry is, and those are the latest.
  have hcontains : ∀ uid, s.contains (w.layout.logEntry uid) = true ↔
      entries.length - min entries.length w.layout.maxMessages ≤ uid ∧ uid < entries.length := by
    intro uid
    rw [Store.contains_eq, ← Store.get?_eq, h.lists.reads]
    split
    · rw [Option.isSome_iff_ne_none, Ne, List.getElem?_eq_none_iff]
      omega
    · simp only [Option.isSome_none, Bool.false_eq_true, false_iff]
      omega
  rw [Store.mem_keysAt hopen, ← Layout.entry_eq]
  constructor
  · intro hkey
    obtain ⟨uid, rfl⟩ := h.lists.numbered key hkey
    obtain ⟨hfirst, hlast⟩ := (hcontains uid).1 hkey
    exact ⟨uid, hfirst, hlast, rfl⟩
  · rintro ⟨uid, hfirst, hlast, rfl⟩
    exact (hcontains uid).2 ⟨hfirst, hlast⟩

/-- The log has the latest of the messages `ms`, as many as there is room for. -/
structure KeepsLatest (w : TreeWriter) (s : Store) (ms : List Message) : Prop where
  /-- Their numbers are in the queue, in order. -/
  queue : w.log = List.range' (ms.length - min ms.length w.layout.maxMessages)
    (min ms.length w.layout.maxMessages)
  /-- Their numbers are the keys of the log. -/
  keys : ∀ key, key ∈ s.keysAt (w.layout.messagesPath ++ [Layout.entriesKey]) ↔
    ∃ uid, ms.length - min ms.length w.layout.maxMessages ≤ uid ∧ uid < ms.length ∧
      key = toString uid
  /-- The device, the time and the words of a message are in its entry, and nothing else. -/
  entries : ∀ uid m, ms.length - min ms.length w.layout.maxMessages ≤ uid → ms[uid]? = some m →
    ∃ words fields, m.logText? = some words ∧
      s.get? (w.layout.logEntry uid) = some (.obj fields) ∧ ∀ key, Dict.get? fields key =
        if key = Layout.deviceKey then m.device?.map .str
        else if key = Layout.timestampKey then m.timestamp?.map .str
        else if key = Layout.messageKey then some (.str words)
        else none

/-- **The log keeps the latest messages with words.** After every run in a separate layout,
    whatever its capacity and whatever became of the devices, the queue, the keys in the store and
    the entries are those of the latest messages. -/
theorem keepsLatest_run (hl : l.Separate) (clock : Clock) (events : List Event)
    (hfits : ∀ e ∈ events, e.Fits) :
    (run l clock events).1.KeepsLatest (run l clock events).2 (Event.spoken events) := by
  have hretains := retains_entries hl clock events hfits
  obtain ⟨hlayout, hs⟩ := stands_run hl clock events hfits
  generalize run l clock events = p at hretains hlayout hs
  obtain rfl := hlayout.symm
  have hkeys := hretains.mem_keysAt hs
  have hqueue := hretains.queue
  have hreads := hretains.lists.reads
  rw [Event.filterMap_entry?] at hkeys hqueue hreads
  rw [List.length_map] at hqueue hreads
  simp only [List.length_map] at hkeys
  -- The first number that is kept is counted from the end of the log in both.
  have hfirst : (Event.spoken events).length - p.1.layout.maxMessages =
      (Event.spoken events).length - min (Event.spoken events).length p.1.layout.maxMessages := by
    omega
  rw [hfirst] at hqueue hreads
  refine ⟨hqueue, hkeys, fun uid m huid hm => ?_⟩
  obtain ⟨words, hwords⟩ := Event.logText?_of_mem_spoken (List.mem_of_getElem? hm)
  obtain ⟨fields, hobj, hfields⟩ := get?_logObject m.device? m.timestamp? words
  refine ⟨words, fields, hwords, ?_, hfields⟩
  rw [hreads, if_pos huid, List.getElem?_map, hm, Option.map_some, hwords, ← hobj]
  rfl

end Run

/-- Three messages with words, while a device comes and goes. -/
def crowding : List Event :=
  [.message (.notice { device := none, timestamp := none, message := "first" }),
    .message (.define
      { kind := .text, device := "D", name := "V", state := .ok, timestamp := none,
        message := some "second", attributes := [], members := [] }),
    .markBusy "D" "V",
    .clear,
    .message (.notice { device := some "D", timestamp := some "now", message := "third" })]

/-- `keepsLatest_run` on `crowding` with room for two entries: the first one is gone, and the other
    two are kept. -/
theorem keepsLatest_crowding :
    let l : Layout := { maxMessages := 2 }
    l.Separate ∧ (∀ e ∈ crowding, e.Fits) ∧
      (run l {} crowding).1.KeepsLatest (run l {} crowding).2 (Event.spoken crowding) ∧
        (run l {} crowding).1.log = [1, 2] := by
  intro l
  have hl : l.Separate := ⟨by decide, by decide⟩
  have hfits : ∀ e ∈ crowding, e.Fits := by
    simp only [crowding, List.forall_mem_cons]
    exact ⟨trivial, Nat.zero_le _, trivial, trivial, trivial, List.forall_mem_nil _⟩
  have hkeeps := keepsLatest_run hl {} crowding hfits
  have hqueue := hkeeps.queue
  rw [(stands_run hl {} crowding hfits).1] at hqueue
  exact ⟨hl, hfits, hkeeps, hqueue⟩

end TreeWriter

end Observatory

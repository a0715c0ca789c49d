import Mathlib.Data.List.Sort
import Observatory.Proofs.ArrayIndex
import Observatory.Proofs.DeviceTree.Lasting
import Observatory.Proofs.DeviceTree.Throttle

/-!
# The message log behind a queue

A log with room enough has one entry for every delivered message that comes with words.  Writing
an entry is not idempotent, while a queue delivers some messages twice and some not at all.  So
the log is that of the pushed messages if no throttled message comes with words, and otherwise
only if those with words happen to be delivered once and in their order.

* `TreeWriter.Logs`: a log that is a list of entries;
* `TreeWriter.Logs.apply`: a message adds its entry;
* `TreeWriter.logOf`, `TreeWriter.logOf_eq`: the log that a writer makes of some messages;
* `Ledger.recorded`, `Ledger.spoken`: the messages in the log, and those that should be;
* `Ledger.Sound.recorded_hard`: messages that are not throttled are recorded as they should be;
* `Ledger.Sound.filter_recorded`: when those of a device are;
* `TreeWriter.logged_run`: what becomes of the log behind a queue;
* `TreeWriter.logged_twice`: it may differ from the log without a queue.
-/

namespace Observatory

/-- The entry of the log that a message becomes, if it has words. -/
def Message.entry? (m : Message) : Option Json :=
  m.logText?.map (TreeWriter.logObject m.device? m.timestamp?)

/-- Entries with different numbers have different paths. -/
theorem Layout.logEntry_injective (l : Layout) {uid uid' : Nat}
    (h : l.logEntry uid = l.logEntry uid') : uid = uid' := by
  rw [logEntry_eq, logEntry_eq] at h
  have hlast := (List.append_cancel_left h)
  exact ArrayIndex.text_injective (List.cons.inj hlast).1

/-- No entry of the log lies beneath another one. -/
theorem Layout.logEntry_not_prefix (l : Layout) {uid uid' : Nat} (h : uid ≠ uid') :
    ¬ l.logEntry uid <+: l.logEntry uid' := by
  intro hpre
  exact h (l.logEntry_injective (hpre.eq_of_length (by simp [logEntry])))

namespace TreeWriter

/-! ### Entries -/

/-- The log of the writer is the list `entries`, and none was dropped. -/
structure Logs (w : TreeWriter) (s : Store) (entries : List Json) : Prop where
  next : w.nextUid = entries.length
  all : w.log = List.range entries.length
  reads : ∀ uid, s.get? (w.layout.logEntry uid) = entries[uid]?

section Logs

variable {l : Layout} {w : TreeWriter} {s s' : Store} {devices : DeviceMap} {entries : List Json}
  {m : Message}

/-- A new log is empty. -/
theorem logs_start (l : Layout) (clock : Clock) :
    Logs { layout := l } (Store.start clock) [] where
  next := rfl
  all := rfl
  reads := by
    intro uid
    rw [Store.get?_eq]
    cases hpath : l.logEntry uid with
    | nil => exact absurd hpath (by simp [Layout.logEntry])
    | cons key rest => rfl

/-- `trim` drops nothing from a log with room enough. -/
theorem trim_of_le {uids : List Nat} (h : uids.length ≤ l.maxMessages) :
    trim l uids s = (uids, .start s) := by
  cases uids with
  | nil => rfl
  | cons uid uids => rw [trim, if_pos (Nat.lt_of_succ_le h)]

/-- What a message says about devices leaves the entries of the log as they are. -/
theorem Stands.logEntry_project (h : Stands l s devices) (hl : l.Separate) (hm : Fits m)
    (uid : Nat) :
      (TreeWriter.project l m s).2.get? (l.logEntry uid) = s.get? (l.logEntry uid) := by
  have hbeside : Store.Beside l.treePath (l.logEntry uid) (s.get? (l.logEntry uid)) s :=
    ⟨h.valid, h.open_tree, h.open_entry uid, rfl⟩
  have hlast := Store.lasting_beside l.treePath (l.logEntry uid) (s.get? (l.logEntry uid))
  have hpath := Store.survives_beside (hl.not_prefix_logEntry uid) (hl.logEntry_not_prefix uid)
    (s.get? (l.logEntry uid))
  refine (survives_project hlast hpath (fun d hd _ hs => ?_) hbeside).reads
  subst hd
  exact survives_define hlast hpath hm hs

/-- With room for one more, `appendLog` is not refused and puts its entry behind the others. -/
theorem Logs.append (h : w.Logs s entries) (hs : Stands w.layout s devices)
    (hl : w.layout.Separate) (hroom : entries.length < w.layout.maxMessages)
    (device timestamp : Option String) (words : String) :
    ∃ w' s', w.appendLog device timestamp words s = (w', (.ok (), s')) ∧
      w'.layout = w.layout ∧ Stands w.layout s' devices ∧
        w'.Logs s' (entries ++ [logObject device timestamp words]) := by
  have hentry := hs.openIn_entry w.nextUid
  obtain ⟨s', hput, hs', halter⟩ := Store.put_open hs.valid (firm_logObject device timestamp words)
    (hs.open_entry w.nextUid)
  have hall : w.log ++ [w.nextUid] = List.range (entries.length + 1) := by
    rw [h.all, h.next, List.range_succ]
  refine ⟨{ w with nextUid := w.nextUid + 1, log := List.range (entries.length + 1) }, s', ?_, rfl,
    hs.changeEntry hl hs' halter, ?_⟩
  · rw [appendLog, hput]
    dsimp only
    rw [hall, trim_of_le (by rw [List.length_range]; exact hroom)]
    rfl
  -- The new entry is read at its own path, and the others at theirs.
  refine ⟨by simp [h.next], by simp, fun uid => ?_⟩
  show s'.get? (w.layout.logEntry uid) = _
  by_cases huid : w.nextUid = uid
  · subst huid
    have hread := Json.read_alter (f := fun _ => some (logObject device timestamp words)) hentry
    rw [halter] at hread
    rw [Store.get?_eq, h.next, List.getElem?_concat_length]
    rw [h.next] at hread
    exact hread
  · have hread := Json.read_alter_beside
      (f := fun _ => some (logObject device timestamp words)) hentry
      (w.layout.logEntry_not_prefix huid) (w.layout.logEntry_not_prefix (Ne.symm huid))
    rw [halter] at hread
    have hsame : s'.get? (w.layout.logEntry uid) = s.get? (w.layout.logEntry uid) := by
      rw [Store.get?_eq, Store.get?_eq]
      exact hread
    rw [h.next] at huid
    rw [hsame, h.reads, List.getElem?_append]
    split
    · rfl
    · next hlt => rw [List.getElem?_eq_none (by omega), List.getElem?_eq_none (by simp; omega)]

/-- With room for it, a message adds its entry, if it has words. -/
theorem Logs.apply (h : w.Logs s entries) (hs : Stands w.layout s devices)
    (hl : w.layout.Separate) (hm : Fits m)
    (hroom : (entries ++ m.entry?.toList).length ≤ w.layout.maxMessages) :
    (w.apply m s).1.Logs (w.apply m s).2.2 (entries ++ m.entry?.toList) := by
  rw [TreeWriter.apply]
  rw [Message.entry?] at hroom ⊢
  -- A message without words is only projected on the tree, and that does not touch the log.
  cases hwords : m.logText? with
  | none =>
    refine ⟨by simpa using h.next, by simpa using h.all, fun uid => ?_⟩
    rw [Option.map_none, Option.toList_none, List.append_nil]
    exact (hs.logEntry_project hl hm uid).trans (h.reads uid)
  | some words =>
    have hlt : entries.length < w.layout.maxMessages := by
      rw [hwords] at hroom
      exact Nat.lt_of_succ_le (by simpa using hroom)
    obtain ⟨w', s₁, happend, hw', hs₁, h₁⟩ := h.append hs hl hlt m.device? m.timestamp? words
    dsimp only
    rw [happend]
    refine ⟨h₁.next, h₁.all, fun uid => ?_⟩
    refine Eq.trans ?_ (h₁.reads uid)
    show ((project w'.layout m s₁).2).get? (w'.layout.logEntry uid) = _
    rw [hw']
    exact hs₁.logEntry_project hl hm uid

/-- With room for them, several messages add their entries in their order. -/
theorem Logs.applyAll (h : w.Logs s entries) (hs : Stands w.layout s devices)
    (hl : w.layout.Separate) {ms : List Message} (hms : ∀ m ∈ ms, Fits m)
    (hroom : (entries ++ ms.filterMap Message.entry?).length ≤ w.layout.maxMessages) :
    (w.applyAll ms s).1.Logs (w.applyAll ms s).2 (entries ++ ms.filterMap Message.entry?) ∧
      (w.applyAll ms s).1.layout = w.layout := by
  induction ms generalizing w s devices entries with
  | nil => exact ⟨by simpa [TreeWriter.applyAll] using h, rfl⟩
  | cons m ms ih =>
    obtain ⟨hm, hms⟩ := List.forall_mem_cons.1 hms
    -- The entries of the first message come before those of the others.
    have hcons : entries ++ (m :: ms).filterMap Message.entry? =
        entries ++ m.entry?.toList ++ ms.filterMap Message.entry? := by
      rw [List.filterMap_cons]
      cases m.entry? <;> simp
    rw [hcons] at hroom ⊢
    obtain ⟨w', s', happly, hw', hs'⟩ := hs.apply hl hm
    have hfirst := h.apply hs hl hm (by rw [List.length_append] at hroom; omega)
    rw [happly] at hfirst
    have hrest := ih hfirst (hw' ▸ hs') (hw' ▸ hl) hms (hw' ▸ hroom)
    rw [TreeWriter.applyAll, List.foldl_cons, happly]
    exact ⟨hrest.1, hrest.2.trans hw'⟩

end Logs

/-- The entry with the number `uid` in the log that a new writer makes of some messages in a new
    store. -/
def logOf (l : Layout) (clock : Clock) (ms : List Message) (uid : Nat) : Option Json :=
  (applyAll ms { layout := l } (Store.start clock)).2.get? (l.logEntry uid)

/-- With room enough, the log has the entries of the messages with words, in their order. -/
theorem logOf_eq {l : Layout} (hl : l.Separate) (clock : Clock) {ms : List Message}
    (hms : ∀ m ∈ ms, Fits m) (hroom : (ms.filterMap Message.entry?).length ≤ l.maxMessages)
    (uid : Nat) : logOf l clock ms uid = (ms.filterMap Message.entry?)[uid]? := by
  obtain ⟨hlogs, hlayout⟩ := (logs_start l clock).applyAll (stands_start hl clock) hl hms hroom
  have hread := hlogs.reads uid
  rw [hlayout] at hread
  exact hread

end TreeWriter

/-! ### Positions -/

namespace Ledger

variable {q : MessageQueue} {l : Ledger} {p : Nat → Bool} {i : Nat}

/-- The entry of the log that the message at position `i` becomes, if it has words. -/
def entryAt (l : Ledger) (i : Nat) : Option Json := l.pushed[i]?.bind Message.entry?

/-- Whether the message at position `i` has words. -/
def speaks (l : Ledger) (i : Nat) : Bool := (l.entryAt i).isSome

/-- Whether the message at position `i` is about `device`, which may be none. -/
def isAbout (l : Ledger) (device : Option String) (i : Nat) : Bool :=
  l.pushed[i]?.any fun m => decide (m.device? = device)

/-- The positions of the messages with words that were delivered, in the order of delivery. -/
def recorded (l : Ledger) : List Nat := l.delivered.filter l.speaks

/-- The positions of the messages with words that were pushed, in their order. -/
def spoken (l : Ledger) : List Nat := (List.range l.pushed.length).filter l.speaks

/-- Among the positions that satisfy `p`, the throttled messages are delivered once each, and in
    the order in which they were pushed. -/
structure InTurn (q : MessageQueue) (l : Ledger) (p : Nat → Bool) : Prop where
  once : ∀ i, p i = true → (stream? q l.pushed i).isSome = true → l.delivered.count i = 1
  order : l.delivered.Pairwise fun i j =>
    p i = true → p j = true → Apart q l.pushed i j → i ≤ j

/-- The `n`th value that `filterMap` keeps is that of the `n`th element that has one. -/
theorem getElem?_filterMap {α β : Type} (f : α → Option β) (as : List α) (n : Nat) :
    (as.filterMap f)[n]? = (as.filter fun a => (f a).isSome)[n]?.bind f := by
  induction as generalizing n with
  | nil => rfl
  | cons a as ih =>
    rw [List.filterMap_cons, List.filter_cons]
    cases ha : f a with
    | none => exact ih n
    | some b =>
      rw [if_pos Option.isSome_some]
      cases n with
      | zero => exact ha.symm
      | succ n => exact ih n

/-- The entries of the messages at some positions, by number. -/
theorem getElem?_entries (l : Ledger) (positions : List Nat) (n : Nat) :
    ((l.messagesAt positions).filterMap Message.entry?)[n]? =
      (positions.filter l.speaks)[n]?.bind l.entryAt := by
  rw [messagesAt, List.filterMap_filterMap]
  exact getElem?_filterMap l.entryAt positions n

/-- If nothing waits and throttled messages among some positions are delivered once, then all
    messages among them are. -/
theorem Sound.delivered_once (h : l.Sound q) (hempty : l.waiting = [])
    (honce : ∀ i, p i = true → (stream? q l.pushed i).isSome = true → l.delivered.count i = 1) :
    (l.delivered.Pairwise fun i j => p i = true → i ≠ j) ∧
      ∀ i, i ∈ l.delivered.filter p ↔ i ∈ (List.range l.pushed.length).filter p := by
  -- Those that are not throttled are delivered once in any case.
  have hcount : ∀ i, p i = true → i < l.pushed.length → l.delivered.count i = 1 := by
    intro i hp hi
    cases hs : stream? q l.pushed i with
    | none => exact h.faithful.hard_once hempty i hi hs
    | some key => exact honce i hp (Option.isSome_iff_exists.2 ⟨key, hs⟩)
  refine ⟨pairwise_ne fun i hp => ?_, fun i => ?_⟩
  · by_cases hi : i < l.pushed.length
    · exact Nat.le_of_eq (hcount i hp hi)
    · rw [List.count_eq_zero.2 fun hmem => hi (h.known i hmem)]
      exact Nat.zero_le 1
  · rw [List.mem_filter, List.mem_filter, List.mem_range]
    refine ⟨fun ⟨hmem, hp⟩ => ⟨h.known i hmem, hp⟩, fun ⟨hi, hp⟩ => ⟨?_, hp⟩⟩
    exact List.count_pos_iff.1 (by rw [hcount i hp hi]; exact Nat.one_pos)

/-- If nothing waits, the messages among some positions are delivered as they were pushed if and
    only if they are `InTurn`. -/
theorem Sound.filter_delivered (h : l.Sound q) (hempty : l.waiting = []) (p : Nat → Bool) :
    l.delivered.filter p = (List.range l.pushed.length).filter p ↔ l.InTurn q p := by
  -- The pushed positions are in ascending order, so being the same list is being in order and once
  -- each.
  have hsorted : ((List.range l.pushed.length).filter p).Pairwise (· < ·) :=
    List.pairwise_lt_range.filter p
  constructor
  · intro hsame
    refine ⟨fun i hp hs => ?_, ?_⟩
    · obtain ⟨key, hkey⟩ := Option.isSome_iff_exists.1 hs
      have hmem : i ∈ (List.range l.pushed.length).filter p :=
        List.mem_filter.2 ⟨List.mem_range.2 (lt_of_stream? hkey), hp⟩
      rw [← List.count_filter hp, hsame]
      exact List.count_eq_one_of_mem (hsorted.imp Nat.ne_of_lt) hmem
    · rw [← hsame, List.pairwise_filter] at hsorted
      exact hsorted.imp fun hlt hi hj _ => Nat.le_of_lt (hlt hi hj)
  · intro hturn
    obtain ⟨hne, hmem⟩ := h.delivered_once hempty hturn.once
    refine List.Pairwise.eq_of_mem_iff ?_ hsorted hmem
    rw [List.pairwise_filter]
    refine (h.pairwise_delivered.and (hturn.order.and hne)).imp fun ⟨hord, hturn, hne⟩ hi hj => ?_
    exact Nat.lt_of_le_of_ne (hord.elim id (hturn hi hj)) (hne hi)

/-- Messages that are not throttled are always `InTurn`. -/
theorem inTurn_of_hard (hhard : ∀ i, p i = true → stream? q l.pushed i = none) :
    l.InTurn q p where
  once := by
    intro i hp hs
    rw [hhard i hp] at hs
    cases hs
  order := by
    refine List.pairwise_of_forall fun i j hp _ ⟨k, _, hk, _⟩ => ?_
    rw [hhard i hp] at hk
    cases hk

/-- How what is recorded relates to what was pushed with words, once nothing waits. -/
structure Recording (q : MessageQueue) (l : Ledger) : Prop where
  /-- Messages that are not throttled are recorded once each and in the order of their arrival. -/
  hard : l.recorded.filter (fun i => (stream? q l.pushed i).isNone) =
    l.spoken.filter fun i => (stream? q l.pushed i).isNone
  /-- All messages are recorded once each if the throttled ones are delivered once each. -/
  once : l.recorded.Perm l.spoken ↔ ∀ i, l.speaks i = true →
    (stream? q l.pushed i).isSome = true → l.delivered.count i = 1
  /-- Those about a device are recorded so and in the order of their arrival if the throttled ones
      are delivered in turn. -/
  about : ∀ device, l.recorded.filter (l.isAbout device) = l.spoken.filter (l.isAbout device) ↔
    l.InTurn q fun i => l.isAbout device i && l.speaks i
  /-- The log is that of all messages if those with words are not throttled. -/
  silent : (∀ i, l.speaks i = true → stream? q l.pushed i = none) → l.recorded = l.spoken

/-- The ledger of a queue in which nothing waits is a `Recording`. -/
theorem Sound.recording (h : l.Sound q) (hempty : l.waiting = []) : l.Recording q where
  hard := by
    rw [recorded, spoken, List.filter_filter, List.filter_filter]
    refine (h.filter_delivered hempty _).2 (inTurn_of_hard fun i hi => ?_)
    simp only [Bool.and_eq_true, Option.isNone_iff_eq_none] at hi
    exact hi.1
  once := by
    -- The positions with words have no duplicates, so it is enough to count.
    have hspoken : l.spoken.Nodup := List.nodup_range.filter _
    constructor
    · intro hperm i hp hs
      obtain ⟨key, hkey⟩ := Option.isSome_iff_exists.1 hs
      have hmem : i ∈ l.spoken := List.mem_filter.2 ⟨List.mem_range.2 (lt_of_stream? hkey), hp⟩
      rw [← List.count_filter hp]
      exact (hperm.count_eq i).trans (List.count_eq_one_of_mem hspoken hmem)
    · intro honce
      obtain ⟨hne, hmem⟩ := h.delivered_once hempty honce
      refine (List.perm_ext_iff_of_nodup ?_ hspoken).2 hmem
      exact List.pairwise_filter.2 (hne.imp fun hij hi _ => hij hi)
  about := by
    intro device
    rw [recorded, spoken, List.filter_filter, List.filter_filter]
    exact h.filter_delivered hempty _
  silent := fun hsilent => (h.filter_delivered hempty _).2 (inTurn_of_hard hsilent)

end Ledger

/-! ### Runs -/

namespace TreeWriter

/-- **The log behind a queue.** With room enough it has the messages with words that were
    delivered, in the order of delivery.  Once nothing waits, those that are not throttled
    are recorded as they were pushed, and the others are so if and only if they were
    delivered once each and in turn.  If no throttled message has words, the log is that of
    the pushed messages. -/
theorem logged_run (q : MessageQueue) (events : List MessageQueue.Event) {l : Layout}
    (hl : l.Separate) (clock : Clock)
    (hfits : ∀ m ∈ events.filterMap MessageQueue.Event.message?, Fits m)
    (hroom : (q.run events).2.length ≤ l.maxMessages) :
    (∀ uid, logOf l clock (q.run events).2 uid =
        (Ledger.run q events).recorded[uid]?.bind (Ledger.run q events).entryAt) ∧
      ((q.run events).1.entries = [] →
        (Ledger.run q events).Recording q ∧
          ((∀ m ∈ events.filterMap MessageQueue.Event.message?,
              q.isDelayable m = true → m.logText? = none) →
            ∀ uid, logOf l clock (q.run events).2 uid = ((events.filterMap
              MessageQueue.Event.message?).filterMap Message.entry?)[uid]?)) := by
  have hsound := Ledger.sound_run q events
  obtain ⟨hqueue, hout⟩ := Ledger.keeps_run q events
  rw [← Ledger.pushed_run q events] at hfits ⊢
  generalize Ledger.run q events = ledger at hsound hqueue hout hfits
  have hms := Ledger.messagesAt_eq hout
  have hall : ∀ m ∈ (q.run events).2, Fits m := by
    intro m hm
    rw [← hms] at hm
    obtain ⟨i, -, hi⟩ := List.mem_filterMap.1 hm
    exact hfits m (List.mem_of_getElem? hi)
  -- The log has what was delivered; the ledger says which messages these are.
  have hlog : ∀ uid, logOf l clock (q.run events).2 uid =
      ledger.recorded[uid]?.bind ledger.entryAt := by
    intro uid
    rw [logOf_eq hl clock hall ((List.length_filterMap_le _ _).trans hroom) uid, ← hms]
    exact ledger.getElem?_entries ledger.delivered uid
  refine ⟨hlog, fun hempty => ?_⟩
  have hwaiting : ledger.waiting = [] := by
    rw [← hqueue] at hempty
    exact List.map_eq_nil_iff.1 hempty
  have hrecording := hsound.recording hwaiting
  refine ⟨hrecording, fun hsilent uid => ?_⟩
  have hspoken := ledger.getElem?_entries (List.range ledger.pushed.length) uid
  rw [Ledger.messagesAt_range] at hspoken
  refine (hlog uid).trans (Eq.trans ?_ hspoken.symm)
  rw [hrecording.silent, Ledger.spoken]
  intro i hi
  obtain ⟨entry, hentry⟩ := Option.isSome_iff_exists.1 hi
  obtain ⟨m, hm, hwords⟩ := Option.bind_eq_some_iff.1 hentry
  rw [Ledger.stream?, hm, Option.bind_some, ← Option.not_isSome_iff_eq_none]
  intro hdelayable
  rw [Message.entry?, hsilent m (List.mem_of_getElem? hm) hdelayable] at hwords
  cases hwords

/-- A notice with words and about no device. -/
def greeting : Message := .notice { device := none, timestamp := none, message := "ready" }

/-- An update of an exposure that is under way, perhaps with words. -/
def exposingWith (words : Option String) : Message :=
  .update
    { kind := .number, device := "D", name := "CCD_EXPOSURE", state := some .busy,
      timestamp := none, message := words, attributes := [], members := [] }

/-- A notice, then an update that is delivered at once and repeated by its placeholder. -/
def repeatedRun (words : Option String) : List MessageQueue.Event :=
  [.push greeting 0, .pop 0, .push (exposingWith words) 0, .pop 0, .pop 500]

/-- `logged_run` on `repeatedRun` without words for the update: the log has the notice only. -/
theorem logged_run_silent :
    (({} : MessageQueue).run (repeatedRun none)).1.entries = [] ∧
      ∀ uid, logOf {} {} (({} : MessageQueue).run (repeatedRun none)).2 uid =
        [logObject none none "ready"][uid]? := by
  have hseparate : ({} : Layout).Separate := ⟨by decide, by decide⟩
  have hfits : ∀ m ∈ [greeting, exposingWith none], Fits m := by
    simp only [List.forall_mem_cons]
    exact ⟨trivial, trivial, List.forall_mem_nil _⟩
  have hsilent : ∀ m ∈ [greeting, exposingWith none],
      ({} : MessageQueue).isDelayable m = true → m.logText? = none := by
    simp only [List.forall_mem_cons]
    exact ⟨fun h => absurd h (by decide), fun _ => rfl, List.forall_mem_nil _⟩
  exact ⟨rfl, ((logged_run {} (repeatedRun none) hseparate {} hfits (by decide)).2 rfl).2 hsilent⟩

/-- The log behind a queue may differ from that without one: if the update of `repeatedRun` has
    words, they are in the log twice, although they were pushed once. -/
theorem logged_twice :
    (({} : MessageQueue).run (repeatedRun (some "exposing"))).1.entries = [] ∧
      [greeting, exposingWith (some "exposing")].filterMap Message.entry? =
        [logObject none none "ready", logObject (some "D") none "exposing"] ∧
      logOf {} {} (({} : MessageQueue).run (repeatedRun (some "exposing"))).2 1 =
        some (logObject (some "D") none "exposing") ∧
      logOf {} {} (({} : MessageQueue).run (repeatedRun (some "exposing"))).2 2 =
        some (logObject (some "D") none "exposing") := by
  refine ⟨rfl, rfl, ?_, ?_⟩ <;> rfl

end TreeWriter

end Observatory

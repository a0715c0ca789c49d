import Observatory.Proofs.DeviceTree.Writing
import Observatory.Proofs.Indi.Ledger

/-!
# The tree behind a queue

A queue delivers some messages late, some twice and some not at all.  To the device tree it does
not matter that they are late or come twice.  Of a message that was not delivered, what the later
ones do not say again is missing: written at the end, this makes the tree that of all messages.

* `Replay.run_ordered`: the order of actions that may change places does not matter;
* `Ledger.once`: the messages that were delivered, each once and in the order of their arrival;
* `Ledger.leftovers`: what is left of those that were not delivered;
* `Ledger.writeAll_leftovers`: written at the end, it makes up for them;
* `TreeWriter.treeOf`: the tree that a writer makes of some messages;
* `TreeWriter.treeOf_run`: what becomes of the tree behind a queue;
* `TreeWriter.treeOf_run_replaced`: it may differ from the tree without a queue.
-/

namespace Observatory

/-! ### Actions in another order -/

namespace Replay

variable {α : Type} {act : Nat → α → α}

/-- Do the actions at some positions one after the other. -/
def run (act : Nat → α → α) (positions : List Nat) (x : α) : α :=
  positions.foldl (fun x i => act i x) x

/-- The actions at two positions may be done in either order. -/
def Swaps (act : Nat → α → α) (i j : Nat) : Prop := ∀ x, act i (act j x) = act j (act i x)

/-- Doing the action at a position twice is doing it once. -/
def Repeats (act : Nat → α → α) (i : Nat) : Prop := ∀ x, act i (act i x) = act i x

theorem run_cons (act : Nat → α → α) (i : Nat) (positions : List Nat) (x : α) :
    run act (i :: positions) x = run act positions (act i x) := rfl

section Sorted

variable {positions : List Nat} (hsorted : positions.Pairwise (· < ·)) {p : Nat → Bool}
include hsorted

/-- An action may be moved to its place among others, if it swaps with those in front of it. -/
theorem run_insert {a : Nat} (ha : a ∈ positions)
    (hswap : ∀ i, i < a → p i = true → Swaps act a i) (hself : p a = true → Repeats act a)
    (x : α) : run act (positions.filter p) (act a x) =
      run act (positions.filter fun i => decide (i = a) || p i) x := by
  induction positions generalizing x with
  | nil => cases ha
  | cons i rest ih =>
    obtain ⟨hi, hrest⟩ := List.pairwise_cons.1 hsorted
    rcases List.mem_cons.1 ha with rfl | ha
    · -- It is here, and may be among the others already.
      have hsame : rest.filter (fun i => decide (i = a) || p i) = rest.filter p := by
        refine List.filter_congr fun j hj => ?_
        have hne : j ≠ a := Nat.ne_of_gt (hi j hj)
        simp [hne]
      have hhere : (a :: rest).filter (fun i => decide (i = a) || p i) = a :: rest.filter p := by
        rw [List.filter_cons_of_pos (by simp), hsame]
      rw [hhere, run_cons]
      cases hp : p a with
      | false => rw [List.filter_cons_of_neg (by simp [hp])]
      | true => rw [List.filter_cons_of_pos hp, run_cons, hself hp]
    · have hlt : i < a := hi a ha
      cases hp : p i with
      | false =>
        rw [List.filter_cons_of_neg (by simp [hp]),
          List.filter_cons_of_neg (by simp [hp, Nat.ne_of_lt hlt])]
        exact ih hrest ha x
      | true =>
        rw [List.filter_cons_of_pos hp, List.filter_cons_of_pos (by simp [hp]), run_cons, run_cons,
          ← hswap i hlt hp]
        exact ih hrest ha (act i x)

/-- **Actions may be sorted.** If actions that are out of order swap, and those that are repeated
    may be, then doing them in some order is doing each once in the order of positions. -/
theorem run_ordered {order : List Nat} (hmem : ∀ i ∈ order, i ∈ positions)
    (hord : order.Pairwise fun i j => i ≤ j ∨ Swaps act i j)
    (hself : ∀ i, 1 < order.count i → Repeats act i) (x : α) :
    run act order x = run act (positions.filter fun i => decide (i ∈ order)) x := by
  induction order generalizing x with
  | nil =>
    have hnone : positions.filter (fun i => decide (i ∈ ([] : List Nat))) = [] :=
      List.filter_eq_nil_iff.2 (by simp)
    rw [hnone]
  | cons a order ih =>
    obtain ⟨ha, hord⟩ := List.pairwise_cons.1 hord
    obtain ⟨hamem, hmem⟩ := List.forall_mem_cons.1 hmem
    have hcount : ∀ i, order.count i ≤ (a :: order).count i := fun i => List.count_le_count_cons
    -- The rest is sorted first; then the first action is moved to its place among the others.
    rw [run_cons, ih hmem hord fun i hi => hself i (Nat.lt_of_lt_of_le hi (hcount i))]
    rw [run_insert hsorted hamem]
    · simp only [List.mem_cons, Bool.decide_or]
    · intro i hi hp
      exact (ha i (of_decide_eq_true hp)).resolve_left (Nat.not_le.2 hi)
    · intro hp
      refine hself a ?_
      have hpos := List.count_pos_iff.2 (of_decide_eq_true hp)
      rw [List.count_cons_self]
      omega

end Sorted

end Replay

/-! ### Messages at positions -/

/-- Write several messages one after the other. -/
def DeviceMap.writeAll (ms : List Message) (devices : DeviceMap) : DeviceMap :=
  ms.foldl DeviceMap.write devices

theorem DeviceMap.writeAll_append (ms ms' : List Message) (devices : DeviceMap) :
    devices.writeAll (ms ++ ms') = (devices.writeAll ms).writeAll ms' := List.foldl_append

/-- Updates that are `Silent` change nothing. -/
theorem DeviceMap.writeAll_silent {us : List Update} (h : ∀ u ∈ us, u.Silent)
    (devices : DeviceMap) : devices.writeAll (us.map .update) = devices := by
  induction us with
  | nil => rfl
  | cons u us ih =>
    obtain ⟨hu, hus⟩ := List.forall_mem_cons.1 h
    show (devices.write (.update u)).writeAll (us.map .update) = devices
    rw [write_silent hu, ih hus]

/-- An update in front of some messages may be moved behind them, with what is left of it. -/
theorem DeviceMap.writeAll_write (u : Update) (ms : List Message) (devices : DeviceMap) :
    (devices.write (.update u)).writeAll ms =
      (devices.writeAll ms).write (.update (ms.foldl Update.after u)) := by
  induction ms generalizing u devices with
  | nil => rfl
  | cons m ms ih =>
    show ((devices.write (.update u)).write m).writeAll ms = _
    rw [DeviceMap.write_after, ih]
    rfl

namespace Ledger

variable {q : MessageQueue} {l : Ledger} {i j : Nat} {u v : Update}

/-- The messages at some positions. -/
def messagesAt (l : Ledger) (positions : List Nat) : List Message :=
  positions.filterMap fun i => l.pushed[i]?

/-- Those of some positions whose messages were delivered. -/
def deliveredOf (l : Ledger) (positions : List Nat) : List Nat :=
  positions.filter fun i => decide (i ∈ l.delivered)

/-- The messages that were delivered, each once and in the order in which they were pushed. -/
def once (l : Ledger) : List Message := l.messagesAt (l.deliveredOf (List.range l.pushed.length))

/-- For those of the positions whose updates were not delivered, what is left of these after the
    later messages that were. -/
def leftoversAt (l : Ledger) : List Nat → List Update
  | [] => []
  | i :: rest =>
    if i ∈ l.delivered then leftoversAt l rest
    else
      match l.pushed[i]? with
      | some (.update u) =>
        (l.messagesAt (l.deliveredOf rest)).foldl Update.after u :: leftoversAt l rest
      | _ => leftoversAt l rest

/-- What is left of all updates that were not delivered. -/
def leftovers (l : Ledger) : List Update := l.leftoversAt (List.range l.pushed.length)

/-! ### Late and repeated messages -/

/-- The action of the message at a position on the devices. -/
def act (l : Ledger) (i : Nat) (devices : DeviceMap) : DeviceMap :=
  devices.writeAll l.pushed[i]?.toList

/-- Running the actions at some positions is writing their messages. -/
theorem run_act (l : Ledger) (positions : List Nat) (devices : DeviceMap) :
    Replay.run l.act positions devices = devices.writeAll (l.messagesAt positions) := by
  induction positions generalizing devices with
  | nil => rfl
  | cons i positions ih =>
    rw [Replay.run_cons, ih, messagesAt, messagesAt, List.filterMap_cons, act]
    cases l.pushed[i]? <;> rfl

/-- Messages that are found one by one at some positions are those at these positions. -/
theorem messagesAt_eq {positions : List Nat} {ms : List Message}
    (h : ms.map some = positions.map fun i => l.pushed[i]?) : l.messagesAt positions = ms := by
  have hmap := congrArg (List.filterMap id) h
  rw [List.filterMap_map, List.filterMap_map] at hmap
  exact hmap.symm.trans (List.filterMap_some)

/-- The messages at all positions are those that were pushed. -/
theorem messagesAt_range (l : Ledger) : l.messagesAt (List.range l.pushed.length) = l.pushed := by
  refine messagesAt_eq (List.ext_getElem? fun i => ?_)
  rw [List.getElem?_map, List.getElem?_map]
  by_cases hi : i < l.pushed.length
  · rw [List.getElem?_range hi, List.getElem?_eq_getElem hi]
    simp
  · rw [List.getElem?_eq_none (by omega), List.getElem?_eq_none (by simpa using hi)]
    rfl

/-- The action of an update is writing it. -/
theorem act_update (h : l.pushed[i]? = some (.update u)) (devices : DeviceMap) :
    l.act i devices = devices.write (.update u) := by
  rw [act, h]
  rfl

/-- Updates throttled in different streams swap, as they are for different vectors. -/
theorem Apart.swaps (h : Apart q l.pushed i j) : Replay.Swaps l.act i j := by
  obtain ⟨k, k', hk, hk', hne⟩ := h
  obtain ⟨u, hu, rfl⟩ := eq_update_of_stream? hk
  obtain ⟨v, hv, rfl⟩ := eq_update_of_stream? hk'
  have hapart : ¬(u.device = v.device ∧ u.name = v.name) := by
    rintro ⟨hd, hn⟩
    exact hne (by rw [hd, hn])
  intro devices
  rw [act_update hu, act_update hv, act_update hv, act_update hu]
  exact DeviceMap.alterVector_write_comm hapart _ devices

/-- Writing the messages that were delivered, in the order of delivery, is writing `once`. -/
theorem Sound.writeAll_delivered (h : l.Sound q) (devices : DeviceMap) :
    devices.writeAll (l.messagesAt l.delivered) = devices.writeAll l.once := by
  rw [once, ← run_act, ← run_act]
  refine Replay.run_ordered List.pairwise_lt_range (fun i hi => List.mem_range.2 (h.known i hi))
    (h.pairwise_delivered.imp fun hij => hij.imp_right Apart.swaps) (fun i hi devices => ?_) devices
  -- Only messages that are throttled are repeated.
  cases hs : stream? q l.pushed i with
  | none =>
    have hle := h.count_hard hs
    omega
  | some k =>
    obtain ⟨u, hu, -⟩ := eq_update_of_stream? hs
    rw [act_update hu, act_update hu, DeviceMap.write_self]

/-! ### Messages that were not delivered -/

/-- If nothing waits, a message that was not delivered is an update. -/
theorem Sound.eq_update_of_not_mem (h : l.Sound q) (hempty : l.waiting = [])
    (hi : i < l.pushed.length) (hout : i ∉ l.delivered) :
    ∃ u, l.pushed[i]? = some (.update u) := by
  obtain ⟨j, hj, hmem | ⟨t, ht, -⟩⟩ := h.accounted i hi
  · have hne : i ≠ j := fun hij => hout (hij ▸ hmem)
    obtain ⟨k, hk⟩ := Option.isSome_iff_exists.1
      ((hj.2.2 i (Nat.le_refl i) hj.1).resolve_left hne)
    obtain ⟨u, hu, -⟩ := eq_update_of_stream? hk
    exact ⟨u, hu⟩
  · rw [hempty] at ht
    cases ht

/-- Writing some messages is writing those of them that were delivered, and then what is left of
    the others. -/
theorem writeAll_leftovers {positions : List Nat}
    (h : ∀ i ∈ positions, i ∉ l.delivered → ∃ u, l.pushed[i]? = some (.update u))
    (devices : DeviceMap) : devices.writeAll (l.messagesAt positions) =
      (devices.writeAll (l.messagesAt (l.deliveredOf positions))).writeAll
        ((l.leftoversAt positions).map .update) := by
  induction positions generalizing devices with
  | nil => rfl
  | cons i rest ih =>
    obtain ⟨hi, hrest⟩ := List.forall_mem_cons.1 h
    have hcons : ∀ positions (devices : DeviceMap),
        devices.writeAll (l.messagesAt (i :: positions)) =
          (l.act i devices).writeAll (l.messagesAt positions) := by
      intro positions devices
      rw [← run_act, ← run_act, Replay.run_cons]
    by_cases hmem : i ∈ l.delivered
    · have hdelivered : l.deliveredOf (i :: rest) = i :: l.deliveredOf rest :=
        List.filter_cons_of_pos (by simpa using hmem)
      rw [hcons, ih hrest, hdelivered, hcons, leftoversAt, if_pos hmem]
    · -- The update moves behind all that were delivered later, which leave only a part of it.
      obtain ⟨u, hu⟩ := hi hmem
      have hdelivered : l.deliveredOf (i :: rest) = l.deliveredOf rest :=
        List.filter_cons_of_neg (by simpa using hmem)
      rw [hcons, act_update hu, ih hrest, DeviceMap.writeAll_write, hdelivered, leftoversAt,
        if_neg hmem, hu]
      rfl

/-- If nothing waits, writing all messages that were pushed is writing `once` and then
    `leftovers`. -/
theorem Sound.writeAll_pushed (h : l.Sound q) (hempty : l.waiting = []) (devices : DeviceMap) :
    devices.writeAll l.pushed = devices.writeAll (l.once ++ l.leftovers.map .update) := by
  have hupdates : ∀ i ∈ List.range l.pushed.length, i ∉ l.delivered →
      ∃ u, l.pushed[i]? = some (.update u) :=
    fun i hi => h.eq_update_of_not_mem hempty (List.mem_range.1 hi)
  have hall := writeAll_leftovers hupdates devices
  rw [messagesAt_range] at hall
  rw [hall, DeviceMap.writeAll_append]
  rfl

end Ledger

/-! ### Trees -/

namespace TreeWriter

/-- Write some messages one after the other.  What a refused message wrote until then stays. -/
def applyAll (ms : List Message) (w : TreeWriter) (s : Store) : TreeWriter × Store :=
  ms.foldl (fun p m => let (w, _, s) := p.1.apply m p.2; (w, s)) (w, s)

/-- The devices after a writer wrote some messages in a new store, without the revisions. -/
def treeOf (w : TreeWriter) (clock : Clock) (ms : List Message) : Option Json :=
  ((w.applyAll ms (Store.start clock)).2.get? w.layout.treePath).map Json.unrevised

/-- After several messages, the store shows the devices that they make one after the other. -/
theorem Stands.applyAll {w : TreeWriter} {s : Store} {devices : DeviceMap}
    (h : Stands w.layout s devices) (hl : w.layout.Separate) {ms : List Message}
    (hms : ∀ m ∈ ms, Fits m) :
    Stands w.layout (w.applyAll ms s).2 (devices.writeAll ms) := by
  induction ms generalizing w s devices with
  | nil => exact h
  | cons m ms ih =>
    obtain ⟨hm, hms⟩ := List.forall_mem_cons.1 hms
    obtain ⟨w', s', happly, hw', h'⟩ := h.apply hl hm
    have hrest := ih (hw' ▸ h') (hw' ▸ hl) hms
    rw [hw'] at hrest
    rw [TreeWriter.applyAll, List.foldl_cons, happly]
    exact hrest

/-- Messages that make the same maps make the same tree. -/
theorem treeOf_eq {w : TreeWriter} (hl : w.layout.Separate) (clock : Clock)
    {ms ms' : List Message} (hms : ∀ m ∈ ms, Fits m) (hms' : ∀ m ∈ ms', Fits m)
    (h : DeviceMap.writeAll ms none = DeviceMap.writeAll ms' none) :
    w.treeOf clock ms = w.treeOf clock ms' := by
  have hstands := (stands_start hl clock).applyAll hl hms
  have hstands' := (stands_start hl clock).applyAll hl hms'
  exact hstands.shows.unrevised_eq (h ▸ hstands'.shows)

/-- **The tree behind a queue.** It is always that of the messages that were delivered, each
    written once and in the order in which they were pushed, however late and however often they
    were delivered.  Once nothing waits, the tree of all messages that were pushed is that of
    `once` and `leftovers`.  So the two trees are equal if all leftovers are `Silent`. -/
theorem treeOf_run (q : MessageQueue) (events : List MessageQueue.Event) {w : TreeWriter}
    (hl : w.layout.Separate) (clock : Clock)
    (hfits : ∀ m ∈ events.filterMap MessageQueue.Event.message?, Fits m) :
    w.treeOf clock (q.run events).2 = w.treeOf clock (Ledger.run q events).once ∧
      ((q.run events).1.entries = [] →
        w.treeOf clock (events.filterMap MessageQueue.Event.message?) =
            w.treeOf clock ((Ledger.run q events).once ++
              (Ledger.run q events).leftovers.map .update) ∧
          ((∀ u ∈ (Ledger.run q events).leftovers, u.Silent) →
            w.treeOf clock (q.run events).2 =
              w.treeOf clock (events.filterMap MessageQueue.Event.message?))) := by
  have hsound := Ledger.sound_run q events
  obtain ⟨hqueue, hout⟩ := Ledger.keeps_run q events
  rw [← Ledger.pushed_run q events] at hfits ⊢
  generalize Ledger.run q events = l at hsound hqueue hout hfits
  have hat : ∀ positions, ∀ m ∈ l.messagesAt positions, Fits m := by
    intro positions m hm
    obtain ⟨i, -, hi⟩ := List.mem_filterMap.1 hm
    exact hfits m (List.mem_of_getElem? hi)
  have hupdates : ∀ m ∈ l.once ++ l.leftovers.map .update, Fits m :=
    List.forall_mem_append.2 ⟨hat _, List.forall_mem_map.2 fun _ _ => trivial⟩
  -- The tree of a list of messages depends only on the maps that they write.
  have honce : w.treeOf clock (q.run events).2 = w.treeOf clock l.once := by
    rw [← Ledger.messagesAt_eq hout]
    exact treeOf_eq hl clock (hat _) (hat _) (hsound.writeAll_delivered none)
  refine ⟨honce, fun hempty => ?_⟩
  have hwaiting : l.waiting = [] := by
    rw [← hqueue] at hempty
    exact List.map_eq_nil_iff.1 hempty
  have hpushed := hsound.writeAll_pushed hwaiting none
  refine ⟨treeOf_eq hl clock hfits hupdates hpushed, fun hsilent => honce.trans ?_⟩
  refine treeOf_eq hl clock (hat _) hfits ?_
  rw [hpushed, DeviceMap.writeAll_append, DeviceMap.writeAll_silent hsilent]

/-- The definition of a vector of two numbers, which the queue throttles. -/
def camera : Message :=
  .define
    { kind := .number, device := "D", name := "CCD_EXPOSURE", state := .idle, timestamp := none,
      message := none, attributes := [], members := [⟨"A", "0", []⟩, ⟨"B", "0", []⟩] }

/-- An update of an exposure that is under way, with one value. -/
def exposing (member value : String) : Message :=
  .update
    { kind := .number, device := "D", name := "CCD_EXPOSURE", state := some .busy,
      timestamp := none, message := none, attributes := [], members := [⟨member, value, []⟩] }

/-- The camera is defined and a first update delivered; two more come before the waiting time is
    over, so that only the later one is delivered, and then repeated. -/
def exposureRun (second third : Message) : List MessageQueue.Event :=
  [.push camera 0, .pop 0, .push (exposing "A" "1") 0, .pop 0, .push second 100, .push third 200,
    .pop 500, .pop 1000]

/-- The value of a member in the tree of some messages. -/
def exposed (member : String) (ms : List Message) : Option Json :=
  (treeOf {} {} ms).bind fun t =>
    t.at? ["D", "CCD_EXPOSURE", Layout.membersKey, member, Layout.valueKey]

/-- If the later update is for the same member, the tree behind the queue is that of all
    messages. -/
theorem treeOf_run_repeated :
    (({} : MessageQueue).run (exposureRun (exposing "A" "2") (exposing "A" "3"))).1.entries = [] ∧
      treeOf {} {} (({} : MessageQueue).run (exposureRun (exposing "A" "2") (exposing "A" "3"))).2 =
        treeOf {} {} [camera, exposing "A" "1", exposing "A" "2", exposing "A" "3"] := by
  have hseparate : ({} : Layout).Separate := ⟨by decide, by decide⟩
  have hfits : ∀ m ∈ [camera, exposing "A" "1", exposing "A" "2", exposing "A" "3"], Fits m := by
    have hcamera : Fits camera := by
      show 2 ≤ ArrayIndex.limit
      decide
    simp only [List.forall_mem_cons]
    exact ⟨hcamera, trivial, trivial, trivial, List.forall_mem_nil _⟩
  -- Nothing is left over of the update that was replaced, as the later one has a value for the same
  -- member.
  have hsilent :
      ∀ u ∈ (Ledger.run {} (exposureRun (exposing "A" "2") (exposing "A" "3"))).leftovers,
        u.Silent :=
    List.forall_mem_singleton.2 ⟨rfl, rfl, rfl, rfl⟩
  exact ⟨rfl, ((treeOf_run {} (exposureRun (exposing "A" "2") (exposing "A" "3")) hseparate {}
    hfits).2 rfl).2 hsilent⟩

/-- The tree behind a queue may differ from that without one: if the later update is for another
    member, the value that was replaced is missing for good. -/
theorem treeOf_run_replaced :
    (({} : MessageQueue).run (exposureRun (exposing "A" "2") (exposing "B" "3"))).1.entries = [] ∧
      treeOf {} {} (({} : MessageQueue).run (exposureRun (exposing "A" "2") (exposing "B" "3"))).2 ≠
        treeOf {} {} [camera, exposing "A" "1", exposing "A" "2", exposing "B" "3"] := by
  refine ⟨rfl, fun hsame => ?_⟩
  have hqueue : exposed "A"
      (({} : MessageQueue).run (exposureRun (exposing "A" "2") (exposing "B" "3"))).2 =
        some (.str "1") := by rfl
  have hdirect : exposed "A" [camera, exposing "A" "1", exposing "A" "2", exposing "B" "3"] =
      some (.str "2") := by rfl
  rw [exposed, hsame, ← exposed, hdirect] at hqueue
  exact absurd hqueue (by simp)

end TreeWriter

end Observatory

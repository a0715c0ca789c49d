import Observatory.Hub.Replicator
import Observatory.Proofs.Store.Reader

/-!
# Publishing keeps clients in step

A client that takes what is queued for it and applies it in order is a reader whose looks are
made by the publisher.  What it has received and what is still queued make up its copy.

* `Replicator.queue`: the differences that wait for a client;
* `Replicator.Valid`: clients have different numbers, and no number is ahead of the last one;
* `Replicator.Serves`: a client is attached and listens, and its copy is in step with the
  store;
* `Replicator.serves_publish`: after the publisher went round, the copy of every client that
  it serves is what the client's whitelist lets pass.
-/

namespace Observatory

/-! ### Copies -/

namespace Replica

/-- If everything in `ds` applies and gives `copy`, and one more difference leads on from `copy` to
    `v`, then everything applies and gives `v`. -/
theorem applyAll_append {ds : List Diff} {copy : Option Json} {d : Option Diff} {v : Json}
    (h : ({} : Replica).applyAll ds = (⟨copy⟩, [])) (hd : Diff.Leads d copy v) :
    ({} : Replica).applyAll (ds ++ d.toList) = (⟨some v⟩, []) := by
  rw [applyAll, List.foldl_append, ← applyAll, h]
  cases d with
  | none =>
    -- There is no difference when the copy has the value already.
    have hcopy : copy = some v := hd
    rw [hcopy]
    rfl
  | some d =>
    have happly : d.apply copy = .ok v := hd
    rw [Option.toList_some, List.foldl_cons, List.foldl_nil]
    dsimp only
    rw [apply, happly]
    rfl

end Replica

namespace Replicator

/-! ### Queues -/

/-- What some queues hold for a client, which is nothing if none is its own. -/
def queued (queues : List (ClientId × List Diff)) (id : ClientId) : List Diff :=
  ((queues.find? fun q => q.1 = id).map Prod.snd).getD []

/-- What is queued for a client and not received yet. -/
def queue (r : Replicator) (id : ClientId) : List Diff := queued r.queues id

theorem queued_cons (q : ClientId × List Diff) (queues : List (ClientId × List Diff))
    (id : ClientId) : queued (q :: queues) id = if q.1 = id then q.2 else queued queues id := by
  rw [queued, List.find?_cons]
  by_cases h : q.1 = id
  · rw [if_pos h, decide_eq_true h]
    rfl
  · rw [if_neg h, decide_eq_false h]
    rfl

/-- `send` leaves what is queued for others. -/
theorem queued_send_ne {i id : ClientId} (h : i ≠ id) (d : Diff)
    (queues : List (ClientId × List Diff)) : queued (send i d queues) id = queued queues id := by
  induction queues with
  | nil => rfl
  | cons q rest ih =>
    show queued ((if q.1 = i then (q.1, q.2 ++ [d]) else q) :: send i d rest) id = _
    rw [queued_cons, queued_cons, ih]
    by_cases hq : q.1 = i
    · rw [if_pos hq, if_neg (hq ▸ h), if_neg (hq ▸ h)]
    · rw [if_neg hq]

/-- `send` appends to the queue of a client that listens. -/
theorem queued_send_self {id : ClientId} (d : Diff) {queues : List (ClientId × List Diff)}
    (h : (queues.any fun q => q.1 = id) = true) :
    queued (send id d queues) id = queued queues id ++ [d] := by
  induction queues with
  | nil => cases h
  | cons q rest ih =>
    show queued ((if q.1 = id then (q.1, q.2 ++ [d]) else q) :: send id d rest) id = _
    rw [queued_cons, queued_cons]
    by_cases hq : q.1 = id
    · rw [if_pos hq, if_pos hq, if_pos hq]
    · rw [if_neg hq, if_neg hq, if_neg hq]
      rw [List.any_cons, decide_eq_false hq, Bool.false_or] at h
      exact ih h

theorem any_map_of_fst {change : ClientId × List Diff → ClientId × List Diff}
    (h : ∀ q, (change q).1 = q.1) (id : ClientId) (queues : List (ClientId × List Diff)) :
    ((queues.map change).any fun q => q.1 = id) = queues.any fun q => q.1 = id := by
  rw [List.any_map]
  refine congrArg (List.any queues) ?_
  funext q
  rw [Function.comp_apply, h]

theorem any_send (i id : ClientId) (d : Diff) (queues : List (ClientId × List Diff)) :
    ((send i d queues).any fun q => q.1 = id) = queues.any fun q => q.1 = id := by
  refine any_map_of_fst ?_ id queues
  intro q
  split
  · rfl
  · rfl

/-- After several differences were sent, the queue of a client that listens ends with those that
    were sent to it, in their order. -/
theorem queued_foldl_send {id : ClientId} (sent : List (ClientId × Diff))
    {queues : List (ClientId × List Diff)} (h : (queues.any fun q => q.1 = id) = true) :
    queued (sent.foldl (fun qs p => send p.1 p.2 qs) queues) id =
      queued queues id ++ (sent.filter fun p => p.1 = id).map Prod.snd := by
  induction sent generalizing queues with
  | nil => rw [List.foldl_nil, List.filter_nil, List.map_nil, List.append_nil]
  | cons p rest ih =>
    rw [List.foldl_cons, ih (by rwa [any_send]), List.filter_cons]
    by_cases hp : p.1 = id
    · rw [if_pos (decide_eq_true hp), List.map_cons, hp, queued_send_self p.2 h,
        List.append_assoc, List.singleton_append]
    · rw [if_neg (by simpa using hp), queued_send_ne hp]

theorem any_foldl_send (id : ClientId) (sent : List (ClientId × Diff))
    (queues : List (ClientId × List Diff)) :
    ((sent.foldl (fun qs p => send p.1 p.2 qs) queues).any fun q => q.1 = id) =
      queues.any fun q => q.1 = id := by
  induction sent generalizing queues with
  | nil => rfl
  | cons p rest ih => rw [List.foldl_cons, ih, any_send]

/-! ### One round -/

section Round

variable (s : Store) (listens : ClientId → Bool)

theorem updateAll_cons (id : ClientId) (c : Client) (rest : List (ClientId × Client)) :
    updateAll s listens ((id, c) :: rest) =
      (((update s (listens id) c).1.map fun c => (id, c)).toList ++
          (updateAll s listens rest).1,
        ((update s (listens id) c).2.map fun d => (id, d)).toList ++
          (updateAll s listens rest).2) := rfl

theorem filter_sent_of_not_mem {id : ClientId} {clients : List (ClientId × Client)}
    (h : id ∉ clients.map Prod.fst) :
    (updateAll s listens clients).2.filter (fun p => p.1 = id) = [] := by
  induction clients with
  | nil => rfl
  | cons p rest ih =>
    obtain ⟨i, c⟩ := p
    rw [List.map_cons, List.mem_cons, not_or] at h
    rw [updateAll_cons, List.filter_append, ih h.2, List.append_nil]
    cases (update s (listens i) c).2 with
    | none => rfl
    | some d => exact List.filter_cons_of_neg (by simpa using Ne.symm h.1)

/-- What a round sends to a client is what `update` sends to it, as numbers are different. -/
theorem filter_sent {id : ClientId} {c : Client} {clients : List (ClientId × Client)}
    (hn : (clients.map Prod.fst).Nodup) (h : (id, c) ∈ clients) :
    ((updateAll s listens clients).2.filter fun p => p.1 = id).map Prod.snd =
      (update s (listens id) c).2.toList := by
  induction clients with
  | nil => cases h
  | cons p rest ih =>
    obtain ⟨i, c'⟩ := p
    rw [List.map_cons, List.nodup_cons] at hn
    rw [updateAll_cons, List.filter_append, List.map_append]
    rcases List.mem_cons.1 h with he | hr
    · cases he
      rw [filter_sent_of_not_mem s listens hn.1]
      cases (update s (listens id) c).2 with
      | none => rfl
      | some d => simp
    · -- What is sent to the first client is filtered out.
      have hmem : id ∈ rest.map Prod.fst := List.mem_map_of_mem hr
      have hne : i ≠ id := by
        intro e
        exact hn.1 (e ▸ hmem)
      rw [ih hn.2 hr]
      cases (update s (listens i) c').2 with
      | none => rfl
      | some d => simp [hne]

/-- A client stays in a round if its `update` keeps it. -/
theorem mem_stays {id : ClientId} {c c' : Client} {clients : List (ClientId × Client)}
    (h : (id, c) ∈ clients) (hc : (update s (listens id) c).1 = some c') :
    (id, c') ∈ (updateAll s listens clients).1 := by
  induction clients with
  | nil => cases h
  | cons p rest ih =>
    obtain ⟨i, c''⟩ := p
    rw [updateAll_cons, List.mem_append]
    rcases List.mem_cons.1 h with he | hr
    · cases he
      rw [hc]
      exact .inl (List.mem_singleton.2 rfl)
    · exact .inr (ih hr)

/-- A round brings in no new clients. -/
theorem stays_sublist (clients : List (ClientId × Client)) :
    ((updateAll s listens clients).1.map Prod.fst).Sublist (clients.map Prod.fst) := by
  induction clients with
  | nil => exact .slnil
  | cons p rest ih =>
    obtain ⟨i, c⟩ := p
    rw [updateAll_cons, List.map_append, List.map_cons]
    cases (update s (listens i) c).1 with
    | none => exact ih.cons i
    | some c' => exact ih.cons_cons i

end Round

/-- A client that listens stays, with the cursor of the present, and is sent the difference if
    there is one. -/
theorem update_of_listens (s : Store) (c : Client) : update s true c =
    (some { c with cursor := (s.diff c.whitelist c.cursor).2.1 },
      (s.diff c.whitelist c.cursor).1) := by
  unfold update
  rcases s.diff c.whitelist c.cursor with ⟨- | d, cursor, s'⟩
  · rfl
  · rfl

/-! ### Clients that are served -/

/-- Clients have different numbers, and no number is ahead of the last one given out. -/
structure Valid (r : Replicator) : Prop where
  nodup : (r.clients.map Prod.fst).Nodup
  clients : ∀ id ∈ r.clients.map Prod.fst, id ≤ r.lastId
  queues : ∀ q ∈ r.queues, q.1 ≤ r.lastId

/-- Client `id` is attached with the whitelist `w` and listens.  It has received `got`, and this
    together with what is queued for it makes up a copy that is `InStep` with the store. -/
structure Serves (r : Replicator) (s : Store) (id : ClientId) (w : Whitelist)
    (got : List Diff) : Prop where
  listens : r.listens id = true
  client : ∃ cursor, (id, ⟨w, cursor⟩) ∈ r.clients ∧ (w ≠ .nothing → ∃ copy,
    ({} : Replica).applyAll (got ++ r.queue id) = (⟨copy⟩, []) ∧ s.InStep w cursor copy)

variable {r : Replicator} {s s' : Store} {id : ClientId} {w : Whitelist} {got : List Diff}

/-- `Serves` is kept whatever the store comes to. -/
theorem Serves.later (h : r.Serves s id w got) (hl : s.Later s') : r.Serves s' id w got := by
  obtain ⟨hlisten, cursor, hmem, hstep⟩ := h
  refine ⟨hlisten, cursor, hmem, ?_⟩
  intro hw
  obtain ⟨copy, hcopy, hin⟩ := hstep hw
  exact ⟨copy, hcopy, hin.later hl⟩

theorem Valid.queue_eq_nil (hr : r.Valid) (hid : r.lastId < id) : r.queue id = [] := by
  rw [queue, queued]
  cases hq : r.queues.find? fun q => q.1 = id with
  | none => rfl
  | some q =>
    have hle : q.1 ≤ r.lastId := hr.queues q (List.mem_of_find?_eq_some hq)
    have hfound := List.find?_some hq
    have heq : q.1 = id := of_decide_eq_true hfound
    exact absurd (heq ▸ hle) (Nat.not_le_of_lt hid)

/-! #### Publishing -/
/-- A round keeps `Valid`. -/
theorem valid_publish (hr : r.Valid) (s : Store) : (r.publish s).2.1.Valid where
  nodup := hr.nodup.sublist (stays_sublist s r.listens r.clients)
  clients := fun id hid => hr.clients id ((stays_sublist s r.listens r.clients).subset hid)
  queues := fun q hq => by
    -- The rounds go on to queue for the same numbers.
    have hany : ((r.publish s).2.1.queues.any fun p => p.1 = q.1) = true :=
      List.any_eq_true.2 ⟨q, hq, decide_eq_true rfl⟩
    rw [publish, any_foldl_send] at hany
    obtain ⟨p, hp, he⟩ := List.any_eq_true.1 hany
    exact of_decide_eq_true he ▸ hr.queues p hp

/-- A round keeps `Serves`, and after it the copy is what the whitelist lets pass of the tree. -/
theorem serves_publish (hr : r.Valid) (hs : s.Valid) (h : r.Serves s id w got) :
    (r.publish s).2.1.Serves s.closeTick id w got ∧ (w ≠ .nothing →
      ({} : Replica).applyAll (got ++ (r.publish s).2.1.queue id) =
        (⟨some (w.filter s.value)⟩, [])) := by
  obtain ⟨hlisten, cursor, hmem, hstep⟩ := h
  have hupdate := update_of_listens s ⟨w, cursor⟩
  have hqueue : (r.publish s).2.1.queue id = r.queue id ++ (s.diff w cursor).1.toList := by
    rw [publish, queue, queued_foldl_send _ hlisten, filter_sent s r.listens hr.nodup hmem,
      hlisten, hupdate]
    rfl
  -- What is sent leads the copy on, whether or not there is a difference.
  have hcopy : ∀ copy, ({} : Replica).applyAll (got ++ r.queue id) = (⟨copy⟩, []) →
      Diff.Leads (s.diff w cursor).1 copy (s.root.view w) →
      ({} : Replica).applyAll (got ++ (r.publish s).2.1.queue id) =
        (⟨some (s.root.view w)⟩, []) := by
    intro copy hall hleads
    rw [hqueue, ← List.append_assoc]
    exact Replica.applyAll_append hall hleads
  refine ⟨⟨?_, (s.diff w cursor).2.1, ?_, fun hw => ?_⟩, fun hw => ?_⟩
  · exact (any_foldl_send id _ r.queues).trans hlisten
  · exact mem_stays s r.listens hmem (by rw [hlisten, hupdate])
  · obtain ⟨copy, hall, hin⟩ := hstep hw
    obtain ⟨hcursor, hleads⟩ := hin.diff hw hs
    exact ⟨_, hcopy copy hall hleads, hcursor ▸ Store.inStep_capture hs w⟩
  · obtain ⟨copy, hall, hin⟩ := hstep hw
    exact hcopy copy hall (hin.diff hw hs).2

/-! #### Clients come and go -/

/-- Attaching a client keeps `Valid`. -/
theorem valid_attach (hr : r.Valid) (s : Store) (w : Whitelist) : (r.attach s w).2.1.Valid where
  nodup := by
    show ((r.clients ++ [(r.lastId + 1, _)]).map Prod.fst).Nodup
    rw [List.map_append, List.nodup_append]
    -- The new client has the next number, which is larger than all others.
    refine ⟨hr.nodup, List.pairwise_singleton _ _, ?_⟩
    intro a ha b hb
    rw [List.map_singleton, List.mem_singleton] at hb
    rw [hb]
    exact Nat.ne_of_lt (Nat.lt_succ_of_le (hr.clients a ha))
  clients := by
    intro id hid
    change id ∈ (r.clients ++ [(r.lastId + 1, _)]).map Prod.fst at hid
    show id ≤ r.lastId + 1
    rw [List.map_append, List.mem_append, List.map_singleton, List.mem_singleton] at hid
    rcases hid with hid | rfl
    · exact Nat.le_succ_of_le (hr.clients id hid)
    · exact Nat.le_refl _
  queues := by
    intro q hq
    change q ∈ r.queues ++ [(r.lastId + 1, _)] at hq
    show q.1 ≤ r.lastId + 1
    rw [List.mem_append, List.mem_singleton] at hq
    rcases hq with hq | rfl
    · exact Nat.le_succ_of_le (hr.queues q hq)
    · exact Nat.le_refl _

theorem queued_append {qs rs : List (ClientId × List Diff)} (id : ClientId) :
    queued (qs ++ rs) id =
      if (qs.any fun q => q.1 = id) = true then queued qs id else queued rs id := by
  induction qs with
  | nil => rfl
  | cons q rest ih =>
    rw [List.cons_append, queued_cons, queued_cons, ih, List.any_cons]
    by_cases hq : q.1 = id
    · rw [if_pos hq, if_pos hq, decide_eq_true hq, Bool.true_or, if_pos rfl]
    · rw [if_neg hq, if_neg hq, decide_eq_false hq, Bool.false_or]

/-- A client that attaches is served: everything that it may see is in its queue. -/
theorem serves_attach_new (hr : r.Valid) (hs : s.Valid) (w : Whitelist) :
    (r.attach s w).2.1.Serves s.closeTick (r.lastId + 1) w [] := by
  -- No older queue is for the new number.
  have hnew : ¬(r.queues.any fun q => q.1 = r.lastId + 1) = true := by
    intro h
    obtain ⟨q, hq, he⟩ := List.any_eq_true.1 h
    have hle : q.1 ≤ r.lastId := hr.queues q hq
    have heq : q.1 = r.lastId + 1 := of_decide_eq_true he
    exact Nat.not_succ_le_self _ (heq ▸ hle)
  have hqueue : (r.attach s w).2.1.queue (r.lastId + 1) = (s.diff w .unseen).1.toList := by
    show queued (r.queues ++ [(r.lastId + 1, _)]) _ = _
    rw [queued_append, if_neg hnew, queued_cons, if_pos rfl]
    rfl
  refine ⟨?_, (s.diff w .unseen).2.1, ?_, ?_⟩
  · show (r.queues ++ [(r.lastId + 1, _)]).any _ = true
    rw [List.any_append, Bool.or_eq_true]
    exact .inr (by simp)
  · exact List.mem_append_right _ (List.mem_singleton.2 rfl)
  · intro hw
    obtain ⟨hcursor, hleads⟩ := Store.InStep.unseen.diff hw hs
    refine ⟨_, ?_, hcursor ▸ Store.inStep_capture hs w⟩
    rw [List.nil_append, hqueue]
    have hempty : ({} : Replica).applyAll [] = (⟨none⟩, []) := rfl
    exact Replica.applyAll_append hempty hleads

/-- Attaching a client keeps `Serves` for the others. -/
theorem serves_attach (h : r.Serves s id w got) (hs : s.Valid) (v : Whitelist) :
    (r.attach s v).2.1.Serves s.closeTick id w got := by
  obtain ⟨hlisten, cursor, hmem, hstep⟩ := h.later (Store.later_closeTick hs)
  have hqueue : (r.attach s v).2.1.queue id = r.queue id :=
    (queued_append id).trans (if_pos hlisten)
  refine ⟨?_, cursor, List.mem_append_left _ hmem, hqueue ▸ hstep⟩
  show (r.queues ++ _).any _ = true
  rw [List.any_append, Bool.or_eq_true]
  exact .inl hlisten

/-- Detaching a client keeps `Valid`. -/
theorem valid_detach {r' : Replicator} (hr : r.Valid) (h : r.detach? id = some r') :
    r'.Valid := by
  unfold detach? at h
  split at h
  · cases h
    have hsub := (List.filter_sublist (p := fun c => c.1 ≠ id) (l := r.clients)).map Prod.fst
    exact ⟨hr.nodup.sublist hsub, fun i hi => hr.clients i (hsub.subset hi), hr.queues⟩
  · cases h

/-- Detaching a client keeps `Serves` for the others. -/
theorem serves_detach {r' : Replicator} {i : ClientId} (h : r.Serves s id w got)
    (hd : r.detach? i = some r') (hne : id ≠ i) : r'.Serves s id w got := by
  obtain ⟨hlisten, cursor, hmem, hstep⟩ := h
  unfold detach? at hd
  split at hd
  · cases hd
    exact ⟨hlisten, cursor, List.mem_filter.2 ⟨hmem, by simpa using hne⟩, hstep⟩
  · cases hd

theorem queued_emptied (i id : ClientId) (queues : List (ClientId × List Diff)) :
    queued (queues.map fun q => if q.1 = i then (q.1, []) else q) id =
      if id = i then [] else queued queues id := by
  induction queues with
  | nil =>
    rw [List.map_nil]
    split <;> rfl
  | cons q rest ih =>
    rw [List.map_cons, queued_cons, queued_cons, ih]
    -- The first queue is the one that is emptied, and then the one that is asked for, or neither.
    by_cases hq : q.1 = i
    · rw [if_pos hq]
      by_cases hid : id = i
      · rw [if_pos (hq.trans hid.symm), if_pos hid]
      · rw [if_neg fun h => hid (h.symm.trans hq), if_neg hid, if_neg hid,
          if_neg fun h => hid (h.symm.trans hq)]
    · rw [if_neg hq]
      by_cases hid : id = i
      · rw [if_neg fun h => hq (h.trans hid), if_pos hid, if_pos hid]
      · rw [if_neg hid, if_neg hid]

theorem any_emptied (i id : ClientId) (queues : List (ClientId × List Diff)) :
    ((queues.map fun q => if q.1 = i then (q.1, []) else q).any fun q => q.1 = id) =
      queues.any fun q => q.1 = id := by
  refine any_map_of_fst ?_ id queues
  intro q
  split
  · rfl
  · rfl

/-- Receiving keeps `Valid`. -/
theorem valid_receive (hr : r.Valid) (i : ClientId) : (r.receive i).2.Valid where
  nodup := hr.nodup
  clients := hr.clients
  queues := by
    intro q hq
    obtain ⟨p, hp, rfl⟩ := List.mem_map.1 hq
    have hle : p.1 ≤ r.lastId := hr.queues p hp
    split
    · exact hle
    · exact hle

/-- Receiving keeps `Serves`: differences move from the queue to what was received. -/
theorem serves_receive (h : r.Serves s id w got) (i : ClientId) :
    (r.receive i).2.Serves s id w (if id = i then got ++ (r.receive i).1 else got) := by
  obtain ⟨hlisten, cursor, hmem, hstep⟩ := h
  refine ⟨(any_emptied i id r.queues).trans hlisten, cursor, hmem, ?_⟩
  intro hw
  obtain ⟨copy, hcopy, hin⟩ := hstep hw
  refine ⟨copy, ?_, hin⟩
  show ({} : Replica).applyAll (_ ++ queued (r.queues.map _) id) = _
  rw [queued_emptied]
  by_cases hid : id = i
  · -- What was queued has been received, and nothing is queued any more.
    subst hid
    rw [if_pos rfl, if_pos rfl, List.append_nil]
    exact hcopy
  · rw [if_neg hid, if_neg hid]
    exact hcopy

/-- A client that stops listening keeps `Valid`. -/
theorem valid_stopListening (hr : r.Valid) (i : ClientId) : (r.stopListening i).Valid where
  nodup := hr.nodup
  clients := hr.clients
  queues := fun q hq => hr.queues q ((List.mem_filter.1 hq).1)

theorem queued_filter {i id : ClientId} (h : id ≠ i) (queues : List (ClientId × List Diff)) :
    queued (queues.filter fun q => q.1 ≠ i) id = queued queues id := by
  induction queues with
  | nil => rfl
  | cons q rest ih =>
    rw [List.filter_cons, queued_cons]
    by_cases hq : q.1 = i
    · rw [if_neg (by simpa using hq), ih, if_neg fun e => h (e.symm.trans hq)]
    · rw [if_pos (by simpa using hq), queued_cons, ih]

/-- A client that stops listening keeps `Serves` for the others. -/
theorem serves_stopListening {i : ClientId} (h : r.Serves s id w got) (hne : id ≠ i) :
    (r.stopListening i).Serves s id w got := by
  obtain ⟨hlisten, cursor, hmem, hstep⟩ := h
  have hqueue : (r.stopListening i).queue id = r.queue id := queued_filter hne r.queues
  refine ⟨?_, cursor, hmem, hqueue ▸ hstep⟩
  obtain ⟨q, hq, he⟩ := List.any_eq_true.1 hlisten
  refine List.any_eq_true.2 ⟨q, List.mem_filter.2 ⟨hq, ?_⟩, he⟩
  rw [of_decide_eq_true he]
  simpa using hne

end Replicator

end Observatory
